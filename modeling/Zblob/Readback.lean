import Zblob.Fetch
import Zblob.Snapshot

/-!
Bytes on their way out of a store that may answer anything. A materialized file is checked
again as it is written; the file that `fetch_file` hands over is checked for its length only.
-/

set_option autoImplicit false

namespace Zblob

open Program

def TreeIndex.entry (index : TreeIndex) (path : String) : Option Entry :=
  index.entries.find? fun e => e.path = path

def TreeIndex.fileChunks (index : TreeIndex) (path : String) : Option (List ChunkRef) :=
  match index.entry path with
  | some (.file _ _ _ _ chunks) => some chunks
  | _ => none

def assembleFile (store : ContentStore) : Nat → List ChunkRef → Result Bytes
  | _, [] => .ok []
  | now, c :: rest =>
    match store.get now c.hash with
    | .error e => .error e
    | .ok none => .error (.corruptStore c.hash)
    | .ok (some bytes) =>
      -- `bytes.len() as u32`
      if UInt32.ofNat bytes.length ≠ c.len then
        .error (.chunkLengthMismatch c.len (UInt32.ofNat bytes.length))
      else (assembleFile store (now + 1) rest).map (bytes ++ ·)

/-- What one `fetch_file` meets: the replies to its index query, what the store says it
has, the course of the chunk fetch, and the moment at which the assembly begins. -/
structure FileFetch where
  index : Option (List (Reply × ShardReplies))
  presence : Result (List Bool)
  inputs : List FetchInput
  now : Nat

section FetchFile

variable [Postcard TreeIndex] [Postcard IndexDescriptor] (th : TreeHash) (zstd : Zstd)
  (cfg : FetchConfig)

/-- How a chunk fetch ended; `none` is a fetch still under way. The store's answers are in
the inputs, so the map that the machine keeps is not looked at. -/
def runFetch (chunks : List ChunkRef) (env : FileFetch) : Option (Result TransferStats) :=
  (env.inputs.foldlM (Fetching.step th.hash zstd cfg chunks.length)
    (fetchMissing cfg chunks (fun _ => none) chunks.length env.presence)).bind fun s =>
      match s.phase with
      | .done r => some r
      | _ => none

def fetchFile (req : DownloadRequest) (path : String) (store : ContentStore) (env : FileFetch) :
    Option (Result Bytes) :=
  match fetchIndexMatching th zstd cfg.toTreeConfig req.id req.expectedRoot env.index with
  | .error e => some (.error e)
  | .ok index =>
    match index.fileChunks path with
    | none =>
      some (.error (.notFound ("snapshot " ++ index.id.debug ++ " has no file at " ++
        debugStr path)))
    | some chunks =>
      if chunkSum chunks > cfg.maxTreeBytes then
        some (.error (.invalidManifest ("file " ++ debugStr path ++
          s!" totals {chunkSum chunks} bytes, over the configured limit of {cfg.maxTreeBytes}")))
      else
        match runFetch th zstd cfg chunks env with
        | none => none
        | some (.error e) => some (.error e)
        | some (.ok _) => some (assembleFile store env.now chunks)

end FetchFile

def Matches (th : TreeHash) (chunks : List ChunkRef) (bytes : Bytes) : Prop :=
  ∃ pieces, List.Forall₂ (fun c p => p.length = c.len.toNat ∧ th.hash p = c.hash) chunks pieces ∧
    bytes = pieces.flatten

theorem ofNat_eq_len {n : Nat} {len : UInt32} (h : UInt32.ofNat n = len) :
    len.toNat = n % 2 ^ 32 := by
  rw [← h, UInt32.toNat_ofNat']

section Lengths

variable {chunks : List ChunkRef} {pieces : List Bytes}

theorem chunkSum_le (h : List.Forall₂ (fun c p => UInt32.ofNat p.length = c.len) chunks pieces) :
    chunkSum chunks ≤ pieces.flatten.length := by
  induction h with
  | nil => simp [chunkSum]
  | cons hlen _ ih =>
    have hmod := ofNat_eq_len hlen
    simp only [chunkSum, List.map_cons, List.sum_cons, List.flatten_cons, List.length_append]
      at ih ⊢
    omega

theorem exact_lengths {R : ChunkRef → Bytes → Prop}
    (h : List.Forall₂ (fun c p => UInt32.ofNat p.length = c.len ∧ R c p) chunks pieces)
    (hsum : pieces.flatten.length = chunkSum chunks) :
    List.Forall₂ (fun c p => p.length = c.len.toNat ∧ R c p) chunks pieces := by
  induction h with
  | nil => exact .nil
  | cons hhead htail ih =>
    have hmod := ofNat_eq_len hhead.1
    have hle := chunkSum_le (htail.imp fun _ _ h => h.1)
    simp only [chunkSum, List.map_cons, List.sum_cons, List.flatten_cons, List.length_append]
      at ih hle hsum
    exact .cons ⟨by omega, hhead.2⟩ (ih (by omega))

end Lengths

def OpenedFor (p : Path) (ino : Nat) (w : World) : Prop :=
  ∃ step ∈ w.log, step.call = .create p ∧ step.before.createIno p = some ino

theorem OpenedFor.did {p : Path} {ino : Nat} {w : World} (h : OpenedFor p ino w)
    (c : Syscall) (fs : Fs) :
    OpenedFor p ino (w.did c fs) := by
  obtain ⟨step, hs, hstep⟩ := h
  exact ⟨step, List.mem_append_left _ hs, hstep⟩

section Files

variable {th : TreeHash} {store : ContentStore} {policy : MaterializePolicy} {root : Path}

def Holding (p : Path) (ino : Nat) (bytes : Bytes) (w : World) : Prop :=
  OpenedFor p ino w ∧ w.fs.data ino = bytes

theorem holding_createFile {p : Path} {P : World → Prop} :
    Triple P (createFile p) (fun ino => Holding p ino []) fun _ => True := by
  refine triple_createFile (fun _ _ => trivial) (fun w r fs _ hr ha hd => ?_)
    fun w r ino _ hr ho => ?_
  · refine ⟨⟨⟨w.fs, .create p⟩, by simp [World.did], rfl, ?_⟩, hd⟩
    simp [Fs.createIno, hr, ha.absent]
  · refine ⟨⟨⟨w.fs, .create p⟩, by simp [World.did], rfl, ?_⟩, by simp [World.did, Fs.setData]⟩
    simp [Fs.createIno, hr, ho]

theorem holding_writeChunks {p : Path} {ino : Nat} (chunks : List ChunkRef) :
    Triple (Holding p ino []) (writeChunks th store ino chunks 0)
      (fun n w => ∃ pieces, Pieces th store chunks pieces ∧ n = pieces.flatten.length ∧
        Holding p ino pieces.flatten w) fun _ => True := by
  refine (triple_writeChunks (I := Holding p ino) (fun _ _ _ => trivial)
    (fun sofar w piece hw => ?_)
    (fun _ _ _ _ _ => trivial) chunks 0 []).post ?_
  · exact ⟨hw.1.did _ _, by simp [World.did, Fs.setData, hw.2]⟩
  · rintro n w ⟨pieces, hp, hn, hw⟩
    exact ⟨pieces, hp, by simpa using hn, by simpa using hw⟩

/-- One turn of the file loop: what was written is what the entry says, whatever the store
answered and whatever lay in the destination. -/
theorem makeContent_file {path : String} {mode : UInt32} {mtime : Int64} {size : UInt64}
    {chunks : List ChunkRef} {rel : RelPath} (hpath : sanitizeRelPath path = .ok rel)
    (hsize : chunkSum chunks = size.toNat) {P : World → Prop} :
    Triple P (makeContent th store policy root (.file path mode mtime size chunks))
      (fun _ w => ∃ ino, OpenedFor (root ++ rel) ino w ∧ Matches th chunks (w.fs.data ino))
      fun _ => True := by
  refine Triple.lift_bind hpath ?_
  refine Triple.bind Triple.trivial fun _ => Triple.bind Triple.trivial fun _ =>
    Triple.bind Triple.trivial fun _ => Triple.bind holding_createFile fun ino =>
    Triple.bind (holding_writeChunks chunks) fun written => ?_
  split
  · exact Triple.fail fun _ _ => trivial
  rename_i hwritten
  have last : ∀ bytes, Triple (Holding (root ++ rel) ino bytes)
      (do setMode (root ++ rel) mode policy; setMtime (.file ino) mtime)
      (fun _ => Holding (root ++ rel) ino bytes) fun _ => True := by
    intro bytes
    refine Triple.bind (Q := fun _ => Holding (root ++ rel) ino bytes)
      (triple_setMode (fun w r n mode hw _ _ => ⟨hw.1.did _ _, hw.2⟩) mode) fun _ =>
      triple_setMtime (fun w mtime hw => ⟨hw.1.did _ _, hw.2⟩) mtime
  intro io n w hw
  obtain ⟨pieces, hp, hn, hw⟩ := hw
  refine Triple.post (last pieces.flatten) (fun _ w hw => ⟨ino, hw.1, ?_⟩) io n w hw
  have hlens : List.Forall₂ (fun c p => UInt32.ofNat p.length = c.len ∧ th.hash p = c.hash)
      chunks pieces :=
    hp.imp fun _ _ h => h.2
  rw [hw.2]
  exact ⟨pieces, exact_lengths hlens (by rw [← hn, not_not.mp hwritten, hsize]), rfl⟩

end Files

/-- `reconstruct_tree` up to the second pass, and in it through the entries `done`. -/
def contentUpTo (th : TreeHash) (dest : Path) (entries done : List Entry) (store : ContentStore)
    (policy : MaterializePolicy) : FsProg Path := do
  createDirAll dest
  match ← Kernel.free.ask (.look true dest) (·.canonicalize dest) with
  | .error _ => .fail .io
  | .ok root => do
    entries.forM (makeDirectory root)
    done.forM (makeContent th store policy root)
    pure root

def fileFinished (th : TreeHash) (dest : Path) (entries done : List Entry) (e : Entry)
    (store : ContentStore) (policy : MaterializePolicy) : FsProg Path := do
  let root ← contentUpTo th dest entries done store policy
  makeContent th store policy root e
  pure root

/-- Every run of `reconstruct_tree` begins so, at each of its entries. -/
theorem reconstructTree_finishes (th : TreeHash) (dest : Path) (done rest : List Entry) (e : Entry)
    (store : ContentStore) (policy : MaterializePolicy) :
    reconstructTree th dest (done ++ e :: rest) store policy = (do
      let root ← fileFinished th dest (done ++ e :: rest) done e store policy
      rest.forM (makeContent th store policy root)
      (done ++ e :: rest).forM (makeSymlink policy root)
      (done ++ e :: rest).reverse.forM (finishDirectory policy root)) := by
  unfold reconstructTree Kernel.reconstructTree fileFinished contentUpTo
  simp only [bind_assoc, pure_bind]
  congr 1
  funext _
  congr 1
  funext found
  cases found with
  | error text => rfl
  | ok root => simp [Kernel.materializeUnder, List.forM_append]

theorem fileFinished_matches {th : TreeHash} {index : TreeIndex}
    {dest : Path} {done rest : List Entry}
    {path : String} {mode : UInt32} {mtime : Int64} {size : UInt64} {chunks : List ChunkRef}
    (hv : index.validate th = .ok ())
    (he : index.entries = done ++ .file path mode mtime size chunks :: rest) (store : ContentStore)
    (policy : MaterializePolicy) :
    Triple (fun _ => True)
      (fileFinished th dest index.entries done (.file path mode mtime size chunks) store policy)
      (fun root w => ∃ ino, OpenedFor (root ++ (Entry.file path mode mtime size chunks).rel) ino w ∧
        Matches th chunks (w.fs.data ino)) fun _ => True := by
  have ok := TreeIndex.validate_ok hv
  have hmem : Entry.file path mode mtime size chunks ∈ index.entries := by simp [he]
  refine Triple.bind Triple.trivial fun root => ?_
  exact Triple.bind (makeContent_file (ok.paths _ hmem) (ok.sizes _ _ _ _ _ hmem).1) fun _ =>
    Triple.ret fun _ h => h

/-- From the moment `now` on, what the store answers for each chunk in turn hashes to the
chunk's address, and is not so long that 32 bits cannot hold its length. -/
def Honours (th : TreeHash) (store : ContentStore) : Nat → List ChunkRef → Prop
  | _, [] => True
  | now, c :: rest =>
    (∀ bytes, store.get now c.hash = .ok (some bytes) →
      th.hash bytes = c.hash ∧ bytes.length < 2 ^ 32) ∧ Honours th store (now + 1) rest

section Assembly

variable {th : TreeHash} {store : ContentStore}

theorem assembleFile_cons {now : Nat} {c : ChunkRef} {rest : List ChunkRef} {out : Bytes}
    (h : assembleFile store now (c :: rest) = .ok out) :
    ∃ bytes tail, store.get now c.hash = .ok (some bytes) ∧ UInt32.ofNat bytes.length = c.len ∧
      assembleFile store (now + 1) rest = .ok tail ∧ out = bytes ++ tail := by
  unfold assembleFile at h
  split at h
  · cases h
  · cases h
  · rename_i bytes hget
    split at h
    · cases h
    · rename_i hlen
      cases ht : assembleFile store (now + 1) rest with
      | error e => simp [ht, Except.map] at h
      | ok tail =>
        simp only [ht, Except.map, Except.ok.injEq] at h
        exact ⟨bytes, tail, hget, not_not.mp hlen, rfl, h.symm⟩

theorem assembleFile_length {now : Nat} {chunks : List ChunkRef} {out : Bytes}
    (h : assembleFile store now chunks = .ok out) : chunkSum chunks ≤ out.length := by
  induction chunks generalizing now out with
  | nil => simp [chunkSum]
  | cons c rest ih =>
    obtain ⟨bytes, tail, -, hlen, htail, rfl⟩ := assembleFile_cons h
    have hmod := ofNat_eq_len hlen
    have hle := ih htail
    simp only [chunkSum, List.map_cons, List.sum_cons, List.length_append] at hle ⊢
    omega

theorem Matches.length {chunks : List ChunkRef} {bytes : Bytes} (h : Matches th chunks bytes) :
    bytes.length = chunkSum chunks := by
  obtain ⟨pieces, hp, rfl⟩ := h
  induction hp with
  | nil => simp [chunkSum]
  | cons hhead _ ih =>
    simp only [chunkSum, List.map_cons, List.sum_cons, List.flatten_cons,
      List.length_append] at ih ⊢
    omega

/-- What the assembly returns matches its addresses exactly when the store honoured them. -/
theorem assembleFile_matches_iff {now : Nat} {chunks : List ChunkRef} {out : Bytes}
    (h : assembleFile store now chunks = .ok out) :
    Matches th chunks out ↔ Honours th store now chunks := by
  induction chunks generalizing now out with
  | nil =>
    cases h
    exact ⟨fun _ => trivial, fun _ => ⟨[], .nil, rfl⟩⟩
  | cons c rest ih =>
    obtain ⟨bytes, tail, hget, hlen, htail, rfl⟩ := assembleFile_cons h
    have hmod := ofNat_eq_len hlen
    have hiff := ih htail
    constructor
    · intro hm
      -- the answers are as long as the pieces, or the whole would be too long
      have htotal := hm.length
      have hle := assembleFile_length htail
      obtain ⟨pieces, hp, hflat⟩ := hm
      cases hp with
      | cons hhead hrest =>
        rename_i p ps
        simp only [chunkSum, List.map_cons, List.sum_cons, List.length_append] at htotal hle
        have hsame : bytes.length = p.length := by omega
        obtain ⟨rfl, rfl⟩ := List.append_inj hflat hsame
        refine ⟨fun b hb => ?_, hiff.mp ⟨ps, hrest, rfl⟩⟩
        rw [hget] at hb
        cases hb
        have := c.len.toNat_lt
        exact ⟨hhead.2, by omega⟩
    · rintro ⟨hhead, hrest⟩
      obtain ⟨hhash, hlt⟩ := hhead bytes hget
      obtain ⟨ps, hp, rfl⟩ := hiff.mpr hrest
      exact ⟨bytes :: ps, .cons ⟨by omega, hhash⟩ hp, rfl⟩

end Assembly

section Handed

variable [Postcard TreeIndex] [Postcard IndexDescriptor] {th : TreeHash} {zstd : Zstd}
  {cfg : FetchConfig}

theorem fetchFile_ok {req : DownloadRequest} {path : String} {store : ContentStore}
    {env : FileFetch}
    {out : Bytes} (h : fetchFile th zstd cfg req path store env = some (.ok out)) :
    ∃ index chunks, fetchIndexMatching th zstd cfg.toTreeConfig req.id
      req.expectedRoot env.index = .ok index ∧
      index.fileChunks path = some chunks ∧ assembleFile store env.now chunks = .ok out := by
  unfold fetchFile at h
  cases hi : fetchIndexMatching th zstd cfg.toTreeConfig req.id req.expectedRoot env.index with
  | error e => simp [hi] at h
  | ok index =>
    simp only [hi] at h
    cases hc : index.fileChunks path with
    | none => simp [hc] at h
    | some chunks =>
      simp only [hc] at h
      split at h
      · cases h
      · split at h
        · cases h
        · cases h
        · exact ⟨index, chunks, rfl, hc, Option.some.inj h⟩

end Handed

/-- What tier 2 hands out, from a store that answers what it likes. A file that
`reconstruct_tree` finishes consists of pieces that match their addresses; the bytes that
`fetch_file` returns do so exactly when the store honoured the addresses. -/
theorem tier2_bytes_match_addresses [Postcard TreeIndex] [Postcard IndexDescriptor] (th : TreeHash)
    (zstd : Zstd) (cfg : FetchConfig) :
    (∀ (index : TreeIndex) (dest : Path) (done rest : List Entry) (path : String) (mode : UInt32)
      (mtime : Int64) (size : UInt64) (chunks : List ChunkRef) (store : ContentStore)
      (policy : MaterializePolicy) (io : Nat → KernelReply) (fs : Fs) (root : Path),
      index.validate th = .ok () →
      index.entries = done ++ .file path mode mtime size chunks :: rest →
      let finished :=
        fileFinished th dest index.entries done (.file path mode mtime size chunks) store
        policy
      let run := finished io 0 ⟨fs, []⟩
      (∃ remaining, reconstructTree th dest index.entries store policy = finished >>= remaining) ∧
      (run.1 = .ok root →
      ∃ ino, OpenedFor (root ++ (Entry.file path mode mtime size chunks).rel) ino run.2.2 ∧
        Matches th chunks (run.2.2.fs.data ino))) ∧
    ∀ (req : DownloadRequest) (path : String) (store : ContentStore) (env : FileFetch)
        (out : Bytes),
      fetchFile th zstd cfg req path store env = some (.ok out) →
      ∃ index chunks,
        fetchIndexMatching th zstd cfg.toTreeConfig req.id req.expectedRoot env.index = .ok index ∧
        index.fileChunks path = some chunks ∧
        (Matches th chunks out ↔ Honours th store env.now chunks) := by
  refine ⟨?_, ?_⟩
  · intro index dest done rest path mode mtime size chunks store policy io fs root hv he
    refine ⟨?_, (fileFinished_matches hv he store policy).of_ok True.intro⟩
    rw [he]
    exact ⟨_, reconstructTree_finishes th dest done rest _ store policy⟩
  · intro req path store env out h
    obtain ⟨index, chunks, hi, hc, hout⟩ := fetchFile_ok h
    exact ⟨index, chunks, hi, hc, assembleFile_matches_iff hout⟩

def fullPayload : Bytes :=
  [0x03, 0x01, 0x74, 0x06, 0x62, 0x6c, 0x61, 0x6b, 0x65, 0x33, 0x80, 0x80, 0x01, 0x80, 0x80, 0x04,
    0x80, 0x80, 0x10, 0x02, 0x00, 0x04, 0x00, 0x01, 0x64, 0xed, 0x03, 0x00, 0x01, 0x03, 0x64, 0x2f,
    0x78, 0xa4, 0x03, 0x00, 0x03, 0x01, 0x20, 0x64, 0x37, 0xb3, 0xac, 0x38, 0x46, 0x51, 0x33, 0xff,
    0xb6, 0x3b, 0x75, 0x27, 0x3a, 0x8d, 0xb5, 0x48, 0xc5, 0x58, 0x46, 0x5d, 0x79, 0xdb, 0x03, 0xfd,
    0x35, 0x9c, 0x6c, 0xd5, 0xbd, 0x9d, 0x85, 0x03, 0x03, 0x01, 0x68, 0x03, 0x64, 0x2f, 0x78, 0x02,
    0x01, 0x73, 0x01, 0x64, 0x20, 0xd5, 0xc5, 0x1e, 0x5a, 0x1b, 0x00, 0xe4, 0x52, 0x9e, 0x39, 0x45,
    0x05, 0x29, 0x7e, 0x5d, 0x5b, 0xe4, 0x54, 0x40, 0xf6, 0x62, 0xde, 0x77, 0x1f, 0x18, 0x87, 0x7d,
    0x9f, 0x50, 0x49, 0xe4, 0x32]

abbrev fullPostcard : Postcard TreeIndex :=
  ⟨fun payload => if payload = fullPayload then some fullIndex else none⟩

abbrev noDescriptors : Postcard IndexDescriptor := ⟨fun _ => none⟩

def fileConfig : FetchConfig := ⟨⟨"s", 1000, 0⟩, 1, 1000, one_at_a_time⟩

def heldFile : FileFetch where
  index := some [(.ok ⟨"t/t", encIndex, fullPayload⟩, ⟨fun _ => none, fun _ => none⟩)]
  presence := .ok [true]
  inputs := [.fill false]
  now := 0

def rottenStore : ContentStore where
  get _ hash := .ok (if hash = shortHash [97, 98, 99] then some [120, 121, 122] else none)

theorem tier2_bytes_match_addresses_full :
    let _ := fullPostcard
    let _ := noDescriptors
    fetchFile fullTree none fileConfig ⟨"t", none⟩ "d/x" shortStore heldFile =
      some (.ok [97, 98, 99]) ∧
      ∃ index chunks, fetchIndexMatching fullTree none fileConfig.toTreeConfig
      "t" none heldFile.index =
          .ok index ∧ index.fileChunks "d/x" = some chunks ∧
        (Matches fullTree chunks [97, 98, 99] ↔
          Honours fullTree shortStore heldFile.now chunks) := by
  let _ := fullPostcard
  let _ := noDescriptors
  have hok : fetchFile fullTree none fileConfig ⟨"t", none⟩ "d/x" shortStore heldFile =
      some (.ok [97, 98, 99]) := by decide +kernel
  exact ⟨hok, (tier2_bytes_match_addresses fullTree none fileConfig).2 ⟨"t", none⟩ "d/x" shortStore
    heldFile _ hok⟩

/-- `fetch_file` returns three wrong bytes for `abc`. -/
theorem fetch_file_hands_out_rot :
    let _ := fullPostcard
    let _ := noDescriptors
    fetchFile fullTree none fileConfig ⟨"t", none⟩ "d/x" rottenStore heldFile =
        some (.ok [120, 121, 122]) ∧
      fetchIndexMatching fullTree none fileConfig.toTreeConfig "t" none heldFile.index =
        .ok fullIndex ∧
      fullIndex.validate fullTree = .ok () ∧
      fullIndex.fileChunks "d/x" = some [⟨shortHash [97, 98, 99], 3⟩] ∧
      ¬Matches fullTree [⟨shortHash [97, 98, 99], 3⟩] [120, 121, 122] := by
  let _ := fullPostcard
  let _ := noDescriptors
  refine ⟨by decide +kernel, by decide +kernel, by decide +kernel, by decide +kernel, ?_⟩
  rintro ⟨pieces, hp, hflat⟩
  cases hp with
  | cons hhead hrest =>
    cases hrest with
    | nil =>
      rename_i p
      have hp : p = [120, 121, 122] := by simpa using hflat.symm
      rw [hp] at hhead
      exact absurd hhead.2 (by decide +kernel)

end Zblob

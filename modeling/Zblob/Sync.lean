import Zblob.Acceptance
import Zblob.FetchSafety
import Zblob.Identity
import Zblob.Roundtrip

/-!
A whole download of a snapshot: the index, the limits, the missing chunks, the
materialization. What comes out at the other end, with nobody on the way to be trusted, is
the directory that was built.
-/

set_option autoImplicit false

namespace Zblob

open Program

structure SyncConfig extends FetchConfig where
  maxTreeChunks : UInt32
  policy : MaterializePolicy

def Entry.size : Entry → UInt64
  | .file _ _ _ size _ => size
  | _ => 0

/-- `total_size`, whose sum wraps in a release build. -/
def TreeIndex.totalSize (index : TreeIndex) : UInt64 :=
  index.entries.foldl (fun sum e => sum + e.size) 0

/-- What a download meets: the replies to its index query, what the store says it has, and
the course of the chunk fetch. -/
structure TreeFetch where
  index : Option (List (Reply × ShardReplies))
  presence : Result (List Bool)
  inputs : List FetchInput

section Download

variable (hash : Bytes → Hash) (zstd : Zstd) (cfg : FetchConfig)

def fetchNeeded (index : TreeIndex) (store : ChunkMap) (env : TreeFetch) : Option Fetching :=
  env.inputs.foldlM (Fetching.step hash zstd cfg index.neededChunks.length)
    (fetchMissing cfg index.neededChunkRefs store index.neededChunks.length env.presence)

end Download

section Download

variable [Postcard TreeIndex] [Postcard IndexDescriptor] (th : TreeHash)
  (zstd : Zstd) (cfg : SyncConfig)
  (held : ChunkMap → ContentStore)

def affordable (index : TreeIndex) : Result Unit :=
  if index.totalSize.toNat > cfg.maxTreeBytes then
    .error (.invalidManifest
      (s!"snapshot totals {index.totalSize.toNat} bytes, " ++
        s!"over the configured limit of {cfg.maxTreeBytes}"))
  else if index.neededChunks.length > cfg.maxTreeChunks.toNat then
    .error (.invalidManifest (s!"snapshot references {index.neededChunks.length} chunks, " ++
      s!"over the configured limit of {cfg.maxTreeChunks.toNat}"))
  else .ok ()

/-- `run_download_tree`; `none` is a fetch still under way. The store takes what is put as
a map does, and answers `held` of it when it is read. -/
def runDownloadTree (req : DownloadRequest) (dest : Path) (store : ChunkMap) (env : TreeFetch) :
    Option (FsProg TransferStats) :=
  match fetchIndexMatching th zstd cfg.toTreeConfig req.id req.expectedRoot env.index with
  | .error e => some (.fail e)
  | .ok index =>
    match affordable cfg index with
    | .error e => some (.fail e)
    | .ok () =>
      (fetchNeeded th.hash zstd cfg.toFetchConfig index store env).bind fun s =>
        match s.phase with
        | .done (.error e) => some (.fail e)
        | .done (.ok stats) =>
          some do
            reconstructTree th dest index.entries (held s.store) cfg.policy
            pure stats
        | _ => none

end Download

section Download

variable [Postcard TreeIndex] [Postcard IndexDescriptor] {th : TreeHash}
  {zstd : Zstd} {cfg : SyncConfig}
  {held : ChunkMap → ContentStore}

/-- What a download that returns has gone through. -/
theorem runDownloadTree_ok {req : DownloadRequest} {dest : Path}
    {store : ChunkMap} {env : TreeFetch} {prog : FsProg TransferStats}
    (h : runDownloadTree th zstd cfg held req dest store env = some prog)
    {io : Nat → KernelReply} {n : Nat} {w : World} {stats : TransferStats}
    (hok : (prog io n w).1 = .ok stats) :
    ∃ index s, fetchIndexMatching th zstd cfg.toTreeConfig req.id
      req.expectedRoot env.index = .ok index ∧
      affordable cfg index = .ok () ∧ fetchNeeded th.hash zstd cfg.toFetchConfig
      index store env = some s ∧
      s.phase = .done (.ok stats) ∧
      (reconstructTree th dest index.entries (held s.store) cfg.policy io n w).1 = .ok () ∧
      (prog io n w).2.2 =
      (reconstructTree th dest index.entries (held s.store) cfg.policy io n w).2.2 := by
  unfold runDownloadTree at h
  split at h
  · cases h
    cases hok
  · rename_i index hindex
    split at h
    · cases h
      cases hok
    · rename_i hafford
      obtain ⟨s, hs, h⟩ := Option.bind_eq_some_iff.mp h
      split at h
      · cases h
        cases hok
      · rename_i stats' hdone
        cases h
        change (Prog.seq _ (fun _ => Prog.ret stats') io n w).1 = _ at hok
        change ∃ index s, _ ∧ _ ∧ _ ∧ _ ∧ _ ∧ (Prog.seq _ (fun _ => Prog.ret stats') io n w).2.2 = _
        refine ⟨index, s, hindex, hafford, hs, ?_⟩
        unfold Prog.seq at hok ⊢
        generalize reconstructTree th dest index.entries (held s.store) cfg.policy io n w =
          out at hok ⊢
        obtain ⟨r, k, v⟩ := out
        cases r with
        | error e => cases hok
        | ok u =>
          cases hok
          exact ⟨hdone, rfl, rfl⟩
      · cases h

theorem fetchIndexMatching_ok {cfg : TreeConfig} {id : String} {pin : Option Hash}
    {query : Option (List (Reply × ShardReplies))} {index : TreeIndex}
    (h : fetchIndexMatching th zstd cfg id pin query = .ok index) :
    ∃ replies, query = some replies ∧
      ∃ r ∈ replies, AcceptableIndex th zstd cfg id pin r index := by
  cases query with
  | none =>
    simp only [fetchIndexMatching, bind, Except.bind] at h
    split at h
    · cases h
    · cases h
  | some replies =>
    obtain ⟨before, r, after, rfl, hr, -⟩ := (fetchIndexMatching_selects replies index).mp h
    exact ⟨_, rfl, r, by simp, hr⟩

end Download

section Times

variable {th : TreeHash} {store : ContentStore} {root : Path} {fs : Fs} {e e' : Entry}

@[simp] theorem Entry.forgetMtime_path (e : Entry) : e.forgetMtime.path = e.path :=
  by cases e <;> rfl

@[simp] theorem Entry.forgetMtime_rel (e : Entry) : e.forgetMtime.rel = e.rel := by simp [Entry.rel]

@[simp] theorem Entry.forgetMtime_isDir (e : Entry) : e.forgetMtime.isDir = e.isDir :=
  by cases e <;> rfl

@[simp] theorem Entry.forgetMtime_chunks (e : Entry) : e.forgetMtime.chunks = e.chunks :=
  by cases e <;> rfl

@[simp] theorem Entry.forgetMtime_size (e : Entry) : e.forgetMtime.size = e.size :=
  by cases e <;> rfl

theorem Entry.rel_of_forget (h : e.forgetMtime = e'.forgetMtime) : e.rel = e'.rel := by
  rw [← e.forgetMtime_rel, h, e'.forgetMtime_rel]

theorem Entry.isFile_of_forget {e e' : Entry} (h : e.forgetMtime = e'.forgetMtime) :
    e.isFile = e'.isFile := by
  cases e <;> cases e' <;> first | rfl | cases h

theorem Entry.isDir_of_forget {e e' : Entry} (h : e.forgetMtime = e'.forgetMtime) :
    e.isDir = e'.isDir := by
  rw [← e.forgetMtime_isDir, h, e'.forgetMtime_isDir]

theorem Entry.eq_hardlink {e : Entry} {path target : String}
    (h : e.forgetMtime = (Entry.hardlink path target).forgetMtime) : e = .hardlink path target := by
  cases e <;> cases h
  rfl

theorem Entry.Makes.forget {x : Obj} (h : e.forgetMtime = e'.forgetMtime) (hm : e.Makes x) :
    e'.Makes x := by
  cases hm <;> cases e' <;> cases h <;> constructor

theorem Output.forget (h : e.forgetMtime = e'.forgetMtime) (ho : Output th store root fs e) :
    Output th store root fs e' := by
  have hrel := Entry.rel_of_forget h
  cases ho with
  | dir hplace =>
    cases e' <;> cases h
    rw [hrel] at hplace
    exact .dir hplace
  | file hplace hp hd hl =>
    cases e' <;> cases h
    rw [hrel] at hplace
    exact .file hplace hp hd hl
  | symlink hplace =>
    cases e' <;> cases h
    exact .symlink hplace
  | hardlink ht hplace hthere =>
    cases e' <;> cases h
    exact .hardlink ht hplace hthere

def SameButTimes (es es' : List Entry) : Prop :=
  es.map Entry.forgetMtime = es'.map Entry.forgetMtime

theorem SameButTimes.mem {es es' : List Entry} (h : SameButTimes es es') (he : e ∈ es) :
    ∃ e' ∈ es', e'.forgetMtime = e.forgetMtime := by
  have hmem : e.forgetMtime ∈ es'.map Entry.forgetMtime := h ▸ List.mem_map_of_mem he
  exact List.mem_map.mp hmem

theorem SameButTimes.symm {es es' : List Entry} (h : SameButTimes es es') :
    SameButTimes es' es := Eq.symm h

theorem Laid.forget {es es' : List Entry} {w : World} (hsame : SameButTimes es es')
    (h : Laid th store root es es w) : Laid th store root es' es' w := by
  refine ⟨h.anchored, fun q x hq ho => ?_, fun e' he' => ?_, fun e' he' hfile ino q hino hq => ?_⟩
  · rcases h.traced q x hq ho with ⟨e, he, hrel, hm⟩ | ⟨hx, e, he, hpre, hne⟩
    · obtain ⟨e', he', hforget⟩ := hsame.mem he
      exact .inl ⟨e', he', (Entry.rel_of_forget hforget).trans hrel, hm.forget hforget.symm⟩
    · obtain ⟨e', he', hforget⟩ := hsame.mem he
      rw [← Entry.rel_of_forget hforget] at hpre hne
      exact .inr ⟨hx, e', he', hpre, hne⟩
  · obtain ⟨e, he, hforget⟩ := hsame.symm.mem he'
    exact (h.outputs e he).forget hforget
  · obtain ⟨e, he, hforget⟩ := hsame.symm.mem he'
    rw [← Entry.rel_of_forget hforget] at hino ⊢
    refine (h.sole e he ((Entry.isFile_of_forget hforget).trans hfile) ino q hino hq).imp_right ?_
    rintro ⟨path, target, hl, hrel⟩
    obtain ⟨l, hl', hlforget⟩ := hsame.mem hl
    rw [Entry.eq_hardlink hlforget] at hl'
    exact ⟨path, target, hl', hrel⟩

theorem Apart.forget {es es' : List Entry} (hsame : SameButTimes es es') (h : Apart es) :
    Apart es' := by
  intro a ha b hb hdir hpre
  obtain ⟨a', ha', hfa⟩ := hsame.symm.mem ha
  obtain ⟨b', hb', hfb⟩ := hsame.symm.mem hb
  have hdir' : a'.isDir = false := by rw [← a'.forgetMtime_isDir, hfa, a.forgetMtime_isDir, hdir]
  rw [← Entry.rel_of_forget hfa, ← Entry.rel_of_forget hfb] at hpre ⊢
  exact h a' ha' b' hb' hdir' hpre

end Times

section Copy

variable {th : TreeHash} {cut : CdcParams → Bytes → List Bytes} {cdc : CdcParams}
  {tree : SourceTree}
  {walked : Walk} {seen : List (RelPath × SourceNode)}

theorem Recorded.apart (hrec : Recorded th cut cdc tree seen walked) (hperm : seen.Perm tree.nodes)
    (ok : EntriesOk cdc [] walked.entries) : Apart walked.entries := by
  intro a ha b hb hdir hpre
  by_contra hne
  obtain ⟨q, n, hq, hd⟩ := hrec.entryOf a ha
  obtain ⟨q', n', hq', hd'⟩ := hrec.entryOf b hb
  have hq := hperm.mem_iff.mp hq
  have hq' := hperm.mem_iff.mp hq'
  have hnil := ok.rel_ne_nil ha
  rw [hd.rel hq] at hpre hne hnil
  rw [hd'.rel hq'] at hpre hne
  obtain ⟨mode, mtime, readable, items, hp⟩ := tree.dir_above hq' hpre hnil hne
  cases tree.unique hq hp
  cases hd
  cases hdir

end Copy

theorem TreeIndex.validate_root {th : TreeHash} {index : TreeIndex}
    (h : index.validate th = .ok ()) :
    th.rootDigest index.entries = index.rootHash := by
  unfold TreeIndex.validate at h
  split at h
  · cases h
  · simp only [bind, Except.bind] at h
    split at h
    · cases h
    · split at h
      · cases h
      · split at h
        · cases h
        · split at h
          · cases h
          · rename_i hroot
            exact not_not.mp hroot

/-- Two lists of entries under one root say the same but for the times, unless the digest fails. -/
theorem same_root {hash : Bytes → Hash} {es es' : List Entry}
    (hfree : Distinguishes hash (rootPreimage es) (rootPreimage es'))
    (h : (TreeHash.postcard hash).rootDigest es = (TreeHash.postcard hash).rootDigest es') :
    SameButTimes es es' :=
  rootPreimage_eq_iff.mp (hfree h)

/-- What the replies to an index query can bring a client to take for the tree under `root`. -/
def Unforged [Postcard TreeIndex] [Postcard IndexDescriptor] (hash : Bytes → Hash)
    (zstd : Zstd) (cfg : TreeConfig)
    (id : String) (entries : List Entry) (replies : List (Reply × ShardReplies)) : Prop :=
  ∀ r ∈ replies, ∀ index, AcceptableIndex (TreeHash.postcard hash) zstd cfg id none r index →
    Distinguishes hash (rootPreimage index.entries) (rootPreimage entries)

theorem Unforged.same [Postcard TreeIndex] [Postcard IndexDescriptor] {hash : Bytes → Hash}
    {zstd : Zstd} {cfg : TreeConfig} {id : String} {entries : List Entry}
    {replies : List (Reply × ShardReplies)} (hforge : Unforged hash zstd cfg id entries replies)
    {r : Reply × ShardReplies} (hr : r ∈ replies) {got : TreeIndex}
    (hacc : AcceptableIndex (TreeHash.postcard hash) zstd cfg id
      (some ((TreeHash.postcard hash).rootDigest entries)) r got) :
    SameButTimes got.entries entries := by
  obtain ⟨sample, payload, hsample, hpayload, hlen, hdecode, hvalid, hid, hroot⟩ := hacc
  refine same_root (hforge r hr got
    ⟨sample, payload, hsample, hpayload, hlen, hdecode, hvalid, hid, by simp⟩) ?_
  rw [TreeIndex.validate_root hvalid]
  exact hroot _ rfl

/-- A download that pins the root of a directory's snapshot and returns has made an exact copy of
the directory, into whichever empty directory: no matter who answered which query with what, what
the store did with the chunks, what the kernel said, and what the policy lets entries do. -/
theorem download_tree_safe [Postcard TreeIndex] [Postcard IndexDescriptor]
    {hash : Bytes → Hash} {zstd : Zstd}
    {cfg : SyncConfig} {held : ChunkMap → ContentStore} {cut : CdcParams → Bytes → List Bytes}
    {cdc : CdcParams}
    {tree : SourceTree} {id : String} {built built' : ChunkMap} {index : TreeIndex}
    (hbuild : buildTree (TreeHash.postcard hash) cut tree id cdc built = .ok (index, built'))
    (hcut : CutsWell cut cdc tree) {req : DownloadRequest}
    (hpin : req.expectedRoot = some index.rootHash) {env : TreeFetch}
    (hforge : ∀ replies, env.index = some replies →
      Unforged hash zstd cfg.toTreeConfig req.id index.entries replies)
    {store : ChunkMap}
    (hmistake : ∀ got s, fetchNeeded hash zstd cfg.toFetchConfig got store env = some s →
      Unmistaken (TreeHash.postcard hash) cut cdc tree (held s.store))
    {fs : Fs} {dest root : Path} (hroot : fs.canonicalize dest = some root)
    (hdir : fs.obj root = some .dir)
    (hempty : ∀ q, q ≠ [] → fs.obj (root ++ q) = none) {prog : FsProg TransferStats}
    (hrun : runDownloadTree (TreeHash.postcard hash) zstd cfg held req dest store env = some prog)
    {io : Nat → KernelReply} {stats : TransferStats} (hok : (prog io 0 ⟨fs, []⟩).1 = .ok stats) :
    Mirrors tree root (prog io 0 ⟨fs, []⟩).2.2.fs := by
  obtain ⟨-, blobId, walked, -, hwalk, rfl, hvalid, rfl⟩ := buildTreeFrom_ok hbuild
  have ok : EntriesOk cdc [] walked.entries := TreeIndex.validate_ok hvalid
  obtain ⟨seen, hperm, hrec⟩ := walkTree_recorded (fun _ _ _ => rfl) hwalk
  obtain ⟨got, s, hgot, -, hfetched, -, hdone, hworld⟩ := runDownloadTree_ok hrun hok
  obtain ⟨replies, hreplies, r, hr, hacc⟩ := fetchIndexMatching_ok hgot
  -- the accepted index has the pinned root, so it is the built one up to its times
  rw [hpin] at hacc
  have hsame : SameButTimes got.entries walked.entries :=
    (hforge replies hreplies).same hr hacc
  obtain ⟨-, -, -, -, -, -, hgvalid, -⟩ := hacc
  have hapart : Apart got.entries := (hrec.apart hperm ok).forget hsame.symm
  have run := triple_destination (k := .free)
    (m := fun root =>
      materializeUnder (TreeHash.postcard hash) (held s.store) cfg.policy root got.entries)
    hroot hdir (Laid.start hdir hempty []) trivial
    (materializeUnder_laid (TreeIndex.validate_ok hgvalid) (.inr hapart))
  have laid := run.of_ok rfl hdone
  rw [hworld]
  exact (laid.passed.forget hsame).mirrors hrec hperm ok hcut (hmistake got s hfetched)

theorem Except.eq_ok_of_toOption {ε α : Type} {r : Except ε α} {a : α} (h : r.toOption = some a) :
    r = .ok a := by
  cases r with
  | error e => cases h
  | ok b =>
    cases h
    rfl

section Home

attribute [local instance] Format.indexWire Format.descriptorWire

def homeSent : Result (TreeIndex × ChunkMap) :=
  buildTree (TreeHash.postcard homeTree.hash) shortCut homeSource "t" transferCdc fun _ => none

def homeSync : SyncConfig := ⟨pairConfig, 4, ⟨true, false⟩⟩

def noShards : ShardReplies := ⟨fun _ => none, fun _ => none⟩

def homeFetch (index : TreeIndex) : TreeFetch where
  index :=
    some [(.ok ⟨"t/t", encIndex, [255]⟩, noShards), (.ok ⟨"t/t", encIndex, encode index⟩, noShards)]
  presence := .ok [false]
  inputs := [.round false (.ok ()),
    .turn false
    (some (.ok ⟨"s/blake3/" ++ (shortHash [97, 98, 99]).toHex, encChunk, [0, 120, 121, 122]⟩)) none,
    .turn false (some abcReply) none, .turn false none none, .round false (.ok ()), .fill false]

def homeProg (index : TreeIndex) : Option (FsProg TransferStats) :=
  runDownloadTree (TreeHash.postcard homeTree.hash) none homeSync ChunkMap.asStore
    ⟨"t", some index.rootHash⟩ ["dst"]
    (fun _ => none) (homeFetch index)

theorem homeSent_ok : homeSent.toBool = true := by decide +kernel

theorem homeTree_abc {b : Bytes} (h : homeTree.hash b = homeTree.hash [97, 98, 99]) :
    b = [97, 98, 99] := by
  have habc : homeTree.hash [97, 98, 99] = shortHash [97, 98, 99] := by decide +kernel
  rw [habc] at h
  unfold homeTree knownTree shortHash at h
  simp only at h
  split at h
  · exact absurd h (by decide +kernel)
  · split at h
    · exact absurd h (by decide +kernel)
    · split at h
      · assumption
      · split at h
        · exact absurd h (by decide +kernel)
        · split at h
          · exact absurd h (by decide +kernel)
          · exact absurd h (by decide +kernel)

theorem homeSource_piece {piece : Bytes} (hp : IsPiece shortCut transferCdc homeSource piece) :
    piece = [97, 98, 99] := by
  obtain ⟨q, f, hq, hcut⟩ := hp
  rw [homeItems_file hq] at hcut
  exact List.mem_singleton.mp hcut

theorem homeFetch_unforged {index : TreeIndex} {id : String} {replies : List (Reply × ShardReplies)}
    (h : (homeFetch index).index = some replies) :
    Unforged homeTree.hash none homeSync.toTreeConfig id index.entries replies := by
  intro r hr got hacc _
  cases h
  obtain ⟨sample, payload, hsample, hpayload, -, hdecode, -⟩ := hacc
  rcases List.mem_cons.mp hr with rfl | hr
  · cases hsample
    rw [indexPayload, if_neg (show ¬encIndex = encIndexDesc by decide), if_pos rfl] at hpayload
    cases hpayload
    have hbad : (decode TreeIndex [255]).toBool = false := by decide +kernel
    change decode TreeIndex [255] = _ at hdecode
    rw [hdecode] at hbad
    cases hbad
  · rw [List.mem_singleton.mp hr] at hsample hpayload
    cases hsample
    rw [indexPayload, if_neg (show ¬encIndex = encIndexDesc by decide), if_pos rfl] at hpayload
    cases hpayload
    rw [decode_encode] at hdecode
    cases hdecode
    rfl

theorem download_tree_safe_home : ∃ index store prog stats, homeSent = .ok (index, store) ∧
    homeProg index = some prog ∧ (prog (failing []) 0 ⟨emptyDst, []⟩).1 = .ok stats ∧
    Mirrors homeSource ["dst"] (prog (failing []) 0 ⟨emptyDst, []⟩).2.2.fs := by
  have hend : (homeSent.toOption.bind fun r => (homeProg r.1).bind fun prog =>
      (prog (failing []) 0 ⟨emptyDst, []⟩).1.toOption).isSome = true := by decide +kernel
  obtain ⟨stats, hend⟩ := Option.isSome_iff_exists.mp hend
  obtain ⟨⟨index, store⟩, hsent, hend⟩ := Option.bind_eq_some_iff.mp hend
  obtain ⟨prog, hprog, hend⟩ := Option.bind_eq_some_iff.mp hend
  have hbuild := Except.eq_ok_of_toOption hsent
  have hok := Except.eq_ok_of_toOption hend
  have hroot : emptyDst.canonicalize ["dst"] = some ["dst"] := by decide +kernel
  refine ⟨index, store, prog, stats, hbuild, hprog, hok, ?_⟩
  refine download_tree_safe hbuild homeSource_cuts rfl ?_ ?_ hroot
    (by decide +kernel) emptyDst_empty hprog hok
  · exact fun replies hreplies => homeFetch_unforged hreplies
  · intro got s _ now h b piece _ hp hhash
    rw [homeSource_piece hp] at hhash ⊢
    exact homeTree_abc hhash

end Home

end Zblob

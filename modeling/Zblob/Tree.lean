import Mathlib.Algebra.GroupWithZero.Nat
import Mathlib.Data.List.Nodup
import Zblob.Manifest
import Zblob.Paths

/-!
Directory snapshots: the entry list of an index and the checks every receiver runs on it.
-/

set_option autoImplicit false

namespace Zblob

structure ChunkRef where
  hash : Hash
  len : UInt32
  deriving DecidableEq

inductive Entry where
  | dir (path : String) (mode : UInt32) (mtime : Int64)
  | file (path : String) (mode : UInt32) (mtime : Int64) (size : UInt64) (chunks : List ChunkRef)
  | symlink (path : String) (target : String)
  | hardlink (path : String) (target : String)
  deriving DecidableEq

def Entry.path : Entry → String
  | .dir path _ _ => path
  | .file path _ _ _ _ => path
  | .symlink path _ => path
  | .hardlink path _ => path

def Entry.isDir : Entry → Bool
  | .dir _ _ _ => true
  | _ => false

def Entry.isSymlink : Entry → Bool
  | .symlink _ _ => true
  | _ => false

structure CdcParams where
  min : UInt32
  avg : UInt32
  max : UInt32
  normalization : UInt8
  gearSeed : UInt64
  deriving DecidableEq

def CdcParams.debug (p : CdcParams) : String :=
  s!"CdcParams \x7b min: {p.min.toNat}, avg: {p.avg.toNat}, max: {p.max.toNat}, " ++
    s!"normalization: {p.normalization.toNat}, gear_seed: {p.gearSeed.toNat} \x7d"

def CdcParams.validate (p : CdcParams) : Result Unit :=
  if p.min ≥ 64 ∧ p.min ≤ p.avg ∧ p.avg ≤ p.max ∧ p.avg ≥ 256 ∧ p.max ≤ 16 * 1024 * 1024 ∧
      p.normalization ≤ 3 then .ok ()
  else .error (.invalidManifest ("invalid CDC parameters " ++ p.debug))

structure TreeIndex where
  version : UInt16
  id : BlobId
  algo : HashAlgo
  cdc : CdcParams
  entries : List Entry
  rootHash : Hash
  deriving DecidableEq

inductive IdentityEntry where
  | dir (path : String) (mode : UInt32)
  | file (path : String) (mode : UInt32) (size : UInt64) (chunks : List ChunkRef)
  | symlink (path : String) (target : String)
  | hardlink (path : String) (target : String)

def Entry.identity : Entry → IdentityEntry
  | .dir path mode _ => .dir path mode
  | .file path mode _ size chunks => .file path mode size chunks
  | .symlink path target => .symlink path target
  | .hardlink path target => .hardlink path target

/-- The two outside functions that a tree root is made of: BLAKE3, and postcard over
`(WIRE_VERSION, Hash::ALGO, view)`. -/
structure TreeHash where
  hash : Bytes → Hash
  encode : UInt16 → HashAlgo → List IdentityEntry → Bytes

def TreeHash.rootDigest (th : TreeHash) (entries : List Entry) : Hash :=
  th.hash (th.encode wireVersion .blake3 (entries.map Entry.identity))

def chunkSum (chunks : List ChunkRef) : Nat := (chunks.map fun c => c.len.toNat).sum

def validateEntry (cdc : CdcParams) (rel : RelPath) (links : Links) : Entry → Result Links
  | .file path _ _ size chunks =>
    if chunkSum chunks ≠ size.toNat then
      .error (.invalidManifest ("file " ++ debugStr path ++
        s!": size {size.toNat} != chunk sum {chunkSum chunks}"))
    else
      match chunks.find? fun c => c.len = 0 ∨ c.len > cdc.max with
      | some bad => .error (.invalidManifest ("file " ++ debugStr path ++
          s!": chunk len {bad.len.toNat} outside 1..={cdc.max.toNat}"))
      | none => .ok links
  | .symlink _ target => (sanitizeSymlinkTarget rel target).map fun _ => links.insert rel target
  | .hardlink _ target => (sanitizeRelPath target).map fun _ => links
  | .dir _ _ _ => .ok links

def validateEntries (cdc : CdcParams) : List RelPath → Links → List Entry → Result Links
  | _, links, [] => .ok links
  | seen, links, e :: rest => do
    let rel ← sanitizeRelPath e.path
    if rel ∈ seen then .error (.invalidManifest ("duplicate entry path " ++ debugStr e.path))
    else
      let links ← validateEntry cdc rel links e
      validateEntries cdc (rel :: seen) links rest

def TreeIndex.validate (th : TreeHash) (index : TreeIndex) : Result Unit := do
  if index.version ≠ wireVersion then .error (.unsupportedVersion index.version)
  else
    index.cdc.validate
    let links ← validateEntries index.cdc [] [] index.entries
    assertSymlinksConfined links
    let actual := th.rootDigest index.entries
    if actual ≠ index.rootHash then .error (.rootMismatch index.rootHash actual) else .ok ()

def Entry.rel (e : Entry) : RelPath := (sanitizeRelPath e.path).toOption.getD []

theorem Entry.rel_of_ok {e : Entry} {rel : RelPath} (h : sanitizeRelPath e.path = .ok rel) :
    e.rel = rel := by simp [Entry.rel, h, Except.toOption]

/-- What the entry loop establishes: paths that differ from each other and from those
seen before, symlink and hard link targets that pass, sizes that add up. -/
structure EntriesOk (cdc : CdcParams) (seen : List RelPath) (entries : List Entry) : Prop where
  paths : ∀ e ∈ entries, sanitizeRelPath e.path = .ok e.rel
  fresh : ∀ e ∈ entries, e.rel ∉ seen
  distinct : (entries.map Entry.rel).Nodup
  symlinks : ∀ path target, .symlink path target ∈ entries →
    sanitizeSymlinkTarget (Entry.symlink path target).rel target = .ok ()
  hardlinks : ∀ path target, .hardlink path target ∈ entries →
    ∃ rel, sanitizeRelPath target = .ok rel
  sizes : ∀ path mode mtime size chunks, .file path mode mtime size chunks ∈ entries →
    chunkSum chunks = size.toNat ∧ ∀ c ∈ chunks, c.len ≠ 0 ∧ c.len ≤ cdc.max

theorem EntriesOk.unique {cdc : CdcParams} {seen : List RelPath} {entries : List Entry}
    (ok : EntriesOk cdc seen entries) {a b : Entry} (ha : a ∈ entries) (hb : b ∈ entries)
    (h : a.rel = b.rel) : a = b := List.inj_on_of_nodup_map ok.distinct ha hb h

theorem EntriesOk.rel_ne_nil {cdc : CdcParams} {seen : List RelPath} {entries : List Entry}
    (ok : EntriesOk cdc seen entries) {e : Entry} (he : e ∈ entries) : e.rel ≠ [] :=
  (sanitizeRelPath_ok (ok.paths e he)).1

section Validate

variable {cdc : CdcParams} {rel : RelPath} {links links' : Links} {e : Entry}

theorem validateEntry_symlink {path target : String}
    (h : validateEntry cdc rel links (.symlink path target) = .ok links') :
    sanitizeSymlinkTarget rel target = .ok () := by
  simp only [validateEntry] at h
  cases hs : sanitizeSymlinkTarget rel target with
  | error err => simp [hs, Except.map] at h
  | ok u => rfl

theorem validateEntry_hardlink {path target : String}
    (h : validateEntry cdc rel links (.hardlink path target) = .ok links') :
    ∃ r, sanitizeRelPath target = .ok r := by
  simp only [validateEntry] at h
  cases hs : sanitizeRelPath target with
  | error err => simp [hs, Except.map] at h
  | ok r => exact ⟨r, rfl⟩

theorem validateEntry_file {path : String} {mode : UInt32} {mtime : Int64} {size : UInt64}
    {chunks : List ChunkRef}
    (h : validateEntry cdc rel links (.file path mode mtime size chunks) = .ok links') :
    chunkSum chunks = size.toNat ∧ ∀ c ∈ chunks, c.len ≠ 0 ∧ c.len ≤ cdc.max := by
  simp only [validateEntry] at h
  split at h
  · cases h
  · rename_i hsum
    cases hf : chunks.find? fun c => c.len = 0 ∨ c.len > cdc.max with
    | some bad => simp only [hf] at h; cases h
    | none =>
      refine ⟨not_not.mp hsum, fun c hc => ?_⟩
      have hno := List.find?_eq_none.mp hf c hc
      simpa [not_or] using hno

theorem validateEntry_links (h : validateEntry cdc rel links e = .ok links') :
    e.isSymlink = false ∧ links' = links ∨
      ∃ path target, e = .symlink path target ∧ links' = links.insert rel target := by
  cases e with
  | dir path mode mtime =>
    cases h
    exact .inl ⟨rfl, rfl⟩
  | file path mode mtime size chunks =>
    simp only [validateEntry] at h
    split at h
    · cases h
    · split at h
      · cases h
      · cases h
        exact .inl ⟨rfl, rfl⟩
  | hardlink path target =>
    simp only [validateEntry] at h
    cases hs : sanitizeRelPath target with
    | error err => simp [hs, Except.map] at h
    | ok r =>
      simp only [hs, Except.map, Except.ok.injEq] at h
      exact .inl ⟨rfl, h.symm⟩
  | symlink path target =>
    simp only [validateEntry] at h
    cases hs : sanitizeSymlinkTarget rel target with
    | error err => simp [hs, Except.map] at h
    | ok u =>
      simp only [hs, Except.map, Except.ok.injEq] at h
      exact .inr ⟨path, target, rfl, h.symm⟩

theorem validateEntries_cons {seen : List RelPath} {rest : List Entry}
    (h : validateEntries cdc seen links (e :: rest) = .ok links') :
    ∃ next, sanitizeRelPath e.path = .ok e.rel ∧ e.rel ∉ seen ∧
      validateEntry cdc e.rel links e = .ok next ∧
      validateEntries cdc (e.rel :: seen) next rest = .ok links' := by
  simp only [validateEntries, bind, Except.bind] at h
  cases hp : sanitizeRelPath e.path with
  | error err => simp [hp] at h
  | ok rel =>
    obtain rfl := Entry.rel_of_ok hp
    simp only [hp] at h
    split at h
    · cases h
    · rename_i hnew
      cases hv : validateEntry cdc e.rel links e with
      | error err => simp [hv] at h
      | ok next =>
        simp only [hv] at h
        exact ⟨next, rfl, hnew, rfl, h⟩

theorem validateEntries_ok {seen : List RelPath} {entries : List Entry}
    (h : validateEntries cdc seen links entries = .ok links') : EntriesOk cdc seen entries := by
  induction entries generalizing seen links with
  | nil => exact ⟨by simp, by simp, by simp, by simp, by simp, by simp⟩
  | cons e rest ih =>
    obtain ⟨next, hp, hnew, hv, hrest⟩ := validateEntries_cons h
    have ok := ih hrest
    refine ⟨?_, ?_, ?_, ?_, ?_, ?_⟩
    · intro x hx
      rcases List.mem_cons.mp hx with rfl | hx
      · exact hp
      · exact ok.paths x hx
    · intro x hx
      rcases List.mem_cons.mp hx with rfl | hx
      · exact hnew
      · exact fun hm => ok.fresh x hx (List.mem_cons_of_mem _ hm)
    · rw [List.map_cons, List.nodup_cons]
      refine ⟨fun hm => ?_, ok.distinct⟩
      obtain ⟨x, hx, he⟩ := List.mem_map.mp hm
      exact ok.fresh x hx (by rw [he]; exact List.mem_cons_self)
    · intro path target hm
      rcases List.mem_cons.mp hm with rfl | hm
      · exact validateEntry_symlink hv
      · exact ok.symlinks path target hm
    · intro path target hm
      rcases List.mem_cons.mp hm with rfl | hm
      · exact validateEntry_hardlink hv
      · exact ok.hardlinks path target hm
    · intro path mode mtime size chunks hm
      rcases List.mem_cons.mp hm with rfl | hm
      · exact validateEntry_file hv
      · exact ok.sizes path mode mtime size chunks hm

theorem Links.get_insert (ls : Links) (path q : RelPath) (target : String) :
    (ls.insert path target).get q = if q = path then some target else ls.get q := by
  induction ls with
  | nil =>
    by_cases h : q = path
    · simp [Links.insert, Links.get, h]
    · simp [Links.insert, Links.get, h, Ne.symm h]
  | cons l ls ih =>
    simp only [Links.insert]
    split
    · rename_i hl
      by_cases h : q = path
      · simp [Links.get, h]
      · simp [Links.get, h, hl, Ne.symm h]
    · rename_i hl
      split
      · by_cases h : q = path
        · simp [Links.get, h]
        · simp [Links.get, h, Ne.symm h]
      · by_cases h : l.1 = q
        · have hne : q ≠ path := fun he => hl (h.trans he)
          simp [Links.get, h, hne]
        · have hskip : ∀ rest : Links, Links.get (l :: rest) q = Links.get rest q := by
            intro rest
            simp [Links.get, h]
          rw [hskip, hskip, ih]

theorem validateEntries_links {seen : List RelPath} {entries : List Entry}
    (h : validateEntries cdc seen links entries = .ok links')
    (hseen : ∀ q, links.get q ≠ none → q ∈ seen) (q : RelPath) (target : String) :
    links'.get q = some target ↔ links.get q = some target ∨
      ∃ path, Entry.symlink path target ∈ entries ∧ (Entry.symlink path target).rel = q := by
  induction entries generalizing seen links with
  | nil =>
    cases h
    simp
  | cons e rest ih =>
    obtain ⟨next, -, hnew, hv, hrest⟩ := validateEntries_cons h
    rcases validateEntry_links hv with ⟨hkind, rfl⟩ | ⟨path, t, rfl, rfl⟩
    · rw [ih hrest fun x hx => List.mem_cons_of_mem _ (hseen x hx)]
      refine or_congr_right ⟨?_, ?_⟩
      · rintro ⟨path, hm, hq⟩
        exact ⟨path, List.mem_cons_of_mem _ hm, hq⟩
      · rintro ⟨path, hm, hq⟩
        rcases List.mem_cons.mp hm with rfl | hm
        · cases hkind
        · exact ⟨path, hm, hq⟩
    · have hnone : links.get (Entry.symlink path t).rel = none := by
        by_contra hsome
        exact hnew (hseen _ hsome)
      have hseen' : ∀ x, (links.insert (Entry.symlink path t).rel t).get x ≠ none →
          x ∈ (Entry.symlink path t).rel :: seen := by
        intro x hx
        rw [Links.get_insert] at hx
        split at hx
        · rename_i hxr
          exact hxr ▸ List.mem_cons_self
        · exact List.mem_cons_of_mem _ (hseen x hx)
      rw [ih hrest hseen', Links.get_insert]
      constructor
      · rintro (hg | ⟨p, hm, hq⟩)
        · split at hg
          · rename_i hqr
            cases hg
            exact .inr ⟨path, List.mem_cons_self, hqr.symm⟩
          · exact .inl hg
        · exact .inr ⟨p, List.mem_cons_of_mem _ hm, hq⟩
      · rintro (hg | ⟨p, hm, hq⟩)
        · have hne : q ≠ (Entry.symlink path t).rel := by
            rintro rfl
            rw [hnone] at hg
            cases hg
          exact .inl (by rw [if_neg hne]; exact hg)
        · rcases List.mem_cons.mp hm with heq | hm
          · cases heq
            exact .inl (by rw [if_pos hq.symm])
          · exact .inr ⟨p, hm, hq⟩

theorem TreeIndex.validate_links {th : TreeHash} {index : TreeIndex}
    (h : index.validate th = .ok ()) :
    ∃ links, assertSymlinksConfined links = .ok () ∧ ∀ q target, links.get q = some target ↔
      ∃ path, Entry.symlink path target ∈ index.entries ∧
        (Entry.symlink path target).rel = q := by
  unfold TreeIndex.validate at h
  split at h
  · cases h
  · simp only [bind, Except.bind] at h
    cases hc : index.cdc.validate with
    | error e => simp [hc] at h
    | ok u =>
      simp only [hc] at h
      cases hv : validateEntries index.cdc [] [] index.entries with
      | error e => simp [hv] at h
      | ok links =>
        simp only [hv] at h
        cases ha : assertSymlinksConfined links with
        | error e => simp [ha] at h
        | ok u =>
          refine ⟨links, ha, fun q target => ?_⟩
          rw [validateEntries_links hv (by simp [Links.get])]
          simp [Links.get]

theorem TreeIndex.validate_ok {th : TreeHash} {index : TreeIndex} (h : index.validate th = .ok ()) :
    EntriesOk index.cdc [] index.entries := by
  unfold TreeIndex.validate at h
  split at h
  · cases h
  · simp only [bind, Except.bind] at h
    cases hc : index.cdc.validate with
    | error e => simp [hc] at h
    | ok u =>
      simp only [hc] at h
      cases hv : validateEntries index.cdc [] [] index.entries with
      | error e => simp [hv] at h
      | ok links => exact validateEntries_ok hv

end Validate

end Zblob

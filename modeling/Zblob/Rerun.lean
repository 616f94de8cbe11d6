import Zblob.Owner

/-!
A run over what an earlier run of the same entries has left. The owner's kernel answers by
the modes alone, so the run either lays out every entry or stops at one whose place the
modes, the list itself or the store do not let it lay; which of the two is decided by the
state it starts from.
-/

set_option autoImplicit false

namespace Zblob

open Program

/-- The arguments of a run: checked entries, and a policy that deletes no directory. -/
structure Job where
  th : TreeHash
  map : ChunkMap
  policy : MaterializePolicy
  root : Path
  entries : List Entry
  cdc : CdcParams
  ok : EntriesOk cdc [] entries
  keeps : policy.replaceDirectories = false

def Linked (seen : List Entry) (target : String) : Prop :=
  ∃ t ∈ seen, t.isContent = true ∧ sanitizeRelPath target = .ok t.rel

/-- The directories above `p` have, or will get, a mode that lets the owner through. -/
def Fs.Clear (fs : Fs) (p : Path) : Prop :=
  ∀ q, q <+: p → q ≠ p → ownerSearch (fs.dirBits q) = true

namespace Job

variable (j : Job)

def place (e : Entry) : Path := j.root ++ e.rel

def fileBits (fs : Fs) (mode : UInt32) : UInt32 :=
  if j.policy.bits mode = 0 then 0o666 &&& ~~~fs.umask else j.policy.bits mode

/-- What a run may leave, finished or not. -/
structure Remains (fs : Fs) : Prop where
  anchored : fs.obj j.root = some .dir
  traced : Traced j.entries j.root fs
  /-- A file whose entry sets no mode has the one it was made with. -/
  plain : ∀ path mode mtime size chunks ino, .file path mode mtime size chunks ∈ j.entries →
    j.policy.bits mode = 0 →
    fs.obj (j.place (.file path mode mtime size chunks)) = some (.file ino) →
    fs.mode (.file ino) = 0o666 &&& ~~~fs.umask
  distinct : ∀ a ∈ j.entries, ∀ b ∈ j.entries, a.isFile = true → b.isFile = true → ∀ ino,
    fs.obj (j.place a) = some (.file ino) → fs.obj (j.place b) = some (.file ino) → a = b
  /-- Nothing is laid past a hard link whose target does not come before it. -/
  links : ∀ seen path target rest, j.entries = seen ++ .hardlink path target :: rest →
    ∀ e ∈ j.entries, e.isSymlink = true ∨ e ∈ .hardlink path target :: rest →
      ∀ x, fs.obj (j.place e) = some x → x ≠ .dir → Linked seen target

structure Since (start fs : Fs) : Prop where
  umask : fs.umask = start.umask
  dirs : ∀ q, start.obj q = some .dir → fs.obj q = some .dir
  bits : ∀ q, fs.dirBits q = start.dirBits q
  placed : ∀ q name, j.root <+: q → fs.obj (q ++ [name]) ≠ none →
    start.obj (q ++ [name]) ≠ none ∨ ownerWrite (start.dirBits q) = true
  outside : ∀ q, ¬j.root <+: q → fs.obj q = start.obj q

structure Kept (start : Fs) (e : Entry) (fs : Fs) : Prop where
  stays : ∀ x, start.obj (j.place e) = some x → fs.obj (j.place e) = some x
  back : ∀ x, fs.obj (j.place e) = some x → x ≠ .dir → start.obj (j.place e) = some x
  mode : e.isFile = true → ∀ ino, fs.obj (j.place e) = some (.file ino) →
    fs.mode (.file ino) = start.mode (.file ino)

/-- An entry that has had its turn is there; a hard link shares the inode of its target,
which has had its turn as well. -/
def Stood (done : List Entry) (fs : Fs) : Entry → Prop
  | .dir path mode mtime => fs.obj (j.place (.dir path mode mtime)) = some .dir
  | .symlink path target => fs.obj (j.place (.symlink path target)) = some (.symlink target)
  | .file path mode mtime size chunks => ∃ ino,
    fs.obj (j.place (.file path mode mtime size chunks)) = some (.file ino) ∧
      fs.data ino = contentOf j.map chunks ∧ fs.mode (.file ino) = j.fileBits fs mode
  | .hardlink path target => ∃ t ∈ done, t.isContent = true ∧ sanitizeRelPath target = .ok t.rel ∧
      ∃ ino, fs.obj (j.place (.hardlink path target)) = some (.file ino) ∧
        fs.obj (j.place t) = some (.file ino)

def Room (start : Fs) (e : Entry) : Prop :=
  ownerWrite (start.dirBits (j.place e).dropLast) = true ∨ e.isFile = true ∧ ∃ ino,
    start.obj (j.place e) = some (.file ino) ∧ ownerWrite (start.mode (.file ino)) = true

def Stocked : Entry → Prop
  | .file _ _ _ size chunks =>
    (∀ c ∈ chunks, HasChunk j.th j.map c) ∧ (contentOf j.map chunks).length = size.toNat
  | _ => True

structure Fits (start : Fs) (e : Entry) : Prop where
  search : start.Clear (j.place e)
  room : e.isDir = false → j.Room start e
  stocked : j.Stocked e
  linked : ∀ path target, e = .hardlink path target → ∀ seen rest,
    j.entries = seen ++ e :: rest → Linked seen target

structure Ready (start : Fs) : Prop where
  apart : Apart j.entries
  fits : ∀ e ∈ j.entries, j.Fits start e
  /-- A directory that is not there can be made. -/
  made : ∀ e ∈ j.entries, ∀ q name, q ++ [name] <+: e.rel →
    start.obj (j.root ++ q ++ [name]) = none →
    ownerWrite (start.dirBits (j.root ++ q)) = true

structure Between (start : Fs) (seen done : List Entry) (fs : Fs) : Prop where
  remains : j.Remains fs
  since : j.Since start fs
  kept : ∀ e ∈ j.entries, e.isDir = false → e ∉ seen → j.Kept start e fs
  stood : ∀ e ∈ done, j.Stood done fs e
  fits : ∀ e ∈ done, j.Fits start e
  known : ∀ e ∈ done, e ∈ seen ∧ e ∈ j.entries

/-- A run has stopped, and had to. -/
def Stuck (start : Fs) (w : World) : Prop := j.Remains w.fs ∧ j.Since start w.fs ∧ ¬j.Ready start

end Job

section Steps

variable {j : Job} {start fs fs' : Fs} {seen done : List Entry} {e : Entry} {p : Path} {x : Obj}

theorem Job.place_inj {a b : Entry} (ha : a ∈ j.entries) (hb : b ∈ j.entries)
    (h : j.place a = j.place b) : a = b := j.ok.unique ha hb (List.append_cancel_left h)

theorem Job.Remains.makes (h : j.Remains fs) (he : e ∈ j.entries) (ho : fs.obj (j.place e) = some x)
    (hx : x ≠ .dir) : e.Makes x := by
  rcases h.traced e.rel x (j.ok.rel_ne_nil he) ho with ⟨y, hy, hrel, hm⟩ | ⟨hdir, -⟩
  · exact j.ok.unique hy he hrel ▸ hm
  · exact absurd hdir hx

theorem Job.Since.put (h : j.Since start fs) (ha : Put fs p x fs') (hp : j.root <+: p.dropLast)
    (hwrite : ownerWrite (fs.mode (.dir p.dropLast)) = true) : j.Since start fs' := by
  refine ⟨ha.umask.trans h.umask, fun q hq => ha.keeps (h.dirs q hq),
    fun q => (ha.dirBits q).trans (h.bits q), fun q name hq hne => ?_, fun q hq => ?_⟩
  · by_cases hqp : q ++ [name] = p
    · refine .inr ?_
      rw [← h.bits, Fs.dirBits]
      have hdrop : p.dropLast = q := by rw [← hqp, List.dropLast_concat]
      rw [hdrop] at hwrite
      rw [if_pos (by rw [← hdrop]; exact ha.parent)]
      exact hwrite
    · rw [ha.obj, if_neg hqp] at hne
      exact h.placed q name hq hne
  · rw [ha.obj, if_neg, h.outside q hq]
    rintro rfl
    exact hq (hp.trans (List.dropLast_prefix q))

theorem Job.Since.remove (h : j.Since start fs) (ho : fs.obj p = some x) (hx : x ≠ .dir)
    (hp : j.root <+: p) : j.Since start (fs.remove [p]) := by
  refine ⟨h.umask, fun q hq => ?_, fun q => (Fs.remove_dirBits ho hx q).trans (h.bits q),
    fun q name hq hne => ?_, fun q hq => ?_⟩
  · have hdir := h.dirs q hq
    rw [Fs.remove_one ho hx, if_neg, hdir]
    rintro rfl
    rw [ho] at hdir
    exact hx (Option.some.inj hdir)
  · rw [Fs.remove_one ho hx] at hne
    split at hne
    · exact absurd rfl hne
    · exact h.placed q name hq hne
  · rw [Fs.remove_one ho hx, if_neg, h.outside q hq]
    rintro rfl
    exact hq hp

theorem Job.Since.setData {ino : Nat} {bytes : Bytes} (h : j.Since start fs) :
    j.Since start (fs.setData ino bytes) := ⟨h.umask, h.dirs, h.bits, h.placed, h.outside⟩

theorem Job.Since.setMode {ino : Nat} {mode : UInt32} (h : j.Since start fs) :
    j.Since start (fs.setMode (.file ino) mode) := by
  refine ⟨h.umask, h.dirs, fun q => ?_, h.placed, h.outside⟩
  rw [← h.bits q]
  simp [Fs.dirBits, Fs.setMode]

theorem Job.Remains.put (h : j.Remains fs) (ha : Put fs p x fs')
    (hrole : ∀ q, p = j.root ++ q → (∃ e ∈ j.entries, e.rel = q ∧ e.Makes x) ∨
      x = .dir ∧ ∃ e ∈ j.entries, q <+: e.rel ∧ q ≠ e.rel)
    (hfile : ∀ a ∈ j.entries, a.isFile = true → j.place a = p → x ≠ .dir → x = .file fs.nextIno)
    (hlinks : x ≠ .dir → ∀ e ∈ j.entries, j.place e = p → ∀ seen path target rest,
      j.entries = seen ++ .hardlink path target :: rest →
      e.isSymlink = true ∨ e ∈ .hardlink path target :: rest → Linked seen target) :
    j.Remains fs' := by
  -- a file entry's place holds a new file or what it held before
  have source : ∀ a ∈ j.entries, a.isFile = true → ∀ ino, fs'.obj (j.place a) = some (.file ino) →
      j.place a = p ∧ ino = fs.nextIno ∧ x = .file fs.nextIno ∨
        fs.obj (j.place a) = some (.file ino) ∧ ino < fs.nextIno := by
    intro a hmem hafile ino ho
    rw [ha.obj] at ho
    split at ho
    · rename_i hap
      cases ho
      have hnew := hfile a hmem hafile hap (by simp)
      cases hnew
      exact .inl ⟨hap, rfl, rfl⟩
    · exact .inr ⟨ho, fs.fresh _ _ ho⟩
  refine ⟨ha.keeps h.anchored, h.traced.added ha.toAdded hrole, ?_, ?_, ?_⟩
  · intro path mode mtime size chunks ino hmem hbits ho
    rw [ha.umask]
    rcases source _ hmem rfl ino ho with ⟨-, rfl, hx⟩ | ⟨hold, hlt⟩
    · exact (ha.fresh hx).2
    · rw [ha.fileMode hlt]
      exact h.plain path mode mtime size chunks ino hmem hbits hold
  · intro a hamem b hbmem hafile hbfile ino hao hbo
    rcases source a hamem hafile ino hao with ⟨hap, rfl, -⟩ | ⟨haold, halt⟩
    · rcases source b hbmem hbfile _ hbo with ⟨hbp, -⟩ | ⟨-, hlt⟩
      · exact Job.place_inj hamem hbmem (hap.trans hbp.symm)
      · exact absurd hlt (Nat.lt_irrefl _)
    · rcases source b hbmem hbfile ino hbo with ⟨-, rfl, -⟩ | ⟨hbold, -⟩
      · exact absurd halt (Nat.lt_irrefl _)
      · exact h.distinct a hamem b hbmem hafile hbfile ino haold hbold
  · intro seen path target rest hsplit e he hor y ho hy
    rw [ha.obj] at ho
    split at ho
    · rename_i hep
      cases ho
      exact hlinks hy e he hep seen path target rest hsplit hor
    · exact h.links seen path target rest hsplit e he hor y ho hy

theorem Job.Remains.remove (h : j.Remains fs) (ho : fs.obj p = some x) (hx : x ≠ .dir) :
    j.Remains (fs.remove [p]) := by
  have before : ∀ {q y}, (fs.remove [p]).obj q = some y → fs.obj q = some y := by
    intro q y hq
    rw [Fs.remove_one ho hx] at hq
    split at hq
    · cases hq
    · exact hq
  refine ⟨?_, fun q y hq hy => h.traced q y hq (before hy), ?_, ?_, ?_⟩
  · rw [Fs.remove_one ho hx, if_neg, h.anchored]
    rintro rfl
    rw [h.anchored] at ho
    exact hx (Option.some.inj ho).symm
  · intro path mode mtime size chunks ino hmem hbits hino
    exact h.plain path mode mtime size chunks ino hmem hbits (before hino)
  · intro a hamem b hbmem hafile hbfile ino hao hbo
    exact h.distinct a hamem b hbmem hafile hbfile ino (before hao) (before hbo)
  · intro seen path target rest hsplit e he hor y hy hne
    exact h.links seen path target rest hsplit e he hor y (before hy) hne

theorem Job.Remains.setData {ino : Nat} {bytes : Bytes} (h : j.Remains fs) :
    j.Remains (fs.setData ino bytes) := ⟨h.anchored, h.traced, h.plain, h.distinct, h.links⟩

theorem Job.Remains.setMode {path : String} {mode : UInt32} {mtime : Int64} {size : UInt64}
    {chunks : List ChunkRef} {ino : Nat} (h : j.Remains fs)
    (he : .file path mode mtime size chunks ∈ j.entries) (hbits : j.policy.bits mode ≠ 0)
    (ho : fs.obj (j.place (.file path mode mtime size chunks)) = some (.file ino)) :
    j.Remains (fs.setMode (.file ino) (j.policy.bits mode)) := by
  refine ⟨h.anchored, h.traced, fun path' mode' mtime' size' chunks' ino' hmem' hbits' ho' => ?_,
    h.distinct, h.links⟩
  have hne : ino' ≠ ino := by
    rintro rfl
    cases h.distinct _ hmem' _ he rfl rfl ino' ho' ho
    exact hbits hbits'
  simpa [Fs.setMode, hne] using h.plain path' mode' mtime' size' chunks' ino' hmem' hbits' ho'

theorem Job.Kept.put (h : j.Kept start e fs) (ha : Put fs p x fs')
    (hne : x ≠ .dir → j.place e ≠ p) :
    j.Kept start e fs' := by
  have before : ∀ y, fs'.obj (j.place e) = some y → y ≠ .dir → fs.obj (j.place e) = some y := by
    intro y hy hdir
    rw [ha.obj] at hy
    split at hy
    · rename_i hep
      cases hy
      exact absurd hep (hne hdir)
    · exact hy
  refine ⟨fun y hy => ha.keeps (h.stays y hy), fun y hy hdir => h.back y (before y hy hdir) hdir,
    fun hfile ino ho => ?_⟩
  have hold := before _ ho (by simp)
  rw [ha.fileMode (fs.fresh _ _ hold)]
  exact h.mode hfile ino hold

theorem Job.Kept.remove (h : j.Kept start e fs) (ho : fs.obj p = some x) (hx : x ≠ .dir)
    (hne : j.place e ≠ p) : j.Kept start e (fs.remove [p]) := by
  have same : (fs.remove [p]).obj (j.place e) = fs.obj (j.place e) := by
    rw [Fs.remove_one ho hx, if_neg hne]
  exact ⟨fun y hy => same.trans (h.stays y hy), fun y hy hdir => h.back y (same ▸ hy) hdir,
    fun hfile ino hino => h.mode hfile ino (same ▸ hino)⟩

theorem Job.Kept.setData {ino : Nat} {bytes : Bytes} (h : j.Kept start e fs) :
    j.Kept start e (fs.setData ino bytes) := ⟨h.stays, h.back, h.mode⟩

theorem Job.Kept.setMode {ino : Nat} {mode : UInt32} (h : j.Kept start e fs)
    (hne : e.isFile = true → fs.obj (j.place e) ≠ some (.file ino)) :
    j.Kept start e (fs.setMode (.file ino) mode) := by
  refine ⟨h.stays, h.back, fun hfile i ho => ?_⟩
  have hi : i ≠ ino := by
    rintro rfl
    exact hne hfile ho
  rw [← h.mode hfile i ho]
  simp [Fs.setMode, hi]

theorem Job.Stood.put (h : j.Stood done fs e) (ha : Put fs p x fs') : j.Stood done fs' e := by
  cases e with
  | dir path mode mtime => exact ha.keeps h
  | symlink path target => exact ha.keeps h
  | file path mode mtime size chunks =>
    obtain ⟨ino, ho, hdata, hmode⟩ := h
    have hlt := fs.fresh _ _ ho
    refine ⟨ino, ha.keeps ho, (ha.data ino hlt).trans hdata, ?_⟩
    rw [ha.fileMode hlt, hmode, Job.fileBits, Job.fileBits, ha.umask]
  | hardlink path target =>
    obtain ⟨t, ht, hcontent, htarget, ino, ho, hto⟩ := h
    exact ⟨t, ht, hcontent, htarget, ino, ha.keeps ho, ha.keeps hto⟩

theorem Job.Stood.remove (h : j.Stood done fs e) (ho : fs.obj p = some x) (hx : x ≠ .dir)
    (hne : j.place e ≠ p) (hdone : ∀ a ∈ done, j.place a ≠ p) : j.Stood done (fs.remove [p]) e := by
  have same : ∀ q, q ≠ p → (fs.remove [p]).obj q = fs.obj q := fun q hq => by
    rw [Fs.remove_one ho hx, if_neg hq]
  cases e with
  | dir path mode mtime => exact (same _ hne).trans h
  | symlink path target => exact (same _ hne).trans h
  | file path mode mtime size chunks =>
    obtain ⟨ino, hino, hdata, hmode⟩ := h
    exact ⟨ino, (same _ hne).trans hino, hdata, hmode⟩
  | hardlink path target =>
    obtain ⟨t, ht, hcontent, htarget, ino, hino, hto⟩ := h
    exact ⟨t, ht, hcontent, htarget, ino, (same _ hne).trans hino, (same _ (hdone t ht)).trans hto⟩

theorem Job.Stood.frame (h : j.Stood done fs e) (hobj : ∀ q, fs'.obj q = fs.obj q)
    (humask : fs'.umask = fs.umask)
    (hino : e.isFile = true → ∀ ino, fs.obj (j.place e) = some (.file ino) →
      fs'.data ino = fs.data ino ∧ fs'.mode (.file ino) = fs.mode (.file ino)) :
    j.Stood done fs' e := by
  cases e with
  | dir path mode mtime => exact (hobj _).trans h
  | symlink path target => exact (hobj _).trans h
  | file path mode mtime size chunks =>
    obtain ⟨ino, ho, hdata, hmode⟩ := h
    obtain ⟨hd, hm⟩ := hino rfl ino ho
    refine ⟨ino, (hobj _).trans ho, hd.trans hdata, ?_⟩
    rw [hm, hmode, Job.fileBits, Job.fileBits, humask]
  | hardlink path target =>
    obtain ⟨t, ht, hcontent, htarget, ino, ho, hto⟩ := h
    exact ⟨t, ht, hcontent, htarget, ino, (hobj _).trans ho, (hobj _).trans hto⟩

theorem Job.Stood.mono {done' : List Entry} (h : j.Stood done fs e) (hsub : ∀ a ∈ done, a ∈ done') :
    j.Stood done' fs e := by
  cases e with
  | dir path mode mtime => exact h
  | symlink path target => exact h
  | file path mode mtime size chunks => exact h
  | hardlink path target =>
    obtain ⟨t, ht, hrest⟩ := h
    exact ⟨t, hsub t ht, hrest⟩

theorem Job.root_parent (he : e ∈ j.entries) : j.root <+: (j.place e).dropLast := by
  rw [Job.place, List.dropLast_append_of_ne_nil (j.ok.rel_ne_nil he)]
  exact List.prefix_append _ _

theorem Job.Remains.other {ino : Nat} {a : Entry} (h : j.Remains fs) (he : e ∈ j.entries)
    (hfile : e.isFile = true) (ho : fs.obj (j.place e) = some (.file ino)) (ha : a ∈ j.entries)
    (hne : a ≠ e) (hafile : a.isFile = true) : fs.obj (j.place a) ≠ some (.file ino) := fun hao =>
  hne (h.distinct a ha e he hafile hfile ino hao ho)

theorem Job.Between.mkdir {q : RelPath} {name : String} (h : j.Between start seen done fs)
    (he : e ∈ j.entries) (hq : q ++ [name] <+: e.rel) (hdir : q ++ [name] = e.rel → e.isDir = true)
    (ha : Put fs (j.root ++ q ++ [name]) .dir fs')
    (hwrite : ownerWrite (fs.mode (.dir (j.root ++ q))) = true) :
    j.Between start seen done fs' := by
  have hdrop : (j.root ++ q ++ [name]).dropLast = j.root ++ q := List.dropLast_concat
  refine ⟨h.remains.put ha ?_ (fun _ _ _ _ hx => absurd rfl hx) (fun hx => absurd rfl hx),
    h.since.put ha (by rw [hdrop]; exact List.prefix_append _ _) (by rwa [hdrop]),
    fun a ha' hafile hseen => (h.kept a ha' hafile hseen).put ha fun hx => absurd rfl hx,
    fun a ha' => (h.stood a ha').put ha, h.fits, h.known⟩
  intro r hr
  have hrq : q ++ [name] = r := List.append_cancel_left (by rw [← hr, List.append_assoc])
  by_cases hend : q ++ [name] = e.rel
  · refine .inl ⟨e, he, hend.symm.trans hrq, ?_⟩
    cases e with
    | dir path mode mtime => exact .dir
    | file path mode mtime size chunks => cases hdir hend
    | symlink path target => cases hdir hend
    | hardlink path target => cases hdir hend
  · exact .inr ⟨rfl, e, he, hrq ▸ hq, hrq ▸ hend⟩

theorem Job.Between.put (h : j.Between start seen done fs) (he : e ∈ j.entries) (hseen : e ∈ seen)
    (ha : Put fs (j.place e) x fs') (hm : e.Makes x)
    (hwrite : ownerWrite (fs.mode (.dir (j.place e).dropLast)) = true)
    (hfile : e.isFile = true → x = .file fs.nextIno)
    (hlinks : ∀ before path target rest, j.entries = before ++ .hardlink path target :: rest →
      e.isSymlink = true ∨ e ∈ .hardlink path target :: rest → Linked before target) :
    j.Between start seen done fs' := by
  have own : ∀ a ∈ j.entries, j.place a = j.place e → a = e := fun a hmem => Job.place_inj hmem he
  refine ⟨h.remains.put ha (fun q hq => .inl ⟨e, he, (List.append_cancel_left hq), hm⟩) ?_ ?_,
    h.since.put ha (Job.root_parent he) hwrite, fun a hmem hafile hnot => ?_,
    fun a hmem => (h.stood a hmem).put ha, h.fits, h.known⟩
  · rintro a hmem hafile hap -
    exact hfile (own a hmem hap ▸ hafile)
  · rintro - a hmem hap before path target rest hsplit hor
    cases own a hmem hap
    exact hlinks before path target rest hsplit hor
  · refine (h.kept a hmem hafile hnot).put ha fun _ hap => ?_
    exact hnot (own a hmem hap ▸ hseen)

theorem Job.Between.remove (h : j.Between start seen done fs) (he : e ∈ j.entries)
    (hseen : e ∈ seen)
    (hnew : e ∉ done) (ho : fs.obj (j.place e) = some x) (hx : x ≠ .dir) :
    j.Between start seen done (fs.remove [j.place e]) := by
  have other : ∀ a ∈ done, j.place a ≠ j.place e := fun a ha hap =>
    hnew (Job.place_inj (h.known a ha).2 he hap ▸ ha)
  refine ⟨h.remains.remove ho hx, h.since.remove ho hx (List.prefix_append _ _),
    fun a hmem hafile hnot => (h.kept a hmem hafile hnot).remove ho hx fun hap => ?_,
    fun a ha => (h.stood a ha).remove ho hx (other a ha) other, h.fits, h.known⟩
  exact hnot (Job.place_inj hmem he hap ▸ hseen)

theorem Job.Between.setData {ino : Nat} {bytes : Bytes} (h : j.Between start seen done fs)
    (he : e ∈ j.entries) (hnew : e ∉ done) (hfile : e.isFile = true)
    (ho : fs.obj (j.place e) = some (.file ino)) :
    j.Between start seen done (fs.setData ino bytes) := by
  refine ⟨h.remains.setData, h.since.setData, fun a hmem hafile hnot =>
    (h.kept a hmem hafile hnot).setData,
    fun a ha => (h.stood a ha).frame (fun _ => rfl) rfl fun hafile i hi => ⟨?_, rfl⟩,
    h.fits, h.known⟩
  have hother := h.remains.other he hfile ho (h.known a ha).2 (fun hae => hnew (hae ▸ ha)) hafile
  have hne : i ≠ ino := by
    rintro rfl
    exact hother hi
  simp [Fs.setData, hne]

theorem Job.Between.setMode {path : String} {mode : UInt32} {mtime : Int64} {size : UInt64}
    {chunks : List ChunkRef} {ino : Nat} (h : j.Between start seen done fs)
    (he : .file path mode mtime size chunks ∈ j.entries)
    (hseen : .file path mode mtime size chunks ∈ seen)
    (hnew : .file path mode mtime size chunks ∉ done) (hbits : j.policy.bits mode ≠ 0)
    (ho : fs.obj (j.place (.file path mode mtime size chunks)) = some (.file ino)) :
    j.Between start seen done (fs.setMode (.file ino) (j.policy.bits mode)) := by
  refine ⟨h.remains.setMode he hbits ho, h.since.setMode, fun a hmem hafile hnot => ?_,
    fun a ha => (h.stood a ha).frame (fun _ => rfl) rfl fun hafile i hi => ⟨rfl, ?_⟩,
    h.fits, h.known⟩
  · exact (h.kept a hmem hafile hnot).setMode fun hisFile =>
      h.remains.other he rfl ho hmem (fun hae => hnot (hae ▸ hseen)) hisFile
  · have hother := h.remains.other he rfl ho (h.known a ha).2 (fun hae => hnew (hae ▸ ha)) hafile
    have hne : i ≠ ino := by
      rintro rfl
      exact hother hi
    simp [Fs.setMode, hne]

theorem Job.Between.see (h : j.Between start seen done fs) (e : Entry) :
    j.Between start (seen ++ [e]) done fs := by
  refine ⟨h.remains, h.since, fun a hmem hafile hnot => ?_, h.stood, h.fits, fun a ha => ?_⟩
  · exact h.kept a hmem hafile fun hseen => hnot (List.mem_append_left _ hseen)
  · exact ⟨List.mem_append_left _ (h.known a ha).1, (h.known a ha).2⟩

theorem Job.Between.lay (h : j.Between start seen done fs) (he : e ∈ j.entries) (hseen : e ∈ seen)
    (hstood : j.Stood done fs e) (hfits : j.Fits start e) :
    j.Between start seen (done ++ [e]) fs := by
  have sub : ∀ a ∈ done, a ∈ done ++ [e] := fun a ha => List.mem_append_left _ ha
  refine ⟨h.remains, h.since, h.kept, fun a ha => ?_, fun a ha => ?_, fun a ha => ?_⟩
  · rcases List.mem_append.mp ha with ha | ha
    · exact (h.stood a ha).mono sub
    · exact List.mem_singleton.mp ha ▸ hstood.mono sub
  · rcases List.mem_append.mp ha with ha | ha
    · exact h.fits a ha
    · exact List.mem_singleton.mp ha ▸ hfits
  · rcases List.mem_append.mp ha with ha | ha
    · exact h.known a ha
    · cases List.mem_singleton.mp ha
      exact ⟨hseen, he⟩

theorem Job.Since.mode (h : j.Since start fs) (hdir : fs.obj p = some .dir) :
    fs.mode (.dir p) = start.dirBits p := by
  rw [← h.bits, Fs.dirBits, if_pos hdir]

theorem Job.Since.passable_iff (h : j.Since start fs) (hdir : fs.obj p.dropLast = some .dir) :
    fs.Passable p ↔ start.Clear p := by
  have same : ∀ q, q <+: p → q ≠ p → fs.mode (.dir q) = start.dirBits q := fun q hq hne =>
    h.mode (Fs.dir_of_dir hdir (prefix_parent hq hne))
  constructor
  · intro hpass q hq hne
    rw [← same q hq hne]
    exact hpass q hq hne
  · intro hclear q hq hne
    rw [same q hq hne]
    exact hclear q hq hne

theorem Fs.Clear.upward {p q : Path} (h : start.Clear p) (hq : q <+: p) : start.Clear q := by
  intro r hr hne
  refine h r (hr.trans hq) ?_
  rintro rfl
  exact hne (hr.eq_of_length_le hq.length_le)

theorem Entry.Makes.notDir (h : e.Makes x) (hx : x ≠ .dir) : e.isDir = false := by
  cases h with
  | dir => exact absurd rfl hx
  | file => rfl
  | symlink => rfl
  | hardlink => rfl

theorem Entry.Makes.ofDir (h : e.Makes x) (hdir : e.isDir = true) : x = .dir := by
  by_contra hx
  rw [h.notDir hx] at hdir
  cases hdir

theorem Job.Remains.above (h : j.Remains fs) (hapart : Apart j.entries) (he : e ∈ j.entries)
    {q : RelPath} (hq : q <+: e.rel) (hend : q = e.rel → e.isDir = true) (hne : q ≠ [])
    (ho : fs.obj (j.root ++ q) = some x) : x = .dir := by
  by_contra hx
  rcases h.traced q x hne ho with ⟨a, ha, hrel, hm⟩ | ⟨hdir, -⟩
  · have hsame := hapart a ha e he (hm.notDir hx) (hrel.symm ▸ hq)
    cases j.ok.unique ha he hsame
    exact hx (hm.ofDir (hend hrel.symm))
  · exact hx hdir

end Steps

end Zblob

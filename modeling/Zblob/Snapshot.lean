import Zblob.Materialize

/-!
What a finished materialization has laid out. Into an empty destination it lays exactly
the snapshot, unless the policy lets one entry delete the directory another one lies in.
-/

set_option autoImplicit false

namespace Zblob

open Program

inductive Entry.Makes : Entry → Obj → Prop
  | dir {path : String} {mode : UInt32} {mtime : Int64} : Makes (.dir path mode mtime) .dir
  | file {path : String} {mode : UInt32} {mtime : Int64} {size : UInt64} {chunks : List ChunkRef}
      {ino : Nat} : Makes (.file path mode mtime size chunks) (.file ino)
  | symlink {path target : String} : Makes (.symlink path target) (.symlink target)
  | hardlink {path target : String} {ino : Nat} : Makes (.hardlink path target) (.file ino)

inductive Output (th : TreeHash) (store : ContentStore) (root : Path) (fs : Fs) : Entry → Prop
  | dir {path : String} {mode : UInt32} {mtime : Int64} :
      fs.obj (root ++ (Entry.dir path mode mtime).rel) = some .dir →
      Output th store root fs (.dir path mode mtime)
  | file {path : String} {mode : UInt32} {mtime : Int64} {size : UInt64} {chunks : List ChunkRef}
      {ino : Nat} {pieces : List Bytes} :
      fs.obj (root ++ (Entry.file path mode mtime size chunks).rel) = some (.file ino) →
      Pieces th store chunks pieces → fs.data ino = pieces.flatten →
      (fs.data ino).length = size.toNat → Output th store root fs
      (.file path mode mtime size chunks)
  | symlink {path target : String} :
      fs.obj (root ++ (Entry.symlink path target).rel) = some (.symlink target) →
      Output th store root fs (.symlink path target)
  | hardlink {path target : String} {trel : RelPath} {ino : Nat} :
      sanitizeRelPath target = .ok trel →
      fs.obj (root ++ (Entry.hardlink path target).rel) = some (.file ino) →
      fs.obj (root ++ trel) = some (.file ino) → Output th store root fs (.hardlink path target)

def Materialized (th : TreeHash) (store : ContentStore) (root : Path)
    (fs : Fs) (entries : List Entry) : Prop := ∀ e ∈ entries, Output th store root fs e

def Apart (entries : List Entry) : Prop :=
  ∀ a ∈ entries, ∀ b ∈ entries, a.isDir = false → a.rel <+: b.rel → a.rel = b.rel

def Traced (entries : List Entry) (root : Path) (fs : Fs) : Prop :=
  ∀ q x, q ≠ [] → fs.obj (root ++ q) = some x →
    (∃ e ∈ entries, e.rel = q ∧ e.Makes x) ∨ x = .dir ∧ ∃ e ∈ entries, q <+: e.rel ∧ q ≠ e.rel

section Outputs

variable {th : TreeHash} {store : ContentStore} {root : Path} {fs fs' : Fs} {e : Entry}

theorem Output.obj (h : Output th store root fs e) :
    ∃ x, fs.obj (root ++ e.rel) = some x ∧ e.Makes x := by
  cases h with
  | dir ho => exact ⟨_, ho, .dir⟩
  | file ho => exact ⟨_, ho, .file⟩
  | symlink ho => exact ⟨_, ho, .symlink⟩
  | hardlink _ ho => exact ⟨_, ho, .hardlink⟩

theorem Output.added {r : Path} {x : Obj} (h : Output th store root fs e) (ha : Added fs r x fs') :
    Output th store root fs' e := by
  cases h with
  | dir ho => exact .dir (ha.keeps ho)
  | symlink ho => exact .symlink (ha.keeps ho)
  | hardlink ht ho htarget => exact .hardlink ht (ha.keeps ho) (ha.keeps htarget)
  | file ho hp hd hl =>
    have hdata := ha.data _ (fs.fresh _ _ ho)
    exact .file (ha.keeps ho) hp (hdata ▸ hd) (hdata ▸ hl)

theorem Output.setData {ino : Nat} {bytes : Bytes} (h : Output th store root fs e)
    (hne : fs.obj (root ++ e.rel) ≠ some (.file ino)) :
    Output th store root (fs.setData ino bytes) e := by
  cases h with
  | dir ho => exact .dir ho
  | symlink ho => exact .symlink ho
  | hardlink ht ho htarget => exact .hardlink ht ho htarget
  | @file _ _ _ _ _ i pieces ho hp hd hl =>
    have hi : i ≠ ino := by
      rintro rfl
      exact hne ho
    have hdata : (fs.setData ino bytes).data i = fs.data i := if_neg hi
    exact .file ho hp (hdata ▸ hd) (hdata ▸ hl)

theorem Output.setMode {n : Node} {mode : UInt32} (h : Output th store root fs e) :
    Output th store root (fs.setMode n mode) e := by
  cases h with
  | dir ho => exact .dir ho
  | symlink ho => exact .symlink ho
  | hardlink ht ho htarget => exact .hardlink ht ho htarget
  | file ho hp hd hl => exact .file ho hp hd hl

theorem Traced.mono {entries entries' : List Entry} (h : Traced entries root fs)
    (hsub : ∀ e ∈ entries, e ∈ entries') : Traced entries' root fs := by
  intro q x hq ho
  rcases h q x hq ho with ⟨e, he, hrel, hm⟩ | ⟨hx, e, he, hpre, hne⟩
  · exact .inl ⟨e, hsub e he, hrel, hm⟩
  · exact .inr ⟨hx, e, hsub e he, hpre, hne⟩

theorem Traced.added {entries : List Entry} {r : Path} {x : Obj} (h : Traced entries root fs)
    (ha : Added fs r x fs')
    (hr : ∀ q, r = root ++ q → (∃ e ∈ entries, e.rel = q ∧ e.Makes x) ∨
      x = .dir ∧ ∃ e ∈ entries, q <+: e.rel ∧ q ≠ e.rel) : Traced entries root fs' := by
  intro q y hq ho
  rw [ha.obj] at ho
  split at ho
  · cases ho
    exact hr q (by simp [*])
  · exact h q y hq ho

theorem Traced.mkdir {entries : List Entry} {r : Path} (h : Traced entries root fs)
    (ha : Added fs r .dir fs') (he : e ∈ entries) (hr : r <+: root ++ e.rel)
    (hmake : r = root ++ e.rel → e.Makes .dir) : Traced entries root fs' := by
  refine h.added ha fun q hq => ?_
  subst hq
  by_cases heq : q = e.rel
  · exact .inl ⟨e, he, heq.symm, hmake (by rw [heq])⟩
  · exact .inr ⟨rfl, e, he, (List.prefix_append_right_inj root).mp hr, heq⟩

theorem Traced.resolve {entries : List Entry} (h : Traced entries root fs)
    (hroot : fs.obj root = some .dir) (hplain : ∀ x ∈ entries, x.isSymlink = false)
    {follow : Bool} {t : RelPath} {r : Path} (hr : fs.resolve follow (root ++ t) = some r) :
    r = root ++ t := by
  have nolink : ∀ q, q <+: root ++ t → ∀ target, fs.obj q ≠ some (.symlink target) := by
    intro q hq target ho
    rcases List.prefix_or_prefix_of_prefix hq (List.prefix_append root t) with hin | ⟨rest, rfl⟩
    · rw [Fs.dir_of_dir hroot hin] at ho
      cases ho
    · have hrest : rest ≠ [] := by
        rintro rfl
        rw [List.append_nil, hroot] at ho
        cases ho
      rcases h rest _ hrest ho with ⟨x, hx, -, hm⟩ | ⟨hd, -⟩
      · cases hm
        have := hplain _ hx
        cases this
      · cases hd
  exact Fs.resolve_straight (fun q hq _ => nolink q hq) (fun _ => nolink _ List.prefix_rfl) hr

end Outputs

def Entry.isFile : Entry → Bool
  | .file _ _ _ _ _ => true
  | _ => false

def SoleName (seen : List Entry) (root : Path) (fs : Fs) (e : Entry) : Prop :=
  ∀ ino q, fs.obj (root ++ e.rel) = some (.file ino) → fs.obj q = some (.file ino) →
    q = root ++ e.rel ∨
      ∃ path target, .hardlink path target ∈ seen ∧ q = root ++ (Entry.hardlink path target).rel

/-- A new object gives at most a hard link of `seen` the inode of another path. -/
def FreshOrLink (seen : List Entry) (fs : Fs) (root r : Path) (x : Obj) : Prop :=
  ∀ ino, x = .file ino → ino = fs.nextIno ∨
    ∃ path target, .hardlink path target ∈ seen ∧ r = root ++ (Entry.hardlink path target).rel

section Names

variable {root r : Path} {seen seen' : List Entry} {fs fs' : Fs} {e : Entry} {x : Obj}

theorem SoleName.mono (h : SoleName seen root fs e) (hsub : ∀ y ∈ seen, y ∈ seen') :
    SoleName seen' root fs e := by
  intro ino q hino hq
  refine (h ino q hino hq).imp_right fun hlink => ?_
  obtain ⟨path, target, hl, hrel⟩ := hlink
  exact ⟨path, target, hsub _ hl, hrel⟩

theorem SoleName.added (h : SoleName seen root fs e) (ha : Added fs r x fs')
    (hthere : fs.obj (root ++ e.rel) ≠ none) (hx : FreshOrLink seen fs root r x) :
    SoleName seen root fs' e := by
  intro ino q hino hq
  have hne : root ++ e.rel ≠ r := by
    rintro rfl
    exact hthere ha.absent
  rw [ha.obj, if_neg hne] at hino
  rw [ha.obj] at hq
  split at hq
  · rename_i hqr
    rcases hx ino (Option.some.inj hq) with rfl | ⟨path, target, hl, hrel⟩
    · exact absurd (fs.fresh _ _ hino) (Nat.lt_irrefl _)
    · exact .inr ⟨path, target, hl, hqr.trans hrel⟩
  · exact h ino q hino hq

end Names

/-- The state between two entries: all of `seen` may have left something, and `done` has. -/
structure Laid (th : TreeHash) (store : ContentStore) (root : Path) (seen done : List Entry)
    (w : World) : Prop where
  anchored : w.fs.obj root = some .dir
  traced : Traced seen root w.fs
  outputs : ∀ e ∈ done, Output th store root w.fs e
  sole : ∀ e ∈ done, e.isFile = true → SoleName seen root w.fs e

section Laid

variable {th : TreeHash} {store : ContentStore} {policy : MaterializePolicy} {root : Path}
  {seen done : List Entry} {w : World} {e : Entry} {c : Syscall}

theorem Laid.sole_added {r : Path} {x : Obj} {fs' : Fs} (h : Laid th store root seen done w)
    (ha : Added w.fs r x fs') (hx : FreshOrLink seen w.fs root r x) {e : Entry} (he : e ∈ done)
    (hfile : e.isFile = true) : SoleName seen root fs' e := by
  obtain ⟨y, hy, -⟩ := (h.outputs e he).obj
  exact (h.sole e he hfile).added ha (hy ▸ Option.some_ne_none y) hx

theorem Laid.added {x : Obj} {fs' : Fs} (h : Laid th store root seen done w)
    (ha : Added w.fs (root ++ e.rel) x fs') (he : e ∈ seen) (hm : e.Makes x)
    (hx : e.isFile = true → x = .file w.fs.nextIno) :
    Laid th store root seen done (w.did c fs') := by
  refine ⟨ha.keeps h.anchored, h.traced.added ha fun q hq => ?_,
    fun y hy => (h.outputs y hy).added ha,
    fun y hy hfile => h.sole_added ha (fun ino hino => ?_) hy hfile⟩
  · exact .inl ⟨e, he, List.append_cancel_left hq, hm⟩
  · subst hino
    cases hm with
    | file => exact .inl (Obj.file.inj (hx rfl))
    | hardlink => exact .inr ⟨_, _, he, rfl⟩

theorem Laid.mkdir {q : Path} {fs' : Fs} (h : Laid th store root seen done w)
    (ha : Added w.fs q .dir fs') (he : e ∈ seen) (hq : q <+: root ++ e.rel)
    (hmake : q = root ++ e.rel → e.Makes .dir) : Laid th store root seen done (w.did c fs') :=
  ⟨ha.keeps h.anchored, h.traced.mkdir ha he hq hmake, fun y hy => (h.outputs y hy).added ha,
    fun y hy hfile => h.sole_added ha (fun ino hino => by cases hino) hy hfile⟩

theorem Laid.setMode {n : Node} {mode : UInt32} (h : Laid th store root seen done w) :
    Laid th store root seen done (w.did c (w.fs.setMode n mode)) :=
  ⟨h.anchored, h.traced, fun y hy => (h.outputs y hy).setMode, h.sole⟩

theorem Laid.same (h : Laid th store root seen done w) :
    Laid th store root seen done (w.did c w.fs) := ⟨h.anchored, h.traced, h.outputs, h.sole⟩

theorem Laid.see (h : Laid th store root done done w) (e : Entry) :
    Laid th store root (done ++ [e]) done w := by
  have hsub : ∀ y ∈ done, y ∈ done ++ [e] := fun _ hy => List.mem_append_left _ hy
  exact ⟨h.anchored, h.traced.mono hsub, h.outputs, fun y hy hfile => (h.sole y hy hfile).mono hsub⟩

theorem Laid.lay (h : Laid th store root (done ++ [e]) done w) (he : Output th store root w.fs e)
    (hsole : e.isFile = true → SoleName (done ++ [e]) root w.fs e) :
    Laid th store root (done ++ [e]) (done ++ [e]) w := by
  refine ⟨h.anchored, h.traced, fun x hx => ?_, fun x hx => ?_⟩
  · rcases List.mem_append.mp hx with hx | hx
    · exact h.outputs x hx
    · exact List.mem_singleton.mp hx ▸ he
  · rcases List.mem_append.mp hx with hx | hx
    · exact h.sole x hx
    · exact List.mem_singleton.mp hx ▸ hsole

theorem Laid.start {fs : Fs} (hdir : fs.obj root = some .dir)
    (hempty : ∀ q, q ≠ [] → fs.obj (root ++ q) = none) (log : List Step) :
    Laid th store root [] [] ⟨fs, log⟩ := by
  refine ⟨hdir, fun q x hq ho => ?_, by simp, by simp⟩
  rw [show fs.obj (root ++ q) = none from hempty q hq] at ho
  cases ho

/-- Nothing is at the place of the next entry, or a directory that may not be replaced. -/
def Vacant (policy : MaterializePolicy) (p : Path) (fs : Fs) : Prop :=
  fs.obj p = none ∨ fs.obj p = some .dir ∧ policy.replaceDirectories = false

theorem Traced.vacant {fs : Fs} (h : Traced done root fs) (hrel : e.rel ≠ [])
    (hfresh : ∀ x ∈ done, x.rel ≠ e.rel)
    (hpolicy : policy.replaceDirectories = false ∨
      ∀ x ∈ done, e.rel <+: x.rel → e.rel = x.rel) : Vacant policy (root ++ e.rel) fs := by
  cases ho : fs.obj (root ++ e.rel) with
  | none => exact .inl ho
  | some x =>
    rcases h e.rel x hrel ho with ⟨y, hy, heq, -⟩ | ⟨rfl, y, hy, hpre, hne⟩
    · exact absurd heq (hfresh y hy)
    · rcases hpolicy with hoff | hapart
      · exact .inr ⟨ho, hoff⟩
      · exact absurd (hapart y hy hpre) hne

structure Waiting (th : TreeHash) (store : ContentStore) (policy : MaterializePolicy) (root : Path)
    (done : List Entry) (e : Entry) (w : World) : Prop extends
    Laid th store root (done ++ [e]) done w where
  vacant : Vacant policy (root ++ e.rel) w.fs
  parent : w.fs.obj (root ++ e.rel).dropLast = some .dir

theorem Waiting.straight (h : Waiting th store policy root done e w) :
    w.fs.Straight (root ++ e.rel) := Fs.straight_of_parent h.parent

theorem Waiting.not_link (h : Waiting th store policy root done e w) (target : String) :
    w.fs.obj (root ++ e.rel) ≠ some (.symlink target) := by
  intro ho
  rcases h.vacant with hv | hv
  · rw [hv] at ho
    cases ho
  · rw [hv.1] at ho
    cases ho

theorem laid_parent (hrel : e.rel ≠ []) :
    Triple (fun w => Laid th store root (done ++ [e]) done w ∧ Vacant policy (root ++ e.rel) w.fs)
      (createDirConfined root e.rel.dropLast)
      (fun _ => Waiting th store policy root done e) (fun _ => True) := by
  refine (triple_createDirConfined (I := fun w => Laid th store root (done ++ [e]) done w ∧
    Vacant policy (root ++ e.rel) w.fs) fun w q fs hw _ hq ha _ => ?_).conseq
    (fun _ hw => ⟨hw, hw.1.anchored⟩) (fun _ w hw => ⟨hw.1.1, hw.1.2, ?_⟩) fun _ _ => trivial
  · have hpre : q <+: root ++ e.rel := by
      refine hq.trans ((List.prefix_append_right_inj root).mpr (List.dropLast_prefix _))
    have hne : q ≠ root ++ e.rel := by
      rintro rfl
      have hlen := hq.length_le
      have := List.length_pos_iff.mpr hrel
      simp only [List.length_append, List.length_dropLast] at hlen
      omega
    refine ⟨hw.1.mkdir ha (by simp) hpre fun h => absurd h hne, ?_⟩
    simp only [Vacant, World.did, ha.obj, if_neg (Ne.symm hne)]
    exact hw.2
  · rw [List.dropLast_append_of_ne_nil hrel]
    exact hw.2

theorem waiting_assertParentWithin {I : World → Prop} {p : Path} :
    Triple I (assertParentWithin root p) (fun _ => I) (fun _ => True) :=
  triple_assertParentWithin.conseq (fun _ h => h) (fun _ _ h => h) fun _ _ => trivial

theorem waiting_removeExisting {I : World → Prop}
    (hI : ∀ w, I w → Waiting th store policy root done e w) :
    Triple I (removeExisting (root ++ e.rel) policy) (fun _ => I) (fun _ => True) := by
  refine (triple_removeExisting (fun w hw => (hI w hw).parent) (fun w x hw ho hx _ => ?_)
    fun w roots ok hw hon ho _ _ => ?_).conseq (fun _ h => h) (fun _ _ h => h) fun _ _ => trivial
  · rcases (hI w hw).vacant with hv | hv
    · rw [hv] at ho
      cases ho
    · rw [hv.1] at ho
      exact absurd (Option.some.inj ho).symm hx
  · rcases (hI w hw).vacant with hv | hv
    · rw [hv] at ho
      cases ho
    · rw [hv.2] at hon
      cases hon

structure Writing (th : TreeHash) (store : ContentStore) (root : Path) (done : List Entry)
    (e : Entry) (ino : Nat) (sofar : Bytes) (w : World) : Prop extends
    Laid th store root (done ++ [e]) done w where
  here : w.fs.obj (root ++ e.rel) = some (.file ino)
  only : ∀ q, w.fs.obj q = some (.file ino) → q = root ++ e.rel
  data : w.fs.data ino = sofar

theorem Writing.sole_name {ino : Nat} {sofar : Bytes}
    (h : Writing th store root done e ino sofar w) : SoleName (done ++ [e]) root w.fs e := by
  intro i q hi hq
  cases h.here.symm.trans hi
  exact .inl (h.only q hq)

theorem waiting_createFile (hm : ∀ ino, e.Makes (.file ino)) :
    Triple (Waiting th store policy root done e) (createFile (root ++ e.rel))
      (fun ino => Writing th store root done e ino []) (fun _ => True) := by
  refine triple_createFile (fun _ _ => trivial) (fun w r fs hw hr ha hd => ?_)
    fun w r ino hw hr ho => ?_
  · cases Fs.resolve_straight hw.straight (fun _ => hw.not_link) hr
    refine ⟨hw.toLaid.added ha (by simp) (hm _) fun _ => rfl, by simp [World.did, ha.obj],
      fun q hq => ?_, hd⟩
    simp only [World.did, ha.obj] at hq
    split at hq
    · assumption
    · exact absurd (w.fs.fresh q _ hq) (Nat.lt_irrefl _)
  · cases Fs.resolve_straight hw.straight (fun _ => hw.not_link) hr
    rcases hw.vacant with hv | hv
    · rw [hv] at ho
      cases ho
    · rw [hv.1] at ho
      cases ho

theorem Writing.write {ino : Nat} {sofar bytes : Bytes}
    (h : Writing th store root done e ino sofar w) (hfresh : ∀ x ∈ done, x.rel ≠ e.rel) :
    Writing th store root done e ino bytes (w.did c (w.fs.setData ino bytes)) := by
  refine ⟨⟨h.anchored, h.traced, fun x hx => (h.outputs x hx).setData fun ho => ?_, h.sole⟩, h.here,
    h.only, if_pos rfl⟩
  exact hfresh x hx (List.append_cancel_left (h.only _ ho))

theorem writing_writeChunks {ino : Nat} (hfresh : ∀ x ∈ done, x.rel ≠ e.rel)
    (chunks : List ChunkRef) :
    Triple (Writing th store root done e ino []) (writeChunks th store ino chunks 0)
      (fun n w => ∃ pieces, Pieces th store chunks pieces ∧ n = pieces.flatten.length ∧
        Writing th store root done e ino pieces.flatten w) (fun _ => True) := by
  refine (triple_writeChunks (I := Writing th store root done e ino) (fun _ _ _ => trivial)
    (fun sofar w piece hw => ?_) (fun _ _ _ _ _ => trivial) chunks 0 []).post ?_
  · rw [← hw.data]
    exact hw.write hfresh
  · simp

theorem writing_setMode {ino : Nat} {bytes : Bytes} {p : Path} (mode : UInt32) :
    Triple (Writing th store root done e ino bytes) (setMode p mode policy)
      (fun _ => Writing th store root done e ino bytes) (fun _ => True) :=
  triple_setMode (fun _ _ _ _ hw _ _ => ⟨hw.toLaid.setMode, hw.here, hw.only, hw.data⟩) mode

theorem writing_setMtime {ino : Nat} {bytes : Bytes} {n : Node} (mtime : Int64) :
    Triple (Writing th store root done e ino bytes) (setMtime n mtime)
      (fun _ => Writing th store root done e ino bytes) (fun _ => True) :=
  triple_setMtime (fun _ _ hw => ⟨hw.toLaid.same, hw.here, hw.only, hw.data⟩) mtime

theorem waiting_file {path : String} {mode : UInt32} {mtime : Int64} {size : UInt64}
    {chunks : List ChunkRef} (hpath : sanitizeRelPath path = .ok
      (Entry.file path mode mtime size chunks).rel)
    (hrel : (Entry.file path mode mtime size chunks).rel ≠ [])
    (hfresh : ∀ x ∈ done, x.rel ≠ (Entry.file path mode mtime size chunks).rel) :
    Triple (fun w => Laid th store root (done ++ [.file path mode mtime size chunks]) done w ∧
        Vacant policy (root ++ (Entry.file path mode mtime size chunks).rel) w.fs)
      (makeContent th store policy root (.file path mode mtime size chunks))
      (fun _ => Laid th store root (done ++ [.file path mode mtime size chunks])
        (done ++ [.file path mode mtime size chunks])) (fun _ => True) := by
  refine Triple.lift_bind hpath ?_
  refine (laid_parent hrel).bind fun _ => ?_
  refine waiting_assertParentWithin.bind fun _ => ?_
  refine (waiting_removeExisting fun _ h => h).bind fun _ => ?_
  refine (waiting_createFile fun _ => .file).bind fun ino => ?_
  refine (writing_writeChunks hfresh chunks).bind fun written => ?_
  split
  · exact Triple.fail fun _ _ => trivial
  · rename_i hsize
    intro io n w hw
    obtain ⟨pieces, hp, hn, hw⟩ := hw
    refine ((writing_setMode mode).bind fun _ => (writing_setMtime mtime).post ?_) io n w hw
    intro _ w hw
    refine hw.toLaid.lay (.file hw.here hp hw.data ?_) fun _ => hw.sole_name
    rw [hw.data, ← hn]
    exact not_not.mp hsize

theorem waiting_hardlink {path target : String} {trel : RelPath}
    (hpath : sanitizeRelPath path = .ok (Entry.hardlink path target).rel)
    (hrel : (Entry.hardlink path target).rel ≠ []) (htarget : sanitizeRelPath target = .ok trel)
    (hplain : ∀ x ∈ done, x.isSymlink = false) :
    Triple (fun w => Laid th store root (done ++ [.hardlink path target]) done w ∧
        Vacant policy (root ++ (Entry.hardlink path target).rel) w.fs)
      (makeContent th store policy root (.hardlink path target))
      (fun _ => Laid th store root (done ++ [.hardlink path target])
        (done ++ [.hardlink path target])) (fun _ => True) := by
  have hseen : ∀ x ∈ done ++ [Entry.hardlink path target], x.isSymlink = false := by
    intro x hx
    rcases List.mem_append.mp hx with hx | hx
    · exact hplain x hx
    · rw [List.mem_singleton.mp hx]
      rfl
  refine Triple.lift_bind hpath ?_
  refine (laid_parent hrel).bind fun _ => ?_
  refine Triple.lift_bind htarget ?_
  refine waiting_assertParentWithin.bind fun _ => ?_
  refine Triple.bind (Q := fun found w => (∀ canonT, found = .ok canonT → canonT = root ++ trel) ∧
    Waiting th store policy root done (.hardlink path target) w) ?_ fun found => ?_
  · refine triple_ask (fun w canon hw hc => ⟨fun canonT heq => ?_, hw⟩) fun w text hw => ⟨nofun, hw⟩
    cases heq
    obtain ⟨r, hr, hsome⟩ := Option.bind_eq_some_iff.mp hc
    split at hsome
    · cases hsome
    · cases hsome
      exact hw.traced.resolve hw.anchored hseen hr
  refine Triple.of_pre fun hcanon => ?_
  cases found with
  | error text => exact Triple.fail fun _ _ => trivial
  | ok canonT =>
    cases hcanon canonT rfl
    simp only
    split
    · refine Triple.bind (Q := fun _ => Waiting th store policy root done (.hardlink path target))
        (triple_ask (fun _ _ h _ => h) fun _ _ h => h) fun kind => ?_
      cases kind with
      | error text => exact Triple.fail fun _ _ => trivial
      | ok x =>
        cases x with
        | dir => exact Triple.fail fun _ _ => trivial
        | symlink target => exact Triple.fail fun _ _ => trivial
        | file ino =>
          refine (waiting_removeExisting fun _ h => h).bind fun _ => ?_
          refine triple_must (fun _ _ => trivial) (fun w d hw hc _ => ?_) fun _ _ _ _ _ => trivial
          cases hc with
          | link hsrc ho hr ha =>
            cases Fs.resolve_straight hw.straight (by simp) hr
            cases hw.traced.resolve hw.anchored hseen hsrc
            exact (hw.toLaid.added ha (by simp) .hardlink fun hfile => by cases hfile).lay
              (.hardlink htarget (by simp [World.did, ha.obj]) (ha.keeps ho)) fun hfile => by
                cases hfile
    · exact Triple.fail fun _ _ => trivial

theorem waiting_symlink {path target : String}
    (hpath : sanitizeRelPath path = .ok (Entry.symlink path target).rel)
    (hrel : (Entry.symlink path target).rel ≠ [])
    (htarget : sanitizeSymlinkTarget (Entry.symlink path target).rel target = .ok ()) :
    Triple (fun w => Laid th store root (done ++ [.symlink path target]) done w ∧
        Vacant policy (root ++ (Entry.symlink path target).rel) w.fs)
      (makeSymlink policy root (.symlink path target))
      (fun _ => Laid th store root (done ++ [.symlink path target])
        (done ++ [.symlink path target])) (fun _ => True) := by
  refine Triple.lift_bind hpath ?_
  refine Triple.lift_bind htarget ?_
  refine (laid_parent hrel).bind fun _ => ?_
  refine waiting_assertParentWithin.bind fun _ => ?_
  refine (waiting_removeExisting fun _ h => h).bind fun _ => ?_
  refine triple_must (fun _ _ => trivial) (fun w d hw hc _ => ?_) fun _ _ _ _ _ => trivial
  cases hc with
  | symlink hr ha =>
    cases Fs.resolve_straight hw.straight (by simp) hr
    exact (hw.toLaid.added ha (by simp) .symlink fun hfile => by cases hfile).lay
      (.symlink (by simp [World.did, ha.obj])) fun hfile => by cases hfile

theorem laid_dir {path : String} {mode : UInt32} {mtime : Int64}
    (hpath : sanitizeRelPath path = .ok (Entry.dir path mode mtime).rel) :
    Triple (Laid th store root done done) (makeDirectory root (.dir path mode mtime))
      (fun _ => Laid th store root (done ++ [.dir path mode mtime])
        (done ++ [.dir path mode mtime])) (fun _ => True) := by
  refine Triple.lift_bind hpath ?_
  refine Triple.bind ((triple_createDirConfined
    (I := Laid th store root (done ++ [.dir path mode mtime]) done)
    fun w q fs hw _ hq ha _ => hw.mkdir ha (by simp) hq fun _ => .dir).conseq
    (fun w hw => ⟨hw.see _, hw.anchored⟩) (fun _ _ h => h) fun _ _ => trivial) fun _ => ?_
  exact Triple.ret fun w hw => hw.1.lay (.dir hw.2) fun hfile => by cases hfile

/-- The last pass changes times and modes only. -/
theorem laid_finish (e : Entry) :
    Triple (Laid th store root seen done) (finishDirectory policy root e)
      (fun _ => Laid th store root seen done) (fun _ => True) := by
  have times : ∀ (p : Path) (mtime : Int64), Triple (Laid th store root seen done)
      (timeDirectory p mtime) (fun _ => Laid th store root seen done) (fun _ => True) := by
    intro p mtime
    unfold timeDirectory Kernel.timeDirectory
    split
    · refine Triple.bind (Q := fun _ => Laid th store root seen done)
        (triple_ask (fun _ _ h _ => h) fun _ _ h => h) fun found => ?_
      cases found with
      | error text => exact Triple.ret fun _ h => h
      | ok f => exact triple_setMtime (fun _ _ hw => hw.same) mtime
    · exact Triple.ret fun _ h => h
  cases e with
  | file path mode mtime size chunks => exact Triple.ret fun _ h => h
  | symlink path target => exact Triple.ret fun _ h => h
  | hardlink path target => exact Triple.ret fun _ h => h
  | dir path mode mtime =>
    simp only [Kernel.finishDirectory]
    split
    · exact Triple.ret fun _ h => h
    · exact (times _ mtime).bind fun _ => triple_setMode (fun _ _ _ _ hw _ _ => hw.setMode) mode

end Laid

section Passes

variable {th : TreeHash} {store : ContentStore} {policy : MaterializePolicy} {root : Path}
  {cdc : CdcParams} {entries : List Entry}

def Entry.isContent : Entry → Bool
  | .file _ _ _ _ _ => true
  | .hardlink _ _ => true
  | _ => false

theorem EntriesOk.pass (ok : EntriesOk cdc [] entries) {pick : Entry → Bool}
    {before done rest : List Entry}
    {x : Entry} (hsub : ∀ y ∈ before, y ∈ entries ∧ pick y = false)
    (hx : entries = done ++ x :: rest)
    (hp : pick x = true) {y : Entry} (hy : y ∈ before ++ done.filter pick) :
    y ∈ entries ∧ (y ∈ before ∨ pick y = true) ∧ y.rel ≠ x.rel := by
  have hmem : x ∈ entries := by simp [hx]
  rcases List.mem_append.mp hy with hy | hy
  · refine ⟨(hsub y hy).1, .inl hy, fun he => ?_⟩
    have := ok.unique (hsub y hy).1 hmem he
    rw [← this, (hsub y hy).2] at hp
    cases hp
  · obtain ⟨hdone, hpick⟩ := List.mem_filter.mp hy
    have hdist := ok.distinct
    rw [hx, List.map_append, List.map_cons] at hdist
    refine ⟨by simp [hx, hdone], .inr hpick, fun he => ?_⟩
    exact (List.nodup_append.mp hdist).2.2 _ (List.mem_map_of_mem hdone) _ (by simp) he

theorem entries_pass (ok : EntriesOk cdc [] entries) (pick : Entry → Bool) (before : List Entry)
    {I : List Entry → World → Prop} {E : World → Prop} {body : Entry → FsProg Unit}
    (hsub : ∀ x ∈ before, x ∈ entries ∧ pick x = false)
    (hskip : ∀ x, pick x = false → body x = pure ())
    (hbody : ∀ seen x rest, entries = seen ++ x :: rest → pick x = true →
      (∀ y ∈ before ++ seen.filter pick, y ∈ entries ∧ (y ∈ before ∨ pick y = true) ∧
        y.rel ≠ x.rel) →
      Triple (I (before ++ seen.filter pick)) (body x)
      (fun _ => I (before ++ seen.filter pick ++ [x])) E) :
    Triple (I before) (entries.forM body) (fun _ => I (before ++ entries.filter pick)) E := by
  refine (Triple.forM (I := fun seen => I (before ++ seen.filter pick))
    entries fun seen x rest hx => ?_).pre
    fun w hw => by simpa using hw
  cases hp : pick x with
  | false =>
    rw [hskip x hp]
    exact Triple.ret fun w hw => by simpa [hp] using hw
  | true =>
    have step := hbody seen x rest hx hp fun y hy => ok.pass hsub hx hp hy
    simpa [hp, List.append_assoc] using step

def passOrder (entries : List Entry) : List Entry :=
  entries.filter Entry.isDir ++ entries.filter Entry.isContent ++ entries.filter Entry.isSymlink

theorem mem_passOrder {e : Entry} : e ∈ passOrder entries ↔ e ∈ entries := by
  simp only [passOrder, List.mem_append, List.mem_filter]
  cases e <;> simp [Entry.isDir, Entry.isContent, Entry.isSymlink]

theorem mem_dirs {x : Entry} (hx : x ∈ entries.filter Entry.isDir) :
    x ∈ entries ∧ x.isContent = false := by
  obtain ⟨hmem, hdir⟩ := List.mem_filter.mp hx
  exact ⟨hmem, by cases x <;> first | rfl | cases hdir⟩

theorem mem_dirs_contents {x : Entry}
    (hx : x ∈ entries.filter Entry.isDir ++ entries.filter Entry.isContent) :
    x ∈ entries ∧ x.isSymlink = false := by
  rcases List.mem_append.mp hx with hx | hx
  · obtain ⟨hmem, hdir⟩ := List.mem_filter.mp hx
    exact ⟨hmem, by cases x <;> first | rfl | cases hdir⟩
  · obtain ⟨hmem, hcontent⟩ := List.mem_filter.mp hx
    exact ⟨hmem, by cases x <;> first | rfl | cases hcontent⟩

/-- The three passes that lay entries out: directories, then files and hard links, then symlinks. -/
theorem layout_passes (ok : EntriesOk cdc [] entries) {I : List Entry → World → Prop}
    {E : World → Prop}
    {Q : Unit → World → Prop} {dirs contents links : Entry → FsProg Unit} {last : FsProg Unit}
    (hdirs : ∀ x, x.isDir = false → dirs x = pure ())
    (hcontents : ∀ x, x.isContent = false → contents x = pure ())
    (hlinks : ∀ x, x.isSymlink = false → links x = pure ())
    (dir : ∀ seen path mode mtime rest, entries = seen ++ .dir path mode mtime :: rest →
      (∀ y ∈ seen.filter Entry.isDir, y ∈ entries ∧ y.rel ≠ (Entry.dir path mode mtime).rel) →
      Triple (I (seen.filter Entry.isDir)) (dirs (.dir path mode mtime))
        (fun _ => I (seen.filter Entry.isDir ++ [.dir path mode mtime])) E)
    (content : ∀ seen x rest, entries = seen ++ x :: rest → x.isContent = true →
      (∀ y ∈ entries.filter Entry.isDir ++ seen.filter Entry.isContent,
        y ∈ entries ∧ y.rel ≠ x.rel ∧ y.isSymlink = false) →
      Triple (I (entries.filter Entry.isDir ++ seen.filter Entry.isContent)) (contents x)
        (fun _ => I (entries.filter Entry.isDir ++ seen.filter Entry.isContent ++ [x])) E)
    (link : ∀ seen path target rest, entries = seen ++ .symlink path target :: rest →
      (∀ y ∈ entries.filter Entry.isDir ++ entries.filter Entry.isContent ++
          seen.filter Entry.isSymlink,
        y ∈ entries ∧ y.rel ≠ (Entry.symlink path target).rel) →
      Triple (I (entries.filter Entry.isDir ++ entries.filter Entry.isContent ++
        seen.filter Entry.isSymlink))
        (links (.symlink path target))
        (fun _ => I (entries.filter Entry.isDir ++ entries.filter Entry.isContent ++
          seen.filter Entry.isSymlink ++ [.symlink path target])) E)
    (hlast : Triple (I (passOrder entries)) last Q E) :
    Triple (I []) (do
      entries.forM dirs
      entries.forM contents
      entries.forM links
      last) Q E := by
  refine Triple.bind (entries_pass ok Entry.isDir [] (by simp) hdirs ?_) fun _ => ?_
  · intro seen x rest hx hp hseen
    cases x with
    | dir path mode mtime =>
      exact dir seen path mode mtime rest hx fun y hy => ⟨(hseen y hy).1, (hseen y hy).2.2⟩
    | file path mode mtime size chunks => cases hp
    | symlink path target => cases hp
    | hardlink path target => cases hp
  refine Triple.bind (entries_pass ok Entry.isContent _ ?_ hcontents ?_) fun _ => ?_
  · exact fun x hx => mem_dirs (by simpa using hx)
  · intro seen x rest hx hp hseen
    refine content seen x rest hx hp fun y hy => ?_
    obtain ⟨hmem, hor, hrel⟩ := hseen y hy
    refine ⟨hmem, hrel, ?_⟩
    rcases hor with hbefore | hcontent
    · have hd := (List.mem_filter.mp (by simpa using hbefore)).2
      cases y <;> first | rfl | cases hd
    · cases y <;> first | rfl | cases hcontent
  refine Triple.bind (entries_pass ok Entry.isSymlink _ ?_ hlinks ?_) fun _ => hlast
  · exact fun x hx => mem_dirs_contents (by simpa using hx)
  · intro seen x rest hx hp hseen
    cases x with
    | dir path mode mtime => cases hp
    | file path mode mtime size chunks => cases hp
    | hardlink path target => cases hp
    | symlink path target =>
      exact link seen path target rest hx fun y hy => ⟨(hseen y hy).1, (hseen y hy).2.2⟩

theorem Kernel.makeDirectory_skip (k : Kernel) {x : Entry} (hx : x.isDir = false) :
    k.makeDirectory root x = pure () := by
  cases x <;> first | rfl | cases hx

theorem Kernel.makeContent_skip (k : Kernel) {x : Entry} (hx : x.isContent = false) :
    k.makeContent th store policy root x = pure () := by
  cases x <;> first | rfl | cases hx

theorem Kernel.makeSymlink_skip (k : Kernel) {x : Entry} (hx : x.isSymlink = false) :
    k.makeSymlink policy root x = pure () := by
  cases x <;> first | rfl | cases hx

theorem materializeUnder_laid (ok : EntriesOk cdc [] entries)
    (hpolicy : policy.replaceDirectories = false ∨ Apart entries) :
    Triple (Laid th store root [] []) (materializeUnder th store policy root entries)
      (fun _ => Laid th store root (passOrder entries) (passOrder entries)) (fun _ => True) := by
  have seen :
    ∀ {done : List Entry} {x : Entry} {w : World}, (∀ y ∈ done, y ∈ entries ∧ y.rel ≠ x.rel) →
      x ∈ entries → x.isDir = false → Laid th store root done done w →
      Laid th store root (done ++ [x]) done w ∧ Vacant policy (root ++ x.rel) w.fs := by
    intro done x w hdone hx hdir hw
    refine ⟨hw.see x, hw.traced.vacant (ok.rel_ne_nil hx) (fun y hy => (hdone y hy).2)
      (hpolicy.imp_right fun hapart y hy => ?_)⟩
    exact hapart x hx y (hdone y hy).1 hdir
  refine layout_passes (I := fun done => Laid th store root done done) ok
    (fun _ => Kernel.free.makeDirectory_skip)
    (fun _ => Kernel.free.makeContent_skip) (fun _ => Kernel.free.makeSymlink_skip) ?_ ?_ ?_ ?_
  · intro before path mode mtime rest hx _
    have he : Entry.dir path mode mtime ∈ entries := by simp [hx]
    exact laid_dir (ok.paths _ he)
  · intro before x rest hx hcontent hdone
    have he : x ∈ entries := by simp [hx]
    have hfree :=
      fun {w : World} => seen (w := w) (fun y hy => ⟨(hdone y hy).1, (hdone y hy).2.1⟩) he
      (by cases x <;> first | rfl | cases hcontent)
    cases x with
    | dir path mode mtime => cases hcontent
    | symlink path target => cases hcontent
    | file path mode mtime size chunks =>
      exact (waiting_file (ok.paths _ he) (ok.rel_ne_nil he) fun y hy => (hdone y hy).2.1).pre
        fun _ hw => hfree hw
    | hardlink path target =>
      obtain ⟨trel, ht⟩ := ok.hardlinks path target he
      exact (waiting_hardlink (ok.paths _ he) (ok.rel_ne_nil he) ht fun y hy =>
        (hdone y hy).2.2).pre
        fun _ hw => hfree hw
  · intro before path target rest hx hdone
    have he : Entry.symlink path target ∈ entries := by simp [hx]
    exact (waiting_symlink (ok.paths _ he) (ok.rel_ne_nil he) (ok.symlinks path target he)).pre
      fun _ hw => seen hdone he rfl hw
  · exact Triple.forM (I := fun _ => Laid th store root (passOrder entries) (passOrder entries))
      entries.reverse fun _ x _ _ => laid_finish x

end Passes

/-- Under a finished snapshot no entry stands in another one's way. -/
theorem Materialized.apart {th : TreeHash} {store : ContentStore} {root : Path} {fs : Fs}
    {entries : List Entry} (h : Materialized th store root fs entries) : Apart entries := by
  intro a ha b hb hdir hpre
  by_contra hne
  obtain ⟨x, hx, hm⟩ := (h a ha).obj
  obtain ⟨y, hy, -⟩ := (h b hb).obj
  have habove := Fs.dir_above (hy ▸ Option.some_ne_none y)
    ((List.prefix_append_right_inj root).mpr hpre) fun he => hne (List.append_cancel_left he)
  rw [hx] at habove
  cases habove
  cases hm
  cases hdir

theorem materialized_snapshot_iff {th : TreeHash} {index : TreeIndex} {fs : Fs} {dest root : Path}
    (hv : index.validate th = .ok ()) (hroot : fs.canonicalize dest = some root)
    (hdir : fs.obj root = some .dir) (hempty : ∀ q, q ≠ [] → fs.obj (root ++ q) = none)
    (store : ContentStore) (policy : MaterializePolicy) (io : Nat → KernelReply) {w : World}
    (hw : w = (reconstructTree th dest index.entries store policy io 0 ⟨fs, []⟩).2.2)
    (hok : (reconstructTree th dest index.entries store policy io 0 ⟨fs, []⟩).1 = .ok ()) :
    Materialized th store root w.fs index.entries ↔
      policy.replaceDirectories = false ∨ Apart index.entries := by
  refine ⟨fun h => .inr h.apart, fun hpolicy => ?_⟩
  have run : Triple (· = ⟨fs, []⟩) (reconstructTree th dest index.entries store policy)
      (fun _ => Laid th store root (passOrder index.entries) (passOrder index.entries))
      (fun _ => True) :=
    triple_destination (m := fun root => materializeUnder th store policy root index.entries)
      hroot hdir (Laid.start hdir hempty []) trivial
      (materializeUnder_laid (TreeIndex.validate_ok hv) hpolicy)
  have laid := run.of_ok rfl hok
  subst hw
  exact fun e he => laid.outputs e (mem_passOrder.mpr he)

def emptyDst : Fs := (Fs.top.addDir ["dst"]).getD Fs.top

theorem emptyDst_empty (q : Path) (hq : q ≠ []) : emptyDst.obj (["dst"] ++ q) = none := by
  have hsome : (Fs.top.addDir ["dst"]).isSome = true := by decide +kernel
  obtain ⟨fs, hfs⟩ := Option.isSome_iff_exists.mp hsome
  have heq : emptyDst = fs := by simp [emptyDst, hfs]
  rw [heq, (Fs.addDir_added hfs).obj]
  simp [Fs.top, hq]

def fullRoot : Hash :=
  ⟨[0xd5, 0xc5, 0x1e, 0x5a, 0x1b, 0x00, 0xe4, 0x52, 0x9e, 0x39, 0x45, 0x05, 0x29, 0x7e, 0x5d, 0x5b,
    0xe4, 0x54, 0x40, 0xf6, 0x62, 0xde, 0x77, 0x1f, 0x18, 0x87, 0x7d, 0x9f, 0x50, 0x49, 0xe4, 0x32],
    by decide⟩

def fullTree : TreeHash :=
  knownTree [0x03, 0x06, 0x62, 0x6c, 0x61, 0x6b, 0x65, 0x33, 0x04, 0x00, 0x01, 0x64, 0xed, 0x03,
    0x01, 0x03, 0x64, 0x2f, 0x78, 0xa4, 0x03, 0x03, 0x01, 0x20, 0x64, 0x37, 0xb3, 0xac, 0x38, 0x46,
    0x51, 0x33, 0xff, 0xb6, 0x3b, 0x75, 0x27, 0x3a, 0x8d, 0xb5, 0x48, 0xc5, 0x58, 0x46, 0x5d, 0x79,
    0xdb, 0x03, 0xfd, 0x35, 0x9c, 0x6c, 0xd5, 0xbd, 0x9d, 0x85, 0x03, 0x03, 0x01, 0x68, 0x03, 0x64,
    0x2f, 0x78, 0x02, 0x01, 0x73, 0x01, 0x64] fullRoot

def fullIndex : TreeIndex :=
  sampleIndex [.dir "d" 0o755 0, .file "d/x" 0o644 0 3 [⟨shortHash [97, 98, 99], 3⟩],
    .hardlink "h" "d/x", .symlink "s" "d"] fullRoot

def fullRun : Except BlobError Unit × Nat × World :=
  reconstructTree fullTree ["dst"] fullIndex.entries shortStore ⟨false, false⟩ (failing []) 0
    ⟨emptyDst, []⟩

theorem materialized_snapshot_full :
    Materialized fullTree shortStore ["dst"] fullRun.2.2.fs fullIndex.entries :=
  (materialized_snapshot_iff (show fullIndex.validate fullTree = .ok () by decide +kernel)
    (by decide +kernel) (by decide +kernel) emptyDst_empty shortStore
      ⟨false, false⟩ (failing []) rfl
    (by decide +kernel)).mpr (.inl rfl)

def nestedRoot : Hash :=
  ⟨[0x9c, 0x3d, 0x78, 0x97, 0xe1, 0xb0, 0xfc, 0xae, 0x14, 0xc2, 0x57, 0xe8, 0x0e, 0x73, 0x81, 0xe1,
    0x4f, 0xfc, 0x7d, 0x54, 0x2a, 0xc5, 0x4a, 0x4e, 0xab, 0x19, 0x6f, 0x10, 0x86, 0xf9, 0xa8, 0x45],
    by decide⟩

def nestedTree : TreeHash :=
  knownTree [0x03, 0x06, 0x62, 0x6c, 0x61, 0x6b, 0x65, 0x33, 0x02, 0x01, 0x03, 0x61, 0x2f, 0x62,
    0xa4, 0x03, 0x00, 0x00, 0x01, 0x01, 0x61, 0xa4, 0x03, 0x00, 0x00] nestedRoot

def nestedIndex : TreeIndex :=
  sampleIndex [.file "a/b" 0o644 0 0 [], .file "a" 0o644 0 0 []] nestedRoot

def nestedRun : Except BlobError Unit × Nat × World :=
  reconstructTree nestedTree ["dst"] nestedIndex.entries shortStore ⟨true, false⟩ (failing []) 0
    ⟨emptyDst, []⟩

/-- The second file takes the place of the directory the first one was put in. -/
theorem entry_destroys_entry :
    nestedIndex.validate nestedTree = .ok () ∧ emptyDst.canonicalize ["dst"] = some ["dst"] ∧
      (∀ q, q ≠ [] → emptyDst.obj (["dst"] ++ q) = none) ∧ nestedRun.1 = .ok () ∧
      nestedRun.2.2.fs.obj ["dst", "a", "b"] = none ∧
      ¬Materialized nestedTree shortStore ["dst"] nestedRun.2.2.fs nestedIndex.entries := by
  refine ⟨by decide +kernel, by decide +kernel, emptyDst_empty, by decide +kernel,
    by decide +kernel, fun h => ?_⟩
  have hrel := h.apart (.file "a" 0o644 0 0 []) (by simp [nestedIndex, sampleIndex])
    (.file "a/b" 0o644 0 0 []) (by simp [nestedIndex, sampleIndex]) rfl (by decide +kernel)
  exact absurd hrel (by decide +kernel)

end Zblob

import Zblob.Permission
import Zblob.Rebuild

/-!
What the calls of an owner do in a directory that is there: each goes through exactly when
the modes on the way and at its end let it, and then has one effect.
-/

set_option autoImplicit false

namespace Zblob

open Program

theorem searchFrom_walkFrom {fs : Fs} {follow : Bool}
    {jump jump' : Path → List Component → Option Path}
    (hjump : ∀ p comps r, jump p comps = some r → jump' p comps = some r) {cur r : Path}
    {comps : List Component} (h : searchFrom fs follow jump cur comps = some r) :
    walkFrom fs follow jump' cur comps = some r := by
  induction comps generalizing cur with
  | nil => simpa [searchFrom, walkFrom] using h
  | cons c rest ih =>
    cases c with
    | rootDir => exact ih h
    | curDir =>
      simp only [searchFrom, Option.ite_none_right_eq_some] at h
      exact ih h.2
    | parentDir =>
      simp only [searchFrom, Option.ite_none_right_eq_some] at h
      exact ih h.2
    | normal name =>
      simp only [searchFrom, Option.ite_none_right_eq_some] at h
      obtain ⟨-, h⟩ := h
      simp only [walkFrom]
      cases ho : fs.obj (cur ++ [name]) with
      | none => simpa [ho] using h
      | some x =>
        cases x with
        | file ino => simpa [ho] using h
        | dir => exact ih (by simpa [ho] using h)
        | symlink target =>
          simp only [ho] at h ⊢
          split at h
          · rename_i hlast
            rwa [if_pos hlast]
          · rename_i hlast
            rw [if_neg hlast]
            exact hjump _ _ _ h

theorem search_walk {fs : Fs} {follow : Bool} {hops : Nat} {cur r : Path} {comps : List Component}
    (h : search fs follow hops cur comps = some r) : walk fs follow hops cur comps = some r := by
  induction hops generalizing cur comps r with
  | zero => exact searchFrom_walkFrom (fun _ _ _ hj => by cases hj) h
  | succ hops ih => exact searchFrom_walkFrom (fun _ _ _ hj => ih hj) h

theorem Fs.reach_resolve {fs : Fs} {follow : Bool} {p r : Path} (h : fs.reach follow p = some r) :
    fs.resolve follow p = some r := search_walk h

def Fs.Passable (fs : Fs) (p : Path) : Prop :=
  ∀ q, q <+: p → q ≠ p → ownerSearch (fs.mode (.dir q)) = true

theorem Fs.Passable.upward {fs : Fs} {p q : Path} (h : fs.Passable p) (hq : q <+: p) :
    fs.Passable q := by
  intro x hx hne
  refine h x (hx.trans hq) ?_
  rintro rfl
  exact hne (hx.eq_of_length_le hq.length_le)

theorem Fs.Passable.snoc {fs : Fs} {p : Path} {name : String} (h : fs.Passable p)
    (hp : ownerSearch (fs.mode (.dir p)) = true) : fs.Passable (p ++ [name]) := by
  intro q hq hne
  have hup : q <+: p := by simpa using prefix_parent hq hne
  by_cases he : q = p
  · rwa [he]
  · exact h q hup he

theorem searchFrom_passable {fs : Fs} {follow : Bool} {jump : Path → List Component → Option Path}
    (hjump : ∀ p comps r, fs.Passable p → jump p comps = some r → fs.Passable r) {cur r : Path}
    {comps : List Component} (hcur : fs.Passable cur)
    (h : searchFrom fs follow jump cur comps = some r) : fs.Passable r := by
  induction comps generalizing cur with
  | nil =>
    cases h
    exact hcur
  | cons c rest ih =>
    cases c with
    | rootDir => exact ih (fun q hq hne => absurd (List.prefix_nil.mp hq) hne) h
    | curDir =>
      simp only [searchFrom, Option.ite_none_right_eq_some] at h
      exact ih hcur h.2
    | parentDir =>
      simp only [searchFrom, Option.ite_none_right_eq_some] at h
      exact ih (hcur.upward (List.dropLast_prefix cur)) h.2
    | normal name =>
      simp only [searchFrom, Option.ite_none_right_eq_some] at h
      obtain ⟨hs, h⟩ := h
      have hnext : fs.Passable (cur ++ [name]) := hcur.snoc hs
      have last : (if rest = [] then some (cur ++ [name]) else none) = some r → fs.Passable r := by
        intro hr
        split at hr
        · cases hr
          exact hnext
        · cases hr
      cases ho : fs.obj (cur ++ [name]) with
      | none => exact last (by simpa [ho] using h)
      | some x =>
        cases x with
        | file ino => exact last (by simpa [ho] using h)
        | dir => exact ih hnext (by simpa [ho] using h)
        | symlink target =>
          simp only [ho] at h
          split at h
          · cases h
            exact hnext
          · exact hjump _ _ _ hcur h

theorem search_passable {fs : Fs} {follow : Bool} {hops : Nat} {cur r : Path}
    {comps : List Component}
    (hcur : fs.Passable cur) (h : search fs follow hops cur comps = some r) : fs.Passable r := by
  induction hops generalizing cur comps r with
  | zero => exact searchFrom_passable (fun _ _ _ _ hj => by cases hj) hcur h
  | succ hops ih => exact searchFrom_passable (fun _ _ _ hp hj => ih hp hj) hcur h

theorem Fs.reach_passable {fs : Fs} {follow : Bool} {p r : Path} (h : fs.reach follow p = some r) :
    fs.Passable r := search_passable (fun _ hq hne => absurd (List.prefix_nil.mp hq) hne) h

theorem searchFrom_dirs {fs : Fs} {follow : Bool} {jump : Path → List Component → Option Path}
    {cur names : Path} (hpass : fs.Passable (cur ++ names))
    (hdirs : ∀ pre post, names = pre ++ post → pre ≠ [] → post ≠ [] →
      fs.obj (cur ++ pre) = some .dir)
    (hend : follow = true → ∀ target, fs.obj (cur ++ names) ≠ some (.symlink target)) :
    searchFrom fs follow jump cur (names.map .normal) = some (cur ++ names) := by
  induction names generalizing cur with
  | nil => simp [searchFrom]
  | cons name names ih =>
    have happ : cur ++ [name] ++ names = cur ++ name :: names := by simp
    have hs : ownerSearch (fs.mode (.dir cur)) = true :=
      hpass cur (List.prefix_append _ _) (by simp)
    cases names with
    | nil =>
      simp only [List.map_cons, List.map_nil, searchFrom, hs, if_true]
      cases ho : fs.obj (cur ++ [name]) with
      | none => rfl
      | some x =>
        cases x with
        | dir => rfl
        | file ino => rfl
        | symlink target =>
          cases follow with
          | false => rfl
          | true => exact absurd ho (hend rfl target)
    | cons next names =>
      have hdir : fs.obj (cur ++ [name]) = some .dir :=
        hdirs [name] (next :: names) rfl (by simp) (by simp)
      rw [List.map_cons, searchFrom, if_pos hs, hdir, ← happ]
      refine ih (by rwa [happ]) (fun pre post hp hpre hpost => ?_) (by rwa [happ])
      rw [List.append_assoc]
      exact hdirs (name :: pre) post (by simp [hp]) (by simp) hpost

section Reach

variable {fs : Fs} {p : Path}

theorem Fs.resolve_name (hdir : fs.obj p.dropLast = some .dir) : fs.resolve false p = some p :=
  Fs.resolve_in_dir hdir (by simp)

theorem Fs.reach_of_passable (follow : Bool) (hdir : fs.obj p.dropLast = some .dir)
    (hend : follow = true → ∀ target, fs.obj p ≠ some (.symlink target)) (hpass : fs.Passable p) :
    fs.reach follow p = some p := by
  have hway : ∀ pre post, p = pre ++ post → pre ≠ [] → post ≠ [] →
      fs.obj ([] ++ pre) = some .dir := by
    intro pre post hp _ hpost
    have hpre : pre <+: p.dropLast := by
      rw [hp, List.dropLast_append_of_ne_nil hpost]
      exact List.prefix_append _ _
    exact Fs.dir_of_dir hdir hpre
  show searchFrom fs follow (search fs follow 39) [] (p.map .normal) = some ([] ++ p)
  exact searchFrom_dirs hpass hway hend

theorem Fs.reach_in_dir (follow : Bool) (hdir : fs.obj p.dropLast = some .dir)
    (hend : follow = true → ∀ target, fs.obj p ≠ some (.symlink target)) :
    fs.Passable p ∧ fs.reach follow p = some p ∨ ¬fs.Passable p ∧ fs.reach follow p = none := by
  by_cases hpass : fs.Passable p
  · exact .inl ⟨hpass, Fs.reach_of_passable follow hdir hend hpass⟩
  · refine .inr ⟨hpass, ?_⟩
    cases hr : fs.reach follow p with
    | none => rfl
    | some r =>
      have hrp := Fs.resolve_straight (Fs.straight_of_parent hdir) hend (Fs.reach_resolve hr)
      exact absurd (hrp ▸ Fs.reach_passable hr) hpass

theorem Fs.mayName_iff (hdir : fs.obj p.dropLast = some .dir) :
    fs.mayName p = true ↔ fs.Passable p ∧ ownerWrite (fs.mode (.dir p.dropLast)) = true := by
  unfold Fs.mayName
  rcases Fs.reach_in_dir false hdir (by simp) with ⟨hpass, hr⟩ | ⟨hpass, hr⟩
  · simp [hr, hpass]
  · simp [hr, hpass]

end Reach

/-- The mode a directory has or, while it is not there, will get. -/
def Fs.dirBits (fs : Fs) (q : Path) : UInt32 :=
  if fs.obj q = some .dir then fs.mode (.dir q) else 0o777 &&& ~~~fs.umask

/-- `x` has been put at `p`; a new directory or a new file has the mode of the umask. -/
structure Put (fs : Fs) (p : Path) (x : Obj) (fs' : Fs) : Prop extends Added fs p x fs' where
  umask : fs'.umask = fs.umask
  dirBits : ∀ q, fs'.dirBits q = fs.dirBits q
  fresh : x = .file fs.nextIno →
    fs'.data fs.nextIno = [] ∧ fs'.mode (.file fs.nextIno) = 0o666 &&& ~~~fs.umask

theorem Fs.add_rest {fs fs' : Fs} {p : Path} {x : Obj} (h : fs.add p x = some fs') :
    fs'.umask = fs.umask ∧ fs'.mode = fs.mode := by
  unfold Fs.add at h
  split at h
  · cases h
    exact ⟨rfl, rfl⟩
  · cases h

theorem Fs.add_put {fs fs' : Fs} {p : Path} {x : Obj} (hx : x ≠ .dir) (hino : x ≠ .file fs.nextIno)
    (h : fs.add p x = some fs') : Put fs p x fs' := by
  have ha := Fs.add_added h
  obtain ⟨humask, hmode⟩ := Fs.add_rest h
  refine ⟨ha, humask, fun q => ?_, fun he => absurd he hino⟩
  simp only [Fs.dirBits, ha.obj, hmode, humask]
  by_cases hq : q = p
  · simp [hq, hx, ha.absent]
  · simp [hq]

theorem Fs.addDir_put {fs fs' : Fs} {p : Path} (h : fs.addDir p = some fs') :
    Put fs p .dir fs' := by
  have ha := Fs.addDir_added h
  obtain ⟨humask, hmode⟩ := Fs.add_rest h
  refine ⟨ha, humask, fun q => ?_, by simp⟩
  simp only [Fs.dirBits, ha.obj, hmode, humask, Fs.setMode]
  by_cases hq : q = p
  · simp [hq, ha.absent]
  · simp [hq]

theorem Fs.addFile_put {fs fs' : Fs} {p : Path} (h : fs.addFile p = some fs') :
    Put fs p (.file fs.nextIno) fs' := by
  obtain ⟨ha, hdata⟩ := Fs.addFile_added h
  obtain ⟨humask, hmode⟩ := Fs.add_rest h
  refine ⟨ha, humask, fun q => ?_, fun _ => ⟨hdata, ?_⟩⟩
  · simp only [Fs.dirBits, ha.obj, hmode, humask, Fs.setMode, Fs.setData]
    by_cases hq : q = p
    · simp [hq, ha.absent]
    · simp [hq]
  · simp [hmode, Fs.setMode]

theorem Put.fileMode {fs fs' : Fs} {p : Path} {x : Obj} {ino : Nat} (h : Put fs p x fs')
    (hino : ino < fs.nextIno) : fs'.mode (.file ino) = fs.mode (.file ino) :=
  h.mode (.file ino) (by simp) fun i hi => by
    cases hi
    exact hino

theorem Fs.remove_one {fs : Fs} {p : Path} {x : Obj} (hp : fs.obj p = some x)
    (hx : x ≠ .dir) (q : Path) :
    (fs.remove [p]).obj q = if q = p then none else fs.obj q := by
  by_cases hq : q = p
  · simp [Fs.remove, hq]
  · rw [if_neg hq]
    by_cases hpre : p <+: q
    · have hnone : fs.obj q = none := by
        by_contra hsome
        have hdir := Fs.dir_above hsome hpre (Ne.symm hq)
        rw [hp] at hdir
        exact hx (Option.some.inj hdir)
      rcases Fs.remove_obj fs [p] q with h | h
      · exact h
      · rw [h, hnone]
    · exact Fs.remove_keeps (by simpa using hpre)

theorem Fs.remove_dirBits {fs : Fs} {p : Path} {x : Obj} (hp : fs.obj p = some x) (hx : x ≠ .dir)
    (q : Path) : (fs.remove [p]).dirBits q = fs.dirBits q := by
  simp only [Fs.dirBits, Fs.remove_one hp hx]
  by_cases hq : q = p
  · simp only [hq, if_true, hp, Option.some.injEq, hx, if_false]
    rfl
  · rw [if_neg hq]
    rfl

section Rules

variable {P : World → Prop} {E : World → Prop} {p : Path}

theorem owner_ask {α : Type} {r : Request} {f : Fs → Option α} {Q : Except String α → World → Prop}
    (hr : ∀ c, r ≠ .call c)
    (hok : ∀ w a, P w → f w.fs = some a → w.fs.grants r = true → Q (.ok a) w)
    (hno : ∀ w text, P w → f w.fs = none ∨ w.fs.grants r = false → Q (.error text) w) :
    Triple P (Kernel.owner.ask r f) Q E := by
  have hreply : ∀ fs o, (Kernel.owner fs r o).ok = fs.grants r := by
    intro fs o
    cases r with
    | look follow p => rfl
    | openDir p => rfl
    | call c => exact absurd rfl (hr c)
  refine Triple.act fun o w hw => ?_
  cases hf : f w.fs with
  | none => exact hno w _ hw (.inl hf)
  | some a =>
    simp only [hreply]
    cases hg : w.fs.grants r with
    | true => exact hok w a hw hf hg
    | false => exact hno w _ hw (.inr hg)

theorem owner_lstat {Q : Except String Obj → World → Prop}
    (hparent : ∀ w, P w → w.fs.obj p.dropLast = some .dir)
    (hok : ∀ w x, P w → w.fs.Passable p → w.fs.obj p = some x → Q (.ok x) w)
    (hno : ∀ w text, P w → w.fs.obj p = none ∨ ¬w.fs.Passable p → Q (.error text) w) :
    Triple P (Kernel.owner.ask (.look false p) (·.lstat p)) Q E := by
  have there : ∀ w, P w → w.fs.lstat p = w.fs.obj p := fun w hw => by
    simp [Fs.lstat, Fs.resolve_name (hparent w hw)]
  refine owner_ask (by simp) (fun w x hw hx hg => ?_) fun w text hw hno' => ?_
  · obtain ⟨hpass, -⟩ | ⟨-, hr⟩ := Fs.reach_in_dir false (hparent w hw) (by simp)
    · exact hok w x hw hpass (there w hw ▸ hx)
    · simp [Fs.grants, hr] at hg
  · refine hno w text hw (hno'.imp (fun h => there w hw ▸ h) fun hg hpass => ?_)
    simp [Fs.grants, Fs.reach_of_passable false (hparent w hw) (by simp) hpass] at hg

theorem owner_look {α : Type} {f : Fs → Option α} {Q : Except String α → World → Prop}
    (hparent : ∀ w, P w → w.fs.obj p.dropLast = some .dir)
    (hplain : ∀ w, P w → ∀ target, w.fs.obj p ≠ some (.symlink target))
    (hok : ∀ w a, P w → w.fs.Passable p → w.fs.resolve true p = some p →
      f w.fs = some a → Q (.ok a) w)
    (hno : ∀ w text, P w → f w.fs = none ∨ ¬w.fs.Passable p → Q (.error text) w) :
    Triple P (Kernel.owner.ask (.look true p) f) Q E := by
  refine owner_ask (by simp) (fun w a hw ha hg => ?_) fun w text hw hno' => ?_
  · obtain ⟨hpass, hr⟩ | ⟨-, hr⟩ := Fs.reach_in_dir true (hparent w hw) fun _ => hplain w hw
    · exact hok w a hw hpass (Fs.reach_resolve hr) ha
    · simp [Fs.grants, hr] at hg
  · refine hno w text hw (hno'.imp_right fun hg hpass => ?_)
    simp [Fs.grants, Fs.reach_of_passable true (hparent w hw) (fun _ => hplain w hw) hpass] at hg

def yes : KernelReply := ⟨true, "", [], 0⟩

theorem owner_call {c : Syscall} (hc : ∀ p, c ≠ .removeAll p) (o : KernelReply) (w : World) :
    w.call (Kernel.owner w.fs (.call c) o) c =
      if w.fs.grants (.call c) then w.call yes c else (false, w) := by
  cases c with
  | removeAll p => exact absurd rfl (hc p)
  | write ino bytes => rfl
  | setTime n mtime => rfl
  | mkdir p =>
    cases hg : w.fs.grants (.call (.mkdir p)) <;>
      simp [World.call, Kernel.owner, Fs.perform, yes, hg]
  | create p =>
    cases hg : w.fs.grants (.call (.create p)) <;>
      simp [World.call, Kernel.owner, Fs.perform, yes, hg]
  | link src p =>
    cases hg : w.fs.grants (.call (.link src p)) <;>
      simp [World.call, Kernel.owner, Fs.perform, yes, hg]
  | symlink target p =>
    cases hg : w.fs.grants (.call (.symlink target p)) <;>
      simp [World.call, Kernel.owner, Fs.perform, yes, hg]
  | unlink p =>
    cases hg : w.fs.grants (.call (.unlink p)) <;>
      simp [World.call, Kernel.owner, Fs.perform, yes, hg]
  | chmod p mode =>
    cases hg : w.fs.grants (.call (.chmod p mode)) <;>
      simp [World.call, Kernel.owner, Fs.perform, yes, hg]

theorem perform_yes_ok {fs : Fs} {c : Syscall} {d : Done} (h : fs.perform yes c = some d) :
    d.ok = true := by
  cases Fs.perform_change h with
  | write _ => simpa [Fs.perform, yes] using (congrArg Done.ok (Option.some.inj h)).symm
  | removeAll hr ho _ =>
    simp only [Fs.perform, hr, Option.bind_some, ho, yes, if_true] at h
    exact (congrArg Done.ok (Option.some.inj h)).symm
  | _ => rfl

/-- A call goes through, or leaves things as they are. -/
theorem owner_sys {c : Syscall} {Q : Bool → World → Prop} (hc : ∀ p, c ≠ .removeAll p)
    (hyes : ∀ w fs, P w → w.fs.grants (.call c) = true → w.fs.perform yes c = some ⟨fs, true⟩ →
      Q true (w.did c fs))
    (hno : ∀ w, P w → w.fs.grants (.call c) = false ∨ w.fs.perform yes c = none → Q false w) :
    Triple P (Kernel.owner.sys c) Q E := by
  refine Triple.act fun o w hw => ?_
  rw [owner_call hc]
  cases hg : w.fs.grants (.call c) with
  | false => exact hno w hw (.inl hg)
  | true =>
    simp only [if_true, World.call]
    cases hp : w.fs.perform yes c with
    | none => exact hno w hw (.inr hp)
    | some d =>
      obtain ⟨fs, ok⟩ := d
      obtain rfl : ok = true := perform_yes_ok hp
      exact hyes w fs hw hg hp

theorem owner_must {c : Syscall} {Q : Unit → World → Prop} (hc : ∀ p, c ≠ .removeAll p)
    (hyes : ∀ w fs, P w → w.fs.grants (.call c) = true → w.fs.perform yes c = some ⟨fs, true⟩ →
      Q () (w.did c fs))
    (hno : ∀ w, P w → w.fs.grants (.call c) = false ∨ w.fs.perform yes c = none → E w) :
    Triple P (Kernel.owner.must c) Q E := by
  refine Triple.bind (Q := fun ok w => if ok = true then Q () w else E w) ?_ fun ok => ?_
  · exact owner_sys hc (fun w fs hw hg hp => by simpa using hyes w fs hw hg hp)
      fun w hw hno' => by simpa using hno w hw hno'
  · cases ok with
    | true => exact Triple.ret fun w hw => by simpa using hw
    | false => exact Triple.fail fun w hw => by simpa using hw

def Told {α : Type} (yes : α → World → Prop) (no : World → Prop) : Except String α → World → Prop
  | .ok a => yes a
  | .error _ => no

theorem owner_put {c : Syscall} (x : World → Obj) (made : Fs → Option Fs) {Q : Unit → World → Prop}
    (hc : ∀ p, c ≠ .removeAll p) (hparent : ∀ w, P w → w.fs.obj p.dropLast = some .dir)
    (hgrants : ∀ w, P w → w.fs.grants (.call c) = w.fs.mayName p)
    (hmade : ∀ w, P w → w.fs.perform yes c = (made w.fs).map fun fs => ⟨fs, true⟩)
    (hput : ∀ w fs, P w → made w.fs = some fs → Put w.fs p (x w) fs)
    (hfree : ∀ w, P w → w.fs.obj p = none → made w.fs ≠ none)
    (hyes : ∀ w fs, P w → w.fs.Passable p → ownerWrite (w.fs.mode (.dir p.dropLast)) = true →
      Put w.fs p (x w) fs → Q () (w.did c fs))
    (hno : ∀ w, P w → ¬w.fs.Passable p ∨ ownerWrite (w.fs.mode (.dir p.dropLast)) = false ∨
      w.fs.obj p ≠ none → E w) : Triple P (Kernel.owner.must c) Q E := by
  refine owner_must hc (fun w fs hw hg hp => ?_) fun w hw hno' => hno w hw ?_
  · rw [hgrants w hw] at hg
    obtain ⟨hpass, hwrite⟩ := (Fs.mayName_iff (hparent w hw)).mp hg
    rw [hmade w hw] at hp
    obtain ⟨fs', hfs, he⟩ := Option.map_eq_some_iff.mp hp
    cases he
    exact hyes w _ hw hpass hwrite (hput w _ hw hfs)
  · rw [hgrants w hw, hmade w hw] at hno'
    by_cases hpass : w.fs.Passable p
    · refine .inr ?_
      rcases hno' with hg | hnone
      · refine .inl ?_
        by_contra hwrite
        rw [(Fs.mayName_iff (hparent w hw)).mpr ⟨hpass, by simpa using hwrite⟩] at hg
        cases hg
      · exact .inr fun hobj => hfree w hw hobj (by simpa using hnone)
    · exact .inl hpass

theorem owner_mkdir {Q : Unit → World → Prop} (hp : p ≠ [])
    (hparent : ∀ w, P w → w.fs.obj p.dropLast = some .dir)
    (hyes : ∀ w fs, P w → w.fs.Passable p → ownerWrite (w.fs.mode (.dir p.dropLast)) = true →
      Put w.fs p .dir fs → Q () (w.did (.mkdir p) fs))
    (hno : ∀ w, P w → ¬w.fs.Passable p ∨ ownerWrite (w.fs.mode (.dir p.dropLast)) = false ∨
      w.fs.obj p ≠ none → E w) : Triple P (Kernel.owner.must (.mkdir p)) Q E := by
  refine owner_put (fun _ => .dir) (fun fs => fs.addDir p) (by simp) hparent
    (fun _ _ => rfl) (fun w hw => ?_) (fun w fs _ h => Fs.addDir_put h)
      (fun w hw hnone => ?_) hyes hno
  · simp [Fs.perform, yes, Fs.resolve_name (hparent w hw)]
  · have hadd : ∃ fs, (w.fs.setMode (.dir p) (0o777 &&& ~~~w.fs.umask)).add p .dir = some fs :=
      Fs.add_some hnone hp (hparent w hw) rfl
    obtain ⟨fs, h⟩ := hadd
    simp [Fs.addDir, h]

theorem owner_symlink {Q : Unit → World → Prop} {target : String} (hp : p ≠ [])
    (hparent : ∀ w, P w → w.fs.obj p.dropLast = some .dir)
    (hyes : ∀ w fs, P w → w.fs.Passable p → ownerWrite (w.fs.mode (.dir p.dropLast)) = true →
      Put w.fs p (.symlink target) fs → Q () (w.did (.symlink target p) fs))
    (hno : ∀ w, P w → ¬w.fs.Passable p ∨ ownerWrite (w.fs.mode (.dir p.dropLast)) = false ∨
      w.fs.obj p ≠ none → E w) : Triple P (Kernel.owner.must (.symlink target p)) Q E := by
  refine owner_put (fun _ => .symlink target) (fun fs => fs.add p (.symlink target)) (by simp)
    hparent (fun _ _ => rfl) (fun w hw => ?_) (fun w fs _ h => Fs.add_put (by simp) (by simp) h)
    (fun w hw hnone => ?_) hyes hno
  · simp [Fs.perform, yes, Fs.resolve_name (hparent w hw)]
  · obtain ⟨fs', h⟩ := Fs.add_some (x := .symlink target) hnone hp (hparent w hw) rfl
    simp [h]

theorem owner_link {Q : Unit → World → Prop} {src : Path} (hp : p ≠ [])
    (hparent : ∀ w, P w → w.fs.obj p.dropLast = some .dir)
    (hsrc : ∀ w, P w → w.fs.Passable src ∧ ∃ ino, w.fs.obj src = some (.file ino))
    (hyes : ∀ w fs ino, P w → w.fs.Passable p → ownerWrite (w.fs.mode (.dir p.dropLast)) = true →
      w.fs.obj src = some (.file ino) → Put w.fs p (.file ino) fs → Q () (w.did (.link src p) fs))
    (hno : ∀ w, P w → ¬w.fs.Passable p ∨ ownerWrite (w.fs.mode (.dir p.dropLast)) = false ∨
      w.fs.obj p ≠ none → E w) : Triple P (Kernel.owner.must (.link src p)) Q E := by
  have inode : ∀ w, P w → ∃ ino, w.fs.obj src = some (.file ino) ∧
      w.fs.resolve false src = some src ∧
      w.fs.reach false src = some src := by
    intro w hw
    obtain ⟨hpass, ino, ho⟩ := hsrc w hw
    have hne : src ≠ [] := by
      rintro rfl
      rw [Fs.dir_of_dir (hparent w hw) List.nil_prefix] at ho
      cases ho
    have hdir := Fs.parent_of_some (by rw [ho]; simp) hne
    exact ⟨ino, ho, Fs.resolve_name hdir, Fs.reach_of_passable false hdir (by simp) hpass⟩
  refine owner_put (fun w => (w.fs.obj src).getD .dir)
    (fun fs => fs.add p ((fs.obj src).getD .dir)) (by simp) hparent
      (fun w hw => ?_) (fun w hw => ?_)
    (fun w fs hw h => ?_) (fun w hw hnone => ?_) (fun w fs hw hpass hwrite hput => ?_) hno
  · obtain ⟨ino, -, -, hr⟩ := inode w hw
    simp [Fs.grants, hr]
  · obtain ⟨ino, ho, hr, -⟩ := inode w hw
    simp [Fs.perform, yes, hr, ho, Fs.resolve_name (hparent w hw)]
  · obtain ⟨ino, ho, -⟩ := inode w hw
    simp only [ho, Option.getD_some] at h ⊢
    refine Fs.add_put (by simp) ?_ h
    intro he
    cases he
    exact Nat.lt_irrefl _ (w.fs.fresh _ _ ho)
  · obtain ⟨ino, ho, -⟩ := inode w hw
    obtain ⟨fs', h⟩ := Fs.add_some (x := .file ino) hnone hp (hparent w hw)
      (by simpa [Obj.below] using w.fs.fresh _ _ ho)
    simp [ho, h]
  · obtain ⟨ino, ho, -⟩ := inode w hw
    exact hyes w fs ino hw hpass hwrite ho (by simpa [ho] using hput)

theorem owner_createFile {Q : Nat → World → Prop} (hp : p ≠ [])
    (hparent : ∀ w, P w → w.fs.obj p.dropLast = some .dir)
    (hplain : ∀ w, P w → ∀ target, w.fs.obj p ≠ some (.symlink target))
    (hnew : ∀ w fs, P w → w.fs.Passable p → ownerWrite (w.fs.mode (.dir p.dropLast)) = true →
      Put w.fs p (.file w.fs.nextIno) fs → Q w.fs.nextIno (w.did (.create p) fs))
    (hold : ∀ w ino, P w → w.fs.Passable p → w.fs.obj p = some (.file ino) →
      ownerWrite (w.fs.mode (.file ino)) = true → Q ino (w.did (.create p) (w.fs.setData ino [])))
    (hno : ∀ w, P w → (¬w.fs.Passable p ∨
      w.fs.obj p = none ∧ ownerWrite (w.fs.mode (.dir p.dropLast)) = false) ∨
      w.fs.obj p = some .dir ∨
      (∃ ino, w.fs.obj p = some (.file ino) ∧ ownerWrite (w.fs.mode (.file ino)) = false) → E w) :
    Triple P (Kernel.owner.createFile p) Q E := by
  refine Triple.bind (Q := fun opened w => opened.elim (E w) fun ino => Q ino w)
    (Triple.act fun o w hw => ?_) fun opened => ?_
  · simp only [owner_call (c := .create p) (by simp)]
    have hresolve := Fs.resolve_in_dir (hparent w hw) fun (_ : true = true) => hplain w hw
    have hreach := Fs.reach_in_dir true (hparent w hw) fun _ => hplain w hw
    rcases hreach with ⟨hpass, hr⟩ | ⟨hpass, hr⟩
    · cases ho : w.fs.obj p with
      | none =>
        cases hwrite : ownerWrite (w.fs.mode (.dir p.dropLast)) with
        | false => simpa [Fs.grants, hr, ho, hwrite] using hno w hw (.inl (.inr ⟨ho, hwrite⟩))
        | true =>
          have hadd : ∃ fs, w.fs.addFile p = some fs :=
            Fs.add_some ho hp (hparent w hw) (by simp [Obj.below, Fs.setData, Fs.setMode])
          obtain ⟨fs, hadd⟩ := hadd
          simpa [Fs.grants, hr, ho, hwrite, World.call, Fs.perform,
            yes, hresolve, hadd, Fs.createIno]
            using hnew w fs hw hpass hwrite (Fs.addFile_put hadd)
      | some x =>
        cases x with
        | symlink target => exact absurd ho (hplain w hw target)
        | dir =>
          have hend := hno w hw (.inr (.inl ho))
          cases hwrite : ownerWrite (w.fs.mode (.dir p.dropLast)) <;>
            simpa [Fs.grants, hr, ho, hwrite, World.call, Fs.perform, yes, hresolve] using hend
        | file ino =>
          cases hwrite : ownerWrite (w.fs.mode (.file ino)) with
          | false =>
            simpa [Fs.grants, hr, ho, hwrite] using hno w hw (.inr (.inr ⟨ino, ho, hwrite⟩))
          | true =>
            simpa [Fs.grants, hr, ho, hwrite, World.call, Fs.perform, yes, hresolve, Fs.createIno]
              using hold w ino hw hpass ho hwrite
    · simpa [Fs.grants, hr] using hno w hw (.inl (.inl hpass))
  · cases opened with
    | none => exact Triple.fail fun _ hw => hw
    | some ino => exact Triple.ret fun _ hw => hw

theorem owner_removeExisting {policy : MaterializePolicy} (hoff : policy.replaceDirectories = false)
    {Q : Unit → World → Prop} (hparent : ∀ w, P w → w.fs.obj p.dropLast = some .dir)
    (hgone : ∀ w x, P w → w.fs.Passable p → w.fs.obj p = some x → x ≠ .dir →
      ownerWrite (w.fs.mode (.dir p.dropLast)) = true → Q () (w.did (.unlink p) (w.fs.remove [p])))
    (hkeep : ∀ w, P w → w.fs.obj p = none ∨ ¬w.fs.Passable p ∨
      (∃ x, w.fs.obj p = some x ∧ x ≠ .dir) ∧ ownerWrite
      (w.fs.mode (.dir p.dropLast)) = false → Q () w)
    (hdir : ∀ w, P w → w.fs.obj p = some .dir → E w) :
    Triple P (Kernel.owner.removeExisting p policy) Q E := by
  have unlinks : ∀ x : Obj, x ≠ .dir →
      Triple (fun w => P w ∧ w.fs.Passable p ∧ w.fs.obj p = some x)
        (do let _ ← Kernel.owner.sys (.unlink p); pure ()) Q E := by
    intro x hx
    refine Triple.bind (Q := fun _ => Q ())
      (owner_sys (by simp) (fun w fs hw hg hp => ?_) fun w hw hno => ?_)
      fun _ => Triple.ret fun _ hw => hw
    · obtain ⟨hw, hpass, ho⟩ := hw
      have hwrite := ((Fs.mayName_iff (hparent w hw)).mp hg).2
      have hperf : w.fs.perform yes (.unlink p) = some ⟨w.fs.remove [p], true⟩ := by
        cases x with
        | dir => exact absurd rfl hx
        | file ino => simp [Fs.perform, yes, Fs.resolve_name (hparent w hw), ho]
        | symlink target => simp [Fs.perform, yes, Fs.resolve_name (hparent w hw), ho]
      rw [hperf] at hp
      cases hp
      exact hgone w x hw hpass ho hx hwrite
    · obtain ⟨hw, hpass, ho⟩ := hw
      refine hkeep w hw (.inr (.inr ⟨⟨x, ho, hx⟩, ?_⟩))
      rcases hno with hg | hp
      · by_contra hwrite
        have hmay := (Fs.mayName_iff (hparent w hw)).mpr ⟨hpass, by simpa using hwrite⟩
        simp only [Fs.grants, hmay] at hg
        cases hg
      · cases x with
        | dir => exact absurd rfl hx
        | file ino => simp [Fs.perform, yes, Fs.resolve_name (hparent w hw), ho] at hp
        | symlink target => simp [Fs.perform, yes, Fs.resolve_name (hparent w hw), ho] at hp
  refine Triple.bind (Q := Told (fun x w => P w ∧ w.fs.Passable p ∧ w.fs.obj p = some x) (Q ()))
    (owner_lstat hparent (fun w x hw hpass ho => ⟨hw, hpass, ho⟩)
      fun w text hw hno => hkeep w hw (hno.imp_right .inl)) fun found => ?_
  cases found with
  | error text => exact Triple.ret fun _ hw => hw
  | ok x =>
    cases x with
    | file ino => exact unlinks (.file ino) (by simp)
    | symlink target => exact unlinks (.symlink target) (by simp)
    | dir =>
      simp only [hoff]
      exact Triple.fail fun w hw => hdir w hw.1 hw.2.2

theorem owner_setMode {policy : MaterializePolicy} {mode : UInt32}
    {n : Node} {Q : Unit → World → Prop}
    (hparent : ∀ w, P w → w.fs.obj p.dropLast = some .dir)
    (hnode : ∀ w, P w → w.fs.node p = some n)
    (hset : ∀ w, P w → policy.bits mode ≠ 0 → w.fs.Passable p →
      Q () (w.did (.chmod p (policy.bits mode)) (w.fs.setMode n (policy.bits mode))))
    (hskip : ∀ w, P w → policy.bits mode = 0 ∨ ¬w.fs.Passable p → Q () w) :
    Triple P (Kernel.owner.setMode p mode policy) Q E := by
  have hplain : ∀ w, P w → ∀ target, w.fs.obj p ≠ some (.symlink target) := by
    intro w hw target ho
    have := hnode w hw
    simp [Fs.node, ho] at this
  unfold Kernel.setMode
  split
  · rename_i hbits
    refine Triple.bind (Q := fun _ => Q ())
      (owner_sys (by simp) (fun w fs hw hg hp => ?_) fun w hw hno => ?_)
      fun _ => Triple.ret fun _ hw => hw
    · have hresolve := Fs.resolve_in_dir (hparent w hw) fun (_ : true = true) => hplain w hw
      have hperf : w.fs.perform yes (.chmod p (policy.bits mode)) =
          some ⟨w.fs.setMode n (policy.bits mode), true⟩ := by
        simp [Fs.perform, yes, hresolve, hnode w hw]
      rw [hperf] at hp
      cases hp
      obtain ⟨hpass, -⟩ | ⟨-, hr⟩ := Fs.reach_in_dir true (hparent w hw) fun _ => hplain w hw
      · exact hset w hw hbits hpass
      · simp [Fs.grants, hr] at hg
    · refine hskip w hw (.inr fun hpass => ?_)
      have hreach := Fs.reach_of_passable true (hparent w hw) (fun _ => hplain w hw) hpass
      have hresolve := Fs.reach_resolve hreach
      rcases hno with hg | hp
      · simp [Fs.grants, hreach] at hg
      · simp [Fs.perform, yes, hresolve, hnode w hw] at hp
  · rename_i hbits
    exact Triple.ret fun w hw => hskip w hw (.inl (not_not.mp hbits))

theorem owner_setMtime {n : Node} {mtime : Int64} {I : Fs → Prop} :
    Triple (fun w => I w.fs) (Kernel.owner.setMtime n mtime) (fun _ w => I w.fs) E :=
  triple_setMtime (fun _ _ hw => hw) mtime

end Rules

end Zblob

import Zblob.Owner
import Zblob.Snapshot

/-!
The modes that a materialization leaves, over a kernel that refuses no change of a mode. The
passes before the last set the modes of files and leave every directory with the mode of the
umask; the last pass sets the modes of directories.
-/

set_option autoImplicit false

namespace Zblob

open Program

/-- Every change of a mode is let through, the rest is left to the outside. -/
def Kernel.obliging : Kernel := fun _ r o =>
  match r with
  | .call (.chmod _ _) => { o with ok := true }
  | _ => o

section Rules

variable {k : Kernel} {P : Fs → Prop} {root p : Path}

def Leaves {α : Type} (P : Fs → Prop) (m : FsProg α) (Q : α → Fs → Prop) : Prop :=
  Triple (fun w => P w.fs) m (fun a w => Q a w.fs) fun _ => True

theorem Leaves.bind {α β : Type} {m : FsProg α} {f : α → FsProg β}
    {Q : α → Fs → Prop} {R : β → Fs → Prop}
    (hm : Leaves P m Q) (hf : ∀ a, Leaves (Q a) (f a) R) : Leaves P (m >>= f) R := Triple.bind hm hf

theorem Leaves.ret {α : Type} {a : α} {Q : α → Fs → Prop} (h : ∀ fs, P fs → Q a fs) :
    Leaves P (pure a : FsProg α) Q := Triple.ret fun w hw => h w.fs hw

theorem Leaves.fail {α : Type} {e : BlobError} {Q : α → Fs → Prop} :
    Leaves P (Prog.fail e : FsProg α) Q :=
  Triple.fail fun _ _ => trivial

theorem Leaves.pre {α : Type} {m : FsProg α} {P' : Fs → Prop} {Q : α → Fs → Prop}
    (hm : Leaves P m Q)
    (h : ∀ fs, P' fs → P fs) : Leaves P' m Q := Triple.pre hm fun w hw => h w.fs hw

theorem Leaves.post {α : Type} {m : FsProg α} {Q R : α → Fs → Prop} (hm : Leaves P m Q)
    (h : ∀ a fs, Q a fs → R a fs) : Leaves P m R := Triple.post hm fun a w hw => h a w.fs hw

theorem kernel_sys {c : Syscall} {Q : Bool → Fs → Prop} (hno : ∀ fs, P fs → Q false fs)
    (hdo : ∀ fs o d, P fs → fs.perform o c = some d → Q d.ok d.fs) : Leaves P (k.sys c) Q := by
  refine Triple.act fun o w hw => ?_
  unfold World.call
  cases hp : w.fs.perform (k w.fs (.call c) o) c with
  | none => exact hno w.fs hw
  | some d => exact hdo w.fs _ d hw hp

theorem kernel_try {c : Syscall} (hdo : ∀ fs o d, P fs → fs.perform o c = some d → P d.fs) :
    Leaves P (k.sys c) (fun _ => P) := kernel_sys (fun _ h => h) hdo

theorem kernel_must {c : Syscall} {Q : Unit → Fs → Prop}
    (hdo : ∀ fs o fs', P fs → fs.perform o c = some ⟨fs', true⟩ → Q () fs') :
    Leaves P (k.must c) Q := by
  refine Leaves.bind (Q := fun ok fs => ok = true → Q () fs)
    (kernel_sys (fun _ _ => (by simp)) ?_) fun ok => ?_
  · rintro fs o ⟨fs', ok⟩ hfs hp hok
    cases hok
    exact hdo fs o fs' hfs hp
  · cases ok with
    | true => exact Leaves.ret fun fs hfs => hfs rfl
    | false => exact Leaves.fail

theorem kernel_ask {α : Type} {r : Request} {f : Fs → Option α} {Q : Except String α → Fs → Prop}
    (hok : ∀ fs a, P fs → f fs = some a → Q (.ok a) fs)
    (herr : ∀ fs text, P fs → Q (.error text) fs) :
    Leaves P (k.ask r f) Q := by
  refine Triple.act fun o w hw => ?_
  cases hf : f w.fs with
  | none => exact herr w.fs _ hw
  | some a =>
    simp only
    split
    · exact hok w.fs a hw hf
    · exact herr w.fs _ hw

theorem kernel_createDirsFrom {rel : RelPath} {names : List String}
    {cur : Path} (hcur : root <+: cur)
    (hmk : ∀ fs q fs', P fs → root <+: q → q <+: cur ++ names → Put fs q .dir fs' → P fs') :
    Leaves (fun fs => P fs ∧ fs.obj cur = some .dir) (k.createDirsFrom rel cur names)
      (fun _ fs => P fs ∧ fs.obj (cur ++ names) = some .dir) := by
  induction names generalizing cur with
  | nil => exact Leaves.ret fun fs hfs => by simpa using hfs
  | cons name names ih =>
    have hnext : root <+: cur ++ [name] := hcur.trans (List.prefix_append _ _)
    have happ : cur ++ [name] ++ names = cur ++ name :: names := by simp
    have straight : ∀ {fs : Fs}, fs.obj cur = some .dir →
        fs.resolve false (cur ++ [name]) = some (cur ++ [name]) :=
      fun hdir => Fs.resolve_name (by simpa using hdir)
    have rest := ih hnext (by rw [happ]; exact hmk)
    rw [happ] at rest
    refine Leaves.bind (Q := fun found fs => (P fs ∧ fs.obj cur = some .dir) ∧
      (found = .ok .dir → fs.obj (cur ++ [name]) = some .dir))
      (kernel_ask (fun fs x hfs hx => ⟨hfs, fun he => ?_⟩) fun fs text hfs => ⟨hfs, by simp⟩)
      fun found => ?_
    · cases he
      simpa [Fs.lstat, straight hfs.2] using hx
    · cases found with
      | ok x =>
        cases x with
        | symlink target => exact Leaves.fail
        | file ino => exact Leaves.fail
        | dir => exact rest.pre fun fs hfs => ⟨hfs.1.1, hfs.2 rfl⟩
      | error text =>
        refine Leaves.bind (Q := fun _ fs => P fs ∧ fs.obj (cur ++ [name]) = some .dir)
          (kernel_must fun fs o fs' hfs hp => ?_) fun _ => rest
        simp only [Fs.perform, Option.ite_none_right_eq_some, straight hfs.1.2, Option.bind_some,
          Option.map_eq_some_iff] at hp
        obtain ⟨-, made, hmade, he⟩ := hp
        cases he
        have hput := Fs.addDir_put hmade
        refine ⟨hmk fs _ _ hfs.1.1 hnext ?_ hput, by simp [hput.obj]⟩
        rw [← happ]
        exact List.prefix_append _ _

theorem kernel_createDirConfined {rel : RelPath}
    (hmk : ∀ fs q fs', P fs → root <+: q → q <+: root ++ rel → Put fs q .dir fs' → P fs') :
    Leaves (fun fs => P fs ∧ fs.obj root = some .dir) (k.createDirConfined root rel)
      (fun _ fs => P fs ∧ fs.obj (root ++ rel) = some .dir) :=
  kernel_createDirsFrom List.prefix_rfl hmk

theorem kernel_assertParentWithin : Leaves P (k.assertParentWithin root p) (fun _ => P) := by
  refine Leaves.bind (Q := fun _ => P) (kernel_ask (fun _ _ h _ => h) fun _ _ h => h)
    fun found => ?_
  cases found with
  | error text => exact Leaves.fail
  | ok canon =>
    simp only
    split
    · exact Leaves.ret fun _ h => h
    · exact Leaves.fail

theorem kernel_removeExisting {policy : MaterializePolicy}
    (hparent : ∀ fs, P fs → fs.obj p.dropLast = some .dir)
    (hgone : ∀ fs roots, P fs → (∀ x ∈ roots, p <+: x) → P (fs.remove roots)) :
    Leaves P (k.removeExisting p policy) (fun _ => P) := by
  have unlinks : Leaves P (do let _ ← k.sys (.unlink p); pure ()) (fun _ => P) := by
    refine Leaves.bind (Q := fun _ => P) (kernel_try fun fs o d hfs hp => ?_) fun _ =>
      Leaves.ret fun _ h => h
    cases Fs.perform_change hp with
    | unlink hr _ _ =>
      obtain rfl := Option.some.inj ((Fs.resolve_name (hparent fs hfs)).symm.trans hr)
      exact hgone fs [p] hfs (by simp)
  refine Leaves.bind (Q := fun _ => P) (kernel_ask (fun _ _ h _ => h) fun _ _ h => h)
    fun found => ?_
  cases found with
  | error text => exact Leaves.ret fun _ h => h
  | ok x =>
    cases x with
    | file ino => exact unlinks
    | symlink target => exact unlinks
    | dir =>
      simp only
      split
      · refine Leaves.bind (Q := fun _ => P) (kernel_try fun fs o d hfs hp => ?_) fun _ =>
          Leaves.ret fun _ h => h
        cases Fs.perform_change hp with
        | removeAll hr _ hroots =>
          obtain rfl := Option.some.inj ((Fs.resolve_name (hparent fs hfs)).symm.trans hr)
          exact hgone fs _ hfs hroots
      · exact Leaves.fail

theorem kernel_createFile {Q : Nat → Fs → Prop}
    (hparent : ∀ fs, P fs → fs.obj p.dropLast = some .dir)
    (hbare : ∀ fs, P fs → ∀ x, fs.obj p = some x → x = .dir)
    (hnew : ∀ fs fs', P fs → Put fs p (.file fs.nextIno) fs' → Q fs.nextIno fs') :
    Leaves P (k.createFile p) Q := by
  refine Leaves.bind (Q := fun opened fs => ∀ ino, opened = some ino → Q ino fs)
    (Triple.act fun o w hw => ?_) fun opened => ?_
  · have hr : w.fs.resolve true p = some p :=
      Fs.resolve_in_dir (hparent w.fs hw) fun _ target ho => by
      cases hbare w.fs hw _ ho
    unfold World.call
    cases hp : w.fs.perform (k w.fs (.call (.create p)) o) (.create p) with
    | none => exact fun ino he => by simp at he
    | some d =>
      simp only [Fs.perform, Option.ite_none_right_eq_some, hr, Option.bind_some] at hp
      obtain ⟨-, hp⟩ := hp
      cases ho : w.fs.obj p with
      | none =>
        simp only [ho] at hp
        obtain ⟨fs', hmade, rfl⟩ := Option.map_eq_some_iff.mp hp
        intro ino he
        simp only [Fs.createIno, hr, Option.bind_some, ho, if_true, Option.some.injEq] at he
        subst he
        exact hnew w.fs fs' hw (Fs.addFile_put hmade)
      | some x =>
        cases hbare w.fs hw x ho
        simp [ho] at hp
  · cases opened with
    | none => exact Leaves.fail
    | some ino => exact Leaves.ret fun fs hfs => hfs ino rfl

theorem kernel_writeChunks {th : TreeHash} {store : ContentStore} {f : Nat}
    (hwrite : ∀ fs bytes, P fs → P (fs.setData f bytes)) (chunks : List ChunkRef) (written : Nat) :
    Leaves P (k.writeChunks th store f chunks written) (fun _ => P) := by
  induction chunks generalizing written with
  | nil => exact Leaves.ret fun _ h => h
  | cons c chunks ih =>
    refine Leaves.bind (Q := fun _ => P) (Triple.moment fun _ _ h => h) fun now => ?_
    refine Leaves.bind (Q := fun _ => P) (Triple.lift (fun _ _ _ h => h) fun _ _ _ _ => trivial)
      fun found => ?_
    cases found with
    | none => exact Leaves.fail
    | some piece =>
      simp only
      split
      · exact Leaves.fail
      split
      · exact Leaves.fail
      refine Leaves.bind (Q := fun _ => P) (kernel_must fun fs o fs' hfs hp => ?_) fun _ => ih _
      cases Fs.perform_change hp with
      | write _ => exact hwrite fs _ hfs

theorem kernel_setMtime {n : Node} {mtime : Int64} :
    Leaves P (k.setMtime n mtime) (fun _ => P) := by
  unfold Kernel.setMtime
  split
  · refine Leaves.bind (Q := fun _ => P) (kernel_try fun fs o d hfs hp => ?_) fun _ =>
      Leaves.ret fun _ h => h
    cases Fs.perform_change hp with
    | setTime => exact hfs
  · exact Leaves.ret fun _ h => h

theorem kernel_timeDirectory {mtime : Int64} : Leaves P (k.timeDirectory p mtime) (fun _ => P) := by
  unfold Kernel.timeDirectory
  split
  · refine Leaves.bind (Q := fun _ => P) (kernel_ask (fun _ _ h _ => h) fun _ _ h => h)
      fun found => ?_
    cases found with
    | error text => exact Leaves.ret fun _ h => h
    | ok f => exact kernel_setMtime
  · exact Leaves.ret fun _ h => h

theorem obliging_setMode {policy : MaterializePolicy} {mode : UInt32}
    {n : Node} {Q : Unit → Fs → Prop}
    (hat : ∀ fs, P fs → fs.resolve true p = some p ∧ fs.node p = some n)
    (hset : ∀ fs, P fs → policy.bits mode ≠ 0 → Q () (fs.setMode n (policy.bits mode)))
    (hskip : ∀ fs, P fs → policy.bits mode = 0 → Q () fs) :
    Leaves P (Kernel.obliging.setMode p mode policy) Q := by
  unfold Kernel.setMode
  split
  · rename_i hbits
    refine Leaves.bind (Q := fun _ => Q ()) (Triple.act fun o w hw => ?_) fun _ =>
      Leaves.ret fun _ h => h
    obtain ⟨hr, hn⟩ := hat w.fs hw
    have hcall : w.fs.perform (Kernel.obliging w.fs (.call (.chmod p (policy.bits mode))) o)
        (.chmod p (policy.bits mode)) = some ⟨w.fs.setMode n (policy.bits mode), true⟩ := by
      simp [Fs.perform, Kernel.obliging, hr, hn]
    simp only [World.call, hcall]
    exact hset w.fs hw hbits
  · rename_i hbits
    exact Leaves.ret fun fs hfs => hskip fs hfs (not_not.mp hbits)

end Rules

def MaterializePolicy.settled (policy : MaterializePolicy) (given mode : UInt32) : UInt32 :=
  if policy.bits mode = 0 then given else policy.bits mode

def MaterializePolicy.Mild (policy : MaterializePolicy) (mode : UInt32) : Prop :=
  policy.restoreSetid = false → mode &&& 0o7000 = 0

section Masks

variable {policy : MaterializePolicy} {given mode : UInt32}

theorem mild_of_mask {low : UInt32} (hlow : low &&& 0o7000 = 0) : policy.Mild (mode &&& low) := by
  intro _
  rw [UInt32.and_assoc, hlow, UInt32.and_zero]

theorem mild_default (low umask : UInt32) (hlow : low &&& 0o7000 = 0) :
    policy.Mild (low &&& ~~~umask) := by
  rw [UInt32.and_comm]
  exact mild_of_mask hlow

theorem mild_bits : policy.Mild (policy.bits mode) := by
  intro hoff
  rw [MaterializePolicy.bits, hoff]
  exact @mild_of_mask policy mode 0o777 (by decide) hoff

theorem mild_settled (hgiven : policy.Mild given) : policy.Mild (policy.settled given mode) := by
  unfold MaterializePolicy.settled
  split
  · exact hgiven
  · exact mild_bits

/-- Skipping a mode with nothing left in it does no harm only to what has no bits anyway. -/
theorem settled_eq_bits_iff : policy.settled given mode = policy.bits mode ↔
    policy.bits mode ≠ 0 ∨ given = 0 := by
  unfold MaterializePolicy.settled
  split
  · rename_i hbits
    simp [hbits]
  · rename_i hbits
    simp [hbits]

end Masks

def Unblocked (entries : List Entry) (e : Entry) : Prop :=
  ∀ a ∈ entries, a.isDir = false → a.rel <+: e.rel → a.rel = e.rel

instance (entries : List Entry) (e : Entry) : Decidable (Unblocked entries e) :=
  inferInstanceAs (Decidable (∀ a ∈ entries, _ → _ → _))

section Layout

variable (policy : MaterializePolicy) (root : Path) (entries : List Entry) (mask : UInt32)

/-- Between two calls: all of `seen` may have left something, and `done` has had its turn. What
stands under another entry that is no directory may be gone again. -/
structure Strewn (seen done : List Entry) (fs : Fs) : Prop where
  anchored : fs.obj root = some .dir
  traced : Traced seen root fs
  umask : fs.umask = mask
  dirs : ∀ q, q ≠ [] → fs.dirBits (root ++ q) = 0o777 &&& ~~~mask
  stands : ∀ e ∈ done, Unblocked entries e → ∃ x, fs.obj (root ++ e.rel) = some x ∧ e.Makes x
  mild : ∀ q ino, fs.obj (root ++ q) = some (.file ino) → policy.Mild (fs.mode (.file ino))
  set : ∀ path mode mtime size chunks, .file path mode mtime size chunks ∈ done → ∀ ino,
    fs.obj (root ++ (Entry.file path mode mtime size chunks).rel) = some (.file ino) →
    fs.mode (.file ino) = policy.settled (0o666 &&& ~~~mask) mode

/-- Before an entry that is no directory: its parent is there, and at its place at most a directory.
-/
structure Placing (done : List Entry) (e : Entry) (fs : Fs) : Prop extends
    Strewn policy root entries mask (done ++ [e]) done fs where
  bare : ∀ x, fs.obj (root ++ e.rel) = some x → x = .dir
  parent : fs.obj (root ++ e.rel).dropLast = some .dir

structure FileOpen (done : List Entry) (e : Entry) (ino : Nat) (fs : Fs) : Prop extends
    Strewn policy root entries mask (done ++ [e]) done fs where
  here : fs.obj (root ++ e.rel) = some (.file ino)
  only : ∀ q, fs.obj q = some (.file ino) → q = root ++ e.rel
  given : fs.mode (.file ino) = 0o666 &&& ~~~mask

variable {policy root entries mask} {seen done : List Entry} {e : Entry}
  {fs fs' : Fs} {p : Path} {x : Obj}

theorem Strewn.see (h : Strewn policy root entries mask done done fs) (e : Entry) :
    Strewn policy root entries mask (done ++ [e]) done fs :=
  ⟨h.anchored, h.traced.mono fun _ hx => List.mem_append_left _ hx,
    h.umask, h.dirs, h.stands, h.mild, h.set⟩

theorem Strewn.put (h : Strewn policy root entries mask seen done fs) (hp : Put fs p x fs')
    (htraced : Traced seen root fs')
    (hfile : ∀ ino, x = .file ino → policy.Mild (fs'.mode (.file ino)) ∧
      ∀ e ∈ done, root ++ e.rel ≠ p) :
    Strewn policy root entries mask seen done fs' := by
  refine ⟨hp.keeps h.anchored, htraced, hp.umask.trans h.umask,
    fun q hq => (hp.dirBits _).trans (h.dirs q hq),
    fun e he hfree => ?_, fun q ino ho => ?_, fun path mode mtime size chunks he ino ho => ?_⟩
  · obtain ⟨y, hy, hm⟩ := h.stands e he hfree
    exact ⟨y, hp.keeps hy, hm⟩
  · rw [hp.obj] at ho
    split at ho
    · exact (hfile ino (Option.some.inj ho)).1
    · rw [hp.fileMode (fs.fresh _ _ ho)]
      exact h.mild q ino ho
  · rw [hp.obj] at ho
    split at ho
    · rename_i hplace
      exact absurd hplace ((hfile ino (Option.some.inj ho)).2 _ he)
    · rw [hp.fileMode (fs.fresh _ _ ho)]
      exact h.set path mode mtime size chunks he ino ho

theorem Strewn.remove (h : Strewn policy root entries mask (done ++ [e]) done fs) (he : e ∈ entries)
    (hrel : e.rel ≠ []) (hplain : e.isDir = false) (hfresh : ∀ y ∈ done, y.rel ≠ e.rel)
    {roots : List Path}
    (hroots : ∀ r ∈ roots, root ++ e.rel <+: r) :
    Strewn policy root entries mask (done ++ [e]) done (fs.remove roots) := by
  have hold : ∀ {q y}, (fs.remove roots).obj q = some y → fs.obj q = some y := by
    intro q y hq
    rcases Fs.remove_obj fs roots q with hsame | hnone
    · rwa [hsame] at hq
    · rw [hnone] at hq
      cases hq
  have hroot : (fs.remove roots).obj root = some .dir := by
    refine (Fs.remove_keeps fun r hr hpre => ?_).trans h.anchored
    have hlen := ((hroots r hr).trans hpre).length_le
    have := List.length_pos_iff.mpr hrel
    rw [List.length_append] at hlen
    omega
  refine ⟨hroot, fun q y hq ho => h.traced q y hq (hold ho), h.umask,
    fun q hq => ?_, fun y hy hfree => ?_,
    fun q ino ho => h.mild q ino (hold ho), fun path mode mtime size chunks hmem ino ho =>
      h.set path mode mtime size chunks hmem ino (hold ho)⟩
  · have hdir := h.dirs q hq
    unfold Fs.dirBits at hdir ⊢
    split
    · rename_i ho
      rwa [if_pos (hold ho)] at hdir
    · exact congrArg (fun u => 0o777 &&& ~~~u) h.umask
  · obtain ⟨z, hz, hm⟩ := h.stands y hy hfree
    refine ⟨z, (Fs.remove_keeps fun r hr hpre => ?_).trans hz, hm⟩
    have hbelow := (List.prefix_append_right_inj root).mp ((hroots r hr).trans hpre)
    exact hfresh y hy (hfree e he hplain hbelow).symm

theorem Strewn.lay (h : Strewn policy root entries mask (done ++ [e]) done fs)
    (hobj : fs.obj (root ++ e.rel) = some x) (hm : e.Makes x)
    (hset : ∀ path mode mtime size chunks, e = .file path mode mtime size chunks →
      ∀ ino, x = .file ino →
      fs.mode (.file ino) = policy.settled (0o666 &&& ~~~mask) mode) :
    Strewn policy root entries mask (done ++ [e]) (done ++ [e]) fs := by
  refine ⟨h.anchored, h.traced, h.umask, h.dirs, fun y hy hfree => ?_, h.mild,
    fun path mode mtime size chunks hmem ino ho => ?_⟩
  · rcases List.mem_append.mp hy with hy | hy
    · exact h.stands y hy hfree
    · obtain rfl := List.mem_singleton.mp hy
      exact ⟨x, hobj, hm⟩
  · rcases List.mem_append.mp hmem with hmem | hmem
    · exact h.set path mode mtime size chunks hmem ino ho
    · obtain rfl := List.mem_singleton.mp hmem
      exact hset path mode mtime size chunks rfl ino (Option.some.inj (hobj.symm.trans ho))

theorem Strewn.bare (h : Strewn policy root entries mask done done fs) (hrel : e.rel ≠ [])
    (hfresh : ∀ y ∈ done, y.rel ≠ e.rel) : ∀ x, fs.obj (root ++ e.rel) = some x → x = .dir := by
  intro x ho
  rcases h.traced e.rel x hrel ho with ⟨y, hy, heq, -⟩ | ⟨hdir, -⟩
  · exact absurd heq (hfresh y hy)
  · exact hdir

theorem Placing.put (h : Placing policy root entries mask done e fs)
    (hp : Put fs (root ++ e.rel) x fs')
    (hm : e.Makes x) (hfresh : ∀ y ∈ done, y.rel ≠ e.rel)
    (hmild : ∀ ino, x = .file ino → policy.Mild (fs'.mode (.file ino))) :
    Strewn policy root entries mask (done ++ [e]) done fs' :=
  h.toStrewn.put hp (h.traced.added hp.toAdded fun q hq =>
    .inl ⟨e, by simp, List.append_cancel_left hq, hm⟩)
    fun ino hx => ⟨hmild ino hx, fun y hy heq => hfresh y hy (List.append_cancel_left heq)⟩

theorem FileOpen.setData {ino : Nat} (h : FileOpen policy root entries mask done e ino fs)
    (bytes : Bytes) :
    FileOpen policy root entries mask done e ino (fs.setData ino bytes) :=
  ⟨⟨h.anchored, h.traced, h.umask, h.dirs, h.stands, h.mild, h.set⟩, h.here, h.only, h.given⟩

theorem FileOpen.setMode {ino : Nat} {mode : UInt32}
    (h : FileOpen policy root entries mask done e ino fs)
    (hfresh : ∀ y ∈ done, y.rel ≠ e.rel) (hmild : policy.Mild mode) :
    Strewn policy root entries mask (done ++ [e]) done (fs.setMode (.file ino) mode) := by
  refine ⟨h.anchored, h.traced, h.umask, fun q hq => ?_, h.stands, fun q i ho => ?_,
    fun path m mtime size chunks hmem i ho => ?_⟩
  · have hdir := h.dirs q hq
    simpa [Fs.dirBits, Fs.setMode] using hdir
  · by_cases hi : i = ino
    · simpa [Fs.setMode, hi] using hmild
    · simpa [Fs.setMode, hi] using h.mild q i ho
  · have hi : i ≠ ino := by
      rintro rfl
      exact hfresh _ hmem (List.append_cancel_left (h.only _ ho))
    simpa [Fs.setMode, hi] using h.set path m mtime size chunks hmem i ho

variable {th : TreeHash} {store : ContentStore} {k : Kernel}

theorem kernel_parent (hrel : e.rel ≠ []) (hfresh : ∀ y ∈ done, y.rel ≠ e.rel) :
    Leaves (Strewn policy root entries mask done done) (k.createDirConfined root e.rel.dropLast)
      (fun _ => Placing policy root entries mask done e) := by
  refine ((kernel_createDirConfined
    (P := fun fs => Strewn policy root entries mask (done ++ [e]) done fs ∧
    ∀ x, fs.obj (root ++ e.rel) = some x → x = .dir) fun fs q fs' hfs _ hq hp =>
    ⟨?_, fun x ho => ?_⟩).pre
    fun fs hfs => ⟨⟨hfs.see e, hfs.bare hrel hfresh⟩, hfs.anchored⟩).post fun _ fs hfs =>
    ⟨hfs.1.1, hfs.1.2, ?_⟩
  · have hpre : q <+: root ++ e.rel :=
      hq.trans ((List.prefix_append_right_inj root).mpr (List.dropLast_prefix _))
    refine hfs.1.put hp (hfs.1.traced.mkdir hp.toAdded (by simp) hpre fun heq => ?_) (by simp)
    have hlen := hq.length_le
    have := List.length_pos_iff.mpr hrel
    simp only [heq, List.length_append, List.length_dropLast] at hlen
    omega
  · rw [hp.obj] at ho
    split at ho
    · exact (Option.some.inj ho).symm
    · exact hfs.2 x ho
  · rw [List.dropLast_append_of_ne_nil hrel]
    exact hfs.2

theorem kernel_clear (he : e ∈ entries) (hrel : e.rel ≠ []) (hplain : e.isDir = false)
    (hfresh : ∀ y ∈ done, y.rel ≠ e.rel) :
    Leaves (Placing policy root entries mask done e) (k.removeExisting (root ++ e.rel) policy)
      (fun _ => Placing policy root entries mask done e) := by
  refine kernel_removeExisting (fun fs hfs => hfs.parent) fun fs roots hfs hroots =>
    ⟨hfs.toStrewn.remove he hrel hplain hfresh hroots, fun x ho => ?_, ?_⟩
  · rcases Fs.remove_obj fs roots (root ++ e.rel) with hsame | hnone
    · exact hfs.bare x (hsame ▸ ho)
    · rw [hnone] at ho
      cases ho
  · refine (Fs.remove_keeps fun r hr hpre => ?_).trans hfs.parent
    have hlen := ((hroots r hr).trans hpre).length_le
    have := List.length_pos_iff.mpr hrel
    simp only [List.length_append, List.length_dropLast] at hlen
    omega

theorem obliging_file {path : String} {mode : UInt32} {mtime : Int64}
    {size : UInt64} {chunks : List ChunkRef}
    (he : .file path mode mtime size chunks ∈ entries)
    (hpath : sanitizeRelPath path = .ok (Entry.file path mode mtime size chunks).rel)
    (hrel : (Entry.file path mode mtime size chunks).rel ≠ [])
    (hfresh : ∀ y ∈ done, y.rel ≠ (Entry.file path mode mtime size chunks).rel) :
    Leaves (Strewn policy root entries mask done done)
      (Kernel.obliging.makeContent th store policy root (.file path mode mtime size chunks))
      (fun _ => Strewn policy root entries mask (done ++ [.file path mode mtime size chunks])
        (done ++ [.file path mode mtime size chunks])) := by
  refine Triple.lift_bind hpath ?_
  refine (kernel_parent hrel hfresh).bind fun _ => ?_
  refine kernel_assertParentWithin.bind fun _ => ?_
  refine (kernel_clear he hrel rfl hfresh).bind fun _ => ?_
  refine Leaves.bind
    (Q := FileOpen policy root entries mask done (.file path mode mtime size chunks))
    (kernel_createFile (fun fs hfs => hfs.parent) (fun fs hfs => hfs.bare) fun fs fs' hfs hp => ?_)
      fun ino => ?_
  · have hgiven := (hp.fresh rfl).2
    rw [hfs.umask] at hgiven
    refine ⟨hfs.put hp .file hfresh fun i hi => ?_, by simp [hp.obj], fun q hq => ?_, hgiven⟩
    · cases hi
      rw [hgiven]
      exact mild_default _ _ (by decide)
    · rw [hp.obj] at hq
      split at hq
      · assumption
      · exact absurd (fs.fresh q _ hq) (Nat.lt_irrefl _)
  refine Leaves.bind (kernel_writeChunks (fun fs bytes hfs => hfs.setData bytes) chunks 0)
    fun written => ?_
  split
  · exact Leaves.fail
  refine Leaves.bind (Q := fun _ =>
    Strewn policy root entries mask (done ++ [.file path mode mtime size chunks])
    (done ++ [.file path mode mtime size chunks])) (obliging_setMode
      (n := .file ino) (fun fs hfs => ?_)
      (fun fs hfs hbits => ?_) fun fs hfs hbits => ?_) fun _ => kernel_setMtime
  · exact ⟨Fs.resolve_of_some hfs.here (by simp), by simp [Fs.node, hfs.here]⟩
  · refine (hfs.setMode hfresh mild_bits).lay hfs.here .file fun _ _ _ _ _ heq i hi => ?_
    cases heq
    cases hi
    simp [Fs.setMode, MaterializePolicy.settled, hbits]
  · refine hfs.toStrewn.lay hfs.here .file fun _ _ _ _ _ heq i hi => ?_
    cases heq
    cases hi
    rw [hfs.given, MaterializePolicy.settled, if_pos hbits]

theorem kernel_hardlink {path target : String} {trel : RelPath}
    (he : .hardlink path target ∈ entries)
    (hpath : sanitizeRelPath path = .ok (Entry.hardlink path target).rel)
    (hrel : (Entry.hardlink path target).rel ≠ []) (htarget : sanitizeRelPath target = .ok trel)
    (hfresh : ∀ y ∈ done, y.rel ≠ (Entry.hardlink path target).rel)
    (hplain : ∀ y ∈ done, y.isSymlink = false) :
    Leaves (Strewn policy root entries mask done done)
      (k.makeContent th store policy root (.hardlink path target))
      (fun _ => Strewn policy root entries mask (done ++ [.hardlink path target])
        (done ++ [.hardlink path target])) := by
  have hseen : ∀ y ∈ done ++ [Entry.hardlink path target], y.isSymlink = false := by
    intro y hy
    rcases List.mem_append.mp hy with hy | hy
    · exact hplain y hy
    · rw [List.mem_singleton.mp hy]
      rfl
  refine Triple.lift_bind hpath ?_
  refine (kernel_parent hrel hfresh).bind fun _ => ?_
  refine Triple.lift_bind htarget ?_
  refine kernel_assertParentWithin.bind fun _ => ?_
  refine Leaves.bind (Q := fun _ => Placing policy root entries mask done (.hardlink path target))
    (kernel_ask (fun _ _ h _ => h) fun _ _ h => h) fun found => ?_
  cases found with
  | error text => exact Leaves.fail
  | ok canonT =>
    simp only
    split
    · rename_i hin
      obtain ⟨rest, rfl⟩ := List.isPrefixOf_iff_prefix.mp hin
      refine Leaves.bind (Q := fun _ =>
        Placing policy root entries mask done (.hardlink path target))
        (kernel_ask (fun _ _ h _ => h) fun _ _ h => h) fun kind => ?_
      cases kind with
      | error text => exact Leaves.fail
      | ok x =>
        cases x with
        | dir => exact Leaves.fail
        | symlink target => exact Leaves.fail
        | file ino =>
          refine (kernel_clear he hrel rfl hfresh).bind fun _ =>
            kernel_must fun fs o fs' hfs hp => ?_
          simp only [Fs.perform, Option.ite_none_right_eq_some, Option.bind_eq_some_iff] at hp
          obtain ⟨-, a, hsrc, r, hr, hp⟩ := hp
          obtain rfl := Option.some.inj ((Fs.resolve_name hfs.parent).symm.trans hr)
          obtain rfl := hfs.traced.resolve hfs.anchored hseen hsrc
          split at hp
          · rename_i i hi
            obtain ⟨made, hmade, heq⟩ := Option.map_eq_some_iff.mp hp
            cases heq
            have hold := fs.fresh _ _ hi
            have hput : Put fs _ (.file i) fs' :=
              Fs.add_put (by simp) (fun heq => Nat.ne_of_lt hold (Obj.file.inj heq)) hmade
            have hobj := (hput.obj _).trans (if_pos rfl)
            refine (hfs.put hput .hardlink hfresh fun j hj => ?_).lay hobj .hardlink (by simp)
            cases hj
            rw [hput.fileMode hold]
            exact hfs.mild rest i hi
          · cases hp
    · exact Leaves.fail

theorem kernel_symlink {path target : String} (he : .symlink path target ∈ entries)
    (hpath : sanitizeRelPath path = .ok (Entry.symlink path target).rel)
    (hrel : (Entry.symlink path target).rel ≠ [])
    (htarget : sanitizeSymlinkTarget (Entry.symlink path target).rel target = .ok ())
    (hfresh : ∀ y ∈ done, y.rel ≠ (Entry.symlink path target).rel) :
    Leaves (Strewn policy root entries mask done done)
      (k.makeSymlink policy root (.symlink path target))
      (fun _ => Strewn policy root entries mask (done ++ [.symlink path target])
        (done ++ [.symlink path target])) := by
  refine Triple.lift_bind hpath ?_
  refine Triple.lift_bind htarget ?_
  refine (kernel_parent hrel hfresh).bind fun _ => ?_
  refine kernel_assertParentWithin.bind fun _ => ?_
  refine (kernel_clear he hrel rfl hfresh).bind fun _ => kernel_must fun fs o fs' hfs hp => ?_
  simp only [Fs.perform, Option.ite_none_right_eq_some, Fs.resolve_name hfs.parent,
    Option.bind_some,
    Option.map_eq_some_iff] at hp
  obtain ⟨-, made, hmade, heq⟩ := hp
  cases heq
  have hput := Fs.add_put (by simp) (by simp) hmade
  exact (hfs.put hput .symlink hfresh (by simp)).lay (by simp [hput.obj]) .symlink (by simp)

theorem kernel_directory {path : String} {mode : UInt32} {mtime : Int64}
    (hpath : sanitizeRelPath path = .ok (Entry.dir path mode mtime).rel) :
    Leaves (Strewn policy root entries mask done done) (k.makeDirectory root (.dir path mode mtime))
      (fun _ => Strewn policy root entries mask (done ++ [.dir path mode mtime])
        (done ++ [.dir path mode mtime])) := by
  refine Triple.lift_bind hpath ?_
  refine Leaves.bind ((kernel_createDirConfined
    (P := Strewn policy root entries mask (done ++ [.dir path mode mtime]) done)
    fun fs q fs' hfs _ hq hp => hfs.put hp (hfs.traced.mkdir hp.toAdded (by simp) hq fun _ => .dir)
      (by simp)).pre
      fun fs hfs => ⟨hfs.see _, hfs.anchored⟩) fun _ => ?_
  exact Leaves.ret fun fs hfs => hfs.1.lay hfs.2 .dir (by simp)

theorem obliging_layout {cdc : CdcParams} (ok : EntriesOk cdc [] entries)
    {last : FsProg Unit} {Q : Unit → Fs → Prop}
    (hlast : Leaves (Strewn policy root entries mask (passOrder entries) (passOrder entries))
      last Q) :
    Leaves (Strewn policy root entries mask [] []) (do
      entries.forM (Kernel.obliging.makeDirectory root)
      entries.forM (Kernel.obliging.makeContent th store policy root)
      entries.forM (Kernel.obliging.makeSymlink policy root)
      last) Q := by
  refine layout_passes (I := fun done w => Strewn policy root entries mask done done w.fs) ok
    (fun _ => Kernel.obliging.makeDirectory_skip) (fun _ => Kernel.obliging.makeContent_skip)
    (fun _ => Kernel.obliging.makeSymlink_skip) ?_ ?_ ?_ hlast
  · intro seen path mode mtime rest hx _
    have he : Entry.dir path mode mtime ∈ entries := by simp [hx]
    exact kernel_directory (ok.paths _ he)
  · intro seen x rest hx hcontent hdone
    have he : x ∈ entries := by simp [hx]
    have hfresh := fun y hy => (hdone y hy).2.1
    cases x with
    | dir path mode mtime => cases hcontent
    | symlink path target => cases hcontent
    | file path mode mtime size chunks =>
      exact obliging_file he (ok.paths _ he) (ok.rel_ne_nil he) hfresh
    | hardlink path target =>
      obtain ⟨trel, ht⟩ := ok.hardlinks path target he
      exact kernel_hardlink he (ok.paths _ he) (ok.rel_ne_nil he) ht hfresh fun y hy =>
        (hdone y hy).2.2
  · intro seen path target rest hx hdone
    have he : Entry.symlink path target ∈ entries := by simp [hx]
    exact kernel_symlink he (ok.paths _ he) (ok.rel_ne_nil he)
      (ok.symlinks path target he) fun y hy => (hdone y hy).2

end Layout

section Finish

variable {policy : MaterializePolicy} {root : Path} {entries : List Entry}
  {mask : UInt32} {mid fs : Fs} {e : Entry}

def Entry.hasMode : Entry → Bool
  | .file _ _ _ _ _ => true
  | .dir _ _ _ => true
  | _ => false

/-- The last pass has set the modes of the directories of `done`; `mid` is the state it started
from. -/
structure Finished (policy : MaterializePolicy) (root : Path) (mask : UInt32)
    (mid : Fs) (done : List Entry) (fs : Fs) : Prop where
  obj : fs.obj = mid.obj
  files : ∀ ino, fs.mode (.file ino) = mid.mode (.file ino)
  set : ∀ path mode mtime, .dir path mode mtime ∈ done →
    fs.mode (.dir (root ++ (Entry.dir path mode mtime).rel)) = policy.settled
    (0o777 &&& ~~~mask) mode
  rest : ∀ q, q ≠ [] → fs.obj (root ++ q) = some .dir → (∀ y ∈ done, y.isDir = true → y.rel ≠ q) →
    fs.mode (.dir (root ++ q)) = 0o777 &&& ~~~mask
  mild : ∀ q, q ≠ [] → fs.obj (root ++ q) = some .dir → policy.Mild (fs.mode (.dir (root ++ q)))

theorem Strewn.finished {seen done : List Entry}
    (h : Strewn policy root entries mask seen done mid) :
    Finished policy root mask mid [] mid := by
  have hmode : ∀ q, q ≠ [] → mid.obj (root ++ q) = some .dir →
      mid.mode (.dir (root ++ q)) = 0o777 &&& ~~~mask := by
    intro q hq ho
    have hdir := h.dirs q hq
    rwa [Fs.dirBits, if_pos ho] at hdir
  refine ⟨rfl, fun _ => rfl, (by simp), fun q hq ho _ => hmode q hq ho, fun q hq ho => ?_⟩
  rw [hmode q hq ho]
  exact mild_default _ _ (by decide)

theorem Finished.turn {done : List Entry} {path : String} {mode : UInt32} {mtime : Int64} {fs' : Fs}
    (h : Finished policy root mask mid done fs) (hrel : (Entry.dir path mode mtime).rel ≠ [])
    (hfresh : ∀ y ∈ done, y.rel ≠ (Entry.dir path mode mtime).rel)
    (hobj : fs.obj (root ++ (Entry.dir path mode mtime).rel) = some .dir) (hkept : fs'.obj = fs.obj)
    (hmode : ∀ n, fs'.mode n =
      if n = .dir (root ++ (Entry.dir path mode mtime).rel) ∧
      policy.bits mode ≠ 0 then policy.bits mode
      else fs.mode n) :
    Finished policy root mask mid (done ++ [.dir path mode mtime]) fs' := by
  have hhere : fs'.mode (.dir (root ++ (Entry.dir path mode mtime).rel)) =
      policy.settled (0o777 &&& ~~~mask) mode := by
    rw [hmode, MaterializePolicy.settled]
    by_cases hbits : policy.bits mode = 0
    · rw [if_neg (fun hc => hc.2 hbits), if_pos hbits]
      exact h.rest _ hrel hobj fun y hy _ => hfresh y hy
    · rw [if_pos ⟨rfl, hbits⟩, if_neg hbits]
  have hother : ∀ q, q ≠ (Entry.dir path mode mtime).rel →
      fs'.mode (.dir (root ++ q)) = fs.mode (.dir (root ++ q)) := by
    intro q hq
    rw [hmode, if_neg]
    rintro ⟨heq, -⟩
    exact hq (List.append_cancel_left (Node.dir.inj heq))
  refine ⟨hkept.trans h.obj, fun ino => ?_, fun path' mode' mtime' hmem => ?_,
    fun q hq ho hnot => ?_,
    fun q hq ho => ?_⟩
  · rw [hmode, if_neg (by simp)]
    exact h.files ino
  · rcases List.mem_append.mp hmem with hmem | hmem
    · rw [hother _ (hfresh _ hmem)]
      exact h.set path' mode' mtime' hmem
    · cases List.mem_singleton.mp hmem
      exact hhere
  · rw [hother q fun heq => hnot (.dir path mode mtime) (by simp) rfl heq.symm]
    exact h.rest q hq (hkept ▸ ho) fun y hy => hnot y (List.mem_append_left _ hy)
  · by_cases heq : q = (Entry.dir path mode mtime).rel
    · rw [heq, hhere]
      exact mild_settled (mild_default _ _ (by decide))
    · rw [hother q heq]
      exact h.mild q hq (hkept ▸ ho)

theorem kernel_finish_obj {k : Kernel} (e : Entry) :
    Leaves (fun fs => fs.obj = mid.obj) (k.finishDirectory policy root e)
      (fun _ fs => fs.obj = mid.obj) := by
  cases e with
  | file path mode mtime size chunks => exact Leaves.ret fun _ h => h
  | symlink path target => exact Leaves.ret fun _ h => h
  | hardlink path target => exact Leaves.ret fun _ h => h
  | dir path mode mtime =>
    simp only [Kernel.finishDirectory]
    split
    · exact Leaves.ret fun _ h => h
    · refine kernel_timeDirectory.bind fun _ => ?_
      unfold Kernel.setMode
      split
      · refine Leaves.bind (Q := fun _ fs => fs.obj = mid.obj)
          (kernel_try fun fs o d hfs hp => ?_) fun _ =>
          Leaves.ret fun _ h => h
        cases Fs.perform_change hp with
        | chmod _ _ => exact hfs
      · exact Leaves.ret fun _ h => h

theorem obliging_finish {done : List Entry} (hpath : sanitizeRelPath e.path = .ok e.rel)
    (hrel : e.rel ≠ [])
    (hfresh : ∀ y ∈ done, y.rel ≠ e.rel)
    (hdir : e.isDir = true → mid.obj (root ++ e.rel) = some .dir) :
    Leaves (Finished policy root mask mid done) (Kernel.obliging.finishDirectory policy root e)
      (fun _ => Finished policy root mask mid (done ++ [e])) := by
  have skip : e.isDir = false → Leaves (Finished policy root mask mid done) (pure () : FsProg Unit)
      (fun _ => Finished policy root mask mid (done ++ [e])) := by
    refine fun hplain =>
      Leaves.ret fun fs hfs => ⟨hfs.obj, hfs.files, fun path mode mtime hmem => ?_,
      fun q hq ho hnot => hfs.rest q hq ho fun y hy => hnot y (List.mem_append_left _ hy), hfs.mild⟩
    rcases List.mem_append.mp hmem with hmem | hmem
    · exact hfs.set path mode mtime hmem
    · rw [← List.mem_singleton.mp hmem] at hplain
      cases hplain
  cases e with
  | file path mode mtime size chunks => exact skip rfl
  | symlink path target => exact skip rfl
  | hardlink path target => exact skip rfl
  | dir path mode mtime =>
    have hp : sanitizeRelPath path = .ok (Entry.dir path mode mtime).rel := hpath
    simp only [Kernel.finishDirectory, hp]
    have here : ∀ {fs : Fs}, Finished policy root mask mid done fs →
        fs.obj (root ++ (Entry.dir path mode mtime).rel) = some .dir :=
        fun hfs => by rw [hfs.obj, hdir rfl]
    refine kernel_timeDirectory.bind fun _ =>
      obliging_setMode (n := .dir (root ++ (Entry.dir path mode mtime).rel)) (fun fs hfs => ?_)
        (fun fs hfs hbits => ?_) fun fs hfs hbits => ?_
    · exact ⟨Fs.resolve_of_some (here hfs) (by simp), by simp [Fs.node, here hfs]⟩
    · exact hfs.turn hrel hfresh (here hfs) rfl fun n => by simp [Fs.setMode, hbits]
    · exact hfs.turn hrel hfresh (here hfs) rfl fun n => by simp [hbits]

/-- The outcome of a run that returns: what is not blocked is there, and where nothing with a mode
is blocked every mode is settled. -/
structure LaidOut (policy : MaterializePolicy) (root : Path) (entries : List Entry)
    (mask : UInt32) (fs : Fs) : Prop where
  stands : ∀ e ∈ entries, Unblocked entries e → ∃ x, fs.obj (root ++ e.rel) = some x ∧ e.Makes x
  files : (∀ e ∈ entries, e.hasMode = true → Unblocked entries e) →
    ∀ path mode mtime size chunks, .file path mode mtime size chunks ∈ entries → ∀ ino,
      fs.obj (root ++ (Entry.file path mode mtime size chunks).rel) = some (.file ino) →
      fs.mode (.file ino) = policy.settled (0o666 &&& ~~~mask) mode
  dirs : (∀ e ∈ entries, e.hasMode = true → Unblocked entries e) →
    ∀ path mode mtime, .dir path mode mtime ∈ entries →
      fs.mode (.dir (root ++ (Entry.dir path mode mtime).rel)) =
      policy.settled (0o777 &&& ~~~mask) mode
  mild : (∀ e ∈ entries, e.hasMode = true → Unblocked entries e) →
    ∀ q n, q ≠ [] → fs.node (root ++ q) = some n → policy.Mild (fs.mode n)

theorem obliging_last {cdc : CdcParams} (ok : EntriesOk cdc [] entries) :
    Leaves (Strewn policy root entries mask (passOrder entries) (passOrder entries))
      (entries.reverse.forM (Kernel.obliging.finishDirectory policy root))
      (fun _ => LaidOut policy root entries mask) := by
  intro io n w hw
  have hstands :
    ∀ e ∈ entries, Unblocked entries e → ∃ x, w.fs.obj (root ++ e.rel) = some x ∧ e.Makes x :=
    fun e he => hw.stands e (mem_passOrder.mpr he)
  have moved : Leaves (fun fs => fs.obj = w.fs.obj)
      (entries.reverse.forM (Kernel.obliging.finishDirectory policy root))
      (fun _ fs => fs.obj = w.fs.obj) :=
    Triple.forM (I := fun _ (v : World) => v.fs.obj = w.fs.obj) entries.reverse fun _ x _ _ =>
      kernel_finish_obj x
  by_cases hclear : ∀ e ∈ entries, e.hasMode = true → Unblocked entries e
  · have finished : Leaves (Finished policy root mask w.fs [])
        (entries.reverse.forM (Kernel.obliging.finishDirectory policy root))
        (fun _ => Finished policy root mask w.fs entries.reverse) := by
      refine Triple.forM (I := fun done (v : World) => Finished policy root mask w.fs done v.fs)
        entries.reverse
        fun done x rest hx => ?_
      have he : x ∈ entries := List.mem_reverse.mp (by simp [hx])
      refine obliging_finish (ok.paths x he) (ok.rel_ne_nil he) (fun y hy heq => ?_) fun hdir => ?_
      · have hnodup := List.nodup_reverse.mpr ok.distinct
        rw [← List.map_reverse, hx, List.map_append, List.map_cons] at hnodup
        exact (List.nodup_append.mp hnodup).2.2 _ (List.mem_map_of_mem hy) _ (by simp) heq
      · obtain ⟨y, hy, hm⟩ := hstands x he (hclear x he (by cases x <;> first | rfl | cases hdir))
        cases hm <;> first | exact hy | cases hdir
    refine Triple.post finished (fun _ v hv => ?_) io n w hw.finished
    refine ⟨fun e he hfree => ?_, fun _ path mode mtime size chunks hmem ino ho => ?_,
      fun _ path mode mtime hmem => hv.set path mode mtime (List.mem_reverse.mpr hmem),
      fun _ q node hq hnode => ?_⟩
    · rw [hv.obj]
      exact hstands e he hfree
    · rw [hv.files]
      exact hw.set path mode mtime size chunks (mem_passOrder.mpr hmem) ino (hv.obj ▸ ho)
    · unfold Fs.node at hnode
      split at hnode
      · rename_i ho
        cases hnode
        exact hv.mild q hq ho
      · rename_i ino ho
        cases hnode
        rw [hv.files]
        exact hw.mild q ino (hv.obj ▸ ho)
      · cases hnode
  · refine Triple.post moved (fun _ v hv => ?_) io n w rfl
    have hobj : v.fs.obj = w.fs.obj := hv
    exact ⟨fun e he hfree => hobj ▸ hstands e he hfree, fun h => absurd h hclear,
      fun h => absurd h hclear,
      fun h => absurd h hclear⟩

theorem LaidOut.unblocked (h : LaidOut policy root entries mask fs)
    (hobj : fs.obj (root ++ e.rel) ≠ none) :
    Unblocked entries e := by
  suffices hup : ∀ n, ∀ a ∈ entries, a.rel.length = n → a.isDir = false →
      a.rel <+: e.rel → a.rel = e.rel from
    fun a ha => hup _ a ha rfl
  intro n
  induction n using Nat.strongRecOn with
  | ind n ih =>
    intro a ha hlen hplain hpre
    by_cases hfree : Unblocked entries a
    · obtain ⟨x, hx, hm⟩ := h.stands a ha hfree
      by_contra hne
      have habove := Fs.dir_above hobj ((List.prefix_append_right_inj root).mpr hpre)
        fun heq => hne (List.append_cancel_left heq)
      rw [hx] at habove
      cases habove
      cases hm
      cases hplain
    · -- something blocks `a` in turn, and it is shorter
      unfold Unblocked at hfree
      push Not at hfree
      obtain ⟨b, hb, hbplain, hbpre, hbne⟩ := hfree
      have hshort : b.rel.length < n := by
        refine hlen ▸ lt_of_le_of_ne hbpre.length_le fun heq => hbne (hbpre.eq_of_length heq)
      have hbe := ih _ hshort b hb rfl hbplain (hbpre.trans hpre)
      rw [hbe] at hbpre
      exact hpre.eq_of_length (le_antisymm hpre.length_le hbpre.length_le)

end Finish

section Restored

variable (policy : MaterializePolicy) (root : Path) (entries : List Entry)

def Restored (fs : Fs) : Entry → Prop
  | .file path mode mtime size chunks => ∃ ino,
    fs.obj (root ++ (Entry.file path mode mtime size chunks).rel) = some (.file ino) ∧
      fs.mode (.file ino) = policy.bits mode
  | .dir path mode mtime => fs.obj (root ++ (Entry.dir path mode mtime).rel) = some .dir ∧
    fs.mode (.dir (root ++ (Entry.dir path mode mtime).rel)) = policy.bits mode
  | _ => True

structure ModesRestored (fs : Fs) : Prop where
  exact : ∀ e ∈ entries, Restored policy root fs e
  plain : policy.restoreSetid = false → ∀ q n, q ≠ [] → fs.node (root ++ q) = some n →
    fs.mode n &&& 0o7000 = 0

/-- Some bit of the mode is let through, or the umask leaves none of those a new object gets. -/
def KeepsMode (umask : UInt32) : Entry → Prop
  | .file _ mode _ _ _ => policy.bits mode ≠ 0 ∨ 0o666 &&& ~~~umask = 0
  | .dir _ mode _ => policy.bits mode ≠ 0 ∨ 0o777 &&& ~~~umask = 0
  | _ => True

instance (umask : UInt32) (e : Entry) : Decidable (KeepsMode policy umask e) := by
  cases e <;> unfold KeepsMode <;> infer_instance

def ModesFit (umask : UInt32) : Prop :=
  ∀ e ∈ entries, e.hasMode = true → Unblocked entries e ∧ KeepsMode policy umask e

instance (umask : UInt32) : Decidable (ModesFit policy entries umask) :=
  inferInstanceAs (Decidable (∀ e ∈ entries, _ → _))

variable {policy root entries}

theorem LaidOut.restored_iff {umask : UInt32} {fs : Fs} (h : LaidOut policy root entries umask fs) :
    ModesRestored policy root entries fs ↔ ModesFit policy entries umask := by
  constructor
  · intro hr
    have hfree : ∀ e ∈ entries, e.hasMode = true → Unblocked entries e := by
      intro e he hmode
      refine h.unblocked ?_
      have hobj := hr.exact e he
      cases e with
      | file path mode mtime size chunks =>
        obtain ⟨ino, ho, -⟩ := hobj
        simp [ho]
      | dir path mode mtime => simp [hobj.1]
      | symlink path target => cases hmode
      | hardlink path target => cases hmode
    refine fun e he hmode => ⟨hfree e he hmode, ?_⟩
    have hexact := hr.exact e he
    cases e with
    | file path mode mtime size chunks =>
      obtain ⟨ino, ho, hm⟩ := hexact
      exact settled_eq_bits_iff.mp
        ((h.files hfree path mode mtime size chunks he ino ho).symm.trans hm)
    | dir path mode mtime =>
      exact settled_eq_bits_iff.mp ((h.dirs hfree path mode mtime he).symm.trans hexact.2)
    | symlink path target => cases hmode
    | hardlink path target => cases hmode
  · intro hfit
    have hfree : ∀ e ∈ entries, e.hasMode = true → Unblocked entries e :=
      fun e he hmode => (hfit e he hmode).1
    refine ⟨fun e he => ?_, fun hoff q n hq hn => h.mild hfree q n hq hn hoff⟩
    cases e with
    | file path mode mtime size chunks =>
      obtain ⟨x, hx, hm⟩ := h.stands _ he (hfree _ he rfl)
      cases hm
      exact ⟨_, hx, (h.files hfree path mode mtime size chunks he _ hx).trans
        (settled_eq_bits_iff.mpr (hfit _ he rfl).2)⟩
    | dir path mode mtime =>
      obtain ⟨x, hx, hm⟩ := h.stands _ he (hfree _ he rfl)
      cases hm
      exact ⟨hx, (h.dirs hfree path mode mtime he).trans
        (settled_eq_bits_iff.mpr (hfit _ he rfl).2)⟩
    | symlink path target => trivial
    | hardlink path target => trivial

end Restored

theorem kernel_destination {k : Kernel} {fs : Fs} {dest root : Path}
    {f : Path → FsProg Unit} {Q : Unit → Fs → Prop}
    (hroot : fs.canonicalize dest = some root) (hdir : fs.obj root = some .dir)
    (hf : Leaves (· = fs) (f root) Q) :
    Leaves (· = fs) (do
      k.createDirAll dest
      match ← k.ask (.look true dest) (·.canonicalize dest) with
      | .error _ => Prog.fail .io
      | .ok root => f root) Q := by
  have hstat := Fs.stat_of_canonicalize hroot hdir
  refine Leaves.bind (Q := fun _ fs' => fs' = fs) ?_ fun _ => ?_
  · refine Leaves.bind (Q := fun found fs' => fs' = fs ∧ ∀ x, found = .ok x → x = some .dir)
      (kernel_ask (fun fs' x hfs hx => ⟨hfs, fun y hy => ?_⟩) fun fs' text hfs => ⟨hfs, by simp⟩)
        fun found => ?_
    · cases hy
      rw [hfs, hstat] at hx
      exact (Option.some.inj hx).symm
    · cases found with
      | error text => exact Leaves.fail
      | ok x =>
        intro io n w hw
        cases hw.2 x rfl
        exact hw.1
  · refine Leaves.bind (Q := fun found fs' => fs' = fs ∧ ∀ r, found = .ok r → r = root)
      (kernel_ask (fun fs' r hfs hr => ⟨hfs, fun y hy => ?_⟩) fun fs' text hfs => ⟨hfs, by simp⟩)
        fun found => ?_
    · cases hy
      rw [hfs, hroot] at hr
      exact (Option.some.inj hr).symm
    · cases found with
      | error text => exact Leaves.fail
      | ok r =>
        intro io n w hw
        cases hw.2 r rfl
        exact hf io n w hw.1

theorem strewn_empty {policy : MaterializePolicy} {root : Path} {entries : List Entry} {fs : Fs}
    (hdir : fs.obj root = some .dir) (hempty : ∀ q, q ≠ [] → fs.obj (root ++ q) = none) :
    Strewn policy root entries fs.umask [] [] fs := by
  have hnone : ∀ q x, q ≠ [] → fs.obj (root ++ q) ≠ some x := by
    intro q x hq ho
    rw [hempty q hq] at ho
    cases ho
  refine ⟨hdir, fun q x hq ho => absurd ho (hnone q x hq), rfl,
    fun q hq => if_neg (hnone q .dir hq), (by simp),
    fun q ino ho => ?_, by simp⟩
  by_cases hq : q = []
  · rw [hq, List.append_nil, hdir] at ho
    cases ho
  · exact absurd ho (hnone q _ hq)

theorem run_settled {th : TreeHash} {index : TreeIndex} {fs : Fs} {dest root : Path}
    (hv : index.validate th = .ok ()) (hroot : fs.canonicalize dest = some root)
    (hdir : fs.obj root = some .dir) (hempty : ∀ q, q ≠ [] → fs.obj (root ++ q) = none)
    (store : ContentStore) (policy : MaterializePolicy) (io : Nat → KernelReply)
    (hok : (Kernel.obliging.reconstructTree th dest index.entries store policy io 0 ⟨fs, []⟩).1 =
      .ok ()) :
    LaidOut policy root index.entries fs.umask
      (Kernel.obliging.reconstructTree th dest index.entries store policy
        io 0 ⟨fs, []⟩).2.2.fs := by
  have ok := TreeIndex.validate_ok hv
  have under : Leaves (· = fs) (Kernel.obliging.materializeUnder th store policy root index.entries)
      (fun _ => LaidOut policy root index.entries fs.umask) :=
    (obliging_layout ok (obliging_last ok)).pre fun fs' hfs => by
      rw [hfs]
      exact strewn_empty hdir hempty
  have run : Leaves (· = fs) (Kernel.obliging.reconstructTree th dest index.entries store policy)
      (fun _ => LaidOut policy root index.entries fs.umask) := kernel_destination hroot hdir under
  exact Triple.of_ok run rfl hok

def obligingRun (th : TreeHash) (index : TreeIndex) : Except BlobError Unit × Nat × World :=
  Kernel.obliging.reconstructTree th ["dst"] index.entries shortStore
    ⟨false, false⟩ (failing []) 0 ⟨emptyDst, []⟩

def lockedRoot : Hash :=
  ⟨[0x51, 0xd6, 0x35, 0x27, 0x08, 0x32, 0xcb, 0x0c, 0x0c, 0xca, 0xb2, 0x06, 0xa4, 0xdd, 0xc5, 0xf6,
    0xe0, 0xa9, 0xca, 0x48, 0x4b, 0x32, 0x50, 0x0b, 0x90, 0x60, 0x68, 0xc9, 0xf5, 0xe7, 0xb4, 0x19],
    by decide⟩

def lockedTree : TreeHash :=
  knownTree [0x03, 0x06, 0x62, 0x6c, 0x61, 0x6b, 0x65, 0x33, 0x01,
    0x01, 0x01, 0x66, 0x80, 0x80, 0x02,
    0x00, 0x00] lockedRoot

def lockedIndex : TreeIndex := sampleIndex [.file "f" 0o100000 0 0 []] lockedRoot

end Zblob

import Zblob.Containment
import Zblob.Snapshot

/-!
What a materialization leaves behind, however it ends. From an empty destination every
object can be traced to an entry, so as long as nothing is declared below a link, each
declared path holds its link or nothing, and what the check said about the links holds.
-/

set_option autoImplicit false

namespace Zblob

open Program

def LinksEnd (entries : List Entry) : Prop :=
  ∀ s ∈ entries, s.isSymlink = true → ∀ e ∈ entries, s.rel <+: e.rel → s.rel = e.rel

/-- The root stands and what is under it comes from the entries. -/
structure Rooted (entries : List Entry) (root : Path) (w : World) : Prop where
  anchored : w.fs.obj root = some .dir
  traced : Traced entries root w.fs

section Rooted

variable {entries : List Entry} {root : Path} {w : World} {c : Syscall} {e : Entry}

theorem Rooted.same_obj {fs : Fs} (h : Rooted entries root w) (hobj : ∀ q, fs.obj q = w.fs.obj q) :
    Rooted entries root (w.did c fs) :=
  ⟨(hobj root).trans h.anchored, fun q x hq ho => h.traced q x hq (hobj _ ▸ ho)⟩

theorem Rooted.removed {roots : List Path} (h : Rooted entries root w)
    (hroot : ∀ r ∈ roots, ¬r <+: root) : Rooted entries root (w.did c (w.fs.remove roots)) := by
  refine ⟨(Fs.remove_keeps hroot).trans h.anchored, fun q x hq ho => ?_⟩
  rcases Fs.remove_obj w.fs roots (root ++ q) with hsame | hnone
  · exact h.traced q x hq (hsame ▸ ho)
  · rw [World.did, hnone] at ho
    cases ho

theorem Rooted.placed {fs : Fs} {x : Obj} (h : Rooted entries root w) (he : e ∈ entries)
    (ha : Added w.fs (root ++ e.rel) x fs) (hm : e.Makes x) : Rooted entries root (w.did c fs) :=
  ⟨ha.keeps h.anchored, h.traced.added ha fun _ hq =>
    .inl ⟨e, he, List.append_cancel_left hq, hm⟩⟩

theorem Rooted.more {entries' : List Entry} (h : Rooted entries root w)
    (hsub : ∀ e ∈ entries, e ∈ entries') : Rooted entries' root w :=
  ⟨h.anchored, h.traced.mono hsub⟩

structure Parented (entries : List Entry) (root : Path) (e : Entry) (w : World) : Prop extends
    Rooted entries root w where
  parent : w.fs.obj (root ++ e.rel).dropLast = some .dir

theorem Parented.straight (h : Parented entries root e w) : w.fs.Straight (root ++ e.rel) :=
  Fs.straight_of_parent h.parent

theorem rooted_parent (he : e ∈ entries) (hrel : e.rel ≠ []) :
    Triple (Rooted entries root) (createDirConfined root e.rel.dropLast)
      (fun _ => Parented entries root e) (Rooted entries root) := by
  refine (triple_createDirConfined (I := Rooted entries root) fun w q fs hw _ hq ha _ => ?_).conseq
    (fun _ hw => ⟨hw, hw.anchored⟩) (fun _ w hw => ⟨hw.1, ?_⟩) fun _ hw => hw
  · have hpre := hq.trans ((List.prefix_append_right_inj root).mpr (List.dropLast_prefix e.rel))
    refine ⟨ha.keeps hw.anchored, hw.traced.mkdir ha he hpre fun heq => ?_⟩
    rw [heq] at hq
    have hlen := hq.length_le
    have := List.length_pos_iff.mpr hrel
    simp only [List.length_append, List.length_dropLast] at hlen
    omega
  · rw [List.dropLast_append_of_ne_nil hrel]
    exact hw.2

theorem parented_assertParentWithin {p : Path} :
    Triple (Parented entries root e) (assertParentWithin root p)
      (fun _ => Parented entries root e) (Rooted entries root) :=
  triple_assertParentWithin.conseq (fun _ h => h) (fun _ _ h => h) fun _ h => h.toRooted

theorem parented_removeExisting {policy : MaterializePolicy} (hrel : e.rel ≠ []) :
    Triple (Parented entries root e) (removeExisting (root ++ e.rel) policy)
      (fun _ => Parented entries root e) (Rooted entries root) := by
  have longer : ∀ {p : Path}, p <+: root ++ e.rel → p.length < (root ++ e.rel).length →
      ¬root ++ e.rel <+: p := by
    intro p _ hlt hp
    exact absurd hp.length_le (Nat.not_le.mpr hlt)
  have hlen : root.length < (root ++ e.rel).length := by
    have := List.length_pos_iff.mpr hrel
    rw [List.length_append]
    omega
  have removed : ∀ (w : World) (c : Syscall) (roots : List Path), Parented entries root e w →
      (∀ x ∈ roots, root ++ e.rel <+: x) →
      Parented entries root e (w.did c (w.fs.remove roots)) := by
    intro w c roots hw hroots
    have hkeep : ∀ p, p <+: root ++ e.rel → p.length < (root ++ e.rel).length →
        ∀ r ∈ roots, ¬r <+: p := fun p hp hlt r hr hpre => longer hp hlt ((hroots r hr).trans hpre)
    refine ⟨hw.toRooted.removed (hkeep root (List.prefix_append _ _) hlen), ?_⟩
    refine (Fs.remove_keeps (hkeep _ (List.dropLast_prefix _) ?_)).trans hw.parent
    rw [List.length_dropLast]
    omega
  refine (triple_removeExisting (fun _ hw => hw.parent)
    (fun w x hw _ _ _ => removed w _ _ hw (by simp))
    fun w roots ok hw _ _ hroots _ => removed w _ _ hw hroots).conseq
    (fun _ h => h) (fun _ _ h => h) fun _ h => h.toRooted

theorem makeDirectory_rooted (he : e ∈ entries) (hpath : sanitizeRelPath e.path = .ok e.rel) :
    Triple (Rooted entries root) (makeDirectory root e) (fun _ => Rooted entries root)
      (Rooted entries root) := by
  cases e with
  | dir path mode mtime =>
    refine Triple.lift_bind hpath ?_
    refine Triple.bind ((triple_createDirConfined (I := Rooted entries root)
      fun w q fs hw _ hq ha _ => ⟨ha.keeps hw.anchored, hw.traced.mkdir ha he hq fun _ => .dir⟩).pre
      fun _ hw => ⟨hw, hw.anchored⟩) fun _ => Triple.ret fun _ hw => hw.1
  | file path mode mtime size chunks => exact Triple.ret fun _ hw => hw
  | symlink path target => exact Triple.ret fun _ hw => hw
  | hardlink path target => exact Triple.ret fun _ hw => hw

theorem makeContent_rooted {th : TreeHash} {store : ContentStore} {policy : MaterializePolicy}
    {cdc : CdcParams} {all : List Entry} (ok : EntriesOk cdc [] all) (hall : e ∈ all)
    (hplain : ∀ x ∈ entries, x.isSymlink = false) (he : e ∈ entries) :
    Triple (Rooted entries root) (makeContent th store policy root e)
      (fun _ => Rooted entries root) (Rooted entries root) := by
  have hrel := ok.rel_ne_nil hall
  have hpath := ok.paths e hall
  cases e with
  | dir path mode mtime => exact Triple.ret fun _ hw => hw
  | symlink path target => exact Triple.ret fun _ hw => hw
  | file path mode mtime size chunks =>
    refine Triple.lift_bind hpath ?_
    refine (rooted_parent he hrel).bind fun _ => ?_
    refine parented_assertParentWithin.bind fun _ => ?_
    refine (parented_removeExisting hrel).bind fun _ => ?_
    refine Triple.bind (Q := fun _ => Rooted entries root)
      (triple_createFile (fun _ hw => hw.toRooted)
      (fun w r fs hw hr ha _ => ?_) fun w r ino hw _ _ => hw.toRooted.same_obj fun _ => rfl)
      fun ino => ?_
    · cases hw.traced.resolve hw.anchored hplain hr
      exact hw.toRooted.placed he ha .file
    refine Triple.bind (Q := fun _ => Rooted entries root) ?_ fun written => ?_
    · refine (triple_writeChunks (I := fun _ => Rooted entries root) (fun _ _ hw => hw)
        (fun _ _ _ hw => hw.same_obj fun _ => rfl)
        (fun _ _ _ _ hw => hw.same_obj fun _ => rfl) chunks 0 []).post ?_
      rintro n w ⟨-, -, -, hw⟩
      exact hw
    split
    · exact Triple.fail fun _ hw => hw
    · refine Triple.bind (triple_setMode (fun _ _ _ _ hw _ _ => hw.same_obj fun _ => rfl) mode)
        fun _ => ?_
      exact triple_setMtime (fun _ _ hw => hw.same_obj fun _ => rfl) mtime
  | hardlink path target =>
    obtain ⟨t, ht⟩ := ok.hardlinks path target hall
    refine Triple.lift_bind hpath ?_
    refine (rooted_parent he hrel).bind fun _ => ?_
    refine Triple.lift_bind ht ?_
    refine parented_assertParentWithin.bind fun _ => ?_
    refine Triple.bind (Q := fun _ => Parented entries root (.hardlink path target))
      (triple_ask (fun _ _ h _ => h) fun _ _ h => h) fun found => ?_
    cases found with
    | error text => exact Triple.fail fun _ hw => hw.toRooted
    | ok canonT =>
      simp only
      split
      · refine Triple.bind (Q := fun _ => Parented entries root (.hardlink path target))
          (triple_ask (fun _ _ h _ => h) fun _ _ h => h) fun kind => ?_
        cases kind with
        | error text => exact Triple.fail fun _ hw => hw.toRooted
        | ok x =>
          cases x with
          | dir => exact Triple.fail fun _ hw => hw.toRooted
          | symlink target => exact Triple.fail fun _ hw => hw.toRooted
          | file ino =>
            refine (parented_removeExisting hrel).bind fun _ => ?_
            refine triple_must (fun _ hw => hw.toRooted) (fun w d hw hc _ => ?_)
              fun w d hw hc hok => ?_
            · cases hc with
              | link _ _ hr ha =>
                cases Fs.resolve_straight hw.straight (by simp) hr
                exact hw.toRooted.placed he ha .hardlink
            · cases hc
              cases hok
      · exact Triple.fail fun _ hw => hw.toRooted

theorem makeSymlink_rooted {policy : MaterializePolicy} {cdc : CdcParams}
    (ok : EntriesOk cdc [] entries) (he : e ∈ entries) :
    Triple (Rooted entries root) (makeSymlink policy root e) (fun _ => Rooted entries root)
      (Rooted entries root) := by
  have hrel := ok.rel_ne_nil he
  have hpath := ok.paths e he
  cases e with
  | dir path mode mtime => exact Triple.ret fun _ hw => hw
  | file path mode mtime size chunks => exact Triple.ret fun _ hw => hw
  | hardlink path target => exact Triple.ret fun _ hw => hw
  | symlink path target =>
    refine Triple.lift_bind hpath ?_
    refine Triple.lift_bind (ok.symlinks path target he) ?_
    refine (rooted_parent he hrel).bind fun _ => ?_
    refine parented_assertParentWithin.bind fun _ => ?_
    refine (parented_removeExisting hrel).bind fun _ => ?_
    refine triple_must (fun _ hw => hw.toRooted) (fun w d hw hc _ => ?_) fun w d hw hc hok => ?_
    · cases hc with
      | symlink hr ha =>
        cases Fs.resolve_straight hw.straight (by simp) hr
        exact hw.toRooted.placed he ha .symlink
    · cases hc
      cases hok

theorem finishDirectory_rooted {policy : MaterializePolicy} :
    Triple (Rooted entries root) (finishDirectory policy root e) (fun _ => Rooted entries root)
      (Rooted entries root) := by
  have times : ∀ (p : Path) (mtime : Int64), Triple (Rooted entries root) (timeDirectory p mtime)
      (fun _ => Rooted entries root) (Rooted entries root) := by
    intro p mtime
    unfold timeDirectory Kernel.timeDirectory
    split
    · refine Triple.bind (Q := fun _ => Rooted entries root)
        (triple_ask (fun _ _ h _ => h) fun _ _ h => h) fun found => ?_
      cases found with
      | error text => exact Triple.ret fun _ h => h
      | ok f => exact triple_setMtime (fun _ _ hw => hw.same_obj fun _ => rfl) mtime
    · exact Triple.ret fun _ h => h
  cases e with
  | file path mode mtime size chunks => exact Triple.ret fun _ h => h
  | symlink path target => exact Triple.ret fun _ h => h
  | hardlink path target => exact Triple.ret fun _ h => h
  | dir path mode mtime =>
    simp only [Kernel.finishDirectory]
    split
    · exact Triple.ret fun _ h => h
    · exact (times _ mtime).bind fun _ =>
        triple_setMode (fun _ _ _ _ hw _ _ => hw.same_obj fun _ => rfl) mode

end Rooted

def plainEntries (entries : List Entry) : List Entry := entries.filter fun e => !e.isSymlink

theorem materializeUnder_rooted {th : TreeHash} {store : ContentStore} {policy : MaterializePolicy}
    {root : Path} {cdc : CdcParams} {entries : List Entry} (ok : EntriesOk cdc [] entries) :
    Triple (Rooted [] root) (materializeUnder th store policy root entries)
      (fun _ => Rooted entries root) (Rooted entries root) := by
  have hplain : ∀ x ∈ plainEntries entries, x ∈ entries ∧ x.isSymlink = false := by
    simp [plainEntries]
  have hmem : ∀ x ∈ entries, x.isSymlink = false → x ∈ plainEntries entries := by
    intro x hx hl
    simp [plainEntries, hx, hl]
  have each : ∀ (known : List Entry) {xs : List Entry} {body : Entry → FsProg Unit},
      (∀ x ∈ known, x ∈ entries) → (∀ x ∈ xs, Triple (Rooted known root) (body x)
        (fun _ => Rooted known root) (Rooted known root)) →
      Triple (Rooted known root) (xs.forM body) (fun _ => Rooted known root)
        (Rooted entries root) := by
    intro known xs body hsub h
    refine Triple.forM (I := fun _ => Rooted known root) xs fun done x rest hx => ?_
    exact (h x (by simp [hx])).conseq (fun _ hw => hw) (fun _ _ hw => hw) fun _ hw => hw.more hsub
  have hsub := fun x hx => (hplain x hx).1
  refine Triple.bind ((each (plainEntries entries) hsub fun x hx => ?_).pre
    fun _ hw => hw.more (by simp)) fun _ => ?_
  · cases hl : x.isSymlink with
    | false => exact makeDirectory_rooted (hmem x hx hl) (ok.paths x hx)
    | true => cases x <;> first | exact Triple.ret fun _ hw => hw | cases hl
  refine Triple.bind (each (plainEntries entries) hsub fun x hx => ?_) fun _ => ?_
  · cases hl : x.isSymlink with
    | false => exact makeContent_rooted ok hx (fun y hy => (hplain y hy).2) (hmem x hx hl)
    | true => cases x <;> first | exact Triple.ret fun _ hw => hw | cases hl
  refine Triple.bind ((each entries (fun _ hx => hx) fun x hx => makeSymlink_rooted ok hx).pre
    fun _ hw => hw.more hsub) fun _ => ?_
  exact each entries (fun _ hx => hx) fun x _ => finishDirectory_rooted

theorem walk_down {fs : Fs} {hops : Nat} {cur : Path} {names : List String} {rest : List Component}
    (h : fs.obj (cur ++ names) = some .dir) :
    walk fs true hops cur (names.map .normal ++ rest) = walk fs true hops (cur ++ names) rest := by
  induction names generalizing cur with
  | nil => simp
  | cons name names ih =>
    have happ : cur ++ [name] ++ names = cur ++ name :: names := by simp
    have hdir : fs.obj (cur ++ [name]) = some .dir :=
      Fs.dir_of_dir h ⟨names, happ⟩
    rw [← happ] at h
    rw [← happ, ← ih h]
    cases hops <;> simp [walk, walkFrom, hdir]

theorem Rooted.declared {entries : List Entry} {root : Path} {w : World} {cdc : CdcParams}
    {links : Links} (h : Rooted entries root w) (ok : EntriesOk cdc [] entries)
    (hends : LinksEnd entries)
    (hlinks : ∀ q target, links.get q = some target ↔
      ∃ path, Entry.symlink path target ∈ entries ∧ (Entry.symlink path target).rel = q) :
    Declared links root w.fs := by
  intro q x ho target
  rw [hlinks]
  by_cases hq : q = []
  · subst hq
    rw [List.append_nil, h.anchored] at ho
    cases ho
    constructor
    · nofun
    · rintro ⟨path, hm, hrel⟩
      exact absurd hrel (ok.rel_ne_nil hm)
  · rcases h.traced q x hq ho with ⟨e, he, hrel, hm⟩ | ⟨rfl, e, he, hpre, hne⟩
    · constructor
      · rintro rfl
        cases hm
        exact ⟨_, he, hrel⟩
      · rintro ⟨path, hmem, hrel'⟩
        cases ok.unique he hmem (hrel.trans hrel'.symm)
        cases hm
        rfl
    · constructor
      · nofun
      · rintro ⟨path, hmem, rfl⟩
        exact absurd (hends _ hmem rfl e he hpre) hne

theorem no_escaping_symlink {th : TreeHash} {index : TreeIndex} {fs : Fs} {dest root : Path}
    (hv : index.validate th = .ok ()) (hroot : fs.canonicalize dest = some root)
    (hdir : fs.obj root = some .dir) (hempty : ∀ q, q ≠ [] → fs.obj (root ++ q) = none)
    (hends : LinksEnd index.entries) (store : ContentStore) (policy : MaterializePolicy)
    (io : Nat → KernelReply) {w : World}
    (hw : w = (reconstructTree th dest index.entries store policy io 0 ⟨fs, []⟩).2.2)
    {link : Path} {target : String} (hin : root <+: link)
    (hlink : w.fs.obj link = some (.symlink target)) {r : Path}
    (hr : w.fs.resolve true link = some r) : root <+: r := by
  obtain ⟨links, hconf, hlinks⟩ := TreeIndex.validate_links hv
  have ok := TreeIndex.validate_ok hv
  have start : Rooted [] root ⟨fs, []⟩ := by
    refine ⟨hdir, fun q x hq ho => ?_⟩
    rw [hempty q hq] at ho
    cases ho
  have run : Triple (· = ⟨fs, []⟩) (reconstructTree th dest index.entries store policy)
      (fun _ => Rooted index.entries root) (Rooted index.entries root) :=
    triple_destination (m := fun root => materializeUnder th store policy root index.entries)
      hroot hdir start (start.more (by simp)) (materializeUnder_rooted ok)
  have rooted := run.final io 0 rfl
  rw [← hw] at rooted
  obtain ⟨q, rfl⟩ := hin
  have hq : q ≠ [] := by
    rintro rfl
    rw [List.append_nil, rooted.anchored] at hlink
    cases hlink
  obtain ⟨parent, name, rfl⟩ : ∃ parent name, q = parent ++ [name] :=
    ⟨_, _, (List.dropLast_append_getLast hq).symm⟩
  have hparent : w.fs.obj (root ++ parent) = some .dir :=
    w.fs.closed (root ++ parent) name (by simp [hlink])
  have settled := names_settle hconf (rooted.declared ok hends hlinks) [name] parent hparent
  refine settled.walk (q := r)
    (?_ : walk w.fs true maxLinks (root ++ parent) [.normal name] = some r)
  have hdown : w.fs.obj ([] ++ (root ++ parent)) = some .dir := hparent
  rw [← List.nil_append (root ++ parent), ← walk_down hdown, ← hr]
  simp [Fs.resolve]

theorem no_escaping_symlink_full :
    ["dst"] <+: ((fullRun.2.2.fs.resolve true ["dst", "s"]).getD []) := by
  have hends : LinksEnd fullIndex.entries := by
    unfold LinksEnd
    decide +kernel
  exact no_escaping_symlink (show fullIndex.validate fullTree = .ok () by decide +kernel)
    (by decide +kernel) (by decide +kernel) emptyDst_empty hends shortStore ⟨false, false⟩
    (failing []) rfl (show ["dst"] <+: ["dst", "s"] by decide)
    (show fullRun.2.2.fs.obj ["dst", "s"] = some (.symlink "d") by decide +kernel)
    (show fullRun.2.2.fs.resolve true ["dst", "s"] =
      some ((fullRun.2.2.fs.resolve true ["dst", "s"]).getD []) by decide +kernel)

def crossedRoot : Hash :=
  ⟨[0xc7, 0xd0, 0x59, 0x36, 0x9f, 0x2a, 0x98, 0x43, 0x05, 0x0d, 0x09, 0xb8, 0x76, 0xd6, 0xd8,
    0x73, 0x35, 0x36, 0x25, 0x0b, 0x18, 0xa4, 0x8a, 0x00, 0xf7, 0x60, 0xe9, 0x6b, 0x3d, 0xa5,
    0xe8, 0xd4],
    by decide⟩

def crossedTree : TreeHash :=
  knownTree [0x03, 0x06, 0x62, 0x6c, 0x61, 0x6b, 0x65, 0x33, 0x03,
    0x02, 0x03, 0x70, 0x2f, 0x71, 0x02,
    0x2e, 0x2e, 0x02, 0x01, 0x65, 0x09, 0x70, 0x2f, 0x71, 0x2f, 0x2e, 0x2e, 0x2f, 0x2e, 0x2e,
    0x02, 0x01, 0x70, 0x08, 0x64, 0x31, 0x2f, 0x64, 0x32, 0x2f, 0x64, 0x33] crossedRoot

/-- A link under a path that is a link itself, and one that goes through both. -/
def crossedIndex : TreeIndex :=
  sampleIndex [.symlink "p/q" "..", .symlink "e" "p/q/../..", .symlink "p" "d1/d2/d3"] crossedRoot

def crossedRun : Except BlobError Unit × Nat × World :=
  reconstructTree crossedTree ["dst"] crossedIndex.entries shortStore ⟨false, false⟩ (failing []) 0
    ⟨emptyDst, []⟩

/-- The run stops at `p`, which is a directory by then, and leaves `e` pointing outside. -/
theorem stopped_run_leaves_escape :
    crossedIndex.validate crossedTree = .ok () ∧ emptyDst.canonicalize ["dst"] = some ["dst"] ∧
      (∀ q, q ≠ [] → emptyDst.obj (["dst"] ++ q) = none) ∧ crossedRun.1.toOption = none ∧
      crossedRun.2.2.fs.obj ["dst", "e"] = some (.symlink "p/q/../..") ∧
      crossedRun.2.2.fs.resolve true ["dst", "e"] = some [] ∧
      crossedRun.2.2.fs.obj [] = some .dir ∧ ¬["dst"] <+: ([] : Path) :=
  ⟨by decide +kernel, by decide +kernel, emptyDst_empty, by decide +kernel, by decide +kernel,
    by decide +kernel, by decide +kernel, by decide⟩

end Zblob

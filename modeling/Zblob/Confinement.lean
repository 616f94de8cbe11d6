import Zblob.Materialize

/-!
How far a materialization reaches. Nothing it does touches a place outside the root, as
long as `File::create` never finds a link or a file with an outside name in its way, and
no declared link takes the place of a directory above a declared directory.
-/

set_option autoImplicit false

namespace Zblob

open Program

def Step.Within (root : Path) (s : Step) : Prop := ∀ q, s.call.Touches s.before q → root <+: q

/-- What the removal before a `File::create` is there for. -/
def Step.Cleared (root : Path) (s : Step) : Prop :=
  ∀ p, s.call = .create p →
    (∀ target, s.before.obj p ≠ some (.symlink target)) ∧
      ∀ ino, s.before.obj p = some (.file ino) →
      (∀ q, s.before.obj q = some (.file ino) → root <+: q)

def AllCleared (root : Path) (w : World) : Prop := ∀ s ∈ w.log, s.Cleared root

structure Ground (root : Path) (policy : MaterializePolicy) (dirs : List RelPath) (fs : Fs) :
    Prop where
  unlinked : ∀ d ∈ dirs, ∀ q, q <+: root ++ d → ∀ target, fs.obj q ≠ some (.symlink target)
  plain : ∀ d ∈ dirs, fs.obj (root ++ d) = none ∨ fs.obj (root ++ d) = some .dir
  kept : policy.replaceDirectories = false → ∀ d ∈ dirs, fs.obj (root ++ d) = some .dir

section Ground

variable {root : Path} {policy : MaterializePolicy} {dirs : List RelPath} {fs fs' : Fs}

theorem Ground.same_obj (g : Ground root policy dirs fs) (h : ∀ q, fs'.obj q = fs.obj q) :
    Ground root policy dirs fs' := by
  refine ⟨fun d hd q hq => ?_, fun d hd => ?_, fun hp d hd => ?_⟩
  · rw [h]
    exact g.unlinked d hd q hq
  · rw [h]
    exact g.plain d hd
  · rw [h]
    exact g.kept hp d hd

theorem Ground.added {r : Path} {x : Obj} (g : Ground root policy dirs fs) (ha : Added fs r x fs')
    (hx : x = .dir ∨ ∀ d ∈ dirs, r ≠ root ++ d)
    (hl : ∀ target, x = .symlink target → policy.replaceDirectories = true →
      ∀ d ∈ dirs, ¬r <+: root ++ d) : Ground root policy dirs fs' := by
  refine ⟨fun d hd q hq target ho => ?_, fun d hd => ?_, fun hp d hd => ?_⟩
  · rw [ha.obj] at ho
    split at ho
    · rename_i hqr
      subst hqr
      cases ho
      cases hp : policy.replaceDirectories with
      | true => exact hl target rfl hp d hd hq
      | false =>
        -- the directory is still there, so nothing above it is free
        have hdir := Fs.dir_of_dir (g.kept hp d hd) hq
        rw [ha.absent] at hdir
        cases hdir
    · exact g.unlinked d hd q hq target ho
  · rw [ha.obj]
    split
    · rename_i he
      rcases hx with rfl | hx
      · exact .inr rfl
      · exact absurd he.symm (hx d hd)
    · exact g.plain d hd
  · have hdir := g.kept hp d hd
    rw [ha.obj, if_neg, hdir]
    rintro rfl
    rw [ha.absent] at hdir
    cases hdir

theorem Ground.removed {roots : List Path} (g : Ground root policy dirs fs)
    (hstay : policy.replaceDirectories = false → ∀ d ∈ dirs, ∀ r ∈ roots, ¬r <+: root ++ d) :
    Ground root policy dirs (fs.remove roots) := by
  refine ⟨fun d hd q hq target => ?_, fun d hd => ?_, fun hp d hd => ?_⟩
  · rcases Fs.remove_obj fs roots q with h | h
    · rw [h]
      exact g.unlinked d hd q hq target
    · rw [h]
      simp
  · rcases Fs.remove_obj fs roots (root ++ d) with h | h
    · rw [h]
      exact g.plain d hd
    · exact .inl h
  · rw [Fs.remove_keeps (hstay hp d hd)]
    exact g.kept hp d hd

theorem Ground.declare {d : RelPath} (g : Ground root policy dirs fs)
    (h : fs.obj (root ++ d) = some .dir) : Ground root policy (dirs ++ [d]) fs := by
  refine ⟨fun x hx q hq target => ?_, fun x hx => ?_, fun hp x hx => ?_⟩
  · rcases List.mem_append.mp hx with hx | hx
    · exact g.unlinked x hx q hq target
    · rw [List.mem_singleton.mp hx] at hq
      simp [Fs.dir_of_dir h hq]
  · rcases List.mem_append.mp hx with hx | hx
    · exact g.plain x hx
    · exact .inr (List.mem_singleton.mp hx ▸ h)
  · rcases List.mem_append.mp hx with hx | hx
    · exact g.kept hp x hx
    · exact List.mem_singleton.mp hx ▸ h

end Ground

/-- While every `File::create` was clear, nothing left the root. -/
structure Guard (root : Path) (start : Fs) (policy : MaterializePolicy) (dirs : List RelPath)
    (w : World) : Prop where
  within : ∀ s ∈ w.log, s.Within root
  outside : ∀ q, ¬root <+: q → w.fs.look q = start.look q
  ground : Ground root policy dirs w.fs

structure Safe (root : Path) (start : Fs) (policy : MaterializePolicy) (dirs : List RelPath)
    (w : World) : Prop where
  anchored : w.fs.obj root = some .dir
  guard : AllCleared root w → Guard root start policy dirs w

section Safe

variable {root : Path} {start : Fs} {policy : MaterializePolicy} {dirs : List RelPath} {w : World}

theorem AllCleared.last {c : Syscall} {fs : Fs} (h : AllCleared root (w.did c fs)) :
    AllCleared root w ∧ Step.Cleared root ⟨w.fs, c⟩ :=
  ⟨fun s hs => h s (List.mem_append_left _ hs), h _ (List.mem_append_right _ (by simp))⟩

/-- One more call: it touches only what is inside and leaves the ground in order. -/
theorem Safe.did {c : Syscall} {d : Done} (h : Safe root start policy dirs w) (hc : Change w.fs c d)
    (hroot : d.fs.obj root = some .dir)
    (hstep : AllCleared root w → Step.Cleared root ⟨w.fs, c⟩ → Ground root policy dirs w.fs →
      (∀ q, c.Touches w.fs q → root <+: q) ∧ Ground root policy dirs d.fs) :
    Safe root start policy dirs (w.did c d.fs) := by
  refine ⟨hroot, fun hclear => ?_⟩
  obtain ⟨hbefore, hlast⟩ := hclear.last
  have g := h.guard hbefore
  obtain ⟨hin, hground⟩ := hstep hbefore hlast g.ground
  refine ⟨fun s hs => ?_, fun q hq => ?_, hground⟩
  · rcases List.mem_append.mp hs with hs | hs
    · exact g.within s hs
    · rw [List.mem_singleton.mp hs]
      exact hin
  · rw [← g.outside q hq]
    exact hc.untouched fun ht => hq (hin q ht)

theorem Safe.fewer (h : Safe root start policy dirs w) : Safe root start policy [] w :=
  ⟨h.anchored, fun hclear =>
    ⟨(h.guard hclear).within, (h.guard hclear).outside, ⟨by simp, by simp, by simp⟩⟩⟩

theorem Safe.mkdir {q : Path} {fs : Fs} (h : Safe root start policy dirs w) (hq : root <+: q)
    (ha : Added w.fs q .dir fs) (hc : Change w.fs (.mkdir q) ⟨fs, true⟩) :
    Safe root start policy dirs (w.did (.mkdir q) fs) := by
  refine h.did hc (ha.keeps h.anchored) fun _ _ g => ⟨fun x hx => ?_, ?_⟩
  · rw [Fs.resolve_straight ha.straight (by simp) hx]
    exact hq
  · exact g.added ha (.inl rfl) (by simp)

structure Ready (root : Path) (start : Fs) (policy : MaterializePolicy) (dirs : List RelPath)
    (p : Path) (w : World) : Prop extends Safe root start policy dirs w where
  parent : w.fs.obj p.dropLast = some .dir

theorem Ready.straight {p : Path} (h : Ready root start policy dirs p w) : w.fs.Straight p :=
  Fs.straight_of_parent h.parent

/-- A place strictly inside, where neither the root nor a directory above can be reached. -/
structure Below (root p : Path) : Prop where
  inside : root <+: p
  proper : ¬p <+: root

theorem Below.parent {p : Path} (h : Below root p) : ¬p <+: p.dropLast := by
  intro hp
  have hlen := hp.length_le
  rw [List.length_dropLast] at hlen
  have hne : p ≠ [] := by
    rintro rfl
    exact h.proper List.nil_prefix
  have := List.length_pos_iff.mpr hne
  omega

theorem Below.append {rel : RelPath} (h : rel ≠ []) : Below root (root ++ rel) := by
  refine ⟨List.prefix_append _ _, fun hp => ?_⟩
  have hlen := hp.length_le
  have := List.length_pos_iff.mpr h
  simp only [List.length_append] at hlen
  omega

section Ready

variable {p : Path}

theorem Ready.did {c : Syscall} {d : Done} (h : Ready root start policy dirs p w)
    (hc : Change w.fs c d) (hroot : d.fs.obj root = some .dir)
    (hparent : d.fs.obj p.dropLast = some .dir)
    (hstep : AllCleared root w → Step.Cleared root ⟨w.fs, c⟩ → Ground root policy dirs w.fs →
      (∀ q, c.Touches w.fs q → root <+: q) ∧ Ground root policy dirs d.fs) :
    Ready root start policy dirs p (w.did c d.fs) :=
  ⟨h.toSafe.did hc hroot hstep, hparent⟩

theorem Ready.removed {c : Syscall} {roots : List Path} {ok : Bool} (hb : Below root p)
    (h : Ready root start policy dirs p w) (hc : Change w.fs c ⟨w.fs.remove roots, ok⟩)
    (hroots : ∀ x ∈ roots, p <+: x)
    (htouch : ∀ q, c.Touches w.fs q → p <+: q)
    (hstay : Ground root policy dirs w.fs → policy.replaceDirectories = false →
      ∀ d ∈ dirs, ∀ r ∈ roots, ¬r <+: root ++ d) :
    Ready root start policy dirs p (w.did c (w.fs.remove roots)) := by
  have hkeep : ∀ q, ¬p <+: q → (w.fs.remove roots).obj q = w.fs.obj q := fun q hq =>
    Fs.remove_keeps fun r hr hpre => hq ((hroots r hr).trans hpre)
  refine h.did hc ?_ ?_ fun _ _ g =>
    ⟨fun q hq => hb.inside.trans (htouch q hq), g.removed (hstay g)⟩
  · simpa [hkeep root hb.proper] using h.anchored
  · simpa [hkeep _ hb.parent] using h.parent

theorem ready_removeExisting (hb : Below root p) (canon : Path) :
    Triple (fun w => Ready root start policy dirs p w ∧ w.fs.Straight canon)
      (removeExisting p policy)
      (fun _ w => Ready root start policy dirs p w ∧ w.fs.Straight canon)
      (fun w => Ready root start policy dirs p w ∧ w.fs.Straight canon) := by
  have stays : ∀ {fs : Fs} (roots : List Path), fs.Straight canon →
      (fs.remove roots).Straight canon := by
    intro fs roots hs q hq hne target ho
    rcases Fs.remove_obj fs roots q with h | h
    · exact hs q hq hne target (h ▸ ho)
    · rw [h] at ho
      cases ho
  refine triple_removeExisting (fun w hw => hw.1.parent) (fun w x hw ho hx hc => ?_)
    fun w roots ok hw hpolicy _ hroots hc => ?_
  · refine ⟨hw.1.removed hb hc (by simp) (fun q hq => ?_) fun g hoff d hd r hr hpre => ?_,
      stays _ hw.2⟩
    · exact Fs.resolve_straight hw.1.straight (by simp) hq ▸ List.prefix_rfl
    · -- what is unlinked is no directory, so no declared directory is under it
      rw [List.mem_singleton.mp hr] at hpre
      have hdir := Fs.dir_of_dir (g.kept hoff d hd) hpre
      rw [ho] at hdir
      exact hx (Option.some.inj hdir)
  · refine ⟨hw.1.removed hb hc hroots (fun q hq => ?_) fun _ hoff => ?_, stays _ hw.2⟩
    · obtain ⟨r, hr, hpre⟩ := hq
      rwa [Fs.resolve_straight hw.1.straight (by simp) hr] at hpre
    · rw [hpolicy] at hoff
      cases hoff

structure Opened (root : Path) (start : Fs) (policy : MaterializePolicy) (dirs : List RelPath)
    (p : Path) (ino : Nat) (w : World) : Prop extends Ready root start policy dirs p w where
  here : AllCleared root w → w.fs.obj p = some (.file ino)
  names : AllCleared root w → ∀ q, w.fs.obj q = some (.file ino) → root <+: q

theorem ready_createFile (hb : Below root p) (hnew : ∀ d ∈ dirs, p ≠ root ++ d) :
    Triple (Ready root start policy dirs p) (createFile p) (Opened root start policy dirs p)
      (Safe root start policy dirs) := by
  have straight : ∀ {w : World} {r : Path}, Ready root start policy dirs p w →
      Step.Cleared root ⟨w.fs, .create p⟩ → w.fs.resolve true p = some r → r = p :=
    fun hw hclear hr => Fs.resolve_straight hw.straight (fun _ => (hclear p rfl).1) hr
  refine triple_createFile (fun w hw => hw.toSafe) (fun w r fs hw hr ha hd => ?_)
    fun w r ino hw hr ho => ?_
  · have names : ∀ q, fs.obj q = some (.file w.fs.nextIno) → q = r := by
      intro q hq
      rw [ha.obj] at hq
      split at hq
      · assumption
      · exact absurd (w.fs.fresh q _ hq) (Nat.lt_irrefl _)
    refine ⟨hw.did (.create hr ha hd) (ha.keeps hw.anchored) (ha.keeps hw.parent)
      fun _ hclear g => ?_, fun hall => ?_, fun hall q hq => ?_⟩
    · cases straight hw hclear hr
      refine ⟨?_, g.added ha (.inr hnew) (by simp)⟩
      rintro q ⟨r, hr', rfl | ⟨ino, ho, -⟩⟩
      · rw [straight hw hclear hr']
        exact hb.inside
      · rw [straight hw hclear hr', ha.absent] at ho
        cases ho
    · cases straight hw hall.last.2 hr
      simp [World.did, ha.obj]
    · rw [names q hq, straight hw hall.last.2 hr]
      exact hb.inside
  · refine ⟨hw.did (.empty hr ho) hw.anchored hw.parent fun _ hclear g => ?_, fun hall => ?_,
      fun hall => ?_⟩
    · cases straight hw hclear hr
      refine ⟨?_, g.same_obj fun q => rfl⟩
      rintro q ⟨r, hr', rfl | ⟨i, hi, hq⟩⟩
      · rw [straight hw hclear hr']
        exact hb.inside
      · rw [straight hw hclear hr'] at hi
        exact (hclear p rfl).2 i hi q hq
    · cases straight hw hall.last.2 hr
      exact ho
    · cases straight hw hall.last.2 hr
      exact (hall.last.2 p rfl).2 ino ho

theorem Opened.did {ino : Nat} {c : Syscall} {d : Done} (h : Opened root start policy dirs p ino w)
    (hc : Change w.fs c d) (hobj : ∀ q, d.fs.obj q = w.fs.obj q)
    (htouch : w.fs.obj p = some (.file ino) → ∀ q, c.Touches w.fs q →
      w.fs.obj q = some (.file ino)) :
    Opened root start policy dirs p ino (w.did c d.fs) := by
  refine ⟨h.toReady.did hc (hobj root ▸ h.anchored) (hobj p.dropLast ▸ h.parent) fun hall _ g =>
    ⟨fun q hq => h.names hall q (htouch (h.here hall) q hq), g.same_obj hobj⟩, fun hall => ?_,
    fun hall q hq => ?_⟩
  · exact hobj p ▸ h.here hall.last.1
  · exact h.names hall.last.1 q (hobj q ▸ hq)

theorem opened_writeChunks {th : TreeHash} {store : ContentStore} {ino : Nat}
    (chunks : List ChunkRef) :
    Triple (Opened root start policy dirs p ino) (writeChunks th store ino chunks 0)
      (fun _ => Opened root start policy dirs p ino) (Safe root start policy dirs) := by
  have writes : ∀ (w : World) (piece part : Bytes), Opened root start policy dirs p ino w →
      Opened root start policy dirs p ino
        (w.did (.write ino piece) (w.fs.setData ino (w.fs.data ino ++ part))) := by
    intro w piece part hw
    exact hw.did (@Change.write w.fs ino piece part false nofun) (fun q => rfl)
      fun _ q hq => hq
  refine (triple_writeChunks (I := fun _ => Opened root start policy dirs p ino)
    (fun _ w hw => hw.toSafe) (fun _ w piece hw => writes w piece piece hw)
    (fun _ w piece part hw => (writes w piece part hw).toSafe) chunks 0 []).post ?_
  rintro n w ⟨-, -, -, hw⟩
  exact hw

theorem opened_setMode {ino : Nat} (mode : UInt32) :
    Triple (Opened root start policy dirs p ino) (setMode p mode policy)
      (fun _ => Opened root start policy dirs p ino) (Safe root start policy dirs) := by
  refine triple_setMode (fun w r n mode hw hr hn => ?_) mode
  refine hw.did (.chmod hr hn) (fun q => rfl) fun hfile q hq => ?_
  obtain ⟨r', n', hr', hn', hnamed⟩ := hq
  have hp : r' = p := Fs.resolve_straight hw.straight (fun _ => by simp [hfile]) hr'
  subst hp
  simp only [Fs.node, hfile, Option.some.injEq] at hn'
  subst hn'
  exact hnamed

theorem opened_setMtime {ino : Nat} (mtime : Int64) :
    Triple (Opened root start policy dirs p ino) (setMtime (.file ino) mtime)
      (fun _ => Opened root start policy dirs p ino) (Safe root start policy dirs) :=
  triple_setMtime (fun w _ hw => hw.did (d := ⟨w.fs, true⟩) .setTime (fun _ => rfl) fun _ _ hq =>
    hq) mtime

end Ready

def declaredDirs (entries : List Entry) : List RelPath :=
  (entries.filter Entry.isDir).map Entry.rel

theorem mem_declaredDirs {entries : List Entry} {d : RelPath} :
    d ∈ declaredDirs entries ↔ ∃ e ∈ entries, e.isDir = true ∧ e.rel = d := by
  simp [declaredDirs, and_assoc]

theorem safe_createDirConfined {rel : RelPath} :
    Triple (Safe root start policy dirs) (createDirConfined root rel)
      (fun _ w => Safe root start policy dirs w ∧ w.fs.obj (root ++ rel) = some .dir)
      (Safe root start policy dirs) :=
  (triple_createDirConfined fun _ _ _ hw hq _ ha hc => hw.mkdir hq ha hc).pre fun _ hw =>
    ⟨hw, hw.anchored⟩

theorem safe_parent {rel : RelPath} (hrel : rel ≠ []) :
    Triple (Safe root start policy dirs) (createDirConfined root rel.dropLast)
      (fun _ => Ready root start policy dirs (root ++ rel)) (Safe root start policy dirs) :=
  safe_createDirConfined.post fun _ _ hw =>
    ⟨hw.1, by rw [List.dropLast_append_of_ne_nil hrel]; exact hw.2⟩

theorem makeDirectory_safe {e : Entry} (hpath : sanitizeRelPath e.path = .ok e.rel) :
    Triple (Safe root start policy dirs) (makeDirectory root e)
      (fun _ => Safe root start policy (dirs ++ declaredDirs [e]))
      (Safe root start policy []) := by
  cases e with
  | dir path mode mtime =>
    refine Triple.lift_bind hpath ?_
    refine Triple.bind (safe_createDirConfined.conseq (fun _ h => h) (fun _ _ h => h)
      fun _ h => h.fewer) fun _ => Triple.ret fun w hw => ⟨hw.1.anchored, fun hall => ?_⟩
    have g := hw.1.guard hall
    exact ⟨g.within, g.outside, g.ground.declare hw.2⟩
  | file path mode mtime size chunks =>
    exact Triple.ret fun w hw => by simpa [declaredDirs, Entry.isDir] using hw
  | symlink path target =>
    exact Triple.ret fun w hw => by simpa [declaredDirs, Entry.isDir] using hw
  | hardlink path target =>
    exact Triple.ret fun w hw => by simpa [declaredDirs, Entry.isDir] using hw

/-- No declared link stands where a declared directory needs a directory. -/
def LinksApart (entries : List Entry) : Prop :=
  ∀ s ∈ entries, ∀ d ∈ entries, s.isSymlink = true → d.isDir = true → ¬s.rel <+: d.rel

theorem ready_cleared {p : Path} (hb : Below root p) :
    Triple (Ready root start policy dirs p) (removeExisting p policy)
      (fun _ => Ready root start policy dirs p) (Safe root start policy dirs) :=
  (ready_removeExisting hb []).conseq
    (fun _ hw => ⟨hw, fun _ hq hne => absurd (List.prefix_nil.mp hq) hne⟩) (fun _ _ h => h.1)
    fun _ h => h.1.toSafe

theorem safe_link {p canonT : Path} (hb : Below root p) (hin : root <+: canonT)
    (hnew : ∀ d ∈ dirs, p ≠ root ++ d) :
    Triple (fun w => Ready root start policy dirs p w ∧ w.fs.Straight canonT)
      (Kernel.free.must (.link canonT p)) (fun _ => Safe root start policy dirs)
      (Safe root start policy dirs) := by
  refine triple_must (fun _ hw => hw.1.toSafe) (fun w d hw hc _ => ?_) fun w d hw hc hok => ?_
  · cases hc with
    | @link _ _ a r ino fs' hsrc ho hr ha =>
      cases Fs.resolve_straight hw.1.straight (by simp) hr
      refine hw.1.toSafe.did (.link hsrc ho hr ha) (ha.keeps hw.1.anchored) fun _ _ g => ⟨?_, ?_⟩
      · rintro q (hq | hq)
        · rw [Fs.resolve_straight hw.2 (by simp) hq]
          exact hin
        · rw [Fs.resolve_straight hw.1.straight (by simp) hq]
          exact hb.inside
      · exact g.added ha (.inr hnew) (by simp)
  · cases hc
    cases hok

theorem Safe.directory {d : RelPath} {r : Path} {n : Node} (h : Safe root start policy dirs w)
    (hd : d ∈ dirs) (hall : AllCleared root w) (hr : w.fs.resolve true (root ++ d) = some r)
    (hn : w.fs.node r = some n) : n = .dir (root ++ d) := by
  have g := (h.guard hall).ground
  have hp : r = root ++ d := Fs.resolve_straight (fun q hq _ => g.unlinked d hd q hq)
    (fun _ => g.unlinked d hd _ List.prefix_rfl) hr
  subst hp
  rcases g.plain d hd with ho | ho
  · simp [Fs.node, ho] at hn
  · simpa [Fs.node, ho] using hn.symm

theorem directory_setMode {d : RelPath} (hd : d ∈ dirs) (mode : UInt32) :
    Triple (Safe root start policy dirs) (setMode (root ++ d) mode policy)
      (fun _ => Safe root start policy dirs) (Safe root start policy dirs) := by
  refine triple_setMode (fun w r n mode hw hr hn => ?_) mode
  refine hw.did (.chmod hr hn) hw.anchored fun hall _ g => ⟨?_, g.same_obj fun _ => rfl⟩
  rintro q ⟨r', n', hr', hn', hnamed⟩
  rw [hw.directory hd hall hr' hn'] at hnamed
  exact hnamed ▸ List.prefix_append _ _

theorem timeDirectory_safe {d : RelPath} (hd : d ∈ dirs) (mtime : Int64) :
    Triple (Safe root start policy dirs) (timeDirectory (root ++ d) mtime)
      (fun _ => Safe root start policy dirs) (Safe root start policy dirs) := by
  unfold timeDirectory Kernel.timeDirectory
  split
  · refine Triple.bind (Q := fun found w => Safe root start policy dirs w ∧
      ∀ f, found = .ok f → AllCleared root w → f = .dir (root ++ d)) ?_ fun found => ?_
    · refine triple_ask (fun w n hw hn => ⟨hw, fun f heq hall => ?_⟩) fun w text hw => ⟨hw, nofun⟩
      cases heq
      obtain ⟨r, hr, hnode⟩ := Option.bind_eq_some_iff.mp hn
      exact hw.directory hd hall hr hnode
    · cases found with
      | error text => exact Triple.ret fun _ hw => hw.1
      | ok f =>
        refine (triple_setMtime (I := fun w => Safe root start policy dirs w ∧
          (AllCleared root w → f = .dir (root ++ d))) (fun w mtime hw => ⟨?_, fun hall =>
            hw.2 hall.last.1⟩) mtime).conseq (fun _ hw => ⟨hw.1, hw.2 f rfl⟩) (fun _ _ hw => hw.1)
          fun _ hw => hw
        refine hw.1.did (d := ⟨w.fs, true⟩) .setTime hw.1.anchored fun hall _ g =>
          ⟨fun q hq => ?_, g⟩
        rw [hw.2 hall] at hq
        exact hq ▸ List.prefix_append _ _
  · exact Triple.ret fun _ hw => hw

section Entries

variable {cdc : CdcParams} {entries : List Entry} {e : Entry}

theorem not_declared (ok : EntriesOk cdc [] entries) (he : e ∈ entries) (hd : e.isDir = false) :
    ∀ d ∈ declaredDirs entries, root ++ e.rel ≠ root ++ d := by
  intro d hmem heq
  obtain ⟨x, hx, hxd, hrel⟩ := mem_declaredDirs.mp hmem
  have := ok.unique he hx ((List.append_cancel_left heq).trans hrel.symm)
  rw [this, hxd] at hd
  cases hd

theorem makeContent_safe {th : TreeHash} {store : ContentStore} (ok : EntriesOk cdc [] entries)
    (he : e ∈ entries) :
    Triple (Safe root start policy (declaredDirs entries)) (makeContent th store policy root e)
      (fun _ => Safe root start policy (declaredDirs entries))
      (Safe root start policy (declaredDirs entries)) := by
  have hrel := ok.rel_ne_nil he
  have hb : Below root (root ++ e.rel) := Below.append hrel
  have hpath := ok.paths e he
  cases e with
  | dir path mode mtime => exact Triple.ret fun _ hw => hw
  | symlink path target => exact Triple.ret fun _ hw => hw
  | file path mode mtime size chunks =>
    refine Triple.lift_bind hpath ?_
    refine (safe_parent hrel).bind fun _ => ?_
    refine Triple.bind (triple_assertParentWithin.conseq (fun _ h => h) (fun _ _ h => h)
      fun _ h => h.toSafe) fun _ => ?_
    refine (ready_cleared hb).bind fun _ => ?_
    refine (ready_createFile hb (not_declared ok he rfl)).bind fun ino => ?_
    refine (opened_writeChunks chunks).bind fun written => ?_
    split
    · exact Triple.fail fun _ hw => hw.toSafe
    · refine (opened_setMode mode).bind fun _ => ?_
      exact (opened_setMtime mtime).post fun _ _ hw => hw.toSafe
  | hardlink path target =>
    obtain ⟨t, ht⟩ := ok.hardlinks path target he
    refine Triple.lift_bind hpath ?_
    refine (safe_parent hrel).bind fun _ => ?_
    refine Triple.lift_bind ht ?_
    refine Triple.bind (triple_assertParentWithin.conseq (fun _ h => h) (fun _ _ h => h)
      fun _ h => h.toSafe) fun _ => ?_
    refine Triple.bind (Q := fun found w =>
      Ready root start policy (declaredDirs entries) (root ++ (Entry.hardlink path target).rel) w ∧
        ∀ canonT, found = .ok canonT → w.fs.Straight canonT) ?_ fun found => ?_
    · refine triple_ask (fun w c hw hc => ⟨hw, fun canonT heq => ?_⟩) fun w text hw => ⟨hw, nofun⟩
      cases heq
      obtain ⟨r, -, hr⟩ := Option.bind_eq_some_iff.mp hc
      split at hr
      · cases hr
      · cases hr
        exact Fs.straight_of_some ‹_›
    cases found with
    | error text => exact Triple.fail fun _ hw => hw.1.toSafe
    | ok canonT =>
      simp only
      split
      · rename_i hin
        rw [List.isPrefixOf_iff_prefix] at hin
        refine Triple.bind (Q := fun _ w => Ready root start policy (declaredDirs entries)
          (root ++ (Entry.hardlink path target).rel) w ∧ w.fs.Straight canonT)
          (triple_ask (fun w _ hw _ => ⟨hw.1, hw.2 canonT rfl⟩)
            fun w _ hw => ⟨hw.1, hw.2 canonT rfl⟩) fun kind => ?_
        cases kind with
        | error text => exact Triple.fail fun _ hw => hw.1.toSafe
        | ok x =>
          cases x with
          | dir => exact Triple.fail fun _ hw => hw.1.toSafe
          | symlink target => exact Triple.fail fun _ hw => hw.1.toSafe
          | file ino =>
            refine Triple.bind ((ready_removeExisting hb canonT).conseq (fun _ h => h)
              (fun _ _ h => h) fun _ h => h.1.toSafe) fun _ => ?_
            exact safe_link hb hin (not_declared ok he rfl)
      · exact Triple.fail fun _ hw => hw.1.toSafe

theorem makeSymlink_safe (ok : EntriesOk cdc [] entries)
    (hlinks : policy.replaceDirectories = false ∨ LinksApart entries) (he : e ∈ entries) :
    Triple (Safe root start policy (declaredDirs entries)) (makeSymlink policy root e)
      (fun _ => Safe root start policy (declaredDirs entries))
      (Safe root start policy (declaredDirs entries)) := by
  have hrel := ok.rel_ne_nil he
  have hb : Below root (root ++ e.rel) := Below.append hrel
  have hpath := ok.paths e he
  cases e with
  | dir path mode mtime => exact Triple.ret fun _ hw => hw
  | file path mode mtime size chunks => exact Triple.ret fun _ hw => hw
  | hardlink path target => exact Triple.ret fun _ hw => hw
  | symlink path target =>
    refine Triple.lift_bind hpath ?_
    refine Triple.lift_bind (ok.symlinks path target he) ?_
    refine (safe_parent hrel).bind fun _ => ?_
    refine Triple.bind (triple_assertParentWithin.conseq (fun _ h => h) (fun _ _ h => h)
      fun _ h => h.toSafe) fun _ => ?_
    refine (ready_cleared hb).bind fun _ => ?_
    refine triple_must (fun _ hw => hw.toSafe) (fun w d hw hc _ => ?_) fun w d hw hc hok => ?_
    · cases hc with
      | @symlink _ _ r fs' hr ha =>
        cases Fs.resolve_straight hw.straight (by simp) hr
        refine hw.toSafe.did (.symlink hr ha) (ha.keeps hw.anchored) fun _ _ g =>
          ⟨fun q hq => ?_, ?_⟩
        · rw [Fs.resolve_straight hw.straight (by simp) hq]
          exact hb.inside
        · refine g.added ha (.inr (not_declared ok he rfl)) fun _ _ hon d hd hpre => ?_
          obtain ⟨x, hx, hxd, rfl⟩ := mem_declaredDirs.mp hd
          rcases hlinks with hoff | hapart
          · rw [hoff] at hon
            cases hon
          · exact hapart _ he x hx rfl hxd ((List.prefix_append_right_inj root).mp hpre)
    · cases hc
      cases hok

theorem finishDirectory_safe (ok : EntriesOk cdc [] entries) (he : e ∈ entries) :
    Triple (Safe root start policy (declaredDirs entries)) (finishDirectory policy root e)
      (fun _ => Safe root start policy (declaredDirs entries))
      (Safe root start policy (declaredDirs entries)) := by
  have hpath := ok.paths e he
  cases e with
  | file path mode mtime size chunks => exact Triple.ret fun _ hw => hw
  | hardlink path target => exact Triple.ret fun _ hw => hw
  | symlink path target => exact Triple.ret fun _ hw => hw
  | dir path mode mtime =>
    have hd : (Entry.dir path mode mtime).rel ∈ declaredDirs entries :=
      mem_declaredDirs.mpr ⟨_, he, rfl, rfl⟩
    simp only [Kernel.finishDirectory]
    rw [show sanitizeRelPath path = .ok (Entry.dir path mode mtime).rel from hpath]
    exact (timeDirectory_safe hd mtime).bind fun _ => directory_setMode hd mode

end Entries

theorem materializeUnder_safe {th : TreeHash} {store : ContentStore} {entries : List Entry}
    {cdc : CdcParams} (ok : EntriesOk cdc [] entries)
    (hlinks : policy.replaceDirectories = false ∨ LinksApart entries) :
    Triple (Safe root start policy []) (materializeUnder th store policy root entries)
      (fun _ => Safe root start policy []) (Safe root start policy []) := by
  have mem : ∀ {xs done rest : List Entry} {x : Entry}, xs = done ++ x :: rest → x ∈ xs := by
    rintro xs done rest x rfl
    simp
  have each : ∀ {xs : List Entry} {body : Entry → FsProg Unit}, (∀ x ∈ xs,
      Triple (Safe root start policy (declaredDirs entries)) (body x)
        (fun _ => Safe root start policy (declaredDirs entries))
        (Safe root start policy (declaredDirs entries))) →
      Triple (Safe root start policy (declaredDirs entries)) (xs.forM body)
        (fun _ => Safe root start policy (declaredDirs entries)) (Safe root start policy []) := by
    intro xs body h
    exact Triple.forM (I := fun _ => Safe root start policy (declaredDirs entries)) xs
      fun done x rest hx => (h x (mem hx)).conseq (fun _ hw => hw) (fun _ _ hw => hw)
        fun _ hw => hw.fewer
  refine Triple.bind (Triple.forM
    (I := fun done => Safe root start policy (declaredDirs done)) entries
    fun done x rest hx => ?_) fun _ => ?_
  · refine (makeDirectory_safe (ok.paths x (mem hx))).post fun _ w hw => ?_
    simpa [declaredDirs] using hw
  refine (each fun x hx => makeContent_safe ok hx).bind fun _ => ?_
  refine (each fun x hx => makeSymlink_safe ok hlinks hx).bind fun _ => ?_
  refine (each fun x hx => ?_).post fun _ _ hw => hw.fewer
  exact finishDirectory_safe ok (List.mem_reverse.mp hx)

end Safe

theorem materialization_confined {th : TreeHash} {index : TreeIndex} {fs : Fs} {dest root : Path}
    (hv : index.validate th = .ok ()) (hroot : fs.canonicalize dest = some root)
    (hdir : fs.obj root = some .dir) (store : ContentStore) (policy : MaterializePolicy)
    (hlinks : policy.replaceDirectories = false ∨ LinksApart index.entries)
    (io : Nat → KernelReply) {w : World}
    (hw : w = (reconstructTree th dest index.entries store policy io 0 ⟨fs, []⟩).2.2)
    (hclear : ∀ s ∈ w.log, s.Cleared root) :
    (∀ s ∈ w.log, s.Within root) ∧ ∀ q, ¬root <+: q → w.fs.look q = fs.look q := by
  have start : Safe root fs policy [] ⟨fs, []⟩ :=
    ⟨hdir, fun _ => ⟨by simp, fun _ _ => rfl, ⟨by simp, by simp, by simp⟩⟩⟩
  have run : Triple (· = ⟨fs, []⟩) (reconstructTree th dest index.entries store policy)
      (fun _ => Safe root fs policy []) (Safe root fs policy []) :=
    triple_destination (m := fun root => materializeUnder th store policy root index.entries)
      hroot hdir start start (materializeUnder_safe (TreeIndex.validate_ok hv) hlinks)
  have safe := run.final io 0 rfl
  subst hw
  have g := safe.guard hclear
  exact ⟨g.within, g.outside⟩

def singleRoot : Hash :=
  ⟨[0x95, 0xad, 0xd0, 0x5f, 0x87, 0x7e, 0x09, 0x1e, 0xdf, 0xab, 0x7f, 0x50, 0x30, 0x8d, 0xd7, 0x11,
    0xea, 0x38, 0x70, 0x50, 0xa7, 0x0a, 0xb6, 0x27, 0x01, 0x94, 0xf0, 0xe6, 0x9f, 0xb6, 0xd8, 0x25],
    by decide⟩

def singleTree : TreeHash :=
  knownTree [0x03, 0x06, 0x62, 0x6c, 0x61, 0x6b, 0x65, 0x33, 0x01, 0x01, 0x01, 0x66, 0xa4, 0x03,
    0x00, 0x00] singleRoot

def singleIndex : TreeIndex := sampleIndex [.file "f" 0o644 0 0 []] singleRoot

def linkedFs : Fs := (do
  let fs ← Fs.top.addDir ["dst"]
  let fs ← fs.addFile ["out"]
  (fs.setData 0 [97, 98, 99]).add ["dst", "f"] (.symlink "/out")).getD Fs.top

def singleRun (io : Nat → KernelReply) : Except BlobError Unit × Nat × World :=
  reconstructTree singleTree ["dst"] singleIndex.entries shortStore
    ⟨false, false⟩ io 0 ⟨linkedFs, []⟩

def Step.fresh (s : Step) : Bool :=
  match s.call with
  | .create p => s.before.obj p = none
  | _ => true

theorem Step.cleared_of_fresh {root : Path} {s : Step} (h : s.fresh = true) : s.Cleared root := by
  intro p hp
  have hnone : s.before.obj p = none := by simpa [Step.fresh, hp] using h
  simp [hnone]

theorem materialization_confined_link :
    (∀ s ∈ (singleRun (failing [])).2.2.log, s.Within ["dst"]) ∧
      ∀ q, ¬["dst"] <+: q → (singleRun (failing [])).2.2.fs.look q = linkedFs.look q := by
  refine materialization_confined (show singleIndex.validate singleTree = .ok () by decide +kernel)
    (by decide +kernel) (by decide +kernel) shortStore ⟨false, false⟩
      (.inl rfl) (failing []) rfl fun s hs => ?_
  have hall : (singleRun (failing [])).2.2.log.all Step.fresh = true := by decide +kernel
  exact Step.cleared_of_fresh (List.all_eq_true.mp hall s hs)

/-- The link cannot be unlinked, `File::create` follows it, and the file outside is emptied. -/
theorem create_follows_leftover_link :
    singleIndex.validate singleTree = .ok () ∧ linkedFs.canonicalize ["dst"] = some ["dst"] ∧
      (singleRun (failing [4])).1 = .ok () ∧
      ¬(∀ s ∈ (singleRun (failing [4])).2.2.log, s.Within ["dst"]) ∧
      linkedFs.data 0 = [97, 98, 99] ∧ (singleRun (failing [4])).2.2.fs.data 0 = [] := by
  refine ⟨by decide +kernel, by decide +kernel, by decide +kernel, fun hin => ?_, by decide +kernel,
    by decide +kernel⟩
  have hany : ((singleRun (failing [4])).2.2.log.any fun s =>
      match s.call with
      | .create p => s.before.resolve true p = some ["out"]
      | _ => false) = true := by decide +kernel
  obtain ⟨s, hs, htouch⟩ := List.any_eq_true.mp hany
  have hwithin := hin s hs ["out"]
  split at htouch
  · rename_i p hcall
    rw [hcall] at hwithin
    exact absurd (hwithin ⟨["out"], by simpa using htouch, .inl rfl⟩) (by decide)
  · cases htouch

end Zblob

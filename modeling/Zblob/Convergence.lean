import Zblob.Finishing

/-!
Running a materialization again. A second run over what a first one left comes to the same
tree exactly when the modes the first one set leave the owner a way in; after a first run
that stopped early no directory has its mode yet, and the second run does what one run into
the empty destination does.
-/

set_option autoImplicit false

namespace Zblob

open Program

theorem searchFrom_same {fs fs' : Fs} {follow : Bool}
    {jump jump' : Path → List Component → Option Path}
    (hobj : ∀ q, fs.obj q ≠ none → fs'.obj q = fs.obj q)
    (hmode : ∀ q, fs.obj q = some .dir → fs'.mode (.dir q) = fs.mode (.dir q))
    (hjump : ∀ p comps r, fs.obj p = some .dir → fs.obj r ≠ none → jump p comps = some r →
      jump' p comps = some r) {cur r :
      Path} {comps : List Component} (hcur : fs.obj cur = some .dir)
    (hr : fs.obj r ≠ none) (h : searchFrom fs follow jump cur comps = some r) :
    searchFrom fs' follow jump' cur comps = some r := by
  induction comps generalizing cur with
  | nil => simpa [searchFrom] using h
  | cons c rest ih =>
    cases c with
    | rootDir => exact ih (Fs.dir_of_dir hcur List.nil_prefix) h
    | curDir =>
      simp only [searchFrom, hmode cur hcur, Option.ite_none_right_eq_some] at h ⊢
      exact ⟨h.1, ih hcur h.2⟩
    | parentDir =>
      simp only [searchFrom, hmode cur hcur, Option.ite_none_right_eq_some] at h ⊢
      exact ⟨h.1, ih (Fs.dir_of_dir hcur (List.dropLast_prefix cur)) h.2⟩
    | normal name =>
      simp only [searchFrom, hmode cur hcur, Option.ite_none_right_eq_some] at h ⊢
      refine ⟨h.1, ?_⟩
      have h := h.2
      cases ho : fs.obj (cur ++ [name]) with
      | none =>
        simp only [ho, Option.ite_none_right_eq_some, Option.some.injEq] at h
        exact absurd (h.2 ▸ ho) hr
      | some x =>
        rw [hobj _ (by rw [ho]; simp), ho]
        cases x with
        | file ino => simpa [ho] using h
        | dir => exact ih ho (by simpa [ho] using h)
        | symlink target =>
          simp only [ho] at h ⊢
          split at h
          · rename_i hlast
            rwa [if_pos hlast]
          · rename_i hlast
            rw [if_neg hlast]
            exact hjump _ _ _ hcur hr h

theorem search_same {fs fs' : Fs} {follow : Bool} {hops : Nat} {cur r : Path}
    {comps : List Component}
    (hobj : ∀ q, fs.obj q ≠ none → fs'.obj q = fs.obj q)
    (hmode : ∀ q, fs.obj q = some .dir → fs'.mode (.dir q) = fs.mode (.dir q))
    (hcur : fs.obj cur = some .dir) (hr : fs.obj r ≠ none)
    (h : search fs follow hops cur comps = some r) :
    search fs' follow hops cur comps = some r := by
  induction hops generalizing cur comps r with
  | zero => exact searchFrom_same hobj hmode (fun _ _ _ _ _ hj => by cases hj) hcur hr h
  | succ hops ih => exact searchFrom_same hobj hmode (fun _ _ _ hp hr hj => ih hp hr hj) hcur hr h

theorem owner_destination {fs : Fs} {dest root : Path} {k : Path → FsProg Unit}
    {Q : Unit → World → Prop}
    {E : World → Prop} (hreach : fs.reach true dest = some root) (hdir : fs.obj root = some .dir)
    (hk : Triple (fun w => w.fs = fs) (k root) Q E) :
    Triple (fun w => w.fs = fs) (do
      Kernel.owner.createDirAll dest
      match ← Kernel.owner.ask (.look true dest) (·.canonicalize dest) with
      | .error _ => Prog.fail .io
      | .ok root => k root) Q E := by
  have hresolve := Fs.reach_resolve hreach
  have granted : fs.grants (.look true dest) = true := by simp [Fs.grants, hreach]
  refine Triple.bind (Q := fun _ w => w.fs = fs) ?_ fun _ => ?_
  · refine Triple.bind (Q := fun found w => found = .ok (some .dir) ∧ w.fs = fs)
      (owner_ask (by simp) (fun w x hw hx _ => ⟨?_, hw⟩) fun w text hw hno => ?_) fun found =>
        Triple.of_pre fun hfound => ?_
    · subst hw
      simpa [Fs.stat, hresolve, hdir] using hx.symm
    · subst hw
      simp [granted] at hno
    · subst hfound
      exact Triple.ret fun _ hw => hw
  · refine Triple.bind (Q := fun found w => found = .ok root ∧ w.fs = fs)
      (owner_ask (by simp) (fun w x hw hx _ => ⟨?_, hw⟩) fun w text hw hno => ?_) fun found =>
        Triple.of_pre fun hfound => ?_
    · subst hw
      simpa [Fs.canonicalize, hresolve, hdir] using hx.symm
    · subst hw
      simp [granted, Fs.canonicalize, hresolve, hdir] at hno
    · subst hfound
      exact hk

namespace Job

variable (j : Job)

def run (dest : Path) (io : Nat → KernelReply) (fs : Fs) : Except BlobError Unit × Nat × World :=
  Kernel.owner.reconstructTree j.th dest j.entries j.map.asStore j.policy io 0 ⟨fs, []⟩

def stock (map : ChunkMap) : Job := { j with map := map }

structure Empty (dest : Path) (fs : Fs) : Prop where
  canonical : fs.canonicalize dest = some j.root
  dir : fs.obj j.root = some .dir
  empty : ∀ q, q ≠ [] → fs.obj (j.root ++ q) = none

end Job

section Runs

variable {j : Job} {dest : Path} {fs after : Fs} {io : Nat → KernelReply} {m : ChunkMap}

theorem Job.run_ends (hstart : j.Opens fs) (hreach : fs.reach true dest = some j.root)
    (io : Nat → KernelReply) :
    (j.run dest io fs).1 = .ok () ∧ j.Complete fs (j.run dest io fs).2.2.fs ∨
      (∃ e, (j.run dest io fs).1 = .error e) ∧ j.Stuck fs (j.run dest io fs).2.2 := by
  have ends : Ends (fun _ w => j.Complete fs w.fs) (j.Stuck fs) (j.run dest io fs) :=
    owner_destination hreach hstart.remains.anchored
      (k := fun root => Kernel.owner.materializeUnder j.th j.map.asStore j.policy root j.entries)
      (owner_run hstart) io 0 ⟨fs, []⟩ rfl
  generalize j.run dest io fs = out at ends ⊢
  obtain ⟨r, n, w⟩ := out
  cases r with
  | ok u => exact .inl ⟨rfl, ends⟩
  | error e => exact .inr ⟨⟨e, rfl⟩, ends⟩

theorem Job.run_ok_iff (hstart : j.Opens fs) (hreach : fs.reach true dest = some j.root)
    (io : Nat → KernelReply) : (j.run dest io fs).1 = .ok () ↔ j.Ready fs := by
  rcases j.run_ends hstart hreach io with ⟨hok, hc⟩ | ⟨⟨e, he⟩, hs⟩
  · exact ⟨fun _ => hc.ready, fun _ => hok⟩
  · refine ⟨fun hok => ?_, fun hready => absurd hready hs.2.2⟩
    rw [he] at hok
    cases hok

theorem Job.run_complete (hstart : j.Opens fs) (hreach : fs.reach true dest = some j.root)
    (hready : j.Ready fs) (io : Nat → KernelReply) : j.Complete fs (j.run dest io fs).2.2.fs := by
  rcases j.run_ends hstart hreach io with ⟨-, hc⟩ | ⟨-, hs⟩
  · exact hc
  · exact absurd hready hs.2.2

theorem Job.run_unreached (hreach : fs.reach true dest = none) :
    (j.run dest io fs).1 = .error .io := by
  simp [Job.run, Kernel.reconstructTree, Kernel.createDirAll, Kernel.ask, bind, Prog.seq, Prog.act,
    Kernel.owner, Fs.grants, hreach, Prog.fail]

theorem Job.Empty.reach {r : Path} (h : j.Empty dest fs) (hreach : fs.reach true dest = some r) :
    r = j.root := by
  have hc := h.canonical
  simp only [Fs.canonicalize, Fs.reach_resolve hreach, Option.bind_some] at hc
  split at hc
  · cases hc
  · exact Option.some.inj hc

theorem Job.Empty.free {e : Entry} (h : j.Empty dest fs) (he : e ∈ j.entries) :
    fs.obj (j.place e) = none := h.empty e.rel (j.ok.rel_ne_nil he)

theorem Job.Empty.below {q : Path} {name : String} (h : j.Empty dest fs) (hq : j.root <+: q) :
    fs.obj (q ++ [name]) = none := by
  obtain ⟨r, rfl⟩ := hq
  rw [List.append_assoc]
  exact h.empty _ (by simp)

theorem Job.Empty.stock (h : j.Empty dest fs) : (j.stock m).Empty dest fs :=
  ⟨h.canonical, h.dir, h.empty⟩

theorem Job.Empty.opens (h : j.Empty dest fs) (hreach : fs.reach true dest = some j.root) :
    j.Opens fs := by
  have nothing : ∀ {e : Entry} {x : Obj}, e ∈ j.entries → fs.obj (j.place e) ≠ some x := by
    intro e x he ho
    rw [h.free he] at ho
    cases ho
  refine ⟨⟨h.dir, fun q x hq ho => ?_, fun _ _ _ _ _ _ he _ ho => absurd ho (nothing he),
    fun _ ha _ _ _ _ _ hao _ => absurd hao (nothing ha),
    fun _ _ _ _ _ _ he _ _ ho _ => absurd ho (nothing he)⟩, fun q hq hne => ?_⟩
  · rw [h.empty q hq] at ho
    cases ho
  · rw [Fs.dirBits, if_pos (Fs.dir_of_dir h.dir hq)]
    exact Fs.reach_passable hreach q hq hne

/-- What stood before the first run still stands, as it was. -/
structure Job.Untouched (j : Job) (fs after : Fs) : Prop where
  remains : j.Remains after
  obj : ∀ q, fs.obj q ≠ none → after.obj q = fs.obj q
  mode : ∀ q, fs.obj q = some .dir → after.mode (.dir q) = fs.mode (.dir q)

theorem Job.Untouched.reach (h : j.Untouched fs after) (hdir : fs.obj j.root = some .dir)
    (hreach : fs.reach true dest = some j.root) : after.reach true dest = some j.root :=
  search_same h.obj h.mode (Fs.dir_of_dir hdir List.nil_prefix) (by rw [hdir]; simp) hreach

theorem Job.Untouched.opens (h : j.Untouched fs after) (hopens : j.Opens fs) :
    (j.stock m).Opens after := by
  refine ⟨⟨h.remains.anchored, h.remains.traced, h.remains.plain,
    h.remains.distinct, h.remains.links⟩,
    fun q hq hne => ?_⟩
  have hdir := Fs.dir_of_dir hopens.remains.anchored hq
  have hbits := hopens.reached q hq hne
  rw [Fs.dirBits, if_pos hdir, ← h.mode q hdir] at hbits
  rwa [Fs.dirBits, if_pos ((h.obj q (by rw [hdir]; simp)).trans hdir)]

theorem Job.Empty.since {q : Path} (h : j.Empty dest fs) (hs : j.Since fs after)
    (hq : fs.obj q ≠ none) :
    after.obj q = fs.obj q := by
  by_cases hin : j.root <+: q
  · obtain ⟨r, rfl⟩ := hin
    have hr : r = [] := by
      by_contra hne
      exact hq (h.empty r hne)
    subst hr
    rw [List.append_nil, h.dir]
    exact hs.dirs _ h.dir
  · exact hs.outside q hin

theorem Job.Stuck.untouched {w : World} (h : j.Stuck fs w) (hempty : j.Empty dest fs) :
    j.Untouched fs w.fs :=
  ⟨h.1, fun _ hq => hempty.since h.2.1 hq, fun q hq =>
    (h.2.1.mode (h.2.1.dirs q hq)).trans (if_pos hq)⟩

theorem Job.Complete.untouched (h : j.Complete fs after) (hempty : j.Empty dest fs) :
    j.Untouched fs after := by
  obtain ⟨mid, hmid, hfin⟩ := h.mid
  refine ⟨h.whole.remains, fun q hq => ?_, fun q hq => ?_⟩
  · rw [hfin.obj]
    exact hempty.since hmid.since hq
  · rw [h.mode (h.dirs hq), Job.lastModes_untouched, Fs.dirBits, if_pos hq]
    intro d hd _ heq
    rw [← heq, hempty.free (List.mem_reverse.mp hd)] at hq
    cases hq

end Runs

section Stopped

variable {j : Job} {dest : Path} {fs after : Fs} {e : Entry} {m : ChunkMap}

theorem Job.Since.clear_iff {p : Path} (h : j.Since fs after) : after.Clear p ↔ fs.Clear p := by
  simp only [Fs.Clear, h.bits]

theorem Job.Since.made {q : Path} {name : String} (h : j.Since fs after) (hempty : j.Empty dest fs)
    (hq : j.root <+: q) (ho : after.obj (q ++ [name]) ≠ none) : ownerWrite (fs.dirBits q) = true :=
  (h.placed q name hq ho).resolve_left (not_not.mpr (hempty.below hq))

theorem Job.Since.room_iff (h : j.Since fs after) (hempty : j.Empty dest fs) (he : e ∈ j.entries) :
    j.Room after e ↔ j.Room fs e := by
  simp only [Job.Room, h.bits]
  constructor
  · rintro (hopen | ⟨-, ino, ho, -⟩)
    · exact .inl hopen
    · have hne : j.place e ≠ [] := by simp [Job.place, j.ok.rel_ne_nil he]
      have hlaid : after.obj ((j.place e).dropLast ++ [(j.place e).getLast hne]) ≠ none := by
        rw [List.dropLast_append_getLast, ho]
        simp
      exact .inl (h.made hempty (Job.root_parent he) hlaid)
  · rintro (hopen | ⟨-, ino, ho, -⟩)
    · exact .inl hopen
    · rw [hempty.free he] at ho
      cases ho

theorem Job.Since.ready_iff (h : j.Since fs after) (hempty : j.Empty dest fs) :
    (j.stock m).Ready after ↔ (j.stock m).Ready fs := by
  constructor
  · intro hready
    refine ⟨hready.apart, fun e he => ?_, fun e he q name hpre _ => ?_⟩
    · have fits := hready.fits e he
      exact ⟨h.clear_iff.mp fits.search, fun hplain => (h.room_iff hempty he).mp (fits.room hplain),
        fits.stocked, fits.linked⟩
    · by_cases hnone : after.obj (j.root ++ q ++ [name]) = none
      · have hmade := hready.made e he q name hpre hnone
        rwa [h.bits] at hmade
      · exact h.made hempty (List.prefix_append _ _) hnone
  · intro hready
    refine ⟨hready.apart, fun e he => ?_, fun e he q name hpre _ => ?_⟩
    · have fits := hready.fits e he
      exact ⟨h.clear_iff.mpr fits.search, fun hplain =>
        (h.room_iff hempty he).mpr (fits.room hplain),
        fits.stocked, fits.linked⟩
    · rw [h.bits]
      exact hready.made e he q name hpre (hempty.below (List.prefix_append _ _))

end Stopped

/-- The modes of the entries leave an owner the ways it needs to lay the same entries again. -/
structure Job.Reopens (j : Job) (fs : Fs) : Prop where
  search : ∀ path mode mtime, .dir path mode mtime ∈ j.entries → j.policy.bits mode ≠ 0 →
    ∀ e ∈ j.entries, (Entry.dir path mode mtime).rel <+: e.rel →
    (Entry.dir path mode mtime).rel ≠ e.rel →
      ownerSearch (j.policy.bits mode) = true
  write : ∀ path mode mtime, .dir path mode mtime ∈ j.entries → j.policy.bits mode ≠ 0 →
    ∀ e ∈ j.entries, e.isDir = false → e.rel.dropLast = (Entry.dir path mode mtime).rel →
      ownerWrite (j.policy.bits mode) = true ∨ ∃ p fmode ftime size chunks,
        e = .file p fmode ftime size chunks ∧ ownerWrite (j.fileBits fs fmode) = true

section Ended

variable {j : Job} {dest : Path} {fs after : Fs} {e : Entry}

theorem Job.lastModes_cases (M : Path → UInt32) (entries : List Entry) (q : Path) :
    j.lastModes M entries q = M q ∨ ∃ path mode mtime,
    .dir path mode mtime ∈ entries ∧ q = j.place (.dir path mode mtime) ∧ j.policy.bits mode ≠ 0 ∧
      j.lastModes M entries q = j.policy.bits mode := by
  induction entries generalizing M with
  | nil => exact .inl rfl
  | cons e entries ih =>
    rcases ih (j.lastMode M e) with h | ⟨path, mode, mtime, hmem, hrest⟩
    · have hstep : j.lastModes M (e :: entries) q = j.lastMode M e q := h
      cases e with
      | file path mode mtime size chunks => exact .inl hstep
      | symlink path target => exact .inl hstep
      | hardlink path target => exact .inl hstep
      | dir path mode mtime =>
        rw [hstep]
        simp only [Job.lastMode]
        split
        · rename_i hc
          exact .inr ⟨path, mode, mtime, List.mem_cons_self, hc.1, hc.2.1, rfl⟩
        · exact .inl rfl
    · exact .inr ⟨path, mode, mtime, List.mem_cons_of_mem _ hmem, hrest⟩

theorem reachable_iff {p : Path} : reachable fs.dirBits p = true ↔ fs.Clear p := by
  simp only [reachable, List.all_eq_true, List.mem_inits, Bool.or_eq_true, beq_iff_eq, Fs.Clear]
  exact forall_congr' fun q => forall_congr' fun _ => or_iff_not_imp_left

theorem Job.Complete.dirBits (h : j.Complete fs after) :
    after.dirBits = j.lastModes fs.dirBits j.entries.reverse := by
  funext q
  by_cases hq : after.obj q = some .dir
  · rw [Fs.dirBits, if_pos hq, h.mode hq]
  · have hstart : fs.obj q ≠ some .dir := fun hs => hq (h.dirs hs)
    rw [Job.lastModes_untouched, Fs.dirBits, if_neg hq, Fs.dirBits, if_neg hstart, h.umask]
    intro d hd hisDir heq
    obtain ⟨x, ho, hm⟩ := (h.whole.stood d (List.mem_reverse.mp hd)).obj
    rw [heq, hm.ofDir hisDir] at ho
    exact hq ho

theorem Job.nodup_places : (j.entries.reverse.map j.place).Nodup := by
  rw [List.map_reverse, List.nodup_reverse]
  have hrels := List.Nodup.map (fun a b h => List.append_cancel_left h) j.ok.distinct
    (f := fun rel => j.root ++ rel)
  rwa [List.map_map] at hrels

theorem Job.Ready.reachable (h : j.Ready fs) (he : e ∈ j.entries) :
    reachable fs.dirBits (j.place e) = true := reachable_iff.mpr (h.fits e he).search

theorem Job.Complete.sets {path : String} {mode : UInt32} {mtime : Int64} (h : j.Complete fs after)
    (hready : j.Ready after) (he : .dir path mode mtime ∈ j.entries)
    (hbits : j.policy.bits mode ≠ 0) :
    after.dirBits (j.place (.dir path mode mtime)) = j.policy.bits mode := by
  rw [h.dirBits]
  refine Job.lastModes_sets j.nodup_places
    (fun d hd _ => h.ready.reachable (List.mem_reverse.mp hd))
    (fun d hd _ => ?_) (List.mem_reverse.mpr he) hbits
  rw [← h.dirBits]
  exact hready.reachable (List.mem_reverse.mp hd)

theorem Job.Complete.reopens (h : j.Complete fs after) (hready : j.Ready after) : j.Reopens fs := by
  refine ⟨fun path mode mtime hd hbits e he hpre hne => ?_,
    fun path mode mtime hd hbits e he hplain hparent => ?_⟩
  · rw [← h.sets hready hd hbits]
    exact (hready.fits e he).search _ ((List.prefix_append_right_inj j.root).mpr hpre)
      fun heq => hne (List.append_cancel_left heq)
  · have hplace : (j.place e).dropLast = j.place (.dir path mode mtime) := by
      rw [Job.place_dropLast he, hparent]
      rfl
    rcases (hready.fits e he).room hplain with hopen | ⟨hfile, ino, ho, hwrite⟩
    · rw [hplace, h.sets hready hd hbits] at hopen
      exact .inl hopen
    · cases e with
      | dir path mode mtime => cases hfile
      | symlink path target => cases hfile
      | hardlink path target => cases hfile
      | file p fmode ftime size chunks =>
        refine .inr ⟨p, fmode, ftime, size, chunks, rfl, ?_⟩
        obtain ⟨i, hi, -, hmode⟩ := h.whole.stood _ he
        cases hi.symm.trans ho
        rw [hmode, Job.fileBits, h.umask] at hwrite
        exact hwrite

theorem Job.Reopens.ready (hre : j.Reopens fs) (h : j.Complete fs after)
    (hempty : j.Empty dest fs) :
    j.Ready after := by
  refine ⟨h.ready.apart, fun e he =>
    ⟨fun q hq hne => ?_, fun hplain => ?_, (h.ready.fits e he).stocked,
    (h.ready.fits e he).linked⟩, fun e he q name hpre hnone => ?_⟩
  · rw [h.dirBits]
    rcases j.lastModes_cases fs.dirBits j.entries.reverse q with
      hsame | ⟨path, mode, mtime, hd, rfl, hbits, hset⟩
    · rw [hsame]
      exact (h.ready.fits e he).search q hq hne
    · rw [hset]
      exact hre.search path mode mtime (List.mem_reverse.mp hd) hbits e he
        ((List.prefix_append_right_inj j.root).mp hq) fun heq => hne (congrArg (j.root ++ ·) heq)
  · have hfirst : ownerWrite (fs.dirBits (j.place e).dropLast) = true := by
      refine ((h.ready.fits e he).room hplain).resolve_right ?_
      rintro ⟨-, ino, ho, -⟩
      rw [hempty.free he] at ho
      cases ho
    rw [Job.Room, h.dirBits]
    rcases j.lastModes_cases fs.dirBits j.entries.reverse (j.place e).dropLast with
      hsame | ⟨path, mode, mtime, hd, hplace, hbits, hset⟩
    · rw [hsame]
      exact .inl hfirst
    · rw [Job.place_dropLast he] at hplace
      rcases hre.write path mode mtime (List.mem_reverse.mp hd) hbits e he hplain
        (List.append_cancel_left hplace) with hopen | ⟨p, fmode, ftime, size, chunks, rfl, hopen⟩
      · rw [hset]
        exact .inl hopen
      · obtain ⟨i, hi, -, hmode⟩ := h.whole.stood _ he
        refine .inr ⟨rfl, i, hi, ?_⟩
        rwa [hmode, Job.fileBits, h.umask]
  · obtain ⟨x, ho, -⟩ := (h.whole.stood e he).obj
    rw [List.append_assoc] at hnone
    by_cases heq : q ++ [name] = e.rel
    · rw [heq] at hnone
      rw [Job.place, hnone] at ho
      cases ho
    · rw [h.whole.dirAbove he hpre heq] at hnone
      cases hnone

theorem Job.Complete.again (h : j.Complete fs after) (hready : j.Ready after) :
    j.lastModes after.dirBits j.entries.reverse = j.lastModes fs.dirBits j.entries.reverse := by
  rw [h.dirBits, Job.lastModes_again j.nodup_places]
  · exact fun d hd _ => h.ready.reachable (List.mem_reverse.mp hd)
  · intro d hd _
    rw [← h.dirBits]
    exact hready.reachable (List.mem_reverse.mp hd)

end Ended

section Stock

variable {j : Job} {fs start after : Fs} {e : Entry} {m before : ChunkMap} {s done : List Entry}

theorem HasChunk.more {th : TreeHash} {c : ChunkRef} (h : HasChunk th before c)
    (hm : ∀ hash bytes, before hash = some bytes → m hash = some bytes) : HasChunk th m c := by
  obtain ⟨piece, hget, hrest⟩ := h
  exact ⟨piece, hm _ _ hget, hrest⟩

theorem contentOf_more {th : TreeHash} {chunks : List ChunkRef}
    (h : ∀ c ∈ chunks, HasChunk th before c)
    (hm : ∀ hash bytes, before hash = some bytes → m hash = some bytes) :
    contentOf m chunks = contentOf before chunks := by
  refine congrArg List.flatten (List.map_congr_left fun c hc => ?_)
  obtain ⟨piece, hget, -⟩ := h c hc
  rw [hget, hm _ _ hget]

variable (hm : ∀ hash bytes, j.map hash = some bytes → m hash = some bytes)
include hm

theorem Job.Stocked.more (h : j.Stocked e) : (j.stock m).Stocked e := by
  cases e with
  | dir path mode mtime => trivial
  | symlink path target => trivial
  | hardlink path target => trivial
  | file path mode mtime size chunks =>
    refine ⟨fun c hc => (h.1 c hc).more hm, ?_⟩
    rw [← h.2]
    exact congrArg List.length (contentOf_more h.1 hm)

theorem Job.Fits.more (h : j.Fits start e) : (j.stock m).Fits start e :=
  ⟨h.search, h.room, h.stocked.more hm, h.linked⟩

theorem Job.Ready.more (h : j.Ready start) : (j.stock m).Ready start :=
  ⟨h.apart, fun e he => (h.fits e he).more hm, h.made⟩

theorem Job.Stood.more (h : j.Stood done fs e) (hstocked : j.Stocked e) :
    (j.stock m).Stood done fs e := by
  cases e with
  | dir path mode mtime => exact h
  | symlink path target => exact h
  | hardlink path target => exact h
  | file path mode mtime size chunks =>
    obtain ⟨ino, ho, hdata, hmode⟩ := h
    exact ⟨ino, ho, hdata.trans (contentOf_more hstocked.1 hm).symm, hmode⟩

theorem Job.Between.more (h : j.Between start s done fs) : (j.stock m).Between start s done fs := by
  have hr := h.remains
  have hs := h.since
  refine ⟨⟨hr.anchored, hr.traced, hr.plain, hr.distinct, hr.links⟩,
    ⟨hs.umask, hs.dirs, hs.bits, hs.placed, hs.outside⟩, fun a ha hplain hnew => ?_,
    fun a ha => (h.stood a ha).more hm (h.fits a ha).stocked,
    fun a ha => (h.fits a ha).more hm, h.known⟩
  have hk := h.kept a ha hplain hnew
  exact ⟨hk.stays, hk.back, hk.mode⟩

theorem Job.Complete.more (h : j.Complete fs after) : (j.stock m).Complete fs after := by
  obtain ⟨mid, hmid, hfin⟩ := h.mid
  exact ⟨h.ready.more hm, mid, hmid.more hm, hfin⟩

end Stock

def TreeIndex.job (index : TreeIndex) (th : TreeHash) (hv : index.validate th = .ok ())
    (policy : MaterializePolicy) (hkeep : policy.replaceDirectories = false) (map : ChunkMap)
    (root : Path) : Job :=
  ⟨th, map, policy, root, index.entries, index.cdc, TreeIndex.validate_ok hv, hkeep⟩

/-- The second run ends well. It leaves what one run with all the chunks leaves in the empty
destination, and what the first run has left if that ended well. -/
structure Converges (root : Path) (first second whole : Except BlobError Unit × Nat × World) :
    Prop where
  ends : second.1 = .ok ()
  whole : whole.1 = .ok () ∧ SameTree root whole.2.2.fs second.2.2.fs
  same : first.1 = .ok () → SameTree root first.2.2.fs second.2.2.fs

section Twice

variable {j : Job} {dest : Path} {fs : Fs} {m : ChunkMap}

theorem Job.twice_ended (hempty : j.Empty dest fs) (hreach : fs.reach true dest = some j.root)
    (hm : ∀ hash bytes, j.map hash = some bytes → m hash = some bytes)
    (io io' io'' : Nat → KernelReply)
    (hok : (j.run dest io fs).1 = .ok ()) :
    Converges j.root (j.run dest io fs) ((j.stock m).run dest io' (j.run dest io fs).2.2.fs)
      ((j.stock m).run dest io'' fs) ↔ (j.stock m).Reopens fs := by
  have hopens := hempty.opens hreach
  have hempty' : (j.stock m).Empty dest fs := hempty.stock
  have hfirst := j.run_complete hopens hreach ((j.run_ok_iff hopens hreach io).mp hok) io
  have hun := hfirst.untouched hempty
  have hsecond := hun.opens (m := m) hopens
  have hreach' := hun.reach hempty.dir hreach
  have hlaid := hfirst.more hm
  constructor
  · intro h
    exact hlaid.reopens (((j.stock m).run_ok_iff hsecond hreach' io').mp h.ends)
  · intro hre
    have hready := hre.ready hlaid hempty'
    have hagain := (j.stock m).run_complete hsecond hreach' hready io'
    have hone := (j.stock m).run_complete (hempty'.opens hreach) hreach hlaid.ready io''
    refine ⟨((j.stock m).run_ok_iff hsecond hreach' io').mpr hready,
      ⟨((j.stock m).run_ok_iff (hempty'.opens hreach) hreach io'').mpr hlaid.ready, ?_⟩,
      fun _ => ?_⟩
    · exact hone.same hagain hlaid.umask.symm (hlaid.again hready).symm
    · exact hlaid.same hagain hlaid.umask.symm (hlaid.again hready).symm

theorem Job.twice_stopped (hempty : j.Empty dest fs) (hreach : fs.reach true dest = some j.root)
    (io io' io'' : Nat → KernelReply) {e : BlobError} (herr : (j.run dest io fs).1 = .error e) :
    Converges j.root (j.run dest io fs) ((j.stock m).run dest io' (j.run dest io fs).2.2.fs)
      ((j.stock m).run dest io'' fs) ↔ (j.stock m).Ready fs := by
  have hopens := hempty.opens hreach
  have hempty' : (j.stock m).Empty dest fs := hempty.stock
  have hfirst : j.Stuck fs (j.run dest io fs).2.2 := by
    rcases j.run_ends hopens hreach io with ⟨hok, -⟩ | ⟨-, hs⟩
    · rw [hok] at herr
      cases herr
    · exact hs
  have hun := hfirst.untouched hempty
  have hsecond := hun.opens (m := m) hopens
  have hreach' := hun.reach hempty.dir hreach
  have hiff : (j.stock m).Ready (j.run dest io fs).2.2.fs ↔ (j.stock m).Ready fs :=
    hfirst.2.1.ready_iff hempty
  constructor
  · intro h
    exact hiff.mp (((j.stock m).run_ok_iff hsecond hreach' io').mp h.ends)
  · intro hready
    have hagain := (j.stock m).run_complete hsecond hreach' (hiff.mpr hready) io'
    have hone := (j.stock m).run_complete (hempty'.opens hreach) hreach hready io''
    refine ⟨((j.stock m).run_ok_iff hsecond hreach' io').mpr (hiff.mpr hready),
      ⟨((j.stock m).run_ok_iff (hempty'.opens hreach) hreach io'').mpr hready, ?_⟩, fun hok => ?_⟩
    · exact hone.same hagain hfirst.2.1.umask.symm (by rw [funext hfirst.2.1.bits])
    · rw [hok] at herr
      cases herr

/-- Run again over what a first run into an empty destination has left, the same call
converges exactly when the modes of the entries leave a way in, if the first run ended, and
when the list can be laid out there at all, if it stopped at a missing chunk. -/
theorem rerun_converges_iff {th : TreeHash} {index : TreeIndex} {policy : MaterializePolicy}
    {root : Path} {before : ChunkMap} (hv : index.validate th = .ok ())
    (hkeep : policy.replaceDirectories = false) (hroot : fs.canonicalize dest = some root)
    (hdir : fs.obj root = some .dir) (hempty : ∀ q, q ≠ [] → fs.obj (root ++ q) = none)
    (hm : ∀ hash bytes, before hash = some bytes → m hash = some bytes)
    (io io' io'' : Nat → KernelReply)
    {first second whole : Except BlobError Unit × Nat × World}
    (hfirst : first = Kernel.owner.reconstructTree th dest index.entries
      before.asStore policy io 0 ⟨fs, []⟩)
    (hsecond : second =
      Kernel.owner.reconstructTree th dest index.entries m.asStore policy io' 0 ⟨first.2.2.fs, []⟩)
    (hwhole : whole = Kernel.owner.reconstructTree th dest index.entries
      m.asStore policy io'' 0 ⟨fs, []⟩) :
    (first.1 = .ok () →
      (Converges root first second whole ↔ (index.job th hv policy hkeep m root).Reopens fs)) ∧
    (∀ text, first.1 = .error (.notFound text) →
      (Converges root first second whole ↔ (index.job th hv policy hkeep m root).Ready fs)) := by
  subst hfirst hsecond hwhole
  let j := index.job th hv policy hkeep before root
  have hat : j.Empty dest fs := ⟨hroot, hdir, hempty⟩
  cases hreach : fs.reach true dest with
  | none =>
    have hio :
        (Kernel.owner.reconstructTree th dest index.entries before.asStore policy io 0 ⟨fs, []⟩).1 =
        .error .io := j.run_unreached hreach
    constructor
    · intro hok
      cases hio.symm.trans hok
    · intro text herr
      cases hio.symm.trans herr
  | some r =>
    obtain rfl := hat.reach hreach
    exact ⟨fun hok => j.twice_ended hat hreach hm io io' io'' hok,
      fun text herr => j.twice_stopped hat hreach io io' io'' herr⟩

end Twice

def shortMap : ChunkMap :=
  fun hash => if hash = shortHash [97, 98, 99] then some [97, 98, 99] else none

def readonlyRoot : Hash :=
  ⟨[0xd2, 0x96, 0x3b, 0x05, 0x02, 0x33, 0x3c, 0xd1, 0x06, 0x85, 0xaa, 0x05, 0xda, 0xe8, 0x58, 0x2b,
    0x16, 0xf1, 0xe5, 0xd9, 0x06, 0x95, 0xdd, 0x09, 0x34, 0xe1, 0x2b, 0x30, 0x1e, 0x33, 0x84, 0x92],
    by decide⟩

def readonlyTree : TreeHash :=
  knownTree [0x03, 0x06, 0x62, 0x6c, 0x61, 0x6b, 0x65, 0x33, 0x02, 0x00, 0x01, 0x64, 0xed, 0x02,
    0x01, 0x03, 0x64, 0x2f, 0x78, 0xa4, 0x02, 0x00, 0x00] readonlyRoot

def readonlyIndex : TreeIndex :=
  sampleIndex [.dir "d" 0o555 0, .file "d/x" 0o444 0 0 []] readonlyRoot

def ownerRun (th : TreeHash) (index : TreeIndex) (m : ChunkMap) (fs : Fs) :
    Except BlobError Unit × Nat × World :=
  Kernel.owner.reconstructTree th ["dst"] index.entries m.asStore
    ⟨false, false⟩ (failing []) 0 ⟨fs, []⟩

/-- The first run lays out the index; the same call again may neither replace the file nor
write it. -/
theorem readonly_rerun :
    readonlyIndex.validate readonlyTree = .ok () ∧ emptyDst.canonicalize ["dst"] = some ["dst"] ∧
      (∀ q, q ≠ [] → emptyDst.obj (["dst"] ++ q) = none) ∧
      (ownerRun readonlyTree readonlyIndex shortMap emptyDst).1 = .ok () ∧
      (ownerRun readonlyTree readonlyIndex shortMap
        (ownerRun readonlyTree readonlyIndex shortMap emptyDst).2.2.fs).1 = .error .io :=
  ⟨by decide +kernel, by decide +kernel, emptyDst_empty, by decide +kernel, by decide +kernel⟩

def fullJob : Job :=
  fullIndex.job fullTree (by decide +kernel) ⟨false, false⟩ rfl shortMap ["dst"]

theorem fullJob_empty : fullJob.Empty ["dst"] emptyDst :=
  ⟨by decide +kernel, by decide +kernel, emptyDst_empty⟩

theorem fullJob_reopens : fullJob.Reopens emptyDst := by
  have only : ∀ path mode mtime, .dir path mode mtime ∈ fullJob.entries → mode = 0o755 := by
    intro path mode mtime hd
    simp [fullJob, TreeIndex.job, fullIndex, sampleIndex] at hd
    exact hd.2.1
  refine ⟨fun path mode mtime hd _ _ _ _ _ => ?_, fun path mode mtime hd _ _ _ _ _ => .inl ?_⟩
  · rw [only path mode mtime hd]
    decide +kernel
  · rw [only path mode mtime hd]
    decide +kernel

theorem fullJob_ready : fullJob.Ready emptyDst := by
  have hreach : emptyDst.reach true ["dst"] = some ["dst"] := by decide +kernel
  exact (fullJob.run_ok_iff (fullJob_empty.opens hreach) hreach (failing [])).mp (by decide +kernel)

/-- Once with all the chunks, and once first without the one there is. -/
theorem rerun_converges_full :
    Converges ["dst"] (ownerRun fullTree fullIndex shortMap emptyDst)
        (ownerRun fullTree fullIndex shortMap
          (ownerRun fullTree fullIndex shortMap emptyDst).2.2.fs)
        (ownerRun fullTree fullIndex shortMap emptyDst) ∧
      Converges ["dst"] (ownerRun fullTree fullIndex (fun _ => none) emptyDst)
        (ownerRun fullTree fullIndex shortMap
          (ownerRun fullTree fullIndex (fun _ => none) emptyDst).2.2.fs)
        (ownerRun fullTree fullIndex shortMap emptyDst) := by
  have hv : fullIndex.validate fullTree = .ok () := by decide +kernel
  refine ⟨?_, ?_⟩
  · exact ((rerun_converges_iff hv rfl fullJob_empty.canonical fullJob_empty.dir fullJob_empty.empty
      (fun _ _ h => h) (failing []) (failing []) (failing []) rfl rfl rfl).1
        (by decide +kernel)).mpr
      fullJob_reopens
  · exact ((rerun_converges_iff hv rfl fullJob_empty.canonical fullJob_empty.dir fullJob_empty.empty
      (fun _ _ h => by cases h) (failing []) (failing []) (failing []) rfl rfl rfl).2
        (shortHash [97, 98, 99]).toHex
      (by decide +kernel)).mpr fullJob_ready

end Zblob

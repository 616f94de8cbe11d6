import Mathlib.Data.List.Infix
import Zblob.Turns

/-!
The last pass of an owner's run, which sets the modes of the directories from the bottom up,
and the tree that a whole run leaves. A mode is left as it is where a directory above has
been shut by then.
-/

set_option autoImplicit false

namespace Zblob

open Program

def reachable (M : Path → UInt32) (p : Path) : Bool :=
  p.inits.all fun q => q == p || ownerSearch (M q)

structure Finishing (mid : Fs) (M : Path → UInt32) (fs : Fs) : Prop where
  obj : fs.obj = mid.obj
  data : fs.data = mid.data
  umask : fs.umask = mid.umask
  files : ∀ ino, fs.mode (.file ino) = mid.mode (.file ino)
  dirs : ∀ q, mid.obj q = some .dir → fs.mode (.dir q) = M q

namespace Job

variable (j : Job)

def lastMode (M : Path → UInt32) : Entry → Path → UInt32
  | .dir path mode mtime => fun q =>
    if q = j.place (.dir path mode mtime) ∧ j.policy.bits mode ≠ 0 ∧
        reachable M (j.place (.dir path mode mtime)) = true then j.policy.bits mode
    else M q
  | _ => M

def lastModes (M : Path → UInt32) (entries : List Entry) : Path → UInt32 :=
  entries.foldl j.lastMode M

/-- What a whole run from `start` leaves. -/
structure Complete (start fs : Fs) : Prop where
  ready : j.Ready start
  mid : ∃ mid, j.Between start (passOrder j.entries) (passOrder j.entries) mid ∧
    Finishing mid (j.lastModes start.dirBits j.entries.reverse) fs

end Job

section Finish

variable {j : Job} {start mid fs : Fs} {s done : List Entry} {e : Entry} {M : Path → UInt32}

theorem Job.Stood.obj (h : j.Stood done fs e) : ∃ x, fs.obj (j.place e) = some x ∧ e.Makes x := by
  cases e with
  | dir path mode mtime => exact ⟨_, h, .dir⟩
  | symlink path target => exact ⟨_, h, .symlink⟩
  | file path mode mtime size chunks =>
    obtain ⟨ino, ho, -⟩ := h
    exact ⟨_, ho, .file⟩
  | hardlink path target =>
    obtain ⟨-, -, -, -, ino, ho, -⟩ := h
    exact ⟨_, ho, .hardlink⟩

theorem Job.Between.ready (h : j.Between start s done fs) (hall : ∀ e ∈ j.entries, e ∈ done) :
    j.Ready start := by
  refine ⟨fun a ha b hb hplain hpre => ?_, fun e he => h.fits e (hall e he),
    fun e he q name hpre hnone => ?_⟩
  · by_contra hne
    obtain ⟨x, hx, hm⟩ := (h.stood a (hall a ha)).obj
    obtain ⟨y, hy, -⟩ := (h.stood b (hall b hb)).obj
    have habove := Fs.dir_above (hy ▸ Option.some_ne_none y)
      ((List.prefix_append_right_inj j.root).mpr hpre) fun he => hne (List.append_cancel_left he)
    rw [Job.place, habove] at hx
    cases hx
    cases hm
    cases hplain
  · obtain ⟨x, hx, -⟩ := (h.stood e (hall e he)).obj
    have hthere : fs.obj (j.root ++ q ++ [name]) ≠ none := by
      by_cases heq : j.root ++ q ++ [name] = j.place e
      · rw [heq, hx]
        simp
      · have hup : j.root ++ q ++ [name] <+: j.place e := by
          rw [List.append_assoc]
          exact (List.prefix_append_right_inj j.root).mpr hpre
        rw [Fs.dir_above (hx ▸ Option.some_ne_none x) hup heq]
        simp
    exact (h.since.placed (j.root ++ q) name (List.prefix_append _ _) hthere).resolve_left
      (not_not.mpr hnone)

theorem Finishing.passable_iff {p : Path} (h : Finishing mid M fs) (hdir : mid.obj p = some .dir) :
    fs.Passable p ↔ reachable M p = true := by
  have same : ∀ q, q <+: p → fs.mode (.dir q) = M q := fun q hq => h.dirs q (Fs.dir_of_dir hdir hq)
  simp only [reachable, List.all_eq_true, List.mem_inits, Bool.or_eq_true, beq_iff_eq]
  constructor
  · intro hp q hq
    by_cases hne : q = p
    · exact .inl hne
    · exact .inr (same q hq ▸ hp q hq hne)
  · intro hr q hq hne
    exact same q hq ▸ (hr q hq).resolve_left hne

theorem owner_timeDirectory {p : Path} {mtime : Int64} {I : Fs → Prop} {E : World → Prop} :
    Triple (fun w => I w.fs) (Kernel.owner.timeDirectory p mtime) (fun _ w => I w.fs) E := by
  unfold Kernel.timeDirectory
  split
  · refine Triple.bind (Q := fun _ w => I w.fs)
      (owner_ask nofun (fun _ _ hw _ _ => hw) fun _ _ hw _ => hw)
      fun found => ?_
    cases found with
    | error text => exact Triple.ret fun _ hw => hw
    | ok f => exact owner_setMtime
  · exact Triple.ret fun _ hw => hw

theorem owner_finishDirectory {E : World → Prop} (he : e ∈ j.entries)
    (hstood : e.isDir = true → mid.obj (j.place e) = some .dir) :
    Triple (fun w => Finishing mid M w.fs) (Kernel.owner.finishDirectory j.policy j.root e)
      (fun _ w => Finishing mid (j.lastMode M e) w.fs) E := by
  cases e with
  | file path mode mtime size chunks => exact Triple.ret fun _ hw => hw
  | symlink path target => exact Triple.ret fun _ hw => hw
  | hardlink path target => exact Triple.ret fun _ hw => hw
  | dir path mode mtime =>
    have hdir := hstood rfl
    have hpath : sanitizeRelPath path = .ok (Entry.dir path mode mtime).rel := j.ok.paths _ he
    have here : ∀ {w : World}, Finishing mid M w.fs →
        w.fs.obj (j.place (.dir path mode mtime)) = some .dir := fun hw => hw.obj ▸ hdir
    simp only [Kernel.finishDirectory, hpath]
    refine (owner_timeDirectory (I := Finishing mid M)).bind fun _ => ?_
    refine owner_setMode (n := .dir (j.place (.dir path mode mtime)))
      (fun w hw => Fs.dir_of_dir (here hw) (List.dropLast_prefix _)) (fun w hw => ?_)
      (fun w hw hbits hp => ⟨hw.obj, hw.data, hw.umask, fun ino => ?_, fun q hq => ?_⟩)
      fun w hw hskip => ⟨hw.obj, hw.data, hw.umask, hw.files, fun q hq => ?_⟩
    · have := here hw
      simp only [Job.place] at this
      simp [Fs.node, this, Job.place]
    · simpa [World.did, Fs.setMode] using hw.files ino
    · simp only [World.did, Fs.setMode, Job.lastMode, Node.dir.injEq, hbits,
        (hw.passable_iff hdir).mp hp, ne_eq, not_false_eq_true, and_self, and_true, hw.dirs q hq]
    · simp only [Job.lastMode]
      rw [if_neg, hw.dirs q hq]
      rintro ⟨-, hbits, hr⟩
      exact hskip.elim hbits fun hn => hn ((hw.passable_iff hdir).mpr hr)

/-- An owner's run into a state that a run may start from ends in exactly one of two ways: it
leaves the whole tree, or it stops where the start was not ready for it. -/
theorem owner_run (hstart : j.Opens start) :
    Triple (fun w => w.fs = start)
      (Kernel.owner.materializeUnder j.th j.map.asStore j.policy j.root j.entries)
      (fun _ w => j.Complete start w.fs) (j.Stuck start) := by
  refine owner_materializeUnder hstart ?_
  intro io n w hw
  have hready : j.Ready start := hw.ready fun e he => mem_passOrder.mpr he
  have begun : Finishing w.fs start.dirBits w.fs :=
    ⟨rfl, rfl, rfl, fun _ => rfl, fun q hq => hw.since.mode hq⟩
  refine ((Triple.forM (I := fun done (v : World) =>
    Finishing w.fs (j.lastModes start.dirBits done) v.fs)
    j.entries.reverse fun done x rest hx => ?_).post fun _ v hv => ?_) io n w begun
  · have hmem : x ∈ j.entries := List.mem_reverse.mp (by simp [hx])
    have hdir : x.isDir = true → w.fs.obj (j.place x) = some .dir := by
      intro hisDir
      obtain ⟨y, ho, hm⟩ := (hw.stood x (mem_passOrder.mpr hmem)).obj
      rw [ho, hm.ofDir hisDir]
    have step :=
      owner_finishDirectory (M := j.lastModes start.dirBits done) (E := j.Stuck start) hmem hdir
    simpa [Job.lastModes] using step
  · exact ⟨hready, w.fs, hw, hv⟩

end Finish

/-- What shows at a place, but for the inode of a file. -/
inductive Shown where
  | dir (mode : UInt32)
  | file (bytes : Bytes) (mode : UInt32)
  | symlink (target : String)
  deriving DecidableEq

def Fs.shows (fs : Fs) (q : Path) : Option Shown :=
  match fs.obj q with
  | none => none
  | some .dir => some (.dir (fs.mode (.dir q)))
  | some (.file ino) => some (.file (fs.data ino) (fs.mode (.file ino)))
  | some (.symlink target) => some (.symlink target)

def Fs.Shares (fs : Fs) (p q : Path) : Prop :=
  ∃ ino, fs.obj p = some (.file ino) ∧ fs.obj q = some (.file ino)

/-- The same paths, contents, link targets, modes and shared inodes. -/
structure SameTree (root : Path) (a b : Fs) : Prop where
  shows : ∀ q, a.shows (root ++ q) = b.shows (root ++ q)
  shares : ∀ p q, a.Shares (root ++ p) (root ++ q) ↔ b.Shares (root ++ p) (root ++ q)

structure Job.Whole (j : Job) (fs : Fs) : Prop where
  remains : j.Remains fs
  stood : ∀ e ∈ j.entries, j.Stood (passOrder j.entries) fs e

section Trees

variable {j : Job} {start start' fs a b : Fs} {e : Entry}

theorem Job.Complete.whole (h : j.Complete start fs) : j.Whole fs := by
  obtain ⟨mid, hmid, hfin⟩ := h.mid
  have hobj : ∀ q, fs.obj q = mid.obj q := fun q => congrFun hfin.obj q
  have hr := hmid.remains
  refine ⟨⟨(hobj _).trans hr.anchored, fun q x hq ho => hr.traced q x hq (hobj _ ▸ ho),
    fun path mode mtime size chunks ino he hbits ho =>
    ?_, fun a ha b hb hafile hbfile ino hao hbo => ?_,
    fun seen path target rest hx e he hor x ho hne => ?_⟩, fun e he => ?_⟩
  · rw [hfin.files, hfin.umask]
    exact hr.plain path mode mtime size chunks ino he hbits (hobj _ ▸ ho)
  · exact hr.distinct a ha b hb hafile hbfile ino (hobj _ ▸ hao) (hobj _ ▸ hbo)
  · exact hr.links seen path target rest hx e he hor x (hobj _ ▸ ho) hne
  · exact (hmid.stood e (mem_passOrder.mpr he)).frame hobj hfin.umask fun _ ino _ =>
      ⟨congrFun hfin.data ino, hfin.files ino⟩

theorem Job.Ready.origin (h : j.Ready start) {seen rest : List Entry}
    (hx : j.entries = seen ++ e :: rest)
    (hcontent : e.isContent = true) : ∃ o ∈ j.entries, o.isFile = true ∧
      ∀ fs, j.Whole fs → fs.obj (j.place e) = fs.obj (j.place o) := by
  induction hn : seen.length using Nat.strongRecOn generalizing seen e rest with
  | ind n ih =>
    have he : e ∈ j.entries := by simp [hx]
    cases e with
    | dir path mode mtime => cases hcontent
    | symlink path target => cases hcontent
    | file path mode mtime size chunks => exact ⟨_, he, rfl, fun _ _ => rfl⟩
    | hardlink path target =>
      obtain ⟨t, ht, htcontent, htarget⟩ := (h.fits _ he).linked path target rfl seen rest hx
      obtain ⟨before, after, rfl⟩ := List.append_of_mem ht
      have htx : j.entries = before ++ t :: (after ++ .hardlink path target :: rest) := by simp [hx]
      obtain ⟨o, ho, hfile, hsame⟩ := ih before.length (by simp [← hn]) htx htcontent rfl
      refine ⟨o, ho, hfile, fun fs hw => ?_⟩
      obtain ⟨t', ht', -, htarget', ino, hi, hti⟩ := hw.stood _ he
      have hrel : t'.rel = t.rel := Except.ok.inj (htarget'.symm.trans htarget)
      obtain rfl := j.ok.unique (mem_passOrder.mp ht') (by simp [htx]) hrel
      rw [← hsame fs hw, hi, hti]

theorem Job.Whole.fileEntry {q : RelPath} {ino : Nat} (h : j.Whole fs)
    (ho : fs.obj (j.root ++ q) = some (.file ino)) :
    ∃ e ∈ j.entries, e.rel = q ∧ e.isContent = true := by
  have hq : q ≠ [] := by
    rintro rfl
    rw [List.append_nil, h.remains.anchored] at ho
    cases ho
  rcases h.remains.traced q _ hq ho with ⟨e, he, hrel, hm⟩ | ⟨hd, -⟩
  · exact ⟨e, he, hrel, by cases hm <;> rfl⟩
  · cases hd

theorem Job.Whole.shares (hready : j.Ready start) (ha : j.Whole a) (hb : j.Whole b) {p q : RelPath}
    (h : a.Shares (j.root ++ p) (j.root ++ q)) : b.Shares (j.root ++ p) (j.root ++ q) := by
  obtain ⟨ino, hp, hq⟩ := h
  obtain ⟨e, he, rfl, hec⟩ := ha.fileEntry hp
  obtain ⟨f, hf, rfl, hfc⟩ := ha.fileEntry hq
  obtain ⟨s, t, hx⟩ := List.append_of_mem he
  obtain ⟨s', t', hy⟩ := List.append_of_mem hf
  obtain ⟨o, ho, hofile, hsame⟩ := hready.origin hx hec
  obtain ⟨o', ho', hofile', hsame'⟩ := hready.origin hy hfc
  have hoo : o = o' := ha.remains.distinct o ho o' ho' hofile hofile' ino
    ((hsame a ha).symm.trans hp) ((hsame' a ha).symm.trans hq)
  obtain ⟨i, hi⟩ := (hb.stood e he).inode hec
  refine ⟨i, hi, ?_⟩
  show b.obj (j.place f) = _
  rw [hsame' b hb, ← hoo, ← hsame b hb, hi]

theorem Job.Whole.showsFile (hready : j.Ready start) (ha : j.Whole a) (hb : j.Whole b)
    (humask : a.umask = b.umask) (he : e ∈ j.entries) (hcontent : e.isContent = true) :
    a.shows (j.place e) = b.shows (j.place e) := by
  obtain ⟨s, t, hx⟩ := List.append_of_mem he
  obtain ⟨o, ho, hofile, hsame⟩ := hready.origin hx hcontent
  cases o with
  | dir path mode mtime => cases hofile
  | symlink path target => cases hofile
  | hardlink path target => cases hofile
  | file path mode mtime size chunks =>
    obtain ⟨i, hi, hdata, hmode⟩ := ha.stood _ ho
    obtain ⟨i', hi', hdata', hmode'⟩ := hb.stood _ ho
    simp only [Fs.shows, hsame a ha, hsame b hb, hi, hi', hdata,
      hdata', hmode, hmode', Job.fileBits, humask]

theorem Job.Whole.dirAbove {q : RelPath} (h : j.Whole fs) (he : e ∈ j.entries) (hq : q <+: e.rel)
    (hne : q ≠ e.rel) : fs.obj (j.root ++ q) = some .dir := by
  obtain ⟨x, ho, -⟩ := (h.stood e he).obj
  exact Fs.dir_above (ho ▸ Option.some_ne_none x) ((List.prefix_append_right_inj j.root).mpr hq)
    fun heq => hne (List.append_cancel_left heq)

theorem Job.Whole.none (ha : j.Whole a) (hb : j.Whole b) {q : RelPath}
    (h : a.obj (j.root ++ q) = none) :
    b.obj (j.root ++ q) = none := by
  cases ho : b.obj (j.root ++ q) with
  | none => rfl
  | some x =>
    have hq : q ≠ [] := by
      rintro rfl
      rw [List.append_nil, ha.remains.anchored] at h
      cases h
    rcases hb.remains.traced q x hq ho with ⟨e, he, rfl, -⟩ | ⟨-, e, he, hpre, hne⟩
    · obtain ⟨y, hy, -⟩ := (ha.stood e he).obj
      rw [Job.place, h] at hy
      cases hy
    · rw [ha.dirAbove he hpre hne] at h
      cases h

theorem Job.Whole.dir (ha : j.Whole a) (hb : j.Whole b) {q : RelPath}
    (h : a.obj (j.root ++ q) = some .dir) : b.obj (j.root ++ q) = some .dir := by
  by_cases hq : q = []
  · rw [hq, List.append_nil]
    exact hb.remains.anchored
  · rcases ha.remains.traced q _ hq h with ⟨e, he, rfl, hm⟩ | ⟨-, e, he, hpre, hne⟩
    · cases hm
      exact hb.stood _ he
    · exact hb.dirAbove he hpre hne

/-- Two whole trees are the same as soon as their directories have the same modes. -/
theorem Job.Whole.same (hready : j.Ready start) (ha : j.Whole a) (hb : j.Whole b)
    (humask : a.umask = b.umask) (hmodes : ∀ q, a.obj (j.root ++ q) = some .dir →
      a.mode (.dir (j.root ++ q)) = b.mode (.dir (j.root ++ q))) : SameTree j.root a b := by
  refine ⟨fun q => ?_, fun p q => ⟨ha.shares hready hb, hb.shares hready ha⟩⟩
  cases ho : a.obj (j.root ++ q) with
  | none => simp only [Fs.shows, ho, ha.none hb ho]
  | some x =>
    cases x with
    | dir => simp only [Fs.shows, ho, ha.dir hb ho, hmodes q ho]
    | file ino =>
      obtain ⟨e, he, rfl, hcontent⟩ := ha.fileEntry ho
      exact ha.showsFile hready hb humask he hcontent
    | symlink target =>
      have hq : q ≠ [] := by
        rintro rfl
        rw [List.append_nil, ha.remains.anchored] at ho
        cases ho
      rcases ha.remains.traced q _ hq ho with ⟨e, he, rfl, hm⟩ | ⟨hd, -⟩
      · cases hm
        have hb' : b.obj (j.root ++ (Entry.symlink _ target).rel) = _ := hb.stood _ he
        simp only [Fs.shows, ho, hb']
      · cases hd

theorem Job.Complete.mode {q : Path} (h : j.Complete start fs) (hdir : fs.obj q = some .dir) :
    fs.mode (.dir q) = j.lastModes start.dirBits j.entries.reverse q := by
  obtain ⟨mid, -, hfin⟩ := h.mid
  exact hfin.dirs q (hfin.obj ▸ hdir)

theorem Job.Complete.umask (h : j.Complete start fs) : fs.umask = start.umask := by
  obtain ⟨mid, hmid, hfin⟩ := h.mid
  exact hfin.umask.trans hmid.since.umask

theorem Job.Complete.dirs {q : Path} (h : j.Complete start fs) (hdir : start.obj q = some .dir) :
    fs.obj q = some .dir := by
  obtain ⟨mid, hmid, hfin⟩ := h.mid
  rw [hfin.obj]
  exact hmid.since.dirs q hdir

theorem Job.Complete.same (ha : j.Complete start a) (hb : j.Complete start' b)
    (humask : start.umask = start'.umask)
    (hlast : j.lastModes start.dirBits j.entries.reverse =
      j.lastModes start'.dirBits j.entries.reverse) :
    SameTree j.root a b := by
  refine ha.whole.same ha.ready hb.whole (by rw [ha.umask, hb.umask, humask]) fun q hdir => ?_
  rw [ha.mode hdir, hb.mode (ha.whole.dir hb.whole hdir), hlast]

end Trees

section Again

variable {j : Job} {M : Path → UInt32} {q : Path} {entries : List Entry}

theorem Job.lastModes_untouched (h : ∀ d ∈ entries, d.isDir = true → j.place d ≠ q) :
    j.lastModes M entries q = M q := by
  induction entries generalizing M with
  | nil => rfl
  | cons e entries ih =>
    have hrest := ih (M := j.lastMode M e) fun d hd => h d (List.mem_cons_of_mem _ hd)
    refine hrest.trans ?_
    cases e with
    | file path mode mtime size chunks => rfl
    | symlink path target => rfl
    | hardlink path target => rfl
    | dir path mode mtime => exact if_neg fun hc => h _ List.mem_cons_self rfl hc.1.symm

theorem Job.lastModes_between (M : Path → UInt32) (done rest : List Entry) (q : Path)
    (hnodup : (done ++ rest).map j.place |>.Nodup) :
    j.lastModes M done q = M q ∨ j.lastModes M done q = j.lastModes M (done ++ rest) q := by
  by_cases hq : ∃ d ∈ done, j.place d = q
  · obtain ⟨d, hd, rfl⟩ := hq
    refine .inr ?_
    rw [Job.lastModes, Job.lastModes, List.foldl_append]
    refine (Job.lastModes_untouched fun x hx _ => ?_).symm
    rw [List.map_append] at hnodup
    exact fun heq => (List.nodup_append.mp hnodup).2.2 _ (List.mem_map_of_mem hd) _
      (List.mem_map_of_mem hx) heq.symm
  · exact .inl (Job.lastModes_untouched fun d hd _ heq => hq ⟨d, hd, heq⟩)

/-- Where every directory can be reached before and after the pass, it can be reached in
between as well, and the pass sets every mode it means to set. -/
theorem Job.lastModes_sets {path : String} {mode : UInt32} {mtime : Int64}
    (hnodup : (entries.map j.place).Nodup)
    (hclear : ∀ d ∈ entries, d.isDir = true → reachable M (j.place d) = true)
    (hclear' : ∀ d ∈ entries, d.isDir = true → reachable (j.lastModes M entries) (j.place d) = true)
    (he : .dir path mode mtime ∈ entries) (hbits : j.policy.bits mode ≠ 0) :
    j.lastModes M entries (j.place (.dir path mode mtime)) = j.policy.bits mode := by
  obtain ⟨done, rest, hx⟩ := List.append_of_mem he
  have hmid : reachable (j.lastModes M done) (j.place (.dir path mode mtime)) = true := by
    have h := hclear _ he rfl
    have h' := hclear' _ he rfl
    simp only [reachable, List.all_eq_true, Bool.or_eq_true] at h h' ⊢
    intro q hq
    rcases j.lastModes_between M done (.dir path mode mtime :: rest) q (by rwa [← hx]) with hk | hk
    · rw [hk]
      exact h q hq
    · rw [hk, ← hx]
      exact h' q hq
  rw [hx, List.map_append, List.map_cons] at hnodup
  have hafter := (List.nodup_cons.mp (List.nodup_append.mp hnodup).2.1).1
  rw [hx, Job.lastModes, List.foldl_append, List.foldl_cons]
  refine (Job.lastModes_untouched fun x hmem _ heq => ?_).trans (if_pos ⟨rfl, hbits, hmid⟩)
  exact hafter (List.mem_map.mpr ⟨x, hmem, heq⟩)

theorem Job.lastModes_again (hnodup : (entries.map j.place).Nodup)
    (hclear : ∀ d ∈ entries, d.isDir = true → reachable M (j.place d) = true)
    (hclear' : ∀ d ∈ entries, d.isDir = true → reachable (j.lastModes M entries)
      (j.place d) = true) :
    j.lastModes (j.lastModes M entries) entries = j.lastModes M entries := by
  have fixed : ∀ e ∈ entries, j.lastMode (j.lastModes M entries) e = j.lastModes M entries := by
    intro e he
    cases e with
    | file path mode mtime size chunks => rfl
    | symlink path target => rfl
    | hardlink path target => rfl
    | dir path mode mtime =>
      funext q
      simp only [Job.lastMode]
      split
      · rename_i hc
        rw [hc.1, Job.lastModes_sets hnodup hclear hclear' he hc.2.1]
      · rfl
  have all : ∀ es : List Entry, (∀ e ∈ es, e ∈ entries) →
      es.foldl j.lastMode (j.lastModes M entries) = j.lastModes M entries := by
    intro es
    induction es with
    | nil => exact fun _ => rfl
    | cons e es ih =>
      intro hsub
      rw [List.foldl_cons, fixed e (hsub e (by simp))]
      exact ih fun x hx => hsub x (by simp [hx])
  exact all entries fun _ he => he

end Again

end Zblob

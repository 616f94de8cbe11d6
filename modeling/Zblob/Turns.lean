import Zblob.Rerun

/-!
The turn of one entry in an owner's run: the directory it lies in, the check of that, what
stood in its place, and the entry itself. Each step is taken or shows why it cannot be.
-/

set_option autoImplicit false

namespace Zblob

open Program

namespace Job

variable (j : Job)

structure Opens (start : Fs) : Prop where
  remains : j.Remains start
  reached : start.Clear j.root

structure Turn (start : Fs) (done : List Entry) (e : Entry) (fs : Fs) : Prop where
  between : j.Between start (done ++ [e]) done fs
  kept : e.isDir = false → j.Kept start e fs

/-- The place of `e` is free, or has its old object, which the modes protect. -/
structure Cleared (start : Fs) (done : List Entry) (e : Entry) (fs : Fs) : Prop where
  between : j.Between start (done ++ [e]) done fs
  parent : fs.obj (j.place e).dropLast = some .dir
  place : fs.obj (j.place e) = none ∧ ownerWrite (start.dirBits (j.place e).dropLast) = true ∨
    j.Kept start e fs ∧ (fs.obj (j.place e) = none ∨ ¬start.Clear (j.place e) ∨
      (∃ x, fs.obj (j.place e) = some x ∧ x ≠ .dir) ∧
        ownerWrite (start.dirBits (j.place e).dropLast) = false)

end Job

section Turns

variable {j : Job} {start : Fs} {done : List Entry} {e : Entry} {w : World}

theorem Job.Between.stuck {seen : List Entry} (h : j.Between start seen done w.fs)
    (hno : ¬j.Ready start) : j.Stuck start w := ⟨h.remains, h.since, hno⟩

theorem Job.Since.absent {fs : Fs} (h : j.Since start fs) (hstart : j.Opens start)
    (hready : j.Ready start) (he : e ∈ j.entries) {q : RelPath} (hq : q <+: e.rel)
    (hend : q = e.rel → e.isDir = true) (hne : q ≠ []) (ho : fs.obj (j.root ++ q) = none) :
    start.obj (j.root ++ q) = none := by
  cases hs : start.obj (j.root ++ q) with
  | none => rfl
  | some x =>
    cases hstart.remains.above hready.apart he hq hend hne hs
    rw [h.dirs _ hs] at ho
    cases ho

theorem Job.Turn.mkdir {fs fs' : Fs} {q : RelPath} {name : String} (h : j.Turn start done e fs)
    (he : e ∈ j.entries) (hq : q ++ [name] <+: e.rel) (hdir : q ++ [name] = e.rel → e.isDir = true)
    (ha : Put fs (j.root ++ q ++ [name]) .dir fs')
    (hwrite : ownerWrite (fs.mode (.dir (j.root ++ q))) = true) : j.Turn start done e fs' :=
  ⟨h.between.mkdir he hq hdir ha hwrite, fun hfile => (h.kept hfile).put ha fun hx => absurd rfl hx⟩

theorem owner_createDirs (done : List Entry) (hstart : j.Opens start) (he : e ∈ j.entries)
    (rel q names : RelPath) (hq : q ++ names <+: e.rel)
    (hend : q ++ names = e.rel → e.isDir = true) :
    Triple (fun w => j.Turn start done e w.fs ∧ w.fs.obj (j.root ++ q) = some .dir ∧
        start.Clear (j.root ++ q))
      (Kernel.owner.createDirsFrom rel (j.root ++ q) names)
      (fun _ w => j.Turn start done e w.fs ∧ w.fs.obj (j.root ++ (q ++ names)) = some .dir ∧
        start.Clear (j.root ++ (q ++ names))) (j.Stuck start) := by
  induction names generalizing q with
  | nil => exact Triple.ret fun w hw => by simpa using hw
  | cons name names ih =>
    have happ : q ++ [name] ++ names = q ++ name :: names := by simp
    have hplace : j.root ++ q ++ [name] = j.root ++ (q ++ [name]) := List.append_assoc _ _ _
    have hnext : q ++ [name] <+: e.rel := (List.prefix_append _ names).trans (by rwa [happ])
    have hlast : q ++ [name] = e.rel → e.isDir = true := by
      intro heq
      refine hend ?_
      rw [← happ] at hq ⊢
      exact hq.eq_of_length_le (by rw [← heq]; simp)
    have hclear : j.Ready start → start.Clear (j.root ++ (q ++ [name])) := fun hready =>
      (hready.fits e he).search.upward ((List.prefix_append_right_inj j.root).mpr hnext)
    have hdrop : (j.root ++ (q ++ [name])).dropLast = j.root ++ q := by
      rw [← hplace, List.dropLast_concat]
    have hpass : ∀ w : World, j.Turn start done e w.fs → w.fs.obj (j.root ++ q) = some .dir →
        (w.fs.Passable (j.root ++ (q ++ [name])) ↔ start.Clear (j.root ++ (q ++ [name]))) :=
      fun w hw hdir => hw.between.since.passable_iff (by rwa [hdrop])
    have rest := ih (q ++ [name]) (by rwa [happ]) (by rwa [happ])
    rw [happ] at rest
    unfold Kernel.createDirsFrom
    simp only [hplace]
    refine Triple.bind (Q := fun found w => j.Turn start done e w.fs ∧
      Told (fun x w => w.fs.obj (j.root ++ (q ++ [name])) = some x ∧
        start.Clear (j.root ++ (q ++ [name])))
        (fun w => w.fs.obj (j.root ++ q) = some .dir ∧
          (w.fs.obj (j.root ++ (q ++ [name])) = none ∨ ¬start.Clear (j.root ++ (q ++ [name]))))
          found w) ?_
      fun found => ?_
    · refine owner_lstat (fun w hw => by rw [hdrop]; exact hw.2.1) (fun w x hw hp ho => ?_)
        fun w text hw hno => ?_
      · exact ⟨hw.1, ho, (hpass w hw.1 hw.2.1).mp hp⟩
      · exact ⟨hw.1, hw.2.1, hno.imp_right fun hn hc => hn ((hpass w hw.1 hw.2.1).mpr hc)⟩
    · have blocked : ∀ x : Obj, x ≠ .dir → ∀ w : World, j.Turn start done e w.fs →
          w.fs.obj (j.root ++ (q ++ [name])) = some x → j.Stuck start w := by
        intro x hx w hw ho
        refine hw.between.stuck fun hready => hx ?_
        exact hw.between.remains.above hready.apart he hnext hlast (by simp) ho
      cases found with
      | ok x =>
        cases x with
        | symlink target => exact Triple.fail fun w hw => blocked _ (by simp) w hw.1 hw.2.1
        | file ino => exact Triple.fail fun w hw => blocked _ (by simp) w hw.1 hw.2.1
        | dir => exact rest
      | error text =>
        refine Triple.bind (Q := fun _ w => j.Turn start done e w.fs ∧
          w.fs.obj (j.root ++ (q ++ [name])) = some .dir ∧ start.Clear (j.root ++ (q ++ [name])))
          ?_ fun _ => rest
        refine owner_mkdir (by simp) (fun w hw => by rw [hdrop]; exact hw.2.1)
          (fun w fs hw hp hwrite ha =>
            ⟨?_, by simp [World.did, ha.obj], (hpass w hw.1 hw.2.1).mp hp⟩)
          fun w hw hno => hw.1.between.stuck fun hready => ?_
        · rw [hdrop] at hwrite
          exact hw.1.mkdir he hnext hlast (by rwa [hplace]) hwrite
        · obtain ⟨hturn, hdir, hmiss⟩ := hw
          have hfree := hmiss.resolve_right (not_not.mpr (hclear hready))
          rcases hno with hp | hwrite | hsome
          · exact hp ((hpass w hturn hdir).mpr (hclear hready))
          · have hgone := hturn.between.since.absent hstart hready he hnext hlast (by simp) hfree
            have hmade := hready.made e he q name hnext (by rwa [hplace])
            rw [hdrop, hturn.between.since.mode hdir, hmade] at hwrite
            cases hwrite
          · exact hsome hfree

structure Job.Parented (j : Job) (start : Fs) (done : List Entry) (e : Entry) (fs : Fs) :
    Prop extends
    j.Turn start done e fs where
  parent : fs.obj (j.place e).dropLast = some .dir

theorem Job.Parented.passable_iff {fs : Fs} (h : j.Parented start done e fs) :
    fs.Passable (j.place e) ↔ start.Clear (j.place e) := h.between.since.passable_iff h.parent

theorem Job.Parented.write {fs : Fs} (h : j.Parented start done e fs) :
    ownerWrite (fs.mode (.dir (j.place e).dropLast)) = ownerWrite
      (start.dirBits (j.place e).dropLast) :=
  congrArg ownerWrite (h.between.since.mode h.parent)

theorem Job.place_dropLast (he : e ∈ j.entries) : (j.place e).dropLast = j.root ++ e.rel.dropLast :=
  List.dropLast_append_of_ne_nil (j.ok.rel_ne_nil he)

theorem owner_parent (hstart : j.Opens start) (he : e ∈ j.entries) :
    Triple (fun w => j.Turn start done e w.fs)
      (Kernel.owner.createDirConfined j.root e.rel.dropLast)
      (fun _ w => j.Parented start done e w.fs) (j.Stuck start) := by
  have hne := j.ok.rel_ne_nil he
  have hshort : e.rel.dropLast = e.rel → e.isDir = true := by
    intro heq
    have hlen := congrArg List.length heq
    have hpos := List.length_pos_iff.mpr hne
    rw [List.length_dropLast] at hlen
    omega
  have run :=
    owner_createDirs done hstart he e.rel.dropLast [] e.rel.dropLast (List.dropLast_prefix _)
    hshort
  rw [List.append_nil, List.nil_append, ← Job.place_dropLast he] at run
  exact run.conseq (fun w hw => ⟨hw, hw.between.remains.anchored, hstart.reached⟩)
    (fun _ w hw => ⟨hw.1, hw.2.1⟩) fun _ hw => hw

theorem owner_assertParentWithin (he : e ∈ j.entries) :
    Triple (fun w => j.Parented start done e w.fs)
      (Kernel.owner.assertParentWithin j.root (j.place e))
      (fun _ w => j.Parented start done e w.fs) (j.Stuck start) := by
  have hne : j.place e ≠ [] := by
    simp [Job.place, j.ok.rel_ne_nil he]
  unfold Kernel.assertParentWithin
  rw [if_neg hne]
  refine Triple.bind (Q := fun found w => (found = .ok (j.place e).dropLast ∨ ¬j.Ready start) ∧
    j.Parented start done e w.fs) (owner_look (fun w hw => ?_)
      (fun w hw target ho => ?_) (fun w canon hw hp hr hc => ⟨.inl ?_, hw⟩)
      fun w text hw hno => ⟨.inr fun hready => ?_, hw⟩) fun found => Triple.of_pre fun hfound => ?_
  · exact Fs.dir_of_dir hw.parent (List.dropLast_prefix _)
  · rw [hw.parent] at ho
    cases ho
  · simp only [Fs.canonicalize, hr, Option.bind_some, hw.parent] at hc
    rw [Option.some.inj hc]
  · have hp := (hw.passable_iff.mpr (hready.fits e he).search).upward (List.dropLast_prefix _)
    rcases hno with hnone | hn
    · have hr := Fs.reach_resolve (Fs.reach_of_passable true
        (Fs.dir_of_dir hw.parent (List.dropLast_prefix _))
          (fun _ target => by rw [hw.parent]; simp) hp)
      simp [Fs.canonicalize, hr, hw.parent] at hnone
    · exact hn hp
  · rcases hfound with rfl | hunready
    · simp only [List.isPrefixOf_iff_prefix.mpr (Job.root_parent he), if_true]
      exact Triple.ret fun _ hw => hw
    · cases found with
      | error text => exact Triple.fail fun w hw => hw.between.stuck hunready
      | ok canon =>
        simp only
        split
        · exact Triple.ret fun _ hw => hw
        · exact Triple.fail fun w hw => hw.between.stuck hunready

theorem Job.Remains.plainPlace {fs : Fs} (h : j.Remains fs) (hapart : Apart j.entries)
    (he : e ∈ j.entries) (hplain : e.isDir = false) : fs.obj (j.place e) ≠ some .dir := by
  intro ho
  rcases h.traced e.rel .dir (j.ok.rel_ne_nil he) ho with ⟨a, ha, hrel, hm⟩ | ⟨-, a, ha, hpre, hne⟩
  · cases j.ok.unique ha he hrel
    cases hm
    cases hplain
  · exact hne (hapart e he a ha hplain hpre)

theorem owner_clear (he : e ∈ j.entries) (hnew : e ∉ done) (hplain : e.isDir = false) :
    Triple (fun w => j.Parented start done e w.fs)
      (Kernel.owner.removeExisting (j.place e) j.policy)
      (fun _ w => j.Cleared start done e w.fs) (j.Stuck start) := by
  refine owner_removeExisting j.keeps (fun w hw => hw.parent) (fun w x hw hp ho hx hwrite => ?_)
    (fun w hw hkeep => ?_) fun w hw ho => hw.between.stuck fun hready => ?_
  · have hgone := fun q => Fs.remove_one ho hx q
    refine ⟨hw.between.remove he (by simp) hnew ho hx, ?_, .inl ⟨?_, by rwa [← hw.write]⟩⟩
    · show (w.fs.remove [j.place e]).obj _ = _
      rw [hgone, if_neg, hw.parent]
      rintro heq
      rw [← heq, hw.parent] at ho
      exact hx (Option.some.inj ho).symm
    · show (w.fs.remove [j.place e]).obj _ = _
      rw [hgone, if_pos rfl]
  · refine ⟨hw.between, hw.parent, .inr ⟨hw.kept hplain, hkeep.imp_right fun h => ?_⟩⟩
    exact h.imp (fun hn hc => hn (hw.passable_iff.mpr hc)) fun h => ⟨h.1, hw.write ▸ h.2⟩
  · exact hw.between.remains.plainPlace hready.apart he hplain ho

structure Job.Writing (j : Job) (start : Fs) (done : List Entry)
    (e : Entry) (ino : Nat) (sofar : Bytes) (fs : Fs) : Prop where
  between : j.Between start (done ++ [e]) done fs
  here : fs.obj (j.place e) = some (.file ino)
  data : fs.data ino = sofar

/-- Every hard link that something of `e` would be laid past has its target before it. -/
def Job.LinkedBefore (j : Job) (e : Entry) : Prop :=
  ∀ before path target rest, j.entries = before ++ .hardlink path target :: rest →
    e.isSymlink = true ∨ e ∈ .hardlink path target :: rest → Linked before target

theorem Entry.isFile_plain (h : e.isFile = true) : e.isDir = false := by
  cases e <;> first | rfl | cases h

theorem owner_openFile (he : e ∈ j.entries) (hnew : e ∉ done) (hfile : e.isFile = true)
    (hlinks : j.LinkedBefore e) :
    Triple (fun w => j.Cleared start done e w.fs) (Kernel.owner.createFile (j.place e))
      (fun ino w => (start.Clear (j.place e) ∧ j.Room start e) ∧ j.Writing start done e ino [] w.fs)
      (j.Stuck start) := by
  have hplain := Entry.isFile_plain hfile
  have hmakes : ∀ ino, e.Makes (.file ino) := by
    intro ino
    cases e <;> first | exact .file | cases hfile
  have hne : j.place e ≠ [] := by
    simp [Job.place, j.ok.rel_ne_nil he]
  have mode : ∀ {w : World}, j.Cleared start done e w.fs →
      w.fs.mode (.dir (j.place e).dropLast) = start.dirBits (j.place e).dropLast :=
    fun hw => hw.between.since.mode hw.parent
  refine owner_createFile hne (fun w hw => hw.parent) (fun w hw target ho => ?_)
    (fun w fs hw hp hwrite ha => ⟨⟨?_, .inl ?_⟩, ?_, ?_, ?_⟩)
    (fun w ino hw hp ho hwrite => ⟨⟨?_, .inr ⟨hfile, ino, ?_⟩⟩, ?_, ho, ?_⟩) fun w hw hno => ?_
  · have hm := hw.between.remains.makes he ho (by simp)
    cases hm
    cases hfile
  · exact (hw.between.since.passable_iff hw.parent).mp hp
  · rwa [← mode hw]
  · exact hw.between.put he (by simp) ha (hmakes _) hwrite (fun _ => rfl) hlinks
  · simp [World.did, ha.obj]
  · exact (ha.fresh rfl).1
  · exact (hw.between.since.passable_iff hw.parent).mp hp
  · rcases hw.place with ⟨hnone, -⟩ | ⟨hkept, -⟩
    · rw [hnone] at ho
      cases ho
    · exact ⟨hkept.back _ ho (by simp), hkept.mode hfile ino ho ▸ hwrite⟩
  · exact hw.between.setData he hnew hfile ho
  · simp [World.did, Fs.setData]
  · refine hw.between.stuck fun hready => ?_
    have fits := hready.fits e he
    rcases hno with (hn | ⟨hnone, hshut⟩) | hdir | ⟨ino, ho, hshut⟩
    · exact hn ((hw.between.since.passable_iff hw.parent).mpr fits.search)
    · rw [mode hw] at hshut
      rcases hw.place with ⟨-, hopen⟩ | ⟨hkept, -⟩
      · rw [hopen] at hshut
        cases hshut
      · rcases fits.room hplain with hopen | ⟨-, ino, hold, -⟩
        · rw [hopen] at hshut
          cases hshut
        · rw [hkept.stays _ hold] at hnone
          cases hnone
    · exact hw.between.remains.plainPlace hready.apart he hplain hdir
    · rcases hw.place with ⟨hnone, -⟩ | ⟨hkept, hnone | hn | ⟨-, hclosed⟩⟩
      · rw [hnone] at ho
        cases ho
      · rw [hnone] at ho
        cases ho
      · exact hn fits.search
      · rcases fits.room hplain with hopen | ⟨-, i, hold, hopen⟩
        · rw [hopen] at hclosed
          cases hclosed
        · cases (hkept.stays _ hold).symm.trans ho
          rw [hkept.mode hfile _ ho, hopen] at hshut
          cases hshut

theorem owner_writeChunks {ino : Nat} {chunks : List ChunkRef} (he : e ∈ j.entries)
    (hnew : e ∉ done)
    (hfile : e.isFile = true) (hstock : j.Ready start → ∀ c ∈ chunks, HasChunk j.th j.map c)
    (written : Nat) (sofar : Bytes) :
    Triple (fun w => j.Writing start done e ino sofar w.fs)
      (Kernel.owner.writeChunks j.th j.map.asStore ino chunks written)
      (fun n w =>
        (n = written + (contentOf j.map chunks).length ∧ ∀ c ∈ chunks, HasChunk j.th j.map c) ∧
        j.Writing start done e ino (sofar ++ contentOf j.map chunks) w.fs) (j.Stuck start) := by
  induction chunks generalizing written sofar with
  | nil => exact Triple.ret fun w hw => ⟨by simp [contentOf], by simpa [contentOf] using hw⟩
  | cons c chunks ih =>
    have lacks : ¬HasChunk j.th j.map c → ∀ w : World, j.Writing start done e ino sofar w.fs →
        j.Stuck start w :=
      fun hno w hw => hw.between.stuck fun hready => hno (hstock hready c (by simp))
    refine Triple.bind (Q := fun _ w => j.Writing start done e ino sofar w.fs)
      (Triple.moment fun _ _ hw => hw)
      fun now => ?_
    refine Triple.bind (Q := fun found w => found = j.map c.hash ∧
      j.Writing start done e ino sofar w.fs)
      (Triple.lift (fun found w hf hw => ⟨?_, hw⟩) fun _ _ hf _ => ?_) fun found =>
        Triple.of_pre fun hf => ?_
    · exact (Except.ok.inj hf).symm
    · cases hf
    subst hf
    cases hget : j.map c.hash with
    | none =>
      refine Triple.fail (lacks ?_)
      rintro ⟨piece, hp, -⟩
      rw [hget] at hp
      cases hp
    | some piece =>
      have same : HasChunk j.th j.map c → UInt32.ofNat piece.length = c.len ∧
          j.th.hash piece = c.hash := by
        rintro ⟨other, hp, hrest⟩
        cases hget.symm.trans hp
        exact hrest
      simp only
      split
      · rename_i hlen
        exact Triple.fail (lacks fun h => hlen (same h).1)
      rename_i hlen
      split
      · rename_i hhash
        exact Triple.fail (lacks fun h => hhash (same h).2)
      rename_i hhash
      have hc : HasChunk j.th j.map c := ⟨piece, hget, not_not.mp hlen, not_not.mp hhash⟩
      have hcontent : contentOf j.map (c :: chunks) = piece ++ contentOf j.map chunks := by
        simp [contentOf, hget]
      refine Triple.bind (Q := fun _ w => j.Writing start done e ino (sofar ++ piece) w.fs)
        ?_ fun _ => ?_
      · refine owner_must (by simp) (fun w fs hw _ hp => ?_) fun w hw hno => ?_
        · cases hp
          refine ⟨hw.between.setData he hnew hfile hw.here, hw.here, ?_⟩
          simp [World.did, Fs.setData, hw.data]
        · simp [Fs.grants, Fs.perform, yes] at hno
      · refine (ih (fun hready x hx => hstock hready x (by simp [hx])) (written + piece.length)
          (sofar ++ piece)).post fun n w hw => ?_
        rw [hcontent, List.length_append]
        refine ⟨⟨by omega, fun x hx => ?_⟩, by simpa using hw.2⟩
        rcases List.mem_cons.mp hx with rfl | hx
        · exact hc
        · exact hw.1.2 x hx

theorem owner_file {path : String} {mode : UInt32} {mtime : Int64} {size : UInt64}
    {chunks : List ChunkRef} (hstart : j.Opens start) (hx : e = .file path mode mtime size chunks)
    (he : e ∈ j.entries) (hnew : e ∉ done) (hlinks : j.LinkedBefore e) :
    Triple (fun w => j.Turn start done e w.fs)
      (Kernel.owner.makeContent j.th j.map.asStore j.policy j.root
        (.file path mode mtime size chunks))
      (fun _ w => j.Between start (done ++ [e]) (done ++ [e]) w.fs) (j.Stuck start) := by
  have hfile : e.isFile = true := by rw [hx]; rfl
  have hpath : sanitizeRelPath path = .ok e.rel := by
    have := j.ok.paths e he
    rwa [hx] at this ⊢
  refine Triple.lift_bind hpath ?_
  refine (owner_parent hstart he).bind fun _ => ?_
  refine (owner_assertParentWithin he).bind fun _ => ?_
  refine (owner_clear he hnew (Entry.isFile_plain hfile)).bind fun _ => ?_
  refine (owner_openFile he hnew hfile hlinks).bind fun ino => Triple.of_pre fun hfits => ?_
  have stocked : j.Ready start → (∀ c ∈ chunks, HasChunk j.th j.map c) ∧
      (contentOf j.map chunks).length = size.toNat := by
    intro hready
    have := (hready.fits e he).stocked
    rwa [hx] at this
  refine (owner_writeChunks he hnew hfile (fun hready => (stocked hready).1) 0 []).bind
    fun written =>
    Triple.of_pre fun hwritten => ?_
  split
  · rename_i hsize
    refine Triple.fail fun w hw => hw.between.stuck fun hready => hsize ?_
    rw [hwritten.1, (stocked hready).2, Nat.zero_add]
  rename_i hsize
  have hstocked : j.Stocked e := by
    rw [hx]
    exact ⟨hwritten.2, by rw [← not_not.mp hsize, hwritten.1, Nat.zero_add]⟩
  refine Triple.bind (Q := fun _ w => j.Writing start done e ino (contentOf j.map chunks) w.fs ∧
    w.fs.mode (.file ino) = j.fileBits w.fs mode) ?_ fun _ => ?_
  · subst hx
    have hdir : ∀ {w : World} {bytes : Bytes},
        j.Writing start done (.file path mode mtime size chunks) ino bytes w.fs →
        w.fs.obj (j.place (.file path mode mtime size chunks)).dropLast = some .dir := fun hw =>
      Fs.parent_of_some (by rw [hw.here]; simp) (by simp [Job.place, j.ok.rel_ne_nil he])
    refine owner_setMode (n := .file ino) (fun w hw => hdir hw) (fun w hw => ?_)
      (fun w hw hbits _ => ?_)
      fun w hw hskip => ⟨by simpa using hw, ?_⟩
    · have := hw.here
      simp only [Job.place] at this
      simp [Fs.node, this]
    · refine ⟨⟨hw.between.setMode he (by simp) hnew hbits hw.here, hw.here, ?_⟩, ?_⟩
      · simpa [World.did, Fs.setMode] using hw.data
      · simp [World.did, Fs.setMode, Job.fileBits, hbits]
    · rcases hskip with hbits | hn
      · rw [Job.fileBits, if_pos hbits]
        exact hw.between.remains.plain path mode mtime size chunks ino he hbits hw.here
      · exact absurd ((hw.between.since.passable_iff (hdir hw)).mpr hfits.1) hn
  · refine (owner_setMtime (I := fun fs => j.Writing start done e ino (contentOf j.map chunks) fs ∧
      fs.mode (.file ino) = j.fileBits fs mode)).post fun _ w hw => ?_
    refine hw.1.between.lay he (by simp) ?_ ⟨hfits.1, fun _ => hfits.2, hstocked, ?_⟩
    · subst hx
      exact ⟨ino, hw.1.here, hw.1.data, hw.2⟩
    · rintro p t rfl
      cases hfile

theorem Job.Cleared.shut {fs : Fs} (h : j.Cleared start done e fs) (he : e ∈ j.entries)
    (hplain : e.isDir = false) (hfile : e.isFile = false)
    (hno : ¬fs.Passable (j.place e) ∨ ownerWrite (fs.mode (.dir (j.place e).dropLast)) = false ∨
      fs.obj (j.place e) ≠ none) : ¬j.Ready start := by
  intro hready
  have fits := hready.fits e he
  have hopen : ownerWrite (start.dirBits (j.place e).dropLast) = true := by
    rcases fits.room hplain with hopen | ⟨hisFile, -⟩
    · exact hopen
    · rw [hfile] at hisFile
      cases hisFile
  rcases hno with hn | hshut | hsome
  · exact hn ((h.between.since.passable_iff h.parent).mpr fits.search)
  · rw [h.between.since.mode h.parent, hopen] at hshut
    cases hshut
  · rcases h.place with ⟨hnone, -⟩ | ⟨-, hnone | hn | ⟨-, hshut⟩⟩
    · exact hsome hnone
    · exact hsome hnone
    · exact hn fits.search
    · rw [hopen] at hshut
      cases hshut

theorem Job.Cleared.put {fs fs' : Fs} {x : Obj} (h : j.Cleared start done e fs) (he : e ∈ j.entries)
    (hfile : e.isFile = false) (hlinks : j.LinkedBefore e) (hp : fs.Passable (j.place e))
    (hwrite : ownerWrite (fs.mode (.dir (j.place e).dropLast)) = true)
    (ha : Put fs (j.place e) x fs')
    (hm : e.Makes x) (hstood : j.Stood done fs' e) (hstocked : j.Stocked e)
    (hlinked : ∀ path target, e = .hardlink path target → ∀ seen rest,
      j.entries = seen ++ e :: rest → Linked seen target) :
    j.Between start (done ++ [e]) (done ++ [e]) fs' := by
  have hbetween := h.between.put he (by simp) ha hm hwrite (fun hisFile => by
    rw [hfile] at hisFile
    cases hisFile) hlinks
  refine hbetween.lay he (by simp) hstood ⟨?_, fun _ => .inl ?_, hstocked, hlinked⟩
  · exact (h.between.since.passable_iff h.parent).mp hp
  · rwa [← h.between.since.mode h.parent]

theorem owner_symlinkEntry {path target : String} (hstart : j.Opens start)
    (hx : e = .symlink path target)
    (he : e ∈ j.entries) (hnew : e ∉ done) (hlinks : j.LinkedBefore e) :
    Triple (fun w => j.Turn start done e w.fs)
      (Kernel.owner.makeSymlink j.policy j.root (.symlink path target))
      (fun _ w => j.Between start (done ++ [e]) (done ++ [e]) w.fs) (j.Stuck start) := by
  have hpath : sanitizeRelPath path = .ok e.rel := by
    have := j.ok.paths e he
    rwa [hx] at this ⊢
  have htarget : sanitizeSymlinkTarget e.rel target = .ok () := by
    subst hx
    exact j.ok.symlinks path target he
  refine Triple.lift_bind hpath (Triple.lift_bind htarget ?_)
  refine (owner_parent hstart he).bind fun _ => ?_
  refine (owner_assertParentWithin he).bind fun _ => ?_
  refine (owner_clear he hnew (by rw [hx]; rfl)).bind fun _ => ?_
  refine owner_symlink (by simp [j.ok.rel_ne_nil he]) (fun w hw => hw.parent)
    (fun w fs hw hp hwrite ha => ?_) fun w hw hno => ?_
  · subst hx
    exact hw.put he rfl hlinks hp hwrite ha .symlink ((ha.obj _).trans (if_pos rfl))
      trivial (by simp)
  · exact hw.between.stuck (hw.shut he (by rw [hx]; rfl) (by rw [hx]; rfl) hno)

theorem Job.Stood.inode {fs : Fs} (h : j.Stood done fs e) (hcontent : e.isContent = true) :
    ∃ ino, fs.obj (j.place e) = some (.file ino) := by
  cases e with
  | dir path mode mtime => cases hcontent
  | symlink path target => cases hcontent
  | file path mode mtime size chunks =>
    obtain ⟨ino, ho, -⟩ := h
    exact ⟨ino, ho⟩
  | hardlink path target =>
    obtain ⟨-, -, -, -, ino, ho, -⟩ := h
    exact ⟨ino, ho⟩

theorem Job.Remains.target {fs : Fs} {seen rest : List Entry} {path target : String}
    {trel : RelPath}
    {canon : Path} {ino : Nat} (h : j.Remains fs)
    (hx : j.entries = seen ++ .hardlink path target :: rest)
    (ht : sanitizeRelPath target = .ok trel)
    (hcanon : fs.canonicalize (j.root ++ trel) = some canon)
    (hfile : fs.stat canon = some (.file ino)) : Linked seen target := by
  by_contra hno
  have bare : ∀ a ∈ j.entries, a.isSymlink = true ∨ a ∈ .hardlink path target :: rest →
      ∀ x, fs.obj (j.place a) = some x → x = .dir := by
    intro a ha hor x ho
    by_contra hne
    exact hno (h.links seen path target rest hx a ha hor x ho hne)
  have nolink : ∀ q, q <+: j.root ++ trel → ∀ link, fs.obj q ≠ some (.symlink link) := by
    intro q hq link ho
    rcases List.prefix_or_prefix_of_prefix hq (List.prefix_append _ _) with hin | ⟨r, rfl⟩
    · rw [Fs.dir_of_dir h.anchored hin] at ho
      cases ho
    · have hr : r ≠ [] := by
        rintro rfl
        rw [List.append_nil, h.anchored] at ho
        cases ho
      rcases h.traced r _ hr ho with ⟨a, ha, rfl, hm⟩ | ⟨hd, -⟩
      · cases hm
        cases bare _ ha (.inl rfl) _ ho
      · cases hd
  have straight : ∀ {r}, fs.resolve true (j.root ++ trel) = some r → r = j.root ++ trel := fun hr =>
    Fs.resolve_straight (fun q hq _ => nolink q hq) (fun _ => nolink _ List.prefix_rfl) hr
  have hwhere : canon = j.root ++ trel := by
    obtain ⟨r, hr, hc⟩ := Option.bind_eq_some_iff.mp hcanon
    split at hc
    · cases hc
    · cases hc
      exact straight hr
  have ho : fs.obj (j.root ++ trel) = some (.file ino) := by
    obtain ⟨r, hr, ho⟩ := Option.bind_eq_some_iff.mp hfile
    rw [hwhere] at hr
    rwa [straight hr] at ho
  have hne : trel ≠ [] := by
    rintro rfl
    rw [List.append_nil, h.anchored] at ho
    cases ho
  rcases h.traced trel _ hne ho with ⟨a, ha, rfl, hm⟩ | ⟨hd, -⟩
  · rcases List.mem_append.mp (hx ▸ ha) with hseen | hrest
    · exact hno ⟨a, hseen, by cases hm <;> rfl, ht⟩
    · cases bare a ha (.inr hrest) _ ho
  · cases hd

theorem Job.split_unique {a b c d : List Entry} (h : j.entries = a ++ e :: b)
    (h' : j.entries = c ++ e :: d) : a = c := by
  have hnodup : (a ++ e :: b).Nodup := h ▸ List.Nodup.of_map _ j.ok.distinct
  have hrest := List.nodup_append.mp hnodup
  refine ((List.append_cons_inj_of_notMem (fun hmem => ?_) (List.nodup_cons.mp hrest.2.1).1).mp
    (h.symm.trans h')).1
  exact hrest.2.2 e hmem e (by simp) rfl

theorem Job.Between.reached {fs : Fs} {seen : List Entry} {t : Entry}
    (h : j.Between start seen done fs)
    (ht : t ∈ done) (hcontent : t.isContent = true) : fs.Passable (j.place t) ∧
      fs.reach true (j.place t) = some (j.place t) ∧ ∃ ino, fs.obj
      (j.place t) = some (.file ino) := by
  obtain ⟨ino, ho⟩ := (h.stood t ht).inode hcontent
  have hdir := Fs.parent_of_some (p := j.place t) (by rw [ho]; simp)
    (by simp [Job.place, j.ok.rel_ne_nil (h.known t ht).2])
  have hp := (h.since.passable_iff hdir).mpr (h.fits t ht).search
  exact ⟨hp, Fs.reach_of_passable true hdir (fun _ link => by rw [ho]; simp) hp, ino, ho⟩

theorem Fs.look_reached {fs : Fs} {p : Path} {ino : Nat} (hr : fs.reach true p = some p)
    (ho : fs.obj p = some (.file ino)) :
    fs.canonicalize p = some p ∧ fs.stat p = some (.file ino) ∧
      fs.grants (.look true p) = true := by
  refine ⟨?_, ?_, ?_⟩
  · simp [Fs.canonicalize, Fs.reach_resolve hr, ho]
  · simp [Fs.stat, Fs.reach_resolve hr, ho]
  · simp [Fs.grants, hr]

theorem owner_hardlinkEntry {path target : String} {seen rest : List Entry} (hstart : j.Opens start)
    (hx : e = .hardlink path target) (hsplit : j.entries = seen ++ e :: rest) (hnew : e ∉ done)
    (hbefore : ∀ before p t after, j.entries = before ++ .hardlink p t :: after →
      e ∈ after → Linked before t)
    (hdone : ∀ t ∈ seen, t.isContent = true → t ∈ done) :
    Triple (fun w => j.Turn start done e w.fs)
      (Kernel.owner.makeContent j.th j.map.asStore j.policy j.root (.hardlink path target))
      (fun _ w => j.Between start (done ++ [e]) (done ++ [e]) w.fs) (j.Stuck start) := by
  have he : e ∈ j.entries := by simp [hsplit]
  have hpath : sanitizeRelPath path = .ok e.rel := by
    have := j.ok.paths e he
    rwa [hx] at this ⊢
  obtain ⟨trel, ht⟩ := j.ok.hardlinks path target (hx ▸ he)
  have hplain : e.isDir = false := by rw [hx]; rfl
  refine Triple.lift_bind hpath ?_
  refine (owner_parent hstart he).bind fun _ => ?_
  refine Triple.lift_bind ht ?_
  refine (owner_assertParentWithin he).bind fun _ => ?_
  by_cases hlinked : Linked seen target
  · obtain ⟨t, hseen, hcontent, htarget⟩ := hlinked
    obtain rfl : trel = t.rel := Except.ok.inj (ht.symm.trans htarget)
    have htdone := hdone t hseen hcontent
    refine Triple.bind (Q := fun answer w => answer = .ok (j.place t) ∧
      j.Parented start done e w.fs)
      (owner_ask (by simp) (fun w canon hw hc _ => ⟨?_, hw⟩) fun w text hw hno => ?_) fun answer =>
        Triple.of_pre fun hanswer => ?_
    · obtain ⟨-, hr, ino, ho⟩ := hw.between.reached htdone hcontent
      exact congrArg _ (Option.some.inj (hc.symm.trans (Fs.look_reached hr ho).1))
    · obtain ⟨-, hr, ino, ho⟩ := hw.between.reached htdone hcontent
      obtain ⟨hcanon, -, hgranted⟩ := Fs.look_reached hr ho
      rcases hno with hnone | hdenied
      · cases hnone.symm.trans hcanon
      · cases hdenied.symm.trans hgranted
    subst hanswer
    simp only [List.isPrefixOf_iff_prefix.mpr (List.prefix_append j.root t.rel), Job.place, if_true]
    refine Triple.bind (Q := fun kind w => (∃ ino, kind = .ok (.file ino)) ∧
      j.Parented start done e w.fs)
      (owner_ask (by simp) (fun w x hw hs _ => ⟨?_, hw⟩) fun w text hw hno => ?_) fun kind =>
        Triple.of_pre fun hkind => ?_
    · obtain ⟨-, hr, ino, ho⟩ := hw.between.reached htdone hcontent
      exact ⟨ino, congrArg _ (Option.some.inj (hs.symm.trans (Fs.look_reached hr ho).2.1))⟩
    · obtain ⟨-, hr, ino, ho⟩ := hw.between.reached htdone hcontent
      obtain ⟨-, hstat, hgranted⟩ := Fs.look_reached hr ho
      rcases hno with hnone | hdenied
      · cases hnone.symm.trans hstat
      · cases hdenied.symm.trans hgranted
    obtain ⟨_, rfl⟩ := hkind
    refine (owner_clear he hnew hplain).bind fun _ => ?_
    refine owner_link (by simp [j.ok.rel_ne_nil he]) (fun w hw => hw.parent)
      (fun w hw =>
        ⟨(hw.between.reached htdone hcontent).1, (hw.between.reached htdone hcontent).2.2⟩)
      (fun w fs ino hw hp hwrite ho ha => ?_) fun w hw hno => ?_
    · have hlinked : Linked seen target := ⟨t, hseen, hcontent, htarget⟩
      subst hx
      refine hw.put he rfl (fun before p tgt after h hor => ?_) hp hwrite ha .hardlink ?_ trivial ?_
      · rcases List.mem_cons.mp (hor.resolve_left Bool.false_ne_true) with heq | hafter
        · cases heq
          exact j.split_unique hsplit h ▸ hlinked
        · exact hbefore before p tgt after h hafter
      · exact ⟨t, htdone, hcontent, htarget, ino, (ha.obj _).trans (if_pos rfl), ha.keeps ho⟩
      · rintro _ _ ⟨⟩ before after h
        exact j.split_unique hsplit h ▸ hlinked
    · exact hw.between.stuck (hw.shut he hplain (by rw [hx]; rfl) hno)
  · -- a link without a target before it ends the run, whatever its target leads to
    have unready : ¬j.Ready start := fun hready =>
      hlinked ((hready.fits e he).linked path target hx seen rest hsplit)
    have stops : ∀ {w : World}, j.Parented start done e w.fs → j.Stuck start w := fun hw =>
      hw.between.stuck unready
    refine Triple.bind (Q := fun found w => j.Parented start done e w.fs ∧
      ∀ canon, found = .ok canon →
      w.fs.canonicalize (j.root ++ trel) = some canon) (owner_ask
      (by simp) (fun w canon hw hc _ => ⟨hw, ?_⟩)
        fun w text hw _ => ⟨hw, by simp⟩) fun found => ?_
    · rintro _ ⟨⟩
      exact hc
    cases found with
    | error text => exact Triple.fail fun w hw => stops hw.1
    | ok canon =>
      simp only
      split
      · refine Triple.bind (Q := fun kind w => j.Parented start done e w.fs ∧
          ∀ ino, kind ≠ .ok (.file ino)) (owner_ask (by simp) (fun w x hw hs _ => ⟨hw.1, ?_⟩)
            fun w text hw _ => ⟨hw.1, by simp⟩) fun kind => ?_
        · rintro ino ⟨⟩
          exact hlinked (hw.1.between.remains.target (hx ▸ hsplit) ht (hw.2 canon rfl) hs)
        · cases kind with
          | error text => exact Triple.fail fun w hw => stops hw.1
          | ok x =>
            cases x with
            | dir => exact Triple.fail fun w hw => stops hw.1
            | symlink link => exact Triple.fail fun w hw => stops hw.1
            | file ino => exact fun _ _ w hw => absurd rfl (hw.2 ino)
      · exact Triple.fail fun w hw => stops hw.1

theorem owner_dirEntry {path : String} {mode : UInt32} {mtime : Int64} (hstart : j.Opens start)
    (hx : e = .dir path mode mtime) (he : e ∈ j.entries) :
    Triple (fun w => j.Turn start done e w.fs)
      (Kernel.owner.makeDirectory j.root (.dir path mode mtime))
      (fun _ w => j.Between start (done ++ [e]) (done ++ [e]) w.fs) (j.Stuck start) := by
  have hpath : sanitizeRelPath path = .ok e.rel := by
    have := j.ok.paths e he
    rwa [hx] at this ⊢
  have run :=
    owner_createDirs done hstart he e.rel [] e.rel List.prefix_rfl fun _ => by rw [hx]; rfl
  rw [List.append_nil, List.nil_append] at run
  refine Triple.lift_bind hpath (Triple.bind (run.pre fun w hw =>
    ⟨hw, hw.between.remains.anchored, hstart.reached⟩) fun _ => Triple.ret fun w hw => ?_)
  subst hx
  refine hw.1.between.lay he (by simp) hw.2.1
    ⟨hw.2.2, fun hplain => ?_, trivial, fun _ _ hlink => ?_⟩
  · cases hplain
  · cases hlink

theorem Job.Between.turn {fs : Fs} (h : j.Between start done done fs) (he : e ∈ j.entries)
    (hnew : e ∉ done) : j.Turn start done e fs :=
  ⟨h.see e, fun hplain => h.kept e he hplain hnew⟩

theorem Job.earlier {seen rest before after : List Entry} {x y : Entry}
    (hx : j.entries = seen ++ x :: rest) (hy : j.entries = before ++ y :: after)
    (hmem : x ∈ after) :
    y ∈ seen := by
  obtain ⟨a, b, rfl⟩ := List.append_of_mem hmem
  have hy' : j.entries = (before ++ y :: a) ++ x :: b := by rw [hy, List.append_assoc]; rfl
  rw [Job.split_unique hx hy']
  simp

theorem Job.Between.linked {fs : Fs} {s before after : List Entry} {path target : String}
    (h : j.Between start s done fs) (hmem : .hardlink path target ∈ done)
    (hsplit : j.entries = before ++ .hardlink path target :: after) : Linked before target :=
  (h.fits _ hmem).linked path target rfl before after hsplit

theorem Job.Opens.between (h : j.Opens start) : j.Between start [] [] start := by
  refine ⟨h.remains,
    ⟨rfl, fun _ hq => hq, fun _ => rfl, fun q name _ hne => .inl hne, fun _ _ => rfl⟩,
    fun a ha hplain _ => ⟨fun _ ho => ho, fun _ ho _ => ho, fun _ _ _ => rfl⟩, ?_, ?_, ?_⟩
  · simp
  · simp
  · simp

theorem owner_materializeUnder (hstart : j.Opens start) {Q : Unit → World → Prop}
    (hlast : Triple (fun w => j.Between start (passOrder j.entries) (passOrder j.entries) w.fs)
      (j.entries.reverse.forM (Kernel.owner.finishDirectory j.policy j.root)) Q (j.Stuck start)) :
    Triple (fun w => w.fs = start)
      (Kernel.owner.materializeUnder j.th j.map.asStore j.policy j.root j.entries) Q
      (j.Stuck start) := by
  refine (layout_passes (I := fun done w => j.Between start done done w.fs) j.ok
    (fun _ => Kernel.owner.makeDirectory_skip) (fun _ => Kernel.owner.makeContent_skip)
    (fun _ => Kernel.owner.makeSymlink_skip) ?_ ?_ ?_ hlast).pre ?_
  · intro seen path mode mtime rest hx hdone
    have hnew : Entry.dir path mode mtime ∉ seen.filter Entry.isDir :=
      fun hmem => (hdone _ hmem).2 rfl
    have he : Entry.dir path mode mtime ∈ j.entries := by simp [hx]
    exact (owner_dirEntry hstart rfl he).pre fun w hw => hw.turn he hnew
  · intro seen x rest hx hcontent hdone
    have he : x ∈ j.entries := by simp [hx]
    have hnew : x ∉ j.entries.filter Entry.isDir ++ seen.filter Entry.isContent := fun hmem =>
      (hdone _ hmem).2.1 rfl
    have done_of_seen : ∀ {y : Entry}, y ∈ seen → y.isContent = true →
        y ∈ j.entries.filter Entry.isDir ++ seen.filter Entry.isContent := fun hy hc =>
      List.mem_append_right _ (List.mem_filter.mpr ⟨hy, hc⟩)
    cases x with
    | dir path mode mtime => cases hcontent
    | symlink path target => cases hcontent
    | file path mode mtime size chunks =>
      refine (Triple.of_pre fun hlinks => owner_file hstart rfl he hnew hlinks).pre
        fun w hw => ⟨fun before p t after hy hor => ?_, hw.turn he hnew⟩
      refine hw.linked (done_of_seen (j.earlier hx hy ?_) rfl) hy
      simpa using hor.resolve_left Bool.false_ne_true
    | hardlink path target =>
      refine (Triple.of_pre fun hlinks =>
        owner_hardlinkEntry hstart rfl hx hnew hlinks fun t ht hc =>
        done_of_seen ht hc).pre fun w hw => ⟨fun before p t after hy hmem => ?_, hw.turn he hnew⟩
      exact hw.linked (done_of_seen (j.earlier hx hy hmem) rfl) hy
  · intro seen path target rest hx hdone
    have he : Entry.symlink path target ∈ j.entries := by simp [hx]
    have hnew : Entry.symlink path target ∉ j.entries.filter Entry.isDir ++
        j.entries.filter Entry.isContent ++
        seen.filter Entry.isSymlink := fun hmem => (hdone _ hmem).2 rfl
    refine (Triple.of_pre fun hlinks => owner_symlinkEntry hstart rfl he hnew hlinks).pre
      fun w hw => ⟨fun before p t after hy _ => ?_, hw.turn he hnew⟩
    have hmem : .hardlink p t ∈ j.entries.filter Entry.isContent :=
      List.mem_filter.mpr ⟨by simp [hy], rfl⟩
    exact hw.linked (List.mem_append_left _ (List.mem_append_right _ hmem)) hy
  · rintro w rfl
    exact hstart.between

end Turns

end Zblob

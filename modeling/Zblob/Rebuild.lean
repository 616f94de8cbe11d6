import Zblob.Fetch
import Zblob.Snapshot

/-!
Materializing a well laid out entry list into an empty directory, on a machine where no
call fails: it comes to its end, and what is there then is the entry list and nothing else.
-/

set_option autoImplicit false

namespace Zblob

open Program

theorem walkFrom_dirs {fs : Fs} {follow : Bool} {jump : Path → List Component → Option Path}
    {cur names : Path} (hdirs : ∀ pre post, names = pre ++ post → pre ≠ [] → post ≠ [] →
      fs.obj (cur ++ pre) = some .dir)
    (hend : follow = true → ∀ target, fs.obj (cur ++ names) ≠ some (.symlink target)) :
    walkFrom fs follow jump cur (names.map .normal) = some (cur ++ names) := by
  induction names generalizing cur with
  | nil => simp [walkFrom]
  | cons name names ih =>
    have happ : cur ++ [name] ++ names = cur ++ name :: names := by simp
    cases names with
    | nil =>
      simp only [List.map_cons, List.map_nil, walkFrom]
      cases ho : fs.obj (cur ++ [name]) with
      | none => rfl
      | some x =>
        cases x with
        | dir => rfl
        | file ino => rfl
        | symlink target =>
          cases follow with
          | false => rfl
          | true => exact absurd ho (hend rfl target)
    | cons next names =>
      have hdir : fs.obj (cur ++ [name]) = some .dir :=
        hdirs [name] (next :: names) rfl (by simp) (by simp)
      rw [List.map_cons, walkFrom, hdir, ← happ]
      refine ih (fun pre post hp hpre hpost => ?_) (by rwa [happ])
      rw [List.append_assoc]
      exact hdirs (name :: pre) post (by simp [hp]) (by simp) hpost

/-- A path in an existing directory leads to itself. -/
theorem Fs.resolve_in_dir {fs : Fs} {follow : Bool} {p : Path}
    (hdir : fs.obj p.dropLast = some .dir)
    (hend : follow = true → ∀ target, fs.obj p ≠ some (.symlink target)) :
    fs.resolve follow p = some p := by
  have hway : ∀ pre post, p = pre ++ post → pre ≠ [] → post ≠ [] →
      fs.obj ([] ++ pre) = some .dir := by
    intro pre post hp _ hpost
    have hpre : pre <+: p.dropLast := by
      rw [hp, List.dropLast_append_of_ne_nil hpost]
      exact List.prefix_append _ _
    exact Fs.dir_of_dir hdir hpre
  show walkFrom fs follow (walk fs follow 39) [] (p.map .normal) = some ([] ++ p)
  exact walkFrom_dirs hway hend

theorem Fs.parent_of_some {fs : Fs} {p : Path} (hp : fs.obj p ≠ none) (hne : p ≠ []) :
    fs.obj p.dropLast = some .dir := by
  refine Fs.dir_above hp (List.dropLast_prefix p) fun he => ?_
  have hlen := congrArg List.length he
  have := List.length_pos_iff.mpr hne
  rw [List.length_dropLast] at hlen
  omega

theorem Fs.resolve_of_some {fs : Fs} {follow : Bool} {p : Path} {x : Obj} (hp : fs.obj p = some x)
    (hend : follow = true → ∀ target, x ≠ .symlink target) : fs.resolve follow p = some p := by
  cases p with
  | nil => simp [Fs.resolve, walk, walkFrom, maxLinks]
  | cons name p =>
    refine Fs.resolve_in_dir (Fs.parent_of_some (by rw [hp]; simp) (by simp)) fun hf target ho => ?_
    rw [hp] at ho
    exact hend hf target (Option.some.inj ho)

theorem Fs.add_some {fs : Fs} {r : Path} {x : Obj} (hnone : fs.obj r = none) (hr : r ≠ [])
    (hdir : fs.obj r.dropLast = some .dir) (hx : x.below fs.nextIno = true) :
    ∃ fs', fs.add r x = some fs' := by
  unfold Fs.add
  rw [dif_pos ⟨hnone, hr, hdir, hx⟩]
  exact ⟨_, rfl⟩

section Calls

variable {io : Nat → KernelReply} {P : World → Prop}

theorem total_ask (hio : ∀ n, (io n).ok = true) {α : Type} {r : Request} {f : Fs → Option α} {a : α}
    (h : ∀ w, P w → f w.fs = some a) :
    Total io P (Kernel.free.ask r f) fun found w => found = .ok a ∧ P w := by
  refine Total.act fun n w hw => ?_
  simp [h w hw, hio n, hw]

theorem total_ask_none {α : Type} {r : Request} {f : Fs → Option α}
    (h : ∀ w, P w → f w.fs = none) :
    Total io P (Kernel.free.ask r f) fun found w => (∃ text, found = .error text) ∧ P w := by
  refine Total.act fun n w hw => ?_
  simp [h w hw, hw]

theorem total_must {c : Syscall} {Q : Unit → World → Prop}
    (h : ∀ n w, P w → ∃ fs, w.fs.perform (io n) c = some ⟨fs, true⟩ ∧ Q () (w.did c fs)) :
    Total io P (Kernel.free.must c) Q := by
  refine Total.bind (Q := fun ok w => ok = true ∧ Q () w) ?_ fun ok => ?_
  · refine Total.act fun n w hw => ?_
    obtain ⟨fs, hp, hq⟩ := h n w hw
    simpa [World.call, hp] using hq
  · refine Total.of_pre fun hok => ?_
    rw [hok]
    exact Total.ret fun w hw => hw

theorem total_sys {c : Syscall} (h : ∀ w d, P w → Change w.fs c d → P (w.did c d.fs)) :
    Total io P (Kernel.free.sys c) fun _ => P := by
  refine Total.act fun n w hw => ?_
  simp only [Kernel.free_eq, World.call]
  cases hp : w.fs.perform (io n) c with
  | none => exact hw
  | some d => exact h w d hw (Fs.perform_change hp)

end Calls

section Steps

variable {io : Nat → KernelReply} {P : World → Prop} {root : Path}

theorem total_existingDirs (hio : ∀ n, (io n).ok = true) {rel : RelPath} {cur names : Path}
    (h : ∀ w, P w → w.fs.obj (cur ++ names) = some .dir) :
    Total io P (createDirsFrom rel cur names) fun _ => P := by
  induction names generalizing cur with
  | nil => exact Total.ret fun _ hw => hw
  | cons name names ih =>
    have happ : cur ++ [name] ++ names = cur ++ name :: names := by simp
    refine Total.bind (total_ask (a := .dir) hio fun w hw => ?_) fun found => ?_
    · have hdir : w.fs.obj (cur ++ [name]) = some .dir :=
        Fs.dir_of_dir (h w hw) (by rw [← happ]; exact List.prefix_append _ _)
      simp [Fs.lstat, Fs.resolve_of_some hdir, hdir]
    · refine Total.of_pre fun hfound => ?_
      subst hfound
      exact ih fun w hw => by rw [happ]; exact h w hw

theorem total_assertParentWithin (hio : ∀ n, (io n).ok = true) {p : Path} (hp : p ≠ [])
    (hin : root <+: p.dropLast) (h : ∀ w, P w → w.fs.obj p.dropLast = some .dir) :
    Total io P (assertParentWithin root p) fun _ => P := by
  unfold assertParentWithin Kernel.assertParentWithin
  rw [if_neg hp]
  refine Total.bind (total_ask (a := p.dropLast) hio fun w hw => ?_) fun found => ?_
  · simp [Fs.canonicalize, Fs.resolve_of_some (h w hw), h w hw]
  · refine Total.of_pre fun hfound => ?_
    subst hfound
    simp only [List.isPrefixOf_iff_prefix.mpr hin, if_true]
    exact Total.ret fun _ hw => hw

theorem total_removeExisting {p : Path} {policy : MaterializePolicy}
    (h : ∀ w, P w → w.fs.obj p.dropLast = some .dir ∧ w.fs.obj p = none) :
    Total io P (removeExisting p policy) fun _ => P := by
  refine Total.bind (total_ask_none fun w hw => ?_) fun found => ?_
  · obtain ⟨hdir, hnone⟩ := h w hw
    have hr : w.fs.resolve false p = some p := Fs.resolve_in_dir hdir (by simp)
    simp [Fs.lstat, hr, hnone]
  · refine Total.of_pre fun hfound => ?_
    obtain ⟨text, rfl⟩ := hfound
    exact Total.ret fun _ hw => hw

theorem total_setMode {p : Path} {policy : MaterializePolicy} (mode : UInt32)
    (h : ∀ w r n m, P w → w.fs.resolve true p = some r → w.fs.node r = some n →
      P (w.did (.chmod p m) (w.fs.setMode n m))) : Total io P
      (setMode p mode policy) fun _ => P := by
  unfold setMode Kernel.setMode
  split
  · refine Total.bind (Q := fun _ => P) (total_sys fun w d hw hc => ?_) fun _ =>
      Total.ret fun _ hw => hw
    cases hc with
    | chmod hr hn => exact h w _ _ _ hw hr hn
  · exact Total.ret fun _ hw => hw

theorem total_setMtime {n : Node} (mtime : Int64) (h : ∀ w c, P w → P (w.did c w.fs)) :
    Total io P (setMtime n mtime) fun _ => P := by
  unfold setMtime Kernel.setMtime
  split
  · refine Total.bind (Q := fun _ => P) (total_sys fun w d hw hc => ?_) fun _ =>
      Total.ret fun _ hw => hw
    cases hc
    exact h w _ hw
  · exact Total.ret fun _ hw => hw

def Placed (A : Fs → Prop) (p : Path) (x : Obj) (fs' : Fs) : Prop := ∃ fs, A fs ∧ Added fs p x fs'

def FreshFile (A : Fs → Prop) (p : Path) (ino : Nat) (bytes : Bytes) (fs' : Fs) : Prop :=
  Placed (fun fs => A fs ∧ ino = fs.nextIno) p (.file ino) fs' ∧ fs'.data ino = bytes

theorem FreshFile.write {A : Fs → Prop} {p : Path} {ino : Nat} {sofar bytes : Bytes} {fs' : Fs}
    (h : FreshFile A p ino sofar fs') : FreshFile A p ino bytes (fs'.setData ino bytes) := by
  obtain ⟨⟨fs, ⟨hA, rfl⟩, ha⟩, -⟩ := h
  refine ⟨⟨fs, ⟨hA, rfl⟩, ha.absent, ha.inside, ha.parent, ha.obj, fun ino hlt => ?_, ha.mode⟩,
    if_pos rfl⟩
  rw [← ha.data ino hlt]
  exact if_neg (Nat.ne_of_lt hlt)

theorem FreshFile.setMode {A : Fs → Prop} {p r : Path} {ino : Nat}
    {bytes : Bytes} {fs' : Fs} {n : Node}
    {m : UInt32} (h : FreshFile A p ino bytes fs') (hr : fs'.resolve true p = some r)
    (hn : fs'.node r = some n) : FreshFile A p ino bytes (fs'.setMode n m) := by
  obtain ⟨⟨fs, ⟨hA, rfl⟩, ha⟩, hbytes⟩ := h
  have hp : fs'.obj p = some (.file fs.nextIno) := by simp [ha.obj]
  rw [Fs.resolve_of_some hp (by simp)] at hr
  cases hr
  simp only [Fs.node, hp, Option.some.injEq] at hn
  subst hn
  refine ⟨⟨fs, ⟨hA, rfl⟩, ha.absent, ha.inside, ha.parent, ha.obj, ha.data, fun n hd hino => ?_⟩,
    hbytes⟩
  rw [← ha.mode n hd hino]
  exact if_neg fun he => Nat.lt_irrefl _ (hino _ he)

theorem total_createFile (hio : ∀ n, (io n).ok = true) {A : Fs → Prop} {p : Path} (hp : p ≠ [])
    (h : ∀ fs, A fs → fs.obj p.dropLast = some .dir ∧ fs.obj p = none) :
    Total io (fun w => A w.fs) (createFile p) fun ino w => FreshFile A p ino [] w.fs := by
  refine Total.bind (Q := fun opened w => ∃ ino, opened = some ino ∧ FreshFile A p ino [] w.fs)
    (Total.act fun n w hw => ?_) fun opened => ?_
  · obtain ⟨hdir, hnone⟩ := h w.fs hw
    have hr : w.fs.resolve true p = some p := Fs.resolve_in_dir hdir fun _ target => by simp [hnone]
    obtain ⟨fs', hadd⟩ : ∃ fs', w.fs.addFile p = some fs' :=
      Fs.add_some hnone hp hdir (by simp [Obj.below, Fs.setData, Fs.setMode])
    have hperf : w.fs.perform (io n) (.create p) = some ⟨fs', true⟩ := by
      simp [Fs.perform, hio n, hr, hnone, hadd]
    obtain ⟨ha, hdata⟩ := Fs.addFile_added hadd
    refine ⟨w.fs.nextIno, ?_, ⟨w.fs, ⟨hw, rfl⟩, ?_⟩, ?_⟩
    · simp [World.call, hperf, Fs.createIno, hr, hnone]
    · simpa [World.call, hperf, World.did] using ha
    · simpa [World.call, hperf, World.did] using hdata
  · intro n w hw
    obtain ⟨ino, rfl, hf⟩ := hw
    exact ⟨ino, n, w, rfl, hf⟩

end Steps

def ChunkMap.asStore (m : ChunkMap) : ContentStore := ⟨fun _ h => .ok (m h)⟩

def contentOf (m : ChunkMap) (chunks : List ChunkRef) : Bytes :=
  (chunks.map fun c => (m c.hash).getD []).flatten

def HasChunk (th : TreeHash) (m : ChunkMap) (c : ChunkRef) : Prop :=
  ∃ piece, m c.hash = some piece ∧ UInt32.ofNat piece.length = c.len ∧ th.hash piece = c.hash

theorem total_writeChunks {io : Nat → KernelReply} (hio : ∀ n, (io n).ok = true) {th : TreeHash}
    {m : ChunkMap} {A : Fs → Prop} {p : Path} {ino : Nat} {chunks : List ChunkRef}
    (hchunks : ∀ c ∈ chunks, HasChunk th m c) (written : Nat) (sofar : Bytes) :
    Total io (fun w => FreshFile A p ino sofar w.fs) (writeChunks th m.asStore ino chunks written)
      fun n w => n = written + (contentOf m chunks).length ∧
        FreshFile A p ino (sofar ++ contentOf m chunks) w.fs := by
  induction chunks generalizing written sofar with
  | nil => exact Total.ret fun w hw => ⟨by simp [contentOf], by simpa [contentOf] using hw⟩
  | cons c chunks ih =>
    obtain ⟨piece, hget, hlen, hhash⟩ := hchunks c (by simp)
    have hcontent : contentOf m (c :: chunks) = piece ++ contentOf m chunks := by
      simp [contentOf, hget]
    have rest := ih (fun x hx => hchunks x (by simp [hx])) (written + piece.length) (sofar ++ piece)
    refine Total.bind (Q := fun _ w => FreshFile A p ino sofar w.fs) (Total.moment fun _ _ hw => hw)
      fun now => ?_
    refine Total.lift_bind (a := some piece) (by simp [ChunkMap.asStore, hget]) ?_
    simp only [hlen, hhash, ne_eq, not_true_eq_false, if_false]
    refine Total.bind (Q := fun _ w => FreshFile A p ino (sofar ++ piece) w.fs) ?_ fun _ => ?_
    · refine total_must fun n w hw => ⟨w.fs.setData ino (w.fs.data ino ++ piece), ?_, ?_⟩
      · simp [Fs.perform, hio n]
      · rw [hw.2]
        exact hw.write
    · refine rest.conseq (fun _ hw => hw) fun n w hw => ?_
      rw [hcontent, List.length_append]
      exact ⟨by omega, by simpa using hw.2⟩

section Entries

variable {io : Nat → KernelReply} {th : TreeHash} {m : ChunkMap} {policy : MaterializePolicy}
  {root : Path} {A : Fs → Prop}

def Free (root : Path) (rel : RelPath) (fs : Fs) : Prop :=
  fs.obj (root ++ rel.dropLast) = some .dir ∧ fs.obj (root ++ rel) = none

theorem Free.parent {rel : RelPath} {fs : Fs} (h : Free root rel fs) (hrel : rel ≠ []) :
    fs.obj (root ++ rel).dropLast = some .dir := by
  rw [List.dropLast_append_of_ne_nil hrel]
  exact h.1

theorem total_prepare (hio : ∀ n, (io n).ok = true) {rel : RelPath} (hrel : rel ≠ [])
    (hA : ∀ fs, A fs → Free root rel fs) {α : Type} {k : FsProg α} {Q : α → World → Prop}
    (hk : Total io (fun w => A w.fs) k Q) :
    Total io (fun w => A w.fs) (do
      let _ ← createDirConfined root rel.dropLast
      assertParentWithin root (root ++ rel)
      k) Q := by
  refine (total_existingDirs hio fun w hw => (hA _ hw).1).bind fun _ => ?_
  refine (total_assertParentWithin hio (by simp [hrel]) ?_ fun w hw => (hA _ hw).parent hrel).bind
    fun _ => hk
  rw [List.dropLast_append_of_ne_nil hrel]
  exact List.prefix_append _ _

theorem total_file (hio : ∀ n, (io n).ok = true) {path : String} {mode : UInt32} {mtime : Int64}
    {size : UInt64} {chunks : List ChunkRef} {rel : RelPath}
    (hpath : sanitizeRelPath path = .ok rel)
    (hrel : rel ≠ []) (hA : ∀ fs, A fs → Free root rel fs) (hchunks : ∀ c ∈ chunks, HasChunk th m c)
    (hsize : (contentOf m chunks).length = size.toNat) :
    Total io (fun w => A w.fs)
      (makeContent th m.asStore policy root (.file path mode mtime size chunks))
      fun _ w => ∃ ino, FreshFile A (root ++ rel) ino (contentOf m chunks) w.fs := by
  refine Total.lift_bind hpath (total_prepare hio hrel hA ?_)
  have hplace : ∀ fs, A fs → fs.obj (root ++ rel).dropLast = some .dir ∧
      fs.obj (root ++ rel) = none :=
    fun fs hfs => ⟨(hA fs hfs).parent hrel, (hA fs hfs).2⟩
  refine (total_removeExisting fun w hw => hplace w.fs hw).bind fun _ => ?_
  refine (total_createFile hio (by simp [hrel]) hplace).bind fun ino => ?_
  refine (total_writeChunks hio hchunks 0 []).bind fun written => ?_
  refine Total.of_pre fun hwritten => ?_
  rw [if_neg (by rw [hwritten, ← hsize]; simp)]
  refine (total_setMode mode fun w r n bits hw hr hn => hw.setMode hr hn).bind fun _ => ?_
  refine (total_setMtime mtime fun w c hw => ?_).conseq (fun _ hw => hw) fun _ w hw =>
    ⟨ino, by simpa using hw⟩
  exact hw

theorem total_hardlink (hio : ∀ n, (io n).ok = true) {path target : String} {rel trel : RelPath}
    (hpath : sanitizeRelPath path = .ok rel) (hrel : rel ≠ []) (hA : ∀ fs, A fs → Free root rel fs)
    (htarget : sanitizeRelPath target = .ok trel)
    (hthere : ∀ fs, A fs → ∃ ino, fs.obj (root ++ trel) = some (.file ino)) :
    Total io (fun w => A w.fs) (makeContent th m.asStore policy root (.hardlink path target))
      fun _ w => ∃ ino, Placed (fun fs => A fs ∧ fs.obj (root ++ trel) = some (.file ino))
        (root ++ rel)
        (.file ino) w.fs := by
  have hres : ∀ {fs follow}, A fs → fs.resolve follow (root ++ trel) = some (root ++ trel) := by
    intro fs follow hfs
    obtain ⟨ino, hino⟩ := hthere fs hfs
    exact Fs.resolve_of_some hino (by simp)
  refine Total.lift_bind hpath ?_
  refine (total_existingDirs hio fun w hw => (hA _ hw).1).bind fun _ => ?_
  refine Total.lift_bind htarget ?_
  refine (total_assertParentWithin hio (by simp [hrel]) ?_ fun w hw => (hA _ hw).parent hrel).bind
    fun _ => ?_
  · rw [List.dropLast_append_of_ne_nil hrel]
    exact List.prefix_append _ _
  refine Total.bind (total_ask (a := root ++ trel) hio fun w hw => ?_) fun found => ?_
  · obtain ⟨ino, hino⟩ := hthere _ hw
    simp [Fs.canonicalize, hres hw, hino]
  refine Total.of_pre fun hfound => ?_
  subst hfound
  simp only [List.isPrefixOf_iff_prefix.mpr (List.prefix_append root trel), if_true]
  refine Total.bind (Q := fun found w => (∃ ino, found = .ok (.file ino)) ∧ A w.fs)
    (Total.act fun n w hw => ?_) fun kind => ?_
  · obtain ⟨ino, hino⟩ := hthere _ hw
    simp [Fs.stat, hres hw, hino, hio n, hw]
  refine Total.of_pre fun hkind => ?_
  obtain ⟨_, rfl⟩ := hkind
  refine (total_removeExisting fun w hw => ⟨(hA _ hw).parent hrel, (hA _ hw).2⟩).bind fun _ => ?_
  refine total_must fun n w hw => ?_
  obtain ⟨ino, hino⟩ := hthere _ hw
  have hdir := (hA _ hw).parent hrel
  obtain ⟨fs', hadd⟩ := Fs.add_some (x := .file ino) (hA _ hw).2 (by simp [hrel]) hdir
    (by simpa [Obj.below] using w.fs.fresh _ _ hino)
  have hr : w.fs.resolve false (root ++ rel) = some (root ++ rel) :=
    Fs.resolve_in_dir hdir (by simp)
  exact ⟨fs', by simp [Fs.perform, hio n, hres hw, hr, hino, hadd], ino, w.fs, ⟨hw, hino⟩,
    Fs.add_added hadd⟩

theorem total_symlink (hio : ∀ n, (io n).ok = true) {path target : String} {rel : RelPath}
    (hpath : sanitizeRelPath path = .ok rel) (hrel : rel ≠ []) (hA : ∀ fs, A fs → Free root rel fs)
    (htarget : sanitizeSymlinkTarget rel target = .ok ()) :
    Total io (fun w => A w.fs) (makeSymlink policy root (.symlink path target))
      fun _ w => Placed A (root ++ rel) (.symlink target) w.fs := by
  refine Total.lift_bind hpath ?_
  refine Total.lift_bind htarget (total_prepare hio hrel hA ?_)
  refine (total_removeExisting fun w hw => ⟨(hA _ hw).parent hrel, (hA _ hw).2⟩).bind fun _ => ?_
  refine total_must fun n w hw => ?_
  have hdir := (hA _ hw).parent hrel
  obtain ⟨fs', hadd⟩ := Fs.add_some (x := .symlink target) (hA _ hw).2 (by simp [hrel]) hdir rfl
  have hr : w.fs.resolve false (root ++ rel) = some (root ++ rel) :=
    Fs.resolve_in_dir hdir (by simp)
  exact ⟨fs', by simp [Fs.perform, hio n, hr, hadd], w.fs, hw, Fs.add_added hadd⟩

end Entries

section Directories

variable {io : Nat → KernelReply} {policy : MaterializePolicy} {root : Path}

structure OnlyDirs (root : Path) (fs : Fs) : Prop where
  anchored : fs.obj root = some .dir
  dirs : ∀ q x, root <+: q → fs.obj q = some x → x = .dir

theorem OnlyDirs.added {fs fs' : Fs} {p : Path} (h : OnlyDirs root fs) (ha : Added fs p .dir fs') :
    OnlyDirs root fs' := by
  refine ⟨ha.keeps h.anchored, fun q x hq hx => ?_⟩
  rw [ha.obj] at hx
  split at hx
  · exact (Option.some.inj hx).symm
  · exact h.dirs q x hq hx

theorem total_createDirs (hio : ∀ n, (io n).ok = true) {rel : RelPath} {cur names : Path}
    (hcur : root <+: cur) :
    Total io (fun w => OnlyDirs root w.fs ∧ w.fs.obj cur = some .dir) (createDirsFrom rel cur names)
      fun _ w => OnlyDirs root w.fs := by
  induction names generalizing cur with
  | nil => exact Total.ret fun w hw => hw.1
  | cons name names ih =>
    have hnext : root <+: cur ++ [name] := hcur.trans (List.prefix_append _ _)
    have hres : ∀ {w : World}, w.fs.obj cur = some .dir →
        w.fs.resolve false (cur ++ [name]) = some (cur ++ [name]) :=
      fun hw => Fs.resolve_in_dir (by simpa using hw) (by simp)
    refine Total.bind (Q := fun found w => (OnlyDirs root w.fs ∧ w.fs.obj cur = some .dir) ∧
      (found = .ok .dir ∧ w.fs.obj (cur ++ [name]) = some .dir ∨
        (∃ text, found = .error text) ∧ w.fs.obj (cur ++ [name]) = none))
      (Total.act fun n w hw => ⟨?_, ?_⟩) fun found => ?_
    · cases hx : w.fs.lstat (cur ++ [name]) with
      | none => simpa [hx] using hw
      | some x => simpa [hx] using hw
    · cases ho : w.fs.obj (cur ++ [name]) with
      | none => simp [Fs.lstat, hres hw.2, ho]
      | some x =>
        cases hw.1.dirs _ _ hnext ho
        simp [Fs.lstat, hres hw.2, ho, hio n]
    · intro n w hw
      rcases hw with ⟨hw, ⟨rfl, hdir⟩ | ⟨⟨text, rfl⟩, hnone⟩⟩
      · exact ih hnext n w ⟨hw.1, hdir⟩
      · refine (Total.bind (Q := fun _ w => OnlyDirs root w.fs ∧
          w.fs.obj (cur ++ [name]) = some .dir)
          (P := fun v => v = w) (total_must fun k v hv => ?_) fun _ => ih hnext) n w rfl
        subst hv
        obtain ⟨fs', hadd⟩ : ∃ fs', v.fs.addDir (cur ++ [name]) = some fs' :=
          Fs.add_some hnone (by simp) (by simpa [Fs.setMode] using hw.2) rfl
        have ha := Fs.addDir_added hadd
        exact ⟨fs',
          by simp [Fs.perform, hio k, hres hw.2, hadd], hw.1.added ha, by simp [World.did, ha.obj]⟩

theorem total_makeDirectory (hio : ∀ n, (io n).ok = true) {e : Entry}
    (hpath : sanitizeRelPath e.path = .ok e.rel) :
    Total io (fun w => OnlyDirs root w.fs) (makeDirectory root e) fun _ w =>
      OnlyDirs root w.fs := by
  cases e with
  | dir path mode mtime =>
    refine Total.lift_bind hpath ?_
    refine ((total_createDirs hio List.prefix_rfl).conseq (fun w hw => ⟨hw, hw.anchored⟩)
      fun _ _ hw => hw).bind fun _ => ?_
    exact Total.ret fun _ hw => hw
  | file path mode mtime size chunks => exact Total.ret fun _ hw => hw
  | symlink path target => exact Total.ret fun _ hw => hw
  | hardlink path target => exact Total.ret fun _ hw => hw

theorem total_finishDirectory {P : World → Prop}
    (hmode : ∀ w c n m, P w → P (w.did c (w.fs.setMode n m)))
    (htime : ∀ w c, P w → P (w.did c w.fs)) (e : Entry) :
    Total io P (finishDirectory policy root e) fun _ => P := by
  have times : ∀ (p : Path) (mtime : Int64), Total io P (timeDirectory p mtime) fun _ => P := by
    intro p mtime
    unfold timeDirectory Kernel.timeDirectory
    split
    · refine Total.bind (Q := fun _ => P) (Total.act fun n w hw => ?_) fun found => ?_
      · split
        · exact hw
        · exact hw
      · cases found with
        | error text => exact Total.ret fun _ hw => hw
        | ok f => exact total_setMtime mtime htime
    · exact Total.ret fun _ hw => hw
  cases e with
  | file path mode mtime size chunks => exact Total.ret fun _ hw => hw
  | symlink path target => exact Total.ret fun _ hw => hw
  | hardlink path target => exact Total.ret fun _ hw => hw
  | dir path mode mtime =>
    simp only [Kernel.finishDirectory]
    split
    · exact Total.ret fun _ hw => hw
    · exact (times _ mtime).bind fun _ =>
        total_setMode mode fun w r n bits hw _ _ => hmode w _ n bits hw

theorem total_destination (hio : ∀ n, (io n).ok = true) {fs : Fs} {dest root : Path}
    (hroot : fs.canonicalize dest = some root) (hdir : fs.obj root = some .dir)
    {k : Path → FsProg Unit} {Q : Unit → World → Prop}
    (hk : Total io (fun w => w.fs = fs) (k root) Q) :
    Total io (fun w => w.fs = fs) (do
      createDirAll dest
      match ← Kernel.free.ask (.look true dest) (·.canonicalize dest) with
      | .error _ => Prog.fail .io
      | .ok root => k root) Q := by
  have hstat := Fs.stat_of_canonicalize hroot hdir
  refine Total.bind (Q := fun _ w => w.fs = fs) ?_ fun _ => ?_
  · refine Total.bind (total_ask (a := some .dir) hio fun w hw => ?_) fun found => ?_
    · rw [hw, hstat]
    · refine Total.of_pre fun hfound => ?_
      subst hfound
      exact Total.ret fun _ hw => hw
  · refine Total.bind (total_ask (a := root) hio fun w hw => ?_) fun found => ?_
    · rw [hw, hroot]
    · refine Total.of_pre fun hfound => ?_
      subst hfound
      exact hk

end Directories

/-- An entry list that can be laid out: every entry lies in a directory of the list, a hard
link comes after the file it names, and the store has the chunks. -/
structure Layout (th : TreeHash) (m : ChunkMap) (cdc : CdcParams)
    (entries : List Entry) : Prop where
  ok : EntriesOk cdc [] entries
  parents : ∀ e ∈ entries, e.rel.dropLast = [] ∨ ∃ d ∈ entries, d.isDir = true ∧
    d.rel = e.rel.dropLast
  links : ∀ seen path target rest, entries = seen ++ .hardlink path target :: rest →
    ∃ t ∈ seen, t.isFile = true ∧ sanitizeRelPath target = .ok t.rel
  stocked : ∀ path mode mtime size chunks, .file path mode mtime size chunks ∈ entries →
    (∀ c ∈ chunks, HasChunk th m c) ∧ (contentOf m chunks).length = size.toNat

abbrev Standing (th : TreeHash) (m : ChunkMap) (root : Path) (done : List Entry) (fs : Fs) : Prop :=
  Laid th m.asStore root done done ⟨fs, []⟩

theorem Laid.standing {th : TreeHash} {m : ChunkMap} {root : Path} {done : List Entry} {w : World}
    (h : Laid th m.asStore root done done w) : Standing th m root done w.fs :=
  ⟨h.anchored, h.traced, h.outputs, h.sole⟩

theorem hasChunk_pieces {th : TreeHash} {m : ChunkMap} {chunks : List ChunkRef}
    (h : ∀ c ∈ chunks, HasChunk th m c) :
    Pieces th m.asStore chunks (chunks.map fun c => (m c.hash).getD []) := by
  induction chunks with
  | nil => exact .nil
  | cons c chunks ih =>
    obtain ⟨piece, hget, hlen, hhash⟩ := h c (by simp)
    refine .cons ?_ (ih fun x hx => h x (by simp [hx]))
    simp only [hget, Option.getD_some]
    exact ⟨⟨0, by simp [ChunkMap.asStore, hget]⟩, hlen, hhash⟩

section Layout

variable {io : Nat → KernelReply} {th : TreeHash} {m : ChunkMap}
  {cdc : CdcParams} {entries : List Entry}
  {policy : MaterializePolicy} {root : Path} {done : List Entry} {fs fs' : Fs} {e : Entry}

theorem Layout.apart (h : Layout th m cdc entries) : Apart entries := by
  intro a ha b hb hdir hpre
  by_contra hne
  induction hn : b.rel.length generalizing b with
  | zero => exact h.ok.rel_ne_nil hb (List.length_eq_zero_iff.mp hn)
  | succ n ih =>
    have hup := prefix_parent hpre hne
    rcases h.parents b hb with hnil | ⟨d, hd, hisDir, hrel⟩
    · rw [hnil] at hup
      exact h.ok.rel_ne_nil ha (List.prefix_nil.mp hup)
    · rw [← hrel] at hup
      by_cases he : a.rel = d.rel
      · rw [h.ok.unique ha hd he, hisDir] at hdir
        cases hdir
      · refine ih d hd hup he ?_
        rw [hrel, List.length_dropLast, hn]
        rfl

theorem Standing.free (h : Standing th m root done fs) (layout : Layout th m cdc entries)
    (he : e ∈ entries)
    (hfile : e.isDir = false) (hdirs : ∀ d ∈ entries, d.isDir = true → d ∈ done)
    (hsub : ∀ y ∈ done, y ∈ entries) (hfresh : ∀ y ∈ done, y.rel ≠ e.rel) : Free root e.rel fs := by
  refine ⟨?_, ?_⟩
  · rcases layout.parents e he with hnil | ⟨d, hd, hisDir, hrel⟩
    · rw [hnil, List.append_nil]
      exact h.anchored
    · rw [← hrel]
      cases h.outputs d (hdirs d hd hisDir) with
      | dir ho => exact ho
      | file => cases hisDir
      | symlink => cases hisDir
      | hardlink => cases hisDir
  · have hvacant : Vacant ⟨true, true⟩ (root ++ e.rel) fs :=
      h.traced.vacant (layout.ok.rel_ne_nil he) hfresh
        (.inr fun y hy => layout.apart e he y (hsub y hy) hfile)
    rcases hvacant with hnone | ⟨-, hoff⟩
    · exact hnone
    · cases hoff

theorem Standing.placed {x : Obj} (h : Standing th m root done fs)
    (ha : Added fs (root ++ e.rel) x fs') (hmakes : e.Makes x)
    (hx : e.isFile = true → x = .file fs.nextIno) (hout : Output th m.asStore root fs' e) :
    Standing th m root (done ++ [e]) fs' := by
  have hadded := (h.see e).added (c := .mkdir []) ha (by simp) hmakes hx
  have hlaid : Laid th m.asStore root (done ++ [e]) done ⟨fs', []⟩ :=
    ⟨hadded.anchored, hadded.traced, hadded.outputs, hadded.sole⟩
  refine hlaid.lay hout fun hfile ino q hino hq => .inl ?_
  -- the inode of a new file has no older name
  rw [hx hfile] at ha
  rw [ha.obj, if_pos rfl] at hino
  cases hino
  rw [ha.obj] at hq
  split at hq
  · assumption
  · exact absurd (fs.fresh _ _ hq) (Nat.lt_irrefl _)

theorem total_content (hio : ∀ n, (io n).ok = true) (layout : Layout th m cdc entries)
    {seen rest : List Entry} (hx : entries = seen ++ e :: rest) (hcontent : e.isContent = true) :
    Total io
      (fun w => Standing th m root (entries.filter Entry.isDir ++ seen.filter Entry.isContent) w.fs)
      (makeContent th m.asStore policy root e) fun _ w =>
        Standing th m root
          (entries.filter Entry.isDir ++ seen.filter Entry.isContent ++ [e]) w.fs := by
  have he : e ∈ entries := by simp [hx]
  have hbefore : ∀ y ∈ entries.filter Entry.isDir, y ∈ entries ∧ y.isContent = false := by
    intro y hy
    obtain ⟨hmem, hdir⟩ := List.mem_filter.mp hy
    exact ⟨hmem, by cases y <;> first | rfl | cases hdir⟩
  have hpass := fun {y} => layout.ok.pass (y := y) hbefore hx hcontent
  generalize hdone : entries.filter Entry.isDir ++ seen.filter Entry.isContent = done at hpass ⊢
  have hdirs : ∀ d ∈ entries, d.isDir = true → d ∈ done := by
    intro d hd hisDir
    rw [← hdone]
    exact List.mem_append_left _ (List.mem_filter.mpr ⟨hd, hisDir⟩)
  have hfree : ∀ fs, Standing th m root done fs → Free root e.rel fs := fun fs hfs =>
    hfs.free layout he (by cases e <;> first | rfl | cases hcontent) hdirs
      (fun y hy => (hpass hy).1)
      fun y hy => (hpass hy).2.2
  cases e with
  | dir path mode mtime => cases hcontent
  | symlink path target => cases hcontent
  | file path mode mtime size chunks =>
    obtain ⟨hchunks, hsize⟩ := layout.stocked path mode mtime size chunks he
    refine (total_file hio (layout.ok.paths _ he) (layout.ok.rel_ne_nil he)
      hfree hchunks hsize).conseq
      (fun _ hw => hw) fun _ w hw => ?_
    obtain ⟨ino, ⟨fs, ⟨hfs, rfl⟩, ha⟩, hdata⟩ := hw
    refine hfs.placed ha .file (fun _ => rfl) ?_
    have hplace : w.fs.obj (root ++ (Entry.file path mode mtime size chunks).rel) =
        some (.file fs.nextIno) := by
      simp [ha.obj]
    exact .file hplace (hasChunk_pieces hchunks) hdata (by rw [hdata, hsize])
  | hardlink path target =>
    obtain ⟨t, ht, htfile, htarget⟩ := layout.links seen path target rest hx
    have htdone : t ∈ done := by
      rw [← hdone]
      refine List.mem_append_right _ (List.mem_filter.mpr ⟨ht, ?_⟩)
      cases t <;> first | rfl | cases htfile
    have hthere : ∀ fs, Standing th m root done fs → ∃ ino,
        fs.obj (root ++ t.rel) = some (.file ino) := by
      intro fs hfs
      cases hfs.outputs t htdone with
      | dir => cases htfile
      | symlink => cases htfile
      | file ho => exact ⟨_, ho⟩
      | hardlink _ ho => exact ⟨_, ho⟩
    refine (total_hardlink hio (layout.ok.paths _ he) (layout.ok.rel_ne_nil he)
      hfree htarget hthere).conseq
      (fun _ hw => hw) fun _ w hw => ?_
    obtain ⟨ino, fs, ⟨hfs, hino⟩, ha⟩ := hw
    exact hfs.placed ha .hardlink (fun hfile => by cases hfile)
      (.hardlink htarget (by simp [ha.obj]) (ha.keeps hino))

theorem total_symlinkEntry (hio : ∀ n, (io n).ok = true) (layout : Layout th m cdc entries)
    {before seen rest : List Entry} (hx : entries = seen ++ e :: rest) (hlink : e.isSymlink = true)
    (hbefore : ∀ y ∈ before, y ∈ entries ∧ y.isSymlink = false)
    (hdirs : ∀ d ∈ entries, d.isDir = true → d ∈ before) :
    Total io (fun w => Standing th m root (before ++ seen.filter Entry.isSymlink) w.fs)
      (makeSymlink policy root e) fun _ w =>
        Standing th m root (before ++ seen.filter Entry.isSymlink ++ [e]) w.fs := by
  have he : e ∈ entries := by simp [hx]
  have hpass := fun {y} => layout.ok.pass (y := y) hbefore hx hlink
  generalize hdone : before ++ seen.filter Entry.isSymlink = done at hpass ⊢
  cases e with
  | dir path mode mtime => cases hlink
  | file path mode mtime size chunks => cases hlink
  | hardlink path target => cases hlink
  | symlink path target =>
    have hfree : ∀ fs, Standing th m root done fs →
        Free root (Entry.symlink path target).rel fs := by
      intro fs hfs
      refine hfs.free layout he rfl (fun d hd hisDir => ?_) (fun y hy => (hpass hy).1)
        fun y hy => (hpass hy).2.2
      rw [← hdone]
      exact List.mem_append_left _ (hdirs d hd hisDir)
    refine (total_symlink hio (layout.ok.paths _ he) (layout.ok.rel_ne_nil he) hfree
      (layout.ok.symlinks path target he)).conseq (fun _ hw => hw) fun _ w hw => ?_
    obtain ⟨fs, hfs, ha⟩ := hw
    exact hfs.placed ha .symlink (fun hfile => by cases hfile) (.symlink (by simp [ha.obj]))

theorem total_pass {I : List Entry → World → Prop} (pick : Entry → Bool) {before : List Entry}
    {body : Entry → FsProg Unit} (hskip : ∀ x, pick x = false → body x = pure ())
    (hbody : ∀ seen x rest, entries = seen ++ x :: rest → pick x = true →
      Total io (I (before ++ seen.filter pick)) (body x) fun _ => I
      (before ++ seen.filter pick ++ [x])) :
    Total io (I before) (entries.forM body) fun _ => I (before ++ entries.filter pick) := by
  refine (Total.forM (I := fun seen => I (before ++ seen.filter pick)) entries
    fun seen x rest hx => ?_).conseq (fun w hw => by simpa using hw) fun _ _ hw => hw
  cases hp : pick x with
  | false =>
    rw [hskip x hp]
    exact Total.ret fun w hw => by simpa [hp] using hw
  | true =>
    have step := hbody seen x rest hx hp
    simpa [hp, List.append_assoc] using step

theorem total_directories (hio : ∀ n, (io n).ok = true) (layout : Layout th m cdc entries) :
    Total io (Laid th m.asStore root [] []) (entries.forM (makeDirectory root)) fun _ w =>
      Standing th m root (entries.filter Entry.isDir) w.fs := by
  have hrun : Total io (Laid th m.asStore root [] []) (entries.forM (makeDirectory root)) fun _ w =>
      OnlyDirs root w.fs := by
    refine (Total.forM (I := fun _ w => OnlyDirs root w.fs) entries fun done x rest hx =>
      total_makeDirectory hio (layout.ok.paths x (by simp [hx]))).conseq (fun w hw =>
        ?_) fun _ _ hw => hw
    refine ⟨hw.anchored, fun q x hq ho => ?_⟩
    obtain ⟨rest, rfl⟩ := hq
    cases rest with
    | nil =>
      rw [List.append_nil, hw.anchored] at ho
      exact (Option.some.inj ho).symm
    | cons name rest =>
      rcases hw.traced _ x (by simp) ho with ⟨e, he, -⟩ | ⟨hdir, -⟩
      · cases he
      · exact hdir
  have hlaid : Triple (Laid th m.asStore root [] []) (entries.forM (makeDirectory root))
      (fun _ => Laid th m.asStore root (entries.filter Entry.isDir) (entries.filter Entry.isDir))
      fun _ => True := by
    refine entries_pass layout.ok Entry.isDir []
      (I := fun done => Laid th m.asStore root done done) (by simp)
      (fun _ => Kernel.free.makeDirectory_skip) fun seen x rest hx hp _ => ?_
    have he : x ∈ entries := by simp [hx]
    cases x with
    | dir path mode mtime => exact laid_dir (layout.ok.paths _ he)
    | file path mode mtime size chunks => cases hp
    | symlink path target => cases hp
    | hardlink path target => cases hp
  exact (hrun.and_triple hlaid).conseq (fun _ hw => hw) fun _ w hw => hw.2.standing

theorem total_materializeUnder (hio : ∀ n, (io n).ok = true) (layout : Layout th m cdc entries) :
    Total io (Laid th m.asStore root [] []) (materializeUnder th m.asStore policy root entries)
      fun _ w => Standing th m root (passOrder entries) w.fs := by
  refine (total_directories hio layout).bind fun _ => ?_
  refine (total_pass (I := fun done w => Standing th m root done w.fs) Entry.isContent
    (fun _ => Kernel.free.makeContent_skip) fun seen x rest hx hp =>
      total_content hio layout hx hp).bind fun _ => ?_
  refine (total_pass (I := fun done w => Standing th m root done w.fs) Entry.isSymlink
    (fun _ => Kernel.free.makeSymlink_skip) fun seen x rest hx hp =>
      total_symlinkEntry hio layout hx hp
      (fun y hy => mem_dirs_contents hy) ?_).bind fun _ => ?_
  · intro d hd hisDir
    exact List.mem_append_left _ (List.mem_filter.mpr ⟨hd, hisDir⟩)
  refine Total.forM (I := fun _ (w : World) => Standing th m root (passOrder entries) w.fs)
    entries.reverse
    fun _ x _ _ => total_finishDirectory (fun w c n bits hw => ?_) (fun w c hw => hw) x
  exact (Laid.setMode (c := c) hw).standing

/-- Into an empty directory, a list that can be laid out is laid out, whatever the policy. -/
theorem reconstructTree_layout (policy : MaterializePolicy) (hio : ∀ n, (io n).ok = true)
    (layout : Layout th m cdc entries)
    {dest : Path} (hroot : fs.canonicalize dest = some root) (hdir : fs.obj root = some .dir)
    (hempty : ∀ q, q ≠ [] → fs.obj (root ++ q) = none) :
    ∃ n w, reconstructTree th dest entries m.asStore policy io 0 ⟨fs, []⟩ = (.ok (), n, w) ∧
      Standing th m root (passOrder entries) w.fs := by
  have start : ∀ w : World, w.fs = fs → Laid th m.asStore root [] [] w := by
    rintro w rfl
    exact Laid.start hdir hempty w.log
  have run := total_destination hio hroot hdir
    (k := fun root => materializeUnder th m.asStore policy root entries)
    ((total_materializeUnder hio layout).conseq start fun _ _ hw => hw)
  obtain ⟨u, n, w, hrun, hw⟩ := run 0 ⟨fs, []⟩ rfl
  exact ⟨n, w, hrun, hw⟩

end Layout

end Zblob

import Zblob.Posix
import Zblob.Lib.Runs

/-!
Downloads of one client that run at the same time. The client refuses a second download to
a destination it is already writing; each download also owns two names derived from its
destination.
-/

set_option autoImplicit false

namespace Zblob

def partPath (dest : String) : String := dest ++ ".part"

def sidecarPath (part : String) : String := part ++ ".meta"

/-- The names that a download writes, renames over or removes. -/
def artefacts (dest : String) : List String := [dest, partPath dest, sidecarPath (partPath dest)]

def joinPath (dir name : String) : String :=
  if dir.toList = [] ∨ dir.toList.getLast? = some '/' then dir ++ name else dir ++ "/" ++ name

/-- The active set of a client, whose paths compare by their components, and the downloads
that hold a guard. -/
structure Flights where
  active : List (List Component)
  running : Nat → Option String
  next : Nat

namespace Flights

def new : Flights := ⟨[], fun _ => none, 0⟩

def acquire (s : Flights) (dest : String) : Result Flights :=
  if components dest ∈ s.active then
    .error (.usage ("a download to " ++ debugStr dest ++ " is already in progress on this client"))
  else
    .ok ⟨components dest :: s.active, Function.update s.running s.next (some dest), s.next + 1⟩

def release (s : Flights) (n : Nat) : Flights :=
  match s.running n with
  | none => s
  | some dest => { s with
      active := s.active.filter (· ≠ components dest)
      running := Function.update s.running n none }

inductive Op where
  | start (dest : String)
  | finish (n : Nat)

def apply (op : Op) (s : Flights) : Flights :=
  match op with
  | .start dest =>
    match s.acquire dest with
    | .ok s => s
    | .error _ => s
  | .finish n => s.release n

structure Apart (s : Flights) : Prop where
  fresh : ∀ i d, s.running i = some d → i < s.next
  active : ∀ i d, s.running i = some d → components d ∈ s.active
  apart : ∀ i j d e, i ≠ j → s.running i = some d → s.running j = some e →
    components d ≠ components e

theorem acquire_apart {s t : Flights} {dest : String} (h : s.Apart) (ht : s.acquire dest = .ok t) :
    t.Apart := by
  unfold acquire at ht
  split at ht
  · cases ht
  · rename_i hfree
    cases ht
    have known : ∀ i d, Function.update s.running s.next (some dest) i = some d →
        (i = s.next ∧ d = dest) ∨ (i ≠ s.next ∧ s.running i = some d) := by
      intro i d hd
      by_cases hi : i = s.next
      · subst hi
        rw [Function.update_self] at hd
        exact .inl ⟨rfl, (Option.some.inj hd).symm⟩
      · rw [Function.update_of_ne hi] at hd
        exact .inr ⟨hi, hd⟩
    constructor
    · intro i d hd
      rcases known i d hd with ⟨rfl, -⟩ | ⟨-, hold⟩
      · exact Nat.lt_succ_self _
      · exact Nat.lt_succ_of_lt (h.fresh i d hold)
    · intro i d hd
      rcases known i d hd with ⟨-, rfl⟩ | ⟨-, hold⟩
      · exact List.mem_cons_self
      · exact List.mem_cons_of_mem _ (h.active i d hold)
    · intro i j d e hij hd he
      rcases known i d hd with ⟨rfl, rfl⟩ | ⟨-, hd'⟩
      · rcases known j e he with ⟨rfl, -⟩ | ⟨-, he'⟩
        · exact absurd rfl hij
        · exact fun heq => hfree (heq ▸ h.active j e he')
      · rcases known j e he with ⟨rfl, rfl⟩ | ⟨-, he'⟩
        · exact fun heq => hfree (heq ▸ h.active i d hd')
        · exact h.apart i j d e hij hd' he'

theorem release_apart {s : Flights} (h : s.Apart) (n : Nat) : (s.release n).Apart := by
  unfold release
  split
  · exact h
  · rename_i dest hdest
    have known : ∀ i d, Function.update s.running n none i = some d →
        i ≠ n ∧ s.running i = some d := by
      intro i d hd
      by_cases hi : i = n
      · subst hi
        rw [Function.update_self] at hd
        cases hd
      · rw [Function.update_of_ne hi] at hd
        exact ⟨hi, hd⟩
    constructor
    · intro i d hd
      exact h.fresh i d (known i d hd).2
    · intro i d hd
      obtain ⟨hi, hold⟩ := known i d hd
      exact List.mem_filter.mpr ⟨h.active i d hold, by simpa using h.apart i n d dest hi hold hdest⟩
    · intro i j d e hij hd he
      exact h.apart i j d e hij (known i d hd).2 (known j e he).2

/-- Whatever starts and ends, the downloads that run together have different destinations. -/
theorem run_apart (ops : List Op) {s : Flights} (h : s.Apart) : (Runs.run apply ops s).Apart := by
  induction ops generalizing s with
  | nil => exact h
  | cons op ops ih =>
    rw [Runs.run_cons]
    apply ih
    cases op with
    | start dest =>
      simp only [apply]
      cases ht : s.acquire dest with
      | error e => exact h
      | ok t => exact acquire_apart h ht
    | finish n => exact release_apart h n

end Flights

def cutName (path : List Char) : List Char × List Char :=
  ((path.reverse.dropWhile (· ≠ '/')).reverse, (path.reverse.takeWhile (· ≠ '/')).reverse)

def Fs.dirAt (fs : Fs) (cwd : Path) (path : List Char) : Option Path :=
  (walk fs true maxLinks cwd (components (String.ofList path))).bind fun r =>
    if fs.obj r = some .dir then some r else none

/-- The directory entry that a path names: the last name in the directory before it, or the
directory itself where the path ends in a slash or in dots. -/
def Fs.locate (fs : Fs) (cwd : Path) (path : String) : Option Path :=
  match segment (cutName path.toList).2 with
  | some (.normal name) => (fs.dirAt cwd (cutName path.toList).1).map (· ++ [name])
  | _ => fs.dirAt cwd path.toList

def Fs.spot (fs : Fs) (cwd : Path) (path : String) : Option (Path × List Char) :=
  (fs.dirAt cwd (cutName path.toList).1).map fun dir => (dir, (cutName path.toList).2)

/-- No name of one download is an entry that the other works on. -/
def Isolated (fs : Fs) (cwd : Path) (d e : String) : Prop :=
  ∀ a ∈ artefacts d, ∀ b ∈ artefacts e, ∀ p, fs.locate cwd a = some p → fs.locate cwd b ≠ some p

/-- Neither destination is an entry the other works on, and they are not spelled with the
same last name behind the same directory. -/
structure Clear (fs : Fs) (cwd : Path) (d e : String) : Prop where
  left : ∀ b ∈ artefacts e, ∀ p, fs.locate cwd d = some p → fs.locate cwd b ≠ some p
  right : ∀ a ∈ artefacts d, ∀ p, fs.locate cwd a = some p → fs.locate cwd e ≠ some p
  spot : ∀ x, fs.spot cwd d = some x → fs.spot cwd e ≠ some x

section Locate

theorem cutName_append (s : List Char) {t : List Char} (ht : '/' ∉ t) :
    cutName (s ++ t) = ((cutName s).1, (cutName s).2 ++ t) := by
  have hall : ∀ c ∈ t.reverse, decide (c ≠ '/') = true := by
    intro c hc
    rw [decide_eq_true_eq]
    rintro rfl
    exact ht (List.mem_reverse.mp hc)
  simp only [cutName, List.reverse_append, List.takeWhile_append_of_pos hall,
    List.dropWhile_append_of_pos hall, List.reverse_reverse]

theorem cutName_base {s : List Char} (h : s = [] ∨ s.getLast? = some '/') :
    cutName s = (s, []) := by
  rcases h with rfl | h
  · rfl
  · obtain ⟨ys, rfl⟩ := List.getLast?_eq_some_iff.mp h
    simp [cutName]

variable {fs : Fs} {cwd : Path} {d e : String}

theorem locate_suffix (fs : Fs) (cwd : Path) (d : String) {suffix : String}
    (hslash : '/' ∉ suffix.toList)
    (hlong : 2 < suffix.toList.length) :
    fs.locate cwd (d ++ suffix) =
      (fs.spot cwd d).map fun x => x.1 ++ [String.ofList (x.2 ++ suffix.toList)] := by
  have hseg : segment ((cutName d.toList).2 ++ suffix.toList) =
      some (.normal (String.ofList ((cutName d.toList).2 ++ suffix.toList))) := by
    have hlen : 2 < ((cutName d.toList).2 ++ suffix.toList).length := by
      rw [List.length_append]
      omega
    unfold segment
    rw [if_neg, if_neg]
    · intro heq
      rw [heq] at hlen
      simp at hlen
    · rintro (heq | heq) <;> rw [heq] at hlen <;> simp at hlen
  simp only [Fs.locate, Fs.spot, String.toList_append, cutName_append _ hslash,
    hseg, Option.map_map]
  rfl

theorem locate_part (fs : Fs) (cwd : Path) (d : String) : fs.locate cwd (partPath d) =
    (fs.spot cwd d).map fun x => x.1 ++ [String.ofList (x.2 ++ ".part".toList)] :=
  locate_suffix fs cwd d (by decide) (by decide)

theorem locate_sidecar (fs : Fs) (cwd : Path) (d : String) :
    fs.locate cwd (sidecarPath (partPath d)) =
    (fs.spot cwd d).map fun x => x.1 ++ [String.ofList (x.2 ++ ".part.meta".toList)] := by
  have happend : sidecarPath (partPath d) = d ++ ".part.meta" := by
    rw [sidecarPath, partPath, String.append_assoc]
    rfl
  rw [happend]
  exact locate_suffix fs cwd d (by decide) (by decide)

theorem suffix_entry {x y : Path × List Char} {suffix : List Char}
    (h : x.1 ++ [String.ofList (x.2 ++ suffix)] = y.1 ++ [String.ofList (y.2 ++ suffix)]) :
    x = y := by
  obtain ⟨hdir, hname⟩ := List.append_inj' h rfl
  have hname := String.ofList_injective (List.singleton_inj.mp hname)
  exact Prod.ext hdir (List.append_cancel_right hname)

theorem part_ne_sidecar (x y : Path × List Char) :
    x.1 ++ [String.ofList (x.2 ++ ".part".toList)] ≠ y.1 ++
      [String.ofList (y.2 ++ ".part.meta".toList)] := by
  intro h
  obtain ⟨-, hname⟩ := List.append_inj' h rfl
  have hname := String.ofList_injective (List.singleton_inj.mp hname)
  have hlast := congrArg List.getLast? hname
  simp [List.getLast?_append] at hlast

theorem isolated_iff : Isolated fs cwd d e ↔ Clear fs cwd d e := by
  constructor
  · intro h
    refine ⟨h d (by simp [artefacts]), fun a ha => h a ha e (by simp [artefacts]),
      fun x hd he => ?_⟩
    refine h (partPath d) (by simp [artefacts]) (partPath e) (by simp [artefacts])
      (x.1 ++ [String.ofList (x.2 ++ ".part".toList)]) ?_ ?_
    · rw [locate_part, hd]
      rfl
    · rw [locate_part, he]
      rfl
  · intro h a ha b hb p hap hbp
    -- what is not about a destination is about two derived names
    have hderived : ∀ c ∈ artefacts d, c = d ∨ c = partPath d ∨ c = sidecarPath (partPath d) := by
      simp [artefacts]
    rcases hderived a ha with rfl | hd
    · exact h.left b hb p hap hbp
    have hderived : b = e ∨ b = partPath e ∨ b = sidecarPath (partPath e) :=
      by simpa [artefacts] using hb
    rcases hderived with rfl | he
    · exact h.right a ha p hap hbp
    rcases hd with rfl | rfl <;> rcases he with rfl | rfl
    · rw [locate_part] at hap hbp
      obtain ⟨x, hx, rfl⟩ := Option.map_eq_some_iff.mp hap
      obtain ⟨y, hy, hxy⟩ := Option.map_eq_some_iff.mp hbp
      exact h.spot x hx (suffix_entry hxy ▸ hy)
    · rw [locate_part] at hap
      rw [locate_sidecar] at hbp
      obtain ⟨x, -, rfl⟩ := Option.map_eq_some_iff.mp hap
      obtain ⟨y, -, hxy⟩ := Option.map_eq_some_iff.mp hbp
      exact part_ne_sidecar x y hxy.symm
    · rw [locate_sidecar] at hap
      rw [locate_part] at hbp
      obtain ⟨x, -, rfl⟩ := Option.map_eq_some_iff.mp hap
      obtain ⟨y, -, hxy⟩ := Option.map_eq_some_iff.mp hbp
      exact part_ne_sidecar y x hxy
    · rw [locate_sidecar] at hap hbp
      obtain ⟨x, hx, rfl⟩ := Option.map_eq_some_iff.mp hap
      obtain ⟨y, hy, hxy⟩ := Option.map_eq_some_iff.mp hbp
      exact h.spot x hx (suffix_entry hxy ▸ hy)

end Locate

section Staged

variable {fs : Fs} {cwd : Path}

def stageBase (dir : String) : String := joinPath dir ""

theorem joinPath_base (dir name : String) : joinPath dir name = stageBase dir ++ name := by
  unfold stageBase joinPath
  split <;> simp

theorem stageBase_ends (dir : String) :
    (stageBase dir).toList = [] ∨ (stageBase dir).toList.getLast? = some '/' := by
  unfold stageBase joinPath
  split
  · rename_i h
    rwa [String.append_empty]
  · exact .inr (by simp)

theorem id_no_slash {id : String} (h : BlobId.isValid id = true) : '/' ∉ id.toList := by
  simp only [BlobId.isValid, Bool.and_eq_true, Bool.not_eq_true', List.any_eq_false] at h
  intro hm
  have := h.1.2 '/' hm
  simp at this

theorem cutName_staged {dir id : String} (h : BlobId.isValid id = true) :
    cutName (joinPath dir id).toList = ((stageBase dir).toList, id.toList) := by
  rw [joinPath_base, String.toList_append, cutName_append _ (id_no_slash h),
    cutName_base (stageBase_ends dir)]
  rfl

theorem spot_staged {dir id : String} (h : BlobId.isValid id = true) :
    fs.spot cwd (joinPath dir id) =
      (fs.dirAt cwd (stageBase dir).toList).map fun stage => (stage, id.toList) := by
  rw [Fs.spot, cutName_staged h]

theorem dirAt_dot {s : List Char} (h : s = [] ∨ s.getLast? = some '/') :
    fs.dirAt cwd (s ++ ['.']) = fs.dirAt cwd s := by
  rcases h with rfl | h
  · rfl
  · obtain ⟨ys, rfl⟩ := List.getLast?_eq_some_iff.mp h
    have hcomp : components (String.ofList (ys ++ ['/'] ++ ['.'])) =
        components (String.ofList (ys ++ ['/'])) := by
      simp only [components, String.toList_ofList, List.append_assoc,
        List.singleton_append, splitSlash_append]
      cases hy : splitSlash ys with
      | nil => exact absurd hy (splitSlash_ne_nil ys)
      | cons first rest => simp [splitSlash, segment]
    simp only [Fs.dirAt, hcomp]

def stagedEntry (stage : Path) (id : String) : Path := if id = "." then stage else stage ++ [id]

theorem locate_staged {dir id : String} (h : BlobId.isValid id = true) :
    fs.locate cwd (joinPath dir id) =
      (fs.dirAt cwd (stageBase dir).toList).map fun stage => stagedEntry stage id := by
  simp only [Fs.locate, cutName_staged h]
  by_cases hdot : id = "."
  · subst hdot
    have htext : (joinPath dir ".").toList = (stageBase dir).toList ++ ['.'] := by
      rw [joinPath_base, String.toList_append]
      rfl
    rw [htext, dirAt_dot (stageBase_ends dir)]
    simp [segment, stagedEntry]
  · have hseg : segment id.toList = some (.normal id) := by
      simp only [BlobId.isValid, Bool.and_eq_true, Bool.not_eq_true',
        String.isEmpty_eq_false_iff, bne_iff_ne] at h
      unfold segment
      rw [if_neg, if_neg, String.ofList_toList]
      · exact fun heq => h.1.1.1.2 (String.toList_injective heq)
      · rintro (heq | heq)
        · exact h.1.1.1.1.1 (String.toList_injective heq)
        · exact hdot (String.toList_injective heq)
    simp [hseg, stagedEntry, hdot]

theorem stagedEntry_eq {stage : Path} {id name : String} (hname : name ≠ ".") :
    stagedEntry stage id = stage ++ [name] ↔ id = name := by
  unfold stagedEntry
  split
  · rename_i hid
    subst hid
    simp [Ne.symm hname]
  · simp

theorem stagedEntry_injective {stage : Path} {a b : String}
    (h : stagedEntry stage a = stagedEntry stage b) :
    a = b := by
  by_cases hb : b = "."
  · subst hb
    unfold stagedEntry at h
    split at h
    · assumption
    · simp at h
  · rw [stagedEntry, stagedEntry, if_neg hb] at h
    exact (stagedEntry_eq hb).mp h

theorem locate_staged_part {dir id : String} (h : BlobId.isValid id = true) :
    fs.locate cwd (partPath (joinPath dir id)) =
      (fs.dirAt cwd (stageBase dir).toList).map fun stage => stage ++ [partPath id] := by
  rw [locate_part, spot_staged h, Option.map_map]
  simp [Function.comp_def, partPath, String.ofList_append]

theorem locate_staged_sidecar {dir id : String} (h : BlobId.isValid id = true) :
    fs.locate cwd (sidecarPath (partPath (joinPath dir id))) =
      (fs.dirAt cwd (stageBase dir).toList).map fun stage =>
      stage ++ [sidecarPath (partPath id)] := by
  rw [locate_sidecar, spot_staged h, Option.map_map]
  simp [Function.comp_def, partPath, sidecarPath, String.ofList_append, String.append_assoc]

theorem derived_ne_dot (id : String) : partPath id ≠ "." ∧ sidecarPath (partPath id) ≠ "." := by
  constructor
  · intro h
    have hlen := congrArg (fun s : String => s.toList.length) h
    simp [partPath] at hlen
  · intro h
    have hlen := congrArg (fun s : String => s.toList.length) h
    simp [partPath, sidecarPath] at hlen

/-- Two ids staged in one directory are kept apart unless one is the other with a suffix that
the client appends. -/
theorem staged_isolated_iff {dir a b : String} {stage : Path} (ha : BlobId.isValid a = true)
    (hb : BlobId.isValid b = true) (hne : a ≠ b)
    (hstage : fs.dirAt cwd (stageBase dir).toList = some stage) :
    Isolated fs cwd (joinPath dir a) (joinPath dir b) ↔
      a ≠ partPath b ∧ a ≠ sidecarPath (partPath b) ∧ b ≠ partPath a ∧
      b ≠ sidecarPath (partPath a) := by
  have hentry : ∀ {id}, BlobId.isValid id = true → ∀ {p}, fs.locate cwd (joinPath dir id) = some p ↔
      stagedEntry stage id = p := by
    intro id hid p
    rw [locate_staged hid, hstage]
    simp
  have hpart : ∀ {id}, BlobId.isValid id = true → ∀ {p},
      fs.locate cwd (partPath (joinPath dir id)) = some p ↔
      stage ++ [partPath id] = p := by
    intro id hid p
    rw [locate_staged_part hid, hstage]
    simp
  have hmeta : ∀ {id}, BlobId.isValid id = true → ∀ {p},
      fs.locate cwd (sidecarPath (partPath (joinPath dir id))) = some p ↔
        stage ++ [sidecarPath (partPath id)] = p := by
    intro id hid p
    rw [locate_staged_sidecar hid, hstage]
    simp
  rw [isolated_iff]
  constructor
  · intro h
    refine ⟨fun heq => ?_, fun heq => ?_, fun heq => ?_, fun heq => ?_⟩
    · exact h.left (partPath (joinPath dir b)) (by simp [artefacts]) _
        ((hentry ha).mpr ((stagedEntry_eq (derived_ne_dot b).1).mpr heq)) ((hpart hb).mpr rfl)
    · exact h.left (sidecarPath (partPath (joinPath dir b))) (by simp [artefacts]) _
        ((hentry ha).mpr ((stagedEntry_eq (derived_ne_dot b).2).mpr heq)) ((hmeta hb).mpr rfl)
    · exact h.right (partPath (joinPath dir a)) (by simp [artefacts]) _ ((hpart ha).mpr rfl)
        ((hentry hb).mpr ((stagedEntry_eq (derived_ne_dot a).1).mpr heq))
    · exact h.right (sidecarPath (partPath (joinPath dir a))) (by simp [artefacts]) _
        ((hmeta ha).mpr rfl)
        ((hentry hb).mpr ((stagedEntry_eq (derived_ne_dot a).2).mpr heq))
  · rintro ⟨hap, ham, hbp, hbm⟩
    refine ⟨fun x hx p hp hq => ?_, fun x hx p hp hq => ?_, fun x hx hy => ?_⟩
    · have hp := (hentry ha).mp hp
      simp only [artefacts, List.mem_cons, List.not_mem_nil, or_false] at hx
      rcases hx with rfl | rfl | rfl
      · exact hne (stagedEntry_injective (hp.trans ((hentry hb).mp hq).symm))
      · exact hap ((stagedEntry_eq (derived_ne_dot b).1).mp (hp.trans ((hpart hb).mp hq).symm))
      · exact ham ((stagedEntry_eq (derived_ne_dot b).2).mp (hp.trans ((hmeta hb).mp hq).symm))
    · have hq := (hentry hb).mp hq
      simp only [artefacts, List.mem_cons, List.not_mem_nil, or_false] at hx
      rcases hx with rfl | rfl | rfl
      · exact hne (stagedEntry_injective (((hentry ha).mp hp).trans hq.symm))
      · exact hbp ((stagedEntry_eq (derived_ne_dot a).1).mp (hq.trans ((hpart ha).mp hp).symm))
      · exact hbm ((stagedEntry_eq (derived_ne_dot a).2).mp (hq.trans ((hmeta ha).mp hp).symm))
    · rw [spot_staged ha, hstage] at hx
      rw [spot_staged hb, hstage] at hy
      simp only [Option.map_some, Option.some.injEq] at hx hy
      have htext := congrArg Prod.snd (hx.trans hy.symm)
      exact hne (String.toList_injective htext)

end Staged

/-- The downloads that one client runs together have destinations with different components.
They share no entry exactly if no destination is an entry another works on and no two are
spelled alike behind one directory; ids staged in one directory do exactly if neither is the
other with an appended suffix. -/
theorem downloads_isolated_iff (ops : List Flights.Op) :
    let s := Runs.run Flights.apply ops Flights.new
    (∀ i j d e, i ≠ j → s.running i = some d → s.running j = some e → components d ≠ components e) ∧
    ∀ (fs : Fs) (cwd : Path),
      ((∀ i j d e, i ≠ j → s.running i = some d → s.running j = some e → Isolated fs cwd d e) ↔
        ∀ i j d e, i ≠ j → s.running i = some d → s.running j = some e → Clear fs cwd d e) ∧
      ∀ i j dir a b stage, s.running i = some (joinPath dir a) →
      s.running j = some (joinPath dir b) →
        BlobId.isValid a = true → BlobId.isValid b = true → a ≠ b →
        fs.dirAt cwd (stageBase dir).toList = some stage →
        (Isolated fs cwd (joinPath dir a) (joinPath dir b) ↔
          a ≠ partPath b ∧ a ≠ sidecarPath (partPath b) ∧ b ≠ partPath a ∧
          b ≠ sidecarPath (partPath a)) := by
  have hstart : Flights.new.Apart := ⟨nofun, nofun, nofun⟩
  refine ⟨(Flights.run_apart ops hstart).apart, fun fs cwd => ⟨?_, ?_⟩⟩
  · simp only [isolated_iff]
  · intro i j dir a b stage _ _ ha hb hne hstage
    exact staged_isolated_iff ha hb hne hstage

/-- Two unrelated ids, staged in the working directory. -/
theorem downloads_isolated_iff_unrelated :
    let s := Runs.run Flights.apply [.start (joinPath "" "a"), .start (joinPath "" "b")] Flights.new
    s.running 0 = some (joinPath "" "a") ∧ s.running 1 = some (joinPath "" "b") ∧
      components (joinPath "" "a") ≠ components (joinPath "" "b") ∧
      Isolated Fs.top [] (joinPath "" "a") (joinPath "" "b") := by
  obtain ⟨hapart, hstaged⟩ :=
    downloads_isolated_iff [.start (joinPath "" "a"), .start (joinPath "" "b")]
  have hfirst :
      (Runs.run Flights.apply [.start (joinPath "" "a"), .start (joinPath "" "b")]
        Flights.new).running 0 =
      some (joinPath "" "a") := by decide +kernel
  have hsecond :
      (Runs.run Flights.apply [.start (joinPath "" "a"), .start (joinPath "" "b")]
        Flights.new).running 1 =
      some (joinPath "" "b") := by decide +kernel
  refine ⟨hfirst, hsecond, hapart 0 1 _ _ (by decide) hfirst hsecond, ?_⟩
  refine ((hstaged Fs.top []).2 0 1 "" "a" "b" [] hfirst hsecond (by decide) (by decide) (by decide)
    (by decide +kernel)).mpr ?_
  decide +kernel

/-- The part of one download is the destination of the other. -/
theorem part_is_other_destination :
    let s :=
      Runs.run Flights.apply [.start (joinPath "" "a"), .start (joinPath "" "a.part")] Flights.new
    BlobId.isValid "a" = true ∧ BlobId.isValid "a.part" = true ∧
      s.running 0 = some (joinPath "" "a") ∧
      s.running 1 = some (joinPath "" "a.part") ∧
      ¬ Isolated Fs.top [] (joinPath "" "a") (joinPath "" "a.part") := by
  refine ⟨by decide, by decide, by decide +kernel, by decide +kernel, fun h => ?_⟩
  exact h (partPath (joinPath "" "a")) (by simp [artefacts]) (joinPath "" "a.part")
    (by simp [artefacts])
    ["a.part"] (by decide +kernel) (by decide +kernel)

end Zblob

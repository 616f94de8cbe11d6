import Mathlib.Data.List.Induction
import Zblob.Lib.Program
import Zblob.Paths

/-!
The file system under a materialization: names, inodes, the path walk of the kernel, and
the calls that change something. A call may fail for reasons the names do not show
(permissions, a full or a broken disk), so whether it goes through is part of its outcome.
-/

set_option autoImplicit false

namespace Zblob

open Program

abbrev Path := List String

def Path.debug (p : Path) : String := debugStr ("/" ++ "/".intercalate p)

inductive Obj where
  | dir
  | file (ino : Nat)
  | symlink (target : String)
  deriving DecidableEq

def Obj.below (next : Nat) : Obj → Bool
  | .file ino => ino < next
  | _ => true

/-- What a handle or a mode belongs to. A directory has one name, a file any number. -/
inductive Node where
  | dir (p : Path)
  | file (ino : Nat)
  deriving DecidableEq

structure Fs where
  obj : Path → Option Obj
  data : Nat → Bytes
  mode : Node → UInt32
  nextIno : Nat
  /-- Of the process that makes the calls. -/
  umask : UInt32
  closed : ∀ p name, obj (p ++ [name]) ≠ none → obj p = some .dir
  fresh : ∀ p ino, obj p = some (.file ino) → ino < nextIno

def Fs.top : Fs where
  obj q := if q = [] then some .dir else none
  data _ := []
  mode _ := 0o755
  nextIno := 0
  umask := 0o022
  closed p name h := by simp at h
  fresh p ino h := by split at h <;> cases h

def walkFrom (fs : Fs) (follow : Bool) (jump : Path → List Component → Option Path) :
    Path → List Component → Option Path
  | cur, [] => some cur
  | _, .rootDir :: rest => walkFrom fs follow jump [] rest
  | cur, .curDir :: rest => walkFrom fs follow jump cur rest
  | cur, .parentDir :: rest => walkFrom fs follow jump cur.dropLast rest
  | cur, .normal name :: rest =>
    match fs.obj (cur ++ [name]) with
    | some (.symlink target) =>
      if rest = [] ∧ follow = false then some (cur ++ [name])
      else jump cur (components target ++ rest)
    | some .dir => walkFrom fs follow jump (cur ++ [name]) rest
    -- a last name may be missing, one on the way may not
    | some (.file _) => if rest = [] then some (cur ++ [name]) else none
    | none => if rest = [] then some (cur ++ [name]) else none

def walk (fs : Fs) (follow : Bool) : Nat → Path → List Component → Option Path
  | 0 => walkFrom fs follow fun _ _ => none
  | hops + 1 => walkFrom fs follow (walk fs follow hops)

def maxLinks : Nat := 40

/-- Where a path leads: the place of its last name, whether something is there or not. -/
def Fs.resolve (fs : Fs) (follow : Bool) (p : Path) : Option Path :=
  walk fs follow maxLinks [] (p.map .normal)

def Fs.lstat (fs : Fs) (p : Path) : Option Obj := (fs.resolve false p).bind fs.obj

def Fs.stat (fs : Fs) (p : Path) : Option Obj := (fs.resolve true p).bind fs.obj

def Fs.canonicalize (fs : Fs) (p : Path) : Option Path :=
  (fs.resolve true p).bind fun r => if fs.obj r = none then none else some r

def Fs.node (fs : Fs) (r : Path) : Option Node :=
  match fs.obj r with
  | some .dir => some (.dir r)
  | some (.file ino) => some (.file ino)
  | _ => none

def Fs.add (fs : Fs) (r : Path) (x : Obj) : Option Fs :=
  if h : fs.obj r = none ∧ r ≠ [] ∧ fs.obj r.dropLast = some .dir ∧ x.below fs.nextIno = true then
    some { fs with
      obj := fun q => if q = r then some x else fs.obj q
      closed := by
        intro p name hq
        have hp : fs.obj p = some .dir := by
          by_cases hr : p ++ [name] = r
          · have := h.2.2.1
            rwa [← hr, List.dropLast_concat] at this
          · rw [if_neg hr] at hq
            exact fs.closed p name hq
        have hne : p ≠ r := by
          rintro rfl
          rw [h.1] at hp
          cases hp
        rw [if_neg hne, hp]
      fresh := by
        intro p ino hp
        split at hp
        · cases hp
          simpa [Obj.below] using h.2.2.2
        · exact fs.fresh p ino hp }
  else none

def Fs.remove (fs : Fs) (roots : List Path) : Fs :=
  { fs with
    obj := fun q => if roots.any (·.isPrefixOf q) then none else fs.obj q
    closed := by
      intro p name hq
      split at hq
      · exact absurd rfl hq
      · rename_i hkeep
        have hp := fs.closed p name hq
        have hstay : ¬roots.any (·.isPrefixOf p) = true := by
          intro hany
          obtain ⟨r, hr, hpre⟩ := List.any_eq_true.mp hany
          refine hkeep (List.any_eq_true.mpr ⟨r, hr, ?_⟩)
          rw [List.isPrefixOf_iff_prefix] at hpre ⊢
          exact hpre.trans (List.prefix_append p [name])
        rw [if_neg hstay, hp]
    fresh := by
      intro p ino hp
      split at hp
      · cases hp
      · exact fs.fresh p ino hp }

def Fs.setData (fs : Fs) (ino : Nat) (bytes : Bytes) : Fs :=
  { fs with data := fun i => if i = ino then bytes else fs.data i }

def Fs.setMode (fs : Fs) (node : Node) (mode : UInt32) : Fs :=
  { fs with mode := fun n => if n = node then mode else fs.mode n }

def Fs.addFile (fs : Fs) (r : Path) : Option Fs :=
  let made : Fs :=
    { fs with
      nextIno := fs.nextIno + 1
      fresh := fun p ino hp => Nat.lt_succ_of_lt (fs.fresh p ino hp) }
  ((made.setData fs.nextIno []).setMode (.file fs.nextIno) (0o666 &&& ~~~fs.umask)).add r
    (.file fs.nextIno)

def Fs.addDir (fs : Fs) (r : Path) : Option Fs :=
  (fs.setMode (.dir r) (0o777 &&& ~~~fs.umask)).add r .dir

inductive Syscall where
  | mkdir (p : Path)
  /-- `File::create`: follows links, makes what is missing, empties what is there. -/
  | create (p : Path)
  | write (ino : Nat) (bytes : Bytes)
  | link (src p : Path)
  | symlink (target : String) (p : Path)
  | unlink (p : Path)
  | removeAll (p : Path)
  | chmod (p : Path) (mode : UInt32)
  /-- Times are not kept: the call is recorded and changes nothing else. -/
  | setTime (node : Node) (mtime : Int64)

/-- What the world decides about one call: whether it goes through, the text of its error,
and how far a recursive removal or a write came that did not. -/
structure KernelReply where
  ok : Bool
  text : String
  removed : List Path
  wrote : Nat

structure Done where
  fs : Fs
  ok : Bool

def Fs.createIno (fs : Fs) (p : Path) : Option Nat :=
  (fs.resolve true p).bind fun r =>
    match fs.obj r with
    | none => some fs.nextIno
    | some (.file ino) => some ino
    | _ => none

/-- One call. `none` is a refusal that changed nothing. -/
def Fs.perform (fs : Fs) (o : KernelReply) : Syscall → Option Done
  | .mkdir p =>
    if o.ok then (fs.resolve false p).bind fun r => (fs.addDir r).map fun fs => ⟨fs, true⟩
    else none
  | .create p =>
    if o.ok then
      (fs.resolve true p).bind fun r =>
        match fs.obj r with
        | none => (fs.addFile r).map fun fs => ⟨fs, true⟩
        | some (.file ino) => some ⟨fs.setData ino [], true⟩
        | _ => none
    else none
  | .write ino bytes =>
    if o.ok then some ⟨fs.setData ino (fs.data ino ++ bytes), true⟩
    else some ⟨fs.setData ino (fs.data ino ++ bytes.take o.wrote), false⟩
  | .link src p =>
    if o.ok then
      (fs.resolve false src).bind fun a => (fs.resolve false p).bind fun r =>
        match fs.obj a with
        | some (.file ino) => (fs.add r (.file ino)).map fun fs => ⟨fs, true⟩
        | _ => none
    else none
  | .symlink target p =>
    if o.ok then
      (fs.resolve false p).bind fun r => (fs.add r (.symlink target)).map fun fs => ⟨fs, true⟩
    else none
  | .unlink p =>
    if o.ok then
      (fs.resolve false p).bind fun r =>
        match fs.obj r with
        | none | some .dir => none
        | _ => some ⟨fs.remove [r], true⟩
    else none
  | .removeAll p =>
    (fs.resolve false p).bind fun r =>
      match fs.obj r with
      | some .dir =>
        if o.ok then some ⟨fs.remove [r], true⟩
        else some ⟨fs.remove (o.removed.map (r ++ ·)), false⟩
      | _ => none
  | .chmod p mode =>
    if o.ok then
      (fs.resolve true p).bind fun r => (fs.node r).map fun n => ⟨fs.setMode n mode, true⟩
    else none
  | .setTime _ _ => if o.ok then some ⟨fs, true⟩ else none

def Node.Named (fs : Fs) (q : Path) : Node → Prop
  | .dir p => q = p
  | .file ino => fs.obj q = some (.file ino)

/-- The places whose object a call creates, empties, writes, links, deletes or changes the
mode or the time of. A change to a file shows under all of its names. -/
def Syscall.Touches (fs : Fs) (q : Path) : Syscall → Prop
  | .mkdir p => fs.resolve false p = some q
  | .create p => ∃ r, fs.resolve true p = some r ∧
      (q = r ∨ ∃ ino, fs.obj r = some (.file ino) ∧ fs.obj q = some (.file ino))
  | .write ino _ => (Node.file ino).Named fs q
  | .link src p => fs.resolve false src = some q ∨ fs.resolve false p = some q
  | .symlink _ p => fs.resolve false p = some q
  | .unlink p => fs.resolve false p = some q
  | .removeAll p => ∃ r, fs.resolve false p = some r ∧ r <+: q
  | .chmod p _ => ∃ r n, fs.resolve true p = some r ∧ fs.node r = some n ∧ n.Named fs q
  | .setTime n _ => n.Named fs q

structure Step where
  before : Fs
  call : Syscall

/-- The file system and, for the record, the calls that took effect. -/
structure World where
  fs : Fs
  log : List Step

def World.did (w : World) (c : Syscall) (fs : Fs) : World := ⟨fs, w.log ++ [⟨w.fs, c⟩]⟩

def World.call (o : KernelReply) (c : Syscall) (w : World) : Bool × World :=
  match w.fs.perform o c with
  | none => (false, w)
  | some d => (d.ok, w.did c d.fs)

abbrev FsProg (α : Type) := Prog World KernelReply BlobError α

inductive Request where
  | look (follow : Bool) (p : Path)
  | openDir (p : Path)
  | call (c : Syscall)

/-- What becomes of the outside's answer to a request. -/
abbrev Kernel := Fs → Request → KernelReply → KernelReply

namespace Kernel

def free : Kernel := fun _ _ o => o

@[simp] theorem free_eq (fs : Fs) (r : Request) (o : KernelReply) : free fs r o = o := rfl

variable (k : Kernel)

def sys (c : Syscall) : FsProg Bool := .act fun o w => w.call (k w.fs (.call c) o) c

def must (c : Syscall) : FsProg Unit := do
  let ok ← k.sys c
  if ok then pure () else .fail .io

def ask {α : Type} (r : Request) (f : Fs → Option α) : FsProg (Except String α) :=
  .act fun o w =>
    match f w.fs with
    | some a => (if (k w.fs r o).ok then .ok a else .error (k w.fs r o).text, w)
    | none => (.error (k w.fs r o).text, w)

def createFile (p : Path) : FsProg Nat := do
  let opened : Option Nat ← .act fun o w =>
    let r := w.call (k w.fs (.call (.create p)) o) (.create p)
    (if r.1 then w.fs.createIno p else none, r.2)
  match opened with
  | some ino => pure ino
  | none => .fail .io

end Kernel

theorem prefix_parent {q p : Path} (h : q <+: p) (hne : q ≠ p) : q <+: p.dropLast := by
  obtain ⟨rest, rfl⟩ := h
  have hrest : rest ≠ [] := by
    rintro rfl
    simp at hne
  rw [List.dropLast_append_of_ne_nil hrest]
  exact List.prefix_append q _

theorem Fs.dir_above {fs : Fs} {p q : Path} (hp : fs.obj p ≠ none) (hq : q <+: p) (hne : q ≠ p) :
    fs.obj q = some .dir := by
  obtain ⟨rest, rfl⟩ := hq
  induction rest using List.reverseRecOn with
  | nil => simp at hne
  | append_singleton rest name ih =>
    rw [← List.append_assoc] at hp
    have hdir := fs.closed (q ++ rest) name hp
    cases rest with
    | nil => simpa using hdir
    | cons first rest => exact ih (by simp [hdir]) (by simp)

theorem Fs.dir_of_dir {fs : Fs} {p q : Path} (hp : fs.obj p = some .dir) (hq : q <+: p) :
    fs.obj q = some .dir := by
  by_cases he : q = p
  · rw [he, hp]
  · exact Fs.dir_above (hp ▸ Option.some_ne_none _) hq he

def Fs.Straight (fs : Fs) (p : Path) : Prop :=
  ∀ q, q <+: p → q ≠ p → ∀ target, fs.obj q ≠ some (.symlink target)

theorem Fs.straight_of_some {fs : Fs} {p : Path} (h : fs.obj p ≠ none) : fs.Straight p := by
  intro q hq hne target hl
  rw [Fs.dir_above h hq hne] at hl
  cases hl

theorem Fs.straight_of_parent {fs : Fs} {p : Path} (h : fs.obj p.dropLast = some .dir) :
    fs.Straight p := by
  intro q hq hne target hl
  rw [Fs.dir_of_dir h (prefix_parent hq hne)] at hl
  cases hl

theorem walkFrom_straight {fs : Fs} {follow : Bool} {jump : Path → List Component → Option Path}
    {cur : Path} {names q : Path}
    (way : ∀ pre post, names = pre ++ post → pre ≠ [] → (post = [] → follow = true) →
      ∀ target, fs.obj (cur ++ pre) ≠ some (.symlink target))
    (h : walkFrom fs follow jump cur (names.map .normal) = some q) : q = cur ++ names := by
  induction names generalizing cur with
  | nil =>
    cases h
    simp
  | cons name names ih =>
    simp only [List.map_cons, walkFrom, List.map_eq_nil_iff] at h
    have last : (if names = [] then some (cur ++ [name]) else none) = some q →
        q = cur ++ name :: names := by
      intro hq
      split at hq
      · rename_i hnil
        cases hq
        rw [hnil]
      · cases hq
    cases ho : fs.obj (cur ++ [name]) with
    | none => exact last (by simpa [ho] using h)
    | some x =>
      cases x with
      | file ino => exact last (by simpa [ho] using h)
      | dir =>
        simp only [ho] at h
        rw [ih (fun pre post hn hpre hpost => ?_) h, List.append_assoc]
        · rfl
        · rw [List.append_assoc]
          exact way (name :: pre) post (by simp [hn]) (by simp) hpost
      | symlink target =>
        simp only [ho] at h
        split at h
        · rename_i hlast
          cases h
          rw [hlast.1]
        · rename_i hlast
          refine absurd ho (way [name] names rfl (by simp) (fun hn => ?_) target)
          simpa [hn] using hlast

theorem Fs.resolve_straight {fs : Fs} {follow : Bool} {p q : Path} (hs : fs.Straight p)
    (hend : follow = true → ∀ target, fs.obj p ≠ some (.symlink target))
    (h : fs.resolve follow p = some q) : q = p := by
  have way : ∀ pre post, p = pre ++ post → pre ≠ [] → (post = [] → follow = true) →
      ∀ target, fs.obj ([] ++ pre) ≠ some (.symlink target) := by
    intro pre post hp _ hpost
    by_cases hnil : post = []
    · rw [List.nil_append, show pre = p by simp [hp, hnil]]
      exact hend (hpost hnil)
    · exact hs pre ⟨post, hp.symm⟩ (fun he => hnil (by simpa [he] using hp))
  simpa using walkFrom_straight way h

structure Added (fs : Fs) (r : Path) (x : Obj) (fs' : Fs) : Prop where
  absent : fs.obj r = none
  inside : r ≠ []
  parent : fs.obj r.dropLast = some .dir
  obj : ∀ q, fs'.obj q = if q = r then some x else fs.obj q
  data : ∀ ino, ino < fs.nextIno → fs'.data ino = fs.data ino
  mode : ∀ n, n ≠ .dir r → (∀ ino, n = .file ino → ino < fs.nextIno) → fs'.mode n = fs.mode n

theorem Added.keeps {fs fs' : Fs} {r q : Path} {x y : Obj} (h : Added fs r x fs')
    (hq : fs.obj q = some y) : fs'.obj q = some y := by
  rw [h.obj, if_neg, hq]
  rintro rfl
  rw [h.absent] at hq
  cases hq

theorem Added.straight {fs fs' : Fs} {r : Path} {x : Obj} (h : Added fs r x fs') :
    fs.Straight r := Fs.straight_of_parent h.parent

theorem Fs.add_added {fs fs' : Fs} {r : Path} {x : Obj} (h : fs.add r x = some fs') :
    Added fs r x fs' := by
  unfold Fs.add at h
  split at h
  · rename_i hc
    cases h
    exact ⟨hc.1, hc.2.1, hc.2.2.1, fun q => rfl, fun _ _ => rfl, fun _ _ _ => rfl⟩
  · cases h

theorem Fs.addDir_added {fs fs' : Fs} {r : Path} (h : fs.addDir r = some fs') :
    Added fs r .dir fs' := by
  have ha := Fs.add_added h
  refine ⟨ha.absent, ha.inside, ha.parent, ha.obj, ha.data, fun n hn hino => ?_⟩
  rw [ha.mode n hn hino]
  exact if_neg hn

theorem Fs.addFile_added {fs fs' : Fs} {r : Path} (h : fs.addFile r = some fs') :
    Added fs r (.file fs.nextIno) fs' ∧ fs'.data fs.nextIno = [] := by
  have ha := Fs.add_added h
  refine ⟨⟨ha.absent, ha.inside, ha.parent, ha.obj, fun ino hlt => ?_, fun n hn hino => ?_⟩, ?_⟩
  · rw [ha.data ino (Nat.lt_succ_of_lt hlt)]
    exact if_neg (Nat.ne_of_lt hlt)
  · rw [ha.mode n hn fun ino he => Nat.lt_succ_of_lt (hino ino he)]
    exact if_neg fun he => Nat.lt_irrefl _ (hino fs.nextIno he)
  · rw [ha.data fs.nextIno (Nat.lt_succ_self _)]
    exact if_pos rfl

inductive Change (fs : Fs) : Syscall → Done → Prop
  | mkdir {p r : Path} {fs' : Fs} : fs.resolve false p = some r → Added fs r .dir fs' →
      Change fs (.mkdir p) ⟨fs', true⟩
  | create {p r : Path} {fs' : Fs} : fs.resolve true p = some r →
      Added fs r (.file fs.nextIno) fs' → fs'.data fs.nextIno = [] →
      Change fs (.create p) ⟨fs', true⟩
  | empty {p r : Path} {ino : Nat} : fs.resolve true p = some r → fs.obj r = some (.file ino) →
      Change fs (.create p) ⟨fs.setData ino [], true⟩
  | write {ino : Nat} {bytes part : Bytes} {ok : Bool} : (ok = true → part = bytes) →
      Change fs (.write ino bytes) ⟨fs.setData ino (fs.data ino ++ part), ok⟩
  | link {src p a r : Path} {ino : Nat} {fs' : Fs} : fs.resolve false src = some a →
      fs.obj a = some (.file ino) → fs.resolve false p = some r →
      Added fs r (.file ino) fs' → Change fs (.link src p) ⟨fs', true⟩
  | symlink {target : String} {p r : Path} {fs' : Fs} : fs.resolve false p = some r →
      Added fs r (.symlink target) fs' → Change fs (.symlink target p) ⟨fs', true⟩
  | unlink {p r : Path} {x : Obj} : fs.resolve false p = some r → fs.obj r = some x → x ≠ .dir →
      Change fs (.unlink p) ⟨fs.remove [r], true⟩
  | removeAll {p r : Path} {roots : List Path} {ok : Bool} : fs.resolve false p = some r →
      fs.obj r = some .dir → (∀ x ∈ roots, r <+: x) →
      Change fs (.removeAll p) ⟨fs.remove roots, ok⟩
  | chmod {p r : Path} {n : Node} {mode : UInt32} : fs.resolve true p = some r →
      fs.node r = some n → Change fs (.chmod p mode) ⟨fs.setMode n mode, true⟩
  | setTime {n : Node} {mtime : Int64} : Change fs (.setTime n mtime) ⟨fs, true⟩

theorem Fs.perform_change {fs : Fs} {o : KernelReply} {c : Syscall} {d : Done}
    (h : fs.perform o c = some d) : Change fs c d := by
  cases c with
  | mkdir p =>
    simp only [Fs.perform, Option.ite_none_right_eq_some, Option.bind_eq_some_iff,
      Option.map_eq_some_iff] at h
    obtain ⟨-, r, hr, fs', ha, rfl⟩ := h
    exact .mkdir hr (Fs.addDir_added ha)
  | create p =>
    simp only [Fs.perform, Option.ite_none_right_eq_some, Option.bind_eq_some_iff] at h
    obtain ⟨-, r, hr, h⟩ := h
    split at h
    · obtain ⟨fs', ha, rfl⟩ := Option.map_eq_some_iff.mp h
      obtain ⟨hadd, hdata⟩ := Fs.addFile_added ha
      exact .create hr hadd hdata
    · rename_i ino ho
      cases h
      exact .empty hr ho
    · cases h
  | write ino bytes =>
    simp only [Fs.perform] at h
    split at h
    · cases h
      exact .write fun _ => rfl
    · cases h
      exact .write nofun
  | link src p =>
    simp only [Fs.perform, Option.ite_none_right_eq_some, Option.bind_eq_some_iff] at h
    obtain ⟨-, a, hsrc, r, hr, h⟩ := h
    split at h
    · rename_i ino ho
      obtain ⟨fs', ha, rfl⟩ := Option.map_eq_some_iff.mp h
      exact .link hsrc ho hr (Fs.add_added ha)
    · cases h
  | symlink target p =>
    simp only [Fs.perform, Option.ite_none_right_eq_some, Option.bind_eq_some_iff,
      Option.map_eq_some_iff] at h
    obtain ⟨-, r, hr, fs', ha, rfl⟩ := h
    exact .symlink hr (Fs.add_added ha)
  | unlink p =>
    simp only [Fs.perform, Option.ite_none_right_eq_some, Option.bind_eq_some_iff] at h
    obtain ⟨-, r, hr, h⟩ := h
    cases ho : fs.obj r with
    | none => simp [ho] at h
    | some x =>
      cases x with
      | dir => simp [ho] at h
      | file ino =>
        simp only [ho, Option.some.injEq] at h
        subst h
        exact .unlink hr ho (by simp)
      | symlink target =>
        simp only [ho, Option.some.injEq] at h
        subst h
        exact .unlink hr ho (by simp)
  | removeAll p =>
    simp only [Fs.perform, Option.bind_eq_some_iff] at h
    obtain ⟨r, hr, h⟩ := h
    split at h
    · rename_i ho
      split at h
      · cases h
        exact .removeAll hr ho (by simp)
      · cases h
        refine .removeAll hr ho fun x hx => ?_
        obtain ⟨y, -, rfl⟩ := List.mem_map.mp hx
        exact List.prefix_append r y
    · cases h
  | chmod p mode =>
    simp only [Fs.perform, Option.ite_none_right_eq_some, Option.bind_eq_some_iff,
      Option.map_eq_some_iff] at h
    obtain ⟨-, r, hr, n, hn, rfl⟩ := h
    exact .chmod hr hn
  | setTime n mtime =>
    simp only [Fs.perform, Option.ite_none_right_eq_some, Option.some.injEq] at h
    obtain ⟨-, rfl⟩ := h
    exact .setTime

def Fs.look (fs : Fs) (q : Path) : Option (Obj × Bytes × UInt32) :=
  match fs.obj q with
  | none => none
  | some .dir => some (.dir, [], fs.mode (.dir q))
  | some (.file ino) => some (.file ino, fs.data ino, fs.mode (.file ino))
  | some (.symlink target) => some (.symlink target, [], 0)

theorem Added.look {fs fs' : Fs} {r q : Path} {x : Obj} (h : Added fs r x fs') (hq : q ≠ r) :
    fs'.look q = fs.look q := by
  have ho : fs'.obj q = fs.obj q := by rw [h.obj, if_neg hq]
  unfold Fs.look
  rw [ho]
  cases hx : fs.obj q with
  | none => rfl
  | some y =>
    cases y with
    | symlink target => rfl
    | dir => simp only [h.mode (.dir q) (by simpa using hq) (by simp)]
    | file ino =>
      have hlt := fs.fresh q ino hx
      simp only [h.data ino hlt, h.mode (.file ino) (by simp) (by simpa using hlt)]

theorem Fs.setData_look {fs : Fs} {ino : Nat} {bytes : Bytes} {q : Path}
    (hq : fs.obj q ≠ some (.file ino)) : (fs.setData ino bytes).look q = fs.look q := by
  unfold Fs.look
  cases hx : fs.obj q with
  | none => simp [Fs.setData, hx]
  | some y =>
    cases y with
    | symlink target => simp [Fs.setData, hx]
    | dir => simp [Fs.setData, hx]
    | file i =>
      have hne : i ≠ ino := by
        rintro rfl
        exact hq hx
      simp [Fs.setData, hx, hne]

theorem Fs.setMode_look {fs : Fs} {n : Node} {mode : UInt32} {q : Path} (hq : ¬n.Named fs q) :
    (fs.setMode n mode).look q = fs.look q := by
  unfold Fs.look
  cases hx : fs.obj q with
  | none => simp [Fs.setMode, hx]
  | some y =>
    cases y with
    | symlink target => simp [Fs.setMode, hx]
    | dir =>
      have hne : Node.dir q ≠ n := by
        rintro rfl
        exact hq rfl
      simp [Fs.setMode, hx, hne]
    | file i =>
      have hne : Node.file i ≠ n := by
        rintro rfl
        exact hq hx
      simp [Fs.setMode, hx, hne]

theorem Fs.remove_obj (fs : Fs) (roots : List Path) (q : Path) :
    (fs.remove roots).obj q = fs.obj q ∨ (fs.remove roots).obj q = none := by
  unfold Fs.remove
  by_cases h : roots.any (·.isPrefixOf q) = true
  · exact .inr (if_pos h)
  · exact .inl (if_neg h)

theorem Fs.remove_keeps {fs : Fs} {roots : List Path} {q : Path} (h : ∀ r ∈ roots, ¬r <+: q) :
    (fs.remove roots).obj q = fs.obj q := by
  refine if_neg fun hany => ?_
  obtain ⟨r, hr, hpre⟩ := List.any_eq_true.mp hany
  exact h r hr (List.isPrefixOf_iff_prefix.mp hpre)

theorem Fs.remove_look {fs : Fs} {roots : List Path} {q : Path} (h : ∀ r ∈ roots, ¬r <+: q) :
    (fs.remove roots).look q = fs.look q := by
  unfold Fs.look
  rw [Fs.remove_keeps h]
  rfl

/-- Nothing changes where a call does not touch. -/
theorem Change.untouched {fs : Fs} {c : Syscall} {d : Done} {q : Path} (h : Change fs c d)
    (hq : ¬c.Touches fs q) : d.fs.look q = fs.look q := by
  cases h with
  | mkdir hr ha => exact ha.look fun he => hq (he ▸ hr)
  | create hr ha _ => exact ha.look fun he => hq ⟨_, hr, .inl he⟩
  | empty hr ho => exact Fs.setData_look fun hx => hq ⟨_, hr, .inr ⟨_, ho, hx⟩⟩
  | write _ => exact Fs.setData_look hq
  | link _ _ hr ha => exact ha.look fun he => hq (.inr (he ▸ hr))
  | symlink hr ha => exact ha.look fun he => hq (he ▸ hr)
  | @unlink p r x hr ho hx =>
    by_cases hpre : r <+: q
    · -- nothing is under a name that is no directory
      have hne : r ≠ q := fun he => hq (he ▸ hr)
      have hnone : fs.obj q = none := by
        by_contra hsome
        have hdir := Fs.dir_above hsome hpre hne
        rw [ho] at hdir
        exact hx (Option.some.inj hdir)
      have hgone : (fs.remove [r]).obj q = none := by
        rcases Fs.remove_obj fs [r] q with h | h
        · rw [h, hnone]
        · exact h
      simp only [Fs.look, hnone, hgone]
    · exact Fs.remove_look (by simpa using hpre)
  | @removeAll p r roots ok hr _ hroots =>
    exact Fs.remove_look fun x hx hpre => hq ⟨r, hr, (hroots x hx).trans hpre⟩
  | chmod hr hn => exact Fs.setMode_look fun hnamed => hq ⟨_, _, hr, hn, hnamed⟩
  | setTime => rfl

section Rules

variable {k : Kernel} {P : World → Prop} {E : World → Prop} {c : Syscall}

theorem triple_sys {Q : Bool → World → Prop} (hno : ∀ w, P w → Q false w)
    (hdo : ∀ w d, P w → Change w.fs c d → Q d.ok (w.did c d.fs)) : Triple P (k.sys c) Q E := by
  refine Triple.act fun o w hw => ?_
  unfold World.call
  cases hp : w.fs.perform (k w.fs (.call c) o) c with
  | none => exact hno w hw
  | some d => exact hdo w d hw (Fs.perform_change hp)

/-- A call whose result nobody looks at. -/
theorem triple_try (hdo : ∀ w d, P w → Change w.fs c d → P (w.did c d.fs)) :
    Triple P (k.sys c) (fun _ => P) E := triple_sys (fun _ h => h) hdo

theorem triple_must {Q : Unit → World → Prop} (hno : ∀ w, P w → E w)
    (hdo : ∀ w d, P w → Change w.fs c d → d.ok = true → Q () (w.did c d.fs))
    (hhalf : ∀ w d, P w → Change w.fs c d → d.ok = false → E (w.did c d.fs)) :
    Triple P (k.must c) Q E := by
  refine Triple.bind (Q := fun ok w => if ok = true then Q () w else E w) ?_ fun ok => ?_
  · refine triple_sys (fun w hw => by simpa using hno w hw) fun w d hw hc => ?_
    split
    · exact hdo w d hw hc ‹_›
    · exact hhalf w d hw hc (by simpa using ‹¬d.ok = true›)
  · cases ok with
    | true => exact Triple.ret fun w hw => by simpa using hw
    | false => exact Triple.fail fun w hw => by simpa using hw

theorem triple_ask {α : Type} {r : Request} {f : Fs → Option α} {Q : Except String α → World → Prop}
    (hok : ∀ w a, P w → f w.fs = some a → Q (.ok a) w) (herr : ∀ w text, P w → Q (.error text) w) :
    Triple P (k.ask r f) Q E := by
  refine Triple.act fun o w hw => ?_
  cases hf : f w.fs with
  | none => exact herr w (k w.fs r o).text hw
  | some a =>
    cases ho : (k w.fs r o).ok with
    | true => simpa using hok w a hw hf
    | false => simpa using herr w (k w.fs r o).text hw

theorem triple_createFile {p : Path} {Q : Nat → World → Prop} (hno : ∀ w, P w → E w)
    (hnew : ∀ w r fs, P w → w.fs.resolve true p = some r →
      Added w.fs r (.file w.fs.nextIno) fs → fs.data w.fs.nextIno = [] →
      Q w.fs.nextIno (w.did (.create p) fs))
    (hold : ∀ w r ino, P w → w.fs.resolve true p = some r → w.fs.obj r = some (.file ino) →
      Q ino (w.did (.create p) (w.fs.setData ino []))) :
    Triple P (k.createFile p) Q E := by
  refine Triple.bind (Q := fun opened w => match opened with
    | some ino => Q ino w
    | none => E w) (Triple.act fun o w hw => ?_) fun opened => ?_
  · unfold World.call
    cases hp : w.fs.perform (k w.fs (.call (.create p)) o) (.create p) with
    | none => exact hno w hw
    | some d =>
      cases Fs.perform_change hp with
      | create hr ha hd => simpa [Fs.createIno, hr, ha.absent] using hnew w _ _ hw hr ha hd
      | empty hr ho => simpa [Fs.createIno, hr, ho] using hold w _ _ hw hr ho
  · cases opened with
    | none => exact Triple.fail fun w hw => hw
    | some ino => exact Triple.ret fun w hw => hw

end Rules

end Zblob

import Zblob.Basic

/-!
Paths that arrive in an index. A sanitized path is the list of its names; `.`, `..`, a
leading slash and an empty path do not survive.
-/

set_option autoImplicit false

namespace Zblob

inductive Component where
  | rootDir
  | curDir
  | parentDir
  | normal (name : String)
  deriving DecidableEq

def Component.debug : Component → String
  | .rootDir => "RootDir"
  | .curDir => "CurDir"
  | .parentDir => "ParentDir"
  | .normal name => "Normal(" ++ debugStr name ++ ")"

def splitSlash : List Char → List (List Char)
  | [] => [[]]
  | c :: cs =>
    if c = '/' then [] :: splitSlash cs
    else
      match splitSlash cs with
      | [] => [[c]]
      | seg :: segs => (c :: seg) :: segs

/-- One segment between slashes; empty ones and inner dots vanish. -/
def segment (s : List Char) : Option Component :=
  if s = [] ∨ s = ['.'] then none
  else if s = ['.', '.'] then some .parentDir
  else some (.normal (String.ofList s))

def components (path : String) : List Component :=
  match splitSlash path.toList with
  | [] => []
  | first :: rest =>
    let lead :=
      if first = [] ∧ path.toList ≠ [] then [Component.rootDir]
      else if first = ['.'] then [Component.curDir]
      else (segment first).toList
    lead ++ rest.filterMap segment

abbrev RelPath := List String

def sanitizeComponents (path : String) : List Component → Result RelPath
  | [] => .ok []
  | .normal name :: rest => (sanitizeComponents path rest).map (name :: ·)
  | other :: _ =>
    .error (.unsafePath
      ("unsafe path component " ++ other.debug ++ " in entry path " ++ debugStr path))

def sanitizeRelPath (path : String) : Result RelPath :=
  if path = "" then .error (.unsafePath "empty entry path")
  else
    match sanitizeComponents path (components path) with
    | .error e => .error e
    | .ok [] => .error (.unsafePath ("empty entry path " ++ debugStr path))
    | .ok rel => .ok rel

def targetDepth (target : String) : Int → List Component → Result Unit
  | _, [] => .ok ()
  | depth, .normal _ :: rest => targetDepth target (depth + 1) rest
  | depth, .parentDir :: rest =>
    if depth - 1 < 0 then
      .error (.unsafePath ("symlink target " ++ debugStr target ++ " escapes the tree root"))
    else targetDepth target (depth - 1) rest
  | depth, .curDir :: rest => targetDepth target depth rest
  | _, .rootDir :: _ =>
    .error (.unsafePath ("unsafe symlink target component " ++ Component.rootDir.debug))

def isAbsolute (target : String) : Bool := target.toList.head? = some '/'

def sanitizeSymlinkTarget (linkRel : RelPath) (target : String) : Result Unit :=
  if isAbsolute target then .error (.unsafePath ("absolute symlink target " ++ debugStr target))
  else targetDepth target (linkRel.length - 1) (components target)

def maxSymlinkHops : Nat := 32

abbrev Links := List (RelPath × String)

def Links.get (links : Links) (path : RelPath) : Option String :=
  (links.find? fun l => l.1 = path).map Prod.snd

def Links.insert : Links → RelPath → String → Links
  | [], path, target => [(path, target)]
  | l :: ls, path, target =>
    if l.1 = path then (path, target) :: ls
    else if path < l.1 then (path, target) :: l :: ls
    else l :: Links.insert ls path target

/-- Resolve a target from the directory `base`, following declared links as the kernel
would, and return where it lands with the hops that are left. The budget never exceeds
the first argument, so running out of that is running out of hops. -/
def resolveConfined (links : Links) (origin : RelPath) :
    Nat → RelPath → String → Nat → Result (RelPath × Nat)
  | fuel, base, target, budget =>
    if budget = 0 then
      .error (.unsafePath ("symlink " ++ debugStr ("/".intercalate origin) ++
        s!" exceeds {maxSymlinkHops} resolution hops (cycle?)"))
    else
      match fuel with
      | 0 =>
        .error (.unsafePath ("symlink " ++ debugStr ("/".intercalate origin) ++
          s!" exceeds {maxSymlinkHops} resolution hops (cycle?)"))
      | fuel + 1 =>
        (components target).foldlM (fun (state : RelPath × Nat) comp =>
          match comp with
          | .curDir => .ok state
          | .parentDir =>
            if state.1 = [] then
              .error (.unsafePath ("symlink " ++ debugStr ("/".intercalate origin) ++
                " resolves outside the tree root via " ++ debugStr target))
            else .ok (state.1.dropLast, state.2)
          | .normal name =>
            match links.get (state.1 ++ [name]) with
            | some next => resolveConfined links origin fuel state.1 next state.2
            | none => .ok (state.1 ++ [name], state.2)
          | .rootDir =>
            .error (.unsafePath ("unsafe symlink target component " ++ Component.rootDir.debug ++
              " in " ++ debugStr target))) (base, budget - 1)

def assertSymlinksConfined (links : Links) : Result Unit :=
  links.forM fun link => (resolveConfined links link.1 maxSymlinkHops link.1.dropLast link.2
    maxSymlinkHops).map fun _ => ()

theorem sanitizeComponents_ok {path : String} {cs : List Component} {rel : RelPath}
    (h : sanitizeComponents path cs = .ok rel) : cs = rel.map .normal := by
  induction cs generalizing rel with
  | nil =>
    cases h
    rfl
  | cons comp cs ih =>
    cases comp with
    | normal name =>
      simp only [sanitizeComponents] at h
      cases hr : sanitizeComponents path cs with
      | error e => simp [hr, Except.map] at h
      | ok rest =>
        simp only [hr, Except.map, Except.ok.injEq] at h
        rw [← h, ih hr]
        rfl
    | rootDir => cases h
    | curDir => cases h
    | parentDir => cases h

theorem segment_normal {s : List Char} {name : String} (h : segment s = some (.normal name)) :
    name ≠ "" ∧ name ≠ "." ∧ name ≠ ".." ∧ name.toList = s := by
  simp only [segment] at h
  split at h
  · cases h
  · rename_i hs
    split at h
    · cases h
    · rename_i hdd
      rw [not_or] at hs
      cases h
      refine ⟨fun he => hs.1 ?_, fun he => hs.2 ?_, fun he => hdd ?_, String.toList_ofList⟩
      · simpa using congrArg String.toList he
      · simpa using congrArg String.toList he
      · simpa using congrArg String.toList he

theorem splitSlash_ne_nil (cs : List Char) : splitSlash cs ≠ [] := by
  cases cs with
  | nil => simp [splitSlash]
  | cons c cs =>
    simp only [splitSlash]
    split
    · simp
    · split <;> simp

theorem splitSlash_append (s t : List Char) :
    splitSlash (s ++ '/' :: t) = splitSlash s ++ splitSlash t := by
  induction s with
  | nil => simp [splitSlash]
  | cons c s ih =>
    simp only [List.cons_append, splitSlash, ih]
    split
    · rfl
    · cases hs : splitSlash s with
      | nil => exact absurd hs (splitSlash_ne_nil s)
      | cons seg segs => rfl

theorem splitSlash_no_slash (cs : List Char) : ∀ seg ∈ splitSlash cs, '/' ∉ seg := by
  induction cs with
  | nil => simp [splitSlash]
  | cons c cs ih =>
    intro seg hseg
    simp only [splitSlash] at hseg
    split at hseg
    · rcases List.mem_cons.mp hseg with rfl | hm
      · simp
      · exact ih seg hm
    · rename_i hc
      cases hs : splitSlash cs with
      | nil =>
        simp only [hs, List.mem_singleton] at hseg
        subst hseg
        simpa using Ne.symm hc
      | cons first rest =>
        simp only [hs, List.mem_cons] at hseg
        rw [hs] at ih
        rcases hseg with rfl | hm
        · have hfirst := ih first (by simp)
          simpa [hfirst] using Ne.symm hc
        · exact ih seg (by simp [hm])

def NormalName (name : String) : Prop :=
  name ≠ "" ∧ name ≠ "." ∧ name ≠ ".." ∧ '/' ∉ name.toList

theorem components_normal {path name : String} (h : .normal name ∈ components path) :
    NormalName name := by
  have hall := splitSlash_no_slash path.toList
  have good : ∀ seg ∈ splitSlash path.toList, segment seg = some (.normal name) →
      NormalName name := by
    intro seg hm hseg
    obtain ⟨h1, h2, h3, h4⟩ := segment_normal hseg
    exact ⟨h1, h2, h3, by rw [h4]; exact hall seg hm⟩
  unfold components at h
  cases hs : splitSlash path.toList with
  | nil => simp [hs] at h
  | cons first rest =>
    rw [hs] at good
    simp only [hs, List.mem_append, List.mem_filterMap] at h
    rcases h with h | ⟨seg, hm, hseg⟩
    · split at h
      · simp at h
      split at h
      · simp at h
      · exact good first (by simp) (by simpa using h)
    · exact good seg (by simp [hm]) hseg

theorem sanitizeRelPath_ok {path : String} {rel : RelPath} (h : sanitizeRelPath path = .ok rel) :
    rel ≠ [] ∧ ∀ name ∈ rel, NormalName name := by
  unfold sanitizeRelPath at h
  split at h
  · cases h
  · cases hs : sanitizeComponents path (components path) with
    | error e => simp [hs] at h
    | ok found =>
      have hcomp := sanitizeComponents_ok hs
      cases found with
      | nil => simp [hs] at h
      | cons name rest =>
        simp only [hs, Except.ok.injEq] at h
        subst h
        refine ⟨by simp, fun n hn => components_normal (?_ : _ ∈ components path)⟩
        rw [hcomp]
        exact List.mem_map_of_mem hn

end Zblob

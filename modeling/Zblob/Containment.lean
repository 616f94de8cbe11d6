import Zblob.Posix
import Zblob.Tree

/-!
The links an index declares, seen by the check before they exist and by the kernel when
they do. The check resolves each target as a whole, with one budget for all the links it
goes through; the kernel takes one name at a time. Where a declared path holds its link or
nothing, the kernel goes where the check went.
-/

set_option autoImplicit false

namespace Zblob

mutual

/-- The runs of `resolve_confined` as the source has them, with no bound on the recursion. -/
inductive ResolveRun (links : Links) (origin : RelPath) :
    RelPath → String → Nat → Result (RelPath × Nat) → Prop
  | spent {base : RelPath} {target : String} :
      ResolveRun links origin base target 0
        (.error (.unsafePath ("symlink " ++ debugStr ("/".intercalate origin) ++
          s!" exceeds {maxSymlinkHops} resolution hops (cycle?)")))
  | walk {base : RelPath} {target : String} {budget : Nat} {r : Result (RelPath × Nat)} :
      ComponentRun links origin target (components target) base budget r →
      ResolveRun links origin base target (budget + 1) r

inductive ComponentRun (links : Links) (origin : RelPath) :
    String → List Component → RelPath → Nat → Result (RelPath × Nat) → Prop
  | nil {target : String} {cur : RelPath} {budget : Nat} :
      ComponentRun links origin target [] cur budget (.ok (cur, budget))
  | curDir {target : String} {rest : List Component} {cur : RelPath} {budget : Nat}
      {r : Result (RelPath × Nat)} :
      ComponentRun links origin target rest cur budget r →
      ComponentRun links origin target (.curDir :: rest) cur budget r
  | above {target : String} {rest : List Component} {budget : Nat} :
      ComponentRun links origin target (.parentDir :: rest) [] budget
        (.error (.unsafePath ("symlink " ++ debugStr ("/".intercalate origin) ++
          " resolves outside the tree root via " ++ debugStr target)))
  | parentDir {target : String} {rest : List Component} {cur : RelPath} {budget : Nat}
      {r : Result (RelPath × Nat)} :
      cur ≠ [] → ComponentRun links origin target rest cur.dropLast budget r →
      ComponentRun links origin target (.parentDir :: rest) cur budget r
  | plain {target name : String} {rest : List Component} {cur : RelPath} {budget : Nat}
      {r : Result (RelPath × Nat)} : links.get (cur ++ [name]) = none →
      ComponentRun links origin target rest (cur ++ [name]) budget r →
      ComponentRun links origin target (.normal name :: rest) cur budget r
  | link {target name next : String} {rest : List Component} {cur landed : RelPath}
      {budget left : Nat} {r : Result (RelPath × Nat)} : links.get (cur ++ [name]) = some next →
      ResolveRun links origin cur next budget (.ok (landed, left)) →
      ComponentRun links origin target rest landed left r →
      ComponentRun links origin target (.normal name :: rest) cur budget r
  | linkFails {target name next : String} {rest : List Component} {cur : RelPath} {budget : Nat}
      {e : BlobError} : links.get (cur ++ [name]) = some next →
      ResolveRun links origin cur next budget (.error e) →
      ComponentRun links origin target (.normal name :: rest) cur budget (.error e)
  | rootDir {target : String} {rest : List Component} {cur : RelPath} {budget : Nat} :
      ComponentRun links origin target (.rootDir :: rest) cur budget
        (.error (.unsafePath ("unsafe symlink target component " ++ Component.rootDir.debug ++
          " in " ++ debugStr target)))

end

section Resolve

variable {links : Links} {origin : RelPath}

/-- One component of `resolveConfined`, with the recursive call left open. -/
def resolveStep (links : Links) (origin : RelPath) (target : String)
    (deeper : RelPath → String → Nat → Result (RelPath × Nat)) (state : RelPath × Nat)
    (comp : Component) : Result (RelPath × Nat) :=
  match comp with
  | .curDir => .ok state
  | .parentDir =>
    if state.1 = [] then
      .error (.unsafePath ("symlink " ++ debugStr ("/".intercalate origin) ++
        " resolves outside the tree root via " ++ debugStr target))
    else .ok (state.1.dropLast, state.2)
  | .normal name =>
    match links.get (state.1 ++ [name]) with
    | some next => deeper state.1 next state.2
    | none => .ok (state.1 ++ [name], state.2)
  | .rootDir =>
    .error (.unsafePath ("unsafe symlink target component " ++ Component.rootDir.debug ++
      " in " ++ debugStr target))

theorem resolveConfined_spent {fuel : Nat} {base : RelPath} {target : String} :
    resolveConfined links origin fuel base target 0 =
      .error (.unsafePath ("symlink " ++ debugStr ("/".intercalate origin) ++
        s!" exceeds {maxSymlinkHops} resolution hops (cycle?)")) := by
  unfold resolveConfined
  rfl

theorem resolveConfined_walk {fuel budget : Nat} {base : RelPath} {target : String} :
    resolveConfined links origin (fuel + 1) base target (budget + 1) =
      (components target).foldlM
        (resolveStep links origin target (resolveConfined links origin fuel)) (base, budget) := by
  conv_lhs => unfold resolveConfined
  rfl

section Loop

variable {target : String} {deeper : RelPath → String → Nat → Result (RelPath × Nat)}

theorem foldlM_cons_ok {comp : Component} {rest : List Component} {state out : RelPath × Nat}
    (h : (comp :: rest).foldlM (resolveStep links origin target deeper) state = .ok out) :
    ∃ mid, resolveStep links origin target deeper state comp = .ok mid ∧
      rest.foldlM (resolveStep links origin target deeper) mid = .ok out := by
  rw [List.foldlM_cons] at h
  cases hs : resolveStep links origin target deeper state comp with
  | error e =>
    rw [hs] at h
    cases h
  | ok mid =>
    rw [hs] at h
    exact ⟨mid, rfl, h⟩

theorem resolveStep_left {state mid : RelPath × Nat} {comp : Component}
    (hdeeper : ∀ base next budget landed left,
      deeper base next budget = .ok (landed, left) → left ≤ budget)
    (h : resolveStep links origin target deeper state comp = .ok mid) : mid.2 ≤ state.2 := by
  cases comp with
  | curDir =>
    cases h
    exact Nat.le_refl _
  | rootDir => cases h
  | parentDir =>
    simp only [resolveStep] at h
    split at h
    · cases h
    · cases h
      exact Nat.le_refl _
  | normal name =>
    simp only [resolveStep] at h
    split at h
    · exact hdeeper _ _ _ mid.1 mid.2 h
    · cases h
      exact Nat.le_refl _

theorem foldlM_left {comps : List Component} {state out : RelPath × Nat}
    (hdeeper : ∀ base next budget landed left,
      deeper base next budget = .ok (landed, left) → left ≤ budget)
    (h : comps.foldlM (resolveStep links origin target deeper) state = .ok out) :
    out.2 ≤ state.2 := by
  induction comps generalizing state with
  | nil =>
    cases h
    exact Nat.le_refl _
  | cons comp rest ih =>
    obtain ⟨mid, hmid, hrest⟩ := foldlM_cons_ok h
    exact Nat.le_trans (ih hrest) (resolveStep_left hdeeper hmid)

theorem foldlM_run {bound : Nat} {comps : List Component} {cur : RelPath} {budget : Nat}
    (hb : budget ≤ bound)
    (hrun : ∀ base next budget, budget ≤ bound →
      ResolveRun links origin base next budget (deeper base next budget))
    (hleft : ∀ base next budget landed left,
      deeper base next budget = .ok (landed, left) → left ≤ budget) :
    ComponentRun links origin target comps cur budget
      (comps.foldlM (resolveStep links origin target deeper) (cur, budget)) := by
  induction comps generalizing cur budget with
  | nil => exact .nil
  | cons comp rest ih =>
    rw [List.foldlM_cons]
    cases comp with
    | curDir => exact .curDir (ih hb)
    | rootDir => exact .rootDir
    | parentDir =>
      simp only [resolveStep]
      split
      · rename_i hnil
        subst hnil
        exact .above
      · rename_i hne
        exact .parentDir hne (ih hb)
    | normal name =>
      simp only [resolveStep]
      cases hl : links.get (cur ++ [name]) with
      | none => exact .plain hl (ih hb)
      | some next =>
        have hdeep := hrun cur next budget hb
        dsimp only
        cases hd : deeper cur next budget with
        | error e =>
          rw [hd] at hdeep
          exact .linkFails hl hdeep
        | ok state =>
          rw [hd] at hdeep
          exact .link hl hdeep (ih (Nat.le_trans (hleft _ _ _ _ _ hd) hb))

end Loop

theorem resolveConfined_left {fuel budget : Nat} {base : RelPath} {target : String}
    {landed : RelPath} {left : Nat}
    (h : resolveConfined links origin fuel base target budget = .ok (landed, left)) :
    left < budget := by
  induction fuel generalizing budget base target landed left with
  | zero =>
    unfold resolveConfined at h
    split at h <;> cases h
  | succ fuel ih =>
    cases budget with
    | zero =>
      rw [resolveConfined_spent] at h
      cases h
    | succ budget =>
      rw [resolveConfined_walk] at h
      have := foldlM_left (fun _ _ _ _ _ hd => Nat.le_of_lt (ih hd)) h
      exact Nat.lt_succ_of_le this

theorem resolveConfined_run {fuel budget : Nat} (hb : budget ≤ fuel) (base : RelPath)
    (target : String) :
    ResolveRun links origin base target budget
      (resolveConfined links origin fuel base target budget) := by
  induction fuel generalizing budget base target with
  | zero =>
    cases Nat.le_zero.mp hb
    rw [resolveConfined_spent]
    exact .spent
  | succ fuel ih =>
    cases budget with
    | zero =>
      rw [resolveConfined_spent]
      exact .spent
    | succ budget =>
      rw [resolveConfined_walk]
      exact .walk (foldlM_run (Nat.le_of_succ_le_succ hb) (fun base next b hle => ih hle base next)
        fun _ _ _ _ _ hd => Nat.le_of_lt (resolveConfined_left hd))

end Resolve

structure Trek where
  cur : Path
  rest : List Component

/-- One step, and whether it followed a link. A walk ends when nothing is left, or at a name
that is no directory. -/
def kernelStep (fs : Fs) : Trek → Option (Bool × Trek)
  | ⟨_, []⟩ => none
  | ⟨_, .rootDir :: rest⟩ => some (false, ⟨[], rest⟩)
  | ⟨cur, .curDir :: rest⟩ => some (false, ⟨cur, rest⟩)
  | ⟨cur, .parentDir :: rest⟩ => some (false, ⟨cur.dropLast, rest⟩)
  | ⟨cur, .normal name :: rest⟩ =>
    match fs.obj (cur ++ [name]) with
    | some (.symlink target) => some (true, ⟨cur, components target ++ rest⟩)
    | some .dir => some (false, ⟨cur ++ [name], rest⟩)
    | _ => none

inductive Treks (fs : Fs) (start : Trek) : Nat → Trek → Prop
  | start : Treks fs start 0 start
  | go {n : Nat} {t u : Trek} : Treks fs start n t → kernelStep fs t = some (false, u) →
      Treks fs start n u
  | follow {n : Nat} {t u : Trek} : Treks fs start n t → kernelStep fs t = some (true, u) →
      Treks fs start (n + 1) u

/-- From here on the walk ends, stays under the root and follows at most `k` links. -/
inductive Settles (fs : Fs) (root : Path) : Nat → Trek → Prop
  | mk {k : Nat} {s : Trek} : root <+: s.cur →
      (∀ t, kernelStep fs s = some (false, t) → Settles fs root k t) →
      (∀ t, kernelStep fs s = some (true, t) → 0 < k) →
      (∀ t, kernelStep fs s = some (true, t) → Settles fs root (k - 1) t) → Settles fs root k s

section Settles

variable {fs : Fs} {root : Path} {k : Nat} {s : Trek}

theorem Settles.inside (h : Settles fs root k s) : root <+: s.cur := by
  cases h with
  | mk hin _ _ _ => exact hin

/-- A walk that has come to its end. -/
theorem Settles.ended (hin : root <+: s.cur) (h : kernelStep fs s = none) :
    Settles fs root k s := by
  refine .mk hin ?_ ?_ ?_ <;> · intro t ht; rw [h] at ht; cases ht

theorem Settles.step {t : Trek} (hin : root <+: s.cur) (hs : kernelStep fs s = some (false, t))
    (h : Settles fs root k t) : Settles fs root k s := by
  refine .mk hin (fun u hu => ?_) (fun u hu => ?_) fun u hu => ?_
  · rw [hs] at hu
    cases hu
    exact h
  · rw [hs] at hu
    cases hu
  · rw [hs] at hu
    cases hu

theorem Settles.jump {t : Trek} (hin : root <+: s.cur) (hs : kernelStep fs s = some (true, t))
    (h : Settles fs root k t) : Settles fs root (k + 1) s := by
  refine .mk hin (fun u hu => ?_) (fun u hu => Nat.succ_pos k) fun u hu => ?_
  · rw [hs] at hu
    cases hu
  · rw [hs] at hu
    cases hu
    exact h

theorem Settles.mono {k' : Nat} (h : Settles fs root k s) (hk : k ≤ k') : Settles fs root k' s := by
  induction h generalizing k' with
  | mk hin _ hpos _ ih ihj =>
    exact .mk hin (fun t ht => ih t ht hk) (fun t ht => Nat.lt_of_lt_of_le (hpos t ht) hk)
      fun t ht => ihj t ht (Nat.sub_le_sub_right hk 1)

theorem Settles.treks {n : Nat} {t : Trek} (h : Settles fs root k s) (ht : Treks fs s n t) :
    n ≤ k ∧ Settles fs root (k - n) t := by
  induction ht with
  | start => exact ⟨Nat.zero_le k, h⟩
  | go _ hs ih =>
    refine ⟨ih.1, ?_⟩
    cases ih.2 with
    | mk _ hnext _ _ => exact hnext _ hs
  | follow _ hs ih =>
    cases ih.2 with
    | mk _ _ hpos hjump =>
      have := hpos _ hs
      refine ⟨by omega, ?_⟩
      rw [Nat.sub_add_eq]
      exact hjump _ hs

theorem Treks.cons {followed : Bool} {n : Nat} {t u : Trek}
    (hs : kernelStep fs s = some (followed, t)) (h : Treks fs t n u) : ∃ m, Treks fs s m u := by
  induction h with
  | start =>
    cases followed with
    | false => exact ⟨0, .go .start hs⟩
    | true => exact ⟨1, .follow .start hs⟩
  | go _ hu ih =>
    obtain ⟨m, hm⟩ := ih
    exact ⟨m, hm.go hu⟩
  | follow _ hu ih =>
    obtain ⟨m, hm⟩ := ih
    exact ⟨m + 1, hm.follow hu⟩

theorem Settles.ends (h : Settles fs root k s) :
    ∃ n t, Treks fs s n t ∧ kernelStep fs t = none := by
  induction h with
  | @mk k s _ _ _ _ ih ihj =>
    cases hs : kernelStep fs s with
    | none => exact ⟨0, s, .start, hs⟩
    | some next =>
      obtain ⟨followed, t⟩ := next
      have hend : ∃ n u, Treks fs t n u ∧ kernelStep fs u = none := by
        cases followed with
        | false => exact ih t hs
        | true => exact ihj t hs
      obtain ⟨n, u, htu, hu⟩ := hend
      obtain ⟨m, hm⟩ := htu.cons hs
      exact ⟨m, u, hm, hu⟩

/-- The bounded walk of a call is a walk of the kernel. -/
theorem Settles.walk {hops : Nat} {q : Path} (h : Settles fs root k s)
    (hw : Zblob.walk fs true hops s.cur s.rest = some q) : root <+: q := by
  induction h generalizing hops with
  | @mk k s hin _ _ _ ih ihj =>
    obtain ⟨cur, rest⟩ := s
    cases rest with
    | nil =>
      cases hops <;> · cases hw; exact hin
    | cons comp rest =>
      have hbelow : ∀ {name : String}, rest = [] ∧ cur ++ [name] = q → root <+: q := fun h =>
        h.2 ▸ List.IsPrefix.trans hin (List.prefix_append _ _)
      cases comp with
      | rootDir =>
        have hnext : Zblob.walk fs true hops [] rest = some q := by cases hops <;> exact hw
        exact ih _ rfl hnext
      | curDir =>
        have hnext : Zblob.walk fs true hops cur rest = some q := by cases hops <;> exact hw
        exact ih _ rfl hnext
      | parentDir =>
        have hnext : Zblob.walk fs true hops cur.dropLast rest = some q :=
          by cases hops <;> exact hw
        exact ih _ rfl hnext
      | normal name =>
        cases ho : fs.obj (cur ++ [name]) with
        | none => exact hbelow (by cases hops <;> simpa [Zblob.walk, walkFrom, ho] using hw)
        | some x =>
          cases x with
          | file ino => exact hbelow (by cases hops <;> simpa [Zblob.walk, walkFrom, ho] using hw)
          | dir =>
            have hnext : Zblob.walk fs true hops (cur ++ [name]) rest = some q := by
              cases hops <;> simpa [Zblob.walk, walkFrom, ho] using hw
            exact ih ⟨cur ++ [name], rest⟩ (by simp [kernelStep, ho]) hnext
          | symlink target =>
            cases hops with
            | zero => simp [Zblob.walk, walkFrom, ho] at hw
            | succ hops =>
              have hnext : Zblob.walk fs true hops cur (components target ++ rest) = some q := by
                simpa [Zblob.walk, walkFrom, ho] using hw
              exact ihj ⟨cur, components target ++ rest⟩ (by simp [kernelStep, ho]) hnext

end Settles

/-- Under the root every link is declared, and a declared path holds its link or nothing. -/
def Declared (links : Links) (root : Path) (fs : Fs) : Prop :=
  ∀ q x, fs.obj (root ++ q) = some x →
    ∀ target, x = .symlink target ↔ links.get q = some target

section Check

variable {links : Links} {origin : RelPath} {root : Path} {fs : Fs}

def Leads (fs : Fs) (root : Path) (rest : List Component) (comps : List Component)
    (cur out : RelPath) (cost : Nat) : Prop :=
  ∀ k, (fs.obj (root ++ out) = some .dir → Settles fs root k ⟨root ++ out, rest⟩) →
    fs.obj (root ++ cur) = some .dir → Settles fs root (k + cost) ⟨root ++ cur, comps ++ rest⟩

theorem leads_loop (hfs : Declared links root fs) {target : String}
    {deeper : RelPath → String → Nat → Result (RelPath × Nat)}
    (hleft : ∀ base next budget landed left,
      deeper base next budget = .ok (landed, left) → left < budget)
    (hdeeper : ∀ base next budget landed left rest, deeper base next budget = .ok (landed, left) →
      Leads fs root rest (components next) base landed (budget - 1 - left))
    {comps rest : List Component} {cur out : RelPath} {budget left : Nat}
    (h : comps.foldlM (resolveStep links origin target deeper) (cur, budget) = .ok (out, left)) :
    Leads fs root rest comps cur out (budget - left) := by
  induction comps generalizing cur budget with
  | nil =>
    cases h
    intro k hk hcur
    simpa using hk hcur
  | cons comp comps ih =>
    obtain ⟨mid, hmid, hrest⟩ := foldlM_cons_ok h
    intro k hk hcur
    have hin : root <+: root ++ cur := List.prefix_append _ _
    cases comp with
    | rootDir => cases hmid
    | curDir =>
      cases hmid
      exact .step hin rfl (ih hrest k hk hcur)
    | parentDir =>
      simp only [resolveStep] at hmid
      split at hmid
      · cases hmid
      · rename_i hne
        cases hmid
        have hup : (root ++ cur).dropLast = root ++ cur.dropLast :=
          List.dropLast_append_of_ne_nil hne
        refine .step hin rfl ?_
        rw [hup]
        exact ih hrest k hk (hup ▸ Fs.dir_of_dir hcur (List.dropLast_prefix _))
    | normal name =>
      have happ : root ++ cur ++ [name] = root ++ (cur ++ [name]) := List.append_assoc _ _ _
      cases ho : fs.obj (root ++ (cur ++ [name])) with
      | none => exact .ended hin (by simp [kernelStep, happ, ho])
      | some x =>
        cases x with
        | file ino => exact .ended hin (by simp [kernelStep, happ, ho])
        | dir =>
          have hget : links.get (cur ++ [name]) = none := by
            cases hl : links.get (cur ++ [name]) with
            | none => rfl
            | some next => cases (hfs _ _ ho next).mpr hl
          simp only [resolveStep, hget, Except.ok.injEq] at hmid
          subst hmid
          refine .step hin (t := ⟨root ++ (cur ++ [name]), comps ++ rest⟩)
            (by simp [kernelStep, ho]) (ih hrest k hk ho)
        | symlink next =>
          have hget := (hfs _ _ ho next).mp rfl
          simp only [resolveStep, hget] at hmid
          obtain ⟨landed, mleft⟩ := mid
          have hlt := hleft _ _ _ _ _ hmid
          have hle := foldlM_left (fun _ _ _ _ _ hd => Nat.le_of_lt (hleft _ _ _ _ _ hd)) hrest
          have inner := hdeeper _ _ _ _ _ (comps ++ rest) hmid (k + (mleft - left))
            (fun hd => ih hrest k hk hd) hcur
          have hcost : k + (mleft - left) + (budget - 1 - mleft) + 1 = k + (budget - left) := by
            simp only at hle
            omega
          rw [← hcost]
          refine .jump hin (t := ⟨root ++ cur, components next ++ (comps ++ rest)⟩) ?_ inner
          simp [kernelStep, happ, ho]

theorem resolveConfined_leads (hfs : Declared links root fs) {fuel budget left : Nat}
    {base landed : RelPath} {target : String} {rest : List Component}
    (h : resolveConfined links origin fuel base target budget = .ok (landed, left)) :
    Leads fs root rest (components target) base landed (budget - 1 - left) := by
  induction fuel generalizing budget left base landed target rest with
  | zero =>
    unfold resolveConfined at h
    split at h <;> cases h
  | succ fuel ih =>
    cases budget with
    | zero =>
      rw [resolveConfined_spent] at h
      cases h
    | succ budget =>
      rw [resolveConfined_walk] at h
      exact leads_loop hfs (fun _ _ _ _ _ hd => resolveConfined_left hd)
        (fun _ _ _ _ _ _ hd => ih hd) h

theorem Links.mem_of_get {q : RelPath} {target : String} (h : links.get q = some target) :
    (q, target) ∈ links := by
  unfold Links.get at h
  obtain ⟨l, hl, rfl⟩ := Option.map_eq_some_iff.mp h
  have hq := List.find?_some hl
  rw [decide_eq_true_iff] at hq
  rw [← hq]
  exact List.mem_of_find?_eq_some hl

theorem assertSymlinksConfined_ok (h : assertSymlinksConfined links = .ok ()) {q : RelPath}
    {target : String} (hq : links.get q = some target) :
    ∃ landed left, resolveConfined links q maxSymlinkHops q.dropLast target maxSymlinkHops =
      .ok (landed, left) := by
  have each : ∀ ls : Links, (ls.forM fun link => (resolveConfined links link.1 maxSymlinkHops
      link.1.dropLast link.2 maxSymlinkHops).map fun _ => ()) = .ok () → ∀ l ∈ ls, ∃ out,
      resolveConfined links l.1 maxSymlinkHops l.1.dropLast l.2 maxSymlinkHops = .ok out := by
    intro ls
    induction ls with
    | nil => simp
    | cons l ls ih =>
      intro hls x hx
      unfold List.forM at hls
      cases hr : resolveConfined links l.1 maxSymlinkHops l.1.dropLast l.2 maxSymlinkHops with
      | error e =>
        rw [hr] at hls
        cases hls
      | ok out =>
        rw [hr] at hls
        rcases List.mem_cons.mp hx with rfl | hx
        · exact ⟨out, hr⟩
        · exact ih hls x hx
  obtain ⟨⟨landed, left⟩, hout⟩ := each links h _ (Links.mem_of_get hq)
  exact ⟨landed, left, hout⟩

theorem link_settles (h : assertSymlinksConfined links = .ok ()) (hfs : Declared links root fs)
    {q : RelPath} {target : String} (hq : links.get q = some target)
    (hdir : fs.obj (root ++ q.dropLast) = some .dir) (rest : List Component) {k : Nat}
    (hrest : ∀ landed, fs.obj (root ++ landed) = some .dir →
      Settles fs root k ⟨root ++ landed, rest⟩) :
    Settles fs root (k + (maxSymlinkHops - 1))
      ⟨root ++ q.dropLast, components target ++ rest⟩ := by
  obtain ⟨landed, left, hres⟩ := assertSymlinksConfined_ok h hq
  refine (resolveConfined_leads hfs hres k (hrest landed) hdir).mono ?_
  omega

theorem names_settle (h : assertSymlinksConfined links = .ok ()) (hfs : Declared links root fs)
    (names : List String) (cur : RelPath) (hcur : fs.obj (root ++ cur) = some .dir) :
    Settles fs root (maxSymlinkHops * names.length) ⟨root ++ cur, names.map .normal⟩ := by
  have hin : ∀ c : RelPath, root <+: root ++ c := fun c => List.prefix_append root c
  induction names generalizing cur with
  | nil => exact .ended (hin cur) rfl
  | cons name names ih =>
    have happ : root ++ cur ++ [name] = root ++ (cur ++ [name]) := List.append_assoc _ _ _
    have hlen : maxSymlinkHops * (name :: names).length =
        maxSymlinkHops * names.length + (maxSymlinkHops - 1) + 1 := by
      simp [maxSymlinkHops, Nat.mul_add]
    cases ho : fs.obj (root ++ (cur ++ [name])) with
    | none => exact .ended (hin cur) (by simp [kernelStep, happ, ho])
    | some x =>
      cases x with
      | file ino => exact .ended (hin cur) (by simp [kernelStep, happ, ho])
      | dir =>
        refine Settles.mono (.step (hin cur) (t := ⟨root ++ (cur ++ [name]), names.map .normal⟩)
          (by simp [kernelStep, ho]) (ih _ ho)) ?_
        rw [hlen]
        omega
      | symlink target =>
        have hget := (hfs _ _ ho target).mp rfl
        have hlink := link_settles h hfs hget (by simpa using hcur) (names.map .normal)
          fun landed hd => ih landed hd
        rw [List.dropLast_concat] at hlink
        rw [hlen]
        exact .jump (hin cur) (by simp [kernelStep, ho]) hlink

end Check

theorem symlinks_confined_sound (links : Links) :
    (∀ origin base target budget, ResolveRun links origin base target budget
      (resolveConfined links origin budget base target budget)) ∧
    (assertSymlinksConfined links = .ok () → ∀ (fs : Fs) (root : Path), fs.obj root = some .dir →
      (∀ q target, fs.obj (root ++ q) = some (.symlink target) ↔ links.get q = some target) →
      (∀ link target, links.get link = some target →
        ∀ n t, Treks fs ⟨root ++ link.dropLast, components target⟩ n t →
          n < maxSymlinkHops ∧ root <+: t.cur) ∧
      ∀ names : List String,
        (∃ n t, Treks fs ⟨root, names.map .normal⟩ n t ∧ kernelStep fs t = none) ∧
        ∀ n t, Treks fs ⟨root, names.map .normal⟩ n t →
          n ≤ maxSymlinkHops * names.length ∧ root <+: t.cur) := by
  refine ⟨fun origin base target budget => resolveConfined_run (Nat.le_refl budget) base target,
    fun h fs root hroot hexact => ?_⟩
  have hfs : Declared links root fs := by
    intro q x ho target
    rw [← hexact, ho, Option.some.injEq]
  refine ⟨fun link target hlink n t ht => ?_, fun names => ?_⟩
  · have hparent : fs.obj (root ++ link.dropLast) = some .dir := by
      have ho := (hexact link target).mpr hlink
      have hne : link ≠ [] := by
        rintro rfl
        rw [List.append_nil, hroot] at ho
        cases ho
      rw [← List.dropLast_append_of_ne_nil hne]
      refine Fs.dir_above (ho ▸ Option.some_ne_none _) (List.dropLast_prefix _) fun heq => ?_
      have := congrArg List.length heq
      have := List.length_pos_iff.mpr hne
      simp only [List.length_dropLast, List.length_append] at *
      omega
    have hset := link_settles h hfs hlink hparent [] (k := 0) fun landed _ =>
      .ended (List.prefix_append _ _) rfl
    rw [List.append_nil] at hset
    obtain ⟨hn, hin⟩ := hset.treks ht
    refine ⟨?_, hin.inside⟩
    simp only [maxSymlinkHops] at hn ⊢
    omega
  · have hset := names_settle h hfs names [] (by simpa using hroot)
    rw [List.append_nil] at hset
    refine ⟨hset.ends, fun n t ht => ?_⟩
    obtain ⟨hn, hin⟩ := hset.treks ht
    exact ⟨hn, hin.inside⟩

def upFs : Fs := (do
  let fs ← Fs.top.addDir ["dst"]
  let fs ← fs.addDir ["dst", "d"]
  fs.add ["dst", "d", "up"] (.symlink "..")).getD Fs.top

theorem symlinks_confined_sound_up :
    ∀ n t, Treks upFs ⟨["dst"], [.normal "d", .normal "up", .normal "d"]⟩ n t →
      n ≤ maxSymlinkHops * 3 ∧ ["dst"] <+: t.cur := by
  have hexact : ∀ q target, upFs.obj (["dst"] ++ q) = some (.symlink target) ↔
      Links.get [(["d", "up"], "..")] q = some target := by
    intro q target
    simp only [upFs, Fs.addDir, Fs.add, Fs.top, Fs.setMode, Links.get, Obj.below]
    by_cases hq : q = ["d", "up"]
    · simp [hq]
    · by_cases hd : q = ["d"]
      · simp [hd]
      · simp [hq, hd, Ne.symm hq]
  exact (((symlinks_confined_sound [(["d", "up"], "..")]).2 (by decide +kernel) upFs ["dst"]
    (by decide +kernel) hexact).2 ["d", "up", "d"]).2

end Zblob

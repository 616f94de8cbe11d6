import Mathlib.Data.List.Nodup
import Mathlib.Data.Nat.Find
import Zblob.Stripes

/-!
Where the rotation of the dealing loop comes to rest. A chunk is offered to the holders in
turn, from wherever the chunk before it left the cursor; once it has been handed out the
loop no longer stops at the end of a cycle.
-/

set_option autoImplicit false

namespace Zblob

def Deal.able (claims : Nat → Bool) (budget : Nat) (d : Deal) (h : Nat) : Bool :=
  claims h && decide ((d.assignment h).length < budget)

def Deal.ahead (live : List Nat) (d : Deal) (j : Nat) : Nat :=
  live.getD ((d.cursor + j) % live.length) 0

def Deal.skip (d : Deal) (j : Nat) : Deal := { d with cursor := d.cursor + j }

section

variable {live : List Nat} {claims : Nat → Bool} {budget copies idx : Nat} {d : Deal}

theorem Deal.takes_eq : d.takes live claims budget = d.able claims budget (d.ahead live 0) := rfl

theorem Deal.turn_skip (ht : d.takes live claims budget = false) :
    d.turn live claims budget idx = d.skip 1 := by
  simp [Deal.turn, ht, Deal.skip]

@[simp] theorem Deal.skip_assignment (j : Nat) : (d.skip j).assignment = d.assignment := rfl

@[simp] theorem Deal.skip_cursor (j : Nat) : (d.skip j).cursor = d.cursor + j := rfl

theorem Deal.skip_skip (j k : Nat) : (d.skip j).skip k = d.skip (j + k) := by
  simp [Deal.skip, Nat.add_assoc]

theorem Deal.skip_ahead (j k : Nat) : (d.skip j).ahead live k = d.ahead live (j + k) := by
  simp [Deal.ahead, Nat.add_assoc]

theorem Deal.skip_able (j h : Nat) : (d.skip j).able claims budget h = d.able claims budget h := rfl

theorem dealOne_take {dealt : Nat} (fuel : Nat) (hlt : dealt < copies)
    (ht : d.takes live claims budget = true) :
    dealOne live claims budget copies idx (fuel + 1) dealt d =
      dealOne live claims budget copies idx fuel (dealt + 1) (d.turn live claims budget idx) := by
  rw [dealOne_turn, if_pos hlt, ht]
  simp

theorem dealOne_done {dealt : Nat} (fuel : Nat) (hge : copies ≤ dealt) :
    dealOne live claims budget copies idx fuel dealt d = some d := by
  cases fuel with
  | zero => simp [dealOne, Nat.not_lt.mpr hge]
  | succ fuel => rw [dealOne_turn, if_neg (by omega)]

theorem dealOne_pass (idx : Nat) {dealt j : Nat} (fuel : Nat) (hlt : dealt < copies)
    (hno : ∀ i < j, d.able claims budget (d.ahead live i) = false)
    (hgo : 0 < dealt ∨ ∀ i < j, (d.cursor + i + 1) % live.length ≠ 0) :
    dealOne live claims budget copies idx (fuel + j) dealt d =
      dealOne live claims budget copies idx fuel dealt (d.skip j) := by
  induction j generalizing d with
  | zero => rfl
  | succ j ih =>
    have ht : d.takes live claims budget = false := hno 0 (by omega)
    have hcycle : ¬ ((d.turn live claims budget idx).cursor % live.length = 0 ∧ dealt = 0) := by
      rintro ⟨hwrap, hzero⟩
      rcases hgo with hpos | hgo
      · omega
      · exact hgo 0 (by omega) hwrap
    have hrest := ih (d := d.skip 1)
      (by
        intro i hi
        rw [Deal.skip_able, Deal.skip_ahead]
        exact hno (1 + i) (by omega))
      (by
        rcases hgo with hpos | hgo
        · exact .inl hpos
        · right
          intro i hi
          have := hgo (i + 1) (by omega)
          rwa [Deal.skip_cursor, show d.cursor + 1 + i + 1 = d.cursor + (i + 1) + 1 by omega])
    rw [← Nat.add_assoc, dealOne_turn, if_pos hlt, ht]
    simp only [Bool.false_eq_true, if_false]
    rw [if_neg hcycle, Deal.turn_skip ht, hrest, Deal.skip_skip, Nat.add_comm 1 j]

theorem dealOne_giveUp (fuel : Nat) (hlive : live ≠ []) (hcopies : 0 < copies)
    (hno : ∀ i < live.length - d.cursor % live.length,
      d.able claims budget (d.ahead live i) = false) :
    dealOne live claims budget copies idx (fuel + (live.length - d.cursor % live.length)) 0 d =
      some (d.skip (live.length - d.cursor % live.length)) := by
  have hn : 0 < live.length := List.length_pos_iff.mpr hlive
  have hmod := Nat.mod_lt d.cursor hn
  obtain ⟨j, hj⟩ : ∃ j, live.length - d.cursor % live.length = j + 1 :=
    ⟨live.length - d.cursor % live.length - 1, by omega⟩
  have hwrap : ∀ i, (d.cursor + i) % live.length = (d.cursor % live.length + i) % live.length := by
    intro i
    rw [Nat.mod_add_mod]
  have hpass := dealOne_pass idx (fuel + 1) hcopies (fun i hi => hno i (by omega))
    (.inr fun i (hi : i < j) => by
      rw [Nat.add_assoc, hwrap, Nat.mod_eq_of_lt (by omega)]
      omega)
  have ht : (d.skip j).takes live claims budget = false := by
    rw [Deal.takes_eq, Deal.skip_able, Deal.skip_ahead]
    exact hno j (by omega)
  have hend : (d.skip j).cursor + 1 = d.cursor + (j + 1) := rfl
  rw [hj, show fuel + (j + 1) = fuel + 1 + j by omega, hpass, dealOne_turn, if_pos hcopies, ht]
  simp only [Bool.false_eq_true, if_false]
  rw [if_pos, Deal.turn_skip ht, Deal.skip_skip]
  refine ⟨?_, trivial⟩
  rw [Deal.turn_skip ht, Deal.skip_cursor, hend, hwrap, ← hj]
  have hfull : d.cursor % live.length + (live.length - d.cursor % live.length) =
      live.length := by omega
  rw [hfull, Nat.mod_self]

/-- Once one copy is out and nobody can take another, the loop turns for ever. -/
theorem dealOne_endless {dealt : Nat} (hlive : live ≠ []) (hpos : 0 < dealt) (hlt : dealt < copies)
    (hno : ∀ h ∈ live, d.able claims budget h = false) (fuel : Nat) :
    dealOne live claims budget copies idx fuel dealt d = none := by
  have hn : 0 < live.length := List.length_pos_iff.mpr hlive
  have hahead : ∀ i < fuel, d.able claims budget (d.ahead live i) = false := by
    intro i _
    apply hno
    rw [Deal.ahead, List.getD_eq_getElem _ _ (Nat.mod_lt _ hn)]
    exact List.getElem_mem _
  have hpass := dealOne_pass idx 0 hlt hahead (.inl hpos)
  rw [Nat.zero_add] at hpass
  rw [hpass]
  simp [dealOne, hlt]

theorem dealOne_mono {fuel fuel' dealt : Nat} {d' : Deal} (hle : fuel ≤ fuel')
    (h : dealOne live claims budget copies idx fuel dealt d = some d') :
    dealOne live claims budget copies idx fuel' dealt d = some d' := by
  induction fuel generalizing fuel' dealt d with
  | zero =>
    simp only [dealOne] at h
    split at h
    · cases h
    · cases h
      exact dealOne_done fuel' (by omega)
  | succ fuel ih =>
    obtain ⟨k, rfl⟩ : ∃ k, fuel' = k + 1 := ⟨fuel' - 1, by omega⟩
    rw [dealOne_turn] at h ⊢
    split at h
    · rename_i hlt
      rw [if_pos hlt]
      generalize (if d.takes live claims budget then dealt + 1 else dealt) = dealt' at h ⊢
      by_cases hend : (d.turn live claims budget idx).cursor % live.length = 0 ∧ dealt' = 0
      · rwa [if_pos hend] at h ⊢
      · rw [if_neg hend] at h ⊢
        exact ih (by omega) h
    · rename_i hge
      rw [if_neg hge]
      exact h

theorem dealOne_unique {fuel fuel' : Nat} {d₁ d₂ : Deal}
    (h₁ : dealOne live claims budget copies idx fuel 0 d = some d₁)
    (h₂ : dealOne live claims budget copies idx fuel' 0 d = some d₂) : d₁ = d₂ := by
  have hl := dealOne_mono (Nat.le_max_left fuel fuel') h₁
  have hr := dealOne_mono (Nat.le_max_right fuel fuel') h₂
  rw [hl] at hr
  exact Option.some.inj hr

theorem ahead_of_place {r : Nat} (hr : r < live.length) :
    ∃ j < live.length, (d.cursor + j) % live.length = r := by
  have hmod := Nat.mod_lt d.cursor (show 0 < live.length by omega)
  rcases Nat.lt_or_ge r (d.cursor % live.length) with h | h
  · refine ⟨live.length + r - d.cursor % live.length, by omega, ?_⟩
    rw [Nat.add_mod, Nat.mod_eq_of_lt (a := live.length + r - _) (by omega),
      show d.cursor % live.length + (live.length + r - d.cursor % live.length) =
      r + live.length by omega,
      Nat.add_mod_right, Nat.mod_eq_of_lt hr]
  · refine ⟨r - d.cursor % live.length, by omega, ?_⟩
    rw [Nat.add_mod, Nat.mod_eq_of_lt (a := r - _) (by omega),
      show d.cursor % live.length + (r - d.cursor % live.length) = r by omega, Nat.mod_eq_of_lt hr]

theorem ahead_mem (hlive : live ≠ []) (j : Nat) : d.ahead live j ∈ live := by
  rw [Deal.ahead, List.getD_eq_getElem _ _ (Nat.mod_lt _ (List.length_pos_iff.mpr hlive))]
  exact List.getElem_mem _

theorem exists_ahead {h : Nat} (hmem : h ∈ live) : ∃ j < live.length, d.ahead live j = h := by
  obtain ⟨r, hr, rfl⟩ := List.mem_iff_getElem.mp hmem
  obtain ⟨j, hj, hplace⟩ := ahead_of_place (d := d) hr
  exact ⟨j, hj, by rw [Deal.ahead, hplace, List.getD_eq_getElem _ _ hr]⟩

theorem ahead_injective (hnodup : live.Nodup) {j k : Nat} (hjk : j < k) (hk : k < j + live.length) :
    d.ahead live j ≠ d.ahead live k := by
  have hn : 0 < live.length := by omega
  have hj := Nat.mod_lt (d.cursor + j) hn
  have hk' := Nat.mod_lt (d.cursor + k) hn
  intro heq
  rw [Deal.ahead, Deal.ahead, List.getD_eq_getElem _ _ hj, List.getD_eq_getElem _ _ hk'] at heq
  have hplace := (List.Nodup.getElem_inj_iff hnodup).mp heq
  have hdiff := Nat.sub_mod_eq_zero_of_mod_eq hplace.symm
  rw [Nat.mod_eq_of_lt (by omega)] at hdiff
  omega

theorem first_able {h : Nat} (hmem : h ∈ live) (hable : d.able claims budget h = true) :
    ∃ j, d.able claims budget (d.ahead live j) = true ∧ ∀ i < j,
      d.able claims budget (d.ahead live i) = false := by
  obtain ⟨k, -, hk⟩ := exists_ahead (d := d) hmem
  have hex : ∃ j, d.able claims budget (d.ahead live j) = true := ⟨k, by rwa [hk]⟩
  refine ⟨Nat.find hex, Nat.find_spec hex, fun i hi => ?_⟩
  simpa using Nat.find_min hex hi

theorem dealOne_next {dealt j : Nat} (idx fuel : Nat) (hpos : 0 < dealt) (hlt : dealt < copies)
    (hable : d.able claims budget (d.ahead live j) = true)
    (hno : ∀ i < j, d.able claims budget (d.ahead live i) = false) :
    dealOne live claims budget copies idx (fuel + 1 + j) dealt d =
      dealOne live claims budget copies idx fuel (dealt + 1)
      ((d.skip j).turn live claims budget idx) := by
  rw [dealOne_pass idx (fuel + 1) hlt hno (.inl hpos)]
  apply dealOne_take fuel hlt
  rw [Deal.takes_eq, Deal.skip_able, Deal.skip_ahead]
  exact hable

theorem dealOne_first {j : Nat} (idx fuel : Nat) (hcopies : 0 < copies)
    (hj : d.cursor % live.length + j < live.length)
    (hable : d.able claims budget (d.ahead live j) = true)
    (hno : ∀ i < j, d.able claims budget (d.ahead live i) = false) :
    dealOne live claims budget copies idx (fuel + 1 + j) 0 d =
      dealOne live claims budget copies idx fuel 1 ((d.skip j).turn live claims budget idx) := by
  have hgo : ∀ i < j, (d.cursor + i + 1) % live.length ≠ 0 := by
    intro i hi
    rw [Nat.add_assoc, Nat.add_mod, Nat.mod_eq_of_lt (a := i + 1) (by omega),
      Nat.mod_eq_of_lt (by omega)]
    omega
  rw [dealOne_pass idx (fuel + 1) hcopies hno (.inr hgo)]
  apply dealOne_take fuel hcopies
  rw [Deal.takes_eq, Deal.skip_able, Deal.skip_ahead]
  exact hable

def Deal.InCycle (live : List Nat) (claims : Nat → Bool) (budget : Nat) (d : Deal) : Prop :=
  ∃ j, d.cursor % live.length + j < live.length ∧ d.able claims budget (d.ahead live j) = true

/-- Two copies are due, the holders that claim the chunk have one place left between them,
and the first copy takes it. -/
def Starved (live : List Nat) (claims : Nat → Bool) (budget copies : Nat) (d : Deal) : Prop :=
  copies = 2 ∧ ∃ j, d.cursor % live.length + j < live.length ∧
    d.able claims budget (d.ahead live j) = true ∧
    (d.assignment (d.ahead live j)).length + 1 = budget ∧
    ∀ h ∈ live, d.able claims budget h = true → h = d.ahead live j

theorem dealOne_outside (idx : Nat) (hlive : live ≠ []) (hcopies : 0 < copies)
    (hout : ¬ d.InCycle live claims budget) :
    ∃ fuel j, dealOne live claims budget copies idx fuel 0 d = some (d.skip j) := by
  refine ⟨_, _, dealOne_giveUp 0 hlive hcopies ?_⟩
  intro i hi
  by_contra hable
  exact hout ⟨i, by omega, by simpa using hable⟩

theorem Deal.taken_able (idx : Nat) {j : Nat}
    (hable : d.able claims budget (d.ahead live j) = true) (h : Nat) :
    ((d.skip j).turn live claims budget idx).able claims budget h = true ↔
      d.able claims budget h = true ∧
      (h = d.ahead live j → (d.assignment h).length + 1 < budget) := by
  have ht : (d.skip j).takes live claims budget = true := by
    rw [Deal.takes_eq, Deal.skip_able, Deal.skip_ahead]
    exact hable
  have hholder : (d.skip j).holder live = d.ahead live j := rfl
  simp only [Deal.able, Deal.turn_assignment idx ht, hholder, Deal.skip_assignment,
    Bool.and_eq_true, decide_eq_true_eq,
    List.length_append, List.length_replicate]
  by_cases heq : h = d.ahead live j
  · rw [if_pos heq]
    simp only [heq, forall_const]
    exact ⟨fun ⟨hc, hl⟩ => ⟨⟨hc, by omega⟩, hl⟩, fun ⟨⟨hc, _⟩, hl⟩ => ⟨hc, hl⟩⟩
  · simp [heq]

theorem Deal.taken_mem (idx : Nat) {j : Nat}
    (hable : d.able claims budget (d.ahead live j) = true) :
    idx ∈ ((d.skip j).turn live claims budget idx).assignment (d.ahead live j) := by
  have ht : (d.skip j).takes live claims budget = true := by
    rw [Deal.takes_eq, Deal.skip_able, Deal.skip_ahead]
    exact hable
  have hholder : (d.skip j).holder live = d.ahead live j := rfl
  rw [Deal.turn_assignment idx ht, hholder]
  simp

theorem Deal.turn_grows {h x : Nat} (hx : x ∈ d.assignment h) :
    x ∈ (d.turn live claims budget idx).assignment h := by
  cases ht : d.takes live claims budget with
  | false => simpa [Deal.turn, ht] using hx
  | true =>
    rw [Deal.turn_assignment idx ht]
    exact List.mem_append_left _ hx

theorem Deal.InCycle.first (hin : d.InCycle live claims budget) :
    ∃ j, d.cursor % live.length + j < live.length ∧ d.able claims budget (d.ahead live j) = true ∧
      ∀ i < j, d.able claims budget (d.ahead live i) = false := by
  obtain ⟨k, hk, hable⟩ := hin
  have hex : ∃ j, d.able claims budget (d.ahead live j) = true := ⟨k, hable⟩
  have hle : Nat.find hex ≤ k := Nat.find_min' hex hable
  exact ⟨Nat.find hex, by omega, Nat.find_spec hex, fun i hi => by simpa using Nat.find_min hex hi⟩

/-- A chunk starves when nobody is left for its second copy. -/
theorem starved_iff (idx : Nat) {j : Nat} (hj : d.cursor % live.length + j < live.length)
    (hable : d.able claims budget (d.ahead live j) = true) (hlive : live ≠ []) :
    Starved live claims budget copies d ↔ copies = 2 ∧
      ∀ h ∈ live, ((d.skip j).turn live claims budget idx).able claims budget h = false := by
  have hmem := ahead_mem (d := d) hlive j
  constructor
  · rintro ⟨h2, k, -, -, hlast, hsole⟩
    refine ⟨h2, fun h hh => ?_⟩
    by_contra hstill
    obtain ⟨hab, hroom⟩ := (Deal.taken_able idx hable h).mp (by simpa using hstill)
    have hj' := hsole _ hmem hable
    have hh' := hsole h hh hab
    have := hroom (hh'.trans hj'.symm)
    rw [hh'] at this
    omega
  · rintro ⟨h2, hnone⟩
    have hlen : (d.assignment (d.ahead live j)).length < budget := by
      simpa using (Bool.and_eq_true_iff.mp hable).2
    refine ⟨h2, j, hj, hable, ?_, fun h hh hab => ?_⟩
    · by_contra hroom
      have hstill := (Deal.taken_able idx hable (d.ahead live j)).mpr ⟨hable, fun _ => by omega⟩
      rw [hnone _ hmem] at hstill
      cases hstill
    · by_contra hne
      have hstill := (Deal.taken_able idx hable h).mpr ⟨hab, fun heq => absurd heq hne⟩
      rw [hnone h hh] at hstill
      cases hstill

theorem dealOne_second {j : Nat} (idx : Nat) (hable : d.able claims budget (d.ahead live j) = true)
    (hmore : ∃ h ∈ live, ((d.skip j).turn live claims budget idx).able claims budget h = true) :
    ∃ fuel d', dealOne live claims budget 2 idx fuel 1
      ((d.skip j).turn live claims budget idx) = some d' ∧
      idx ∈ d'.assignment (d.ahead live j) ∧
      (live.Nodup → (∃ h ∈ live, h ≠ d.ahead live j ∧ d.able claims budget h = true) →
        ∃ h ∈ live, h ≠ d.ahead live j ∧ idx ∈ d'.assignment h) := by
  have hidx := Deal.taken_mem idx hable
  have hturn := fun h => Deal.taken_able idx hable h
  have hcursor : ((d.skip j).turn live claims budget idx).cursor = d.cursor + j + 1 := rfl
  generalize (d.skip j).turn live claims budget idx = d₁ at hmore hidx hturn hcursor
  obtain ⟨h, hh, hab⟩ := hmore
  have hlive : live ≠ [] := List.ne_nil_of_mem hh
  obtain ⟨k, hk, hno⟩ := first_able hh hab
  have hrun := dealOne_next idx 0 Nat.one_pos (by decide : 1 < 2) hk hno
  rw [dealOne_done 0 (Nat.le_refl 2)] at hrun
  refine ⟨_, _, hrun, Deal.turn_grows hidx, ?_⟩
  rintro hnodup ⟨h', hh', hne, hab'⟩
  have hahead : ∀ i, d₁.ahead live i = d.ahead live (j + 1 + i) := by
    intro i
    rw [Deal.ahead, hcursor, Deal.ahead]
    congr 2
    omega
  -- the other holder comes up before the first one does again
  obtain ⟨i, hi, hplace⟩ := exists_ahead (d := d₁) hh'
  have hstill : d₁.able claims budget h' = true := (hturn h').mpr ⟨hab', fun heq => absurd heq hne⟩
  have hik : k ≤ i := by
    by_contra hlt
    have := hno i (by omega)
    rw [hplace, hstill] at this
    cases this
  have hi' : i + 1 < live.length := by
    rcases Nat.eq_or_lt_of_le hi with hlast | hlt
    · exfalso
      apply hne
      rw [← hplace, hahead, show j + 1 + i = j +
        live.length by omega, Deal.ahead, ← Nat.add_assoc, Nat.add_mod_right,
        Deal.ahead]
    · exact hlt
  refine ⟨d₁.ahead live k, ahead_mem hlive k, ?_, Deal.taken_mem idx hk⟩
  rw [hahead]
  exact (ahead_injective hnodup (by omega) (by omega)).symm

theorem dealOne_starved {j : Nat} (idx : Nat) (hj : d.cursor % live.length + j < live.length)
    (hable : d.able claims budget (d.ahead live j) = true)
    (hno : ∀ i < j, d.able claims budget (d.ahead live i) = false)
    (hlive : live ≠ []) (hs : Starved live claims budget copies d) (fuel : Nat) :
    dealOne live claims budget copies idx fuel 0 d = none := by
  obtain ⟨h2, hnone⟩ := (starved_iff idx hj hable hlive).mp hs
  cases hrun : dealOne live claims budget copies idx fuel 0 d with
  | none => rfl
  | some d' =>
    have hlong := dealOne_mono (show fuel ≤ fuel + 1 + j by omega) hrun
    rw [dealOne_first idx fuel (by omega) hj hable hno,
      dealOne_endless hlive Nat.one_pos (by omega) hnone] at hlong
    cases hlong

def Deal.Two (live : List Nat) (p : Nat → Prop) : Prop :=
  ∃ h ∈ live, ∃ h' ∈ live, h ≠ h' ∧ p h ∧ p h'

theorem dealOne_inside (idx : Nat) (hlive : live ≠ []) (hcopies : 0 < copies) (htwo : copies ≤ 2)
    (hin : d.InCycle live claims budget) (hfed : ¬ Starved live claims budget copies d) :
    ∃ fuel d', dealOne live claims budget copies idx fuel 0 d = some d' ∧
      (∃ h ∈ live, idx ∈ d'.assignment h) ∧
      (live.Nodup → copies = 2 → Deal.Two live (fun h => d.able claims budget h = true) →
        Deal.Two live fun h => idx ∈ d'.assignment h) := by
  obtain ⟨j, hj, hable, hno⟩ := hin.first
  have hmem := ahead_mem (d := d) hlive j
  rcases Nat.eq_or_lt_of_le htwo with rfl | h1
  · rw [starved_iff idx hj hable hlive] at hfed
    have hmore : ∃ h ∈ live,
        ((d.skip j).turn live claims budget idx).able claims budget h = true := by
      by_contra hnone
      exact hfed ⟨rfl, fun h hh => by simpa using fun hab => hnone ⟨h, hh, hab⟩⟩
    obtain ⟨fuel, d', hrun, hidx, hother⟩ := dealOne_second idx hable hmore
    refine ⟨fuel + 1 + j, d',
      by rw [dealOne_first idx fuel hcopies hj hable hno, hrun], ⟨_, hmem, hidx⟩, ?_⟩
    rintro hnodup - ⟨h, hh, h', hh', hne, hab, hab'⟩
    have hsecond : ∃ g ∈ live, g ≠ d.ahead live j ∧ d.able claims budget g = true := by
      by_cases heq : h = d.ahead live j
      · exact ⟨h', hh', fun heq' => hne (heq.trans heq'.symm), hab'⟩
      · exact ⟨h, hh, heq, hab⟩
    obtain ⟨g, hg, hgne, hgidx⟩ := hother hnodup hsecond
    exact ⟨_, hmem, g, hg, hgne.symm, hidx, hgidx⟩
  · have hrun := dealOne_first idx 0 hcopies hj hable hno
    rw [dealOne_done 0 (by omega)] at hrun
    exact ⟨_, _, hrun, ⟨_, hmem, Deal.taken_mem idx hable⟩, fun _ h2 => by omega⟩

theorem dealOne_ends_iff (idx : Nat) (hlive : live ≠ []) (hcopies : 0 < copies)
    (htwo : copies ≤ 2) :
    (∃ fuel d', dealOne live claims budget copies idx fuel 0 d = some d') ↔
      ¬ Starved live claims budget copies d := by
  by_cases hin : d.InCycle live claims budget
  · constructor
    · rintro ⟨fuel, d', hrun⟩ hs
      obtain ⟨j, hj, hable, hno⟩ := hin.first
      rw [dealOne_starved idx hj hable hno hlive hs] at hrun
      cases hrun
    · intro hfed
      obtain ⟨fuel, d', hrun, -⟩ := dealOne_inside idx hlive hcopies htwo hin hfed
      exact ⟨fuel, d', hrun⟩
  · obtain ⟨fuel, j, hrun⟩ := dealOne_outside idx hlive hcopies hin
    exact iff_of_true ⟨fuel, _, hrun⟩ fun ⟨_, k, hk, hable, _⟩ => hin ⟨k, hk, hable⟩

end

section

variable {live : List Nat} {claims : Nat → Nat → Bool} {budget copies fuel fuel' : Nat}
  {d d' : Deal}

theorem dealAll_mono {idxs : List Nat} (hle : fuel ≤ fuel')
    (h : dealAll live claims budget copies fuel idxs d = some d') :
    dealAll live claims budget copies fuel' idxs d = some d' := by
  induction idxs generalizing d with
  | nil => exact h
  | cons idx rest ih =>
    rw [dealAll] at h ⊢
    cases hone : dealOne live (claims idx) budget copies idx fuel 0 d with
    | none => simp [hone] at h
    | some d₁ =>
      rw [hone] at h
      rw [dealOne_mono hle hone]
      exact ih h

theorem dealAll_append (xs ys : List Nat) :
    dealAll live claims budget copies fuel (xs ++ ys) d =
      (dealAll live claims budget copies fuel xs d).bind
      (dealAll live claims budget copies fuel ys) := by
  induction xs generalizing d with
  | nil => rfl
  | cons x xs ih =>
    rw [List.cons_append, dealAll, dealAll]
    cases dealOne live (claims x) budget copies x fuel 0 d with
    | none => rfl
    | some d₁ => exact ih

def Reaches (live : List Nat) (claims : Nat → Nat → Bool) (budget copies : Nat)
    (idxs : List Nat) (start : Deal)
    (idx : Nat) (d : Deal) : Prop :=
  ∃ before after fuel, idxs = before ++ idx :: after ∧
    dealAll live claims budget copies fuel before start = some d

theorem reaches_head (idx : Nat) (rest : List Nat) :
    Reaches live claims budget copies (idx :: rest) d idx d :=
  ⟨[], rest, 0, rfl, rfl⟩

theorem reaches_tail {x idx : Nat} {rest : List Nat} {d₁ e : Deal}
    (hone : dealOne live (claims x) budget copies x fuel 0 d = some d₁)
    (h : Reaches live claims budget copies rest d₁ idx e) :
    Reaches live claims budget copies (x :: rest) d idx e := by
  obtain ⟨before, after, fuel', hsplit, hrun⟩ := h
  refine ⟨x :: before, after, max fuel fuel', by rw [hsplit]; rfl, ?_⟩
  rw [dealAll, dealOne_mono (Nat.le_max_left fuel fuel') hone]
  exact dealAll_mono (Nat.le_max_right fuel fuel') hrun

theorem reaches_cons {x idx : Nat} {rest : List Nat} {d₁ e : Deal}
    (hone : dealOne live (claims x) budget copies x fuel 0 d = some d₁)
    (h : Reaches live claims budget copies (x :: rest) d idx e) :
    (idx = x ∧ e = d) ∨ Reaches live claims budget copies rest d₁ idx e := by
  obtain ⟨before, after, fuel', hsplit, hrun⟩ := h
  cases before with
  | nil =>
    cases hsplit
    cases hrun
    exact .inl ⟨rfl, rfl⟩
  | cons y before =>
    cases hsplit
    rw [dealAll] at hrun
    cases hone' : dealOne live (claims x) budget copies x fuel' 0 d with
    | none => simp [hone'] at hrun
    | some d₂ =>
      rw [hone'] at hrun
      cases dealOne_unique hone hone'
      exact .inr ⟨before, after, fuel', rfl, hrun⟩

/-- The dealing ends exactly when it starves at no chunk it comes to. -/
theorem dealAll_ends_iff (hlive : live ≠ []) (hcopies : 0 < copies)
    (htwo : copies ≤ 2) (idxs : List Nat) :
    (∃ fuel d', dealAll live claims budget copies fuel idxs d = some d') ↔
      ∀ idx e, Reaches live claims budget copies idxs d idx e →
      ¬ Starved live (claims idx) budget copies e := by
  induction idxs generalizing d with
  | nil =>
    refine iff_of_true ⟨0, d, rfl⟩ ?_
    rintro idx e ⟨before, after, -, hsplit, -⟩
    simp at hsplit
  | cons x rest ih =>
    have hends : (∃ fuel d', dealOne live (claims x) budget copies x fuel 0 d = some d') ↔
        ¬ Starved live (claims x) budget copies d := dealOne_ends_iff x hlive hcopies htwo
    constructor
    · rintro ⟨fuel, d', hrun⟩
      rw [dealAll] at hrun
      cases hone : dealOne live (claims x) budget copies x fuel 0 d with
      | none => simp [hone] at hrun
      | some d₁ =>
        rw [hone] at hrun
        have hrest := ih.mp ⟨fuel, d', hrun⟩
        intro idx e hreach
        rcases reaches_cons hone hreach with ⟨rfl, rfl⟩ | hreach
        · exact hends.mp ⟨fuel, d₁, hone⟩
        · exact hrest idx e hreach
    · intro hfed
      obtain ⟨fuel, d₁, hone⟩ := hends.mpr (hfed x d (reaches_head x rest))
      obtain ⟨fuel', d', hrest⟩ := ih.mpr fun idx e hreach => hfed idx e (reaches_tail hone hreach)
      refine ⟨max fuel fuel', d', ?_⟩
      rw [dealAll, dealOne_mono (Nat.le_max_left fuel fuel') hone]
      exact dealAll_mono (Nat.le_max_right fuel fuel') hrest

end

end Zblob

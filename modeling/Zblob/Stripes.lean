import Zblob.Holes
import Mathlib.Data.List.Induction

/-!
The queries of a striping round. The dealing loop appends to one list for each
holder; what a list can contain is decided by what each turn appends to it.
-/

set_option autoImplicit false

namespace Zblob

section Coalesce

theorem mem_coalesceFrom {n : Nat} {a b : Nat} {l : List Nat} {r : Nat × Nat} (hab : a < b)
    (hb : b ≤ n) (hl : ∀ i ∈ l, b ≤ i ∧ i < n) (hs : l.Pairwise (· < ·))
    (hr : r ∈ coalesceFrom (some (a, b)) l) : a ≤ r.1 ∧ r.1 < r.2 ∧ r.2 ≤ n := by
  induction l generalizing a b with
  | nil =>
    simp only [coalesceFrom, List.mem_singleton] at hr
    subst hr
    exact ⟨Nat.le_refl a, hab, hb⟩
  | cons i rest ih =>
    have hi := hl i (by simp)
    rw [List.pairwise_cons] at hs
    have hrest : ∀ x ∈ rest, i + 1 ≤ x ∧ x < n := fun x hx => ⟨hs.1 x hx, (hl x (by simp [hx])).2⟩
    simp only [coalesceFrom] at hr
    split at hr
    · exact ih (by omega) (by omega) hrest hs.2 hr
    · rcases List.mem_cons.mp hr with rfl | hr
      · exact ⟨Nat.le_refl a, hab, hb⟩
      · obtain ⟨h1, h2⟩ := ih (by omega) (by omega) hrest hs.2 hr
        exact ⟨by omega, h2⟩

theorem coalesceFrom_apart {n : Nat} {a b : Nat} {l : List Nat} (hl : ∀ i ∈ l, b ≤ i ∧ i < n)
    (hs : l.Pairwise (· < ·)) :
    (coalesceFrom (some (a, b)) l).Pairwise fun x y => x.2 < y.1 := by
  induction l generalizing a b with
  | nil => simp [coalesceFrom]
  | cons i rest ih =>
    have hi := hl i (by simp)
    rw [List.pairwise_cons] at hs
    have hrest : ∀ x ∈ rest, i + 1 ≤ x ∧ x < n := fun x hx => ⟨hs.1 x hx, (hl x (by simp [hx])).2⟩
    simp only [coalesceFrom]
    split
    · exact ih hrest hs.2
    · rename_i hgap
      rw [List.pairwise_cons]
      refine ⟨?_, ih hrest hs.2⟩
      intro r hr
      have := (mem_coalesceFrom (by omega) (by omega) hrest hs.2 hr).1
      omega

theorem coalesceFrom_ne_nil (r : Nat × Nat) (l : List Nat) : coalesceFrom (some r) l ≠ [] := by
  induction l generalizing r with
  | nil => simp [coalesceFrom]
  | cons i rest ih =>
    simp only [coalesceFrom]
    split
    · exact ih _
    · simp

theorem coalesce_ne_nil {l : List Nat} (hne : l ≠ []) : coalesce l ≠ [] := by
  cases l with
  | nil => exact absurd rfl hne
  | cons i rest => simp [coalesce, coalesceFrom, maxRangeSpans, coalesceFrom_ne_nil]

theorem coalesce_spans {n : Nat} {l : List Nat} (hl : ∀ i ∈ l, i < n) (hs : l.Pairwise (· < ·)) :
    (∀ r ∈ coalesce l, r.1 < r.2 ∧ r.2 ≤ n) ∧ (coalesce l).Pairwise fun a b => a.2 ≤ b.1 := by
  cases l with
  | nil => simp [coalesce, coalesceFrom]
  | cons i rest =>
    have hi := hl i (by simp)
    rw [List.pairwise_cons] at hs
    have hrest : ∀ x ∈ rest, i + 1 ≤ x ∧ x < n := fun x hx => ⟨hs.1 x hx, hl x (by simp [hx])⟩
    constructor
    · intro r hr
      exact (mem_coalesceFrom (by omega) (by omega) hrest hs.2 (List.mem_of_mem_take hr)).2
    · exact ((coalesceFrom_apart hrest hs.2).imp Nat.le_of_lt).take

/-- An ascending list of chunks is accepted exactly when its spans fit the cap. -/
theorem coalesce_accepted_iff {p : QueryPrefix} {id : BlobId} {n cap : Nat} {l : List Nat}
    (hn : n ≤ u32Max) (hne : l ≠ []) (hl : ∀ i ∈ l, i < n) (hs : l.Pairwise (· < ·)) :
    (∃ res, parseRanges (selectorParameters (sliceSelector p id (coalesce l))) n cap = .ok res) ↔
      spanTotal (coalesce l) ≤ cap := by
  obtain ⟨hinside, hapart⟩ := coalesce_spans hl hs
  rw [parseRanges_iff hn hinside (coalesce_ne_nil hne)]
  exact ⟨fun h => h.within, fun h =>
    ⟨coalesce_ne_nil hne, List.length_take_le _ _, hinside, hapart, h⟩⟩

theorem spanTotal_take_le (k : Nat) (rs : List (Nat × Nat)) :
    spanTotal (rs.take k) ≤ spanTotal rs := by
  have h := spanTotal_append (rs.take k) (rs.drop k)
  rw [List.take_append_drop] at h
  omega

theorem spanTotal_coalesceFrom (a b : Nat) (l : List Nat) :
    spanTotal (coalesceFrom (some (a, b)) l) ≤ b - a + l.length := by
  induction l generalizing a b with
  | nil => simp [coalesceFrom]
  | cons i rest ih =>
    simp only [coalesceFrom]
    split
    · have := ih a (i + 1)
      simp only [List.length_cons]
      omega
    · have := ih i (i + 1)
      simp only [spanTotal_cons, List.length_cons]
      omega

theorem spanTotal_coalesce (l : List Nat) : spanTotal (coalesce l) ≤ l.length := by
  have htake := spanTotal_take_le maxRangeSpans (coalesceFrom none l)
  cases l with
  | nil => simp [coalesce, coalesceFrom]
  | cons i rest =>
    have := spanTotal_coalesceFrom i (i + 1) rest
    simp only [coalesce, coalesceFrom, List.length_cons] at htake ⊢
    omega

theorem spanTotal_coalesceFrom_snoc (o : Option (Nat × Nat)) (l : List Nat) (i k : Nat) :
    spanTotal ((coalesceFrom o l).take k) ≤ spanTotal ((coalesceFrom o (l ++ [i])).take k) := by
  induction l generalizing o k with
  | nil =>
    cases o with
    | none => simp [coalesceFrom]
    | some last =>
      simp only [List.nil_append, coalesceFrom]
      cases k with
      | zero => simp
      | succ k =>
        split <;> simp only [List.take_succ_cons, spanTotal_cons, List.take_nil, spanTotal_nil]
        · omega
        · omega
  | cons x rest ih =>
    cases o with
    | none =>
      simp only [List.cons_append, coalesceFrom]
      exact ih _ k
    | some last =>
      simp only [List.cons_append, coalesceFrom]
      split
      · exact ih _ k
      · cases k with
        | zero => simp
        | succ k =>
          have := ih (some (x, x + 1)) k
          simp only [List.take_succ_cons, spanTotal_cons]
          omega

theorem spanTotal_coalesce_snoc (l : List Nat) (i : Nat) :
    spanTotal (coalesce l) ≤ spanTotal (coalesce (l ++ [i])) :=
  spanTotal_coalesceFrom_snoc none l i maxRangeSpans

end Coalesce

section Dealing

def Deal.holder (live : List Nat) (d : Deal) : Nat := live.getD (d.cursor % live.length) 0

def Deal.takes (live : List Nat) (claims : Nat → Bool) (budget : Nat) (d : Deal) : Bool :=
  claims (d.holder live) && decide ((d.assignment (d.holder live)).length < budget)

def Deal.turn (live : List Nat) (claims : Nat → Bool) (budget idx : Nat) (d : Deal) : Deal where
  assignment := if d.takes live claims budget then
      fun k => if k = d.holder live then d.assignment (d.holder live) ++ [idx] else d.assignment k
    else d.assignment
  cursor := d.cursor + 1

/-- Whether every turn of `dealOne` that hands the chunk out passes the test `ok`, given
the holder and the list the holder has by then. -/
def turnsOne (ok : Nat → List Nat → Bool) (live : List Nat) (claims : Nat → Bool)
    (budget copies idx : Nat) : Nat → Nat → Deal → Bool
  | 0, _, _ => true
  | fuel + 1, dealt, d =>
    if dealt < copies then
      let d' := d.turn live claims budget idx
      let dealt' := if d.takes live claims budget then dealt + 1 else dealt
      (!d.takes live claims budget || ok (d.holder live) (d.assignment (d.holder live))) &&
        if d'.cursor % live.length = 0 ∧ dealt' = 0 then true
        else turnsOne ok live claims budget copies idx fuel dealt' d'
    else true

def turnsAll (ok : Nat → Nat → List Nat → Bool) (live : List Nat) (claims : Nat → Nat → Bool)
    (budget copies fuel : Nat) : List Nat → Deal → Bool
  | [], _ => true
  | idx :: rest, d =>
    turnsOne (ok idx) live (claims idx) budget copies idx fuel 0 d &&
      match dealOne live (claims idx) budget copies idx fuel 0 d with
      | none => true
      | some d' => turnsAll ok live claims budget copies fuel rest d'

def Grown (ok : Nat → List Nat → Bool) : List Nat → List Nat → Prop
  | _, [] => True
  | base, x :: xs => ok x base = true ∧ Grown ok (base ++ [x]) xs

theorem grown_append (ok : Nat → List Nat → Bool) (base xs ys : List Nat) :
    Grown ok base (xs ++ ys) ↔ Grown ok base xs ∧ Grown ok (base ++ xs) ys := by
  induction xs generalizing base with
  | nil => simp [Grown]
  | cons x xs ih => simp [Grown, ih, and_assoc]

theorem grown_of_all {ok : Nat → List Nat → Bool} (h : ∀ x base, ok x base = true)
    (base xs : List Nat) : Grown ok base xs := by
  induction xs generalizing base with
  | nil => simp [Grown]
  | cons x xs ih => simp [Grown, h, ih]

variable {live : List Nat} {budget copies fuel : Nat}

/-- What dealing one chunk did: so many copies appended to each list. -/
structure DealtOne (claims : Nat → Bool) (budget copies idx : Nat)
    (live : List Nat) (fuel dealt : Nat)
    (d d' : Deal) (given : Nat → Nat) : Prop where
  grows : ∀ h, d'.assignment h = d.assignment h ++ List.replicate (given h) idx
  claimed : ∀ h, 0 < given h → claims h = true
  room : ∀ h, 0 < given h → (d'.assignment h).length ≤ budget
  few : ∀ h, dealt + given h ≤ copies
  turns : ∀ ok : Nat → Nat → List Nat → Bool, turnsOne
    (ok idx) live claims budget copies idx fuel dealt d = true ↔
    ∀ h, Grown (fun x l => ok x h l) (d.assignment h) (List.replicate (given h) idx)

theorem dealOne_turn (claims : Nat → Bool) (idx dealt : Nat) (d : Deal) :
    dealOne live claims budget copies idx (fuel + 1) dealt d =
      if dealt < copies then
        if (d.turn live claims budget idx).cursor % live.length = 0 ∧
            (if d.takes live claims budget then dealt + 1 else dealt) = 0 then
          some (d.turn live claims budget idx)
        else dealOne live claims budget copies idx fuel
          (if d.takes live claims budget then dealt + 1 else dealt) (d.turn live claims budget idx)
      else some d := rfl

theorem Deal.turn_assignment {claims : Nat → Bool} {d : Deal} (idx : Nat)
    (ht : d.takes live claims budget = true) (k : Nat) :
    (d.turn live claims budget idx).assignment k =
      d.assignment k ++ List.replicate (if k = d.holder live then 1 else 0) idx := by
  by_cases hk : k = d.holder live <;> simp [Deal.turn, ht, hk]

theorem DealtOne.take {claims : Nat → Bool} {idx dealt : Nat} {d d' : Deal} {given : Nat → Nat}
    (hlt : dealt < copies) (ht : d.takes live claims budget = true)
    (hg : DealtOne claims budget copies idx live fuel (dealt + 1) (d.turn live claims budget idx) d'
      given) :
    DealtOne claims budget copies idx live (fuel + 1) dealt d d'
      fun k => (if k = d.holder live then 1 else 0) + given k := by
  have hturn := Deal.turn_assignment idx ht
  have hgrows : ∀ k, d'.assignment k = d.assignment k ++
      List.replicate ((if k = d.holder live then 1 else 0) + given k) idx := by
    intro k
    rw [hg.grows k, hturn k, List.replicate_add, List.append_assoc]
  obtain ⟨hclaims, hroom⟩ : claims (d.holder live) = true ∧
      (d.assignment (d.holder live)).length < budget := by
    simpa [Deal.takes] using ht
  refine ⟨hgrows, ?_, ?_, ?_, ?_⟩
  · intro k hk
    by_cases hkh : k = d.holder live
    · rw [hkh]
      exact hclaims
    · exact hg.claimed k (by simpa [hkh] using hk)
  · intro k hk
    rcases Nat.eq_zero_or_pos (given k) with h0 | hpos
    · have hkh : k = d.holder live := by
        by_contra hkh
        simp [hkh, h0] at hk
      rw [hgrows k, h0, hkh]
      simp only [if_true, List.length_append, List.length_replicate]
      omega
    · exact hg.room k hpos
  · intro k
    have := hg.few k
    split <;> omega
  · intro ok
    have hunfold : turnsOne (ok idx) live claims budget copies idx (fuel + 1) dealt d =
        (ok idx (d.holder live) (d.assignment (d.holder live)) &&
          turnsOne (ok idx) live claims budget copies idx fuel (dealt + 1)
            (d.turn live claims budget idx)) := by
      simp [turnsOne, hlt, ht]
    rw [hunfold, Bool.and_eq_true, hg.turns ok]
    simp only [List.replicate_add, grown_append, ← hturn, forall_and]
    refine and_congr_left' ?_
    constructor
    · intro hok k
      by_cases hkh : k = d.holder live <;> simp [hkh, Grown, hok]
    · intro hall
      have := hall (d.holder live)
      simpa [Grown] using this

theorem dealOne_spec {claims : Nat → Bool} {idx dealt : Nat} {d d' : Deal} (hdealt : dealt ≤ copies)
    (h : dealOne live claims budget copies idx fuel dealt d = some d') :
    ∃ given, DealtOne claims budget copies idx live fuel dealt d d' given := by
  induction fuel generalizing dealt d with
  | zero =>
    simp only [dealOne] at h
    split at h
    · cases h
    · cases h
      exact ⟨fun _ =>
        0, by simp, by simp, by simp, by simpa using hdealt, by simp [turnsOne, Grown]⟩
  | succ fuel ih =>
    rw [dealOne_turn] at h
    split at h
    · rename_i hlt
      cases ht : d.takes live claims budget with
      | false =>
        have hsame : (d.turn live claims budget idx).assignment = d.assignment := by
          simp [Deal.turn, ht]
        simp only [ht, Bool.false_eq_true, if_false] at h
        split at h
        · -- nobody took it up to the end of a cycle: the chunk is given up for this round
          rename_i hbreak
          cases h
          exact ⟨fun _ => 0, by simp [hsame], by simp, by simp, by simpa using hdealt,
            by simp [turnsOne, Grown, ht, hbreak]⟩
        · rename_i hbreak
          obtain ⟨given, hg⟩ := ih hdealt h
          refine ⟨given, by simpa [hsame] using hg.grows, hg.claimed, hg.room, hg.few, ?_⟩
          intro ok
          rw [← hsame, ← hg.turns ok]
          simp [turnsOne, hlt, ht, hbreak]
      | true =>
        simp only [ht, if_true] at h
        rw [if_neg (by omega)] at h
        obtain ⟨given, hg⟩ := ih (by omega) h
        exact ⟨_, hg.take hlt ht⟩
    · rename_i hlt
      cases h
      exact ⟨fun _ => 0, by simp, by simp, by simp, by simpa using hdealt,
        by simp [turnsOne, Grown, hlt]⟩

structure DealtAll (claims : Nat → Nat → Bool) (budget copies : Nat) (live : List Nat) (fuel : Nat)
    (idxs : List Nat) (d d' : Deal) (share : Nat → List Nat) : Prop where
  grows : ∀ h, d'.assignment h = d.assignment h ++ share h
  dealt : ∀ h, ∀ x ∈ share h, x ∈ idxs ∧ claims x h = true
  room : ∀ h, (d.assignment h).length ≤ budget → (d'.assignment h).length ≤ budget
  sorted : idxs.Pairwise (· < ·) → ∀ h, (share h).Pairwise (· ≤ ·)
  once : copies ≤ 1 → idxs.Pairwise (· < ·) → ∀ h, (share h).Pairwise (· < ·)
  turns : ∀ ok : Nat → Nat → List Nat → Bool,
    turnsAll ok live claims budget copies fuel idxs d = true ↔
      ∀ h, Grown (fun x l => ok x h l) (d.assignment h) (share h)

theorem dealAll_spec {claims : Nat → Nat → Bool} {idxs : List Nat} {d d' : Deal}
    (h : dealAll live claims budget copies fuel idxs d = some d') :
    ∃ share, DealtAll claims budget copies live fuel idxs d d' share := by
  induction idxs generalizing d with
  | nil =>
    simp only [dealAll, Option.some.injEq] at h
    subst h
    exact ⟨fun _ => [], by simp, by simp, by simp, by simp, by simp, by simp [turnsAll, Grown]⟩
  | cons idx rest ih =>
    simp only [dealAll] at h
    cases h1 : dealOne live (claims idx) budget copies idx fuel 0 d with
    | none => simp [h1] at h
    | some d1 =>
      simp only [h1] at h
      obtain ⟨given, hg⟩ := dealOne_spec (Nat.zero_le copies) h1
      obtain ⟨share, hs⟩ := ih h
      refine ⟨fun k => List.replicate (given k) idx ++ share k, ?_, ?_, ?_, ?_, ?_, ?_⟩
      · intro k
        rw [hs.grows k, hg.grows k, List.append_assoc]
      · intro k x hx
        rcases List.mem_append.mp hx with hx | hx
        · obtain ⟨hpos, rfl⟩ := List.mem_replicate.mp hx
          exact ⟨by simp, hg.claimed k (by omega)⟩
        · obtain ⟨hmem, hclaims⟩ := hs.dealt k x hx
          exact ⟨by simp [hmem], hclaims⟩
      · intro k hk
        apply hs.room k
        rcases Nat.eq_zero_or_pos (given k) with h0 | hpos
        · rw [hg.grows k, h0]
          simpa using hk
        · exact hg.room k hpos
      · intro hsorted k
        rw [List.pairwise_cons] at hsorted
        rw [List.pairwise_append]
        refine ⟨?_, hs.sorted hsorted.2 k, ?_⟩
        · exact List.pairwise_replicate.mpr (Or.inr (Nat.le_refl idx))
        · intro a ha b hb
          rw [List.eq_of_mem_replicate ha]
          exact Nat.le_of_lt (hsorted.1 b (hs.dealt k b hb).1)
      · intro hone hsorted k
        rw [List.pairwise_cons] at hsorted
        have hfew := hg.few k
        rw [List.pairwise_append]
        refine ⟨?_, hs.once hone hsorted.2 k, ?_⟩
        · exact List.pairwise_replicate.mpr (Or.inl (by omega))
        · intro a ha b hb
          rw [List.eq_of_mem_replicate ha]
          exact hsorted.1 b (hs.dealt k b hb).1
      · intro ok
        simp only [turnsAll, h1, Bool.and_eq_true, hg.turns ok, hs.turns ok, grown_append,
          forall_and, ← hg.grows]

end Dealing

/-- A share grew by appending larger chunks within the cap exactly when it ascends and
its spans are within the cap. -/
theorem grown_share {cap : Nat} {l : List Nat} (hsorted : l.Pairwise (· ≤ ·)) :
    Grown (fun x base => !base.contains x && decide (spanTotal (coalesce (base ++ [x])) ≤ cap))
      [] l ↔
      l.Pairwise (· < ·) ∧ spanTotal (coalesce l) ≤ cap := by
  induction l using List.reverseRecOn with
  | nil => simp [Grown, coalesce, coalesceFrom]
  | append_singleton l x ih =>
    rw [List.pairwise_append] at hsorted
    obtain ⟨hl, -, hx⟩ := hsorted
    have hmono := spanTotal_coalesce_snoc l x
    rw [grown_append, ih hl, List.pairwise_append]
    simp only [List.nil_append, Grown, and_true, Bool.and_eq_true, Bool.not_eq_true',
      ← Bool.not_eq_true, List.contains_iff_mem, decide_eq_true_eq, List.pairwise_singleton,
      true_and, List.mem_singleton, forall_eq]
    constructor
    · rintro ⟨⟨hasc, -⟩, hnot, hcap⟩
      refine ⟨⟨hasc, ?_⟩, hcap⟩
      intro y hy
      have hle := hx y hy x (by simp)
      have hne : y ≠ x := by
        rintro rfl
        exact hnot hy
      omega
    · rintro ⟨⟨hasc, hlt⟩, hcap⟩
      refine ⟨⟨hasc, by omega⟩, ?_, hcap⟩
      intro hmem
      have := hlt x hmem
      omega

section Round

variable (cfg : ClientConfig) (m : Manifest) (c : TransferChunks) (holders : List BlobProbe)

def BlobProbe.cap (probe : BlobProbe) : Nat :=
  (probe.manifest.maxChunksPerQuery.map UInt32.toNat).getD cfg.maxChunksPerQuery

def BlobProbe.claims (probe : BlobProbe) (idx : Nat) : Bool :=
  probe.availability.all fun a => a.isSet idx

def holderClaims (idx h : Nat) : Bool := (holders[h]?).all fun probe => probe.claims idx

def dealCopies (c : TransferChunks) (live : List Nat) (s : ResumeState) : Nat :=
  if ((List.range c.count).filter fun i => !s.isSet i).length ≤ max live.length 2 * 2 then
    min 2 live.length
  else 1

def turnsRound (live : List Nat) (s : ResumeState) (fuel : Nat) : Bool :=
  turnsAll (fun idx h base => (holders[h]?).all fun probe =>
      !base.contains idx && decide (spanTotal (coalesce (base ++ [idx])) ≤ probe.cap cfg))
    live (holderClaims holders) (queryBudget cfg m) (dealCopies c live s) fuel
    (((List.range c.count).filter fun i => !s.isSet i).take (queryBudget cfg m * live.length))
    ⟨fun _ => [], 0⟩

/-- The share of each holder ascends, names only missing chunks the holder claims, and
renders to a query that the holder accepts. -/
def SharesAccepted (s : ResumeState) (p : QueryPrefix) (deal : Deal) : Prop :=
  ∀ h probe, holders[h]? = some probe →
    (deal.assignment h).Pairwise (· < ·) ∧
    (∀ i ∈ deal.assignment h, i < c.count ∧ s.isSet i = false ∧ probe.claims i = true) ∧
    (deal.assignment h ≠ [] → ∃ res,
      parseRanges (selectorParameters (sliceSelector p m.id (coalesce (deal.assignment h))))
        c.count (probe.cap cfg) = .ok res)

variable {cfg m c holders}

theorem dealRound_eq (live : List Nat) (s : ResumeState) (fuel : Nat) :
    dealRound cfg m c holders live s fuel =
      dealAll live (holderClaims holders) (queryBudget cfg m) (dealCopies c live s) fuel
        (((List.range c.count).filter fun i => !s.isSet i).take (queryBudget cfg m * live.length))
        ⟨fun _ => [], 0⟩ := by
  simp only [dealRound, dealCopies, decide_eq_true_eq]
  congr 1
  funext idx h
  unfold holderClaims
  cases hp : holders[h]? with
  | none => simp
  | some probe => cases ha : probe.availability <;> simp [BlobProbe.claims, ha]

/-- The dealt shares of a round, before anything is asked of its turns. -/
theorem dealRound_spec {live : List Nat} {s : ResumeState} {fuel : Nat} {deal : Deal}
    (h : dealRound cfg m c holders live s fuel = some deal) :
    (∀ k probe, holders[k]? = some probe → ∀ i ∈ deal.assignment k,
      i < c.count ∧ s.isSet i = false ∧ probe.claims i = true) ∧
    (∀ k, (deal.assignment k).Pairwise (· ≤ ·)) ∧
    (turnsRound cfg m c holders live s fuel = true ↔ ∀ k probe, holders[k]? = some probe →
      (deal.assignment k).Pairwise (· < ·) ∧
        spanTotal (coalesce (deal.assignment k)) ≤ probe.cap cfg) := by
  rw [dealRound_eq] at h
  obtain ⟨share, hs⟩ := dealAll_spec h
  have hmissing : ((List.range c.count).filter fun i => !s.isSet i).Pairwise (· < ·) :=
    List.pairwise_lt_range.filter _
  have hshare : ∀ k, deal.assignment k = share k := by simpa using hs.grows
  have hsorted := hs.sorted hmissing.take
  refine ⟨?_, fun k => by simpa [hshare k] using hsorted k, ?_⟩
  · intro k probe hp i hi
    obtain ⟨hmem, hclaims⟩ := hs.dealt k i (by rwa [← hshare k])
    have hm := List.mem_filter.mp (List.mem_of_mem_take hmem)
    exact ⟨List.mem_range.mp hm.1, by simpa using hm.2, by simpa [holderClaims, hp] using hclaims⟩
  · rw [turnsRound, hs.turns]
    refine forall_congr' fun k => ?_
    rw [← hshare k]
    cases hp : holders[k]? with
    | none => simp [grown_of_all]
    | some probe => simpa [hp] using grown_share (by simpa [hshare k] using hsorted k)

theorem sharesAccepted_iff {live : List Nat} {s : ResumeState} {fuel : Nat} {deal : Deal}
    {p : QueryPrefix} (h : dealRound cfg m c holders live s fuel = some deal) :
    SharesAccepted cfg m c holders s p deal ↔ turnsRound cfg m c holders live s fuel = true := by
  obtain ⟨hclaimed, -, hturns⟩ := dealRound_spec h
  have hn : c.count ≤ u32Max := Nat.le_of_lt_succ c.count_lt
  rw [hturns]
  refine forall_congr' fun k => forall_congr' fun probe => forall_congr' fun hp => ?_
  have hin : ∀ i ∈ deal.assignment k, i < c.count := fun i hi => (hclaimed k probe hp i hi).1
  constructor
  · rintro ⟨hasc, -, haccepted⟩
    refine ⟨hasc, ?_⟩
    by_cases hne : deal.assignment k = []
    · simp [hne, coalesce, coalesceFrom]
    · exact (coalesce_accepted_iff hn hne hin hasc).mp (haccepted hne)
  · rintro ⟨hasc, hcap⟩
    exact ⟨hasc, hclaimed k probe hp,
      fun hne => (coalesce_accepted_iff hn hne hin hasc).mpr hcap⟩

/-- One copy of each chunk and caps no smaller than the budget are enough. -/
theorem sharesAccepted_of_once {live : List Nat} {s : ResumeState} {fuel : Nat} {deal : Deal}
    {p : QueryPrefix} (h : dealRound cfg m c holders live s fuel = some deal)
    (hone : dealCopies c live s ≤ 1)
    (hcaps : ∀ probe ∈ holders, queryBudget cfg m ≤ probe.cap cfg) :
    SharesAccepted cfg m c holders s p deal := by
  rw [sharesAccepted_iff h, (dealRound_spec h).2.2]
  intro k probe hp
  rw [dealRound_eq] at h
  obtain ⟨share, hs⟩ := dealAll_spec h
  have hmissing : ((List.range c.count).filter fun i => !s.isSet i).Pairwise (· < ·) :=
    List.pairwise_lt_range.filter _
  have hshare : deal.assignment k = share k := by simpa using hs.grows k
  constructor
  · rw [hshare]
    exact hs.once hone hmissing.take k
  · have h1 := spanTotal_coalesce (deal.assignment k)
    have h2 := hs.room k (by simp)
    have h3 := hcaps probe (List.mem_of_getElem? hp)
    omega

end Round

/-- In a round whose dealing ends, every holder's query is accepted exactly when no turn
hands a holder a chunk it was already dealt, or one beyond that holder's own cap; a round
that deals single copies to holders with caps of at least the budget has no such turn. -/
theorem striped_queries_accepted (cfg : ClientConfig) (m : Manifest) (c : TransferChunks)
    (holders : List BlobProbe) (live : List Nat) (s : ResumeState) (fuel : Nat) (p : QueryPrefix)
    (deal : Deal) (h : dealRound cfg m c holders live s fuel = some deal) :
    (SharesAccepted cfg m c holders s p deal ↔
      turnsRound cfg m c holders live s fuel = true) ∧
    (dealCopies c live s ≤ 1 → (∀ probe ∈ holders, queryBudget cfg m ≤ probe.cap cfg) →
      SharesAccepted cfg m c holders s p deal) :=
  ⟨sharesAccepted_iff h, sharesAccepted_of_once h⟩

def stripeConfig : ClientConfig := ⟨"p", 4, 512, 1048576⟩

def stripeHolders : List BlobProbe :=
  [⟨"a", cappedManifest, none⟩, ⟨"b", cappedManifest, some ⟨wireVersion, 10, [0xff, 0x01]⟩⟩]

/-- Six missing chunks, three for each holder. -/
theorem striped_queries_accepted_ragged :
    ∃ deal, dealRound stripeConfig cappedManifest cappedChunks stripeHolders [0, 1] raggedState 2 =
        some deal ∧
      deal.assignment 0 = [0, 4, 8] ∧ deal.assignment 1 = [2, 7] ∧
      SharesAccepted stripeConfig cappedManifest cappedChunks stripeHolders raggedState
        ⟨"a", by decide⟩ deal := by
  have hsome : (dealRound stripeConfig cappedManifest cappedChunks stripeHolders [0, 1]
      raggedState 2).isSome = true := by decide +kernel
  obtain ⟨deal, hdeal⟩ := Option.isSome_iff_exists.mp hsome
  have hshares : (dealRound stripeConfig cappedManifest cappedChunks stripeHolders [0, 1]
      raggedState 2).map (fun d => (d.assignment 0, d.assignment 1)) =
      some ([0, 4, 8], [2, 7]) := by decide +kernel
  rw [hdeal] at hshares
  simp only [Option.map_some, Option.some.injEq, Prod.mk.injEq] at hshares
  have h := striped_queries_accepted stripeConfig cappedManifest cappedChunks stripeHolders [0, 1]
    raggedState 2 ⟨"a", by decide⟩ deal hdeal
  exact ⟨deal, hdeal, hshares.1, hshares.2, h.1.mpr (by decide +kernel)⟩

def lastMissing : ResumeState := { raggedState with bits := [0xff, 0x01] }

/-- The last chunk is due twice and one holder claims it: that holder is asked for `9,9`. -/
theorem endgame_repeats_chunk :
    ∃ deal, dealRound stripeConfig cappedManifest cappedChunks stripeHolders
        (liveHolders stripeConfig stripeHolders fun _ => 0) lastMissing 3 = some deal ∧
      deal.assignment 0 = [9, 9] ∧
      parseRanges (selectorParameters (sliceSelector ⟨"a", by decide⟩ cappedManifest.id
        (coalesce (deal.assignment 0)))) 10 3 =
        .error (.invalidRanges "spans must be sorted and disjoint") ∧
      ¬SharesAccepted stripeConfig cappedManifest cappedChunks stripeHolders lastMissing
        ⟨"a", by decide⟩ deal := by
  have hsome : (dealRound stripeConfig cappedManifest cappedChunks stripeHolders
      (liveHolders stripeConfig stripeHolders fun _ => 0) lastMissing 3).isSome = true := by
    decide +kernel
  obtain ⟨deal, hdeal⟩ := Option.isSome_iff_exists.mp hsome
  have hshare : (dealRound stripeConfig cappedManifest cappedChunks stripeHolders
      (liveHolders stripeConfig stripeHolders fun _ => 0) lastMissing 3).map
      (fun d => d.assignment 0) = some [9, 9] := by decide +kernel
  rw [hdeal] at hshare
  simp only [Option.map_some, Option.some.injEq] at hshare
  refine ⟨deal, hdeal, hshare, by rw [hshare]; decide +kernel, ?_⟩
  intro h
  have := (h 0 _ rfl).1
  rw [hshare] at this
  simp at this

end Zblob

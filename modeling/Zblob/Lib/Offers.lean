import Mathlib.Data.Finset.Card
import Mathlib.Data.Finset.SDiff

/-!
Offers against a finite set of wanted keys: an offer whose key is still wanted is taken and
its key is wanted no more, and any other is passed over.
-/

set_option autoImplicit false

namespace Offers

variable {κ β σ ε : Type} [DecidableEq κ] (key : β → κ)

def keys (bs : List β) : Finset κ := (bs.map key).toFinset

def taken : Finset κ → List β → List β
  | _, [] => []
  | want, b :: bs => if key b ∈ want then b :: taken (want.erase (key b)) bs else taken want bs

def offer (take : σ → β → Except ε σ) (s : Finset κ × σ) (b : β) : Except ε (Finset κ × σ) :=
  if key b ∈ s.1 then (take s.2 b).map fun t => (s.1.erase (key b), t) else .ok s

variable {key}

@[simp] theorem keys_nil : keys key [] = ∅ := rfl

@[simp] theorem keys_cons (b : β) (bs : List β) :
    keys key (b :: bs) = insert (key b) (keys key bs) := by
  simp [keys]

theorem keys_append (as bs : List β) : keys key (as ++ bs) = keys key as ∪ keys key bs := by
  simp [keys]

theorem mem_keys {bs : List β} {k : κ} : k ∈ keys key bs ↔ ∃ b ∈ bs, key b = k := by
  simp [keys]

theorem keys_congr {as bs : List β} (h : ∀ b, b ∈ as ↔ b ∈ bs) : keys key as = keys key bs := by
  ext k
  simp only [mem_keys, h]

variable {want : Finset κ}

theorem mem_taken {bs : List β} {b : β} (h : b ∈ taken key want bs) : b ∈ bs ∧ key b ∈ want := by
  induction bs generalizing want with
  | nil => cases h
  | cons c rest ih =>
    unfold taken at h
    split at h
    · rename_i hc
      rcases List.mem_cons.mp h with rfl | h
      · exact ⟨by simp, hc⟩
      · exact ⟨List.mem_cons_of_mem _ (ih h).1, Finset.mem_of_mem_erase (ih h).2⟩
    · exact ⟨List.mem_cons_of_mem _ (ih h).1, (ih h).2⟩

theorem keys_taken (bs : List β) : keys key (taken key want bs) = want ∩ keys key bs := by
  induction bs generalizing want with
  | nil => simp [taken]
  | cons b rest ih =>
    unfold taken
    split
    · rename_i hb
      rw [keys_cons, keys_cons, ih, Finset.inter_insert_of_mem hb, Finset.erase_inter]
      ext k
      simp only [Finset.mem_insert, Finset.mem_erase]
      tauto
    · rename_i hb
      rw [ih, keys_cons, Finset.inter_insert_of_notMem hb]

theorem nodup_taken (bs : List β) : ((taken key want bs).map key).Nodup := by
  induction bs generalizing want with
  | nil => simp [taken]
  | cons b rest ih =>
    unfold taken
    split
    · rw [List.map_cons, List.nodup_cons]
      refine ⟨fun hb => ?_, ih⟩
      obtain ⟨c, hc, hkey⟩ := List.mem_map.mp hb
      exact Finset.notMem_erase _ _ (hkey ▸ (mem_taken hc).2)
    · exact ih

theorem length_taken (bs : List β) : (taken key want bs).length = (want ∩ keys key bs).card := by
  rw [← keys_taken, keys, List.toFinset_card_of_nodup (nodup_taken bs), List.length_map]

section Fold

variable (take : σ → β → Except ε σ)

theorem foldlM_empty (bs : List β) (t : σ) : bs.foldlM (offer key take) (∅, t) = .ok (∅, t) := by
  induction bs with
  | nil => rfl
  | cons b rest ih =>
    rw [List.foldlM_cons, show offer key take (∅, t) b = .ok (∅, t) by simp [offer]]
    exact ih

/-- Offers one after the other: those taken act in order, and what they leave is wanted still. -/
theorem foldlM_offer (bs : List β) (t : σ) :
    bs.foldlM (offer key take) (want, t) =
      ((taken key want bs).foldlM take t).map fun t' => (want \ keys key bs, t') := by
  induction bs generalizing want t with
  | nil => simp [taken, Except.map, pure, Except.pure]
  | cons b rest ih =>
    rw [List.foldlM_cons]
    by_cases hb : key b ∈ want
    · rw [taken, if_pos hb, List.foldlM_cons, offer, if_pos hb]
      cases take t b with
      | error e => rfl
      | ok t' =>
        have hleft : want.erase (key b) \ keys key rest = want \ keys key (b :: rest) := by
          rw [keys_cons, Finset.sdiff_insert, Finset.erase_sdiff_comm]
        exact (ih t').trans (by rw [hleft]; rfl)
    · rw [taken, if_neg hb, offer, if_neg hb, keys_cons, Finset.sdiff_insert_of_notMem hb]
      exact ih t

end Fold

end Offers

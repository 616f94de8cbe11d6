import Zblob.Lib.Codec
import Mathlib.Algebra.BigOperators.Group.List.Basic
import Mathlib.Algebra.GroupWithZero.Nat
import Mathlib.Data.List.Perm.Subperm

/-!
What a decoder must have read to make a value of it: a weight that no input is lighter than.
So nobody can have much decoded out of few bytes.
-/

set_option autoImplicit false

namespace Codec

variable {α β : Type}

/-- A value is never decoded from fewer bytes than it weighs. -/
def Weighs (c : Codec α) (w : α → Nat) : Prop :=
  ∀ data a rest, c.dec data = some (a, rest) → w a + rest.length ≤ data.length

namespace Weighs

variable {c : Codec α} {d : Codec β} {w : α → Nat} {v : β → Nat}

theorem read (h : c.Weighs w) {data : List UInt8} {a : α} (hr : c.read data = some a) :
    w a ≤ data.length := by
  obtain ⟨⟨a', rest⟩, hdec, rfl⟩ := Option.map_eq_some_iff.mp hr
  exact Nat.le_of_add_right_le (h data a' rest hdec)

theorem mono (h : c.Weighs w) {w' : α → Nat} (hle : ∀ a, w' a ≤ w a) : c.Weighs w' := by
  intro data a rest hdec
  exact Nat.le_trans (Nat.add_le_add_right (hle a) _) (h data a rest hdec)

theorem byte : Codec.byte.Weighs fun _ => 1 := by
  intro data a rest hdec
  cases data with
  | nil => cases hdec
  | cons b data =>
    cases hdec
    simp [Nat.add_comm]

theorem readVarint_weighs {g n : Nat} {data rest : List UInt8}
    (h : readVarint g data = some (n, rest)) :
    1 + rest.length ≤ data.length := by
  induction g generalizing n data rest with
  | zero => cases h
  | succ g ih =>
    cases data with
    | nil => cases h
    | cons b data =>
      unfold readVarint at h
      split at h
      · cases h
        simp [Nat.add_comm]
      · obtain ⟨⟨n', rest'⟩, hr, hp⟩ := Option.map_eq_some_iff.mp h
        cases hp
        have hle : 1 + rest'.length ≤ data.length := ih hr
        simp only [List.length_cons]
        omega

theorem uint (w : Nat) : (Codec.uint w).Weighs fun _ => 1 := by
  intro data n rest hdec
  obtain ⟨⟨k, rest'⟩, hr, hbound⟩ := Option.bind_eq_some_iff.mp hdec
  split at hbound
  · cases hbound
    exact readVarint_weighs hr
  · cases hbound

theorem readCount_weighs {n : Nat} {data rest : List UInt8} (h : readCount data = some (n, rest)) :
    1 + rest.length ≤ data.length := by
  unfold readCount at h
  split at h
  · obtain ⟨⟨k, rest'⟩, hr, hp⟩ := Option.map_eq_some_iff.mp h
    cases hp
    exact uint 64 data k _ hr
  · exact readVarint_weighs h

theorem pmap (h : c.Weighs w) {put : β → α} {get : α → Option β} {hb : ∀ b, get (put b) = some b}
    (hle : ∀ a b, get a = some b → v b ≤ w a) : (c.pmap put get hb).Weighs v := by
  intro data b rest hdec
  obtain ⟨⟨a, rest'⟩, ha, hget⟩ := Option.bind_eq_some_iff.mp hdec
  obtain ⟨b', hb', hp⟩ := Option.map_eq_some_iff.mp hget
  cases hp
  exact Nat.le_trans (Nat.add_le_add_right (hle a b hb') _) (h data a _ ha)

theorem pair (hc : c.Weighs w) (hd : d.Weighs v) : (c.pair d).Weighs fun p => w p.1 + v p.2 := by
  rintro data ⟨a, b⟩ rest hdec
  obtain ⟨mid, ha, hb⟩ := pair_dec.mp hdec
  have hfirst := hc data a mid ha
  have hsecond := hd mid b rest hb
  simp only
  omega

theorem kinded {ι : Type} {F : ι → Type} {k : Codec ι} {f : ∀ i, Codec (F i)} {u : ι → Nat}
    {x : ∀ i, F i → Nat} (hk : k.Weighs u) (hf : ∀ i, (f i).Weighs (x i)) :
    (Codec.kinded k f).Weighs fun p => u p.1 + x p.1 p.2 := by
  rintro data ⟨i, a⟩ rest hdec
  obtain ⟨mid, hi, ha⟩ := kinded_dec.mp hdec
  have hfirst := hk data i mid hi
  have hsecond := hf i mid a rest ha
  simp only
  omega

theorem times (h : c.Weighs w) {n : Nat} {data rest : List UInt8} {as : List α}
    (hdec : c.times n data = some (as, rest)) :
    as.length = n ∧ (as.map w).sum + rest.length ≤ data.length := by
  induction n generalizing data as with
  | zero =>
    cases hdec
    simp
  | succ n ih =>
    cases as with
    | nil => exact absurd hdec times_nil
    | cons a as =>
      obtain ⟨mid, ha, has⟩ := times_cons.mp hdec
      have hfirst := h data a mid ha
      obtain ⟨hlen, hrest⟩ := ih has
      refine ⟨by rw [List.length_cons, hlen], ?_⟩
      rw [List.map_cons, List.sum_cons]
      omega

theorem list (h : c.Weighs w) : (Codec.list c).Weighs fun as => 1 + (as.map w).sum := by
  intro data as rest hdec
  obtain ⟨⟨n, mid⟩, hn, has⟩ := Option.bind_eq_some_iff.mp hdec
  have hcount := readCount_weighs hn
  have hitems : (as.map w).sum + rest.length ≤ mid.length := (h.times has).2
  simp only
  omega

theorem items {k : Nat} (h : c.Weighs fun _ => k) :
    (Codec.list c).Weighs fun as => 1 + k * as.length := by
  refine h.list.mono fun as => ?_
  induction as with
  | nil => exact Nat.le_refl 1
  | cons a as ih =>
    rw [List.map_cons, List.sum_cons, List.length_cons, Nat.mul_succ]
    omega

end Weighs

end Codec

theorem sum_le_of_count_le {α : Type} [DecidableEq α] {l l' : List α}
    (h : ∀ a, l.count a ≤ l'.count a)
    (f : α → Nat) : (l.map f).sum ≤ (l'.map f).sum := by
  obtain ⟨m, hperm, hsub⟩ := List.subperm_ext_iff.mpr fun a _ => h a
  rw [← (hperm.map f).sum_eq]
  clear hperm h
  induction hsub with
  | slnil => exact Nat.le_refl _
  | cons a _ ih =>
    rw [List.map_cons, List.sum_cons]
    exact Nat.le_trans ih (Nat.le_add_left _ _)
  | cons_cons a _ ih =>
    rw [List.map_cons, List.map_cons, List.sum_cons, List.sum_cons]
    exact Nat.add_le_add_left ih _

import Zblob.Lib.Machine
import Zblob.Lib.Spans
import Zblob.Stripes

/-!
The spans that a list of chunk indices is asked for by: the loop over 32-bit indices, what it
is in numbers, and which of the indices its spans stand for.
-/

set_option autoImplicit false

namespace Zblob

open Spans (flat runs)

def succ32 (i : UInt32) : Option UInt32 := (Machine.add 32 i.toNat 1).map UInt32.ofNat

def coalesceLoop : List (UInt32 × UInt32) → List UInt32 → Option (List (UInt32 × UInt32))
  | out, [] => some out
  | out, i :: rest => do
    let stop ← succ32 i
    match out.getLast? with
    | some last =>
      if last.2 = i then coalesceLoop (out.dropLast ++ [(last.1, stop)]) rest
      else coalesceLoop (out ++ [(i, stop)]) rest
    | none => coalesceLoop (out ++ [(i, stop)]) rest

def coalesceMachine (indices : List UInt32) : Option (List (UInt32 × UInt32)) :=
  (coalesceLoop [] indices).map (·.take maxRangeSpans)

def natSpans (spans : List (UInt32 × UInt32)) : List (Nat × Nat) :=
  spans.map fun r => (r.1.toNat, r.2.toNat)

section Loop

variable {i : UInt32} {indices : List UInt32}

theorem succ32_eq (hi : i.toNat < 2 ^ 32 - 1) :
    ∃ stop, succ32 i = some stop ∧ stop.toNat = i.toNat + 1 := by
  have hfit : i.toNat + 1 < 2 ^ 32 := by omega
  refine ⟨UInt32.ofNat (i.toNat + 1), ?_, ?_⟩
  · rw [succ32, Machine.add_eq hfit]
    rfl
  · rw [UInt32.toNat_ofNat', Nat.mod_eq_of_lt hfit]

@[simp] theorem natSpans_snoc (out : List (UInt32 × UInt32)) (r : UInt32 × UInt32) :
    natSpans (out ++ [r]) = natSpans out ++ [(r.1.toNat, r.2.toNat)] := List.map_append

/-- Below the last index the loop overflows nowhere, and adds to the spans so far what the
recursion makes of the last of them and the indices to come. -/
theorem coalesceLoop_eq (out : List (UInt32 × UInt32))
    (hbelow : ∀ i ∈ indices, i.toNat < 2 ^ 32 - 1) :
    ∃ spans, coalesceLoop out indices = some spans ∧
      natSpans spans = (natSpans out).dropLast ++ coalesceFrom (natSpans out).getLast?
      (indices.map UInt32.toNat) := by
  induction indices generalizing out with
  | nil =>
    refine ⟨out, rfl, ?_⟩
    rcases out.eq_nil_or_concat' with rfl | ⟨init, last, rfl⟩
    · rfl
    · simp [coalesceFrom]
  | cons i rest ih =>
    have hrest : ∀ j ∈ rest, j.toNat < 2 ^ 32 - 1 := fun j hj => hbelow j (by simp [hj])
    obtain ⟨stop, hsucc, hstop⟩ := succ32_eq (hbelow i (by simp))
    simp only [coalesceLoop, hsucc, Option.bind_eq_bind, Option.bind_some, List.map_cons]
    rcases out.eq_nil_or_concat' with rfl | ⟨init, last, rfl⟩
    · obtain ⟨spans, hrun, heq⟩ := ih ([] ++ [(i, stop)]) hrest
      refine ⟨spans, hrun, heq.trans ?_⟩
      simp [natSpans, coalesceFrom, hstop]
    · simp only [List.getLast?_append, List.getLast?_singleton, Option.some_or]
      by_cases hlast : last.2 = i
      · obtain ⟨spans, hrun, heq⟩ := ih (init ++ [(last.1, stop)]) hrest
        refine ⟨spans, by simpa [hlast] using hrun, heq.trans ?_⟩
        simp [coalesceFrom, hstop, hlast]
      · have hne : last.2.toNat ≠ i.toNat := fun h => hlast (UInt32.toNat_inj.mp h)
        obtain ⟨spans, hrun, heq⟩ := ih (init ++ [last] ++ [(i, stop)]) hrest
        refine ⟨spans, by simpa [hlast] using hrun, heq.trans ?_⟩
        rw [natSpans_snoc (init ++ [last]), List.dropLast_concat, List.getLast?_concat, hstop]
        simp [coalesceFrom, hne]

theorem coalesceMachine_eq (hbelow : ∀ i ∈ indices, i.toNat < 2 ^ 32 - 1) :
    ∃ spans, coalesceMachine indices = some spans ∧ natSpans spans = coalesce
      (indices.map UInt32.toNat) := by
  obtain ⟨spans, hrun, heq⟩ := coalesceLoop_eq [] hbelow
  refine ⟨spans.take maxRangeSpans, by rw [coalesceMachine, hrun]; rfl, ?_⟩
  rw [natSpans, List.map_take]
  exact congrArg (List.take maxRangeSpans) heq

end Loop

/-- The spans stand for as much of the list, from its first number on, as `cap` maximal runs hold.
-/
structure Coalesced (cap : Nat) (l : List Nat) (spans : List (Nat × Nat)) : Prop where
  apart : Spans.Apart spans
  capped : spans.length ≤ cap
  leading : flat spans <+: l
  counted : runs (flat spans) ≤ cap
  longest : ∀ q, q <+: l → runs q ≤ cap → q <+: flat spans
  whole : runs l ≤ cap → flat spans = l

section Exact

variable {n a b : Nat} {l : List Nat}

/-- Nothing is left out and nothing is added, in any order. -/
theorem flat_coalesceFrom (hab : a ≤ b) (l : List Nat) :
    flat (coalesceFrom (some (a, b)) l) = List.range' a (b - a) ++ l := by
  induction l generalizing a b with
  | nil => simp [coalesceFrom]
  | cons i rest ih =>
    simp only [coalesceFrom]
    split
    · rename_i hadjacent
      subst hadjacent
      rw [ih (Nat.le_succ_of_le hab), Nat.succ_sub hab, List.range'_concat]
      simp [Nat.add_sub_cancel' hab]
    · rw [Spans.flat_cons, ih (Nat.le_add_right i 1), Nat.add_sub_cancel_left]
      rfl

theorem flat_coalesceFrom_none (l : List Nat) : flat (coalesceFrom none l) = l := by
  cases l with
  | nil => rfl
  | cons i rest =>
    rw [coalesceFrom, flat_coalesceFrom (Nat.le_add_right i 1), Nat.add_sub_cancel_left]
    rfl

theorem coalesceFrom_none_apart (hl : ∀ i ∈ l, i < n) (hs : l.Pairwise (· < ·)) :
    Spans.Apart (coalesceFrom none l) := by
  cases l with
  | nil => exact .nil
  | cons i rest =>
    have hi := hl i (by simp)
    rw [List.pairwise_cons] at hs
    have hrest : ∀ x ∈ rest, i + 1 ≤ x ∧ x < n := fun x hx => ⟨hs.1 x hx, hl x (by simp [hx])⟩
    refine ⟨fun r hr => ?_, coalesceFrom_apart hrest hs.2⟩
    exact (mem_coalesceFrom (Nat.lt_succ_self i) hi hrest hs.2 hr).2.1

theorem coalesce_coalesced (hl : ∀ i ∈ l, i < n) (hs : l.Pairwise (· < ·)) :
    Coalesced maxRangeSpans l (coalesce l) := by
  have hall := coalesceFrom_none_apart hl hs
  have hflat := flat_coalesceFrom_none l
  have hruns : runs (flat (coalesce l)) = (coalesce l).length := (hall.take maxRangeSpans).runs_flat
  have hcapped : (coalesce l).length ≤ maxRangeSpans := List.length_take_le _ _
  have hleading : flat (coalesce l) <+: l := by
    have hsplit := congrArg flat (List.take_append_drop maxRangeSpans (coalesceFrom none l))
    rw [Spans.flat_append, hflat] at hsplit
    exact ⟨_, hsplit⟩
  have hlongest : ∀ q, q <+: l → runs q ≤ maxRangeSpans → q <+: flat (coalesce l) := by
    intro q hq
    rw [← hflat] at hq
    exact hall.longest hq
  refine ⟨hall.take maxRangeSpans, hcapped, hleading, hruns ▸ hcapped, hlongest, fun hfew => ?_⟩
  exact hleading.eq_of_length_le (hlongest l List.prefix_rfl hfew).length_le

end Exact

/-- The spans of an ascending list of indices below the last one are in order, none empty and no two
adjacent, at most 128, and stand for the longest first part of the list that has no more maximal
runs than that. -/
theorem coalesce_exact (indices : List UInt32) (hasc : indices.Pairwise (· < ·))
    (hbelow : ∀ i ∈ indices, i.toNat < 2 ^ 32 - 1) :
    ∃ spans, coalesceMachine indices = some spans ∧
      Coalesced 128 (indices.map UInt32.toNat) (natSpans spans) := by
  obtain ⟨spans, hrun, heq⟩ := coalesceMachine_eq hbelow
  refine ⟨spans, hrun, ?_⟩
  rw [heq]
  refine coalesce_coalesced (n := 2 ^ 32) (fun i hi => ?_) ?_
  · obtain ⟨j, hj, rfl⟩ := List.mem_map.mp hi
    exact j.toNat_lt
  · exact List.pairwise_map.mpr (hasc.imp UInt32.lt_iff_toNat_lt.mp)

theorem coalesce_exact_small :
    coalesceMachine [0, 1, 3, 4, 5, 9] = some [(0, 2), (3, 6), (9, 10)] ∧
      Coalesced 128 [0, 1, 3, 4, 5, 9] [(0, 2), (3, 6), (9, 10)] := by
  have hrun : coalesceMachine [0, 1, 3, 4, 5, 9] = some [(0, 2), (3, 6), (9, 10)] := by decide
  obtain ⟨spans, hspans, h⟩ := coalesce_exact [0, 1, 3, 4, 5, 9] (by decide) (by simp)
  cases hspans.symm.trans hrun
  exact ⟨hrun, h⟩

/-- A holder of a round without a bad turn is asked for the chunks of its share, as far as 128 runs
reach. -/
theorem share_coalesced {cfg : ClientConfig} {m : Manifest} {c : TransferChunks}
    {holders : List BlobProbe}
    {live : List Nat} {s : ResumeState} {fuel : Nat} {deal : Deal}
    (h : dealRound cfg m c holders live s fuel = some deal)
    (hturns : turnsRound cfg m c holders live s fuel = true) {k : Nat} {probe : BlobProbe}
    (hk : holders[k]? = some probe) :
    Coalesced maxRangeSpans (deal.assignment k) (coalesce (deal.assignment k)) := by
  obtain ⟨hclaimed, -, hiff⟩ := dealRound_spec h
  exact coalesce_coalesced (fun i hi => (hclaimed k probe hk i hi).1) (hiff.mp hturns k probe hk).1

end Zblob

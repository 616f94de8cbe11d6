import Zblob.Rotation

/-!
A striping round's deal: when it ends, and which chunks it hands out. Both come down to
where the cursor stands when the dealing comes to a chunk.
-/

set_option autoImplicit false

namespace Zblob

section

variable {live : List Nat} {claims : Nat → Nat → Bool} {budget copies fuel : Nat}
  {start d deal : Deal}

theorem dealAll_length {idxs : List Nat}
    (h : dealAll live claims budget copies fuel idxs start = some deal) (k : Nat) :
    (deal.assignment k).length ≤ (start.assignment k).length + copies * idxs.length := by
  induction idxs generalizing start with
  | nil =>
    cases h
    simp
  | cons idx rest ih =>
    rw [dealAll] at h
    cases hone : dealOne live (claims idx) budget copies idx fuel 0 start with
    | none => simp [hone] at h
    | some d₁ =>
      rw [hone] at h
      obtain ⟨given, hg⟩ := dealOne_spec (Nat.zero_le copies) hone
      have hrest := ih h
      have hfew := hg.few k
      rw [hg.grows k, List.length_append, List.length_replicate] at hrest
      rw [List.length_cons, Nat.mul_succ]
      omega

/-- Whether everybody with room for the chunk, or somebody at least, stands in the cycle
that the cursor is in. -/
def Fair (live : List Nat) (claims : Nat → Bool) (budget : Nat) (d : Deal) : Prop :=
  (∃ h ∈ live, d.able claims budget h = true) → d.InCycle live claims budget

/-- What a chunk that `d` came to is owed of the finished deal: a holder if one claims it
and has budget left, and in endgame two holders if two do. -/
structure Served (live : List Nat) (claims : Nat → Bool) (budget : Nat) (endgame : Prop) (idx : Nat)
    (d deal : Deal) : Prop where
  once : (∃ h ∈ live, d.able claims budget h = true) → ∃ h ∈ live, idx ∈ deal.assignment h
  twice : endgame → Deal.Two live (fun h => d.able claims budget h = true) →
    Deal.Two live fun h => idx ∈ deal.assignment h

theorem reaches_split {idxs : List Nat} {idx : Nat} (hnodup : idxs.Nodup)
    (hempty : ∀ h, start.assignment h = [])
    (hrun : dealAll live claims budget copies fuel idxs start = some deal)
    (hreach : Reaches live claims budget copies idxs start idx d) :
    ∃ fuel d', dealOne live (claims idx) budget copies idx fuel 0 d = some d' ∧
      (∀ h, idx ∉ d.assignment h) ∧ ∀ h, idx ∈ deal.assignment h ↔ idx ∈ d'.assignment h := by
  obtain ⟨before, after, fuel', rfl, hbefore⟩ := hreach
  have hrun' := dealAll_mono (Nat.le_max_left fuel fuel') hrun
  have hbefore' := dealAll_mono (Nat.le_max_right fuel fuel') hbefore
  rw [dealAll_append, hbefore', Option.bind_some, dealAll] at hrun'
  cases hone : dealOne live (claims idx) budget copies idx (max fuel fuel') 0 d with
  | none => simp [hone] at hrun'
  | some d' =>
    rw [hone] at hrun'
    obtain ⟨share, hshare⟩ := dealAll_spec hbefore
    obtain ⟨rest, hrest⟩ := dealAll_spec hrun'
    rw [List.nodup_append] at hnodup
    obtain ⟨-, hcons, hapart⟩ := hnodup
    refine ⟨_, d', hone, fun h hmem => ?_, fun h => ?_⟩
    · rw [hshare.grows h, hempty h, List.nil_append] at hmem
      exact hapart idx (hshare.dealt h idx hmem).1 idx List.mem_cons_self rfl
    · rw [hrest.grows h, List.mem_append]
      have hafter : idx ∉ rest h :=
        fun hmem => (List.nodup_cons.mp hcons).1 (hrest.dealt h idx hmem).1
      simp [hafter]

theorem served_iff {idxs : List Nat} {idx : Nat} {endgame : Prop}
    (hlive : live.Nodup) (hne : live ≠ [])
    (hcopies : 0 < copies) (htwo : copies ≤ 2) (hend : endgame → 2 ≤ live.length → copies = 2)
    (hnodup : idxs.Nodup)
    (hempty : ∀ h, start.assignment h = [])
    (hrun : dealAll live claims budget copies fuel idxs start = some deal)
    (hreach : Reaches live claims budget copies idxs start idx d) :
    Served live (claims idx) budget endgame idx d deal ↔ Fair live (claims idx) budget d := by
  obtain ⟨fuel', d', hone, hbefore, hafter⟩ := reaches_split hnodup hempty hrun hreach
  by_cases hin : d.InCycle live (claims idx) budget
  · refine iff_of_true ?_ fun _ => hin
    have hfed := (dealOne_ends_iff idx hne hcopies htwo).mp ⟨fuel', d', hone⟩
    obtain ⟨fuel₂, d₂, hone₂, hsome, hpair⟩ := dealOne_inside idx hne hcopies htwo hin hfed
    cases dealOne_unique hone hone₂
    constructor
    · rintro -
      obtain ⟨h, hh, hidx⟩ := hsome
      exact ⟨h, hh, (hafter h).mpr hidx⟩
    · intro hgame hable
      have hlen : 2 ≤ live.length := by
        obtain ⟨h, hh, h', hh', hdiff, -⟩ := hable
        by_contra hshort
        obtain ⟨x, hx⟩ := List.length_eq_one_iff.mp (show live.length = 1 by
          have := List.length_pos_of_mem hh
          omega)
        rw [hx, List.mem_singleton] at hh hh'
        exact hdiff (hh.trans hh'.symm)
      obtain ⟨h, hh, h', hh', hdiff, hidx, hidx'⟩ := hpair hlive (hend hgame hlen) hable
      exact ⟨h, hh, h', hh', hdiff, (hafter h).mpr hidx, (hafter h').mpr hidx'⟩
  · obtain ⟨fuel₂, j, hone₂⟩ := dealOne_outside idx hne hcopies hin
    cases dealOne_unique hone hone₂
    constructor
    · intro hserved hable
      obtain ⟨h, -, hidx⟩ := hserved.once hable
      exact absurd ((hafter h).mp hidx) (hbefore h)
    · intro hfair
      constructor
      · intro hable
        exact absurd (hfair hable) hin
      · rintro - ⟨h, hh, -, -, -, hable, -⟩
        exact absurd (hfair ⟨h, hh, hable⟩) hin

end

section Round

variable (cfg : ClientConfig) (m : Manifest) (c : TransferChunks)
  (holders : List BlobProbe) (live : List Nat)
  (s : ResumeState)

def considered : List Nat :=
  ((List.range c.count).filter fun i => !s.isSet i).take (queryBudget cfg m * live.length)

def Endgame : Prop :=
  ((List.range c.count).filter fun i => !s.isSet i).length ≤ max live.length 2 * 2

def RoundReaches (idx : Nat) (d : Deal) : Prop :=
  Reaches live (holderClaims holders) (queryBudget cfg m) (dealCopies c live s)
    (considered cfg m c live s)
    ⟨fun _ => [], 0⟩ idx d

variable {cfg m c holders live s}

theorem considered_nodup : (considered cfg m c live s).Nodup :=
  (List.nodup_range.filter _).sublist (List.take_sublist _ _)

theorem dealCopies_pos (hlive : live ≠ []) : 0 < dealCopies c live s := by
  have hn := List.length_pos_iff.mpr hlive
  unfold dealCopies
  split <;> omega

theorem dealCopies_le : dealCopies c live s ≤ 2 := by
  unfold dealCopies
  split <;> omega

theorem dealCopies_endgame (h : Endgame c live s) (hlen : 2 ≤ live.length) :
    dealCopies c live s = 2 := by
  unfold Endgame at h
  rw [dealCopies, if_pos h]
  omega

theorem liveHolders_nodup {rejects : Nat → Nat} : (liveHolders cfg holders rejects).Nodup :=
  List.nodup_range.filter _

theorem dealRound_ends_iff (hlive : live ≠ []) :
    (∃ fuel deal, dealRound cfg m c holders live s fuel = some deal) ↔
      ∀ idx d, RoundReaches cfg m c holders live s idx d →
        ¬ Starved live (holderClaims holders idx) (queryBudget cfg m) (dealCopies c live s) d := by
  simp only [dealRound_eq]
  exact dealAll_ends_iff hlive (dealCopies_pos hlive) dealCopies_le _

theorem not_starved_of_budget {idx : Nat} {d : Deal}
    (hbudget : 2 * (considered cfg m c live s).length ≤ queryBudget cfg m)
    (hreach : RoundReaches cfg m c holders live s idx d) :
    ¬ Starved live (holderClaims holders idx) (queryBudget cfg m) (dealCopies c live s) d := by
  rintro ⟨htwo, j, -, -, hlast, -⟩
  obtain ⟨before, after, fuel, hsplit, hrun⟩ := hreach
  have hlen := dealAll_length hrun (d.ahead live j)
  rw [hsplit, List.length_append, List.length_cons] at hbudget
  rw [htwo, List.length_nil] at hlen
  omega

end Round

/-- The deal of a round ends exactly when no chunk comes up with one place left among the
holders that claim it and two copies to place; single copies always find an end, and so
does a budget of twice the chunks. -/
theorem striping_deal_ends_iff (cfg : ClientConfig) (m : Manifest)
    (c : TransferChunks) (holders : List BlobProbe)
    (rejects : Nat → Nat) (s : ResumeState) (hlive : liveHolders cfg holders rejects ≠ []) :
    let live := liveHolders cfg holders rejects
    ((∃ fuel deal, dealRound cfg m c holders live s fuel = some deal) ↔
      ∀ idx d, RoundReaches cfg m c holders live s idx d →
        ¬ Starved live (holderClaims holders idx) (queryBudget cfg m) (dealCopies c live s) d) ∧
    (dealCopies c live s = 1 ∨ 2 * (considered cfg m c live s).length ≤ queryBudget cfg m →
      ∃ fuel deal, dealRound cfg m c holders live s fuel = some deal) := by
  intro live
  refine ⟨dealRound_ends_iff hlive, ?_⟩
  rintro hwhen
  rw [dealRound_ends_iff hlive]
  intro idx d hreach
  rcases hwhen with hone | hbudget
  · exact fun hs => absurd (hone.symm.trans hs.1) (by decide)
  · exact not_starved_of_budget hbudget hreach

def emptyPeer : List BlobProbe :=
  [⟨"a", cappedManifest, none⟩, ⟨"b", cappedManifest, some ⟨wireVersion, 10, [0x00, 0x00]⟩⟩]

def singleConfig : ClientConfig := { stripeConfig with maxChunksPerQuery := 1 }

/-- With three chunks of budget the deal of the last chunk ends. -/
theorem striping_deal_ends_lastMissing :
    ∃ fuel deal, dealRound stripeConfig cappedManifest cappedChunks emptyPeer
      (liveHolders stripeConfig emptyPeer fun _ => 0) lastMissing fuel = some deal :=
  (striping_deal_ends_iff stripeConfig cappedManifest cappedChunks emptyPeer
    (fun _ => 0) lastMissing
    (by decide +kernel)).2 (.inr (by decide +kernel))

/-- With one, the first holder takes the chunk and there is nobody for the second copy. -/
theorem striping_deal_endless :
    liveHolders singleConfig emptyPeer (fun _ => 0) ≠ [] ∧
      ¬ ∃ fuel deal, dealRound singleConfig cappedManifest cappedChunks emptyPeer
        (liveHolders singleConfig emptyPeer fun _ => 0) lastMissing fuel = some deal := by
  have hlive : liveHolders singleConfig emptyPeer (fun _ => 0) = [0, 1] := by decide +kernel
  have hone : considered singleConfig cappedManifest cappedChunks [0, 1] lastMissing = [9] :=
    by decide +kernel
  rw [hlive]
  refine ⟨by simp, ?_⟩
  rw [dealRound_ends_iff (by simp)]
  intro hfed
  have hreach : RoundReaches singleConfig cappedManifest cappedChunks emptyPeer [0, 1] lastMissing 9
      ⟨fun _ => [], 0⟩ := by
    rw [RoundReaches, hone]
    exact reaches_head 9 []
  refine hfed 9 _ hreach ⟨by decide +kernel, 0, by decide, by decide +kernel, by decide +kernel, ?_⟩
  intro h hh hable
  have hsecond : Deal.able (holderClaims emptyPeer 9) (queryBudget singleConfig cappedManifest)
      ⟨fun _ => [], 0⟩ 1 =
      false := by decide +kernel
  simp only [List.mem_cons, List.not_mem_nil, or_false] at hh
  rcases hh with rfl | rfl
  · rfl
  · rw [hsecond] at hable
    cases hable

/-- In a round whose deal ends, the dealing comes to every one of its chunks, and gives a
chunk to those who could serve it exactly when the cycle that the cursor is in has one of
them, if there is one at all. -/
theorem dealt_while_servable_iff (cfg : ClientConfig) (m : Manifest)
    (c : TransferChunks) (holders : List BlobProbe)
    (rejects : Nat → Nat) (s : ResumeState) (fuel : Nat) (deal : Deal)
    (h : dealRound cfg m c holders (liveHolders cfg holders rejects) s fuel = some deal) :
    let live := liveHolders cfg holders rejects
    (∀ idx ∈ considered cfg m c live s, ∃ d, RoundReaches cfg m c holders live s idx d) ∧
    ∀ idx d, RoundReaches cfg m c holders live s idx d →
      (Served live (holderClaims holders idx) (queryBudget cfg m) (Endgame c live s) idx d deal ↔
        Fair live (holderClaims holders idx) (queryBudget cfg m) d) := by
  intro live
  rw [dealRound_eq] at h
  constructor
  · intro idx hidx
    obtain ⟨before, after, hsplit⟩ := List.append_of_mem hidx
    change dealAll live _ _ _ _ (considered cfg m c live s) _ = some deal at h
    rw [hsplit, dealAll_append] at h
    obtain ⟨d, hbefore, -⟩ := Option.bind_eq_some_iff.mp h
    exact ⟨d, before, after, fuel, hsplit, hbefore⟩
  · intro idx d hreach
    have hne : live ≠ [] := by
      intro hnil
      obtain ⟨before, after, -, hsplit, -⟩ := hreach
      rw [considered, hnil, List.length_nil, Nat.mul_zero, List.take_zero] at hsplit
      simp at hsplit
    exact served_iff liveHolders_nodup hne (dealCopies_pos hne) dealCopies_le
      dealCopies_endgame considered_nodup
      (fun _ => rfl) h hreach

/-- The first chunk of a round comes up with the cursor at the start of a cycle. -/
theorem dealt_while_servable_first :
    ∃ deal, dealRound stripeConfig cappedManifest cappedChunks stripeHolders
        (liveHolders stripeConfig stripeHolders fun _ => 0) raggedState 2 = some deal ∧
      Served [0, 1] (holderClaims stripeHolders 0) 3 (Endgame cappedChunks [0, 1] raggedState) 0
        ⟨fun _ => [], 0⟩ deal := by
  have hsome : (dealRound stripeConfig cappedManifest cappedChunks stripeHolders
      (liveHolders stripeConfig stripeHolders fun _ => 0) raggedState 2).isSome = true :=
        by decide +kernel
  obtain ⟨deal, hdeal⟩ := Option.isSome_iff_exists.mp hsome
  have hlive : liveHolders stripeConfig stripeHolders (fun _ => 0) = [0, 1] := by decide +kernel
  have hchunks : considered stripeConfig cappedManifest cappedChunks [0, 1] raggedState =
      [0, 2, 4, 7, 8, 9] := by
    decide +kernel
  have hbudget : queryBudget stripeConfig cappedManifest = 3 := by decide +kernel
  have hreach : RoundReaches stripeConfig cappedManifest cappedChunks
      stripeHolders [0, 1] raggedState 0
      ⟨fun _ => [], 0⟩ := by
    rw [RoundReaches, hchunks]
    exact reaches_head 0 _
  have h :=
    (dealt_while_servable_iff stripeConfig cappedManifest cappedChunks stripeHolders
      (fun _ => 0) raggedState 2
    deal hdeal).2
  rw [hlive, hbudget] at h
  exact ⟨deal, hdeal, (h 0 _ hreach).mpr fun _ => ⟨0, by decide, by decide +kernel⟩⟩

def lastTwoMissing : ResumeState := { raggedState with bits := [0xff, 0x00] }

/-- The first holder claims chunk 9 and has a place left when the dealing comes to it, but
chunk 8 left the cursor behind that holder. -/
theorem servable_chunk_skipped :
    ∃ deal d, dealRound stripeConfig cappedManifest cappedChunks emptyPeer
        (liveHolders stripeConfig emptyPeer fun _ => 0) lastTwoMissing 4 = some deal ∧
      RoundReaches stripeConfig cappedManifest cappedChunks emptyPeer
        (liveHolders stripeConfig emptyPeer fun _ => 0) lastTwoMissing 9 d ∧
      d.able (holderClaims emptyPeer 9) (queryBudget stripeConfig cappedManifest) 0 = true ∧
      ¬ Served (liveHolders stripeConfig emptyPeer fun _ => 0) (holderClaims emptyPeer 9)
        (queryBudget stripeConfig cappedManifest)
        (Endgame cappedChunks [0, 1] lastTwoMissing) 9 d deal := by
  have hlive : liveHolders stripeConfig emptyPeer (fun _ => 0) = [0, 1] := by decide +kernel
  rw [hlive]
  have hsome :
      (dealRound stripeConfig cappedManifest cappedChunks emptyPeer
        [0, 1] lastTwoMissing 4).isSome = true := by
    decide +kernel
  obtain ⟨deal, hdeal⟩ := Option.isSome_iff_exists.mp hsome
  have hlists :
      (dealRound stripeConfig cappedManifest cappedChunks emptyPeer [0, 1] lastTwoMissing 4).map
      (fun d => (d.assignment 0, d.assignment 1)) = some ([8, 8], []) := by decide +kernel
  rw [hdeal, Option.map_some, Option.some.injEq, Prod.mk.injEq] at hlists
  let before := dealAll [0, 1] (holderClaims emptyPeer) (queryBudget stripeConfig cappedManifest)
    (dealCopies cappedChunks [0, 1] lastTwoMissing) 4 [8] ⟨fun _ => [], 0⟩
  have hbefore : before.isSome = true := by decide +kernel
  obtain ⟨d, hd⟩ := Option.isSome_iff_exists.mp hbefore
  have hroom : before.map (fun d =>
      d.able (holderClaims emptyPeer 9) (queryBudget stripeConfig cappedManifest) 0) =
      some true := by decide +kernel
  rw [hd, Option.map_some, Option.some.injEq] at hroom
  have hchunks : considered stripeConfig cappedManifest cappedChunks [0, 1] lastTwoMissing =
      [8, 9] := by decide +kernel
  refine ⟨deal, d, hdeal, ⟨[8], [], 4, hchunks, hd⟩, hroom, fun hserved => ?_⟩
  obtain ⟨h, hh, hidx⟩ := hserved.once ⟨0, by simp, hroom⟩
  simp only [List.mem_cons, List.not_mem_nil, or_false] at hh
  rcases hh with rfl | rfl
  · simp [hlists.1] at hidx
  · simp [hlists.2] at hidx

end Zblob

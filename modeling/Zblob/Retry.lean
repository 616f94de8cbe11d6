import Zblob.Delivery
import Zblob.Views

/-!
The retry loop as a whole: how many queries it may take, what it has marked when it ends,
and in what order bytes, marks and saves have reached the disk by then.
-/

set_option autoImplicit false

namespace Zblob

open ByteFile (Leaf)

/-- A reply that the loop would mark chunk `i` for: a slice of that chunk which verifies. -/
def Verifies (bao : Bao) (m : Manifest) (c : TransferChunks) (i : Nat) (r : Reply) : Prop :=
  ∃ sample ls, r = .ok sample ∧ sample.encoding = encSlice ∧ parseSliceIndex sample.key = some i ∧
    bao.decodeSlice m.root m.totalLen.toNat (chunkRange (c.byteRange i)) sample.payload = some ls

def drained : List Recv → List Reply
  | [] => []
  | .cancelled :: _ => []
  | .reply r _ :: rest => r :: drained rest

def Round.replies (round : Round) : List Reply := drained (round.got.getD [])

def Round.Uncancelled (round : Round) : Prop :=
  round.cancelled = false ∧ ∀ recvs, round.got = some recvs → Recv.cancelled ∉ recvs

section Marks

variable {bao : Bao} {cfg : ClientConfig} {m : Manifest} {c : TransferChunks}
  {persist : Bool} {v : Fill}

theorem markVerified_state {due : Bool} {index : Nat} {ls : List Leaf} (hfit : v.state.Fits m c)
    (hi : index < c.count) (hs : v.state.isSet index = false) :
    (markVerified c persist due v index ls).state = (v.state.mark index).1 := by
  have hm : (v.state.mark index).2 = true := by rw [hfit.mark_eq hi hs]
  obtain ⟨w, hstate, -, b, hstate', -⟩ := markVerified_eq (c := c) persist due v ls hm
  rw [hstate', hstate]

theorem verifies_ok {i : Nat} {sample : Sample} : Verifies bao m c i (.ok sample) ↔
    sample.encoding = encSlice ∧ parseSliceIndex sample.key = some i ∧
      ∃ ls, bao.decodeSlice m.root m.totalLen.toNat (chunkRange (c.byteRange i)) sample.payload =
      some ls := by
  constructor
  · rintro ⟨_, ls, hr, henc, hidx, hd⟩
    cases hr
    exact ⟨henc, hidx, ls, hd⟩
  · rintro ⟨henc, hidx, ls, hd⟩
    exact ⟨sample, ls, rfl, henc, hidx, hd⟩

theorem onReply_isSet (hfit : v.state.Fits m c) (r : Reply) (due : Bool) (i : Nat) :
    (onReply bao m c persist v r due).state.isSet i = true ↔
      v.state.isSet i = true ∨ (i < c.count ∧ Verifies bao m c i r) := by
  cases r with
  | error e => simp [onReply, Verifies]
  | ok sample =>
    rw [verifies_ok, onReply]
    split
    · rename_i henc
      simp [henc]
    · cases hidx : parseSliceIndex sample.key with
      | none => simp
      | some index =>
        simp only [Option.some.injEq]
        split
        · rename_i hold
          refine ⟨.inl, ?_⟩
          rintro (hset | ⟨hi, -, rfl, -⟩)
          · exact hset
          · rcases hold with hge | hset
            · omega
            · exact hset
        · rename_i henc hnew
          rw [not_or, Nat.not_le, Bool.not_eq_true] at hnew
          rw [not_not] at henc
          cases hd : bao.decodeSlice m.root m.totalLen.toNat
            (chunkRange (c.byteRange index)) sample.payload with
          | none =>
            refine ⟨.inl, ?_⟩
            rintro (hset | ⟨-, -, rfl, ls, hls⟩)
            · exact hset
            · rw [hd] at hls
              cases hls
          | some ls =>
            simp only
            rw [markVerified_state hfit hnew.1 hnew.2, hfit.mark_isSet,
              Bool.or_eq_true, Bool.and_eq_true,
              decide_eq_true_eq, decide_eq_true_eq]
            refine or_congr_right ?_
            constructor
            · rintro ⟨rfl, hi⟩
              exact ⟨hi, henc, rfl, ls, hd⟩
            · rintro ⟨hi, -, rfl, -⟩
              exact ⟨rfl, hi⟩

end Marks

section

variable {bao : Bao} {cfg : ClientConfig} {m : Manifest} {c : TransferChunks}
  {persist : Bool} {v : Fill}

theorem fits_keeps : Fill.Keeps bao m c fun v => v.state.Fits m c where
  frame := by
    intro v w h hstate _
    rwa [hstate]
  mark := by
    intro v index encoded ls persist due hi hs _ h
    rw [markVerified_state h hi hs]
    exact h.mark_fits index
  persisted := fun _ _ h => h

theorem drain_isSet (hfit : v.state.Fits m c) (recvs : List Recv) (i : Nat) :
    (drain bao m c persist v recvs).1.state.isSet i = true ↔
      v.state.isSet i = true ∨ (i < c.count ∧ ∃ r ∈ drained recvs, Verifies bao m c i r) := by
  induction recvs generalizing v with
  | nil => simp [drain, drained]
  | cons recv rest ih =>
    cases recv with
    | cancelled => simp [drain, drained]
    | reply r due =>
      have hnext : (onReply bao m c persist v r due).state.Fits m c :=
        onReply_keeps fits_keeps persist v r due hfit
      rw [drain, ih hnext, onReply_isSet hfit, drained, List.exists_mem_cons_iff,
        or_assoc, ← and_or_left]

theorem onReply_frame (r : Reply) (due : Bool) :
    (onReply bao m c persist v r due).asked = v.asked ∧
      (onReply bao m c persist v r due).noProgress = v.noProgress := by
  cases r with
  | error e => exact ⟨rfl, rfl⟩
  | ok sample =>
    rw [onReply]
    split
    · exact ⟨rfl, rfl⟩
    cases parseSliceIndex sample.key with
    | none => exact ⟨rfl, rfl⟩
    | some index =>
      simp only
      split
      · exact ⟨rfl, rfl⟩
      cases bao.decodeSlice m.root m.totalLen.toNat
        (chunkRange (c.byteRange index)) sample.payload with
      | none => exact ⟨rfl, rfl⟩
      | some ls =>
        simp only [markVerified]
        split
        · split <;> exact ⟨rfl, rfl⟩
        · exact ⟨rfl, rfl⟩

theorem drain_frame (recvs : List Recv) :
    (drain bao m c persist v recvs).1.asked = v.asked ∧
      (drain bao m c persist v recvs).1.noProgress = v.noProgress := by
  induction recvs generalizing v with
  | nil => exact ⟨rfl, rfl⟩
  | cons recv rest ih =>
    cases recv with
    | cancelled => exact ⟨rfl, rfl⟩
    | reply r due =>
      obtain ⟨hasked, hcount⟩ := @ih (onReply bao m c persist v r due)
      obtain ⟨hasked', hcount'⟩ := @onReply_frame bao m c persist v r due
      exact ⟨hasked.trans hasked', hcount.trans hcount'⟩

theorem drain_cut_iff (recvs : List Recv) :
    (drain bao m c persist v recvs).2 = true ↔ Recv.cancelled ∈ recvs := by
  induction recvs generalizing v with
  | nil => simp [drain]
  | cons recv rest ih =>
    cases recv with
    | cancelled => simp [drain]
    | reply r due => simp [drain, ih]

end

section Rule

variable (bao : Bao) (cfg : ClientConfig) (m : Manifest) (c : TransferChunks) (persist : Bool)

def Fill.query (v : Fill) : Fill := (v.ask [⟨cfg.origin, holes cfg m c v.state⟩]).countQueries 1

def Fill.heard (v : Fill) (recvs : List Recv) : Fill :=
  (drain bao m c persist (v.query cfg m c) recvs).1

variable {bao cfg m c persist}

/-- The loop by the ways a turn of it can go. -/
theorem fillHoles_rule {P : Fill → List Round → Fill × Outcome → Prop}
    (full : ∀ (v : Fill) (rounds : List Round), v.state.isComplete c.count = true →
      P v rounds (v.persisted persist, .done (.ok ())))
    (dry : ∀ v : Fill, v.state.isComplete c.count = false → P v [] (v, .pending))
    (stopped : ∀ (v : Fill) (round : Round) (rest : List Round),
      v.state.isComplete c.count = false →
      round.cancelled = true → P v (round :: rest) (persistCancel c persist v))
    (refused : ∀ (v : Fill) (round : Round) (rest : List Round),
      v.state.isComplete c.count = false →
      round.cancelled = false → round.got = none → P v (round :: rest)
      (v.query cfg m c, .done (.error .zenoh)))
    (cut : ∀ (v : Fill) (round : Round) (rest : List Round) (recvs : List Recv),
      v.state.isComplete c.count = false →
      round.cancelled = false → round.got = some recvs → Recv.cancelled ∈ recvs →
      P v (round :: rest) (persistCancel c persist (v.heard bao cfg m c persist recvs)))
    (filled : ∀ (v : Fill) (round : Round) (rest : List Round) (recvs : List Recv),
      v.state.isComplete c.count = false → round.cancelled = false →
      round.got = some recvs → Recv.cancelled ∉ recvs →
      (v.heard bao cfg m c persist recvs).state.isComplete c.count = true →
      P v (round :: rest) ((v.heard bao cfg m c persist recvs).persisted persist, .done (.ok ())))
    (gaveUp : ∀ (v : Fill) (round : Round) (rest : List Round) (recvs : List Recv),
      v.state.isComplete c.count = false → round.cancelled = false →
      round.got = some recvs → Recv.cancelled ∉ recvs →
      (v.heard bao cfg m c persist recvs).state.isComplete c.count = false →
      (v.heard bao cfg m c persist recvs).stalled.noProgress ≥ cfg.maxAttempts →
      P v (round :: rest) ((v.heard bao cfg m c persist recvs).stalled.persisted persist,
        .done (.error (.incomplete (v.heard bao cfg m c persist recvs).state.received c.count))))
    (stalled :
      ∀ (v : Fill) (round : Round) (rest : List Round) (recvs : List Recv) (out : Fill × Outcome),
      v.state.isComplete c.count = false → round.cancelled = false →
      round.got = some recvs → Recv.cancelled ∉ recvs →
      (v.heard bao cfg m c persist recvs).stalled.noProgress < cfg.maxAttempts →
      P (v.heard bao cfg m c persist recvs).stalled rest out → P v (round :: rest) out)
    (progress :
      ∀ (v : Fill) (round : Round) (rest : List Round) (recvs : List Recv) (out : Fill × Outcome),
      v.state.isComplete c.count = false → round.cancelled = false →
      round.got = some recvs → Recv.cancelled ∉ recvs →
      (v.heard bao cfg m c persist recvs).state.received ≠ v.state.received →
      P { v.heard bao cfg m c persist recvs with noProgress := 0 } rest out →
      P v (round :: rest) out)
    (v : Fill) (rounds : List Round) : P v rounds (fillHoles bao cfg m c persist v rounds) := by
  induction rounds generalizing v with
  | nil =>
    rw [fillHoles]
    by_cases hdone : v.state.isComplete c.count = true
    · rw [if_pos hdone]
      exact full v [] hdone
    · rw [if_neg hdone]
      exact dry v (by simpa using hdone)
  | cons round rest ih =>
    rw [fillHoles]
    by_cases hdone : v.state.isComplete c.count = true
    · rw [if_pos hdone]
      exact full v _ hdone
    rw [if_neg hdone]
    rw [Bool.not_eq_true] at hdone
    by_cases hstop : round.cancelled = true
    · rw [if_pos hstop]
      exact stopped v round rest hdone hstop
    rw [if_neg hstop]
    rw [Bool.not_eq_true] at hstop
    cases hgot : round.got with
    | none => exact refused v round rest hdone hstop hgot
    | some recvs =>
      have hcut := @drain_cut_iff bao m c persist (v.query cfg m c) recvs
      simp only
      split
      · rename_i hflag
        exact cut v round rest recvs hdone hstop hgot (hcut.mp hflag)
      rename_i hflag
      have hgo : Recv.cancelled ∉ recvs := fun h => hflag (hcut.mpr h)
      split
      · rename_i hfull
        exact filled v round rest recvs hdone hstop hgot hgo hfull
      rename_i hopen
      rw [Bool.not_eq_true] at hopen
      split
      · split
        · rename_i hgive
          exact gaveUp v round rest recvs hdone hstop hgot hgo hopen hgive
        · rename_i hgive
          exact stalled v round rest recvs _ hdone hstop hgot hgo (Nat.lt_of_not_le hgive) (ih _)
      · rename_i hmore
        exact progress v round rest recvs _ hdone hstop hgot hgo hmore (ih _)

def missingCount (c : TransferChunks) (s : ResumeState) : Nat :=
  ((List.range c.count).filter fun i => !s.isSet i).length

def Fill.allowance (cfg : ClientConfig) (c : TransferChunks) (v : Fill) : Nat :=
  missingCount c v.state * max 1 cfg.maxAttempts + (max 1 cfg.maxAttempts - v.noProgress)

theorem Fill.allowance_pos {v : Fill} (hcount : v.noProgress < max 1 cfg.maxAttempts) :
    0 < v.allowance cfg c := by
  unfold Fill.allowance
  omega

section Heard

variable (bao cfg m c persist) (v : Fill) (recvs : List Recv)

theorem heard_asked : (v.heard bao cfg m c persist recvs).asked.length = v.asked.length + 1 := by
  rw [Fill.heard, (drain_frame recvs).1]
  simp [Fill.query, Fill.ask, Fill.countQueries]

theorem heard_noProgress : (v.heard bao cfg m c persist recvs).noProgress = v.noProgress :=
  (drain_frame recvs).2

variable {m c v} (hfit : v.state.Fits m c)

include hfit

theorem heard_isSet (i : Nat) :
    (v.heard bao cfg m c persist recvs).state.isSet i = true ↔
      v.state.isSet i = true ∨ (i < c.count ∧ ∃ r ∈ drained recvs, Verifies bao m c i r) :=
  drain_isSet (v := v.query cfg m c) hfit recvs i

theorem heard_fits : (v.heard bao cfg m c persist recvs).state.Fits m c :=
  drain_keeps fits_keeps persist recvs (v.query cfg m c) hfit

theorem missingCount_heard :
    missingCount c (v.heard bao cfg m c persist recvs).state ≤ missingCount c v.state := by
  rw [missingCount, missingCount]
  apply List.Sublist.length_le
  apply List.monotone_filter_right
  intro i hmissing
  rw [Bool.not_eq_true'] at hmissing ⊢
  by_contra hset
  rw [Bool.not_eq_false] at hset
  rw [(heard_isSet bao cfg persist recvs hfit i).mpr (.inl hset)] at hmissing
  cases hmissing

end Heard

theorem received_add_missing {s : ResumeState} (hfit : s.Fits m c) :
    s.received + missingCount c s = c.count := by
  have hsplit := List.length_eq_length_filter_add (l := List.range c.count) s.isSet
  rw [List.length_range] at hsplit
  rw [hfit.received_eq, missingCount]
  exact hsplit.symm

theorem allowance_stalled (bao : Bao) (persist : Bool) {v : Fill}
    (hfit : v.state.Fits m c) (recvs : List Recv)
    (hcount : v.noProgress < max 1 cfg.maxAttempts) :
    (v.heard bao cfg m c persist recvs).stalled.allowance cfg c + 1 ≤ v.allowance cfg c := by
  have hless :=
    Nat.mul_le_mul_right (max 1 cfg.maxAttempts) (missingCount_heard bao cfg persist recvs hfit)
  simp only [Fill.allowance, Fill.stalled, heard_noProgress]
  omega

theorem allowance_progress {v : Fill} (hfit : v.state.Fits m c) (recvs : List Recv)
    (hcount : v.noProgress < max 1 cfg.maxAttempts)
    (hmore : (v.heard bao cfg m c persist recvs).state.received ≠ v.state.received) :
    ({ v.heard bao cfg m c persist recvs with noProgress := 0 } : Fill).allowance cfg c +
      1 ≤ v.allowance cfg c := by
  have hbefore := received_add_missing hfit
  have hafter := received_add_missing (heard_fits bao cfg persist recvs hfit)
  have hfewer := missingCount_heard bao cfg persist recvs hfit
  have hone : missingCount c (v.heard bao cfg m c persist recvs).state +
      1 ≤ missingCount c v.state := by omega
  have hless := Nat.mul_le_mul_right (max 1 cfg.maxAttempts) hone
  rw [Nat.succ_mul] at hless
  simp only [Fill.allowance]
  omega

/-- The queries stay within the allowance, and it is enough to bring the loop to an end. -/
theorem fillHoles_ends (bao : Bao) (persist : Bool) (v : Fill) (rounds : List Round)
    (hfit : v.state.Fits m c)
    (hcount : v.noProgress < max 1 cfg.maxAttempts) :
    (fillHoles bao cfg m c persist v rounds).1.asked.length ≤ v.asked.length + v.allowance cfg c ∧
      (v.allowance cfg c ≤ rounds.length →
        (fillHoles bao cfg m c persist v rounds).2 ≠ .pending) := by
  revert hfit hcount
  apply fillHoles_rule
    (P := fun v rounds out => v.state.Fits m c → v.noProgress < max 1 cfg.maxAttempts →
    out.1.asked.length ≤ v.asked.length + v.allowance cfg c ∧
    (v.allowance cfg c ≤ rounds.length → out.2 ≠ .pending))
  case full =>
    intro v rounds _ _ _
    exact ⟨Nat.le_add_right _ _, by simp⟩
  case dry =>
    intro v _ _ hcount
    refine ⟨Nat.le_add_right _ _, fun hlong => ?_⟩
    have hpos := Fill.allowance_pos (c := c) hcount
    simp only [List.length_nil] at hlong
    omega
  case stopped =>
    intro v round rest _ _ _ _
    exact ⟨Nat.le_add_right _ _, by simp [persistCancel]⟩
  case refused =>
    intro v round rest _ _ _ _ hcount
    have hpos := Fill.allowance_pos (c := c) hcount
    refine ⟨?_, by simp⟩
    simp only [Fill.query, Fill.ask, Fill.countQueries, List.length_append, List.length_singleton]
    omega
  case cut =>
    intro v round rest recvs _ _ _ _ _ hcount
    have hpos := Fill.allowance_pos (c := c) hcount
    have hasked := heard_asked bao cfg m c persist v recvs
    refine ⟨?_, by simp [persistCancel]⟩
    simp only [persistCancel, Fill.persisted, hasked]
    omega
  case filled =>
    intro v round rest recvs _ _ _ _ _ _ hcount
    have hpos := Fill.allowance_pos (c := c) hcount
    have hasked := heard_asked bao cfg m c persist v recvs
    refine ⟨?_, by simp⟩
    simp only [Fill.persisted, hasked]
    omega
  case gaveUp =>
    intro v round rest recvs _ _ _ _ _ _ _ hcount
    have hpos := Fill.allowance_pos (c := c) hcount
    have hasked := heard_asked bao cfg m c persist v recvs
    refine ⟨?_, by simp⟩
    simp only [Fill.persisted, Fill.stalled, hasked]
    omega
  case stalled =>
    intro v round rest recvs out _ _ _ _ hless ih hfit hcount
    have hnext := allowance_stalled bao persist hfit recvs hcount
    have hasked := heard_asked bao cfg m c persist v recvs
    obtain ⟨hqueries, hstop⟩ :=
      ih (heard_fits bao cfg persist recvs hfit) (Nat.lt_of_lt_of_le hless (Nat.le_max_right _ _))
    have hsame : (v.heard bao cfg m c persist recvs).stalled.asked =
        (v.heard bao cfg m c persist recvs).asked := rfl
    rw [hsame] at hqueries
    refine ⟨by omega, fun hlong => hstop ?_⟩
    rw [List.length_cons] at hlong
    omega
  case progress =>
    intro v round rest recvs out _ _ _ _ hmore ih hfit hcount
    have hnext := allowance_progress hfit recvs hcount hmore
    have hasked := heard_asked bao cfg m c persist v recvs
    obtain ⟨hqueries, hstop⟩ := ih (heard_fits bao cfg persist recvs hfit)
      (Nat.lt_of_lt_of_le Nat.one_pos (Nat.le_max_left _ _))
    rw [hasked] at hqueries
    exact ⟨by omega, fun hlong => hstop (Nat.le_of_succ_le_succ (hnext.trans hlong))⟩

/-- Without cancellation the loop returns without an error exactly when it has every chunk. -/
theorem fillHoles_ok_iff (v : Fill) (rounds : List Round)
    (hcalm : ∀ round ∈ rounds, round.Uncancelled)
    (hend : (fillHoles bao cfg m c persist v rounds).2 ≠ .pending) :
    (fillHoles bao cfg m c persist v rounds).2 = .done (.ok ()) ↔
      (fillHoles bao cfg m c persist v rounds).1.state.isComplete c.count = true := by
  revert hcalm hend
  apply fillHoles_rule
    (P := fun _ rounds out => (∀ round ∈ rounds, round.Uncancelled) → out.2 ≠ .pending →
    (out.2 = .done (.ok ()) ↔ out.1.state.isComplete c.count = true))
  case full =>
    intro v rounds hdone _ _
    simp [hdone]
  case dry =>
    intro v _ _ hend
    exact absurd rfl hend
  case stopped =>
    intro v round rest _ hstop hcalm _
    rw [(hcalm round List.mem_cons_self).1] at hstop
    cases hstop
  case refused =>
    intro v round rest hopen _ _ _ _
    simp [Fill.query, Fill.ask, Fill.countQueries, hopen]
  case cut =>
    intro v round rest recvs _ _ hgot hcut hcalm _
    exact absurd hcut ((hcalm round List.mem_cons_self).2 recvs hgot)
  case filled =>
    intro v round rest recvs _ _ _ _ hfull _ _
    simp [hfull]
  case gaveUp =>
    intro v round rest recvs _ _ _ _ hopen _ _ _
    simp [Fill.stalled, hopen]
  case stalled =>
    intro v round rest recvs out _ _ _ _ _ ih hcalm hend
    exact ih (fun r hr => hcalm r (List.mem_cons_of_mem _ hr)) hend
  case progress =>
    intro v round rest recvs out _ _ _ _ _ ih hcalm hend
    exact ih (fun r hr => hcalm r (List.mem_cons_of_mem _ hr)) hend

def VerifiedBy (bao : Bao) (m : Manifest) (c : TransferChunks) (rounds : List Round)
    (k i : Nat) : Prop :=
  ∃ r ∈ (rounds.take k).flatMap Round.replies, Verifies bao m c i r

theorem verifiedBy_zero {rounds : List Round} {i : Nat} : ¬VerifiedBy bao m c rounds 0 i := by
  simp [VerifiedBy]

theorem verifiedBy_succ {round : Round} {rest : List Round} {recvs : List Recv} {k i : Nat}
    (hgot : round.got = some recvs) : VerifiedBy bao m c (round :: rest) (k + 1) i ↔
      (∃ r ∈ drained recvs, Verifies bao m c i r) ∨ VerifiedBy bao m c rest k i := by
  simp only [VerifiedBy, List.take_succ_cons, List.flatMap_cons,
    List.mem_append, or_and_right, exists_or]
  rw [Round.replies, hgot, Option.getD_some]

/-- From `v`, some queries of `rounds` were issued, and `w` has marked what their replies verified
for. -/
def Fill.Marks (bao : Bao) (m : Manifest) (c : TransferChunks) (v : Fill)
    (rounds : List Round) (w : Fill) : Prop :=
  ∃ k, w.asked.length = v.asked.length + k ∧
    ∀ i, w.state.isSet i = true ↔ v.state.isSet i = true ∨
    (i < c.count ∧ VerifiedBy bao m c rounds k i)

theorem marks_heard {v : Fill} (hfit : v.state.Fits m c) {round : Round}
    {rest : List Round} {recvs : List Recv}
    (hgot : round.got = some recvs) :
    v.Marks bao m c (round :: rest) (v.heard bao cfg m c persist recvs) := by
  refine ⟨1, heard_asked bao cfg m c persist v recvs, fun i => ?_⟩
  rw [heard_isSet bao cfg persist recvs hfit i, verifiedBy_succ (k := 0) hgot]
  simp [verifiedBy_zero]

theorem marks_next {v w x : Fill} (hfit : v.state.Fits m c) {round : Round}
    {rest : List Round} {recvs : List Recv}
    (hgot : round.got = some recvs) (hstate : w.state = (v.heard bao cfg m c persist recvs).state)
    (hasked : w.asked = (v.heard bao cfg m c persist recvs).asked)
    (hrest : w.Marks bao m c rest x) :
    v.Marks bao m c (round :: rest) x := by
  obtain ⟨k, hlen, hbits⟩ := hrest
  refine ⟨k + 1, ?_, fun i => ?_⟩
  · rw [hlen, hasked, heard_asked]
    omega
  · rw [hbits, hstate, heard_isSet bao cfg persist recvs hfit i,
      verifiedBy_succ hgot, or_assoc, ← and_or_left]

/-- What the loop has marked when it stops: what it began with, and what the replies to its
queries verified for. -/
theorem fillHoles_marks (bao : Bao) (cfg : ClientConfig) (persist : Bool)
    (v : Fill) (rounds : List Round) (hfit : v.state.Fits m c) :
    v.Marks bao m c rounds (fillHoles bao cfg m c persist v rounds).1 := by
  revert hfit
  apply fillHoles_rule (P := fun v rounds out => v.state.Fits m c → v.Marks bao m c rounds out.1)
  case full =>
    intro v rounds _ _
    exact ⟨0, rfl, by simp [verifiedBy_zero]⟩
  case dry =>
    intro v _ _
    exact ⟨0, rfl, by simp [verifiedBy_zero]⟩
  case stopped =>
    intro v round rest _ _ _
    exact ⟨0, rfl, by simp [verifiedBy_zero, persistCancel]⟩
  case refused =>
    intro v round rest _ _ hgot _
    refine ⟨1, by simp [Fill.query, Fill.ask, Fill.countQueries], ?_⟩
    simp [VerifiedBy, Round.replies, hgot, drained, Fill.query, Fill.ask, Fill.countQueries]
  case cut =>
    intro v round rest recvs _ _ hgot _ hfit
    exact marks_heard hfit hgot
  case filled =>
    intro v round rest recvs _ _ hgot _ _ hfit
    exact marks_heard hfit hgot
  case gaveUp =>
    intro v round rest recvs _ _ hgot _ _ _ hfit
    exact marks_heard hfit hgot
  case stalled =>
    intro v round rest recvs out _ _ hgot _ _ ih hfit
    exact marks_next hfit hgot rfl rfl (ih (heard_fits bao cfg persist recvs hfit))
  case progress =>
    intro v round rest recvs out _ _ hgot _ _ ih hfit
    exact marks_next hfit hgot rfl rfl (ih (heard_fits bao cfg persist recvs hfit))

/-- The ends that are the loop's own: done, out of attempts, or cancelled. -/
inductive Outcome.Settled : Outcome → Prop where
  | ok : Settled (.done (.ok ()))
  | incomplete (received total : Nat) : Settled (.done (.error (.incomplete received total)))
  | cancelled (received total : Nat) : Settled (.done (.error (.cancelled received total)))

def Outcome.isOk : Outcome → Bool
  | .done (.ok ()) => true
  | _ => false

theorem Outcome.isOk_iff {out : Outcome} : out.isOk = true ↔ out = .done (.ok ()) := by
  rcases out with _ | _ | _ <;> simp [Outcome.isOk]

/-- There the loop's last steps are to make the data durable and to save the bits it has. -/
theorem fillHoles_persisted (v : Fill) (rounds : List Round)
    (hend : (fillHoles bao cfg m c persist v rounds).2.Settled) :
    ∃ before, (fillHoles bao cfg m c persist v rounds).1.ops =
      before ++ persistOps persist (fillHoles bao cfg m c persist v rounds).1.state := by
  revert hend
  apply fillHoles_rule (P := fun _ _ out => out.2.Settled → ∃ before,
    out.1.ops = before ++ persistOps persist out.1.state)
  case full => exact fun v _ _ _ => ⟨v.ops, rfl⟩
  case dry => exact fun v _ hend => nomatch hend
  case stopped => exact fun v _ _ _ _ _ => ⟨v.ops, rfl⟩
  case refused => exact fun v _ _ _ _ _ hend => nomatch hend
  case cut => exact fun v _ _ recvs _ _ _ _ _ => ⟨(v.heard bao cfg m c persist recvs).ops, rfl⟩
  case filled => exact fun v _ _ recvs _ _ _ _ _ _ => ⟨(v.heard bao cfg m c persist recvs).ops, rfl⟩
  case gaveUp =>
    exact fun v _ _ recvs _ _ _ _ _ _ _ => ⟨(v.heard bao cfg m c persist recvs).stalled.ops, rfl⟩
  case stalled => exact fun _ _ _ _ _ _ _ _ _ _ ih => ih
  case progress => exact fun _ _ _ _ _ _ _ _ _ _ ih => ih

end Rule

section Journal

/-- The bits that `s` has and the loop began without have had their bytes, verified, written in
`ops`. -/
def Evidenced (bao : Bao) (m : Manifest) (c : TransferChunks) (s₀ : ResumeState) (ops : List FillOp)
    (s : ResumeState) : Prop :=
  ∀ i, s.isSet i = true → s₀.isSet i = true ∨ ∃ encoded ls,
    bao.decodeSlice m.root m.totalLen.toNat (chunkRange (c.byteRange i)) encoded = some ls ∧
    leafOps ls <:+: ops

/-- The file steps keep the order: written before marked, and committed before saved. -/
structure Fill.Ordered (bao : Bao) (m : Manifest) (c : TransferChunks)
    (s₀ : ResumeState) (v : Fill) : Prop where
  fits : v.state.Fits m c
  marks : Evidenced bao m c s₀ v.ops v.state
  saves : ∀ before after s, v.ops = before ++ .save s :: after →
    ∃ written, before = written ++ [.commit] ∧ Evidenced bao m c s₀ written s

variable {bao : Bao} {m : Manifest} {c : TransferChunks} {s₀ : ResumeState} {v w : Fill}

theorem Evidenced.mono {ops : List FillOp} {s : ResumeState} (h : Evidenced bao m c s₀ ops s)
    (more : List FillOp) :
    Evidenced bao m c s₀ (ops ++ more) s := by
  intro i hi
  rcases h i hi with hold | ⟨encoded, ls, hd, hin⟩
  · exact .inl hold
  · exact .inr ⟨encoded, ls, hd, hin.trans (List.prefix_append ops more).isInfix⟩

theorem save_split {ops more before after : List FillOp} {s : ResumeState}
    (h : ops ++ more = before ++ .save s :: after) :
    (∃ after', ops = before ++ .save s :: after') ∨ ∃ gap, before = ops ++ gap ∧
      more = gap ++ .save s :: after := by
  rcases List.append_eq_append_iff.mp h with ⟨gap, hb, hmore⟩ | ⟨gap, hops, hrest⟩
  · exact .inr ⟨gap, hb, hmore⟩
  · cases gap with
    | nil => exact .inr ⟨[], by simpa using hops.symm, by simpa using hrest.symm⟩
    | cons op gap =>
      obtain ⟨rfl, -⟩ := List.cons_eq_cons.mp hrest
      exact .inl ⟨gap, hops⟩

theorem Fill.Ordered.write (h : v.Ordered bao m c s₀) {ls : List Leaf} {i : Nat} {encoded : Bytes}
    (hd : bao.decodeSlice m.root m.totalLen.toNat (chunkRange (c.byteRange i)) encoded = some ls)
    (hstate : w.state = (v.state.mark i).1) (hops : w.ops = v.ops ++ leafOps ls) :
    w.Ordered bao m c s₀ where
  fits := by
    rw [hstate]
    exact h.fits.mark_fits i
  marks := by
    rw [hops, hstate]
    intro j hj
    rw [h.fits.mark_isSet, Bool.or_eq_true, Bool.and_eq_true, decide_eq_true_eq,
      decide_eq_true_eq] at hj
    rcases hj with hj | ⟨rfl, -⟩
    · exact h.marks.mono (leafOps ls) j hj
    · exact .inr ⟨encoded, ls, hd, (List.suffix_append _ _).isInfix⟩
  saves := by
    intro before after s heq
    rcases save_split (hops ▸ heq) with ⟨after', hold⟩ | ⟨gap, -, hnew⟩
    · exact h.saves before after' s hold
    · have hsave : FillOp.save s ∈ leafOps ls := by simp [hnew]
      simp [leafOps] at hsave

theorem Fill.Ordered.persist (h : v.Ordered bao m c s₀) {persist : Bool}
    (hstate : w.state = v.state)
    (hops : w.ops = v.ops ++ persistOps persist v.state) : w.Ordered bao m c s₀ where
  fits := by
    rw [hstate]
    exact h.fits
  marks := by
    rw [hops, hstate]
    exact h.marks.mono _
  saves := by
    intro before after s heq
    rcases save_split (hops ▸ heq) with ⟨after', hold⟩ | ⟨gap, hb, hnew⟩
    · exact h.saves before after' s hold
    · cases persist with
      | false => simp [persistOps, List.cons_eq_append_iff] at hnew
      | true =>
        simp only [persistOps, if_true] at hnew
        rcases gap with - | ⟨op, - | ⟨op', gap⟩⟩
        · cases hnew
        · cases hnew
          exact ⟨v.ops, hb, h.marks⟩
        · simp at hnew

theorem ordered_keeps : Fill.Keeps bao m c (Fill.Ordered bao m c s₀) where
  frame := by
    intro v w h hstate hops
    exact ⟨hstate ▸ h.fits, by rw [hstate, hops]; exact h.marks, hops ▸ h.saves⟩
  mark := by
    intro v index encoded ls persist due hi hs hd h
    have hm : (v.state.mark index).2 = true := by rw [h.fits.mark_eq hi hs]
    obtain ⟨w, hstate, hops, b, hstate', hops'⟩ := markVerified_eq (c := c) persist due v ls hm
    have hw : w.Ordered bao m c s₀ := h.write hd hstate hops
    cases b with
    | true => exact hw.persist hstate' (by simpa using hops')
    | false =>
      have hops' : (markVerified c persist due v index ls).ops = w.ops := by simpa using hops'
      exact ⟨hstate' ▸ hw.fits, by rw [hstate', hops']; exact hw.marks, hops' ▸ hw.saves⟩
  persisted := fun v persist h => h.persist rfl rfl

theorem ordered_start (stats : TransferStats) (hfit : s₀.Fits m c) :
    (Fill.start s₀ stats).Ordered bao m c s₀ where
  fits := hfit
  marks := fun _ hi => .inl hi
  saves := fun before after s h => by simp [Fill.start] at h

end Journal

/-- The single-origin retry loop, whatever its queries bring back. It issues at most one query for
each attempt it may make at each missing chunk and once more, and with that many answered it has
returned. Undisturbed it succeeds exactly when it has every chunk. At each of its own ends the
marked chunks are those it began with and those some looked-at reply verified for; every mark has
its bytes written before it, every save its commit, and the last save is of the final marks. -/
theorem retry_loop_ends (bao : Bao) (cfg : ClientConfig) (m : Manifest)
    (c : TransferChunks) (persist : Bool)
    (s : ResumeState) (stats : TransferStats) (rounds : List Round) (hfit : s.Fits m c) :
    let out := fillHoles bao cfg m c persist (Fill.start s stats) rounds
    let bound := (missingCount c s + 1) * max 1 cfg.maxAttempts
    out.1.asked.length ≤ bound ∧ (bound ≤ rounds.length → out.2 ≠ .pending) ∧
    ((∀ round ∈ rounds, round.Uncancelled) → out.2 ≠ .pending →
      (out.2 = .done (.ok ()) ↔ ∀ i < c.count, out.1.state.isSet i = true)) ∧
    (out.2.Settled →
      (∀ i, out.1.state.isSet i = true ↔ s.isSet i = true ∨
        (i < c.count ∧ VerifiedBy bao m c rounds out.1.asked.length i)) ∧
      out.1.Ordered bao m c s ∧
      ∃ before, out.1.ops = before ++ persistOps persist out.1.state) := by
  intro out bound
  have hbound : (Fill.start s stats).allowance cfg c = bound := by
    simp only [Fill.allowance, Fill.start, Nat.sub_zero, bound, Nat.succ_mul]
  have hattempt : (Fill.start s stats).noProgress < max 1 cfg.maxAttempts :=
    Nat.lt_of_lt_of_le Nat.one_pos (Nat.le_max_left _ _)
  obtain ⟨hqueries, hstop⟩ := fillHoles_ends bao persist (Fill.start s stats) rounds hfit hattempt
  have hord : out.1.Ordered bao m c s :=
    fillHoles_keeps ordered_keeps cfg persist rounds _ (ordered_start stats hfit)
  have hnone : (Fill.start s stats).asked.length = 0 := rfl
  rw [hnone, Nat.zero_add, hbound] at hqueries
  rw [hbound] at hstop
  refine ⟨hqueries, hstop, fun hcalm hend => ?_, fun hsettled => ⟨?_, hord, ?_⟩⟩
  · rw [fillHoles_ok_iff _ rounds hcalm hend]
    exact ⟨fun hdone i hi => hord.fits.isSet_of_complete hdone hi,
      fun hall => hord.fits.complete_of_isSet hall⟩
  · obtain ⟨k, hlen, hbits⟩ := fillHoles_marks bao cfg persist (Fill.start s stats) rounds hfit
    rw [hnone, Nat.zero_add] at hlen
    rw [← hlen] at hbits
    exact hbits
  · exact fillHoles_persisted _ rounds hsettled

def sampleRetry : List Round :=
  [⟨false, some [.reply (.ok ⟨"a/x/slice/0", encSlice, [97]⟩) false]⟩,
    ⟨false, some [.reply (.ok ⟨"a/x/slice/0", encSlice, [97, 98, 99]⟩) false]⟩]

theorem retry_loop_ends_abc :
    let m := sampleManifest 3 (shortHash [97, 98, 99])
    let c : TransferChunks := ⟨65536, 3, by decide, by decide⟩
    let s := ResumeState.fresh m c.count
    let out :=
      fillHoles shortBao sampleConfig m c true (Fill.start s TransferStats.default) sampleRetry
    (missingCount c s = 1 ∧ out.1.asked.length = 2 ∧ out.2 = .done (.ok ())) ∧
      out.1.asked.length ≤ (missingCount c s + 1) * 5 ∧
      (∀ i < c.count, out.1.state.isSet i = true) ∧
      out.1.Ordered shortBao m c s ∧ ∃ before, out.1.ops = before ++
      [.commit, .save out.1.state] := by
  intro m c s out
  have hc : m.chunks = .ok c := TransferChunks.new_self c
  have hok : out.2 = .done (.ok ()) := Outcome.isOk_iff.mp (by decide +kernel)
  have hend : out.2.Settled := by
    rw [hok]
    exact .ok
  have hcalm : ∀ round ∈ sampleRetry, round.Uncancelled := by simp [sampleRetry, Round.Uncancelled]
  obtain ⟨hqueries, -, hdone, hsettled⟩ :=
    retry_loop_ends shortBao sampleConfig m c true s TransferStats.default
    sampleRetry (ResumeState.fresh_fits hc)
  obtain ⟨-, hord, hlast⟩ := hsettled hend
  exact ⟨⟨by decide, by decide +kernel, hok⟩, hqueries,
    (hdone hcalm (by rw [show _ = Outcome.done (.ok ()) from hok]; exact Outcome.noConfusion)).mp
    hok, hord, hlast⟩

end Zblob

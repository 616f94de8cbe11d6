import Zblob.Answering
import Zblob.Geometry
import Zblob.Routing
import Zblob.Messages

/-!
The uploader after its offer: the reply lists the chunk ranges that the receiver still wants,
and may list anything. One pass over it decides whether the slices go out.
-/

set_option autoImplicit false

namespace Zblob

def encPush : String := "zblob/push;v=3"

def checkWanted (count : Nat) : Nat → List (UInt32 × UInt32) → Result Unit
  | _, [] => .ok ()
  | prevEnd, (a, b) :: rest =>
    if a.toNat < prevEnd ∨ a.toNat ≥ b.toNat ∨ b.toNat > count then
      .error (.malformedMessage
        (s!"push offer replied malformed wanted ranges ({a.toNat}, {b.toNat}) for {count} chunks"))
    else checkWanted count b.toNat rest

def toSendLoop : Nat → List (UInt32 × UInt32) → Option Nat
  | acc, [] => some acc
  | acc, (a, b) :: rest => do
    let len ← Machine.sub b.toNat a.toNat
    let acc ← Machine.add 32 acc len
    toSendLoop acc rest

structure WantedOk (count : Nat) (wanted : List (UInt32 × UInt32)) : Prop where
  nonempty : ∀ r ∈ wanted, r.1.toNat < r.2.toNat
  within : ∀ r ∈ wanted, r.2.toNat ≤ count
  ordered : wanted.Pairwise fun r s => r.2.toNat ≤ s.1.toNat

def wantedIndices (wanted : List (UInt32 × UInt32)) : List Nat :=
  wanted.flatMap fun r => List.range' r.1.toNat (r.2.toNat - r.1.toNat)

theorem mem_wantedIndices {wanted : List (UInt32 × UInt32)} {i : Nat} :
    i ∈ wantedIndices wanted ↔ ∃ r ∈ wanted, r.1.toNat ≤ i ∧ i < r.2.toNat := by
  simp only [wantedIndices, List.mem_flatMap, List.mem_range'_1]
  constructor
  · rintro ⟨r, hr, hlo, hhi⟩
    exact ⟨r, hr, hlo, by omega⟩
  · rintro ⟨r, hr, hlo, hhi⟩
    exact ⟨r, hr, hlo, by omega⟩

theorem checkWanted_ok_iff (count prevEnd : Nat) (wanted : List (UInt32 × UInt32)) :
    checkWanted count prevEnd wanted = .ok () ↔
      (∀ r ∈ wanted, prevEnd ≤ r.1.toNat) ∧ WantedOk count wanted := by
  induction wanted generalizing prevEnd with
  | nil =>
    simp only [checkWanted, List.not_mem_nil, false_implies, implies_true, true_and, true_iff]
    exact ⟨by simp, by simp, List.Pairwise.nil⟩
  | cons r rest ih =>
    obtain ⟨a, b⟩ := r
    by_cases hbad : a.toNat < prevEnd ∨ a.toNat ≥ b.toNat ∨ b.toNat > count
    · simp only [checkWanted, if_pos hbad, reduceCtorEq, false_iff]
      rintro ⟨hprev, hok⟩
      have h₁ := hprev (a, b) List.mem_cons_self
      have h₂ := hok.nonempty (a, b) List.mem_cons_self
      have h₃ := hok.within (a, b) List.mem_cons_self
      simp only at h₁ h₂ h₃
      omega
    · rw [checkWanted, if_neg hbad, ih]
      constructor
      · rintro ⟨hnext, hok⟩
        refine ⟨?_, ?_, ?_, ?_⟩
        · refine List.forall_mem_cons.mpr ⟨by simp only; omega, fun s hs => ?_⟩
          have := hnext s hs
          omega
        · exact List.forall_mem_cons.mpr ⟨by simp only; omega, hok.nonempty⟩
        · exact List.forall_mem_cons.mpr ⟨by simp only; omega, hok.within⟩
        · exact List.pairwise_cons.mpr ⟨hnext, hok.ordered⟩
      · rintro ⟨-, hok⟩
        have hpair := List.pairwise_cons.mp hok.ordered
        exact ⟨hpair.1, fun s hs => hok.nonempty s (List.mem_cons_of_mem _ hs),
          fun s hs => hok.within s (List.mem_cons_of_mem _ hs), hpair.2⟩

theorem checkWanted_error {count prevEnd : Nat} {wanted : List (UInt32 × UInt32)} {e : BlobError}
    (h : checkWanted count prevEnd wanted = .error e) : ∃ reason, e = .malformedMessage reason := by
  induction wanted generalizing prevEnd with
  | nil => cases h
  | cons r rest ih =>
    obtain ⟨a, b⟩ := r
    rw [checkWanted] at h
    split at h
    · cases h
      exact ⟨_, rfl⟩
    · exact ih h

theorem WantedOk.lt_count {count : Nat} {wanted : List (UInt32 × UInt32)}
    (h : WantedOk count wanted) {i : Nat}
    (hi : i ∈ wantedIndices wanted) : i < count := by
  obtain ⟨r, hr, -, hlt⟩ := mem_wantedIndices.mp hi
  have := h.within r hr
  omega

theorem WantedOk.ascending {count : Nat} {wanted : List (UInt32 × UInt32)}
    (h : WantedOk count wanted) :
    (wantedIndices wanted).Pairwise (· < ·) := by
  obtain ⟨-, -, hord⟩ := h
  induction wanted with
  | nil => exact List.Pairwise.nil
  | cons r rest ih =>
    have hpair := List.pairwise_cons.mp hord
    rw [wantedIndices, List.flatMap_cons, ← wantedIndices, List.pairwise_append]
    refine ⟨List.pairwise_lt_range', ih hpair.2, ?_⟩
    intro i hi j hj
    have hlow := List.mem_range'_1.mp hi
    obtain ⟨s, hs, hstart, -⟩ := mem_wantedIndices.mp hj
    have hnext := hpair.1 s hs
    omega

theorem WantedOk.length_le {count : Nat} {wanted : List (UInt32 × UInt32)}
    (h : WantedOk count wanted) :
    (wantedIndices wanted).length ≤ count := by
  have hnodup : (wantedIndices wanted).Nodup := h.ascending.imp fun hlt => Nat.ne_of_lt hlt
  have hsub : wantedIndices wanted ⊆ List.range count :=
    fun i hi => List.mem_range.mpr (h.lt_count hi)
  simpa using (hnodup.subperm hsub).length_le

theorem toSendLoop_eq (acc : Nat) (wanted : List (UInt32 × UInt32))
    (hspan : ∀ r ∈ wanted, r.1.toNat < r.2.toNat)
    (hfit : acc + (wantedIndices wanted).length < 2 ^ 32) :
    toSendLoop acc wanted = some (acc + (wantedIndices wanted).length) := by
  induction wanted generalizing acc with
  | nil => rfl
  | cons r rest ih =>
    obtain ⟨a, b⟩ := r
    have hab := hspan (a, b) List.mem_cons_self
    simp only at hab
    have hlen : (wantedIndices ((a, b) :: rest)).length = (b.toNat - a.toNat) +
        (wantedIndices rest).length := by
      simp [wantedIndices]
    rw [hlen] at hfit
    rw [toSendLoop, Machine.sub_eq (by omega), Option.bind_eq_bind,
      Option.bind_some, Machine.add_eq (by omega),
      Option.bind_some, ih _ (fun s hs => hspan s (List.mem_cons_of_mem _ hs)) (by omega), hlen]
    congr 1
    omega

inductive UploadProgress where
  | resumed (received total : Nat)
  | started (totalLen chunkCount : Nat)
  | chunk (index received total bytesReceived : Nat)
  | cancelled (received total : Nat)
  | completed (path : String)
  deriving DecidableEq

inductive Awaited where
  | cancelled
  | reply (r : Reply)

inductive Ack where
  | acked
  | cancelled
  | missing (refusal : Option String)

/-- One turn of the slice loop, as the world decides it. -/
inductive Turn where
  | cancelled
  | unreadable (e : BlobError)
  | unsent (slice : Bytes) (e : BlobError)
  | asked (slice : Bytes) (awaited : List Awaited)

structure PushSlice where
  index : Nat
  key : String
  payload : Bytes

structure Uploading where
  sent : Nat
  bytesSent : Nat
  queries : List PushSlice
  events : List UploadProgress

inductive UploadSrc where
  | path (path : String)
  | source (before after : Option Tier1.SourceFingerprint)

section Run

variable [Postcard UInt32] (lossy : Bytes → String) (describe : BlobError → String)

/-- The first acknowledgement ends the wait; of the refusals the first is kept. -/
def awaitAck (refusal : Option String) : List Awaited → Ack
  | [] => .missing refusal
  | .cancelled :: _ => .cancelled
  | .reply (.ok sample) :: rest =>
    if sample.encoding ≠ encPush then awaitAck refusal rest
    else
      match decode UInt32 sample.payload with
      | .ok _ => .acked
      | .error e => awaitAck (refusal <|> some ("undecodable ack: " ++ describe e)) rest
  | .reply (.error payload) :: rest => awaitAck (refusal <|> some (lossy payload)) rest

variable (m : Manifest) (c : TransferChunks) (pre : String)
variable (world : List PushSlice → Nat → Nat × Nat → Turn)

def Uploading.asking (u : Uploading) (index : Nat) (slice : Bytes) : Uploading :=
  { u with queries := u.queries ++
    [⟨index, pushSliceKey pre m.id.str (UInt32.ofNat index), slice⟩] }

def Uploading.stopped (u : Uploading) : Uploading × Option BlobError :=
  ({ u with events := u.events ++ [.cancelled u.sent c.count] }, some (.cancelled u.sent c.count))

def sliceTurn (u : Uploading) (index : Nat) : Option (Uploading × Option BlobError) := do
  let byteRange ← c.byteRangeMachine index
  match world u.queries index (chunkRange byteRange) with
  | .cancelled => some (u.stopped c)
  | .unreadable e => some (u, some e)
  | .unsent slice e => some (u.asking m pre index slice, some e)
  | .asked slice awaited =>
    let u := u.asking m pre index slice
    match awaitAck lossy describe none awaited with
    | .cancelled => some (u.stopped c)
    | .missing (some reason) => some (u, some (.pushDenied reason))
    | .missing none => some (u, some (.incomplete u.sent c.count))
    | .acked => do
      let sent ← Machine.add 32 u.sent 1
      let len ← c.lenOfMachine index
      let bytesSent ← Machine.add 64 u.bytesSent len
      some ({ u with sent, bytesSent, events := u.events ++ [.chunk index sent c.count bytesSent] },
        none)

def rangeLoop : Uploading → List Nat → Option (Uploading × Option BlobError)
  | u, [] => some (u, none)
  | u, index :: rest => do
    match ← sliceTurn lossy describe m c pre world u index with
    | (u, some e) => some (u, some e)
    | (u, none) => rangeLoop u rest

def spanLoop : Uploading → List (UInt32 × UInt32) → Option (Uploading × Option BlobError)
  | u, [] => some (u, none)
  | u, (a, b) :: rest => do
    match ← rangeLoop lossy describe m c pre world u (List.range' a.toNat (b.toNat - a.toNat)) with
    | (u, some e) => some (u, some e)
    | (u, none) => spanLoop u rest

def closing (u : Uploading) : UploadSrc → Uploading × Result Manifest
  | .path path => ({ u with events := u.events ++ [.completed path] }, .ok m)
  | .source (some before) (some after) =>
    if before ≠ after then
      (u, .error
        (.protocol ("the source behind blob " ++ m.id.debug ++ " changed during the upload (was " ++
        s!"{before.len} bytes, now {after.len}); the receiver holds slices hashed from bytes " ++
        "that no longer exist — re-upload it")))
    else (u, .ok m)
  | .source _ _ => (u, .ok m)

/-- `run_upload` from the offer's reply on; `opened` is the second open of the source. -/
def runUpload (src : UploadSrc) (opened : Result Unit) (wanted : List (UInt32 × UInt32)) :
    Option (Uploading × Result Manifest) :=
  match checkWanted c.count 0 wanted with
  | .error e => some (⟨0, 0, [], []⟩, .error e)
  | .ok () => do
    let toSend ← toSendLoop 0 wanted
    let sent ← Machine.sub c.count toSend
    let first :=
      if toSend < c.count then .resumed sent c.count else .started c.totalLen.toNat c.count
    match opened with
    | .error e => some (⟨sent, 0, [], [first]⟩, .error e)
    | .ok () =>
      match ← spanLoop lossy describe m c pre world ⟨sent, 0, [], [first]⟩ wanted with
      | (u, some e) => some (u, .error e)
      | (u, none) => some (closing m u src)

def Acknowledged (indices : List Nat) : Prop :=
  ∀ past, ∀ i ∈ indices, ∃ slice awaited, world past i (chunkRange (c.byteRange i)) =
    .asked slice awaited ∧
    awaitAck lossy describe none awaited = .acked

/-- What a run over ascending indices leaves: the slices went out for a leading part of them, for
all of them if every one was acknowledged, and the counter has moved with the acknowledgements. -/
structure Went (u u' : Uploading) (err : Option BlobError) (indices asked : List Nat) : Prop where
  leading : asked <+: indices
  queries : u'.queries.map PushSlice.index = u.queries.map PushSlice.index ++ asked
  whole : err = none → asked = indices ∧ u'.sent = u.sent + indices.length
  acked : Acknowledged lossy describe c world indices → err = none

variable {lossy describe m c pre world}

theorem Went.halted {u u' : Uploading} {e : BlobError} {indices asked : List Nat}
    (hlead : asked <+: indices)
    (hqueries : u'.queries.map PushSlice.index = u.queries.map PushSlice.index ++ asked)
    (hnot : ¬ Acknowledged lossy describe c world indices) :
    Went lossy describe c world u u' (some e) indices asked :=
  ⟨hlead, hqueries, fun h => (Option.some_ne_none _ h).elim, fun h => absurd h hnot⟩

theorem sliceTurn_went (u : Uploading) {i : Nat} (hi : i < c.count) (hsent : u.sent + 1 < 2 ^ 32)
    (hbytes : u.bytesSent ≤ (c.byteRange i).1) :
    ∃ u' err asked, sliceTurn lossy describe m c pre world u i = some (u', err) ∧
      Went lossy describe c world u u' err [i] asked ∧
      (err = none → u'.bytesSent ≤ (c.byteRange i).2) := by
  have hindex : i ≤ u32Max := by
    have := c.count_lt
    unfold u32Max
    omega
  have hhalts {e : BlobError} {u' : Uploading} : some e = none →
      u'.bytesSent ≤ (c.byteRange i).2 := by simp
  have hask (h : Acknowledged lossy describe c world [i]) := h u.queries i List.mem_cons_self
  unfold sliceTurn
  simp only [c.byteRangeMachine_eq hindex, Option.bind_eq_bind, Option.bind_some]
  cases hturn : world u.queries i (chunkRange (c.byteRange i)) with
  | cancelled =>
    have hnot : ¬ Acknowledged lossy describe c world [i] := by simpa [hturn] using hask
    exact ⟨_, _, [], rfl, .halted List.nil_prefix (by simp) hnot, hhalts⟩
  | unreadable e =>
    have hnot : ¬ Acknowledged lossy describe c world [i] := by simpa [hturn] using hask
    exact ⟨_, _, [], rfl, .halted List.nil_prefix (by simp) hnot, hhalts⟩
  | unsent slice e =>
    have hnot : ¬ Acknowledged lossy describe c world [i] := by simpa [hturn] using hask
    exact ⟨_, _, [i], rfl, .halted List.prefix_rfl (by simp [Uploading.asking]) hnot, hhalts⟩
  | asked slice awaited =>
    simp only [hturn, Turn.asked.injEq] at hask
    dsimp only
    cases hwait : awaitAck lossy describe none awaited with
    | cancelled =>
      have hnot : ¬ Acknowledged lossy describe c world [i] := by simpa [hwait] using hask
      exact ⟨_, _, [i], rfl, .halted List.prefix_rfl (by simp [Uploading.asking]) hnot, hhalts⟩
    | missing refusal =>
      have hnot : ¬ Acknowledged lossy describe c world [i] := by simpa [hwait] using hask
      cases refusal with
      | some reason =>
        exact ⟨_, _, [i], rfl, .halted List.prefix_rfl (by simp [Uploading.asking]) hnot, hhalts⟩
      | none =>
        exact ⟨_, _, [i], rfl, .halted List.prefix_rfl (by simp [Uploading.asking]) hnot, hhalts⟩
    | acked =>
      have hlen : u.bytesSent + c.lenOf i ≤ (c.byteRange i).2 := by
        have hord := c.byteRange_lt hi
        simp only [TransferChunks.lenOf]
        omega
      have hwide : u.bytesSent + c.lenOf i < 2 ^ 64 := by
        have htotal := c.byteRange_le i
        have hmax := c.totalLen.toNat_lt
        omega
      simp only [Uploading.asking, Machine.add_eq hsent, c.lenOfMachine_eq hindex,
        Machine.add_eq hwide,
        Option.bind_some]
      exact ⟨_, _, [i], rfl, ⟨List.prefix_rfl, by simp, by simp, fun _ => rfl⟩, fun _ => hlen⟩

theorem rangeLoop_went (indices : List Nat) (u : Uploading) (hasc : indices.Pairwise (· < ·))
    (hlt : ∀ i ∈ indices, i < c.count) (hsent : u.sent + indices.length < 2 ^ 32)
    (hbytes : ∀ i ∈ indices, u.bytesSent ≤ (c.byteRange i).1) :
    ∃ u' err asked, rangeLoop lossy describe m c pre world u indices = some (u', err) ∧
      Went lossy describe c world u u' err indices asked := by
  induction indices generalizing u with
  | nil => exact ⟨u, none, [], rfl, List.prefix_rfl, by simp, by simp, fun _ => rfl⟩
  | cons i rest ih =>
    have hpair := List.pairwise_cons.mp hasc
    have hi := hlt i List.mem_cons_self
    simp only [List.length_cons] at hsent
    obtain ⟨u₁, err, first, hturn, hwent, hmoved⟩ :
        ∃ u₁ err first, sliceTurn lossy describe m c pre world u i = some (u₁, err) ∧
          Went lossy describe c world u u₁ err [i] first ∧
          (err = none → u₁.bytesSent ≤ (c.byteRange i).2) :=
      sliceTurn_went u hi (by omega) (hbytes i List.mem_cons_self)
    have htail : Acknowledged lossy describe c world (i :: rest) →
        Acknowledged lossy describe c world [i] := by
      intro h past j hj
      exact h past j (by simp only [List.mem_singleton] at hj; simp [hj])
    cases err with
    | some e =>
      refine ⟨u₁, some e, first,
        by simp [rangeLoop, hturn], ?_, hwent.queries, by simp, fun h => hwent.acked (htail h)⟩
      exact hwent.leading.trans (by simp)
    | none =>
      obtain ⟨hfirst, hcount⟩ := hwent.whole rfl
      simp only [List.length_singleton] at hcount
      have hnext : ∀ j ∈ rest, u₁.bytesSent ≤ (c.byteRange j).1 := by
        intro j hj
        have hij := hpair.1 j hj
        have hj' := hlt j (List.mem_cons_of_mem _ hj)
        have hmove := hmoved rfl
        have hmul : (i + 1) * c.chunkSize.toNat ≤ j * c.chunkSize.toNat :=
          Nat.mul_le_mul_right _ hij
        rw [c.byteRange_snd hi] at hmove
        rw [c.byteRange_fst hj']
        omega
      obtain ⟨u', err', asked, hloop, hrest⟩ :=
        ih u₁ hpair.2 (fun j hj => hlt j (List.mem_cons_of_mem _ hj))
        (by omega) hnext
      refine ⟨u', err', i :: asked, by simp [rangeLoop, hturn, hloop], ?_, ?_, ?_, ?_⟩
      · exact List.cons_prefix_cons.mpr ⟨rfl, hrest.leading⟩
      · rw [hrest.queries, hwent.queries, hfirst]
        simp
      · intro h
        obtain ⟨hall, hsum⟩ := hrest.whole h
        refine ⟨by rw [hall], ?_⟩
        rw [hsum, hcount, List.length_cons]
        omega
      · intro h
        exact hrest.acked fun past j hj => h past j (List.mem_cons_of_mem _ hj)

theorem rangeLoop_append (u : Uploading) (xs ys : List Nat) :
    rangeLoop lossy describe m c pre world u (xs ++ ys) =
      (rangeLoop lossy describe m c pre world u xs).bind fun r =>
        match r with
        | (u, some e) => some (u, some e)
        | (u, none) => rangeLoop lossy describe m c pre world u ys := by
  induction xs generalizing u with
  | nil => rfl
  | cons i xs ih =>
    simp only [List.cons_append, rangeLoop, Option.bind_eq_bind, Option.bind_assoc]
    congr 1
    funext r
    obtain ⟨u₁, err⟩ := r
    cases err with
    | some e => rfl
    | none => exact ih u₁

theorem spanLoop_eq (u : Uploading) (wanted : List (UInt32 × UInt32)) :
    spanLoop lossy describe m c pre world u wanted =
      rangeLoop lossy describe m c pre world u (wantedIndices wanted) := by
  induction wanted generalizing u with
  | nil => rfl
  | cons r rest ih =>
    obtain ⟨a, b⟩ := r
    rw [wantedIndices, List.flatMap_cons, ← wantedIndices, rangeLoop_append]
    simp only [spanLoop, Option.bind_eq_bind]
    congr 1
    funext r
    obtain ⟨u₁, err⟩ := r
    cases err with
    | some e => rfl
    | none => exact ih u₁

omit [Postcard UInt32] in
theorem closing_keeps (m : Manifest) (u : Uploading) (src : UploadSrc) :
    (closing m u src).1.queries = u.queries ∧ (closing m u src).1.sent = u.sent := by
  unfold closing
  split
  · exact ⟨rfl, rfl⟩
  · split <;> exact ⟨rfl, rfl⟩
  · exact ⟨rfl, rfl⟩

end Run

end Zblob

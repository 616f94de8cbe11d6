import Zblob.Transport
import Zblob.Lib.Runs

/-!
The hole-filling loops. A loop never reads the file it writes, so a run of it is
its list of file steps together with its result: the steps are what a crash can
cut short, the result is what the caller sees.
-/

set_option autoImplicit false

namespace Zblob

open ByteFile (Leaf)

def maxRangeSpans : Nat := 128

inductive FillOp where
  | write (offset : Nat) (data : Bytes)
  | commit
  | save (s : ResumeState)

structure TransferStats where
  bytesFetched : Nat
  chunksFetched : Nat
  chunksResumed : Nat
  rejected : Nat
  retries : Nat
  queries : Nat

def TransferStats.default : TransferStats := ⟨0, 0, 0, 0, 0, 0⟩

structure SliceQuery where
  origin : String
  ranges : List (Nat × Nat)

structure Fill where
  state : ResumeState
  noProgress : Nat
  marksSinceSave : Nat
  stats : TransferStats
  asked : List SliceQuery
  ops : List FillOp

def Fill.start (s : ResumeState) (stats : TransferStats) : Fill := ⟨s, 0, 0, stats, [], []⟩

def Fill.ask (v : Fill) (queries : List SliceQuery) : Fill :=
  { v with asked := v.asked ++ queries }

def Fill.countQueries (v : Fill) (n : Nat) : Fill :=
  { v with stats := { v.stats with queries := v.stats.queries + n } }

def Fill.stalled (v : Fill) : Fill :=
  { v with
    noProgress := v.noProgress + 1
    stats := { v.stats with retries := v.stats.retries + 1 } }

inductive Outcome where
  | pending
  | done (r : Result Unit)

/-- What one wait on the reply channel yields. `saveDue` is the clock's part: two
seconds have passed since the last save. -/
inductive Recv where
  | cancelled
  | reply (r : Reply) (saveDue : Bool)

/-- One query: whether the token was set before it, and what came back; `none`
is a query Zenoh refused to issue. -/
structure Round where
  cancelled : Bool
  got : Option (List Recv)

section Single

variable (bao : Bao) (cfg : ClientConfig) (m : Manifest) (c : TransferChunks)

def queryBudget : Nat :=
  max (match m.maxChunksPerQuery with
    | some served => min cfg.maxChunksPerQuery served.toNat
    | none => cfg.maxChunksPerQuery) 1

def clampHoles : Nat → List (Nat × Nat) → List (Nat × Nat)
  | _, [] => []
  | budget, r :: rs =>
    let take := min (r.2 - r.1) budget
    (r.1, r.1 + take) :: clampHoles (budget - take) rs

def holes (s : ResumeState) : List (Nat × Nat) :=
  (clampHoles (queryBudget cfg m) ((s.missingRanges c.count).take maxRangeSpans)).filter
    (fun r => r.1 < r.2)

def leafOps (ls : List Leaf) : List FillOp := ls.map fun l => .write l.1 l.2

/-- Write a verified chunk, then mark it; `persist` is the batched save. -/
def markVerified (persist : Bool) (saveDue : Bool) (v : Fill) (index : Nat)
    (ls : List Leaf) : Fill :=
  let v := { v with ops := v.ops ++ leafOps ls }
  if (v.state.mark index).2 then
    let v := { v with
      state := (v.state.mark index).1
      marksSinceSave := v.marksSinceSave + 1
      stats := { v.stats with
        chunksFetched := v.stats.chunksFetched + 1
        bytesFetched := v.stats.bytesFetched + c.lenOf index } }
    if persist && (decide (v.marksSinceSave ≥ 64) || saveDue) then
      { v with ops := v.ops ++ [.commit, .save v.state], marksSinceSave := 0 }
    else v
  else v

def onReply (persist : Bool) (v : Fill) (r : Reply) (saveDue : Bool) : Fill :=
  match r with
  | .error _ => v
  | .ok sample =>
    if sample.encoding ≠ encSlice then v
    else
      match parseSliceIndex sample.key with
      | none => v
      | some index =>
        if index ≥ c.count ∨ v.state.isSet index = true then v
        else
          match bao.decodeSlice m.root m.totalLen.toNat (chunkRange (c.byteRange index))
              sample.payload with
          | none => { v with stats := { v.stats with rejected := v.stats.rejected + 1 } }
          | some ls => markVerified c persist saveDue v index ls

/-- Drain one reply channel; the flag says that cancellation cut it short. -/
def drain (persist : Bool) : Fill → List Recv → Fill × Bool
  | v, [] => (v, false)
  | v, .cancelled :: _ => (v, true)
  | v, .reply r due :: rest => drain persist (onReply bao m c persist v r due) rest

def persistOps (persist : Bool) (s : ResumeState) : List FillOp :=
  if persist then [.commit, .save s] else [.commit]

def Fill.persisted (v : Fill) (persist : Bool) : Fill :=
  { v with ops := v.ops ++ persistOps persist v.state }

def persistCancel (persist : Bool) (v : Fill) : Fill × Outcome :=
  (v.persisted persist, .done (.error (.cancelled v.state.received c.count)))

def fillHoles (persist : Bool) : Fill → List Round → Fill × Outcome
  | v, [] =>
    if v.state.isComplete c.count then (v.persisted persist, .done (.ok ())) else (v, .pending)
  | v, round :: rest =>
    if v.state.isComplete c.count then (v.persisted persist, .done (.ok ()))
    else if round.cancelled then persistCancel c persist v
    else
      let asked := (v.ask [⟨cfg.origin, holes cfg m c v.state⟩]).countQueries 1
      match round.got with
      | none => (asked, .done (.error .zenoh))
      | some recvs =>
        let (w, cut) := drain bao m c persist asked recvs
        if cut then persistCancel c persist w
        else if w.state.isComplete c.count then (w.persisted persist, .done (.ok ()))
        else if w.state.received = v.state.received then
          if w.stalled.noProgress ≥ cfg.maxAttempts then
            (w.stalled.persisted persist, .done (.error (.incomplete w.state.received c.count)))
          else fillHoles persist w.stalled rest
        else fillHoles persist { w with noProgress := 0 } rest

end Single

structure Availability where
  version : UInt16
  chunkCount : UInt32
  bits : Bytes

def Availability.isSet (a : Availability) (i : Nat) : Bool :=
  decide (i < a.chunkCount.toNat) && decide (i / 8 < a.bits.length % 4294967296) &&
    ((a.bits.getD (i / 8) 0 &&& (1 <<< UInt8.ofNat (i % 8))) != 0)

structure BlobProbe where
  origin : String
  manifest : Manifest
  availability : Option Availability

section Striped

structure Deal where
  assignment : Nat → List Nat
  cursor : Nat

/-- Deal one chunk to `copies` holders. The source's loop has no bound of its own:
`fuel` is the number of turns granted, and running out of it is not returning. -/
def dealOne (live : List Nat) (claims : Nat → Bool) (budget copies idx : Nat) :
    Nat → Nat → Deal → Option Deal
  | 0, dealt, d => if dealt < copies then none else some d
  | fuel + 1, dealt, d =>
    if dealt < copies then
      let h := live.getD (d.cursor % live.length) 0
      let fits := claims h && decide ((d.assignment h).length < budget)
      let d' : Deal := {
        assignment :=
          if fits then fun k => if k = h then d.assignment h ++ [idx] else d.assignment k
          else d.assignment
        cursor := d.cursor + 1 }
      let dealt' := if fits then dealt + 1 else dealt
      if d'.cursor % live.length = 0 ∧ dealt' = 0 then some d'
      else dealOne live claims budget copies idx fuel dealt' d'
    else some d

def dealAll (live : List Nat) (claims : Nat → Nat → Bool) (budget copies fuel : Nat) :
    List Nat → Deal → Option Deal
  | [], d => some d
  | idx :: rest, d =>
    match dealOne live (claims idx) budget copies idx fuel 0 d with
    | none => none
    | some d' => dealAll live claims budget copies fuel rest d'

inductive StripedRecv where
  | cancelled
  | reply (holder : Nat) (r : Reply)

/-- One striping round. `fuel` bounds the dealing loop; replies of the holders
arrive in any order. -/
structure StripedRound where
  cancelled : Bool
  fuel : Nat
  recvs : List StripedRecv

def coalesceFrom : Option (Nat × Nat) → List Nat → List (Nat × Nat)
  | none, [] => []
  | some last, [] => [last]
  | none, i :: rest => coalesceFrom (some (i, i + 1)) rest
  | some last, i :: rest =>
    if last.2 = i then coalesceFrom (some (last.1, i + 1)) rest
    else last :: coalesceFrom (some (i, i + 1)) rest

def coalesce (indices : List Nat) : List (Nat × Nat) :=
  (coalesceFrom none indices).take maxRangeSpans

structure Stripe where
  fill : Fill
  rejects : Nat → Nat

variable (bao : Bao) (cfg : ClientConfig) (m : Manifest) (c : TransferChunks)
  (holders : List BlobProbe)

def liveHolders (rejects : Nat → Nat) : List Nat :=
  (List.range holders.length).filter fun i => rejects i < max cfg.maxAttempts 1 * 8

def dealRound (live : List Nat) (s : ResumeState) (fuel : Nat) : Option Deal :=
  let missing := (List.range c.count).filter fun i => !s.isSet i
  let endgame := decide (missing.length ≤ max live.length 2 * 2)
  let copies := if endgame then min 2 live.length else 1
  let budget := queryBudget cfg m
  dealAll live (fun idx h => match (holders[h]?).bind BlobProbe.availability with
      | none => true
      | some a => a.isSet idx)
    budget copies fuel (missing.take (budget * live.length)) ⟨fun _ => [], 0⟩

/-- One reply as its holder's task and then the collecting loop see it. The task
verifies before it knows whether the index is one the loop will keep. -/
def onStripedReply (st : Stripe) (holder : Nat) (r : Reply) : Stripe :=
  match r with
  | .error _ => st
  | .ok sample =>
    if sample.encoding ≠ encSlice then st
    else
      match parseSliceIndex sample.key with
      | none => st
      | some index =>
        match bao.decodeSlice m.root m.totalLen.toNat (chunkRange (c.byteRange index))
            sample.payload with
        | none =>
          { fill := { st.fill with
              stats := { st.fill.stats with rejected := st.fill.stats.rejected + 1 } }
            rejects := fun k => if k = holder then st.rejects k + 1 else st.rejects k }
        | some ls =>
          if index ≥ c.count ∨ st.fill.state.isSet index = true then st
          else { st with fill := markVerified c false false st.fill index ls }

/-- Only holders with a non-empty share were asked anything. -/
def stripedDrain (asked : Nat → Bool) : Stripe → List StripedRecv → Stripe × Bool
  | st, [] => (st, false)
  | st, .cancelled :: _ => (st, true)
  | st, .reply holder r :: rest =>
    stripedDrain asked (if asked holder then onStripedReply bao m c st holder r else st) rest

def dealtTo (live : List Nat) (deal : Deal) : List Nat :=
  live.filter fun h => !(deal.assignment h).isEmpty

def shareQueries (live : List Nat) (deal : Deal) : List SliceQuery :=
  (dealtTo live deal).map fun h =>
    ⟨((holders[h]?).map BlobProbe.origin).getD "", coalesce (deal.assignment h)⟩

def fillHolesStriped : Stripe → List StripedRound → Fill × Outcome
  | st, [] =>
    if st.fill.state.isComplete c.count then (st.fill.persisted true, .done (.ok ()))
    else (st.fill, .pending)
  | st, round :: rest =>
    let v := st.fill
    if v.state.isComplete c.count then (v.persisted true, .done (.ok ()))
    else if round.cancelled then persistCancel c true v
    else
      let live := liveHolders cfg holders st.rejects
      if live.isEmpty then (v, .done (.error (.incomplete v.state.received c.count)))
      else
        match dealRound cfg m c holders live v.state round.fuel with
        | none => (v, .pending)
        | some deal =>
          let asked := { st with fill := v.ask (shareQueries holders live deal) }
          let (st', cut) := stripedDrain bao m c (dealtTo live deal).contains asked round.recvs
          if cut then persistCancel c true st'.fill
          else
            let w := (st'.fill.countQueries live.length).persisted true
            if w.state.isComplete c.count then (w.persisted true, .done (.ok ()))
            else if w.state.received = v.state.received then
              if w.stalled.noProgress ≥ cfg.maxAttempts then
                (w.stalled, .done (.error (.incomplete w.state.received c.count)))
              else fillHolesStriped { fill := w.stalled, rejects := st'.rejects } rest
            else fillHolesStriped { fill := { w with noProgress := 0 }, rejects := st'.rejects }
              rest

end Striped

end Zblob

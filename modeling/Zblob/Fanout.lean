import Zblob.Download

/-!
The fan-out receiver: one stream of frames that anybody may publish to. Phase A waits
for an acceptable manifest and buffers early slices, phase B fills the file.
-/

set_option autoImplicit false

namespace Zblob

open ByteFile (Leaf)
open Runs (run)

inductive FanoutFrame where
  | manifest (m : Manifest)
  | slice (index : UInt32) (bao : Bytes)

structure FanoutMessage where
  version : UInt16
  frame : FanoutFrame

structure FanoutConfig where
  maxEarlyBytes : Nat
  maxBlobSize : UInt64

def earlySliceMaxFrames : Nat := 512

/-- What a turn of either receive loop yields: a sample, the token set, or no
progress within the budget (a timeout, a closed stream, or an exhausted clock). -/
inductive FanoutRecv where
  | sample (s : Sample)
  | cancelled
  | stalled

section Frames

variable [Postcard FanoutMessage]

def fanoutFrame (s : Sample) : Option FanoutFrame :=
  if s.encoding ≠ encFanout then none
  else
    match decode FanoutMessage s.payload with
    | .error _ => none
    | .ok msg => if msg.version ≠ wireVersion then none else some msg.frame

variable (bao : Bao) (cfg : FanoutConfig)

def fanoutVerdict (id : String) (expectedRoot : Option Hash) (m : Manifest) :
    Result TransferChunks := do
  m.validate cfg.maxBlobSize
  if m.id.str ≠ id then
    .error (.malformedMessage
      ("fanout manifest id " ++ m.id.debug ++ " does not match " ++ debugStr id))
  else
    match expectedRoot.filter (m.root ≠ ·) with
    | some expected => .error (.rootMismatch expected m.root)
    | none =>
      if m.totalLen = 0 ∧ m.root ≠ bao.hash [] then
        .error (.rootMismatch (bao.hash []) m.root)
      else m.chunks

structure PhaseA where
  early : List (UInt32 × Bytes)
  earlyBytes : Nat
  deferredReject : Option BlobError

def PhaseA.start : PhaseA := ⟨[], 0, none⟩

/-- How phase A stands: still listening, failed, or settled on a manifest with the
buffered slices and the rest of the stream. -/
inductive Settled where
  | pending
  | failed (e : BlobError)
  | manifest (m : Manifest) (c : TransferChunks) (early : List (UInt32 × Bytes))
      (rest : List FanoutRecv)

def bufferSlice (a : PhaseA) (index : UInt32) (data : Bytes) : PhaseA :=
  if a.early.length < earlySliceMaxFrames ∧ a.earlyBytes + data.length ≤ cfg.maxEarlyBytes then
    { a with early := a.early ++ [(index, data)], earlyBytes := a.earlyBytes + data.length }
  else a

def phaseA (id : String) (expectedRoot : Option Hash) : PhaseA → List FanoutRecv → Settled
  | _, [] => .pending
  | a, .stalled :: _ => .failed (a.deferredReject.getD (.incomplete 0 0))
  | _, .cancelled :: _ => .failed (.cancelled 0 0)
  | a, .sample s :: rest =>
    match fanoutFrame s with
    | none => phaseA id expectedRoot a rest
    | some (.slice index data) => phaseA id expectedRoot (bufferSlice cfg a index data) rest
    | some (.manifest m) =>
      match fanoutVerdict bao cfg id expectedRoot m with
      | .ok c => .manifest m c a.early rest
      | .error e =>
        phaseA id expectedRoot { a with deferredReject := a.deferredReject <|> some e } rest

end Frames

structure PhaseB where
  present : List Bool
  received : Nat
  stats : TransferStats
  ops : List FillOp

def PhaseB.start (c : TransferChunks) : PhaseB :=
  ⟨List.replicate c.count false, 0, TransferStats.default, []⟩

section Slices

variable (bao : Bao) (m : Manifest) (c : TransferChunks)

def applySlice (b : PhaseB) (index : UInt32) (data : Bytes) : PhaseB :=
  let index := index.toNat
  if index ≥ c.count ∨ b.present.getD index false = true then b
  else
    match bao.decodeSlice m.root m.totalLen.toNat (chunkRange (c.byteRange index)) data with
    | none => { b with stats := { b.stats with rejected := b.stats.rejected + 1 } }
    | some ls =>
      { present := b.present.set index true
        received := b.received + 1
        stats := { b.stats with
          chunksFetched := b.stats.chunksFetched + 1
          bytesFetched := b.stats.bytesFetched + c.lenOf index }
        ops := b.ops ++ leafOps ls }

def applyEarly (b : PhaseB) (early : List (UInt32 × Bytes)) : PhaseB :=
  early.foldl (fun b s => applySlice bao m c b s.1 s.2) b

def phaseB [Postcard FanoutMessage] : PhaseB → List FanoutRecv → PhaseB × Outcome
  | b, [] => if b.received < c.count then (b, .pending) else (b, .done (.ok ()))
  | b, r :: rest =>
    if b.received < c.count then
      match r with
      | .stalled => (b, .done (.error (.incomplete b.received c.count)))
      | .cancelled => (b, .done (.error (.cancelled b.received c.count)))
      | .sample s =>
        match fanoutFrame s with
        | some (.slice index data) => phaseB (applySlice bao m c b index data) rest
        | _ => phaseB b rest
    else (b, .done (.ok ()))

end Slices

section Receive

variable [Postcard FanoutMessage] (bao : Bao) (cfg : FanoutConfig)

/-- `receive_fanout`. `metaStays` of the destination plays no part: there is no
sidecar, and a failed transfer removes its partial. -/
def receiveFanout (d : Disk) (dst : Dest) (id : String) (expectedRoot : Option Hash)
    (recvs : List FanoutRecv) : Ran :=
  if dst.refusesNow d then .refused (.destinationExists dst.path)
  else
    match phaseA bao cfg id expectedRoot PhaseA.start recvs with
    | .pending => ⟨[], none, none⟩
    | .failed e => .refused e
    | .manifest m c early rest =>
      let (b, outcome) := phaseB bao m c (applyEarly bao m c (PhaseB.start c) early) rest
      let ops := [.createPart, .setLenPart m.totalLen.toNat] ++ b.ops.map .fill
      match outcome with
      | .pending => ⟨ops, some m, none⟩
      | .done (.error e) => ⟨ops ++ [.removePart], some m, some (.error e)⟩
      | .done (.ok ()) =>
        let synced := ops ++ [.fill .commit]
        if dst.overwrite = .refuse ∧ dst.appeared = true then
          ⟨synced, some m, some (.error (.destinationExists dst.path))⟩
        else ⟨synced ++ [.renamePart], some m, some (.ok b.stats)⟩

end Receive

end Zblob

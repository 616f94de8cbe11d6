import Zblob.FillSafety

/-!
The download calls of the client as lists of filesystem steps. A call reads the disk
once, when it opens its partial; after that only its own steps change it.
-/

set_option autoImplicit false

namespace Zblob

open ByteFile (setLen writeAt window)
open Runs (run)

inductive Overwrite where
  | refuse
  | replace
  deriving DecidableEq

inductive Sidecar where
  | unreadable
  | state (s : ResumeState)

structure Disk where
  dest : Option Bytes
  part : Option Bytes
  sidecar : Option Sidecar

def Disk.empty : Disk := ⟨none, none, none⟩

def Disk.load (d : Disk) : Option ResumeState :=
  match d.sidecar with
  | some (.state s) => some s
  | _ => none

/-- The filesystem steps of the client. Saving the sidecar is one step: its bytes
are synced under a temporary name and then renamed into place. -/
inductive FsOp where
  | createPart
  | setLenPart (n : Nat)
  | fill (op : FillOp)
  | renamePart
  | removePart
  | removeMeta

def Disk.apply (op : FsOp) (d : Disk) : Disk :=
  match op with
  | .createPart => { d with part := some [] }
  | .setLenPart n => { d with part := d.part.map fun f => setLen f n }
  | .fill (.write offset data) => { d with part := d.part.map fun f => writeAt f offset data }
  | .fill .commit => d
  | .fill (.save s) => { d with sidecar := some (.state s) }
  | .renamePart =>
    match d.part with
    | some f => { d with dest := some f, part := none }
    | none => d
  | .removePart => { d with part := none }
  | .removeMeta => { d with sidecar := none }

/-- Where a call delivers to. `appeared` says that another process has created the
destination by the time of the late check, `metaStays` that the best-effort removal
of the sidecar fails. -/
structure Dest where
  path : String
  overwrite : Overwrite
  appeared : Bool
  metaStays : Bool

/-- A call up to some moment: its filesystem steps, the manifest it has settled on, and
its result once it has one. -/
structure Ran where
  ops : List FsOp
  manifest : Option Manifest
  result : Option (Result TransferStats)

def Ran.refused (e : BlobError) : Ran := ⟨[], none, some (.error e)⟩

def startFresh (m : Manifest) (c : TransferChunks) : List FsOp × ResumeState :=
  let fresh := ResumeState.fresh m c.count
  ([.createPart, .setLenPart m.totalLen.toNat, .fill (.save fresh)], fresh)

def resumes (d : Disk) (m : Manifest) (c : TransferChunks) (s : ResumeState) : Bool :=
  s.matchesManifest m c.count && d.part.map List.length == some m.totalLen.toNat

def openPart (d : Disk) (m : Manifest) (c : TransferChunks) : List FsOp × ResumeState :=
  match d.load with
  | some s => if resumes d m c s then ([], s) else startFresh m c
  | none => startFresh m c

def Dest.refusesNow (dst : Dest) (d : Disk) : Bool := dst.overwrite == .refuse && d.dest.isSome

def Dest.finish (dst : Dest) (m : Manifest) (opened : List FsOp) (filled : Fill × Outcome) : Ran :=
  let ops := opened ++ filled.1.ops.map .fill
  match filled.2 with
  | .pending => ⟨ops, some m, none⟩
  | .done (.error e) => ⟨ops, some m, some (.error e)⟩
  | .done (.ok ()) =>
    let synced := ops ++ [.fill .commit]
    if dst.overwrite = .refuse ∧ dst.appeared = true then
      ⟨synced, some m, some (.error (.destinationExists dst.path))⟩
    else
      ⟨synced ++ .renamePart :: (if dst.metaStays then [] else [.removeMeta]), some m,
        some (.ok filled.1.stats)⟩

def Fill.resume (s : ResumeState) : Fill :=
  Fill.start s { TransferStats.default with chunksResumed := s.received }

section Calls

variable [Postcard Manifest] (bao : Bao) (cfg : ClientConfig)

def downloadToInner (d : Disk) (dst : Dest) (req : DownloadRequest) (query : Option (List Reply))
    (rounds : List Round) : Ran :=
  if dst.refusesNow d then .refused (.destinationExists dst.path)
  else
    match start bao cfg req query with
    | .error e => .refused e
    | .ok (m, c) =>
      let opened := openPart d m c
      dst.finish m opened.1 (fillHoles bao cfg m c true (Fill.resume opened.2) rounds)

/-- The manifest of a striped transfer is the first holder's; the others must agree
on its root. -/
def stripedManifest (req : DownloadRequest) (holders : List BlobProbe) (first : BlobProbe) :
    Result (Manifest × TransferChunks) :=
  let m := first.manifest
  match req.expectedRoot.filter (m.root ≠ ·) with
  | some expected => .error (.rootMismatch expected m.root)
  | none =>
    if holders.any fun h => h.manifest.root ≠ m.root then
      .error (.malformedMessage
        "holders disagree about this blob's root; probe again and pick one set")
    else m.chunks.map fun c => (m, c)

def downloadStripedInner (d : Disk) (dst : Dest) (req : DownloadRequest) (first : BlobProbe)
    (holders : List BlobProbe) (rounds : List StripedRound) : Ran :=
  if dst.refusesNow d then .refused (.destinationExists dst.path)
  else
    match stripedManifest req holders first with
    | .error e => .refused e
    | .ok (m, c) =>
      let opened := openPart d m c
      dst.finish m opened.1
        (fillHolesStriped bao cfg m c holders ⟨Fill.resume opened.2, fun _ => 0⟩ rounds)

/-- Fewer than two holders are an ordinary download, with its own manifest query and
slice rounds. -/
def runDownloadStriped (d : Disk) (dst : Dest) (req : DownloadRequest) (holders : List BlobProbe)
    (query : Option (List Reply)) (rounds : List Round) (striped : List StripedRound) : Ran :=
  match holders with
  | first :: second :: rest =>
    downloadStripedInner bao cfg d dst req first (first :: second :: rest) striped
  | _ => downloadToInner bao cfg d dst req query rounds

def deletePartial (partStays metaStays : Bool) : List FsOp :=
  (if partStays then [] else [.removePart]) ++ if metaStays then [] else [.removeMeta]

/-- A writer download: no partial and no sidecar, so its steps are the loop's own. -/
structure WriterRan where
  ops : List FillOp
  manifest : Option Manifest
  result : Option (Result TransferStats)

def runDownloadToWriter (req : DownloadRequest) (query : Option (List Reply))
    (rounds : List Round) :
    WriterRan :=
  match start bao cfg req query with
  | .error e => ⟨[], none, some (.error e)⟩
  | .ok (m, c) =>
    let filled := fillHoles bao cfg m c false
      (Fill.start (ResumeState.fresh m c.count) TransferStats.default) rounds
    ⟨filled.1.ops, some m,
      match filled.2 with
      | .pending => none
      | .done (.error e) => some (.error e)
      | .done (.ok ()) => some (.ok filled.1.stats)⟩

end Calls

def Disk.target (d : Disk) (f : Bytes) : Target := ⟨f, d.load⟩

theorem apply_fill (d : Disk) (f : Bytes) (hf : d.part = some f) (op : FillOp) :
    (d.apply (.fill op)).part = some ((d.target f).apply op).file ∧
      (d.apply (.fill op)).load = ((d.target f).apply op).saved ∧
      (d.apply (.fill op)).dest = d.dest := by
  cases op <;> simp [Disk.apply, Target.apply, Disk.target, hf, Disk.load]

/-- Run on a disk, the loop's steps do to the partial and the sidecar what they do to
the loop's target, and leave the destination alone. -/
theorem run_fill (ops : List FillOp) (d : Disk) (f : Bytes) (hf : d.part = some f) :
    (run Disk.apply (ops.map .fill) d).part = some (run Target.apply ops (d.target f)).file ∧
      (run Disk.apply (ops.map .fill) d).load = (run Target.apply ops (d.target f)).saved ∧
      (run Disk.apply (ops.map .fill) d).dest = d.dest := by
  induction ops generalizing d f with
  | nil => exact ⟨hf, rfl, rfl⟩
  | cons op ops ih =>
    obtain ⟨hpart, hload, hdest⟩ := apply_fill d f hf op
    have ht : (d.apply (.fill op)).target ((d.target f).apply op).file = (d.target f).apply op := by
      rw [Disk.target, hload]
    obtain ⟨h1, h2, h3⟩ := ih _ _ hpart
    rw [ht] at h1 h2
    exact ⟨h1, h2, h3.trans hdest⟩

end Zblob

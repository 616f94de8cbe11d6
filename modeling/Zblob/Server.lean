import Zblob.Spool
import Zblob.Lib.Pool
import Mathlib.Data.List.AList

/-!
The push side of the server: the registry, the map of pushes in progress and the handlers
that share them. A handler takes one step from one await point to the next, so an
interleaving is any sequence of steps of any handlers.
-/

set_option autoImplicit false

namespace Zblob

open ByteFile (Leaf)

structure PushConfig where
  allow : Manifest → Option Bytes → Bool
  maxBlobSize : UInt64
  maxConcurrent : Nat
  idleTimeout : Nat

structure Env where
  bao : Bao
  push : PushConfig
  maxChunksPerQuery : UInt32

inductive BlobSource where
  | spooled
  | given
  deriving DecidableEq

structure Registered where
  manifest : Manifest
  chunks : TransferChunks
  source : BlobSource
  outboardRoot : Hash
  outboardLen : Nat

/-- A push in progress. `gen` numbers the insertions into the map; the server does not
have it, and no step depends on it. -/
structure PushEntry where
  manifest : Manifest
  chunks : TransferChunks
  state : ResumeState
  lastActivity : Nat
  dirtyMarks : Nat
  gen : Nat
  geometry : manifest.chunks = .ok chunks

def PushEntry.touch (e : PushEntry) (now : Nat) : PushEntry := { e with lastActivity := now }

def PushEntry.mark (e : PushEntry) (index : Nat) : PushEntry :=
  { e with
    state := (e.state.mark index).1
    dirtyMarks := if (e.state.mark index).2 then e.dirtyMarks + 1 else e.dirtyMarks }

def PushEntry.clean (e : PushEntry) : PushEntry := { e with dirtyMarks := 0 }

abbrev Pushes := AList (fun _ : String => PushEntry)

inductive Fate where
  | opened
  | finalizing
  | served
  | lost
  deriving DecidableEq

/-- What has happened so far, for the statements about it; no step reads it. -/
structure History where
  offered : List (String × Manifest)
  nextGen : Nat
  origin : Nat → Option Manifest
  fate : Nat → Fate
  accepted : List (Nat × Manifest)

structure Shared where
  registry : String → Option Registered
  pushes : Pushes
  spool : Spool
  now : Nat
  history : History

def History.setFate (h : History) (gen : Nat) (fate : Fate) : History :=
  { h with fate := Function.update h.fate gen fate }

def Shared.setFate (s : Shared) (gen : Nat) (fate : Fate) : Shared :=
  { s with history := s.history.setFate gen fate }

def Shared.tick (s : Shared) (d : Nat) : Shared := { s with now := s.now + d }

def Shared.noteOffer (s : Shared) (keyId : String) (m : Manifest) : Shared :=
  { s with history := { s.history with offered := (keyId, m) :: s.history.offered } }

def Shared.noteAccepted (s : Shared) (gen : Option Nat) (m : Manifest) : Shared :=
  { s with history := { s.history with
      accepted := (gen.map fun g => (g, m)).toList ++ s.history.accepted } }

def Shared.serve (s : Shared) (id : String) (r : Registered) : Shared :=
  { s with registry := Function.update s.registry id (some r) }

def Shared.unserve (s : Shared) (id : String) : Shared :=
  { s with registry := Function.update s.registry id none }

def Shared.put (s : Shared) (id : String) (e : PushEntry) : Shared :=
  { s with pushes := s.pushes.insert id e }

def Shared.erase (s : Shared) (id : String) : Shared := { s with pushes := s.pushes.erase id }

def Shared.onSpool (s : Shared) (spool : Spool) : Shared := { s with spool := spool }

def Shared.open (s : Shared) (id : String) (e : PushEntry) : Shared :=
  { s.put id e with
    history := { s.history with
      nextGen := s.history.nextGen + 1
      origin := Function.update s.history.origin e.gen (some e.manifest)
      fate := Function.update s.history.fate e.gen .opened } }

/-- Why an offer was answered as it was: from a served blob, from the push found in the
first critical section, from the entry it inserted, or from one that appeared meanwhile. -/
inductive Answered where
  | registry (m : Manifest)
  | found (m : Manifest) (gen : Nat)
  | inserted (m : Manifest) (gen : Nat)
  | joined (m : Manifest) (gen : Nat)

def Answered.gen : Answered → Option Nat
  | .registry _ => none
  | .found _ gen => some gen
  | .inserted _ gen => some gen
  | .joined _ gen => some gen

def Answered.manifest : Answered → Manifest
  | .registry m => m
  | .found m _ => m
  | .inserted m _ => m
  | .joined m _ => m

structure Answer where
  wanted : List (Nat × Nat)
  source : Answered

structure Offered where
  manifest : Manifest
  chunks : TransferChunks
  geometry : manifest.chunks = .ok chunks

def Offered.id (o : Offered) : String := o.manifest.id.str

/-- A slice query. `push` names the accepted offer it belongs to, if any. -/
structure SliceReq where
  id : String
  index : Nat
  payload : Bytes
  token : Option Bytes
  push : Option (Nat × Manifest)

inductive Fin where
  | take
  | rename (e : PushEntry)
  | removeMeta (e : PushEntry)
  | hash (e : PushEntry)
  | removeBad (e : PushEntry) (actual : Hash)
  | register (e : PushEntry) (root : Hash) (len : Nat)
  | removeDup (e : PushEntry) (same : Bool)

inductive FinOut where
  | go (f : Fin)
  | ok
  | failed (e : BlobError)

inductive CleanupOp where
  | part (id : String)
  | sidecar (id : String)

inductive AfterCleanup where
  | resumed (a : Answer)
  | overCap
  | fresh

inductive OfferPc where
  | registry
  | first
  | cleanup (todo : List CleanupOp) (next : AfterCleanup)
  | probe
  | load (existingLen : Option Nat)
  | create
  | setLen (ino : Nat)
  | save
  | insert (state : ResumeState)
  | finalize (f : Fin) (a : Answer)
  | reply (a : Answer)

structure Snapshot where
  manifest : Manifest
  chunks : TransferChunks
  gen : Nat

inductive SlicePc where
  | snapshot
  | registry
  | write (snap : Snapshot) (ls : List Leaf)
  | mark (snap : Snapshot)
  | save (snap : Snapshot) (state : ResumeState) (remaining : Nat)
  | finalize (f : Fin)
  | reply (remaining : Nat)

inductive Task where
  | offer (o : Offered) (pc : OfferPc)
  | slice (r : SliceReq) (pc : SlicePc)

/-- Where a handler goes from a step: on, or to its end with a reply (`none` is an error). -/
inductive Out (π ρ : Type) where
  | go (pc : π)
  | done (r : Option ρ)

section Handlers

variable (env : Env)

/-- One step of `finalize_push`. A failed removal is ignored, any other failed file
operation ends the call. -/
def finStep (s : Shared) (ok : Bool) (id : String) : Fin → Shared × FinOut
  | .take =>
    match s.pushes.lookup id with
    | none => (s, .ok)
    | some e => ((s.erase id).setFate e.gen .finalizing, .go (.rename e))
  | .rename e =>
    match (if ok then s.spool.renamePart id else none) with
    | none => (s.setFate e.gen .lost, .failed .io)
    | some spool => (s.onSpool spool, .go (.removeMeta e))
  | .removeMeta e =>
    (if ok then s.onSpool (s.spool.removeMeta id) else s, .go (.hash e))
  | .hash e =>
    match (if ok then s.spool.blobFile id else none) with
    | none => (s.setFate e.gen .lost, .failed .io)
    | some content =>
      let actual := env.bao.hash content
      if actual ≠ e.manifest.root ∨ content.length ≠ e.manifest.totalLen.toNat then
        (s, .go (.removeBad e actual))
      else (s, .go (.register e actual content.length))
  | .removeBad e actual =>
    ((if ok then s.onSpool (s.spool.removeBlob id) else s).setFate e.gen .lost,
      .failed (.rootMismatch e.manifest.root actual))
  | .register e root len =>
    match s.registry id with
    | some existing => (s, .go (.removeDup e (existing.manifest.root = e.manifest.root)))
    | none =>
      ((s.serve e.manifest.id.str ⟨e.manifest, e.chunks, .spooled, root, len⟩).setFate
        e.gen .served,
        .ok)
  | .removeDup e same =>
    ((if ok then s.onSpool (s.spool.removeBlob id) else s).setFate e.gen
        (if same then .served else .lost),
      if same then .ok
      else .failed (.pushDenied "id was registered with different content during the push"))

def stale (s : Shared) : List String :=
  s.pushes.keys.filter fun id =>
    match s.pushes.lookup id with
    | some e => decide (s.now - e.lastActivity > env.push.idleTimeout)
    | none => false

def Shared.drop (s : Shared) (id : String) : Shared :=
  match s.pushes.lookup id with
  | some e => (s.erase id).setFate e.gen .lost
  | none => s

def evict (s : Shared) : Shared := (stale env s).foldl Shared.drop s

def cleanupOps (evicted : List String) : List CleanupOp :=
  evicted.flatMap fun id => [.part id, .sidecar id]

def CleanupOp.apply (sp : Spool) : CleanupOp → Spool
  | .part id => sp.removePart id
  | .sidecar id => sp.removeMeta id

def answerOffer (a : Answer) : OfferPc :=
  if a.wanted.isEmpty then .finalize .take a else .reply a

def offerStep (s : Shared) (ok : Bool) (o : Offered) : OfferPc → Shared × Out OfferPc Answer
  | .registry =>
    match s.registry o.id with
    | some existing =>
      if existing.manifest.root = o.manifest.root then
        (s, .go (.reply ⟨[], .registry existing.manifest⟩))
      else (s, .done none)
    | none => (s, .go .first)
  | .first =>
    let evicted := stale env s
    let s := evict env s
    match s.pushes.lookup o.id with
    | some e =>
      if e.manifest.root ≠ o.manifest.root ∨ e.manifest.totalLen ≠ o.manifest.totalLen ∨
          e.manifest.chunkSize ≠ o.manifest.chunkSize then (s, .done none)
      else
        (s.put o.id (e.touch s.now),
          .go (.cleanup (cleanupOps evicted)
            (.resumed ⟨e.state.missingRanges o.chunks.count, .found e.manifest e.gen⟩)))
    | none =>
      (s, .go (.cleanup (cleanupOps evicted)
        (if s.pushes.keys.length ≥ env.push.maxConcurrent then .overCap else .fresh)))
  | .cleanup (op :: todo) next =>
    (if ok then s.onSpool (op.apply s.spool) else s, .go (.cleanup todo next))
  | .cleanup [] (.resumed a) => (s, .go (answerOffer a))
  | .cleanup [] .overCap => (s, .done none)
  | .cleanup [] .fresh => (s, .go .probe)
  | .probe =>
    (s, .go (.load (if ok then (s.spool.partFile o.id).map List.length else none)))
  | .load existingLen =>
    match (if ok then s.spool.load o.id else none) with
    | some st =>
      if st.matchesManifest o.manifest o.chunks.count &&
          existingLen == some o.manifest.totalLen.toNat then (s, .go (.insert st))
      else (s, .go .create)
    | none => (s, .go .create)
  | .create =>
    if ok then
      let created := s.spool.createPart o.id
      (s.onSpool created.1, .go (.setLen created.2))
    else (s, .done none)
  | .setLen ino =>
    if ok then
      (s.onSpool (s.spool.setLenAt ino o.manifest.totalLen.toNat), .go .save)
    else (s, .done none)
  | .save =>
    let fresh := ResumeState.fresh o.manifest o.chunks.count
    if ok then (s.onSpool (s.spool.save o.id fresh), .go (.insert fresh))
    else (s, .done none)
  | .insert state =>
    match s.pushes.lookup o.id with
    | some e =>
      (s, .go (answerOffer ⟨e.state.missingRanges o.chunks.count, .joined e.manifest e.gen⟩))
    | none =>
      if s.pushes.keys.length ≥ env.push.maxConcurrent then (s, .done none)
      else
        let gen := s.history.nextGen
        (s.open o.id ⟨o.manifest, o.chunks, state, s.now, 0, gen, o.geometry⟩,
          .go (answerOffer ⟨state.missingRanges o.chunks.count, .inserted o.manifest gen⟩))
  | .finalize f a =>
    match finStep env s ok o.id f with
    | (s, .go f) => (s, .go (.finalize f a))
    | (s, .ok) => (s, .go (.reply a))
    | (s, .failed _) => (s, .done none)
  | .reply a =>
    if ok then (s.noteAccepted a.source.gen o.manifest, .done (some a)) else (s, .done none)

def remainingOf (count received : Nat) : Nat := (count + 4294967296 - received) % 4294967296

def sliceStep (s : Shared) (ok : Bool) (r : SliceReq) : SlicePc → Shared × Out SlicePc Nat
  | .snapshot =>
    match s.pushes.lookup r.id with
    | none => (s, .go .registry)
    | some e =>
      let s := s.put r.id (e.touch s.now)
      let snap : Snapshot := ⟨e.manifest, e.chunks, e.gen⟩
      if env.push.allow e.manifest r.token = false ∨ r.index ≥ e.chunks.count then (s, .done none)
      else if e.state.isSet r.index then (s, .go (.mark snap))
      else
        match env.bao.decodeSlice e.manifest.root e.manifest.totalLen.toNat
            (chunkRange (e.chunks.byteRange r.index)) r.payload with
        | none => (s, .done none)
        | some ls => (s, .go (.write snap ls))
  | .registry => if (s.registry r.id).isSome then (s, .go (.reply 0)) else (s, .done none)
  | .write snap ls =>
    match (if ok then s.spool.writePart r.id ls else none) with
    | none => (s, .done none)
    | some spool => (s.onSpool spool, .go (.mark snap))
  | .mark snap =>
    match s.pushes.lookup r.id with
    | none => (s, .done (some 0))
    | some e =>
      let marked := e.mark r.index
      let remaining := remainingOf snap.chunks.count marked.state.received
      if remaining = 0 ∨ marked.dirtyMarks ≥ 16 then
        (s.put r.id marked.clean, .go (.save snap marked.state remaining))
      else (s.put r.id marked, .go (.reply remaining))
  | .save _ state remaining =>
    if ok then
      (s.onSpool (s.spool.save r.id state),
        .go (if remaining = 0 then .finalize .take else .reply remaining))
    else (s, .done none)
  | .finalize f =>
    match finStep env s ok r.id f with
    | (s, .go f) => (s, .go (.finalize f))
    | (s, .ok) => (s, .go (.reply 0))
    | (s, .failed _) => (s, .done none)
  | .reply remaining => if ok then (s, .done (some remaining)) else (s, .done none)

def admitOffer [Postcard Manifest] (keyId : String) (payload : Option Bytes)
    (token : Option Bytes) :
    Option Offered := do
  let payload ← payload
  let m ← Postcard.fromBytes payload
  if (m.validate env.push.maxBlobSize).isOk ∧ m.id.str = keyId ∧ env.push.allow m token = true then
    match h : m.chunks with
    | .ok c => some ⟨m, c, h⟩
    | .error _ => none
  else none

def finishRegister (s : Shared) (spec : BlobSpec) (root : Hash) (totalLen : UInt64) :
    Shared × Result Manifest :=
  match BlobId.new spec.id, TransferChunks.new spec.chunkSize totalLen with
  | .error e, _ => (s, .error e)
  | .ok _, .error e => (s, .error e)
  | .ok id, .ok chunks =>
    let limits := Ext.new.setU32 Ext.maxChunksPerQuery env.maxChunksPerQuery
    let ext := limits.1.setU64 Ext.maxBlobSize env.push.maxBlobSize
    match limits.2, ext.2 with
    | .error e, _ => (s, .error e)
    | .ok (), .error e => (s, .error e)
    | .ok (), .ok () =>
      let manifest : Manifest :=
        ⟨wireVersion, id, spec.filename, totalLen, spec.chunkSize, root, spec.createdMs, ext.1⟩
      match s.registry spec.id with
      | some existing =>
        if existing.manifest.root = root then (s, .ok manifest)
        else (s, .error (.usage ("id " ++ debugStr spec.id ++
          " is already registered with different content (root " ++ existing.manifest.root.toHex ++
          ", offered " ++ root.toHex ++ "); unregister it first")))
      | none =>
        (s.serve id.str ⟨manifest, chunks, .given, root, totalLen.toNat⟩, .ok manifest)

end Handlers

abbrev Server := Pool Shared Task

/-- What may happen next. `run` lets one handler take its next step, whose file operation
succeeds or fails. -/
inductive Action where
  | tick (d : Nat)
  | offer (keyId : String) (payload : Option Bytes) (token : Option Bytes)
  | slice (r : SliceReq)
  | run (tid : Nat) (ok : Bool)
  | register (spec : BlobSpec) (root : Hash) (totalLen : UInt64)
  | unregister (id : String)

inductive Event where
  | wanted (o : Offered) (a : Answer)
  | remaining (r : SliceReq) (n : Nat)
  | refused

def taskStep (env : Env) (s : Shared) (ok : Bool) : Task → Shared × Option Task × Option Event
  | .offer o pc =>
    match offerStep env s ok o pc with
    | (s, .go pc) => (s, some (.offer o pc), none)
    | (s, .done (some a)) => (s, none, some (.wanted o a))
    | (s, .done none) => (s, none, some .refused)
  | .slice r pc =>
    match sliceStep env s ok r pc with
    | (s, .go pc) => (s, some (.slice r pc), none)
    | (s, .done (some n)) => (s, none, some (.remaining r n))
    | (s, .done none) => (s, none, some .refused)

def Server.step [Postcard Manifest] (env : Env) (s : Server) :
    Action → Option (Server × Option Event)
  | .tick d => some (s.onShared (s.shared.tick d), none)
  | .offer keyId payload token =>
    match admitOffer env keyId payload token with
    | some o =>
      some ((s.onShared (s.shared.noteOffer keyId o.manifest)).spawn (.offer o .registry), none)
    | none => some (s, some .refused)
  | .slice r =>
    match r.push with
    | none => some (s.spawn (.slice r .snapshot), none)
    | some push =>
      if push ∈ s.shared.history.accepted ∧ push.2.id.str = r.id then
        some (s.spawn (.slice r .snapshot), none)
      else none
  | .run tid ok =>
    match s.tasks tid with
    | none => none
    | some t =>
      let moved := taskStep env s.shared ok t
      some (s.resume tid moved.1 moved.2.1, moved.2.2)
  | .register spec root totalLen =>
    some (s.onShared (finishRegister env s.shared spec root totalLen).1, none)
  | .unregister id => some (s.onShared (s.shared.unserve id), none)

end Zblob

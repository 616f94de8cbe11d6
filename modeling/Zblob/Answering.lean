import Zblob.Server
import Zblob.Ranges
import Zblob.Fill

/-!
Registration and queries of a server of whole blobs, among sources that change behind its
back. A registration opens its source, hashes it on the blocking pool and takes the source's
fingerprint when it enters the registry; every query compares that fingerprint with the
current one before it answers.
-/

set_option autoImplicit false

namespace Zblob.Tier1

structure SourceFingerprint where
  len : Nat
  mtimeNs : Option Int
  deriving DecidableEq

/-- A source in an outside world `ω`: the object that opening it reaches, the bytes that a
reader of an object sees, and the fingerprint. -/
structure BlobSource (ω : Type) where
  opens : ω → Option Nat
  read : ω → Nat → Bytes
  fingerprint : ω → Option SourceFingerprint

structure Disk where
  node : String → Option Nat
  data : Nat → Bytes
  mtimeNs : Nat → Option Int

def FileBlobSource (path : String) : BlobSource Disk where
  opens d := d.node path
  read d obj := d.data obj
  fingerprint d := (d.node path).map fun obj => ⟨(d.data obj).length, d.mtimeNs obj⟩

def MemoryBlobSource (ω : Type) (data : Bytes) : BlobSource ω where
  opens _ := some 0
  read _ _ := data
  fingerprint _ := none

/-- An outboard, kept as the root and the length it was computed from. -/
structure OutboardStore where
  root : Hash
  len : Nat

inductive HashPass where
  | whole
  | sized

def HashPass.outboard (hash : Bytes → Hash) (bytes : Bytes) (totalLen : Nat) :
    HashPass → Option OutboardStore
  | .whole => some ⟨hash bytes, bytes.length⟩
  | .sized => if totalLen ≤ bytes.length then some ⟨hash (bytes.take totalLen), totalLen⟩ else none

inductive Registering where
  | file
  | source

def Registering.pass (memLimit totalLen : Nat) : Registering → HashPass
  | .file => if totalLen / groupSize * 64 > memLimit then .sized else .whole
  | .source => .sized

/-- A served blob. `hashedAt` is the world its hash pass read, and `changed` says whether the
source's fingerprint has changed since; no step depends on them. -/
structure Registered (ω : Type) where
  manifest : Manifest
  chunks : TransferChunks
  source : BlobSource ω
  outboard : OutboardStore
  fingerprint : Option SourceFingerprint
  hashedAt : ω
  changed : Bool

structure Registration (ω : Type) where
  how : Registering
  spec : BlobSpec
  source : BlobSource ω

inductive RegisterPc (ω : Type) where
  | opening
  | hash (obj totalLen : Nat)
  | finish (outboard : OutboardStore) (totalLen : Nat) (hashedAt : ω) (changed : Bool)

inductive QueryKind where
  | availability
  | manifest
  | slices (params : String)

structure Query (ω : Type) where
  id : String
  kind : QueryKind
  snap : Registered ω

inductive QueryPc where
  | check
  | opening (ranges : List (Nat × Nat))
  | slices (obj : Nat) (todo : List Nat)

inductive Task (ω : Type) where
  | register (r : Registration ω) (pc : RegisterPc ω)
  | query (q : Query ω) (pc : QueryPc)

structure Shared (ω : Type) where
  world : ω
  registry : String → Option (Registered ω)

inductive Reply where
  | availability (a : Availability)
  | manifest (m : Manifest)
  | slice (index : Nat) (bytes : Bytes)
  | error (e : BlobError)

inductive Event where
  | registered (m : Manifest)
  | failed (e : BlobError)
  | reply (id : String) (r : Reply)

def Availability.full (count : UInt32) : Availability :=
  let bits : Bytes := List.replicate (divCeil count.toNat 8) 255
  ⟨wireVersion, count,
    if count.toNat % 8 = 0 then bits
    else bits.dropLast ++ [(1 <<< UInt8.ofNat (count.toNat % 8)) - 1]⟩

section Steps

variable {ω : Type} (env : Env) (memLimit : Nat)
  (encodeSlice : OutboardStore → Bytes → Nat × Nat → Option Bytes)

def newManifest (spec : BlobSpec) (root : Hash) (totalLen : UInt64) :
    Result (Manifest × TransferChunks) := do
  let id ← BlobId.new spec.id
  let chunks ← TransferChunks.new spec.chunkSize totalLen
  let limits := Ext.new.setU32 Ext.maxChunksPerQuery env.maxChunksPerQuery
  limits.2
  let ext := limits.1.setU64 Ext.maxBlobSize env.push.maxBlobSize
  ext.2
  return (⟨wireVersion, id, spec.filename, totalLen, spec.chunkSize, root, spec.createdMs, ext.1⟩,
    chunks)

/-- `finish_register`: the fingerprint is taken here, after the hash pass. -/
def finish (s : Shared ω) (r : Registration ω) (outboard : OutboardStore)
    (totalLen : Nat) (hashedAt : ω)
    (changed : Bool) : Shared ω × Result Manifest :=
  match newManifest env r.spec outboard.root (UInt64.ofNat totalLen) with
  | .error e => (s, .error e)
  | .ok (manifest, chunks) =>
    match s.registry r.spec.id with
    | some existing =>
      if existing.manifest.root = manifest.root then (s, .ok manifest)
      else (s, .error (.usage ("id " ++ debugStr r.spec.id ++
        " is already registered with different content (root " ++ existing.manifest.root.toHex ++
        ", offered " ++ manifest.root.toHex ++ "); unregister it first")))
    | none =>
      let entry : Registered ω :=
        ⟨manifest, chunks, r.source, outboard, r.source.fingerprint s.world, hashedAt, changed⟩
      ({ s with registry := Function.update s.registry manifest.id.str (some entry) }, .ok manifest)

theorem finishRegister_newManifest (t : Zblob.Shared) (spec : BlobSpec)
    (root : Hash) (totalLen : UInt64) :
    finishRegister env t spec root totalLen =
      match newManifest env spec root totalLen with
      | .error e => (t, .error e)
      | .ok (manifest, chunks) =>
        match t.registry spec.id with
        | some existing =>
          if existing.manifest.root = root then (t, .ok manifest)
          else (t, .error (.usage ("id " ++ debugStr spec.id ++
            " is already registered with different content (root " ++
            existing.manifest.root.toHex ++
            ", offered " ++ root.toHex ++ "); unregister it first")))
        | none =>
          (t.serve manifest.id.str ⟨manifest, chunks, .given, root, totalLen.toNat⟩,
            .ok manifest) := by
  unfold finishRegister newManifest
  cases BlobId.new spec.id with
  | error e => rfl
  | ok id =>
    cases TransferChunks.new spec.chunkSize totalLen with
    | error e => rfl
    | ok chunks =>
      simp only [bind, Except.bind]
      cases (Ext.new.setU32 Ext.maxChunksPerQuery env.maxChunksPerQuery).2 with
      | error e => rfl
      | ok u =>
        cases ((Ext.new.setU32 Ext.maxChunksPerQuery env.maxChunksPerQuery).1.setU64 Ext.maxBlobSize
          env.push.maxBlobSize).2 with
        | error e => rfl
        | ok u => rfl

theorem newManifest_root {spec : BlobSpec} {root : Hash} {totalLen : UInt64}
    {m : Manifest} {c : TransferChunks}
    (h : newManifest env spec root totalLen = .ok (m, c)) : m.root = root := by
  unfold newManifest at h
  simp only [bind, Except.bind] at h
  repeat' split at h
  all_goals cases h
  rfl

/-- A registration ends here as it does on the push side's registry, whose blobs are kept
without their source and fingerprint. -/
theorem finish_agrees {s : Shared ω} {t : Zblob.Shared} {r : Registration ω}
    {outboard : OutboardStore}
    {totalLen : Nat} {hashedAt : ω} {changed : Bool}
    (h : ∀ id, (s.registry id).map Registered.manifest =
      (t.registry id).map Zblob.Registered.manifest) :
    let here := finish env s r outboard totalLen hashedAt changed
    let there := finishRegister env t r.spec outboard.root (UInt64.ofNat totalLen)
    here.2 = there.2 ∧
      ∀ id, (here.1.registry id).map Registered.manifest =
      (there.1.registry id).map Zblob.Registered.manifest := by
  simp only [finish, finishRegister_newManifest]
  cases hnew : newManifest env r.spec outboard.root (UInt64.ofNat totalLen) with
  | error e => exact ⟨rfl, h⟩
  | ok made =>
    have hroot := newManifest_root env hnew
    have hhere := h r.spec.id
    cases hs : s.registry r.spec.id with
    | none =>
      rw [hs] at hhere
      rw [Option.map_eq_none_iff.mp hhere.symm]
      refine ⟨rfl, fun id => ?_⟩
      by_cases heq : id = made.1.id.str
      · simp [heq, Zblob.Shared.serve]
      · simpa [heq, Zblob.Shared.serve] using h id
    | some e =>
      rw [hs] at hhere
      obtain ⟨e', he', hman⟩ := Option.map_eq_some_iff.mp hhere.symm
      simp only [he', hman, hroot]
      split <;> exact ⟨rfl, h⟩

def registerStep (s : Shared ω) (ok : Bool) (r : Registration ω) :
    RegisterPc ω → Shared ω × Option (RegisterPc ω) × Option Event
  | .opening =>
    match (if ok then r.source.opens s.world else none) with
    | none => (s, none, some (.failed .io))
    | some obj => (s, some (.hash obj (r.source.read s.world obj).length), none)
  | .hash obj totalLen =>
    match (if ok then (r.how.pass memLimit totalLen).outboard env.bao.hash
      (r.source.read s.world obj) totalLen
      else none) with
    | none => (s, none, some (.failed .io))
    | some outboard => (s, some (.finish outboard totalLen s.world false), none)
  | .finish outboard totalLen hashedAt changed =>
    match finish env s r outboard totalLen hashedAt changed with
    | (s, .ok m) => (s, none, some (.registered m))
    | (s, .error e) => (s, none, some (.failed e))

def changedError (id : String) (before after : SourceFingerprint) : BlobError :=
  .protocol ("the source behind blob " ++ debugStr id ++ " changed after registration (was " ++
    toString before.len ++ " bytes, now " ++ toString after.len ++
    "); re-register it — every slice served from the stale outboard would fail " ++
    "the client's verification")

/-- The answer of a query whose source is taken to be unchanged. -/
def answer (q : Query ω) : Option QueryPc × Option Event :=
  match q.kind with
  | .availability =>
    (none, some (.reply q.id
      (.availability (Availability.full (UInt32.ofNat q.snap.chunks.count)))))
  | .manifest => (none, some (.reply q.id (.manifest q.snap.manifest)))
  | .slices params =>
    match parseRanges params q.snap.chunks.count env.maxChunksPerQuery.toNat with
    | .error e => (none, some (.reply q.id (.error e)))
    | .ok ranges => (some (.opening ranges), none)

/-- `serve_one` from the fingerprint check on. A failed read or a client that has gone ends
the query without a further reply. -/
def queryStep (s : Shared ω) (ok : Bool) (q : Query ω) : QueryPc → Option QueryPc × Option Event
  | .check =>
    match q.snap.fingerprint, q.snap.source.fingerprint s.world with
    | some before, some after =>
      if before ≠ after then (none, some (.reply q.id (.error (changedError q.id before after))))
      else answer env q
    | _, _ => answer env q
  | .opening ranges =>
    match (if ok then q.snap.source.opens s.world else none) with
    | none => (none, none)
    | some obj => (some (.slices obj (ranges.flatMap fun r => List.range' r.1 (r.2 - r.1))), none)
  | .slices _ [] => (none, none)
  | .slices obj (index :: todo) =>
    match (if ok then encodeSlice q.snap.outboard (q.snap.source.read s.world obj)
      (chunkRange (q.snap.chunks.byteRange index)) else none) with
    | none => (none, none)
    | some bytes => (some (.slices obj todo), some (.reply q.id (.slice index bytes)))

def taskStep (s : Shared ω) (ok : Bool) : Task ω → Shared ω × Option (Task ω) × Option Event
  | .register r pc =>
    match registerStep env memLimit s ok r pc with
    | (s, pc, ev) => (s, pc.map (.register r), ev)
  | .query q pc =>
    match queryStep env encodeSlice s ok q pc with
    | (pc, ev) => (s, pc.map (.query q), ev)

end Steps

section Host

variable {ω : Type}

def Registered.note (before after : ω) (r : Registered ω) : Registered ω :=
  { r with changed := r.changed || decide (r.source.fingerprint after ≠ r.source.fingerprint before)
    }

def Task.note (before after : ω) : Task ω → Task ω
  | .register r (.finish outboard totalLen hashedAt changed) =>
    .register r (.finish outboard totalLen hashedAt
      (changed || decide (r.source.fingerprint after ≠ r.source.fingerprint before)))
  | t => t

abbrev Host (ω : Type) := Pool (Shared ω) (Task ω)

inductive Action (ω : Type) where
  | change (world : ω)
  | register (r : Registration ω)
  | unregister (id : String)
  | query (id : String) (kind : QueryKind)
  | run (tid : Nat) (ok : Bool)

def Host.change (s : Host ω) (world : ω) : Host ω :=
  { s with
    shared := ⟨world, fun id => (s.shared.registry id).map (Registered.note s.shared.world world)⟩
    tasks := fun tid => (s.tasks tid).map (Task.note s.shared.world world) }

def Host.step (env : Env) (memLimit : Nat)
    (encodeSlice : OutboardStore → Bytes → Nat × Nat → Option Bytes)
    (s : Host ω) : Action ω → Option (Host ω × Option Event)
  | .change world => some (s.change world, none)
  | .register r => some (s.spawn (.register r .opening), none)
  | .unregister id =>
    some (s.onShared { s.shared with registry := Function.update s.shared.registry id none }, none)
  | .query id kind =>
    match s.shared.registry id with
    | none => some (s, none)
    | some r => some (s.spawn (.query ⟨id, kind, r⟩ .check), none)
  | .run tid ok =>
    match s.tasks tid with
    | none => none
    | some t =>
      let moved := taskStep env memLimit encodeSlice s.shared ok t
      some (s.resume tid moved.1 moved.2.1, moved.2.2)

end Host

end Zblob.Tier1

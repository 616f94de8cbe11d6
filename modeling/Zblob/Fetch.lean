import Zblob.Index
import Zblob.Fill

/-!
Fetching the missing chunks of a snapshot: batched rounds first, then one query for each
chunk that no round brought. Anybody may answer, in any order and as often as they like.
-/

set_option autoImplicit false

namespace Zblob

/-- `batch_size` may be zero, which leaves the rounds out; the builder keeps
`fetch_concurrency` above zero. -/
structure FetchConfig extends TreeConfig where
  fetchConcurrency : Nat
  maxTreeBytes : Nat
  atLeastOne : 1 ≤ fetchConcurrency

theorem one_at_a_time : 1 ≤ 1 := Nat.le_refl 1

def Entry.chunks : Entry → List ChunkRef
  | .file _ _ _ _ chunks => chunks
  | _ => []

def noteHash (out : List Hash) (c : ChunkRef) : List Hash :=
  if c.hash ∈ out then out else out ++ [c.hash]

def TreeIndex.neededChunks (index : TreeIndex) : List Hash :=
  (index.entries.flatMap Entry.chunks).foldl noteHash []

def noteRef (order : List ChunkRef) (c : ChunkRef) : List ChunkRef :=
  if c.hash ∈ order.map ChunkRef.hash then
    order.map fun x => if x.hash = c.hash then { x with len := max x.len c.len } else x
  else order ++ [c]

def TreeIndex.neededChunkRefs (index : TreeIndex) : List ChunkRef :=
  (index.entries.flatMap Entry.chunks).foldl noteRef []

abbrev ChunkMap := Hash → Option Bytes

def ChunkMap.put (m : ChunkMap) (p : Hash × Bytes) : ChunkMap := Function.update m p.1 (some p.2)

def ChunkMap.putMany (m : ChunkMap) (ps : List (Hash × Bytes)) : ChunkMap := ps.foldl ChunkMap.put m

def ChunkMap.has (m : ChunkMap) (h : Hash) : Bool := (m h).isSome

theorem ChunkMap.has_put (m : ChunkMap) (p : Hash × Bytes) (h : Hash) :
    (m.put p).has h = true ↔ m.has h = true ∨ h = p.1 := by
  by_cases hp : h = p.1
  · simp [ChunkMap.has, ChunkMap.put, hp]
  · simp [ChunkMap.has, ChunkMap.put, hp]

def ChunkMap.hasMany (m : ChunkMap) (hs : List Hash) : List Bool := hs.map m.has

inductive Progress where
  | chunk (index received total bytesReceived : Nat)
  | cancelled (received total : Nat)
  deriving DecidableEq

abbrev Want := Nat × ChunkRef

def Want.hash (w : Want) : Hash := w.2.hash

/-- A spawned single fetch; `ended` is what joining it will give: the bytes it has put
into the store and the replies it turned down on the way. -/
structure FetchTask where
  want : Want
  ended : Option (Result (Bytes × Nat))

/-- Where `fetch_missing` stands: before a round, inside one, at the head of the pipeline
loop, waiting there for a task, or returned. -/
inductive FetchPhase where
  | rounds (rest : List (List Want)) (unanswered : List Want)
  | draining (group : List Want) (pending : List (Hash × Bytes)) (arrived : List Hash)
      (rest : List (List Want)) (unanswered : List Want)
  | filling (queue : List Want)
  | waiting (queue : List Want)
  | done (result : Result TransferStats)

/-- The variables of a fetch, the store it works on, the events it has emitted and every
put that has landed. -/
structure Fetching where
  store : ChunkMap
  stats : TransferStats
  received : Nat
  bytesReceived : Nat
  events : List Progress
  puts : List (Hash × Bytes)
  tasks : List FetchTask
  phase : FetchPhase

namespace Fetching

def idle (store : ChunkMap) (phase : FetchPhase) : Fetching :=
  ⟨store, TransferStats.default, 0, 0, [], [], [], phase⟩

def finish (s : Fetching) (r : Result TransferStats) : Fetching := { s with phase := .done r }

def cancel (s : Fetching) (total : Nat) : Fetching :=
  { s with
    events := s.events ++ [.cancelled s.received total]
    phase := .done (.error (.cancelled s.received total)) }

def resume (s : Fetching) (total i : Nat) : Fetching :=
  { s with
    received := s.received + 1
    stats := { s.stats with chunksResumed := s.stats.chunksResumed + 1 }
    events := s.events ++ [.chunk i (s.received + 1) total s.bytesReceived] }

def count (s : Fetching) (total i len rejected : Nat) : Fetching :=
  { s with
    received := s.received + 1
    bytesReceived := s.bytesReceived + len
    stats := { s.stats with
      chunksFetched := s.stats.chunksFetched + 1
      bytesFetched := s.stats.bytesFetched + len
      rejected := s.stats.rejected + rejected }
    events := s.events ++ [.chunk i (s.received + 1) total (s.bytesReceived + len)] }

def countQueries (s : Fetching) (n : Nat) : Fetching :=
  { s with stats := { s.stats with queries := s.stats.queries + n } }

def putMany (s : Fetching) (batch : List (Hash × Bytes)) : Fetching :=
  { s with store := s.store.putMany batch, puts := s.puts ++ batch }

end Fetching

def splitPresence (total : Nat) :
    Nat → List (ChunkRef × Bool) → Fetching → List Want → Fetching × List Want
  | _, [], s, missing => (s, missing)
  | i, (_, true) :: rest, s, missing => splitPresence total (i + 1) rest (s.resume total i) missing
  | i, (c, false) :: rest, s, missing => splitPresence total (i + 1) rest s (missing ++ [(i, c)])

/-- `fetch_missing` up to its first wait; `presence` is what `has_many` answered. -/
def fetchMissing (cfg : FetchConfig) (needed : List ChunkRef) (store : ChunkMap) (total : Nat)
    (presence : Result (List Bool)) : Fetching :=
  match presence with
  | .error e => Fetching.idle store (.done (.error e))
  | .ok presence =>
    let (s, missing) := splitPresence total 0 (needed.zip presence)
      (Fetching.idle store (.filling [])) []
    if cfg.batchSize > 0 ∧ missing ≠ [] then
      { s with phase := .rounds (sliceChunks cfg.batchSize [] missing) [] }
    else { s with phase := .filling missing }

/-- What the fetch may meet next. The flag is what the cancel token says at the time. -/
inductive FetchInput where
  /-- the head of the round loop, with the outcome of `batch_query` -/
  | round (cancelled : Bool) (query : Result Unit)
  /-- one turn of the drain; `none` is a closed channel. A flush may fail after some puts. -/
  | turn (cancelled : Bool) (next : Option Reply) (failed : Option (Nat × BlobError))
  /-- the head of the pipeline loop -/
  | fill (cancelled : Bool)
  /-- the bounded wait: a tick, or a task that has ended -/
  | wake (joined : Option Nat)
  /-- a task gets its replies and puts its chunk -/
  | run (k : Nat) (query : Option (List Reply)) (put : Result Unit)

def flushLen : Nat := 32

def keepFull (concurrency : Nat) : List FetchTask → List Want → List FetchTask × List Want
  | tasks, [] => (tasks, [])
  | tasks, w :: queue =>
    if tasks.length < concurrency then keepFull concurrency (tasks ++ [⟨w, none⟩]) queue
    else (tasks, w :: queue)

section Machine

variable (hash : Bytes → Hash) (zstd : Zstd) (cfg : FetchConfig) (total : Nat)

def takeReply (group : List Want) (pending : List (Hash × Bytes)) (arrived : List Hash) :
    Option Reply → List (Hash × Bytes) × List Hash
  | some (.ok sample) =>
    match acceptBatchReply hash zstd cfg.toTreeConfig sample (group.map Prod.snd) with
    | some (h, bytes) =>
      if h ∈ arrived then (pending, arrived) else (pending ++ [(h, bytes)], h :: arrived)
    | none => (pending, arrived)
  | _ => (pending, arrived)

def countBatch (group : List Want) (batch : List (Hash × Bytes)) (s : Fetching) : Fetching :=
  batch.foldl (fun s p =>
    s.count total ((group.find? fun w => w.2.hash = p.1).elim 0 Prod.fst) p.2.length 0) s

def endTurn (group : List Want) (arrived : List Hash) (rest : List (List Want))
    (unanswered : List Want) (cancelled : Bool) (next : Option Reply)
    (pending : List (Hash × Bytes)) (s : Fetching) : Fetching :=
  if next.isNone then
    if cancelled then s.cancel total
    else
      { s with
        phase := .rounds rest (unanswered ++ group.filter fun w => w.2.hash ∉ arrived) }
  else { s with phase := .draining group pending arrived rest unanswered }

def Fetching.step (s : Fetching) : FetchInput → Option Fetching
  | .round cancelled query =>
    match s.phase with
    | .rounds [] unanswered =>
      if cancelled then some (s.cancel total) else some { s with phase := .filling unanswered }
    | .rounds (group :: rest) unanswered =>
      if cancelled then some (s.cancel total)
      else
        match query with
        | .error e => some ((s.countQueries 1).finish (.error e))
        | .ok () =>
          some { s.countQueries 1 with phase := .draining group [] [] rest unanswered }
    | _ => none
  | .turn cancelled next failed =>
    match s.phase with
    | .draining group pending arrived rest unanswered =>
      let next := if cancelled then none else next
      let (pending, arrived) := takeReply hash zstd cfg group pending arrived next
      if pending.length ≥ flushLen ∨ next.isNone ∧ pending ≠ [] then
        match failed with
        | some (n, e) => some ((s.putMany (pending.take n)).finish (.error e))
        | none =>
          some (endTurn total group arrived rest unanswered cancelled next []
            (countBatch total group pending (s.putMany pending)))
      else some (endTurn total group arrived rest unanswered cancelled next pending s)
    | _ => none
  | .fill cancelled =>
    match s.phase with
    | .filling queue =>
      let (tasks, rest) := keepFull cfg.fetchConcurrency s.tasks queue
      let s := { s.countQueries (queue.length - rest.length) with tasks := tasks }
      if tasks.isEmpty then some (s.finish (.ok s.stats))
      else if cancelled then some (s.cancel total)
      else some { s with phase := .waiting rest }
    | _ => none
  | .wake joined =>
    match s.phase with
    | .waiting queue =>
      match joined with
      | none => some { s with phase := .filling queue }
      | some k =>
        match s.tasks[k]? with
        | some ⟨want, some (.ok (bytes, rejected))⟩ =>
          some { s.count total want.1 bytes.length rejected with
            tasks := s.tasks.eraseIdx k
            phase := .filling queue }
        | some ⟨_, some (.error e)⟩ =>
          some ({ s with tasks := s.tasks.eraseIdx k }.finish (.error e))
        | _ => none
    | _ => none
  | .run k query put =>
    -- a task that was spawned may still come to its put after the fetch has returned
    match s.tasks[k]? with
    | some ⟨want, none⟩ =>
      match fetchOneChunk hash zstd want.2.hash (some want.2.len) maxUnpacked query, put with
      | .error e, _ => some { s with tasks := s.tasks.set k ⟨want, some (.error e)⟩ }
      | .ok _, .error e => some { s with tasks := s.tasks.set k ⟨want, some (.error e)⟩ }
      | .ok (bytes, rejected), .ok () =>
        some { s.putMany [(want.2.hash, bytes)] with
          tasks := s.tasks.set k ⟨want, some (.ok (bytes, rejected))⟩ }
    | _ => none

end Machine

end Zblob

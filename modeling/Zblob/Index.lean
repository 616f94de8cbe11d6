import Zblob.Transport
import Zblob.Tree
import Zblob.Lib.First

/-!
Fetching a tree index. A large one comes as a descriptor that points at chunks, which are
fetched while the reply that named them is being judged.
-/

set_option autoImplicit false

namespace Zblob

structure TreeConfig where
  storePrefix : String
  maxIndexBytes : Nat
  batchSize : Nat

inductive ContainerError where
  | unsupported
  | corrupt

def maxUnpacked : Nat := 16 * 1024 * 1024

abbrev Zstd := Option (Bytes → Nat → Option Bytes)

def tryUnpack (zstd : Zstd) : Bytes → Except ContainerError Bytes
  | 0 :: rest => if rest.length > maxUnpacked then .error .corrupt else .ok rest
  | 1 :: rest =>
    if rest.length < 4 then .error .corrupt
    else if Ext.fromLe (rest.take 4) > maxUnpacked then .error .corrupt
    else
      match zstd with
      | none => .error .unsupported
      | some decompress =>
        match decompress (rest.drop 4) (Ext.fromLe (rest.take 4)) with
        | none => .error .corrupt
        | some out => if out.length ≠ Ext.fromLe (rest.take 4) then .error .corrupt else .ok out
  | 2 :: _ => .error .unsupported
  | _ => .error .corrupt

def hexVal (c : Char) : Option Nat :=
  if '0' ≤ c ∧ c ≤ '9' then some (c.toNat - 48)
  else if 'a' ≤ c ∧ c ≤ 'f' then some (c.toNat - 87)
  else if 'A' ≤ c ∧ c ≤ 'F' then some (c.toNat - 55)
  else none

def hexBytes : List Char → Option Bytes
  | [] => some []
  | [_] => none
  | hi :: lo :: rest => do
    let h ← hexVal hi
    let l ← hexVal lo
    let bytes ← hexBytes rest
    some (UInt8.ofNat (h * 16 + l) :: bytes)

def Hash.parse (s : String) : Option Hash :=
  (hexBytes s.toList).bind fun bytes =>
    if h : bytes.length = 32 then some ⟨bytes, h⟩ else none

/-- The one or two segments of a key behind `pre`; a `*` in the key stands for any
segment of it, a `**` for nothing usable. -/
def parseTier2Tail (pre key : String) : Option (List String) :=
  let p := (splitSlash pre.toList).map String.ofList
  let k := (splitSlash key.toList).map String.ofList
  if k.length ≤ p.length then none
  else if (p.zip k).all fun (want, got) => got ≠ "**" ∧ (want = got ∨ got.toList.contains '*') then
    let tail := k.drop p.length
    if tail.length ≤ 2 then some tail else none
  else none

section Chunks

variable (hash : Bytes → Hash) (zstd : Zstd) (cfg : TreeConfig)

/-- The declared length of a wanted chunk; of duplicates the last counts. -/
def expectedLen (wanted : List ChunkRef) (h : Hash) : Option UInt32 :=
  (wanted.reverse.find? fun c => c.hash = h).map ChunkRef.len

def acceptBatchReply (sample : Sample) (wanted : List ChunkRef) : Option (Hash × Bytes) :=
  if sample.encoding ≠ encChunk then none
  else
    match parseTier2Tail cfg.storePrefix sample.key with
    | some [algo, hex] =>
      if algo ≠ HashAlgo.blake3.asStr then none
      else do
        let h ← Hash.parse hex
        let len ← expectedLen wanted h
        if sample.payload.length > len.toNat + 1 + 4 then none
        else
          let bytes ← (tryUnpack zstd sample.payload).toOption
          if bytes.length % 4294967296 ≠ len.toNat ∨ hash bytes ≠ h then none else some (h, bytes)
    | _ => none

inductive Judged where
  | ignored
  | rejected
  | accepted (bytes : Bytes)

/-- One turn of the receive loop of `fetch_one_chunk`: a length must be met, without one
`maxBytes` bounds the frame. -/
def judgeReply (want : Hash) (expectedLen : Option UInt32) (maxBytes : Nat) : Reply → Judged
  | .error _ => .ignored
  | .ok sample =>
    if sample.encoding ≠ encChunk then .ignored
    else if sample.payload.length > (expectedLen.map UInt32.toNat).getD maxBytes + 1 + 4 then
      .rejected
    else
      match tryUnpack zstd sample.payload with
      | .error _ => .rejected
      | .ok bytes =>
        if (expectedLen.any fun n => bytes.length % 4294967296 ≠ n.toNat) ∨ hash bytes ≠ want then
          .rejected
        else .accepted bytes

def fetchOneLoop (want : Hash) (expectedLen : Option UInt32) (maxBytes : Nat) :
    Nat → List Reply → Result (Bytes × Nat)
  | _, [] => .error (.notFound want.toHex)
  | rejected, r :: rest =>
    match judgeReply hash zstd want expectedLen maxBytes r with
    | .ignored => fetchOneLoop want expectedLen maxBytes rejected rest
    | .rejected => fetchOneLoop want expectedLen maxBytes (rejected + 1) rest
    | .accepted bytes => .ok (bytes, rejected)

def fetchOneChunk (want : Hash) (expectedLen : Option UInt32) (maxBytes : Nat) :
    Option (List Reply) → Result (Bytes × Nat)
  | none => .error .zenoh
  | some replies => fetchOneLoop hash zstd want expectedLen maxBytes 0 replies

structure IndexDescriptor where
  version : UInt16
  root : Hash
  algo : HashAlgo
  indexChunks : List ChunkRef
  indexLen : UInt64
  ext : Ext

def IndexDescriptor.validate (d : IndexDescriptor) (maxIndexBytes : Nat) : Result Unit :=
  if d.version ≠ wireVersion then .error (.unsupportedVersion d.version)
  else if d.indexChunks.isEmpty then .error (.malformedMessage "index descriptor has no chunks")
  else if d.indexLen.toNat > maxIndexBytes then
    .error (.invalidManifest
      s!"index of {d.indexLen.toNat} bytes exceeds the {maxIndexBytes} byte limit")
  else if chunkSum d.indexChunks ≠ d.indexLen.toNat then
    .error (.malformedMessage
      s!"index chunks total {chunkSum d.indexChunks} bytes, declared {d.indexLen.toNat}")
  else .ok ()

/-- What the queries made for one descriptor bring: one batch round for each group of
chunks, and one single query for each position a batch left unanswered. -/
structure ShardReplies where
  batches : Nat → Option (List Reply)
  singles : Nat → Option (List Reply)

def sliceChunks {α : Type} (n : Nat) : List α → List α → List (List α)
  | [], [] => []
  | cur, [] => [cur]
  | cur, x :: xs =>
    if cur.length + 1 ≥ n then (cur ++ [x]) :: sliceChunks n [] xs
    else sliceChunks n (cur ++ [x]) xs

def collectBatch (wanted : List ChunkRef) (got : List (Hash × Bytes)) :
    List Reply → List (Hash × Bytes)
  | [] => got
  | .error _ :: rest => collectBatch wanted got rest
  | .ok sample :: rest =>
    match acceptBatchReply hash zstd cfg sample wanted with
    | some (h, bytes) =>
      collectBatch wanted (if got.any fun g => g.1 = h then got else got ++ [(h, bytes)]) rest
    | none => collectBatch wanted got rest

def collectBatches (replies : ShardReplies) :
    Nat → List (Hash × Bytes) → List (List ChunkRef) → Result (List (Hash × Bytes))
  | _, got, [] => .ok got
  | k, got, group :: rest =>
    match replies.batches k with
    | none => .error .zenoh
    | some rs => collectBatches replies (k + 1) (collectBatch hash zstd cfg group got rs) rest

def joinChunks (replies : ShardReplies) :
    Nat → List (Hash × Bytes) → List ChunkRef → Result Bytes
  | _, _, [] => .ok []
  | k, got, c :: rest =>
    match got.find? fun g => g.1 = c.hash with
    | some (_, bytes) =>
      (joinChunks replies (k + 1) (got.filter fun g => g.1 ≠ c.hash) rest).map (bytes ++ ·)
    | none => do
      let (bytes, _) ← fetchOneChunk hash zstd c.hash (some c.len) maxUnpacked (replies.singles k)
      (joinChunks replies (k + 1) got rest).map (bytes ++ ·)

def assembleShardedIndex [Postcard IndexDescriptor] (sample : Sample) (replies : ShardReplies) :
    Result Bytes := do
  let desc ← decode IndexDescriptor sample.payload
  desc.validate cfg.maxIndexBytes
  let got ← collectBatches hash zstd cfg replies 0 []
    (sliceChunks (max cfg.batchSize 1) [] desc.indexChunks)
  joinChunks hash zstd replies 0 got desc.indexChunks

end Chunks

section Fetch

variable [Postcard TreeIndex] [Postcard IndexDescriptor] (th : TreeHash) (zstd : Zstd)
  (cfg : TreeConfig)

def indexPayload (sample : Sample) (shards : ShardReplies) : Option (Result Bytes) :=
  if sample.encoding = encIndexDesc then some (assembleShardedIndex th.hash zstd cfg sample shards)
  else if sample.encoding = encIndex then some (.ok sample.payload)
  else none

def indexVerdict (id : String) (expectedRoot : Option Hash) (payload : Bytes) : Result TreeIndex :=
  if payload.length > cfg.maxIndexBytes then
    .error (.invalidManifest
      s!"index payload {payload.length} exceeds the {cfg.maxIndexBytes} byte limit")
  else do
    let index ← decode TreeIndex payload
    index.validate th
    if index.id.str ≠ id then
      .error (.malformedMessage
        ("index id " ++ index.id.debug ++ " does not match requested " ++ debugStr id))
    else
      match expectedRoot.filter (index.rootHash ≠ ·) with
      | some expected => .error (.rootMismatch expected index.rootHash)
      | none => .ok index

/-- The receive loop; each reply comes with what its own chunk queries would bring. -/
def indexLoop (id : String) (expectedRoot : Option Hash) :
    Option BlobError → List (Reply × ShardReplies) → Result TreeIndex
  | rejected, [] => .error (rejected.getD (.notFound id))
  | rejected, (.error _, _) :: rest => indexLoop id expectedRoot rejected rest
  | rejected, (.ok sample, shards) :: rest =>
    match indexPayload th zstd cfg sample shards with
    | none => indexLoop id expectedRoot rejected rest
    | some (.error e) => indexLoop id expectedRoot (rejected <|> some e) rest
    | some (.ok payload) =>
      match indexVerdict th cfg id expectedRoot payload with
      | .ok index => .ok index
      | .error e => indexLoop id expectedRoot (rejected <|> some e) rest

def fetchIndexMatching (id : String) (expectedRoot : Option Hash)
    (query : Option (List (Reply × ShardReplies))) : Result TreeIndex := do
  let id ← BlobId.new id
  match query with
  | none => .error .zenoh
  | some replies => indexLoop th zstd cfg id.str expectedRoot none replies

end Fetch

end Zblob

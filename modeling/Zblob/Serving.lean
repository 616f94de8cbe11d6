import Mathlib.Data.List.AList
import Zblob.Compress
import Zblob.Confinement
import Zblob.Fetch
import Zblob.Wire

/-!
The server of snapshots: what a registration stores and remembers, and how index and chunk
queries are answered from that.
-/

set_option autoImplicit false

namespace Zblob

def storeKey (pre : String) (algo : HashAlgo) (hash : Hash) : String :=
  pre ++ "/" ++ algo.asStr ++ "/" ++ hash.toHex

def treeKey (pre id : String) : String := pre ++ "/" ++ id

structure TreeRegistered where
  index : TreeIndex
  sharded : Option IndexDescriptor

structure TreeServer where
  storePrefix : String
  treePrefix : String
  store : ChunkMap
  index : AList fun _ : String => TreeRegistered
  indexShardThreshold : Nat
  compression : ChunkCompression

def indexShard : Nat := 64 * 1024

section Register

variable (hash : Bytes → Hash) (fails : Nat → Bool)

def shardLoop : Nat → List Bytes → ChunkMap → List ChunkRef → Result (List ChunkRef) × ChunkMap
  | _, [], m, chunks => (.ok chunks, m)
  | k, piece :: rest, m, chunks =>
    if fails k then (.error .io, m)
    else
      shardLoop (k + 1) rest (if m.has (hash piece) then m else m.put (hash piece, piece))
        (chunks ++ [⟨hash piece, UInt32.ofNat piece.length⟩])

def shardIndex (encoded : Bytes) (m : ChunkMap) (root : Hash) : Result IndexDescriptor × ChunkMap :=
  let (chunks, m) := shardLoop hash fails 0 (sliceChunks indexShard [] encoded) m []
  (chunks.map fun chunks =>
    { version := wireVersion
      root := root
      algo := .blake3
      indexChunks := chunks
      indexLen := UInt64.ofNat encoded.length
      ext := Ext.new }, m)

variable [Wire TreeIndex]

def TreeServer.register (s : TreeServer) (index : TreeIndex) : Result Unit × TreeServer :=
  if (encode index).length > s.indexShardThreshold then
    match shardIndex hash fails (encode index) s.store index.rootHash with
    | (.error e, m) => (.error e, { s with store := m })
    | (.ok desc, m) =>
      (.ok (), { s with store := m, index := s.index.insert index.id.str ⟨index, some desc⟩ })
  else (.ok (), { s with index := s.index.insert index.id.str ⟨index, none⟩ })

end Register

def TreeServer.unregister (s : TreeServer) (id : String) : TreeServer :=
  { s with index := s.index.erase id }

def TreeServer.registered (s : TreeServer) : List TreeIndex :=
  s.index.entries.map fun r => r.2.index

section Serve

variable (compress : Compress) (s : TreeServer)

def TreeServer.chunkReply (hash : Hash) : Result (Option Sample) :=
  match s.store hash with
  | none => .ok none
  | some bytes =>
    (pack compress bytes s.compression).map fun packed =>
      some ⟨storeKey s.storePrefix .blake3 hash, encChunk, packed⟩

def TreeServer.serveChunkQuery (key : String) : Result (Option Sample) :=
  match parseTier2Tail s.storePrefix key with
  | some [algo, hex] =>
    if algo ≠ HashAlgo.blake3.asStr then .ok none
    else
      match Hash.parse hex with
      | none => .ok none
      | some hash => s.chunkReply compress hash
  | _ => .ok none

variable [Wire TreeIndex] [Wire IndexDescriptor]

def TreeServer.indexReply (id : String) : Option Sample :=
  (s.index.lookup id).map fun reg =>
    match reg.sharded with
    | some desc => ⟨treeKey s.treePrefix id, encIndexDesc, encode desc⟩
    | none => ⟨treeKey s.treePrefix id, encIndex, encode reg.index⟩

def TreeServer.serveIndexQuery (key : String) : Option Sample :=
  match parseTier2Tail s.treePrefix key with
  | some [id] => s.indexReply id
  | _ => none

end Serve

theorem sliceChunks_bounds {α : Type} {n : Nat} (hn : 0 < n) {cur xs : List α}
    (hcur : cur.length < n) :
    ∀ piece ∈ sliceChunks n cur xs, 0 < piece.length ∧ piece.length ≤ n := by
  induction xs generalizing cur with
  | nil =>
    intro piece hp
    cases cur with
    | nil => simp [sliceChunks] at hp
    | cons x cur =>
      simp only [sliceChunks, List.mem_singleton] at hp
      subst hp
      exact ⟨by simp, by omega⟩
  | cons x xs ih =>
    intro piece hp
    simp only [sliceChunks] at hp
    split at hp
    · rcases List.mem_cons.mp hp with rfl | hp
      · simp only [List.length_append, List.length_singleton]
        omega
      · exact ih (by simpa using hn) piece hp
    · exact ih (by simp only [List.length_append, List.length_singleton]; omega) piece hp

def singleEncoded : Bytes :=
  [0x03, 0x01, 0x74, 0x06, 0x62, 0x6c, 0x61, 0x6b, 0x65, 0x33, 0x80, 0x80, 0x01, 0x80, 0x80, 0x04,
    0x80, 0x80, 0x10, 0x02, 0x00, 0x01, 0x01, 0x01, 0x66, 0xa4, 0x03, 0x00, 0x00, 0x00, 0x20, 0x95,
    0xad, 0xd0, 0x5f, 0x87, 0x7e, 0x09, 0x1e, 0xdf, 0xab, 0x7f, 0x50, 0x30, 0x8d, 0xd7, 0x11, 0xea,
    0x38, 0x70, 0x50, 0xa7, 0x0a, 0xb6, 0x27, 0x01, 0x94, 0xf0, 0xe6, 0x9f, 0xb6, 0xd8, 0x25]

def singlePiece : Hash :=
  ⟨[0x79, 0x40, 0x42, 0x51, 0x78, 0xfc, 0xbb, 0xa8, 0xcf, 0x4d, 0x77, 0x85, 0x9e, 0x19, 0x13, 0x23,
    0xe7, 0xda, 0x34, 0xa3, 0x9e, 0xe8, 0x90, 0x84, 0xd6, 0x5c, 0x9d, 0x18, 0x7e, 0x14, 0x36, 0x0c],
    by decide⟩

def singleHash (data : Bytes) : Hash :=
  if data = singleEncoded then singlePiece else singleTree.hash data

def singleDesc : IndexDescriptor :=
  ⟨wireVersion, singleRoot, .blake3, [⟨singlePiece, 63⟩], 63, Ext.new⟩

def emptyServer (threshold : Nat) : TreeServer := ⟨"s", "t", fun _ => none, ∅, threshold, .none⟩

section Single

attribute [local instance] Format.indexWire

theorem encode_single : encode singleIndex = singleEncoded := by decide +kernel

def singleServer : TreeServer :=
  { emptyServer 0 with
    store := ChunkMap.put (fun _ => none) (singlePiece, singleEncoded)
    index := AList.insert "t" ⟨singleIndex, some singleDesc⟩ ∅ }

theorem register_single :
    ((emptyServer 0).register singleHash (fun _ => false) singleIndex).2 = singleServer := by
  have hpieces : sliceChunks indexShard [] singleEncoded = [singleEncoded] := by decide +kernel
  have hhash : singleHash singleEncoded = singlePiece := if_pos rfl
  simp only [TreeServer.register, encode_single, shardIndex, hpieces, shardLoop, hhash]
  rfl

end Single

end Zblob

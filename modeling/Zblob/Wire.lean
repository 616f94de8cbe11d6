import Zblob.Index
import Zblob.Lib.Codec

/-!
The bytes of the control messages, in both directions: postcard writes numbers as varints,
texts and lists behind their length, and the fields of a record one after the other.
-/

set_option autoImplicit false

namespace Zblob

class Wire (α : Type) extends Postcard α where
  toBytes : α → Bytes
  back : ∀ a, fromBytes (toBytes a) = some a

def encode {α : Type} [Wire α] (a : α) : Bytes := Wire.toBytes a

theorem decode_encode {α : Type} [Wire α] (a : α) : decode α (encode a) = .ok a := by
  simp [decode, encode, Wire.back]

/-- `postcard::from_bytes` does not look at what comes after the value. -/
abbrev Wire.ofCodec {α : Type} (c : Codec α) : Wire α where
  fromBytes := c.read
  toBytes := c.enc
  back := c.read_enc

namespace Format

def u8 : Codec UInt8 := Codec.byte

def u16 : Codec UInt16 :=
  (Codec.uint 16).pmap UInt16.toFin (fun n => some (UInt16.ofFin n)) fun _ => rfl

def u32 : Codec UInt32 :=
  (Codec.uint 32).pmap UInt32.toFin (fun n => some (UInt32.ofFin n)) fun _ => rfl

def u64 : Codec UInt64 :=
  (Codec.uint 64).pmap UInt64.toFin (fun n => some (UInt64.ofFin n)) fun _ => rfl

def zigzag (z : Int) : Nat := if 0 ≤ z then (2 * z).toNat else (-2 * z - 1).toNat

def unzigzag (n : Nat) : Int := if n % 2 = 0 then (n / 2 : Nat) else -((n / 2 : Nat) : Int) - 1

theorem unzigzag_zigzag (z : Int) : unzigzag (zigzag z) = z := by
  unfold unzigzag zigzag
  split <;> split <;> omega

theorem zigzag_lt (z : Int64) : zigzag z.toInt < 2 ^ 64 := by
  have hlo := z.le_toInt
  have hhi := z.toInt_lt
  unfold zigzag
  split <;> omega

def i64 : Codec Int64 :=
  (Codec.uint 64).pmap (fun z => ⟨zigzag z.toInt, zigzag_lt z⟩)
    (fun n => some (Int64.ofInt (unzigzag n)))
    fun z => by simp [unzigzag_zigzag]

def bytes : Codec Bytes := Codec.list Codec.byte

def string : Codec String :=
  bytes.pmap (fun s => s.toByteArray.data.toList)
    (fun data => String.fromUTF8? ⟨data.toArray⟩) fun s => by
    simp [String.fromUTF8?, s.isValidUTF8, String.fromUTF8]

def hash : Codec Hash :=
  bytes.pmap Hash.bytes (fun data => if h : data.length = 32 then some ⟨data, h⟩ else none)
    fun h => by simp [h.len]

def algo : Codec HashAlgo :=
  string.pmap HashAlgo.asStr (fun s => if s = HashAlgo.blake3.asStr then some .blake3 else none)
    fun a => by
    cases a
    simp

def blobId : Codec BlobId :=
  string.pmap BlobId.str (fun s => if h : BlobId.isValid s = true then some ⟨s, h⟩ else none)
    fun id => by
    simp [id.valid]

theorem fromFields_fields (e : Ext) : Ext.fromFields e.fields = .ok e := by
  have hnone : e.fields.find? (fun f => f.2.length > Ext.maxValueLen) = none := by
    rw [List.find?_eq_none]
    intro f hf
    simpa using e.valuesOk f hf
  unfold Ext.fromFields
  rw [dif_neg (Nat.not_lt.mpr e.fieldsOk)]
  split
  · rename_i f hf
    rw [hnone] at hf
    cases hf
  · rfl

def ext : Codec Ext :=
  (Codec.list (u16.pair bytes)).pmap Ext.fields
    (fun fields => (Ext.fromFields fields).toOption) fun e => by
    rw [fromFields_fields]
    rfl

def chunkRef : Codec ChunkRef :=
  (hash.pair u32).pmap (fun c => (c.hash, c.len)) (fun p => some ⟨p.1, p.2⟩) fun _ => rfl

def cdcParams : Codec CdcParams :=
  (u32.pair (u32.pair (u32.pair (u8.pair u64)))).pmap
    (fun p => (p.min, p.avg, p.max, p.normalization, p.gearSeed))
    (fun p => some ⟨p.1, p.2.1, p.2.2.1, p.2.2.2.1, p.2.2.2.2⟩) fun _ => rfl

inductive EntryKind where
  | dir
  | file
  | symlink
  | hardlink

def EntryKind.index : EntryKind → UInt32
  | .dir => 0
  | .file => 1
  | .symlink => 2
  | .hardlink => 3

def EntryKind.ofIndex (n : UInt32) : Option EntryKind :=
  if n = 0 then some .dir else if n = 1 then some .file else if n = 2 then some .symlink
  else if n = 3 then some .hardlink else none

abbrev EntryKind.Fields : EntryKind → Type
  | .dir => String × UInt32 × Int64
  | .file => String × UInt32 × Int64 × UInt64 × List ChunkRef
  | .symlink => String × String
  | .hardlink => String × String

def entryFields : ∀ kind : EntryKind, Codec kind.Fields
  | .dir => string.pair (u32.pair i64)
  | .file => string.pair (u32.pair (i64.pair (u64.pair (Codec.list chunkRef))))
  | .symlink => string.pair string
  | .hardlink => string.pair string

def entryKind : Codec EntryKind :=
  u32.pmap EntryKind.index EntryKind.ofIndex fun k => by cases k <;> rfl

def entry : Codec Entry :=
  (Codec.kinded entryKind entryFields).pmap
    (fun
      | .dir path mode mtime => ⟨.dir, path, mode, mtime⟩
      | .file path mode mtime size chunks => ⟨.file, path, mode, mtime, size, chunks⟩
      | .symlink path target => ⟨.symlink, path, target⟩
      | .hardlink path target => ⟨.hardlink, path, target⟩)
    (fun
      | ⟨.dir, p⟩ => some (.dir p.1 p.2.1 p.2.2)
      | ⟨.file, p⟩ => some (.file p.1 p.2.1 p.2.2.1 p.2.2.2.1 p.2.2.2.2)
      | ⟨.symlink, p⟩ => some (.symlink p.1 p.2)
      | ⟨.hardlink, p⟩ => some (.hardlink p.1 p.2))
    fun e => by cases e <;> rfl

def treeIndex : Codec TreeIndex :=
  (u16.pair (blobId.pair (algo.pair (cdcParams.pair ((Codec.list entry).pair hash))))).pmap
    (fun i => (i.version, i.id, i.algo, i.cdc, i.entries, i.rootHash))
    (fun p => some ⟨p.1, p.2.1, p.2.2.1, p.2.2.2.1, p.2.2.2.2.1, p.2.2.2.2.2⟩) fun _ => rfl

def indexDescriptor : Codec IndexDescriptor :=
  (u16.pair (hash.pair (algo.pair ((Codec.list chunkRef).pair (u64.pair ext))))).pmap
    (fun d => (d.version, d.root, d.algo, d.indexChunks, d.indexLen, d.ext))
    (fun p => some ⟨p.1, p.2.1, p.2.2.1, p.2.2.2.1, p.2.2.2.2.1, p.2.2.2.2.2⟩) fun _ => rfl

abbrev indexWire : Wire TreeIndex := Wire.ofCodec treeIndex

abbrev descriptorWire : Wire IndexDescriptor := Wire.ofCodec indexDescriptor

end Format

end Zblob

import Zblob.Fill
import Zblob.Gc

/-!
Every message and record of the crate on the wire, and what a reader may rely on: no bytes
decode to an id, a hash, an algorithm or an extension list that its type rules out.
-/

set_option autoImplicit false

namespace Zblob

structure WantList where
  version : UInt16
  hashes : List Hash
  deriving DecidableEq

structure HaveBits where
  version : UInt16
  count : UInt32
  bits : Bytes
  deriving DecidableEq

structure TreeProbe where
  version : UInt16
  haveIndex : Bool
  chunksPresent : UInt32
  chunksTotal : UInt32
  deriving DecidableEq

namespace Format

def manifest : Codec Manifest :=
  (u16.pair
    (blobId.pair (string.option.pair (u64.pair (u32.pair (hash.pair (i64.pair ext))))))).pmap
    (fun m => (m.version, m.id, m.filename, m.totalLen, m.chunkSize, m.root, m.createdMs, m.ext))
    (fun p => some ⟨p.1, p.2.1, p.2.2.1, p.2.2.2.1, p.2.2.2.2.1,
      p.2.2.2.2.2.1, p.2.2.2.2.2.2.1, p.2.2.2.2.2.2.2⟩)
    fun _ => rfl

def wantList : Codec WantList :=
  (u16.pair (Codec.list hash)).pmap (fun w => (w.version, w.hashes))
    (fun p => some ⟨p.1, p.2⟩) fun _ => rfl

def haveBits : Codec HaveBits :=
  (u16.pair (u32.pair bytes)).pmap (fun b => (b.version, b.count, b.bits))
    (fun p => some ⟨p.1, p.2.1, p.2.2⟩)
    fun _ => rfl

def availability : Codec Availability :=
  (u16.pair (u32.pair bytes)).pmap (fun a => (a.version, a.chunkCount, a.bits))
    (fun p => some ⟨p.1, p.2.1, p.2.2⟩) fun _ => rfl

def treeProbe : Codec TreeProbe :=
  (u16.pair (Codec.bool.pair (u32.pair u32))).pmap
    (fun p => (p.version, p.haveIndex, p.chunksPresent, p.chunksTotal))
    (fun p => some ⟨p.1, p.2.1, p.2.2.1, p.2.2.2⟩) fun _ => rfl

def resumeState : Codec ResumeState :=
  (u16.pair (blobId.pair (hash.pair (u64.pair (u32.pair bytes))))).pmap
    (fun s => (s.version, s.id, s.root, s.totalLen, s.chunkSize, s.bits))
    (fun p => some ⟨p.1, p.2.1, p.2.2.1, p.2.2.2.1, p.2.2.2.2.1, p.2.2.2.2.2⟩) fun _ => rfl

abbrev manifestWire : Wire Manifest := Wire.ofCodec manifest

abbrev wantListWire : Wire WantList := Wire.ofCodec wantList

abbrev haveBitsWire : Wire HaveBits := Wire.ofCodec haveBits

abbrev availabilityWire : Wire Availability := Wire.ofCodec availability

abbrev treeProbeWire : Wire TreeProbe := Wire.ofCodec treeProbe

abbrev resumeStateWire : Wire ResumeState := Wire.ofCodec resumeState

end Format

/-- A part as the bytes spell it, before any check. -/
inductive Part where
  | id (text : String)
  | algo (name : String)
  | hash (bytes : Bytes)
  | ext (fields : List (UInt16 × Bytes))

def Part.Sound : Part → Prop
  | .id text => BlobId.isValid text = true
  | .algo name => name = HashAlgo.blake3.asStr
  | .hash bytes => bytes.length = 32
  | .ext fields => fields.length ≤ Ext.maxFields ∧ ∀ f ∈ fields, f.2.length ≤ Ext.maxValueLen

def Sound (parts : List Part) : Prop := ∀ p ∈ parts, p.Sound

@[simp] theorem sound_nil : Sound [] := by simp [Sound]

@[simp] theorem sound_cons (p : Part) (parts : List Part) :
    Sound (p :: parts) ↔ p.Sound ∧ Sound parts := by
  simp [Sound]

@[simp] theorem sound_append (a b : List Part) : Sound (a ++ b) ↔ Sound a ∧ Sound b := by
  simp [Sound, or_imp, forall_and]

@[simp] theorem sound_flatMap {ρ : Type} (parts : ρ → List Part) (rs : List ρ) :
    Sound (rs.flatMap parts) ↔ ∀ r ∈ rs, Sound (parts r) := by
  simp only [Sound, List.mem_flatMap]
  constructor
  · intro h r hr p hp
    exact h p ⟨r, hr, hp⟩
  · rintro h p ⟨r, hr, hp⟩
    exact h r hr p hp

/-- A codec, the codec of the plain values underneath, and the parts of those that are checked. -/
structure Spelling {α : Type} (c : Codec α) where
  ρ : Type
  raw : Codec ρ
  plain : α → ρ
  parts : ρ → List Part
  checked : c.Checked raw plain fun r => Sound (parts r)

namespace Spelling

variable {α β : Type} {c : Codec α} {d : Codec β}

def free (c : Codec α) : Spelling c where
  ρ := α
  raw := c
  plain := id
  parts _ := []
  checked := (Codec.Checked.free c).imp_iff fun _ => by simp

def pair (s : Spelling c) (t : Spelling d) : Spelling (c.pair d) where
  ρ := s.ρ × t.ρ
  raw := s.raw.pair t.raw
  plain p := (s.plain p.1, t.plain p.2)
  parts r := s.parts r.1 ++ t.parts r.2
  checked := (s.checked.pair t.checked).imp_iff fun _ => by simp

def list (s : Spelling c) : Spelling (Codec.list c) where
  ρ := List s.ρ
  raw := Codec.list s.raw
  plain := List.map s.plain
  parts rs := rs.flatMap s.parts
  checked := s.checked.list.imp_iff fun _ => by simp

def kinded {ι : Type} {F : ι → Type} (k : Codec ι) {c : ∀ i, Codec (F i)}
    (s : ∀ i, Spelling (c i)) :
    Spelling (Codec.kinded k c) where
  ρ := Sigma fun i => (s i).ρ
  raw := Codec.kinded k fun i => (s i).raw
  plain p := ⟨p.1, (s p.1).plain p.2⟩
  parts r := (s r.1).parts r.2
  checked := Codec.Checked.kinded k fun i => (s i).checked

def record (s : Spelling c) {put : β → α} {get : α → Option β} {h : ∀ b, get (put b) = some b}
    (hput : ∀ a, ∃ b, put b = a) : Spelling (c.pmap put get h) where
  ρ := s.ρ
  raw := s.raw
  plain b := s.plain (put b)
  parts := s.parts
  checked := by
    apply s.checked.pmap
    · intro a b hget
      obtain ⟨b', rfl⟩ := hput a
      rw [h] at hget
      rw [Option.some.inj hget]
    · intro r
      rw [s.checked.covers]
      constructor
      · rintro ⟨a, rfl⟩
        obtain ⟨b, rfl⟩ := hput a
        exact ⟨b, rfl⟩
      · rintro ⟨b, rfl⟩
        exact ⟨put b, rfl⟩

def newtype (part : α → Part) {put : β → α} {get : α → Option β} {h : ∀ b, get (put b) = some b}
    (hget : ∀ a b, get a = some b → put b = a) (hpart : ∀ a, (part a).Sound ↔ ∃ b, put b = a) :
    Spelling (c.pmap put get h) where
  ρ := α
  raw := c
  plain := put
  parts a := [part a]
  checked := (Codec.Checked.free c).pmap hget fun a => by simpa using hpart a

end Spelling

/-- What was written is read back, what is read is what the bytes spell and has every part
sound, and bytes that spell an unsound part are refused. -/
structure Trusted {α : Type} [Wire α] {c : Codec α} (s : Spelling c)
    (parts : α → List Part) : Prop where
  back : ∀ v : α, decode α (encode v) = .ok v
  accepted : ∀ b v, decode α b = .ok v → s.raw.read b = some (s.plain v) ∧ Sound (parts v)
  refused : ∀ b r, s.raw.read b = some r → ¬ Sound (s.parts r) → decode α b = .error .encode

theorem decode_ok_iff {α : Type} (c : Codec α) {b : Bytes} {v : α} :
    @decode α (Wire.ofCodec c).toPostcard b = .ok v ↔ c.read b = some v := by
  have hbytes : @Postcard.fromBytes α (Wire.ofCodec c).toPostcard b = c.read b := rfl
  rw [decode, hbytes]
  cases c.read b with
  | none => simp
  | some a => simp

theorem Spelling.trusted {α : Type} {c : Codec α} (s : Spelling c) {parts : α → List Part}
    (hparts : ∀ v, s.parts (s.plain v) = parts v) : @Trusted α (Wire.ofCodec c) c s parts := by
  let : Wire α := Wire.ofCodec c
  refine { back := decode_encode, accepted := ?_, refused := ?_ }
  · intro b v h
    rw [decode_ok_iff] at h
    rw [← hparts]
    exact ⟨s.checked.read.mp h, s.checked.sound v⟩
  · intro b r hr hun
    cases hd : decode α b with
    | ok v =>
      have hv := (decode_ok_iff c).mp hd
      exact absurd ((s.checked.read_iff hr).mp ⟨v, hv⟩) hun
    | error e =>
      unfold decode at hd
      split at hd
      · cases hd
      · rw [← hd]

namespace Spelling

open Format

def hash : Spelling Format.hash :=
  newtype Part.hash
    (by
      intro bytes h hget
      split at hget
      · cases hget
        rfl
      · cases hget)
    fun bytes => ⟨fun hlen => ⟨⟨bytes, hlen⟩, rfl⟩, fun ⟨h, hb⟩ => hb ▸ h.len⟩

def algo : Spelling Format.algo :=
  newtype Part.algo
    (by
      intro name a hget
      split at hget
      · cases hget
        exact Eq.symm (by assumption)
      · cases hget)
    fun name => ⟨fun hname => ⟨.blake3, hname.symm⟩, fun ⟨a, ha⟩ => by cases a; exact ha.symm⟩

def blobId : Spelling Format.blobId :=
  newtype Part.id
    (by
      intro text id hget
      split at hget
      · cases hget
        rfl
      · cases hget)
    fun text => ⟨fun hvalid => ⟨⟨text, hvalid⟩, rfl⟩, fun ⟨id, hid⟩ => hid ▸ id.valid⟩

def ext : Spelling Format.ext :=
  newtype Part.ext
    (by
      intro fields e hget
      cases hfrom : Ext.fromFields fields with
      | error err => rw [hfrom] at hget; cases hget
      | ok e' =>
        rw [hfrom] at hget
        cases hget
        exact Ext.fromFields_ok hfrom)
    fun fields => ⟨fun h => ⟨⟨fields, h.1, h.2⟩, rfl⟩, fun ⟨e, he⟩ => he ▸ ⟨e.fieldsOk, e.valuesOk⟩⟩

def chunkRef : Spelling Format.chunkRef := (hash.pair (free u32)).record fun p => ⟨⟨p.1, p.2⟩, rfl⟩

def entryFields : ∀ kind, Spelling (Format.entryFields kind)
  | .dir => free _
  | .file => (free string).pair ((free u32).pair ((free i64).pair ((free u64).pair chunkRef.list)))
  | .symlink => free _
  | .hardlink => free _

def entry : Spelling Format.entry :=
  (kinded entryKind entryFields).record fun p => by
    obtain ⟨kind, p⟩ := p
    cases kind with
    | dir => exact ⟨.dir p.1 p.2.1 p.2.2, rfl⟩
    | file => exact ⟨.file p.1 p.2.1 p.2.2.1 p.2.2.2.1 p.2.2.2.2, rfl⟩
    | symlink => exact ⟨.symlink p.1 p.2, rfl⟩
    | hardlink => exact ⟨.hardlink p.1 p.2, rfl⟩

def manifest : Spelling Format.manifest :=
  ((free u16).pair
    (blobId.pair ((free string.option).pair ((free u64).pair ((free u32).pair (hash.pair
    ((free i64).pair ext))))))).record fun p =>
      ⟨⟨p.1, p.2.1, p.2.2.1, p.2.2.2.1, p.2.2.2.2.1, p.2.2.2.2.2.1,
        p.2.2.2.2.2.2.1, p.2.2.2.2.2.2.2⟩, rfl⟩

def treeIndex : Spelling Format.treeIndex :=
  ((free u16).pair (blobId.pair (algo.pair ((free cdcParams).pair (entry.list.pair hash))))).record
    fun p =>
    ⟨⟨p.1, p.2.1, p.2.2.1, p.2.2.2.1, p.2.2.2.2.1, p.2.2.2.2.2⟩, rfl⟩

def indexDescriptor : Spelling Format.indexDescriptor :=
  ((free u16).pair (hash.pair (algo.pair (chunkRef.list.pair ((free u64).pair ext))))).record
    fun p =>
    ⟨⟨p.1, p.2.1, p.2.2.1, p.2.2.2.1, p.2.2.2.2.1, p.2.2.2.2.2⟩, rfl⟩

def wantList : Spelling Format.wantList :=
  ((free u16).pair hash.list).record fun p => ⟨⟨p.1, p.2⟩, rfl⟩

def tagRecord : Spelling Format.tagRecord :=
  ((free u16).pair (hash.pair hash.list)).record fun p => ⟨⟨p.1, p.2.1, p.2.2⟩, rfl⟩

def resumeState : Spelling Format.resumeState :=
  ((free u16).pair
    (blobId.pair (hash.pair ((free u64).pair ((free u32).pair (free bytes)))))).record fun p =>
    ⟨⟨p.1, p.2.1, p.2.2.1, p.2.2.2.1, p.2.2.2.2.1, p.2.2.2.2.2⟩, rfl⟩

end Spelling

def ChunkRef.parts (c : ChunkRef) : List Part := [.hash c.hash.bytes]

def Entry.parts : Entry → List Part
  | .file _ _ _ _ chunks => chunks.flatMap ChunkRef.parts
  | .dir _ _ _ => []
  | .symlink _ _ => []
  | .hardlink _ _ => []

def Manifest.parts (m : Manifest) : List Part :=
  [.id m.id.str, .hash m.root.bytes, .ext m.ext.fields]

def TreeIndex.parts (i : TreeIndex) : List Part :=
  [.id i.id.str, .algo i.algo.asStr] ++ i.entries.flatMap Entry.parts ++ [.hash i.rootHash.bytes]

def IndexDescriptor.parts (d : IndexDescriptor) : List Part :=
  [.hash d.root.bytes, .algo d.algo.asStr] ++ d.indexChunks.flatMap ChunkRef.parts ++
    [.ext d.ext.fields]

def WantList.parts (w : WantList) : List Part := w.hashes.map fun h => .hash h.bytes

def TagRecord.parts (t : TagRecord) : List Part :=
  .hash t.root.bytes :: t.chunks.map fun h => .hash h.bytes

def ResumeState.parts (s : ResumeState) : List Part := [.id s.id.str, .hash s.root.bytes]

namespace Spelling

theorem list_parts {α : Type} {c : Codec α} (s : Spelling c) (vs : List α) :
    s.list.parts (s.list.plain vs) = vs.flatMap fun v => s.parts (s.plain v) :=
  List.flatMap_map s.plain s.parts vs

theorem hash_list_parts (hashes : List Hash) :
    hash.list.parts (hash.list.plain hashes) = hashes.map fun h => .hash h.bytes := by
  rw [list_parts, List.map_eq_flatMap]
  rfl

theorem chunkRef_list_parts (chunks : List ChunkRef) :
    chunkRef.list.parts (chunkRef.list.plain chunks) = chunks.flatMap ChunkRef.parts :=
      list_parts chunkRef chunks

theorem entry_parts (e : Entry) : entry.parts (entry.plain e) = e.parts := by
  cases e with
  | dir path mode mtime => rfl
  | file path mode mtime size chunks => exact chunkRef_list_parts chunks
  | symlink path target => rfl
  | hardlink path target => rfl

theorem entry_list_parts (entries : List Entry) :
    entry.list.parts (entry.list.plain entries) = entries.flatMap Entry.parts := by
  rw [list_parts]
  exact List.flatMap_congr fun e _ => entry_parts e

end Spelling

section

attribute [local instance] Format.manifestWire Format.indexWire Format.wantListWire
  Format.haveBitsWire
  Format.availabilityWire Format.descriptorWire Format.treeProbeWire
    Format.tagWire Format.resumeStateWire

/-- Each of the nine messages is read back as it was written, and decoding enforces what the
types of its ids, hashes, algorithms and extension lists promise. -/
theorem messages_round_trip :
    Trusted Spelling.manifest Manifest.parts ∧ Trusted Spelling.treeIndex TreeIndex.parts ∧
      Trusted Spelling.wantList WantList.parts ∧ Trusted (Spelling.free Format.haveBits)
      (fun _ => []) ∧
      Trusted (Spelling.free Format.availability) (fun _ => []) ∧
      Trusted Spelling.indexDescriptor IndexDescriptor.parts ∧
      Trusted (Spelling.free Format.treeProbe) (fun _ => []) ∧
      Trusted Spelling.tagRecord TagRecord.parts ∧
      Trusted Spelling.resumeState ResumeState.parts := by
  refine ⟨Spelling.manifest.trusted fun m => rfl, Spelling.treeIndex.trusted fun i => ?_,
    Spelling.wantList.trusted fun w => Spelling.hash_list_parts w.hashes,
    (Spelling.free _).trusted fun b => rfl,
    (Spelling.free _).trusted fun a => rfl, Spelling.indexDescriptor.trusted fun d => ?_,
    (Spelling.free _).trusted fun p => rfl,
    Spelling.tagRecord.trusted fun t => congrArg (List.cons _) (Spelling.hash_list_parts t.chunks),
    Spelling.resumeState.trusted fun s => rfl⟩
  · have hentries := Spelling.entry_list_parts i.entries
    change [_, _] ++ (Spelling.entry.list.parts (Spelling.entry.list.plain i.entries) ++ [_]) = _
    rw [hentries]
    rfl
  · have hchunks := Spelling.chunkRef_list_parts d.indexChunks
    change [_, _] ++
      (Spelling.chunkRef.list.parts (Spelling.chunkRef.list.plain d.indexChunks) ++ [_]) = _
    rw [hchunks]
    rfl

end

end Zblob

import Mathlib.Data.List.AList
import Zblob.Compress
import Zblob.Lib.Runs

/-!
The content store in a directory: one file for each chunk, framed, perhaps compressed and
perhaps sealed, read back under whatever settings the store is opened with next.
-/

set_option autoImplicit false

namespace Zblob

@[ext] structure StoreKey where
  bytes : Bytes
  len : bytes.length = 32

instance : DecidableEq StoreKey := fun _ _ => decidable_of_iff _ StoreKey.ext_iff.symm

/-- XChaCha20-Poly1305 and keyed BLAKE3 under what is derived from a store key: the nonce of
an address and a container, and encryption with the address as associated data. -/
structure Cipher where
  nonce : StoreKey → Hash → Bytes → Bytes
  encrypt : StoreKey → Bytes → Hash → Bytes → Option Bytes
  decrypt : StoreKey → Bytes → Hash → Bytes → Option Bytes

structure Cipher.Laws (aead : Cipher) : Prop where
  nonceLen : ∀ key hash container, (aead.nonce key hash container).length = 24
  seals : ∀ key nonce hash msg, (aead.encrypt key nonce hash msg).isSome
  opens : ∀ key nonce hash msg out, aead.encrypt key nonce hash msg = some out →
    aead.decrypt key nonce hash out = some msg
  rejects : ∀ key other nonce hash msg out, aead.encrypt key nonce hash msg = some out →
    other ≠ key →
    aead.decrypt other nonce hash out = none

section Seal

variable (aead : Cipher)

def sealChunk (key : StoreKey) (hash : Hash) (container : Bytes) : Option Bytes :=
  (aead.encrypt key (aead.nonce key hash container) hash container).map fun ciphertext =>
    2 :: (aead.nonce key hash container ++ ciphertext)

def openChunk (key : StoreKey) (hash : Hash) : Bytes → Option Bytes
  | 2 :: rest =>
    if rest.length < 24 then none else aead.decrypt key (rest.take 24) hash (rest.drop 24)
  | _ => none

end Seal

structure DirOptions where
  verifyOnRead : Bool
  compression : ChunkCompression
  encryption : Option StoreKey

structure DirStore extends DirOptions where
  files : AList fun _ : String × String => Bytes

namespace DirStore

def path (hash : Hash) : String × String := (String.ofList (hash.toHex.toList.take 2), hash.toHex)

variable (hash : Bytes → Hash) (zstd : Zstd) (compress : Compress) (aead : Cipher) (s : DirStore)

def decodeAtRest (packed : Bytes) (h : Hash) : Except ContainerError Bytes :=
  if packed.head? = some 2 then
    match s.encryption with
    | none => .error .unsupported
    | some key =>
      match openChunk aead key h packed with
      | some inner => tryUnpack zstd inner
      | none => .error .unsupported
  else tryUnpack zstd packed

def has (h : Hash) : Bool :=
  match s.files.lookup (path h) with
  | none => false
  | some [] => false
  | some (0 :: _) => true
  | some packed => (s.decodeAtRest zstd aead packed h).toOption.isSome

def get (h : Hash) : Option Bytes × DirStore :=
  match s.files.lookup (path h) with
  | none => (none, s)
  | some packed =>
    match s.decodeAtRest zstd aead packed h with
    | .error .unsupported => (none, s)
    | .error .corrupt => (none, { s with files := s.files.erase (path h) })
    | .ok bytes =>
      if s.verifyOnRead ∧ hash bytes ≠ h then (none, { s with files := s.files.erase (path h) })
      else (some bytes, s)

def put (h : Hash) (bytes : Bytes) : Result Unit × DirStore :=
  match pack compress bytes s.compression with
  | .error _ => (.error .io, s)
  | .ok packed =>
    match s.encryption with
    | none => (.ok (), { s with files := s.files.insert (path h) packed })
    | some key =>
      match sealChunk aead key h packed with
      | none => (.error .io, s)
      | some out => (.ok (), { s with files := s.files.insert (path h) out })

def remove (h : Hash) : Bool × DirStore :=
  ((s.files.lookup (path h)).isSome, { s with files := s.files.erase (path h) })

def hashes : List Hash := s.files.keys.filterMap fun file => Hash.parse file.2

def hasMany (hs : List Hash) : List Bool := hs.map (s.has zstd aead)

def getMany : List Hash → DirStore → List (Option Bytes) × DirStore
  | [], s => ([], s)
  | h :: hs, s =>
    let first := s.get hash zstd aead h
    let rest := getMany hs first.2
    (first.1 :: rest.1, rest.2)

def putMany : List (Hash × Bytes) → DirStore → Result Unit × DirStore
  | [], s => (.ok (), s)
  | p :: ps, s =>
    match s.put compress aead p.1 p.2 with
    | (.error e, s) => (.error e, s)
    | (.ok (), s) => putMany ps s

end DirStore

inductive StoreOp where
  | reopen (options : DirOptions)
  | put (h : Hash) (bytes : Bytes)
  | putMany (ps : List (Hash × Bytes))
  | get (h : Hash)
  | getMany (hs : List Hash)
  | has (h : Hash)
  | hasMany (hs : List Hash)
  | remove (h : Hash)
  | hashes

inductive StoreAnswer where
  | opened
  | stored (result : Result Unit)
  | got (chunks : List (Option Bytes))
  | present (answers : List Bool)
  | removed (was : Bool)
  | listed (hashes : List Hash)

/-- The same answer; a listing has no order of its own. -/
inductive StoreAnswer.Same : StoreAnswer → StoreAnswer → Prop where
  | same (a : StoreAnswer) : Same a a
  | listed {xs ys : List Hash} : xs.Perm ys → Same (.listed xs) (.listed ys)

def DirStore.step (hash : Bytes → Hash) (zstd : Zstd) (compress : Compress)
    (aead : Cipher) (op : StoreOp)
    (s : DirStore) : StoreAnswer × DirStore :=
  match op with
  | .reopen options => (.opened, { options with files := s.files })
  | .put h bytes =>
    let r := s.put compress aead h bytes
    (.stored r.1, r.2)
  | .putMany ps =>
    let r := DirStore.putMany compress aead ps s
    (.stored r.1, r.2)
  | .get h =>
    let r := s.get hash zstd aead h
    (.got [r.1], r.2)
  | .getMany hs =>
    let r := DirStore.getMany hash zstd aead hs s
    (.got r.1, r.2)
  | .has h => (.present [s.has zstd aead h], s)
  | .hasMany hs => (.present (s.hasMany zstd aead hs), s)
  | .remove h =>
    let r := s.remove h
    (.removed r.1, r.2)
  | .hashes => (.listed s.hashes, s)

/-- What the store is for. -/
abbrev StoreMap := AList fun _ : Hash => Bytes

def StoreMap.step (op : StoreOp) (m : StoreMap) : StoreAnswer × StoreMap :=
  match op with
  | .reopen _ => (.opened, m)
  | .put h bytes => (.stored (.ok ()), m.insert h bytes)
  | .putMany ps => (.stored (.ok ()), ps.foldl (fun m p => m.insert p.1 p.2) m)
  | .get h => (.got [m.lookup h], m)
  | .getMany hs => (.got (hs.map m.lookup), m)
  | .has h => (.present [(m.lookup h).isSome], m)
  | .hasMany hs => (.present (hs.map fun h => (m.lookup h).isSome), m)
  | .remove h => (.removed (m.lookup h).isSome, m.erase h)
  | .hashes => (.listed m.keys, m)

end Zblob

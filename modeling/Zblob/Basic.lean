import Zblob.Lib.Files

/-!
The vocabulary of the crate: content hashes, blob ids, errors.
-/

set_option autoImplicit false

namespace Zblob

export ByteFile (Bytes)

structure Hash where
  bytes : Bytes
  len : bytes.length = 32
  deriving DecidableEq

theorem zeros_length : (List.replicate 32 (0 : UInt8)).length = 32 := rfl

def hexDigit (n : Nat) : Char := if n < 10 then Char.ofNat (48 + n) else Char.ofNat (87 + n)

def Hash.toHex (h : Hash) : String :=
  String.ofList (h.bytes.flatMap fun b => [hexDigit (b.toNat / 16), hexDigit (b.toNat % 16)])

inductive HashAlgo where
  | blake3
  deriving DecidableEq, Repr

def HashAlgo.asStr : HashAlgo → String
  | .blake3 => "blake3"

/-- `char::is_whitespace`: the Unicode `White_Space` property. -/
def isWhitespace (c : Char) : Bool :=
  let n := c.toNat
  (9 ≤ n && n ≤ 13) || n == 0x20 || n == 0x85 || n == 0xA0 || n == 0x1680 ||
    (0x2000 ≤ n && n ≤ 0x200A) || n == 0x2028 || n == 0x2029 || n == 0x202F || n == 0x205F ||
    n == 0x3000

def BlobId.maxLen : Nat := 200

def BlobId.isValid (id : String) : Bool :=
  !id.isEmpty && id.utf8ByteSize ≤ BlobId.maxLen && id != ".." && id.toList.head? != some '@' &&
    !id.toList.any (fun c => ['/', '\\', '*', '?', '#', '$'].contains c) &&
    !id.toList.any isWhitespace

structure BlobId where
  str : String
  valid : BlobId.isValid str = true
  deriving DecidableEq

/-- The control, format, separator and private-use characters past ASCII. Unassigned characters
and combining marks, which Rust escapes too, are not told apart from letters. -/
def isUnprintable (n : Nat) : Bool :=
  n ≥ 128 && (n % 65536 ≥ 65534 ||
    [(0x80, 0xA0), (0xAD, 0xAD), (0x600, 0x605), (0x61C, 0x61C), (0x6DD, 0x6DD), (0x70F, 0x70F),
      (0x890, 0x891), (0x8E2, 0x8E2), (0x1680, 0x1680), (0x180E, 0x180E), (0x2000, 0x200F),
      (0x2028, 0x202F), (0x205F, 0x206F), (0x3000, 0x3000), (0xE000, 0xF8FF), (0xFDD0, 0xFDEF),
      (0xFEFF, 0xFEFF), (0xFFF0, 0xFFFB), (0x110BD, 0x110BD), (0x110CD, 0x110CD),
      (0x13430, 0x1343F), (0x1BCA0, 0x1BCA3), (0x1D173, 0x1D17A), (0xE0000, 0x10FFFF)].any
      fun range => range.1 ≤ n && n ≤ range.2)

/-- The escapes of Rust's `Debug` for text. -/
def debugChar (c : Char) : List Char :=
  if c.toNat = 34 || c.toNat = 92 then [Char.ofNat 92, c]
  else if c.toNat = 9 then [Char.ofNat 92, 't']
  else if c.toNat = 10 then [Char.ofNat 92, 'n']
  else if c.toNat = 13 then [Char.ofNat 92, 'r']
  else if c.toNat = 0 then [Char.ofNat 92, '0']
  else if c.toNat < 32 || c.toNat = 127 || isUnprintable c.toNat then
    [Char.ofNat 92, 'u', Char.ofNat 123] ++ Nat.toDigits 16 c.toNat ++ [Char.ofNat 125]
  else [c]

def debugStr (s : String) : String :=
  String.ofList ([Char.ofNat 34] ++ s.toList.flatMap debugChar ++ [Char.ofNat 34])

def BlobId.debug (id : BlobId) : String := "BlobId(" ++ debugStr id.str ++ ")"

inductive BlobError where
  | zenoh
  | io
  | encode
  | unsupportedVersion (version : UInt16)
  | invalidManifest (reason : String)
  | rootMismatch (expected actual : Hash)
  | corruptStore (hash : Hash)
  | chunkLengthMismatch (expected actual : UInt32)
  | invalidRanges (reason : String)
  | invalidPrefix (reason : String)
  | notFound (what : String)
  | incomplete (received total : Nat)
  | cancelled (received total : Nat)
  | destinationExists (dest : String)
  | pushDenied (reason : String)
  | unsafePath (reason : String)
  | malformedMessage (reason : String)
  | usage (reason : String)
  | protocol (reason : String)
  deriving DecidableEq

abbrev Result (α : Type) := Except BlobError α

theorem map_ok {ε α β : Type} {f : α → β} {x : Except ε α} {b : β} (h : x.map f = .ok b) :
    ∃ a, x = .ok a ∧ f a = b := by
  cases x with
  | error e => cases h
  | ok a => exact ⟨a, rfl, Except.ok.inj h⟩

def BlobId.new (id : String) : Result BlobId :=
  if h : BlobId.isValid id = true then .ok ⟨id, h⟩
  else .error (.invalidManifest ("id " ++ debugStr id ++ " is not a valid single key segment"))

def validateId (id : String) : Result Unit := (BlobId.new id).map fun _ => ()

end Zblob

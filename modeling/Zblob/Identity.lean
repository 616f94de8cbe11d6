import Zblob.Wire

/-!
What a tree root stands for. The digest covers the postcard bytes of the entries without
their modification times, and those bytes can be read back.
-/

set_option autoImplicit false

namespace Zblob

namespace Format

abbrev EntryKind.Identity : EntryKind → Type
  | .dir => String × UInt32
  | .file => String × UInt32 × UInt64 × List ChunkRef
  | .symlink => String × String
  | .hardlink => String × String

def identityFields : ∀ kind : EntryKind, Codec kind.Identity
  | .dir => string.pair u32
  | .file => string.pair (u32.pair (u64.pair (Codec.list chunkRef)))
  | .symlink => string.pair string
  | .hardlink => string.pair string

def identityEntry : Codec IdentityEntry :=
  (Codec.kinded entryKind identityFields).pmap
    (fun
      | .dir path mode => ⟨.dir, path, mode⟩
      | .file path mode size chunks => ⟨.file, path, mode, size, chunks⟩
      | .symlink path target => ⟨.symlink, path, target⟩
      | .hardlink path target => ⟨.hardlink, path, target⟩)
    (fun
      | ⟨.dir, p⟩ => some (.dir p.1 p.2)
      | ⟨.file, p⟩ => some (.file p.1 p.2.1 p.2.2.1 p.2.2.2)
      | ⟨.symlink, p⟩ => some (.symlink p.1 p.2)
      | ⟨.hardlink, p⟩ => some (.hardlink p.1 p.2))
    fun e => by cases e <;> rfl

def identityView : Codec (UInt16 × HashAlgo × List IdentityEntry) :=
  u16.pair (algo.pair (Codec.list identityEntry))

end Format

def rootPreimage (entries : List Entry) : Bytes :=
  Format.identityView.enc (wireVersion, .blake3, entries.map Entry.identity)

def TreeHash.postcard (hash : Bytes → Hash) : TreeHash where
  hash := hash
  encode version algo view := Format.identityView.enc (version, algo, view)

theorem rootDigest_postcard (hash : Bytes → Hash) (entries : List Entry) :
    (TreeHash.postcard hash).rootDigest entries = hash (rootPreimage entries) := rfl

def Entry.forgetMtime : Entry → Entry
  | .dir path mode _ => .dir path mode 0
  | .file path mode _ size chunks => .file path mode 0 size chunks
  | .symlink path target => .symlink path target
  | .hardlink path target => .hardlink path target

theorem identity_eq_iff {a b : Entry} :
    a.identity = b.identity ↔ a.forgetMtime = b.forgetMtime := by
  cases a <;> cases b <;> simp [Entry.identity, Entry.forgetMtime]

theorem map_identity_eq_iff {es es' : List Entry} :
    es.map Entry.identity = es'.map Entry.identity ↔ es.map Entry.forgetMtime =
      es'.map Entry.forgetMtime := by
  induction es generalizing es' with
  | nil => cases es' <;> simp
  | cons e es ih =>
    cases es' with
    | nil => simp
    | cons e' es' => simp only [List.map_cons, List.cons.injEq, identity_eq_iff, ih]

/-- Two entry lists have one preimage exactly when only their times tell them apart. -/
theorem rootPreimage_eq_iff {es es' : List Entry} :
    rootPreimage es = rootPreimage es' ↔ es.map Entry.forgetMtime = es'.map Entry.forgetMtime := by
  rw [← map_identity_eq_iff]
  constructor
  · intro h
    have hview := Format.identityView.enc_injective h
    exact congrArg (fun view => view.2.2) hview
  · intro h
    rw [rootPreimage, h]
    rfl

/-- `hash` does not send the two byte strings to one value, unless they are one. -/
def Distinguishes (hash : Bytes → Hash) (a b : Bytes) : Prop := hash a = hash b → a = b

theorem root_identity (hash : Bytes → Hash) (es es' : List Entry)
    (hfree : Distinguishes hash (rootPreimage es) (rootPreimage es')) :
    (TreeHash.postcard hash).rootDigest es = (TreeHash.postcard hash).rootDigest es' ↔
      es.map Entry.forgetMtime = es'.map Entry.forgetMtime := by
  rw [rootDigest_postcard, rootDigest_postcard, ← rootPreimage_eq_iff]
  constructor
  · exact hfree
  · intro h
    rw [h]

/-- BLAKE3 at the preimages of one directory with modes `0o755` and `0o700`. -/
def blake3OfDir (preimage : Bytes) : Hash :=
  if preimage = [3, 6, 98, 108, 97, 107, 101, 51, 1, 0, 1, 100, 237, 3] then
    ⟨[254, 204, 238, 226, 236, 128, 38, 37, 116, 202, 108, 1, 20, 16, 50, 136,
      32, 245, 46, 61, 73, 91, 104, 165, 182, 139, 34, 68, 248, 34, 35, 59], rfl⟩
  else
    ⟨[150, 150, 133, 223, 58, 65, 20, 46, 44, 93, 166, 78, 180, 101, 230, 182,
      72, 248, 57, 93, 251, 165, 101, 170, 60, 169, 90, 104, 131, 228, 237, 74], rfl⟩

/-- The mode counts for the root. -/
theorem root_identity_mode :
    (TreeHash.postcard blake3OfDir).rootDigest [.dir "d" 0o755 1700000000] ≠
      (TreeHash.postcard blake3OfDir).rootDigest [.dir "d" 0o700 1700000000] := by
  have happart : blake3OfDir (rootPreimage [.dir "d" 0o755 1700000000]) ≠
      blake3OfDir (rootPreimage [.dir "d" 0o700 1700000000]) := by decide +kernel
  rw [Ne, root_identity blake3OfDir _ _ fun h => absurd h happart]
  decide

end Zblob

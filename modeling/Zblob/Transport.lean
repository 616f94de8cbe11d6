import Zblob.Verify

/-!
What arrives over Zenoh. A responder chooses the key, the encoding and the
payload of every reply; nothing here assumes that it is honest.
-/

set_option autoImplicit false

namespace Zblob

class Postcard (α : Type) where
  fromBytes : Bytes → Option α

def decode (α : Type) [Postcard α] (data : Bytes) : Result α :=
  match Postcard.fromBytes data with
  | some a => .ok a
  | none => .error .encode

structure Sample where
  key : String
  encoding : String
  payload : Bytes

abbrev Reply := Except Bytes Sample

def encManifest : String := "zblob/manifest;v=3"
def encSlice : String := "zblob/bao4;v=3"
def encIndex : String := "zblob/index;v=3"
def encIndexDesc : String := "zblob/indexdesc;v=3"
def encChunk : String := "zblob/chunk;v=3"
def encFanout : String := "zblob/fanout;v=3"

/-- `str::parse::<u32>`: an optional `+`, then decimal digits, at most `u32::MAX`. -/
def parseU32 (s : List Char) : Option Nat :=
  let digits := match s with
    | '+' :: rest => rest
    | _ => s
  if digits.isEmpty || !digits.all Char.isDigit then none
  else
    let n := digits.foldl (fun acc c => acc * 10 + (c.toNat - 48)) 0
    if n ≤ u32Max then some n else none

def rsplitSlash (s : List Char) : Option (List Char × List Char) :=
  let tail := (s.reverse.takeWhile (· ≠ '/')).reverse
  if tail.length = s.length then none
  else some (s.take (s.length - tail.length - 1), tail)

def parseSliceIndex (key : String) : Option Nat :=
  (rsplitSlash key.toList).bind fun (head, idx) =>
    if "/slice".toList.isSuffixOf head then parseU32 idx else none

structure ClientConfig where
  origin : String
  maxAttempts : Nat
  maxChunksPerQuery : Nat
  maxBlobSize : UInt64

structure DownloadRequest where
  id : String
  expectedRoot : Option Hash

section Start

variable [Postcard Manifest] (bao : Bao) (cfg : ClientConfig)

def manifestVerdict (id : String) (expectedRoot : Option Hash) (payload : Bytes) :
    Result Manifest := do
  let m ← decode Manifest payload
  m.validate cfg.maxBlobSize
  if m.id.str ≠ id then
    .error (.malformedMessage
      ("manifest id " ++ m.id.debug ++ " does not match requested " ++ debugStr id))
  else
    match expectedRoot with
    | some expected =>
      if m.root ≠ expected then .error (.rootMismatch expected m.root) else .ok m
    | none => .ok m

/-- The receive loop: the first reply whose verdict is good wins, the first
rejection is kept for diagnostics. -/
def manifestLoop (id : String) (expectedRoot : Option Hash) :
    Option BlobError → List Reply → Result Manifest
  | rejected, [] => .error (rejected.getD (.notFound id))
  | rejected, .error _ :: rest => manifestLoop id expectedRoot rejected rest
  | rejected, .ok sample :: rest =>
    if sample.encoding ≠ encManifest then manifestLoop id expectedRoot rejected rest
    else
      match manifestVerdict cfg id expectedRoot sample.payload with
      | .ok m => .ok m
      | .error e => manifestLoop id expectedRoot (rejected <|> some e) rest

def fetchManifestMatching (id : String) (expectedRoot : Option Hash) (query : Option (List Reply)) :
    Result Manifest := do
  validateId id
  match query with
  | none => .error .zenoh
  | some replies => manifestLoop cfg id expectedRoot none replies

/-- Fetch the manifest, then refuse an empty blob under a foreign root, then
build the geometry. The last two run after the receive loop has returned. -/
def start (req : DownloadRequest) (query : Option (List Reply)) :
    Result (Manifest × TransferChunks) := do
  let m ← fetchManifestMatching cfg req.id req.expectedRoot query
  if m.totalLen = 0 ∧ m.root ≠ bao.hash [] then
    .error (.rootMismatch (bao.hash []) m.root)
  else
    let c ← m.chunks
    .ok (m, c)

variable {bao cfg}

theorem manifestVerdict_ok {id : String} {expectedRoot : Option Hash}
    {payload : Bytes} {m : Manifest}
    (h : manifestVerdict cfg id expectedRoot payload = .ok m) :
    decode Manifest payload = .ok m ∧ m.validate cfg.maxBlobSize = .ok () ∧ m.id.str = id ∧
      ∀ r, expectedRoot = some r → m.root = r := by
  unfold manifestVerdict at h
  cases hd : decode Manifest payload with
  | error e => simp [hd, bind, Except.bind] at h
  | ok m' =>
    cases hv : m'.validate cfg.maxBlobSize with
    | error e => simp [hd, hv, bind, Except.bind] at h
    | ok u =>
      simp only [hd, hv, bind, Except.bind] at h
      split at h
      · cases h
      · rename_i hid
        cases he : expectedRoot with
        | none =>
          simp only [he] at h
          cases h
          exact ⟨rfl, hv, not_not.mp hid, by simp⟩
        | some r =>
          simp only [he] at h
          split at h
          · cases h
          · rename_i hr
            cases h
            exact ⟨rfl, hv, not_not.mp hid, by rintro _ ⟨rfl⟩; exact not_not.mp hr⟩

theorem manifestLoop_ok {id : String} {expectedRoot : Option Hash} {rejected : Option BlobError}
    {replies : List Reply} {m : Manifest}
    (h : manifestLoop cfg id expectedRoot rejected replies = .ok m) :
    ∃ sample, .ok sample ∈ replies ∧ sample.encoding = encManifest ∧
      manifestVerdict cfg id expectedRoot sample.payload = .ok m := by
  induction replies generalizing rejected with
  | nil => simp [manifestLoop] at h
  | cons r rest ih =>
    have later : ∀ {rej : Option BlobError}, manifestLoop cfg id expectedRoot rej rest = .ok m →
        ∃ sample, .ok sample ∈ r :: rest ∧ sample.encoding = encManifest ∧
          manifestVerdict cfg id expectedRoot sample.payload = .ok m := by
      intro rej hr
      obtain ⟨s, hs, he⟩ := ih hr
      exact ⟨s, List.mem_cons_of_mem _ hs, he⟩
    cases r with
    | error e => exact later (by simpa [manifestLoop] using h)
    | ok sample =>
      unfold manifestLoop at h
      split at h
      · exact later h
      · rename_i henc
        cases hv : manifestVerdict cfg id expectedRoot sample.payload with
        | ok m' =>
          simp only [hv] at h
          cases h
          exact ⟨sample, by simp, not_not.mp henc, hv⟩
        | error e =>
          simp only [hv] at h
          exact later h

theorem start_ok {req : DownloadRequest} {query : Option (List Reply)} {m : Manifest}
    {c : TransferChunks} (h : start bao cfg req query = .ok (m, c)) :
    m.chunks = .ok c ∧ (m.totalLen = 0 → m.root = bao.hash []) ∧
      ∀ r, req.expectedRoot = some r → m.root = r := by
  unfold start at h
  cases hf : fetchManifestMatching cfg req.id req.expectedRoot query with
  | error e => simp [hf, bind, Except.bind] at h
  | ok m' =>
    simp only [hf, bind, Except.bind] at h
    split at h
    · cases h
    · rename_i hempty
      cases hc : m'.chunks with
      | error e => simp [hc] at h
      | ok c' =>
        simp only [hc] at h
        cases h
        refine ⟨hc, fun h0 => by_contra fun hr => hempty ⟨h0, hr⟩, ?_⟩
        unfold fetchManifestMatching at hf
        cases hv : validateId req.id with
        | error e => simp [hv, bind, Except.bind] at hf
        | ok u =>
          cases query with
          | none => simp [hv, bind, Except.bind] at hf
          | some replies =>
            simp only [hv, bind, Except.bind] at hf
            obtain ⟨s, -, -, hs⟩ := manifestLoop_ok hf
            exact (manifestVerdict_ok hs).2.2.2

end Start

end Zblob

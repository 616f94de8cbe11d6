import Zblob.FetchSafety
import Zblob.Messages
import Zblob.Routing

/-!
A chunk on its way from a holder to a client: framed by a server or a publisher, and judged
on either of the two fetch paths.
-/

set_option autoImplicit false

namespace Zblob

inductive QueryErr where
  | text (reason : String)
  | undecodable (e : BlobError)
  | unusable (e : BlobError)

def firstRepeated : List Hash → List Hash → Option Hash
  | _, [] => none
  | seen, h :: rest => if h ∈ seen then some h else firstRepeated (h :: seen) rest

def WantList.validate (w : WantList) (max : Nat) : Result Unit :=
  if w.version ≠ wireVersion then .error (.unsupportedVersion w.version)
  else if w.hashes.isEmpty then .error (.malformedMessage "empty want list")
  else if w.hashes.length > max then
    .error (.malformedMessage (s!"want list of {w.hashes.length} exceeds the limit of {max}"))
  else
    match firstRepeated [] w.hashes with
    | some dup => .error (.malformedMessage ("want list repeats " ++ dup.toHex))
    | none => .ok ()

def wantListOf [Postcard WantList] (maxWantList : Nat) : Option Bytes → Except QueryErr WantList
  | none => .error (.text "want-list endpoint requires a payload")
  | some payload =>
    match decode WantList payload with
    | .error e => .error (.undecodable e)
    | .ok want =>
      match want.validate maxWantList with
      | .error e => .error (.unusable e)
      | .ok () => .ok want

section Serve

variable (compress : Compress) (s : TreeServer)

def TreeServer.packAll : List Hash → Result (List Sample)
  | [] => .ok []
  | h :: rest =>
    match s.chunkReply compress h with
    | .error e => .error e
    | .ok reply => (TreeServer.packAll rest).map (reply.toList ++ ·)

def TreeServer.serveChunkBatch [Postcard WantList] (maxWantList : Nat)
    (acceptsAny : Bool) (payload : Option Bytes) :
    Result (Except QueryErr (List Sample)) :=
  if !acceptsAny then
    .ok (.error
      (.text ("a batch fetch replies on each chunk's own key, which does not intersect " ++
        "the batch key: issue the query with accept_replies(ReplyKeyExpr::Any)")))
  else
    match wantListOf maxWantList payload with
    | .error e => .ok (.error e)
    | .ok want => (s.packAll compress want.hashes).map .ok

def publishChunk (storePrefix : ServePrefix) (hash : Hash) (bytes : Bytes)
    (compression : ChunkCompression) :
    Result Sample :=
  (pack compress bytes compression).map fun packed =>
    ⟨storeKey storePrefix.str .blake3 hash, encChunk, packed⟩

end Serve

section Fetch

variable (hash : Bytes → Hash) (zstd : Zstd)

/-- A store client; its builder lowers the cap to what a container may hold. -/
structure StoreClient where
  storePrefix : QueryPrefix
  maxChunkBytes : Nat
  bounded : maxChunkBytes ≤ maxUnpacked

def StoreClient.new (storePrefix : QueryPrefix) : StoreClient :=
  ⟨storePrefix, maxUnpacked, Nat.le_refl _⟩

def StoreClient.withMaxChunkBytes (c : StoreClient) (n : Nat) : StoreClient :=
  { c with maxChunkBytes := min n maxUnpacked, bounded := Nat.min_le_right _ _ }

def StoreClient.fetchChunk (c : StoreClient) (want : Hash) (query : Option (List Reply)) :
    Result Bytes :=
  (fetchOneChunk hash zstd want none c.maxChunkBytes query).map Prod.fst

def StoreClient.fetchChunkSized (c : StoreClient) (want : Hash) (len : UInt32)
    (query : Option (List Reply)) : Result Bytes :=
  (fetchOneChunk hash zstd want (some len) c.maxChunkBytes query).map Prod.fst

end Fetch

/-- Both builds can do what the policy asks for: nothing for raw frames; for zstd the holder's
compresses anything, and the client's gives it back. -/
def ChunkCompression.Supported (compress : Compress) (zstd : Zstd) : ChunkCompression → Prop
  | .none => True
  | .zstd level => ∃ c d, compress = some c ∧ zstd = some d ∧
      ∀ data, ∃ out, c data level = some out ∧ d out data.length = some data

section Way

variable {hash : Bytes → Hash} {zstd : Zstd} {compress : Compress} {policy : ChunkCompression}

theorem pack_supported (hsup : policy.Supported compress zstd) (bytes : Bytes) :
    ∃ packed, pack compress bytes policy = .ok packed ∧ packed.length ≤ bytes.length + 1 ∧
      (bytes.length ≤ maxUnpacked → tryUnpack zstd packed = .ok bytes) := by
  have hraw : bytes.length ≤ maxUnpacked → tryUnpack zstd (0 :: bytes) = .ok bytes := by
    intro hmax
    simp only [tryUnpack]
    rw [if_neg (by omega)]
  cases policy with
  | none => exact ⟨0 :: bytes, rfl, Nat.le_refl _, hraw⟩
  | zstd level =>
    obtain ⟨c, d, rfl, rfl, hback⟩ := hsup
    obtain ⟨out, hout, hd⟩ := hback bytes
    simp only [pack, hout]
    split_ifs with hbail
    · exact ⟨0 :: bytes, rfl, Nat.le_refl _, hraw⟩
    · refine ⟨_, rfl, ?_, fun hmax => tryUnpack_frame hmax hd⟩
      simp only [List.length_cons, List.length_append, Ext.toLe_length]
      omega

theorem chunkReply_supported {s : TreeServer} (hsup : s.compression.Supported compress zstd)
    (h : Hash) :
    ∃ reply, s.chunkReply compress h = .ok reply := by
  rw [TreeServer.chunkReply]
  cases s.store h with
  | none => exact ⟨none, rfl⟩
  | some bytes =>
    obtain ⟨packed, hpack, -⟩ := pack_supported hsup bytes
    simp only [hpack]
    exact ⟨_, rfl⟩

theorem packAll_mem {s : TreeServer} (hsup : s.compression.Supported compress zstd)
    {h : Hash} {reply : Sample}
    (hreply : s.chunkReply compress h = .ok (some reply)) {hashes : List Hash} (hmem : h ∈ hashes) :
    ∃ samples, s.packAll compress hashes = .ok samples ∧ reply ∈ samples := by
  have htotal : ∀ hashes, ∃ samples, s.packAll compress hashes = .ok samples := by
    intro hashes
    induction hashes with
    | nil => exact ⟨[], rfl⟩
    | cons k rest ih =>
      obtain ⟨r, hr⟩ := chunkReply_supported hsup k
      obtain ⟨samples, hs⟩ := ih
      exact ⟨r.toList ++ samples, by rw [TreeServer.packAll, hr, hs]; rfl⟩
  induction hashes with
  | nil => cases hmem
  | cons k rest ih =>
    rcases List.mem_cons.mp hmem with rfl | hrest
    · obtain ⟨samples, hs⟩ := htotal rest
      exact ⟨(some reply).toList ++ samples, by rw [TreeServer.packAll, hreply, hs]; rfl, by simp⟩
    · obtain ⟨samples, hs, hin⟩ := ih hrest
      obtain ⟨r, hr⟩ := chunkReply_supported hsup k
      exact ⟨r.toList ++ samples,
        by rw [TreeServer.packAll, hr, hs]; rfl, List.mem_append_right _ hin⟩

/-- The reply for a chunk, as every honest holder under `p` makes it: a server in answer to a
query for it or to a batch that wants it, and a publisher. -/
structure Made (hash : Bytes → Hash) (compress : Compress) (p : ServePrefix)
    (policy : ChunkCompression) (bytes : Bytes) (reply : Sample) : Prop where
  single : ∀ (s : TreeServer) (q : QueryPrefix), s.storePrefix = p.str → s.compression = policy →
    s.store (hash bytes) = some bytes → Shaped q.str → Stands p q →
    s.serveChunkQuery compress (storeKey q.str .blake3 (hash bytes)) = .ok (some reply)
  batch : ∀ [Postcard WantList] (s : TreeServer) (maxWantList : Nat) (payload : Option Bytes)
      (want : WantList),
    s.storePrefix = p.str → s.compression = policy → s.store (hash bytes) = some bytes →
    wantListOf maxWantList payload = .ok want → hash bytes ∈ want.hashes →
    ∃ samples, s.serveChunkBatch compress maxWantList true payload = .ok (.ok samples) ∧
    reply ∈ samples
  published : publishChunk compress p (hash bytes) bytes policy = .ok reply

/-- Both fetch paths take `reply` for the chunk, the single one whether it knows the length or
has a cap that the chunk is within, and so do the two fetches of a store client. -/
structure Taken (hash : Bytes → Hash) (zstd : Zstd) (p : ServePrefix) (bytes : Bytes)
    (reply : Sample) : Prop where
  batch : ∀ (cfg : TreeConfig) (wanted : List ChunkRef), cfg.storePrefix = p.str →
    expectedLen wanted (hash bytes) = some (UInt32.ofNat bytes.length) →
    acceptBatchReply hash zstd cfg reply wanted = some (hash bytes, bytes)
  single : ∀ (expectedLen : Option UInt32) (maxBytes : Nat),
    expectedLen = some (UInt32.ofNat bytes.length) ∨
      (expectedLen = none ∧ bytes.length ≤ maxBytes) →
    ∀ before rest,
      (∀ q ∈ before, ∀ b, judgeReply hash zstd (hash bytes) expectedLen maxBytes q ≠ .accepted b) →
      ∃ n, fetchOneChunk hash zstd (hash bytes) expectedLen maxBytes
        (some (before ++ .ok reply :: rest)) = .ok (bytes, n)
  client : ∀ c : StoreClient, bytes.length ≤ c.maxChunkBytes →
    ∀ before rest,
      (∀ q ∈ before, ∀ b, judgeReply hash zstd (hash bytes) none c.maxChunkBytes q ≠ .accepted b) →
      c.fetchChunk hash zstd (hash bytes) (some (before ++ .ok reply :: rest)) = .ok bytes
  clientSized : ∀ c : StoreClient, ∀ before rest,
    (∀ q ∈ before, ∀ b, judgeReply hash zstd (hash bytes) (some (UInt32.ofNat bytes.length))
      c.maxChunkBytes q ≠ .accepted b) →
    c.fetchChunkSized hash zstd (hash bytes) (UInt32.ofNat bytes.length)
      (some (before ++ .ok reply :: rest)) = .ok bytes

theorem parseTier2Tail_storeKey {p : ServePrefix} {q : QueryPrefix}
    (hq : Shaped q.str) (hstands : Stands p q) (h : Hash) :
    parseTier2Tail p.str (storeKey q.str .blake3 h) = some [HashAlgo.asStr .blake3, h.toHex] := by
  refine parseTier2Tail_key hq hstands [HashAlgo.asStr .blake3, h.toHex] _ ?_ (by simp) (by simp) ?_
  · simp [storeKey, slashJoin]
  · simp [HashAlgo.segment, h.toHex_segment]

theorem made_reply {p : ServePrefix} {bytes packed : Bytes} (hsup : policy.Supported compress zstd)
    (hpack : pack compress bytes policy = .ok packed) :
    Made hash compress p policy bytes ⟨storeKey p.str .blake3 (hash bytes), encChunk, packed⟩ := by
  have hreply : ∀ s : TreeServer, s.storePrefix = p.str → s.compression = policy →
      s.store (hash bytes) = some bytes →
      s.chunkReply compress (hash bytes) =
      .ok (some ⟨storeKey p.str .blake3 (hash bytes), encChunk, packed⟩) := by
    intro s hunder hpolicy hstored
    rw [TreeServer.chunkReply, hstored, hpolicy, hunder]
    simp only [hpack]
    rfl
  refine ⟨?_, ?_, ?_⟩
  · intro s q hunder hpolicy hstored hq hstands
    rw [TreeServer.serveChunkQuery, hunder, parseTier2Tail_storeKey hq hstands]
    simp only [Hash.parse_toHex]
    exact hreply s hunder hpolicy hstored
  · intro _ s maxWantList payload want hunder hpolicy hstored hwant hmem
    obtain ⟨samples, hsamples, hin⟩ :=
      packAll_mem (hpolicy ▸ hsup) (hreply s hunder hpolicy hstored) hmem
    exact ⟨samples, by rw [TreeServer.serveChunkBatch, hwant]; simp [hsamples, Except.map], hin⟩
  · rw [publishChunk, hpack]
    rfl

theorem taken_batch {p : ServePrefix} {bytes packed : Bytes}
    (hlen : packed.length ≤ bytes.length + 1) (hun : tryUnpack zstd packed = .ok bytes)
    {cfg : TreeConfig} {wanted : List ChunkRef} (hunder : cfg.storePrefix = p.str)
    (hwanted : expectedLen wanted (hash bytes) = some (UInt32.ofNat bytes.length)) :
    acceptBatchReply hash zstd cfg ⟨storeKey p.str .blake3 (hash bytes), encChunk, packed⟩ wanted =
      some (hash bytes, bytes) := by
  have hmod := tryUnpack_mod hun
  have hsize : (UInt32.ofNat bytes.length).toNat = bytes.length := by
    rw [UInt32.toNat_ofNat']
    exact hmod
  have hself : Stands p ⟨p.str, p.shaped.noParameters⟩ := List.forall₂_same.mpr fun _ _ => .inl rfl
  rw [acceptBatchReply, hunder, parseTier2Tail_storeKey p.shaped hself]
  simp only [Hash.parse_toHex, bind, Option.bind_some, hwanted, hun, Except.toOption]
  rw [if_neg (by simp), if_neg (by simp), if_neg (by rw [hsize]; omega), hsize,
    if_neg (by simp [hmod])]

theorem taken_single {p : ServePrefix} {bytes packed : Bytes}
    (hlen : packed.length ≤ bytes.length + 1) (hun : tryUnpack zstd packed = .ok bytes)
    {expectedLen : Option UInt32} {maxBytes : Nat}
    (hexpected : expectedLen = some (UInt32.ofNat bytes.length) ∨
      (expectedLen = none ∧ bytes.length ≤ maxBytes)) (before rest : List Reply)
    (hnone : ∀ q ∈ before, ∀ b,
      judgeReply hash zstd (hash bytes) expectedLen maxBytes q ≠ .accepted b) :
    ∃ n, fetchOneChunk hash zstd (hash bytes) expectedLen maxBytes
      (some (before ++ .ok ⟨storeKey p.str .blake3 (hash bytes), encChunk, packed⟩ :: rest)) =
        .ok (bytes, n) := by
  have hsize : (UInt32.ofNat bytes.length).toNat = bytes.length := by
    rw [UInt32.toNat_ofNat']
    exact tryUnpack_mod hun
  refine fetchOneLoop_first 0 hnone (judgeReply_accepted.mpr ⟨_, rfl, rfl, ?_, hun, ?_, rfl⟩)
  · rcases hexpected with rfl | ⟨rfl, hcap⟩
    · simp only [Option.map_some, Option.getD_some, hsize]
      omega
    · simp only [Option.map_none, Option.getD_none]
      omega
  · intro n hn
    rcases hexpected with rfl | ⟨rfl, -⟩
    · cases hn
      exact hsize.symm
    · cases hn

theorem taken_reply {p : ServePrefix} {bytes packed : Bytes}
    (hlen : packed.length ≤ bytes.length + 1) (hun : tryUnpack zstd packed = .ok bytes) :
    Taken hash zstd p bytes ⟨storeKey p.str .blake3 (hash bytes), encChunk, packed⟩ where
  batch _ _ hunder hwanted := taken_batch hlen hun hunder hwanted
  single _ _ hexpected before rest hnone := taken_single hlen hun hexpected before rest hnone
  client c hcap before rest hnone := by
    obtain ⟨n, hn⟩ := taken_single hlen hun (.inr ⟨rfl, hcap⟩) before rest hnone
    rw [StoreClient.fetchChunk, hn]
    rfl
  clientSized c before rest hnone := by
    obtain ⟨n, hn⟩ := taken_single hlen hun (.inl rfl) before rest hnone
    rw [StoreClient.fetchChunkSized, hn]
    rfl

structure Fits (hash : Bytes → Hash) (want : Hash) (expectedLen : Option UInt32) (bytes : Bytes) :
    Prop where
  bounded : bytes.length ≤ maxUnpacked
  addressed : hash bytes = want
  sized : ∀ len, expectedLen = some len → bytes.length = len.toNat

theorem fetchOneChunk_fits {want : Hash} {expectedLen : Option UInt32} {maxBytes n : Nat}
    {query : Option (List Reply)} {bytes : Bytes}
    (h : fetchOneChunk hash zstd want expectedLen maxBytes query = .ok (bytes, n)) :
    Fits hash want expectedLen bytes := by
  obtain ⟨-, r, -, -, hr⟩ := fetchOneChunk_ok h
  obtain ⟨sample, -, -, -, hun, hlen, hhash⟩ := judgeReply_accepted.mp hr
  exact ⟨tryUnpack_length hun, hhash, hlen⟩

theorem StoreClient.fetchChunk_fits {c : StoreClient} {want : Hash} {query : Option (List Reply)}
    {bytes : Bytes} (h : c.fetchChunk hash zstd want query = .ok bytes) :
    Fits hash want none bytes := by
  obtain ⟨⟨b, n⟩, hb, rfl⟩ := map_ok h
  exact fetchOneChunk_fits hb

theorem StoreClient.fetchChunkSized_fits {c : StoreClient} {want : Hash} {len : UInt32}
    {query : Option (List Reply)} {bytes : Bytes}
    (h : c.fetchChunkSized hash zstd want len query = .ok bytes) :
    Fits hash want (some len) bytes := by
  obtain ⟨⟨b, n⟩, hb, rfl⟩ := map_ok h
  exact fetchOneChunk_fits hb

end Way

/-- What an honest holder serves is accepted unchanged: under a policy that both builds support
a chunk of up to 16 MiB is packed with at most one byte more, unpacks to itself, and both fetch
paths take the reply for it, as does a store client. And whatever a reply holds, none of them
returns anything longer, of another length than the one expected, or of another address. -/
theorem honest_chunk_accepted (hash : Bytes → Hash) (compress : Compress) (zstd : Zstd)
    (p : ServePrefix) :
    (∀ (policy : ChunkCompression) (bytes : Bytes), policy.Supported compress zstd →
      bytes.length ≤ maxUnpacked →
      ∃ packed, pack compress bytes policy = .ok packed ∧ packed.length ≤ bytes.length + 1 ∧
        tryUnpack zstd packed = .ok bytes ∧ ∃ reply : Sample, reply.payload = packed ∧
          Made hash compress p policy bytes reply ∧ Taken hash zstd p bytes reply) ∧
    (∀ (cfg : TreeConfig) (sample : Sample) (wanted : List ChunkRef) (h : Hash) (bytes : Bytes),
      acceptBatchReply hash zstd cfg sample wanted = some (h, bytes) →
      ∃ len, expectedLen wanted h = some len ∧ Fits hash h (some len) bytes) ∧
    (∀ (want : Hash) (expectedLen : Option UInt32) (maxBytes n : Nat)
      (query : Option (List Reply)) (bytes : Bytes),
      fetchOneChunk hash zstd want expectedLen maxBytes query = .ok (bytes, n) →
      Fits hash want expectedLen bytes) ∧
    (∀ (c : StoreClient) (want : Hash) (query : Option (List Reply)) (bytes : Bytes),
      (c.fetchChunk hash zstd want query = .ok bytes → Fits hash want none bytes) ∧
      ∀ len, c.fetchChunkSized hash zstd want len query = .ok bytes →
        Fits hash want (some len) bytes) := by
  refine ⟨?_, ?_, ?_, ?_⟩
  · intro policy bytes hsup hmax
    obtain ⟨packed, hpack, hlen, hun⟩ := pack_supported hsup bytes
    exact ⟨packed, hpack, hlen, hun hmax, _, rfl, made_reply hsup hpack,
      taken_reply hlen (hun hmax)⟩
  · intro cfg sample wanted h bytes haccept
    obtain ⟨len, hlen, hun, hhash, hsize⟩ := acceptBatchReply_unpacks haccept
    exact ⟨len, hlen, tryUnpack_length hun, hhash, fun n hn => by cases hn; exact hsize⟩
  · intro want expectedLen maxBytes n query bytes hfetch
    exact fetchOneChunk_fits hfetch
  · intro c want query bytes
    exact ⟨StoreClient.fetchChunk_fits, fun len => StoreClient.fetchChunkSized_fits⟩

/-- A compressor that knows one thing: bytes that are all `a`. -/
def sampleCompress : Compress :=
  some fun data _ => some (if data = List.replicate data.length 97 then [] else data)

def sampleZstd : Zstd := some fun out n => some (if out = [] then List.replicate n 97 else out)

theorem sampleCompress_supported (level : Int32) :
    (ChunkCompression.zstd level).Supported sampleCompress sampleZstd := by
  refine ⟨_, _, rfl, rfl, fun data => ⟨_, rfl, ?_⟩⟩
  by_cases hall : data = List.replicate data.length 97
  · rw [if_pos hall, if_pos rfl, ← hall]
  · have hne : data ≠ [] := by
      rintro rfl
      exact hall rfl
    rw [if_neg hall, if_neg hne]

/-- Ten times `a`, compressed, and taken back by a client whose cap is just that long. -/
theorem honest_chunk_accepted_run :
    let p : ServePrefix := ⟨"s", ⟨by decide, by decide, by decide⟩, by decide⟩
    let c := (StoreClient.new ⟨"s", by decide⟩).withMaxChunkBytes 10
    let bytes : Bytes := List.replicate 10 97
    pack sampleCompress bytes (.zstd 3) = .ok [1, 10, 0, 0, 0] ∧
      ∃ reply : Sample, reply.payload = [1, 10, 0, 0, 0] ∧
      Taken shortHash sampleZstd p bytes reply ∧
        c.fetchChunk shortHash sampleZstd (shortHash bytes) (some [.ok reply]) = .ok bytes := by
  intro p c bytes
  obtain ⟨packed, hpack, -, -, reply, hpayload, -, htaken⟩ :=
    (honest_chunk_accepted shortHash sampleCompress sampleZstd p).1 (.zstd 3) bytes
      (sampleCompress_supported 3) (by decide)
  have hten : pack sampleCompress bytes (.zstd 3) = .ok [1, 10, 0, 0, 0] := by decide
  obtain rfl : packed = [1, 10, 0, 0, 0] := Except.ok.inj (hpack.symm.trans hten)
  exact ⟨hten, reply, hpayload, htaken, htaken.client c (by decide) [] [] (by simp)⟩

end Zblob

import Zblob.Lib.Runs
import Zblob.Sharding

/-!
Serving an index whole or in pieces comes to the same: what a server has cut, stored and
described is what any client puts together again.
-/

set_option autoImplicit false

namespace Zblob

def pieceRef (hash : Bytes → Hash) (piece : Bytes) : ChunkRef :=
  ⟨hash piece, UInt32.ofNat piece.length⟩

section Cut

variable [Wire TreeIndex]

def TreeIndex.cut (index : TreeIndex) : List Bytes := sliceChunks indexShard [] (encode index)

def TreeIndex.descriptor (hash : Bytes → Hash) (index : TreeIndex) : IndexDescriptor :=
  { version := wireVersion
    root := index.rootHash
    algo := .blake3
    indexChunks := index.cut.map (pieceRef hash)
    indexLen := UInt64.ofNat (encode index).length
    ext := Ext.new }

theorem TreeIndex.cut_flatten (index : TreeIndex) : index.cut.flatten = encode index :=
  sliceChunks_flatten _ _ _

theorem TreeIndex.cut_bounds (index : TreeIndex) :
    ∀ piece ∈ index.cut, 0 < piece.length ∧ piece.length ≤ indexShard :=
  sliceChunks_bounds (by decide) (by decide)

end Cut

def ChunkMap.Addressed (hash : Bytes → Hash) (m : ChunkMap) : Prop :=
  ∀ h bytes, m h = some bytes → hash bytes = h

section Shard

variable {hash : Bytes → Hash} {fails : Nat → Bool} {m : ChunkMap}

structure StoreGrown (hash : Bytes → Hash) (m m' : ChunkMap) : Prop where
  keeps : ∀ h bytes, m h = some bytes → m' h = some bytes
  addressed : m.Addressed hash → m'.Addressed hash

theorem StoreGrown.refl (m : ChunkMap) : StoreGrown hash m m := ⟨fun _ _ h => h, id⟩

theorem StoreGrown.trans {a b c : ChunkMap} (h : StoreGrown hash a b) (h' : StoreGrown hash b c) :
    StoreGrown hash a c :=
  ⟨fun x bytes hx => h'.keeps x bytes (h.keeps x bytes hx), fun ha => h'.addressed (h.addressed ha)⟩

theorem grown_store (piece : Bytes) :
    StoreGrown hash m (if m.has (hash piece) then m else m.put (hash piece, piece)) := by
  split
  · exact StoreGrown.refl m
  · rename_i hno
    refine ⟨fun h bytes hh => ?_, fun haddr h bytes hh => ?_⟩
    · have hne : h ≠ hash piece := by
        rintro rfl
        exact hno (by simp [ChunkMap.has, hh])
      simpa [ChunkMap.put, Function.update_of_ne hne] using hh
    · by_cases he : h = hash piece
      · subst he
        simp only [ChunkMap.put, Function.update_self, Option.some.injEq] at hh
        rw [hh]
      · exact haddr h bytes (by simpa [ChunkMap.put, Function.update_of_ne he] using hh)

theorem shardLoop_grown (pieces : List Bytes) (k : Nat) (chunks : List ChunkRef) :
    StoreGrown hash m (shardLoop hash fails k pieces m chunks).2 := by
  induction pieces generalizing k m chunks with
  | nil => exact StoreGrown.refl m
  | cons piece pieces ih =>
    simp only [shardLoop]
    split
    · exact StoreGrown.refl m
    · exact (grown_store piece).trans (ih _ _)

theorem shardLoop_ok {pieces : List Bytes} {k : Nat} {chunks out : List ChunkRef}
    (h : (shardLoop hash fails k pieces m chunks).1 = .ok out) :
    out = chunks ++ pieces.map (pieceRef hash) ∧
      ∀ piece ∈ pieces, ((shardLoop hash fails k pieces m chunks).2 (hash piece)).isSome := by
  induction pieces generalizing k m chunks with
  | nil =>
    cases h
    simp
  | cons piece pieces ih =>
    simp only [shardLoop] at h ⊢
    split at h
    · cases h
    · rename_i hgo
      obtain ⟨hout, hall⟩ := ih h
      rw [if_neg hgo]
      refine ⟨by simpa [pieceRef] using hout, fun p hp => ?_⟩
      rcases List.mem_cons.mp hp with rfl | hp
      · -- the piece is there as soon as its turn is over, and what is there stays
        have hthere :
            ((if m.has (hash p) then m else m.put (hash p, p)) (hash p)).isSome = true := by
          split
          · rename_i hhas
            exact hhas
          · simp [ChunkMap.put]
        obtain ⟨bytes, hbytes⟩ := Option.isSome_iff_exists.mp hthere
        rw [(shardLoop_grown pieces (k + 1) _).keeps _ bytes hbytes]
        rfl
      · exact hall p hp

end Shard

inductive ServerOp where
  | register (index : TreeIndex) (fails : Nat → Bool)
  | unregister (id : String)

section Registrations

variable [Wire TreeIndex] (hash : Bytes → Hash)

def TreeServer.apply (op : ServerOp) (s : TreeServer) : TreeServer :=
  match op with
  | .register index fails => (s.register hash fails index).2
  | .unregister id => s.unregister id

/-- Every descriptor that is served is the one of its index, and its pieces are there. -/
structure Sharded (s : TreeServer) : Prop where
  addressed : s.store.Addressed hash
  described : ∀ id reg, s.index.lookup id = some reg → ∀ desc, reg.sharded = some desc →
    desc = reg.index.descriptor hash ∧ s.indexShardThreshold < (encode reg.index).length ∧
      ∀ piece ∈ reg.index.cut, (s.store (hash piece)).isSome

variable {hash} {s : TreeServer}

theorem Sharded.grow (h : Sharded hash s) {m : ChunkMap} (hm : StoreGrown hash s.store m) :
    Sharded hash { s with store := m } := by
  refine ⟨hm.addressed h.addressed, fun id reg hreg desc hdesc => ?_⟩
  obtain ⟨hd, hlen, hall⟩ := h.described id reg hreg desc hdesc
  refine ⟨hd, hlen, fun piece hp => ?_⟩
  obtain ⟨bytes, hbytes⟩ := Option.isSome_iff_exists.mp (hall piece hp)
  simp [hm.keeps _ bytes hbytes]

theorem Sharded.insert (h : Sharded hash s) {id : String} {reg : TreeRegistered}
    (hreg : ∀ desc, reg.sharded = some desc → desc = reg.index.descriptor hash ∧
      s.indexShardThreshold < (encode reg.index).length ∧
      ∀ piece ∈ reg.index.cut, (s.store (hash piece)).isSome) :
    Sharded hash { s with index := s.index.insert id reg } := by
  refine ⟨h.addressed, fun other found hfound => ?_⟩
  by_cases hid : other = id
  · subst hid
    rw [AList.lookup_insert] at hfound
    cases hfound
    exact hreg
  · rw [AList.lookup_insert_ne hid] at hfound
    exact h.described other found hfound

theorem Sharded.register (h : Sharded hash s) (fails : Nat → Bool) (index : TreeIndex) :
    Sharded hash (s.register hash fails index).2 := by
  unfold TreeServer.register
  split
  · rename_i hlen
    have hgrown : StoreGrown hash s.store
        (shardIndex hash fails (encode index) s.store index.rootHash).2 :=
      shardLoop_grown _ _ _
    split
    · rename_i e m hshard
      rw [hshard] at hgrown
      exact h.grow hgrown
    · rename_i desc m hshard
      rw [hshard] at hgrown
      refine (h.grow hgrown).insert fun d hd => ?_
      cases hd
      simp only [shardIndex, Prod.mk.injEq] at hshard
      obtain ⟨hdesc, hm⟩ := hshard
      cases hchunks :
        (shardLoop hash fails 0 (sliceChunks indexShard [] (encode index)) s.store []).1 with
      | error e => simp [hchunks, Except.map] at hdesc
      | ok chunks =>
        obtain ⟨hout, hall⟩ := shardLoop_ok hchunks
        simp only [hchunks, Except.map, Except.ok.injEq] at hdesc
        rw [List.nil_append] at hout
        refine ⟨by rw [← hdesc, hout]; rfl, hlen, fun piece hp => ?_⟩
        rw [← hm]
        exact hall piece hp
  · exact h.insert fun d hd => by cases hd

theorem Sharded.apply (h : Sharded hash s) (op : ServerOp) : Sharded hash (s.apply hash op) := by
  cases op with
  | register index fails => exact h.register fails index
  | unregister id =>
    refine ⟨h.addressed, fun other reg hreg => ?_⟩
    by_cases hid : other = id
    · subst hid
      rw [show (s.apply hash (.unregister other)).index = s.index.erase other from rfl,
        AList.lookup_erase] at hreg
      cases hreg
    · exact h.described other reg (by
        rwa [show (s.apply hash (.unregister id)).index = s.index.erase id from rfl,
          AList.lookup_erase_ne hid] at hreg)

theorem Sharded.run (h : Sharded hash s) (ops : List ServerOp) :
    Sharded hash (Runs.run (TreeServer.apply hash) ops s) := by
  induction ops generalizing s with
  | nil => exact h
  | cons op ops ih => exact ih (h.apply op)

end Registrations

section Client

variable {hash : Bytes → Hash} {zstd : Zstd} {cfg : TreeConfig} {shards : ShardReplies}

theorem fetchOneChunk_found {want : ChunkRef} {rs : List Reply} {sample : Sample} {bytes : Bytes}
    (hmem : Except.ok sample ∈ rs) (henc : sample.encoding = encChunk)
    (hsize : sample.payload.length ≤ want.len.toNat + 1 + 4)
    (hun : tryUnpack zstd sample.payload = .ok bytes) (hhash : hash bytes = want.hash)
    (hlen : bytes.length = want.len.toNat)
    (hfree : ∀ other b, Except.ok other ∈ rs → tryUnpack zstd other.payload = .ok b →
      hash b = want.hash → b = bytes) :
    ∃ n, fetchOneChunk hash zstd want.hash (some want.len) maxUnpacked
      (some rs) = .ok (bytes, n) := by
  have hacc : judgeReply hash zstd want.hash (some want.len) maxUnpacked (.ok sample) =
      .accepted bytes :=
    judgeReply_accepted.mpr
      ⟨sample, rfl, henc, hsize, hun, fun n hn => by cases hn; exact hlen, hhash⟩
  obtain ⟨b, n, hb⟩ := fetchOneLoop_found 0 hmem hacc
  obtain ⟨r, hr, hother⟩ := fetchOneLoop_ok hb
  obtain ⟨other, rfl, -, -, hbun, -, hbhash⟩ := judgeReply_accepted.mp hother
  exact ⟨n, hfree other b hr hbun hbhash ▸ hb⟩

theorem collectBatches_total (hrounds : ∀ k, (shards.batches k).isSome)
    (groups : List (List ChunkRef)) (k : Nat) (got : List (Hash × Bytes)) :
    ∃ out, collectBatches hash zstd cfg shards k got groups = .ok out := by
  induction groups generalizing k got with
  | nil => exact ⟨got, rfl⟩
  | cons group groups ih =>
    obtain ⟨rs, hrs⟩ := Option.isSome_iff_exists.mp (hrounds k)
    simp only [collectBatches, hrs]
    exact ih (k + 1) _

/-- With the right bytes in hand, or in reach, at every position, the pieces come out in order. -/
theorem joinChunks_total {pieces : List Bytes} {k : Nat} {got : List (Hash × Bytes)}
    (hgot : ∀ g ∈ got, ∀ piece ∈ pieces, g.1 = hash piece → g.2 = piece)
    (hsingles : ∀ i piece, pieces[i]? = some piece →
      ∃ n, fetchOneChunk hash zstd (hash piece) (some (pieceRef hash piece).len) maxUnpacked
        (shards.singles (k + i)) = .ok (piece, n)) :
    joinChunks hash zstd shards k got (pieces.map (pieceRef hash)) = .ok pieces.flatten := by
  induction pieces generalizing k got with
  | nil => rfl
  | cons piece pieces ih =>
    have hrest : ∀ i p, pieces[i]? = some p →
        ∃ n, fetchOneChunk hash zstd (hash p) (some (pieceRef hash p).len) maxUnpacked
          (shards.singles (k + 1 + i)) = .ok (p, n) := by
      intro i p hp
      have := hsingles (i + 1) p (by simpa using hp)
      rwa [show k + (i + 1) = k + 1 + i by omega] at this
    obtain ⟨n, hfirst⟩ := hsingles 0 piece rfl
    simp only [Nat.add_zero, pieceRef] at hfirst
    simp only [List.map_cons, joinChunks, List.flatten_cons, pieceRef]
    split
    · rename_i h bytes hfind
      have hm := List.mem_of_find?_eq_some hfind
      have hpred := List.find?_some hfind
      have heq : h = hash piece := of_decide_eq_true hpred
      have hbytes : bytes = piece := hgot _ hm piece (by simp) heq
      rw [ih (fun g hg p hp => hgot g (List.mem_of_mem_filter hg) p (by simp [hp])) hrest, hbytes]
      rfl
    · simp only [hfirst, bind, Except.bind]
      rw [ih (fun g hg p hp => hgot g hg p (by simp [hp])) hrest]
      rfl

end Client

section Served

variable [Wire TreeIndex] [Wire IndexDescriptor] {th : TreeHash}
  {zstd : Zstd} {compress : Compress} {cfg : TreeConfig}
  {s : TreeServer} {index : TreeIndex} {shards : ShardReplies}

omit [Wire IndexDescriptor] in
theorem TreeIndex.descriptor_valid (hash : Bytes → Hash) (hne : encode index ≠ [])
    (hmax : (encode index).length ≤ cfg.maxIndexBytes) (hbits : cfg.maxIndexBytes < 2 ^ 64) :
    (index.descriptor hash).validate cfg.maxIndexBytes = .ok () := by
  have hlen : (index.descriptor hash).indexLen.toNat = (encode index).length := by
    simp only [TreeIndex.descriptor, UInt64.toNat_ofNat']
    exact Nat.mod_eq_of_lt (by omega)
  have hchunks : (index.descriptor hash).indexChunks ≠ [] := by
    intro hnil
    have hcut : index.cut = [] := by simpa [TreeIndex.descriptor] using hnil
    exact hne (by rw [← index.cut_flatten, hcut]; rfl)
  have hsum : chunkSum (index.descriptor hash).indexChunks = (encode index).length := by
    rw [← index.cut_flatten]
    refine (chunkSum_of_lengths ?_).symm
    have hall := index.cut_bounds
    simp only [TreeIndex.descriptor]
    rw [List.forall₂_map_right_iff, List.forall₂_same]
    intro piece hp
    have := (hall piece hp).2
    simp only [pieceRef, UInt32.toNat_ofNat']
    rw [Nat.mod_eq_of_lt]
    unfold indexShard at this
    omega
  unfold IndexDescriptor.validate
  rw [if_neg (by simp [TreeIndex.descriptor]), if_neg (by simpa using hchunks), if_neg (by omega),
    if_neg (by omega)]

/-- The queries for a descriptor go out, and each single one is answered from the server's
store among whatever else may answer. Rounds may bring anything, or nothing. -/
structure HonestSingles (compress : Compress) (s : TreeServer) (desc : IndexDescriptor)
    (shards : ShardReplies) : Prop where
  rounds : ∀ k, (shards.batches k).isSome
  singles : ∀ k c, desc.indexChunks[k]? = some c → ∃ rs sample, shards.singles k = some rs ∧
    s.chunkReply compress c.hash = .ok (some sample) ∧ Except.ok sample ∈ rs

/-- Nothing that was stored or that came has the address of a piece without being the piece. -/
def NoShardCollision (hash : Bytes → Hash) (zstd : Zstd) (s : TreeServer)
    (index : TreeIndex) (shards : ShardReplies) : Prop :=
  ∀ piece ∈ index.cut, ∀ bytes, (shards.Carries zstd bytes ∨ ∃ h, s.store h = some bytes) →
    hash bytes = hash piece → bytes = piece

omit [Wire TreeIndex] [Wire IndexDescriptor] in
theorem TreeServer.chunkReply_some {h : Hash} {sample : Sample}
    (hr : s.chunkReply compress h = .ok (some sample)) :
    ∃ bytes, s.store h = some bytes ∧ sample.encoding = encChunk ∧
      pack compress bytes s.compression = .ok sample.payload := by
  unfold TreeServer.chunkReply at hr
  split at hr
  · cases hr
  · rename_i bytes hbytes
    cases hp : pack compress bytes s.compression with
    | error e => simp [hp, Except.map] at hr
    | ok packed =>
      simp only [hp, Except.map, Except.ok.injEq, Option.some.injEq] at hr
      subst hr
      exact ⟨bytes, hbytes, rfl, hp⟩

/-- What the server has cut is what a client puts together. -/
theorem assemble_served (hs : Sharded th.hash s) {id : String} {reg : TreeRegistered}
    {desc : IndexDescriptor}
    (hreg : s.index.lookup id = some reg) (hdesc : reg.sharded = some desc)
    (hundone : compress.Undone zstd)
    (hmax : (encode reg.index).length ≤ cfg.maxIndexBytes) (hbits : cfg.maxIndexBytes < 2 ^ 64)
    (hhonest : HonestSingles compress s desc shards)
    (hfree : NoShardCollision th.hash zstd s reg.index shards) (key : String) :
    assembleShardedIndex th.hash zstd cfg ⟨key, encIndexDesc, encode desc⟩ shards = .ok
      (encode reg.index) := by
  obtain ⟨rfl, hlarge, -⟩ := hs.described id reg hreg desc hdesc
  have hne : encode reg.index ≠ [] := by
    intro hnil
    rw [hnil] at hlarge
    exact Nat.not_lt_zero _ hlarge
  obtain ⟨got, hgot⟩ : ∃ got, collectBatches th.hash zstd cfg shards 0 []
      (sliceChunks (max cfg.batchSize 1) [] (reg.index.descriptor th.hash).indexChunks) = .ok got :=
    collectBatches_total hhonest.rounds _ _ _
  have hpieces := collectBatches_pieces (fun group hg c hc => mem_sliceChunks hg hc) (by simp) hgot
  simp only [assembleShardedIndex, decode_encode, bind, Except.bind,
    reg.index.descriptor_valid th.hash hne hmax hbits,
    hgot]
  rw [← reg.index.cut_flatten]
  refine joinChunks_total (fun g hg piece hp heq => ?_) fun k piece hp => ?_
  · exact hfree piece hp g.2 (.inl (hpieces g hg).carried) ((hpieces g hg).addressed.trans heq)
  · have hmem : piece ∈ reg.index.cut := List.mem_of_getElem? hp
    have hsize : piece.length ≤ indexShard := (reg.index.cut_bounds piece hmem).2
    have hlen : piece.length = (pieceRef th.hash piece).len.toNat := by
      simp only [pieceRef, UInt32.toNat_ofNat']
      rw [Nat.mod_eq_of_lt]
      unfold indexShard at hsize
      omega
    obtain ⟨rs, sample, hrs, hreply, hsample⟩ := hhonest.singles k (pieceRef th.hash piece)
      (by simp [TreeIndex.descriptor, hp])
    obtain ⟨bytes, hstored, henc, hpack⟩ := TreeServer.chunkReply_some hreply
    have hbytes : bytes = piece :=
      hfree piece hmem bytes (.inr ⟨_, hstored⟩) (hs.addressed _ _ hstored)
    subst hbytes
    have hun : tryUnpack zstd sample.payload = .ok bytes :=
      tryUnpack_pack hundone (by unfold indexShard at hsize; unfold maxUnpacked; omega) hpack
    rw [Nat.zero_add, hrs]
    refine fetchOneChunk_found hsample henc (hlen ▸ pack_length hpack)
      hun rfl hlen fun other b ho hb hh => ?_
    exact hfree bytes hmem b (.inl ⟨k, rs, other, .inr hrs, ho, hb⟩) hh

omit [Wire TreeIndex] [Wire IndexDescriptor] in
theorem fetchIndexMatching_swap [Postcard TreeIndex] [Postcard IndexDescriptor] {a b : Sample}
    {shards' : ShardReplies}
    (h : indexPayload th zstd cfg a shards = indexPayload th zstd cfg b shards')
    (id : String) (pin : Option Hash)
    (before after : List (Reply × ShardReplies)) :
    fetchIndexMatching th zstd cfg id pin (some (before ++ (.ok a, shards) :: after)) =
      fetchIndexMatching th zstd cfg id pin (some (before ++ (.ok b, shards') :: after)) := by
  have hloop : ∀ (id : String) (rejected : Option BlobError),
      indexLoop th zstd cfg id pin rejected (before ++ (.ok a, shards) :: after) =
        indexLoop th zstd cfg id pin rejected (before ++ (.ok b, shards') :: after) := by
    intro id
    induction before with
    | nil =>
      intro rejected
      simp only [List.nil_append, indexLoop, h]
    | cons r before ih =>
      intro rejected
      obtain ⟨r, sh⟩ := r
      cases r with
      | error e => exact ih rejected
      | ok sample =>
        simp only [List.cons_append, indexLoop, ih]
  simp only [fetchIndexMatching, hloop]

end Served

/-- Whatever a server has registered, its index comes out of the served pieces as it went
in, so that fetching it is the same as fetching it whole. -/
theorem sharded_equals_whole [Wire TreeIndex] [Wire IndexDescriptor] (th : TreeHash) (zstd : Zstd)
    (compress : Compress) (cfg : TreeConfig) (start : TreeServer)
    (ops : List ServerOp) (id : String)
    (reg : TreeRegistered) (shards : ShardReplies) (hempty : start.index = ∅)
    (haddressed : start.store.Addressed th.hash) (hundone : compress.Undone zstd)
    (hreg : (Runs.run (TreeServer.apply th.hash) ops start).index.lookup id = some reg)
    (hmax : (encode reg.index).length ≤ cfg.maxIndexBytes) (hbits : cfg.maxIndexBytes < 2 ^ 64)
    (hhonest : ∀ desc, reg.sharded = some desc →
      HonestSingles compress (Runs.run (TreeServer.apply th.hash) ops start) desc shards)
    (hfree : NoShardCollision th.hash zstd (Runs.run (TreeServer.apply th.hash) ops start)
      reg.index shards) :
    (∀ desc key, reg.sharded = some desc →
      assembleShardedIndex th.hash zstd cfg ⟨key, encIndexDesc, encode desc⟩ shards = .ok
      (encode reg.index)) ∧
    ∃ served, (Runs.run (TreeServer.apply th.hash) ops start).indexReply id = some served ∧
      ∀ wanted pin before after key shards',
        fetchIndexMatching th zstd cfg wanted pin (some (before ++ (.ok served, shards) :: after)) =
          fetchIndexMatching th zstd cfg wanted pin
            (some (before ++ (.ok ⟨key, encIndex, encode reg.index⟩, shards') :: after)) := by
  have hstart : Sharded th.hash start := ⟨haddressed, fun id reg h => by simp [hempty] at h⟩
  have hs := hstart.run ops
  generalize Runs.run (TreeServer.apply th.hash) ops start = s at hreg hhonest hfree hs ⊢
  have hassemble : ∀ desc key, reg.sharded = some desc →
      assembleShardedIndex th.hash zstd cfg ⟨key, encIndexDesc, encode desc⟩ shards =
      .ok (encode reg.index) :=
    fun desc key hdesc =>
      assemble_served hs hreg hdesc hundone hmax hbits (hhonest desc hdesc) hfree key
  refine ⟨hassemble, ?_⟩
  have hwhole : ∀ key shards', indexPayload th zstd cfg ⟨key, encIndex, encode reg.index⟩ shards' =
      some (.ok (encode reg.index)) := by
    intro key shards'
    rw [indexPayload, if_neg (show ¬encIndex = encIndexDesc by decide), if_pos rfl]
  cases hsharded : reg.sharded with
  | none =>
    refine ⟨⟨treeKey s.treePrefix id, encIndex, encode reg.index⟩,
      by simp [TreeServer.indexReply, hreg, hsharded], ?_⟩
    intro wanted pin before after key shards'
    exact fetchIndexMatching_swap (by rw [hwhole, hwhole]) wanted pin before after
  | some desc =>
    refine ⟨⟨treeKey s.treePrefix id, encIndexDesc, encode desc⟩,
      by simp [TreeServer.indexReply, hreg, hsharded], ?_⟩
    intro wanted pin before after key shards'
    refine fetchIndexMatching_swap ?_ wanted pin before after
    rw [hwhole, indexPayload, if_pos rfl, hassemble desc _ hsharded]

section Long

attribute [local instance] Format.indexWire Format.descriptorWire

def longTarget (n : Nat) : String := String.ofList (List.replicate n 'a')

def longIndex (n : Nat) : TreeIndex := sampleIndex [.symlink "l" (longTarget n)] singleRoot

theorem longTarget_bytes (n : Nat) :
    (longTarget n).toByteArray.data.toList = List.replicate n (97 : UInt8) := by
  rw [longTarget, String.toByteArray_ofList]
  induction n with
  | zero => rfl
  | succ n ih =>
    rw [List.replicate_succ, ← List.singleton_append, List.utf8Encode_append,
      ByteArray.data_append, Array.toList_append, ih]
    rfl

def longHead : Bytes :=
  [0x03, 0x01, 0x74, 0x06, 0x62, 0x6c, 0x61, 0x6b, 0x65, 0x33, 0x80, 0x80, 0x01, 0x80, 0x80, 0x04,
    0x80, 0x80, 0x10, 0x02, 0x00, 0x01, 0x02, 0x01, 0x6c]

def longTail : Bytes := 32 :: singleRoot.bytes

theorem encode_long (n : Nat) : encode (longIndex n) =
    longHead ++ (Codec.varint n n ++ (List.replicate n 97 ++ longTail)) := by
  have hbytes : Format.bytes.enc (List.replicate n 97) = Codec.varint n n ++
      List.replicate n 97 := by
    simp [Format.bytes, Codec.list, Codec.byte]
  have hstring : Format.string.enc (longTarget n) = Codec.varint n n ++ List.replicate n 97 := by
    change Format.bytes.enc (longTarget n).toByteArray.data.toList = _
    rw [longTarget_bytes, hbytes]
  have hentry : Format.entry.enc (.symlink "l" (longTarget n)) =
      [0x02, 0x01, 0x6c] ++ Format.string.enc (longTarget n) := rfl
  have hindex : Format.treeIndex.enc (longIndex n) =
      longHead.take 22 ++ (Format.entry.enc (.symlink "l" (longTarget n)) ++ longTail) := by
    simp only [Format.treeIndex, Codec.pmap, Codec.pair, Codec.list, longIndex, sampleIndex,
      List.flatMap_cons, List.flatMap_nil, List.append_nil, List.append_assoc]
    rfl
  change Format.treeIndex.enc (longIndex n) = _
  rw [hindex, hentry, hstring]
  simp [longHead]

def longLen : Nat := 196580

def longFirst : Bytes := longHead ++ (Codec.varint longLen longLen ++ List.replicate 65508 97)

def longPiece : Bytes := List.replicate indexShard 97

theorem longFirst_length : longFirst.length = indexShard := by
  have hcount : (Codec.varint longLen longLen).length = 3 := by decide
  rw [longFirst, List.length_append, List.length_append, hcount, List.length_replicate]
  rfl

theorem cut_long : (longIndex longLen).cut = [longFirst, longPiece, longPiece, longTail] := by
  have hsplit : encode (longIndex longLen) =
      longFirst ++ (longPiece ++ (longPiece ++ longTail)) := by
    have hletters : List.replicate longLen (97 : UInt8) =
        List.replicate 65508 97 ++ (longPiece ++ longPiece) := by
      rw [longPiece, List.replicate_append_replicate, List.replicate_append_replicate]
      rfl
    rw [encode_long, hletters, longFirst]
    simp only [List.append_assoc]
  have hlen : longPiece.length = indexShard := List.length_replicate
  rw [TreeIndex.cut, hsplit, sliceChunks_append (by decide) longFirst_length,
    sliceChunks_append (by decide) hlen, sliceChunks_append (by decide) hlen,
    sliceChunks_few (by simp [longTail]) (by decide), List.nil_append]

section Stored

variable {hash : Bytes → Hash}

theorem shardLoop_total (pieces : List Bytes) (k : Nat) (m : ChunkMap) (chunks : List ChunkRef) :
    (shardLoop hash (fun _ => false) k pieces m chunks).1 =
      .ok (chunks ++ pieces.map (pieceRef hash)) := by
  induction pieces generalizing k m chunks with
  | nil => simp [shardLoop]
  | cons piece pieces ih => simp [shardLoop, ih, pieceRef]

theorem shardLoop_stored {fails : Nat → Bool} {pieces : List Bytes} {k : Nat} {m : ChunkMap}
    {chunks : List ChunkRef} {h : Hash} {bytes : Bytes}
    (hb : (shardLoop hash fails k pieces m chunks).2 h = some bytes) :
    m h = some bytes ∨ bytes ∈ pieces := by
  induction pieces generalizing k m chunks with
  | nil => exact .inl hb
  | cons piece pieces ih =>
    simp only [shardLoop] at hb
    split at hb
    · exact .inl hb
    · rcases ih hb with hm | hmem
      · split at hm
        · exact .inl hm
        · by_cases hh : h = hash piece
          · subst hh
            simp only [ChunkMap.put, Function.update_self, Option.some.injEq] at hm
            exact .inr (hm ▸ List.mem_cons_self)
          · rw [ChunkMap.put, Function.update_of_ne hh] at hm
            exact .inl hm
      · exact .inr (List.mem_cons_of_mem _ hmem)


theorem register_large {s : TreeServer} {index : TreeIndex}
    (hlarge : s.indexShardThreshold < (encode index).length) :
    (s.register hash (fun _ => false) index).2.index.lookup index.id.str =
      some ⟨index, some (index.descriptor hash)⟩ := by
  have hdesc : (shardIndex hash (fun _ => false) (encode index) s.store index.rootHash).1 =
      .ok (index.descriptor hash) := by
    simp only [shardIndex, shardLoop_total, Except.map, List.nil_append]
    rfl
  rw [TreeServer.register, if_pos hlarge]
  generalize shardIndex hash (fun _ => false) (encode index) s.store index.rootHash = out at hdesc
  obtain ⟨desc, m⟩ := out
  cases hdesc
  exact AList.lookup_insert _

theorem register_stored {s : TreeServer} {index : TreeIndex} {h : Hash}
    {bytes : Bytes} (hb : (s.register hash (fun _ => false) index).2.store h = some bytes) :
    s.store h = some bytes ∨ bytes ∈ index.cut := by
  unfold TreeServer.register at hb
  split at hb
  · split at hb
    · rename_i m hshard
      obtain rfl : (shardIndex hash _ (encode index) s.store index.rootHash).2 = m :=
        congrArg Prod.snd hshard
      exact shardLoop_stored hb
    · rename_i m hshard
      obtain rfl : (shardIndex hash _ (encode index) s.store index.rootHash).2 = m :=
        congrArg Prod.snd hshard
      exact shardLoop_stored hb
  · exact .inl hb

variable {index : TreeIndex}

theorem registered_alone (hlarge : 0 < (encode index).length)
    (hapart : ∀ a ∈ index.cut, ∀ b ∈ index.cut, hash a = hash b → a = b) {s : TreeServer}
    (hs : s = ((emptyServer 0).register hash (fun _ => false) index).2) :
    (s.storePrefix = "s" ∧ s.compression = .none) ∧
      s.index.lookup index.id.str = some ⟨index, some (index.descriptor hash)⟩ ∧
      (∀ h bytes, s.store h = some bytes → bytes ∈ index.cut) ∧
      ∀ piece ∈ index.cut, s.store (hash piece) = some piece := by
  have hsame : s.storePrefix = "s" ∧ s.compression = .none := by
    rw [hs, TreeServer.register]
    split
    · split <;> exact ⟨rfl, rfl⟩
    · exact ⟨rfl, rfl⟩
  have hreg : s.index.lookup index.id.str = some ⟨index, some (index.descriptor hash)⟩ :=
    hs ▸ register_large hlarge
  have hstored : ∀ h bytes, s.store h = some bytes → bytes ∈ index.cut := by
    intro h bytes hb
    rcases register_stored (hs ▸ hb) with hb | hb
    · cases hb
    · exact hb
  have hsharded : Sharded hash s :=
    hs ▸ Sharded.register ⟨fun h bytes hb => (by cases hb), fun id reg hreg => by cases hreg⟩ _ _
  refine ⟨hsame, hreg, hstored, fun piece hp => ?_⟩
  obtain ⟨bytes, hbytes⟩ := Option.isSome_iff_exists.mp
    ((hsharded.described _ _ hreg _ rfl).2.2 piece hp)
  rw [hbytes, hapart bytes (hstored _ _ hbytes) piece hp (hsharded.addressed _ _ hbytes)]

def pieceReply (hash : Bytes → Hash) (piece : Bytes) : Reply :=
  .ok ⟨storeKey "s" .blake3 (hash piece), encChunk, 0 :: piece⟩

/-- The batches bring the pieces in `batch`; the single queries bring what they ask for. -/
def pieceShards (hash : Bytes → Hash) (index : TreeIndex) (batch : Nat → List Bytes) :
    ShardReplies :=
  ⟨fun k => some ((batch k).map (pieceReply hash)),
    fun k => some (((index.cut[k]?).map (pieceReply hash)).toList)⟩

theorem pieceShards_carries {batch : Nat → List Bytes} (hbatch : ∀ k, batch k ⊆ index.cut)
    {bytes : Bytes} (h : (pieceShards hash index batch).Carries none bytes) :
    bytes ∈ index.cut := by
  have hunpacked : ∀ {piece : Bytes} {sample : Sample}, pieceReply hash piece = .ok sample →
      tryUnpack none sample.payload = .ok bytes → bytes = piece := by
    intro piece sample hsample hun
    cases hsample
    simp only [tryUnpack] at hun
    split at hun
    · cases hun
    · exact (Except.ok.inj hun).symm
  obtain ⟨k, rs, sample, hrs | hrs, hmem, hun⟩ := h
  · cases hrs
    obtain ⟨piece, hp, hsample⟩ := List.mem_map.mp hmem
    rw [hunpacked hsample hun]
    exact hbatch k hp
  · cases hrs
    obtain ⟨piece, hpiece, hsample⟩ := Option.map_eq_some_iff.mp (Option.mem_toList.mp hmem)
    rw [hunpacked hsample hun]
    exact List.mem_of_getElem? hpiece

theorem pieceShards_honest {batch : Nat → List Bytes} {s : TreeServer}
    (hunder : s.storePrefix = "s")
    (hpolicy : s.compression = .none)
    (hheld : ∀ piece ∈ index.cut, s.store (hash piece) = some piece) :
    HonestSingles none s (index.descriptor hash) (pieceShards hash index batch) where
  rounds _ := rfl
  singles k c hc := by
    obtain ⟨piece, hpiece, rfl⟩ :
        ∃ piece, index.cut[k]? = some piece ∧ pieceRef hash piece = c := by
      simpa [TreeIndex.descriptor] using hc
    refine ⟨_, ⟨storeKey "s" .blake3 (hash piece), encChunk, 0 :: piece⟩, rfl, ?_, ?_⟩
    · rw [pieceRef, TreeServer.chunkReply, hheld piece (List.mem_of_getElem? hpiece),
        hpolicy, hunder]
      rfl
    · rw [hpiece]
      exact List.mem_singleton.mpr rfl

end Stored

theorem encode_long_length : (encode (longIndex longLen)).length = 196641 := by
  have hpiece : longPiece.length = indexShard := List.length_replicate
  rw [← TreeIndex.cut_flatten, cut_long]
  simp only [List.flatten_cons, List.flatten_nil, List.append_nil, List.length_append,
    longFirst_length, hpiece]
  rfl


/-- The pieces differ in their first bytes, so that these will do for a hash. -/
def headHash (data : Bytes) : Hash := ⟨data.headD 0 :: List.replicate 31 0, by simp⟩

theorem long_apart (a : Bytes) (ha : a ∈ (longIndex longLen).cut) (b : Bytes)
    (hb : b ∈ (longIndex longLen).cut) (h : headHash a = headHash b) : a = b := by
  have hhead : a.headD 0 = b.headD 0 := by
    have := congrArg Hash.bytes h
    simpa [headHash] using this
  have hfirst : longFirst.headD 0 = 3 := rfl
  have hpiece : longPiece.headD 0 = 97 := rfl
  have htail : longTail.headD 0 = 32 := rfl
  rw [cut_long] at ha hb
  simp only [List.mem_cons, List.not_mem_nil, or_false] at ha hb
  rcases ha with rfl | rfl | rfl | rfl <;> rcases hb with rfl | rfl | rfl | rfl <;>
    first
      | rfl
      | (simp only [hfirst, hpiece, htail] at hhead
         exact absurd hhead (by decide))

def longConfig : TreeConfig := ⟨"s", 1000000, 2⟩

def longBatch (k : Nat) : List Bytes := if k = 0 then [longPiece] else []

theorem longBatch_pieces (k : Nat) : longBatch k ⊆ (longIndex longLen).cut := by
  intro piece hp
  rw [longBatch] at hp
  split at hp
  · rw [List.mem_singleton.mp hp, cut_long]
    exact List.mem_cons_of_mem _ List.mem_cons_self
  · cases hp

theorem long_positive : 0 < (encode (longIndex longLen)).length := by
  rw [encode_long_length]
  decide

theorem long_within : (encode (longIndex longLen)).length ≤ longConfig.maxIndexBytes := by
  rw [encode_long_length]
  decide

/-- An index of four pieces, the second of which comes twice. One batch is partly answered and the
other not at all; the single queries bring the rest. -/
theorem sharded_equals_whole_long :
    (longIndex longLen).cut = [longFirst, longPiece, longPiece, longTail] ∧
      assembleShardedIndex headHash none longConfig
        ⟨treeKey "t" "t", encIndexDesc, encode ((longIndex longLen).descriptor headHash)⟩
        (pieceShards headHash (longIndex longLen) longBatch) = .ok
        (encode (longIndex longLen)) := by
  -- for any index, so that nothing looks into this one
  have hassembled : ∀ index : TreeIndex, 0 < (encode index).length →
      (encode index).length ≤ longConfig.maxIndexBytes →
      (∀ a ∈ index.cut, ∀ b ∈ index.cut, headHash a = headHash b → a = b) →
      (∀ k, longBatch k ⊆ index.cut) →
      assembleShardedIndex headHash none longConfig
        ⟨treeKey "t" "t", encIndexDesc, encode (index.descriptor headHash)⟩
        (pieceShards headHash index longBatch) = .ok (encode index) := by
    intro index hlarge hmax hapart hbatch
    obtain ⟨⟨hunder, hpolicy⟩, hreg, hstored, hheld⟩ := registered_alone hlarge hapart rfl
    refine (sharded_equals_whole ⟨headHash, singleTree.encode⟩ none none longConfig (emptyServer 0)
      [.register index fun _ => false] index.id.str ⟨index, some (index.descriptor headHash)⟩
      (pieceShards headHash index longBatch) rfl (fun h bytes hb => (by cases hb))
      (fun c hc => (by cases hc)) hreg hmax (by decide) (fun desc hdesc => ?_)
      fun piece hp bytes hb heq => ?_).1 _ _ rfl
    · cases hdesc
      exact pieceShards_honest hunder hpolicy hheld
    · rcases hb with hb | ⟨h, hb⟩
      · exact hapart bytes (pieceShards_carries hbatch hb) piece hp heq
      · exact hapart bytes (hstored h bytes hb) piece hp heq
  exact ⟨cut_long, hassembled _ long_positive long_within long_apart longBatch_pieces⟩

end Long

end Zblob

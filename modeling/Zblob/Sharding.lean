import Zblob.Acceptance
import Zblob.FetchSafety
import Zblob.Serving

/-!
An index that comes in pieces: what the pieces are that a client puts together, and when
they are the index that the server cut.
-/

set_option autoImplicit false

namespace Zblob

/-- The queries made for a descriptor have brought these bytes, from anybody. -/
def ShardReplies.Carries (zstd : Zstd) (shards : ShardReplies) (bytes : Bytes) : Prop :=
  ∃ k rs sample, (shards.batches k = some rs ∨ shards.singles k = some rs) ∧ Except.ok sample ∈ rs ∧
    tryUnpack zstd sample.payload = .ok bytes

/-- A piece for an address: bytes that hash to it, that some reply has brought, and whose
length the descriptor states for that address somewhere. -/
structure Piece (hash : Bytes → Hash) (zstd : Zstd) (shards : ShardReplies) (chunks : List ChunkRef)
    (bytes : Bytes) (h : Hash) : Prop where
  addressed : hash bytes = h
  carried : shards.Carries zstd bytes
  sized : ∃ c ∈ chunks, c.hash = h ∧ bytes.length = c.len.toNat

section Assembly

variable {hash : Bytes → Hash} {zstd : Zstd} {cfg : TreeConfig} {shards : ShardReplies}
  {chunks : List ChunkRef}

theorem mem_sliceChunks {α : Type} {n : Nat} {xs group : List α} (hg : group ∈ sliceChunks n [] xs)
    {x : α} (hx : x ∈ group) : x ∈ xs := by
  have hflat : x ∈ (sliceChunks n [] xs).flatten := List.mem_flatten_of_mem hg hx
  rwa [sliceChunks_flatten, List.nil_append] at hflat

theorem sliceChunks_few {α : Type} {n : Nat} {cur xs : List α} (hne : cur ++ xs ≠ [])
    (hlen : cur.length + xs.length ≤ n) : sliceChunks n cur xs = [cur ++ xs] := by
  induction xs generalizing cur with
  | nil =>
    cases cur with
    | nil => exact absurd rfl hne
    | cons c cur => simp [sliceChunks]
  | cons x xs ih =>
    rw [List.length_cons] at hlen
    rw [sliceChunks]
    split_ifs with hfull
    · have hnil : xs = [] := List.length_eq_zero_iff.mp (by omega)
      subst hnil
      rfl
    · rw [ih (by simp) (by simp; omega)]
      simp

theorem sliceChunks_cons {α : Type} {n : Nat} (cur xs : List α) (hcur : cur.length < n) :
    sliceChunks n cur xs =
      if cur ++ xs = [] then [] else (cur ++ xs).take n :: sliceChunks n
      [] ((cur ++ xs).drop n) := by
  induction xs generalizing cur with
  | nil =>
    cases cur with
    | nil => rfl
    | cons x cur =>
      have htake : (x :: cur).take n = x :: cur := List.take_of_length_le (by omega)
      have hdrop : (x :: cur).drop n = [] := List.drop_eq_nil_of_le (by omega)
      simp [sliceChunks, htake, hdrop]
  | cons x xs ih =>
    have hne : ¬ (cur ++ x :: xs = []) := by simp
    have happend : cur ++ x :: xs = (cur ++ [x]) ++ xs := by simp
    rw [sliceChunks, if_neg hne]
    by_cases hfull : cur.length + 1 ≥ n
    · have hlen : (cur ++ [x]).length = n := by
        simp only [List.length_append, List.length_singleton]
        omega
      rw [if_pos hfull, happend, List.take_left' hlen, List.drop_left' hlen]
    · have hlen : (cur ++ [x]).length < n := by
        simp only [List.length_append, List.length_singleton]
        omega
      rw [if_neg hfull, ih (cur ++ [x]) hlen, if_neg (by simp), happend]

theorem sliceChunks_append {α : Type} {n : Nat} {piece : List α}
    (hn : 0 < n) (hlen : piece.length = n)
    (rest : List α) : sliceChunks n [] (piece ++ rest) = piece :: sliceChunks n [] rest := by
  have hne : [] ++ (piece ++ rest) ≠ [] := by
    intro h
    have := congrArg List.length h
    simp only [List.nil_append, List.length_append, List.length_nil] at this
    omega
  rw [sliceChunks_cons [] _ hn, if_neg hne, List.nil_append, List.take_left' hlen,
    List.drop_left' hlen]

theorem collectBatch_pieces {k : Nat} {wanted : List ChunkRef} {got : List (Hash × Bytes)}
    {rs all : List Reply}
    (hround : shards.batches k = some all) (hrs : ∀ r ∈ rs, r ∈ all)
    (hwanted : ∀ c ∈ wanted, c ∈ chunks)
    (hgot : ∀ g ∈ got, Piece hash zstd shards chunks g.2 g.1) :
    ∀ g ∈ collectBatch hash zstd cfg wanted got rs, Piece hash zstd shards chunks g.2 g.1 := by
  induction rs generalizing got with
  | nil => exact hgot
  | cons r rs ih =>
    have hrest : ∀ r ∈ rs, r ∈ all := fun r hr => hrs r (List.mem_cons_of_mem _ hr)
    cases r with
    | error e => exact ih hrest hgot
    | ok sample =>
      simp only [collectBatch]
      split
      · rename_i h bytes haccept
        refine ih hrest ?_
        split
        · exact hgot
        · intro g hg
          rcases List.mem_append.mp hg with hg | hg
          · exact hgot g hg
          · rw [List.mem_singleton.mp hg]
            obtain ⟨len, hlen, hun, hhash, hsize⟩ := acceptBatchReply_unpacks haccept
            obtain ⟨c, hc, hh, rfl⟩ := expectedLen_some hlen
            exact ⟨hhash, ⟨k, all, sample, .inl hround, hrs _ (by simp), hun⟩,
              c, hwanted c hc, hh, hsize⟩
      · exact ih hrest hgot

theorem collectBatches_pieces {k : Nat} {groups : List (List ChunkRef)}
    {got out : List (Hash × Bytes)}
    (hgroups : ∀ group ∈ groups, ∀ c ∈ group, c ∈ chunks)
    (hgot : ∀ g ∈ got, Piece hash zstd shards chunks g.2 g.1)
    (h : collectBatches hash zstd cfg shards k got groups = .ok out) :
    ∀ g ∈ out, Piece hash zstd shards chunks g.2 g.1 := by
  induction groups generalizing k got with
  | nil =>
    cases h
    exact hgot
  | cons group groups ih =>
    simp only [collectBatches] at h
    split at h
    · cases h
    · rename_i rs hround
      exact ih (fun g hg => hgroups g (by simp [hg]))
        (collectBatch_pieces hround (fun _ hr => hr) (hgroups group (by simp)) hgot) h

/-- The bytes put together are one piece for each position, in order. -/
theorem joinChunks_pieces {k : Nat} {got : List (Hash × Bytes)} {refs : List ChunkRef} {out : Bytes}
    (hrefs : ∀ c ∈ refs, c ∈ chunks) (hgot : ∀ g ∈ got, Piece hash zstd shards chunks g.2 g.1)
    (h : joinChunks hash zstd shards k got refs = .ok out) :
    ∃ pieces : List Bytes, out = pieces.flatten ∧
      List.Forall₂ (fun p c => Piece hash zstd shards chunks p c.hash) pieces refs := by
  induction refs generalizing k got out with
  | nil =>
    cases h
    exact ⟨[], rfl, .nil⟩
  | cons c refs ih =>
    have hrest : ∀ x ∈ refs, x ∈ chunks := fun x hx => hrefs x (List.mem_cons_of_mem _ hx)
    have hjoin : ∀ {bytes : Bytes} {got' : List (Hash × Bytes)},
        Piece hash zstd shards chunks bytes c.hash →
        (∀ g ∈ got', Piece hash zstd shards chunks g.2 g.1) →
        (joinChunks hash zstd shards (k + 1) got' refs).map (bytes ++ ·) = .ok out →
        ∃ pieces : List Bytes, out = pieces.flatten ∧
          List.Forall₂ (fun p c => Piece hash zstd shards chunks p c.hash) pieces (c :: refs) := by
      intro bytes got' hpiece hgot' hmap
      cases hj : joinChunks hash zstd shards (k + 1) got' refs with
      | error e => simp [hj, Except.map] at hmap
      | ok tail =>
        obtain ⟨pieces, rfl, hpieces⟩ := ih hrest hgot' hj
        simp only [hj, Except.map, Except.ok.injEq] at hmap
        exact ⟨bytes :: pieces, by simp [← hmap], .cons hpiece hpieces⟩
    simp only [joinChunks] at h
    split at h
    · rename_i hh bytes hfind
      have hmem := List.mem_of_find?_eq_some hfind
      have heq : hh = c.hash := by simpa using List.find?_some hfind
      subst heq
      exact hjoin (hgot _ hmem) (fun g hg => hgot g (List.mem_of_mem_filter hg)) h
    · simp only [bind, Except.bind] at h
      split at h
      · cases h
      · rename_i bytes hfetch
        obtain ⟨rs, r, hs, hm, hacc⟩ := fetchOneChunk_ok hfetch
        obtain ⟨sample, rfl, -, -, hun, hlen, hhash⟩ := judgeReply_accepted.mp hacc
        exact hjoin ⟨hhash, ⟨k, rs, sample, .inr hs, hm, hun⟩, c,
          hrefs c (by simp), rfl, hlen _ rfl⟩ hgot h

theorem assembleShardedIndex_ok [Postcard IndexDescriptor] {sample : Sample} {payload : Bytes}
    (h : assembleShardedIndex hash zstd cfg sample shards = .ok payload) :
    ∃ d pieces, decode IndexDescriptor sample.payload = .ok d ∧
      d.validate cfg.maxIndexBytes = .ok () ∧
      payload = pieces.flatten ∧
      List.Forall₂ (fun p c => Piece hash zstd shards d.indexChunks p c.hash)
      pieces d.indexChunks := by
  simp only [assembleShardedIndex, bind, Except.bind] at h
  cases hd : decode IndexDescriptor sample.payload with
  | error e => simp [hd] at h
  | ok d =>
    simp only [hd] at h
    cases hv : d.validate cfg.maxIndexBytes with
    | error e => simp [hv] at h
    | ok u =>
      simp only [hv] at h
      split at h
      · cases h
      · rename_i got hgot
        have hpieces :=
          collectBatches_pieces (fun group hg c hc => mem_sliceChunks hg hc) (by simp) hgot
        obtain ⟨pieces, hflat, hall⟩ := joinChunks_pieces (fun c hc => hc) hpieces h
        exact ⟨d, pieces, rfl, hv, hflat, hall⟩

end Assembly

def IndexDescriptor.OneLength (d : IndexDescriptor) : Prop :=
  ∀ c ∈ d.indexChunks, ∀ c' ∈ d.indexChunks, c.hash = c'.hash → c.len = c'.len

section Descriptor

variable [Postcard TreeIndex] (th : TreeHash) (zstd : Zstd) (shards : ShardReplies)
  (d : IndexDescriptor)

def IndexDescriptor.Truthful : Prop :=
  ∃ (pieces : List Bytes) (index : TreeIndex), (∀ p ∈ pieces, shards.Carries zstd p) ∧
    pieces.map th.hash = d.indexChunks.map ChunkRef.hash ∧
    decode TreeIndex pieces.flatten = .ok index ∧ index.rootHash = d.root

/-- The encoded index is what the descriptor says: in order, of the pieces it lists, each
of its length, and of the snapshot it names. -/
structure IndexDescriptor.Describes (payload : Bytes) (index : TreeIndex) : Prop where
  pieces : ∃ pieces : List Bytes, payload = pieces.flatten ∧
    List.Forall₂ (fun p c => th.hash p = c.hash ∧ p.length = c.len.toNat ∧ shards.Carries zstd p)
      pieces d.indexChunks
  total : payload.length = d.indexLen.toNat
  root : index.rootHash = d.root

end Descriptor

theorem chunkSum_of_lengths {pieces : List Bytes} {chunks : List ChunkRef}
    (h : List.Forall₂ (fun p c => p.length = c.len.toNat) pieces chunks) :
    pieces.flatten.length = chunkSum chunks := by
  induction h with
  | nil => rfl
  | cons hp _ ih =>
    simp only [chunkSum, List.map_cons, List.sum_cons] at ih ⊢
    rw [List.flatten_cons, List.length_append, hp, ih]

theorem IndexDescriptor.validate_total {d : IndexDescriptor} {maxIndexBytes : Nat}
    (h : d.validate maxIndexBytes = .ok ()) : chunkSum d.indexChunks = d.indexLen.toNat := by
  unfold IndexDescriptor.validate at h
  split at h
  · cases h
  · split at h
    · cases h
    · split at h
      · cases h
      · split at h
        · cases h
        · rename_i hsum
          exact not_not.mp hsum

/-- Bytes without collisions are known by their addresses. -/
theorem pieces_unique {hash : Bytes → Hash} {P : Bytes → Prop}
    (hfree : ∀ a b, P a → P b → hash a = hash b → a = b) {xs ys : List Bytes}
    (hxs : ∀ x ∈ xs, P x) (hys : ∀ y ∈ ys, P y) (h : xs.map hash = ys.map hash) : xs = ys := by
  induction xs generalizing ys with
  | nil =>
    cases ys with
    | nil => rfl
    | cons y ys => cases h
  | cons x xs ih =>
    cases ys with
    | nil => cases h
    | cons y ys =>
      rw [List.map_cons, List.map_cons, List.cons.injEq] at h
      rw [hfree x y (hxs x (by simp)) (hys y (by simp)) h.1,
        ih (fun a ha => hxs a (by simp [ha])) (fun a ha => hys a (by simp [ha])) h.2]

section Forall₂

variable {α β : Type} {R : α → β → Prop} {xs : List α} {ys : List β}

theorem forall₂_left (h : List.Forall₂ R xs ys) : ∀ x ∈ xs, ∃ y ∈ ys, R x y := by
  induction h with
  | nil => simp
  | cons hr _ ih =>
    intro x hx
    rcases List.mem_cons.mp hx with rfl | hx
    · exact ⟨_, by simp, hr⟩
    · obtain ⟨y, hy, hr⟩ := ih x hx
      exact ⟨y, by simp [hy], hr⟩

theorem forall₂_with_mem (h : List.Forall₂ R xs ys) :
    List.Forall₂ (fun x y => R x y ∧ y ∈ ys) xs ys := by
  induction h with
  | nil => exact .nil
  | cons hr _ ih =>
    refine .cons ⟨hr, by simp⟩ (ih.imp ?_)
    rintro x y ⟨hr, hy⟩
    exact ⟨hr, by simp [hy]⟩

theorem forall₂_map_eq {γ : Type} {f : α → γ} {g : β → γ} (h : List.Forall₂ R xs ys)
    (hR : ∀ x y, R x y → f x = g y) : xs.map f = ys.map g := by
  induction h with
  | nil => rfl
  | cons hr _ ih => rw [List.map_cons, List.map_cons, hR _ _ hr, ih]

end Forall₂

section Accepted

variable [Postcard TreeIndex] [Postcard IndexDescriptor] {th : TreeHash}
  {zstd : Zstd} {cfg : TreeConfig}
  {shards : ShardReplies} {sample : Sample} {payload : Bytes} {index : TreeIndex}

/-- What was put together is as described, if the descriptor is truthful and gives each
address one length. -/
theorem assembled_describes_iff
    (hfree : ∀ a b, shards.Carries zstd a → shards.Carries zstd b → th.hash a = th.hash b → a = b)
    (h : assembleShardedIndex th.hash zstd cfg sample shards = .ok payload)
    (hindex : decode TreeIndex payload = .ok index) :
    ∃ d, decode IndexDescriptor sample.payload = .ok d ∧
      (d.Describes th zstd shards payload index ↔ d.Truthful th zstd shards ∧ d.OneLength) := by
  obtain ⟨d, pieces, hd, hvalid, rfl, hpieces⟩ := assembleShardedIndex_ok h
  refine ⟨d, hd, ?_, ?_⟩
  · rintro ⟨⟨split, hflat, hsplit⟩, -, hroot⟩
    have hcarried : ∀ p ∈ split, shards.Carries zstd p := by
      intro p hp
      obtain ⟨c, -, -, -, hcarries⟩ := forall₂_left hsplit p hp
      exact hcarries
    refine ⟨⟨split, index, hcarried, forall₂_map_eq hsplit fun p c hp => hp.1,
      hflat ▸ hindex, hroot⟩, ?_⟩
    intro c hc c' hc' hsame
    obtain ⟨p, -, hp, hlen, hcp⟩ := forall₂_left hsplit.flip c hc
    obtain ⟨p', -, hp', hlen', hcp'⟩ := forall₂_left hsplit.flip c' hc'
    have heq : p = p' := hfree p p' hcp hcp' (by rw [hp, hp', hsame])
    rw [← UInt32.toNat_inj, ← hlen, ← hlen', heq]
  · rintro ⟨⟨split, other, hcarried, hhashes, hother, hroot⟩, hone⟩
    have hall : ∀ p ∈ pieces, shards.Carries zstd p := by
      intro p hp
      obtain ⟨c, -, hpiece⟩ := forall₂_left hpieces p hp
      exact hpiece.carried
    have hsame : split = pieces :=
      pieces_unique hfree hcarried hall
        (hhashes.trans (forall₂_map_eq hpieces fun p c hp => hp.addressed).symm)
    subst hsame
    rw [hindex] at hother
    cases hother
    have hlen : List.Forall₂ (fun p c => th.hash p = c.hash ∧ p.length = c.len.toNat ∧
        shards.Carries zstd p)
        split d.indexChunks := by
      refine (forall₂_with_mem hpieces).imp ?_
      rintro p c ⟨hpiece, hc⟩
      obtain ⟨c', hc', hh, hsize⟩ := hpiece.sized
      exact ⟨hpiece.addressed, by rw [hsize, hone c' hc' c hc hh], hpiece.carried⟩
    refine ⟨⟨split, rfl, hlen⟩, ?_, hroot⟩
    rw [chunkSum_of_lengths (hlen.imp fun _ _ h => h.2.1), IndexDescriptor.validate_total hvalid]

omit [Postcard TreeIndex] in
theorem indexPayload_desc (henc : sample.encoding = encIndexDesc)
    (h : indexPayload th zstd cfg sample shards = some (.ok payload)) :
    assembleShardedIndex th.hash zstd cfg sample shards = .ok payload := by
  rw [indexPayload, if_pos henc] at h
  exact Option.some.inj h

/-- An index that is returned is valid, of the id and the root asked for and within the
limit; and if it came in pieces, they are what the descriptor says if and only if the
descriptor is truthful about its root and gives each address one length. -/
theorem index_acceptance {id : String} {pin : Option Hash}
    {query : Option (List (Reply × ShardReplies))}
    (hfree : ∀ r ∈ query.getD [], ∀ a b, r.2.Carries zstd a → r.2.Carries zstd b →
      th.hash a = th.hash b → a = b)
    (h : fetchIndexMatching th zstd cfg id pin query = .ok index) :
    index.validate th = .ok () ∧ index.id.str = id ∧
      (∀ root, pin = some root → index.rootHash = root) ∧
      ∃ r ∈ query.getD [], ∃ sample payload, r.1 = .ok sample ∧
        indexPayload th zstd cfg sample r.2 = some (.ok payload) ∧
        decode TreeIndex payload = .ok index ∧
        payload.length ≤ cfg.maxIndexBytes ∧
        (sample.encoding = encIndexDesc → ∃ d, decode IndexDescriptor sample.payload = .ok d ∧
          (d.Describes th zstd r.2 payload index ↔ d.Truthful th zstd r.2 ∧ d.OneLength)) := by
  cases query with
  | none =>
    simp only [fetchIndexMatching, bind, Except.bind] at h
    split at h <;> cases h
  | some replies =>
    obtain ⟨before, r, after, hreplies, hacc, -⟩ := (fetchIndexMatching_selects replies index).mp h
    obtain ⟨sample, payload, hr, hpayload, hlen, hindex, hvalid, hid, hpin⟩ := hacc
    have hmem : r ∈ replies := by simp [hreplies]
    refine ⟨hvalid, hid, hpin, r, hmem, sample, payload, hr, hpayload, hindex, hlen, fun henc => ?_⟩
    exact assembled_describes_iff (hfree r hmem) (indexPayload_desc henc hpayload) hindex

end Accepted

section Single

attribute [local instance] Format.indexWire Format.descriptorWire

def shardTree : TreeHash := ⟨singleHash, singleTree.encode⟩

def shardConfig : TreeConfig := ⟨"s", 1000, 2⟩

def singleReply : Reply := .ok ⟨storeKey "s" .blake3 singlePiece, encChunk, 0 :: singleEncoded⟩

def singleShards (batch : List Reply) : ShardReplies :=
  ⟨fun _ => some batch, fun _ => some [singleReply]⟩

def descriptorReply (d : IndexDescriptor) (batch : List Reply) : Reply × ShardReplies :=
  (.ok ⟨treeKey "t" "t", encIndexDesc, encode d⟩, singleShards batch)

theorem singleShards_carries {batch : List Reply} (hbatch : ∀ r ∈ batch, r = singleReply)
    {bytes : Bytes}
    (h : (singleShards batch).Carries none bytes) : bytes = singleEncoded := by
  obtain ⟨k, rs, sample, hrs, hmem, hun⟩ := h
  have hsample : Except.ok sample = singleReply := by
    rcases hrs with hrs | hrs
    · cases hrs
      exact hbatch _ hmem
    · cases hrs
      exact List.mem_singleton.mp hmem
  cases hsample
  have hpack : pack none singleEncoded .none = .ok (0 :: singleEncoded) := rfl
  have hun' : tryUnpack none (0 :: singleEncoded) = .ok singleEncoded :=
    tryUnpack_pack (fun c hc => by cases hc) (by decide) hpack
  rw [hun'] at hun
  exact (Except.ok.inj hun).symm

theorem singleShards_free {batch : List Reply} (hbatch : ∀ r ∈ batch, r = singleReply) (a b : Bytes)
    (ha : (singleShards batch).Carries none a) (hb : (singleShards batch).Carries none b)
    (_ : shardTree.hash a = shardTree.hash b) : a = b := by
  rw [singleShards_carries hbatch ha, singleShards_carries hbatch hb]

theorem assemble_few {d : IndexDescriptor} {shards : ShardReplies}
    {key : String} {got : List (Hash × Bytes)}
    (hvalid : d.validate shardConfig.maxIndexBytes = .ok ()) (hne : d.indexChunks ≠ [])
    (hfew : d.indexChunks.length ≤ shardConfig.batchSize)
    (hgot : collectBatches shardTree.hash none shardConfig shards 0 [] [d.indexChunks] = .ok got) :
    assembleShardedIndex shardTree.hash none shardConfig ⟨key, encIndexDesc, encode d⟩ shards =
      joinChunks shardTree.hash none shards 0 got d.indexChunks := by
  have hgroups : sliceChunks (max shardConfig.batchSize 1) [] d.indexChunks = [d.indexChunks] :=
    sliceChunks_few hne (by simp only [List.length_nil]; omega)
  simp only [assembleShardedIndex, decode_encode, bind, Except.bind, hvalid, hgroups, hgot]

theorem join_single {batch : List Reply} {k : Nat} :
    joinChunks shardTree.hash none (singleShards batch) k []
      [⟨singlePiece, 63⟩] = .ok singleEncoded := by
  have hfetch : fetchOneChunk shardTree.hash none singlePiece (some 63) maxUnpacked
      (some [singleReply]) = .ok (singleEncoded, 0) := by decide +kernel
  simp [joinChunks, singleShards, hfetch, bind, Except.bind, Except.map]

theorem assemble_single {d : IndexDescriptor} {key : String}
    (hchunks : d.indexChunks = [⟨singlePiece, 63⟩])
    (hvalid : d.validate shardConfig.maxIndexBytes = .ok ()) :
    assembleShardedIndex shardTree.hash none shardConfig ⟨key, encIndexDesc, encode d⟩
      (singleShards []) =
      .ok singleEncoded := by
  have hgot : collectBatches shardTree.hash none shardConfig
      (singleShards []) 0 [] [d.indexChunks] = .ok [] := rfl
  rw [assemble_few hvalid (by simp [hchunks]) (by simp [hchunks, shardConfig]) hgot, hchunks]
  exact join_single

theorem fetch_assembled {d : IndexDescriptor} {batch : List Reply} {payload : Bytes}
    (h : assembleShardedIndex shardTree.hash none shardConfig
      ⟨treeKey "t" "t", encIndexDesc, encode d⟩
      (singleShards batch) = .ok payload)
    (hverdict : indexVerdict shardTree shardConfig "t" none payload = .ok singleIndex) :
    fetchIndexMatching shardTree none shardConfig "t" none
      (some [descriptorReply d batch]) = .ok singleIndex := by
  have hpayload : indexPayload shardTree none shardConfig ⟨treeKey "t" "t", encIndexDesc, encode d⟩
      (singleShards batch) = some (.ok payload) := by rw [indexPayload, if_pos rfl, h]
  exact (fetchIndexMatching_selects _ _).mpr
    ⟨[], _, [], rfl, ⟨_, payload, rfl, hpayload, indexVerdict_iff.mp hverdict⟩, by simp⟩

/-- The one piece under a truthful descriptor. -/
theorem index_acceptance_single :
    fetchIndexMatching shardTree none shardConfig "t" none (some [descriptorReply singleDesc []]) =
        .ok singleIndex ∧
      singleIndex.validate shardTree = .ok () ∧
      singleDesc.Describes shardTree none (singleShards []) singleEncoded singleIndex := by
  have hsingle : assembleShardedIndex shardTree.hash none shardConfig
      ⟨treeKey "t" "t", encIndexDesc, encode singleDesc⟩ (singleShards []) = .ok singleEncoded :=
    assemble_single rfl (by decide +kernel)
  have hok : fetchIndexMatching shardTree none shardConfig "t" none
      (some [descriptorReply singleDesc []]) = .ok singleIndex :=
    fetch_assembled hsingle (by decide +kernel)
  obtain ⟨hvalid, -, -, r, hr, sample, payload, hsample, hpayload, hindex, -, hdesc⟩ :=
    index_acceptance (fun r hr => by
      rw [List.mem_singleton.mp hr]
      exact singleShards_free (by simp)) hok
  obtain rfl : r = descriptorReply singleDesc [] := List.mem_singleton.mp hr
  cases hsample
  obtain rfl : singleEncoded = payload :=
    Except.ok.inj (hsingle.symm.trans (indexPayload_desc rfl hpayload))
  obtain ⟨d, hd, hiff⟩ := hdesc rfl
  obtain rfl : singleDesc = d := Except.ok.inj ((decode_encode singleDesc).symm.trans hd)
  have hcarried : (singleShards []).Carries none singleEncoded :=
    ⟨0, _, _, .inr rfl, List.mem_singleton.mpr rfl, rfl⟩
  refine ⟨hok, hvalid, hiff.mpr ⟨⟨[singleEncoded], singleIndex, fun p hp => ?_, ?_, ?_, ?_⟩, ?_⟩⟩
  · rw [List.mem_singleton.mp hp]
    exact hcarried
  · decide +kernel
  · simpa using hindex
  · rfl
  · intro c hc c' hc' _
    rw [List.mem_singleton.mp hc, List.mem_singleton.mp hc']

/-- A root that nothing hashes to is let through, and so is a second length for the one
piece: the first position then gets 63 bytes where the descriptor says one. -/
theorem descriptor_unchecked :
    let forged : IndexDescriptor := { singleDesc with root := shortHash [] }
    let twice : IndexDescriptor :=
      { singleDesc with indexChunks := [⟨singlePiece, 1⟩, ⟨singlePiece, 63⟩], indexLen := 64 }
    (fetchIndexMatching shardTree none shardConfig "t" none (some [descriptorReply forged []]) =
        .ok singleIndex ∧ singleIndex.rootHash ≠ forged.root) ∧
      fetchIndexMatching shardTree none shardConfig "t" none
        (some [descriptorReply twice [singleReply]]) =
        .ok singleIndex ∧
      assembleShardedIndex shardTree.hash none shardConfig
        ⟨treeKey "t" "t", encIndexDesc, encode twice⟩
          (singleShards [singleReply]) = .ok (singleEncoded ++ singleEncoded) ∧
      (singleEncoded ++ singleEncoded).length ≠ twice.indexLen.toNat := by
  intro forged twice
  have hforged : assembleShardedIndex shardTree.hash none shardConfig
      ⟨treeKey "t" "t", encIndexDesc, encode forged⟩ (singleShards []) = .ok singleEncoded :=
    assemble_single rfl (by decide +kernel)
  have hbatch : collectBatches shardTree.hash none shardConfig
      (singleShards [singleReply]) 0 [] [twice.indexChunks] =
      .ok [(singlePiece, singleEncoded)] := by decide +kernel
  have htwice : assembleShardedIndex shardTree.hash none shardConfig
      ⟨treeKey "t" "t", encIndexDesc, encode twice⟩ (singleShards [singleReply]) =
        .ok (singleEncoded ++ singleEncoded) := by
    rw [assemble_few (by decide +kernel) (by decide +kernel) (by decide +kernel) hbatch]
    have hfirst :
        joinChunks shardTree.hash none (singleShards [singleReply]) 0
            [(singlePiece, singleEncoded)] twice.indexChunks =
          (joinChunks shardTree.hash none (singleShards [singleReply]) 1 []
            [⟨singlePiece, 63⟩]).map (singleEncoded ++ ·) := by
      simp [joinChunks, twice]
    rw [hfirst, join_single]
    rfl
  exact ⟨⟨fetch_assembled hforged (by decide +kernel), by decide +kernel⟩,
    fetch_assembled htwice (by decide +kernel), htwice, by decide +kernel⟩

end Single

end Zblob

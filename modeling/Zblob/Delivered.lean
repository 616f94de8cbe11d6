import Zblob.Reassembly
import Zblob.Routing
import Zblob.Sync
import Zblob.Willing

/-!
From one directory to another over a network of strangers: an honest server of the snapshot
among those who answer the index query, an honest holder among those who answer each chunk
query, and the download comes out as the directory that was built.
-/

set_option autoImplicit false

namespace Zblob

open Program

section Same

variable {th : TreeHash} {m : ChunkMap} {cdc cdc' : CdcParams} {es es' : List Entry}
  {root : Path} {fs : Fs}

theorem Layout.forget (h : Layout th m cdc es) (hsame : SameButTimes es es')
    (ok : EntriesOk cdc' [] es') :
    Layout th m cdc' es' := by
  refine ⟨ok, fun e he => ?_, fun before path target after hsplit => ?_,
    fun path mode mtime size chunks he => ?_⟩
  · obtain ⟨e', he', hforget⟩ := hsame.symm.mem he
    rw [← Entry.rel_of_forget hforget]
    refine (h.parents e' he').imp_right fun hparent => ?_
    obtain ⟨d, hd, hdir, hrel⟩ := hparent
    obtain ⟨d', hd', hforget'⟩ := hsame.mem hd
    exact ⟨d', hd', (Entry.isDir_of_forget hforget').trans hdir,
      (Entry.rel_of_forget hforget').trans hrel⟩
  · have hmap := hsame
    rw [SameButTimes, hsplit, List.map_append, List.map_cons] at hmap
    obtain ⟨b, rest, hes, hb, hrest⟩ := List.map_eq_append_iff.mp hmap
    obtain ⟨x, a, rfl, hx, -⟩ := List.map_eq_cons_iff.mp hrest
    rw [Entry.eq_hardlink hx] at hes
    obtain ⟨t, ht, hfile, htarget⟩ := h.links b path target a hes
    have hbefore : SameButTimes b before := hb
    obtain ⟨t', ht', hforget⟩ := hbefore.mem ht
    exact ⟨t', ht', (Entry.isFile_of_forget hforget).trans hfile,
      by rw [htarget, Entry.rel_of_forget hforget]⟩
  · obtain ⟨e', he', hforget⟩ := hsame.symm.mem he
    cases e' <;> cases hforget
    exact h.stocked _ _ _ _ _ he'

theorem SameButTimes.chunks (hsame : SameButTimes es es') :
    es.flatMap Entry.chunks = es'.flatMap Entry.chunks := by
  have hmap : ∀ es : List Entry, es.flatMap Entry.chunks =
      (es.map Entry.forgetMtime).flatMap Entry.chunks := by
    intro es
    rw [List.flatMap_map]
    simp
  rw [hmap es, hmap es', hsame]

theorem SameButTimes.sizes (hsame : SameButTimes es es') :
    es.foldl (fun sum e => sum + e.size) 0 = es'.foldl (fun sum e => sum + e.size) 0 := by
  have hmap : ∀ es : List Entry, es.foldl (fun sum e => sum + e.size) 0 =
      (es.map Entry.forgetMtime).foldl (fun sum e => sum + e.size) 0 := by
    intro es
    rw [List.foldl_map]
    simp
  rw [hmap es, hmap es', hsame]

variable {a b : TreeIndex}

theorem affordable_same (hsame : SameButTimes a.entries b.entries) (cfg : SyncConfig) :
    affordable cfg a = affordable cfg b := by
  have hsizes : a.totalSize = b.totalSize := hsame.sizes
  have hneeded : a.neededChunks = b.neededChunks := congrArg (List.foldl noteHash []) hsame.chunks
  rw [affordable, affordable, hsizes, hneeded]

theorem fetchNeeded_same (hsame : SameButTimes a.entries b.entries)
    (hash : Bytes → Hash) (zstd : Zstd)
    (cfg : FetchConfig) (store : ChunkMap) (env : TreeFetch) :
    fetchNeeded hash zstd cfg a store env = fetchNeeded hash zstd cfg b store env := by
  have hneeded : a.neededChunks = b.neededChunks := congrArg (List.foldl noteHash []) hsame.chunks
  have hrefs : a.neededChunkRefs = b.neededChunkRefs :=
    congrArg (List.foldl noteRef []) hsame.chunks
  rw [fetchNeeded, fetchNeeded, hneeded, hrefs]

end Same

theorem mem_noteRef {order : List ChunkRef} {c x : ChunkRef} (h : x ∈ noteRef order c) :
    x ∈ order ∨ x = c := by
  unfold noteRef at h
  split at h
  · obtain ⟨y, hy, rfl⟩ := List.mem_map.mp h
    split
    · rename_i hhash
      by_cases hle : y.len ≤ c.len
      · right
        rw [show max y.len c.len = c.len from if_pos hle]
        cases c
        cases y
        cases hhash
        rfl
      · left
        rw [show max y.len c.len = y.len from if_neg hle]
        exact hy
    · exact .inl hy
  · simpa using h

theorem mem_neededChunkRefs {index : TreeIndex} {c : ChunkRef} (h : c ∈ index.neededChunkRefs) :
    ∃ e ∈ index.entries, c ∈ e.chunks := by
  have hfold : ∀ (chunks order : List ChunkRef), c ∈ chunks.foldl noteRef order →
      c ∈ order ∨ c ∈ chunks := by
    intro chunks
    induction chunks with
    | nil => exact fun order h => .inl h
    | cons x chunks ih =>
      intro order h
      rcases ih _ h with h | h
      · rcases mem_noteRef h with h | rfl
        · exact .inl h
        · exact .inr (by simp)
      · exact .inr (by simp [h])
  rcases hfold _ [] h with h | h
  · cases h
  · simpa using h

section Pieces

variable {th : TreeHash} {cut : CdcParams → Bytes → List Bytes} {cdc : CdcParams}
  {tree : SourceTree}
  {walked : Walk} {seen : List (RelPath × SourceNode)}

theorem Recorded.piece (hrec : Recorded th cut cdc tree seen walked)
    (hperm : seen.Perm tree.nodes) {e : Entry}
    (he : e ∈ walked.entries) {c : ChunkRef} (hc : c ∈ e.chunks) :
    ∃ piece, IsPiece cut cdc tree piece ∧ c = pieceRef th.hash piece := by
  obtain ⟨q, n, hq, hd⟩ := hrec.entryOf e he
  cases hd with
  | dir => cases hc
  | symlink => cases hc
  | hardlink => cases hc
  | @file f =>
    obtain ⟨piece, hp, rfl⟩ := List.mem_map.mp hc
    exact ⟨piece, ⟨q, f, hperm.mem_iff.mp hq, hp⟩, rfl⟩

end Pieces

section Peers

variable [Wire TreeIndex] {hash : Bytes → Hash} {zstd : Zstd} {compress : Compress}

/-- A server that has come, by whatever registrations, to serve `index` to queries under `q`. -/
structure Publishes (hash : Bytes → Hash) (q : QueryPrefix) (index : TreeIndex)
    (srv : TreeServer) : Prop where
  key : ∃ p : ServePrefix, srv.treePrefix = p.str ∧ Stands p q
  run : ∃ start ops, start.index = ∅ ∧ start.store.Addressed hash ∧
    srv = Runs.run (TreeServer.apply hash) ops start
  registered : ∃ reg, srv.index.lookup index.id.str = some reg ∧ reg.index = index

/-- A server that has every chunk of the tree, and serves it to queries under `q`. -/
structure Holder (hash : Bytes → Hash) (zstd : Zstd) (compress : Compress) (q : QueryPrefix)
    (cut : CdcParams → Bytes → List Bytes) (cdc : CdcParams) (tree : SourceTree)
    (srv : TreeServer) : Prop where
  key : ∃ p : ServePrefix, srv.storePrefix = p.str ∧ Stands p q
  codec : srv.compression.Supported compress zstd
  pieces : ∀ piece, IsPiece cut cdc tree piece → srv.store (hash piece) = some piece

/-- Among the replies to the index query is a publisher's, and the pieces it may point at can
be had from it. -/
def IndexServed [Wire IndexDescriptor] (hash : Bytes → Hash) (zstd : Zstd)
    (compress : Compress) (q : QueryPrefix)
    (index : TreeIndex) (replies : List (Reply × ShardReplies)) : Prop :=
  ∃ srv served shards, Publishes hash q index srv ∧ (Except.ok served, shards) ∈ replies ∧
    srv.serveIndexQuery (treeKey q.str index.id.str) = some served ∧
    (∀ reg desc, srv.index.lookup index.id.str = some reg → reg.sharded = some desc →
      HonestSingles compress srv desc shards) ∧ NoShardCollision hash zstd srv index shards

def AnsweredBy (compress : Compress) (isHolder : TreeServer → Prop) (q : QueryPrefix) (c : ChunkRef)
    (replies : List Reply) : Prop :=
  ∃ srv reply, isHolder srv ∧ srv.serveChunkQuery compress (storeKey q.str .blake3 c.hash) = .ok
    (some reply) ∧
    Except.ok reply ∈ replies

theorem IndexServed.acceptable [Wire IndexDescriptor] {q : QueryPrefix}
    (hq : Shaped q.str) {index : TreeIndex}
    {replies : List (Reply × ShardReplies)} {th : TreeHash}
    (h : IndexServed th.hash zstd compress q index replies) {cfg : TreeConfig}
    (hundone : compress.Undone zstd)
    (hmax : (encode index).length ≤ cfg.maxIndexBytes) (hbits : cfg.maxIndexBytes < 2 ^ 64)
    (hvalid : index.validate th = .ok ()) :
    ∃ r ∈ replies, AcceptableIndex th zstd cfg index.id.str (some index.rootHash) r index := by
  obtain ⟨srv, served, shards, hpub, hmem, hserved, hhonest, hfree⟩ := h
  obtain ⟨p, hunder, hstands⟩ := hpub.key
  obtain ⟨start, ops, hempty, haddr, rfl⟩ := hpub.run
  obtain ⟨reg, hreg, rfl⟩ := hpub.registered
  have hs : Sharded th.hash (Runs.run (TreeServer.apply th.hash) ops start) :=
    Sharded.run ⟨haddr, fun id reg h => by simp [hempty] at h⟩ ops
  generalize Runs.run (TreeServer.apply th.hash) ops start = srv at *
  have htail : parseTier2Tail p.str (treeKey q.str reg.index.id.str) = some [reg.index.id.str] := by
    refine parseTier2Tail_key hq hstands [reg.index.id.str] _ ?_ (by simp) (by simp) (by
      simpa using reg.index.id.segment.1)
    simp [treeKey, slashJoin]
  rw [TreeServer.serveIndexQuery, hunder, htail] at hserved
  simp only [TreeServer.indexReply, hreg, Option.map_some, Option.some.injEq] at hserved
  refine ⟨_, hmem, served, encode reg.index, rfl, ?_, hmax, decode_encode _,
    hvalid, rfl, fun root hr => by
    cases hr; rfl⟩
  cases hsharded : reg.sharded with
  | none =>
    rw [hsharded] at hserved
    subst hserved
    rw [indexPayload, if_neg (show ¬encIndex = encIndexDesc by decide), if_pos rfl]
  | some desc =>
    rw [hsharded] at hserved
    subst hserved
    rw [indexPayload, if_pos rfl, assemble_served hs hreg hsharded hundone hmax hbits
      (hhonest reg desc hreg hsharded)
      hfree]

variable {q : QueryPrefix} {cut : CdcParams → Bytes → List Bytes}
  {cdc : CdcParams} {tree : SourceTree}
  {srv : TreeServer} {piece : Bytes}

omit [Wire TreeIndex] in
theorem Holder.answers (h : Holder hash zstd compress q cut cdc tree srv) (hq : Shaped q.str)
    (hp : IsPiece cut cdc tree piece) (hmax : piece.length ≤ maxUnpacked) :
    ∃ reply, srv.serveChunkQuery compress (storeKey q.str .blake3 (hash piece)) = .ok (some reply) ∧
      judgeReply hash zstd (hash piece) (some (UInt32.ofNat piece.length)) maxUnpacked
      (.ok reply) = .accepted piece := by
  obtain ⟨p, hunder, hstands⟩ := h.key
  obtain ⟨packed, hpack, hlen, hun⟩ := pack_supported h.codec piece
  have hsize : (UInt32.ofNat piece.length).toNat = piece.length := by
    rw [UInt32.toNat_ofNat']
    exact tryUnpack_mod (hun hmax)
  refine ⟨⟨storeKey p.str .blake3 (hash piece), encChunk, packed⟩,
    (made_reply h.codec hpack).single srv q hunder rfl (h.pieces piece hp) hq hstands,
    judgeReply_accepted.mpr ⟨_, rfl, rfl, ?_, hun hmax, fun n hn => ?_, rfl⟩⟩
  · simp only [Option.map_some, Option.getD_some, hsize]
    omega
  · cases hn
    exact hsize.symm

omit [Wire TreeIndex] in
theorem AnsweredBy.supplied {replies : List Reply} (hq : Shaped q.str)
    (h : AnsweredBy compress (Holder hash zstd compress q cut cdc tree) q
      (pieceRef hash piece) replies)
    (hp : IsPiece cut cdc tree piece) (hmax : piece.length ≤ maxUnpacked) :
    Supplied hash zstd (pieceRef hash piece) replies := by
  obtain ⟨srv, reply, hholder, hreply, hmem⟩ := h
  obtain ⟨good, hgood, hacc⟩ := hholder.answers hq hp hmax
  cases hreply.symm.trans hgood
  exact ⟨_, hmem, piece, hacc⟩

end Peers

section Client

variable {th : TreeHash} {cut : CdcParams → Bytes → List Bytes} {cdc : CdcParams}
  {tree : SourceTree} {walked : Walk}
  {seen : List (RelPath × SourceNode)} {index : TreeIndex} {store : ChunkMap} {s : Fetching}

def Walk.onto (w : Walk) (m : ChunkMap) : Walk := { w with store := m }

theorem Recorded.onto (hrec : Recorded th cut cdc tree seen walked) (m : ChunkMap) :
    Recorded th cut cdc tree seen (walked.onto m) :=
  ⟨hrec.cover, hrec.nodeOf, hrec.entryOf, hrec.first, hrec.own, hrec.links⟩

theorem addressed_putMany {hash : Bytes → Hash} {m : ChunkMap} {ps : List (Hash × Bytes)}
    (hm : m.Addressed hash)
    (hps : ∀ p ∈ ps, hash p.2 = p.1) : (m.putMany ps).Addressed hash := by
  induction ps generalizing m with
  | nil => exact hm
  | cons p ps ih =>
    refine ih (fun h b hb => ?_) fun x hx => hps x (by simp [hx])
    by_cases hp : h = p.1
    · subst hp
      simp only [ChunkMap.put, Function.update_self, Option.some.injEq] at hb
      rw [← hb, hps p (by simp)]
    · exact hm h b (by simpa [ChunkMap.put, Function.update_of_ne hp] using hb)

theorem Faring.addressed (h : Faring th.hash index store s) (hstore : store.Addressed th.hash) :
    s.store.Addressed th.hash := by
  rw [h.sound.safe.store]
  refine addressed_putMany hstore fun p hp => ?_
  obtain ⟨c, -, -, hhash, -⟩ := h.sound.safe.puts p hp
  exact hhash

theorem Faring.stocked (h : Faring th.hash index store s) (hstore : store.Addressed th.hash)
    (hrec : Recorded th cut cdc tree seen walked) (hentries : index.entries = walked.entries)
    {stats : TransferStats}
    (hdone : s.phase = .done (.ok stats)) :
    Stocked th tree (fun b => IsPiece cut cdc tree b ∨ ∃ x, s.store x = some b)
      (walked.onto s.store) := by
  refine ⟨fun x hx => ?_, fun a b hb => ⟨h.addressed hstore a b hb, .inr ⟨a, hb⟩⟩,
    fun e he c hc => ?_⟩
  · exact hrec.cover.mem_iff.mp (List.mem_append_right _ hx)
  · have hneeded : c.hash ∈ index.neededChunks :=
      mem_neededChunks.mpr ⟨e, hentries ▸ he, c, hc, rfl⟩
    rw [← index.neededChunkRefs_hashes] at hneeded
    obtain ⟨r, hr, hhash⟩ := List.mem_map.mp hneeded
    rw [← hhash]
    exact h.complete hdone r hr

end Client

theorem CdcParams.max_le {cdc : CdcParams} (h : cdc.validate = .ok ()) :
    cdc.max.toNat ≤ maxUnpacked := by
  unfold CdcParams.validate at h
  split at h
  · rename_i hok
    exact UInt32.le_iff_toNat_le.mp hok.2.2.2.2.1
  · cases h

theorem Willing.mono {good good' : ChunkRef → List Reply → Prop} {s : Fetching} {input : FetchInput}
    (h : Willing good s input)
    (himp : ∀ task ∈ s.tasks, ∀ replies, good task.want.2 replies → good' task.want.2 replies) :
    Willing good' s input := by
  cases h with
  | round => exact .round
  | turn => exact .turn
  | fill => exact .fill
  | wake => exact .wake
  | run hgood => exact .run fun task ht => himp task (List.mem_of_getElem? ht) _ (hgood task ht)

theorem buildTree_valid {th : TreeHash} {cut : CdcParams → Bytes → List Bytes}
    {cdc : CdcParams} {tree : SourceTree}
    {id : String} {built built' : ChunkMap} {index : TreeIndex}
    (h : buildTree th cut tree id cdc built = .ok (index, built')) :
    index.validate th = .ok () := by
  obtain ⟨-, blobId, walked, -, -, rfl, hvalid, rfl⟩ := buildTreeFrom_ok h
  exact hvalid

section Laying

variable {hash : Bytes → Hash} {cut : CdcParams → Bytes → List Bytes} {cdc : CdcParams}
  {tree : SourceTree} {walked : Walk} {seen : List (RelPath × SourceNode)} {index got : TreeIndex}

theorem Recorded.needed_piece (hrec : Recorded (TreeHash.postcard hash) cut cdc tree seen walked)
    (hperm : seen.Perm tree.nodes) (hcut : CutsWell cut cdc tree) (hcdc : cdc.validate = .ok ())
    (hentries : index.entries = walked.entries) {c : ChunkRef}
    (hc : c ∈ index.neededChunkRefs) :
    ∃ piece, IsPiece cut cdc tree piece ∧ c = pieceRef hash piece ∧
      piece.length ≤ maxUnpacked ∧ hash piece ∈ index.neededChunks := by
  obtain ⟨e, he, hce⟩ := mem_neededChunkRefs hc
  obtain ⟨piece, hp, rfl⟩ := hrec.piece hperm (hentries ▸ he) hce
  have hlen : piece.length ≤ maxUnpacked := by
    obtain ⟨q, f, hq, hcutp⟩ := hp
    exact ((hcut.proper q f hq piece hcutp).2).trans (CdcParams.max_le hcdc)
  refine ⟨piece, hp, rfl, hlen, ?_⟩
  rw [← index.neededChunkRefs_hashes]
  exact List.mem_map_of_mem hc

/-- What a fetch has brought is enough to lay out every index with the entries of the built one. -/
theorem Faring.mirrors {store : ChunkMap} {s : Fetching} (hs : Faring hash index store s)
    (hstore : store.Addressed hash) {stats : TransferStats} (hdone : s.phase = .done (.ok stats))
    (hrec : Recorded (TreeHash.postcard hash) cut cdc tree seen walked)
    (hperm : seen.Perm tree.nodes) (hcut : CutsWell cut cdc tree)
    (ok : EntriesOk cdc [] walked.entries) (hentries : index.entries = walked.entries)
    (hpieces : ∀ a b, IsPiece cut cdc tree a → IsPiece cut cdc tree b → hash a = hash b → a = b)
    (hfree : Unmistaken (TreeHash.postcard hash) cut cdc tree s.store.asStore)
    (hsame : SameButTimes walked.entries got.entries)
    (hvalid : got.validate (TreeHash.postcard hash) = .ok ()) (policy : MaterializePolicy)
    {io : Nat → KernelReply} (hio : ∀ n, (io n).ok = true) {fs : Fs} {dest root : Path}
    (hroot : fs.canonicalize dest = some root) (hdir : fs.obj root = some .dir)
    (hempty : ∀ q, q ≠ [] → fs.obj (root ++ q) = none) :
    ∃ n w, reconstructTree (TreeHash.postcard hash) dest got.entries s.store.asStore policy
      io 0 ⟨fs, []⟩ = (.ok (), n, w) ∧ Mirrors tree root w.fs := by
  have hcoll : NoCollision (TreeHash.postcard hash) cut cdc tree s.store := by
    intro piece b hp hb hhash
    rcases hb with hb | ⟨h, hb⟩
    · exact hpieces b piece hb hp hhash
    · exact hfree 0 h b piece (by simp [ChunkMap.asStore, hb]) hp hhash
  have hrec' := hrec.onto s.store
  have hstock : Stocked (TreeHash.postcard hash) tree
      (fun b => IsPiece cut cdc tree b ∨ ∃ x, s.store x = some b)
      (walked.onto s.store) := Faring.stocked hs hstore hrec hentries hdone
  have layout : Layout (TreeHash.postcard hash) s.store cdc walked.entries :=
    hrec'.layout hperm hcut hcoll hstock ok
  obtain ⟨n, w, hbuilt, hstand⟩ := reconstructTree_layout policy hio
    (layout.forget hsame (TreeIndex.validate_ok hvalid)) hroot hdir hempty
  have hmirrors := (hstand.passed.forget hsame.symm).mirrors hrec hperm ok hcut hfree
  exact ⟨n, w, hbuilt, hmirrors⟩

end Laying

/-- A download over whatever network answers an index query with the built index among others,
and a chunk query with something good among others: it can be brought to its end at every
moment, and at the end there is a mirror of the directory. -/
theorem good_network_delivers [Wire TreeIndex] [Wire IndexDescriptor]
    {hash : Bytes → Hash} {zstd : Zstd}
    {cfg : SyncConfig} {cut : CdcParams → Bytes → List Bytes} {cdc : CdcParams}
    {tree : SourceTree} {id : String}
    {built built' : ChunkMap} {index : TreeIndex}
    (hbuild : buildTree (TreeHash.postcard hash) cut tree id cdc built = .ok (index, built'))
    (hcut : CutsWell cut cdc tree) (hafford : affordable cfg index = .ok ())
    {good : ChunkRef → List Reply → Prop}
    (hgood : ∀ piece, IsPiece cut cdc tree piece → piece.length ≤ maxUnpacked →
      hash piece ∈ index.neededChunks →
      ∀ replies, good (pieceRef hash piece) replies → Supplied hash zstd
      (pieceRef hash piece) replies)
    (hsome : ∀ piece, IsPiece cut cdc tree piece → piece.length ≤ maxUnpacked →
      hash piece ∈ index.neededChunks →
      ∃ replies, good (pieceRef hash piece) replies)
    (hpieces : ∀ a b, IsPiece cut cdc tree a → IsPiece cut cdc tree b → hash a = hash b → a = b)
    {replies : List (Reply × ShardReplies)}
    (haccept : ∃ r ∈ replies, AcceptableIndex (TreeHash.postcard hash)
      zstd cfg.toTreeConfig index.id.str
      (some index.rootHash) r index)
    (hforge : Unforged hash zstd cfg.toTreeConfig index.id.str index.entries replies)
    {store : ChunkMap}
    (hstore : store.Addressed hash) {taken : List (Fetching × FetchInput)} {s : Fetching}
    (hrun : Runs.Path (WillingStep hash zstd good cfg.toFetchConfig index.neededChunks.length)
      (index.fetching cfg.toFetchConfig store) taken s)
    {io : Nat → KernelReply} (hio : ∀ n, (io n).ok = true) {fs : Fs} {dest root : Path}
    (hroot : fs.canonicalize dest = some root) (hdir : fs.obj root = some .dir)
    (hempty : ∀ q, q ≠ [] → fs.obj (root ++ q) = none) :
    (∃ rest t stats,
      Runs.Path (WillingStep hash zstd good cfg.toFetchConfig index.neededChunks.length) s rest t ∧
        t.phase = .done (.ok stats)) ∧
      ∀ r, s.phase = .done r → Unmistaken (TreeHash.postcard hash) cut cdc tree s.store.asStore →
        ∃ prog stats n w, r = .ok stats ∧
          runDownloadTree (TreeHash.postcard hash) zstd cfg ChunkMap.asStore
          ⟨index.id.str, some index.rootHash⟩ dest
            store ⟨some replies, .ok (store.hasMany (index.neededChunkRefs.map ChunkRef.hash)),
              taken.map Prod.snd⟩ =
              some prog ∧
          prog io 0 ⟨fs, []⟩ = (.ok stats, n, w) ∧ Mirrors tree root w.fs := by
  obtain ⟨hcdc, blobId, walked, -, hwalk, rfl, hvalid, rfl⟩ := buildTreeFrom_ok hbuild
  have ok : EntriesOk cdc [] walked.entries := TreeIndex.validate_ok hvalid
  obtain ⟨seen, hperm, hrec⟩ := walkTree_recorded (fun _ _ _ => rfl) hwalk
  generalize hindex : (⟨wireVersion, blobId, .blake3, cdc, walked.entries,
    (TreeHash.postcard hash).rootDigest walked.entries⟩ : TreeIndex) = index at *
  have hentries : index.entries = walked.entries := by rw [← hindex]
  -- what is asked for are chunks of the tree, so a holder's answer is good
  have hpiece : ∀ c ∈ absent store index.neededChunkRefs, ∃ piece, IsPiece cut cdc tree piece ∧
      c = pieceRef hash piece ∧ piece.length ≤ maxUnpacked ∧ hash piece ∈ index.neededChunks :=
    fun c hc => hrec.needed_piece hperm hcut hcdc hentries (List.mem_filter.mp hc).1
  have hgood' : ∀ c ∈ absent store index.neededChunkRefs, ∀ replies, good c replies →
      Supplied hash zstd c replies := by
    intro c hc replies hanswer
    obtain ⟨piece, hp, rfl, hlen, hneeded⟩ := hpiece c hc
    exact hgood piece hp hlen hneeded replies hanswer
  have hsupply : ∀ c ∈ absent store index.neededChunkRefs,
      ∃ replies, good c replies ∧ Supplied hash zstd c replies := by
    intro c hc
    obtain ⟨piece, hp, rfl, hlen, hneeded⟩ := hpiece c hc
    obtain ⟨replies, hreplies⟩ := hsome piece hp hlen hneeded
    exact ⟨replies, hreplies, hgood piece hp hlen hneeded replies hreplies⟩
  have hconvert : ∀ u input v, Faring hash index store u →
      WillingStep hash zstd good cfg.toFetchConfig index.neededChunks.length u input v →
        SuppliedStep hash zstd cfg.toFetchConfig index.neededChunks.length u input v :=
    fun u input v hu hstep =>
      ⟨hstep.1, hstep.2.mono fun task ht => hgood' _ (hu.sound.safe.tasks task ht)⟩
  have hs : Faring hash index store s :=
    hrun.invariant (fun u input v hu hstep => hu.step (hconvert u input v hu hstep))
      (Faring.start hash _ index store).1
  refine ⟨?_, fun r hdone hfree => ?_⟩
  · obtain ⟨rest, t, hpath, stats, ht⟩ :=
      Runs.Path.completes (I := Faring hash index store) (r := Fetching.rank)
      (D := fun t => ∃ stats, t.phase = .done (.ok stats))
        (fun u hu hopen => hu.continues hsupply hopen) hs
    exact ⟨rest, t, stats, hpath, ht⟩
  cases r with
  | error e =>
    have hfail := hs.healthy.phase
    rw [hdone] at hfail
    cases hfail
  | ok stats =>
    -- the index that is accepted has the root, so it is the built one up to its times
    obtain ⟨accepted, hmem, hacc⟩ := haccept
    obtain ⟨got, hfirst⟩ := First.exists_iff.mpr ⟨accepted, hmem, index, hacc⟩
    have hgot := (fetchIndexMatching_selects replies got).mpr hfirst
    obtain ⟨before, r, after, rfl, hgood, -⟩ := hfirst
    have hsame : SameButTimes got.entries index.entries := by
      rw [← TreeIndex.validate_root hvalid] at hgood
      exact hforge.same (by simp) hgood
    obtain ⟨-, -, -, -, -, -, hgvalid, -⟩ := hgood
    have hfetched :=
      hrun.foldlM (f := Fetching.step hash zstd cfg.toFetchConfig index.neededChunks.length)
      fun _ _ _ hstep => hstep.1
    have hneeded : fetchNeeded hash zstd cfg.toFetchConfig got store ⟨some (before ++ r :: after),
        .ok (store.hasMany (index.neededChunkRefs.map ChunkRef.hash)),
        taken.map Prod.snd⟩ = some s := by
      rw [fetchNeeded_same hsame]
      exact hfetched
    -- the chunks are there, so what was built can be laid out from the client's store
    obtain ⟨n, w, hbuilt, hmirrors⟩ := hs.mirrors hstore hdone hrec hperm hcut ok hentries hpieces
      hfree (hentries ▸ hsame.symm) hgvalid cfg.policy hio hroot hdir hempty
    refine ⟨(do
        reconstructTree (TreeHash.postcard hash) dest got.entries s.store.asStore cfg.policy
        pure stats), stats, n, w, rfl, ?_, ?_, hmirrors⟩
    · rw [runDownloadTree, hgot]
      simp only [affordable_same hsame cfg, hafford, TreeHash.postcard,
        hneeded, Option.bind_some, hdone]
    · change Prog.seq (reconstructTree _ _ _ _ _) (fun _ => Prog.ret stats)
        io 0 { fs := fs, log := [] } = _
      unfold Prog.seq
      rw [hbuilt]
      rfl

/-- A download that pins the root of a directory's snapshot, over a network where anybody may
answer anything, but where a publisher answers the index query among others, and some holder
each query for a chunk. At every moment it can be brought to its end; and once its fetch is
over, the download has returned and there is a mirror of the directory, provided that no
chunk has been mistaken for another and that no system call fails. -/
theorem download_tree_delivers [Wire TreeIndex] [Wire IndexDescriptor]
    {hash : Bytes → Hash} {zstd : Zstd}
    {compress : Compress} {cfg : SyncConfig} {cut : CdcParams → Bytes → List Bytes}
    {cdc : CdcParams}
    {tree : SourceTree} {id : String} {built built' : ChunkMap} {index : TreeIndex}
    (hbuild : buildTree (TreeHash.postcard hash) cut tree id cdc built = .ok (index, built'))
    (hcut : CutsWell cut cdc tree) (hundone : compress.Undone zstd)
    (hafford : affordable cfg index = .ok ())
    (hmax : (encode index).length ≤ cfg.maxIndexBytes) (hbits : cfg.maxIndexBytes < 2 ^ 64)
    {qt qs : QueryPrefix}
    (hqt : Shaped qt.str) (hqs : Shaped qs.str) {replies : List (Reply × ShardReplies)}
    (hserved : IndexServed hash zstd compress qt index replies)
    (hforge : Unforged hash zstd cfg.toTreeConfig index.id.str index.entries replies)
    {holder : TreeServer}
    (hholder : Holder hash zstd compress qs cut cdc tree holder)
    {store : ChunkMap} (hstore : store.Addressed hash)
    {taken : List (Fetching × FetchInput)} {s : Fetching}
    (hrun : Runs.Path
      (WillingStep hash zstd (AnsweredBy compress (Holder hash zstd compress qs cut cdc tree) qs)
      cfg.toFetchConfig index.neededChunks.length) (index.fetching cfg.toFetchConfig store) taken s)
    {io : Nat → KernelReply} (hio : ∀ n, (io n).ok = true) {fs : Fs} {dest root : Path}
    (hroot : fs.canonicalize dest = some root) (hdir : fs.obj root = some .dir)
    (hempty : ∀ q, q ≠ [] → fs.obj (root ++ q) = none) :
    (∃ rest t stats, Runs.Path (WillingStep hash zstd
        (AnsweredBy compress (Holder hash zstd compress qs cut cdc tree) qs) cfg.toFetchConfig
        index.neededChunks.length) s rest t ∧ t.phase = .done (.ok stats)) ∧
      ∀ r, s.phase = .done r → Unmistaken (TreeHash.postcard hash) cut cdc tree s.store.asStore →
        ∃ prog stats n w, r = .ok stats ∧
          runDownloadTree (TreeHash.postcard hash) zstd cfg ChunkMap.asStore
          ⟨index.id.str, some index.rootHash⟩ dest
            store ⟨some replies, .ok (store.hasMany (index.neededChunkRefs.map ChunkRef.hash)),
              taken.map Prod.snd⟩ =
              some prog ∧
          prog io 0 ⟨fs, []⟩ = (.ok stats, n, w) ∧ Mirrors tree root w.fs := by
  have hvalid := buildTree_valid hbuild
  have hserved' : IndexServed (TreeHash.postcard hash).hash zstd compress qt index replies :=
    hserved
  refine good_network_delivers hbuild hcut hafford
    (fun piece hp hlen _ replies hanswer => hanswer.supplied hqs hp hlen)
    (fun piece hp hlen _ => ?_) (fun a b ha hb hhash => ?_)
    (IndexServed.acceptable hqt hserved' hundone hmax hbits hvalid)
    hforge hstore hrun hio hroot hdir hempty
  · obtain ⟨reply, hreply, -⟩ := hholder.answers hqs hp hlen
    exact ⟨[.ok reply], holder, reply, hholder, hreply, by simp⟩
  · have hstored := hholder.pieces a ha
    rw [hhash, hholder.pieces b hb] at hstored
    exact (Option.some.inj hstored).symm

section Home

attribute [local instance] Format.indexWire Format.descriptorWire

def homeStart : TreeServer :=
  { emptyServer 1000 with
    store := ChunkMap.put (fun _ => none) (shortHash [97, 98, 99], [97, 98, 99]) }

def homeServer (index : TreeIndex) : TreeServer :=
  Runs.run (TreeServer.apply homeTree.hash) [.register index fun _ => false] homeStart

def treesAt : ServePrefix := ⟨"t", ⟨by decide, by decide, by decide⟩, by decide⟩
def chunksAt : ServePrefix := ⟨"s", ⟨by decide, by decide, by decide⟩, by decide⟩
def treesQuery : QueryPrefix := ⟨"t", by decide⟩
def chunksQuery : QueryPrefix := ⟨"s", by decide⟩

theorem homeStart_store {h : Hash} {bytes : Bytes} (hb : homeStart.store h = some bytes) :
    h = shortHash [97, 98, 99] ∧ bytes = [97, 98, 99] := by
  by_cases hh : h = shortHash [97, 98, 99]
  · subst hh
    exact ⟨rfl, (Option.some.inj hb).symm⟩
  · simp [homeStart, emptyServer, ChunkMap.put, Function.update_of_ne hh] at hb

variable {index : TreeIndex} {store : ChunkMap}

theorem homeServer_eq (hid : index.id.str = "t") (hlen : (encode index).length ≤ 1000) :
    homeServer index = { homeStart with index := AList.insert "t" ⟨index, none⟩ ∅ } := by
  change ((homeStart.register homeTree.hash (fun _ => false) index).2) = _
  rw [TreeServer.register, if_neg (show ¬(encode index).length > homeStart.indexShardThreshold from
    Nat.not_lt.mpr hlen), hid]
  rfl

theorem homeSent_facts (h : homeSent = .ok (index, store)) :
    index.id.str = "t" ∧ (encode index).length ≤ 1000 ∧ affordable homeSync index = .ok () := by
  have hall : (homeSent.toOption.all fun r =>
      decide (r.1.id.str = "t") && decide ((encode r.1).length ≤ 1000) &&
      (affordable homeSync r.1).toBool) = true := by decide +kernel
  rw [h] at hall
  simp only [Except.toOption, Option.all_some, Bool.and_eq_true, decide_eq_true_eq] at hall
  refine ⟨hall.1.1, hall.1.2, ?_⟩
  cases ha : affordable homeSync index with
  | ok u => rfl
  | error e =>
    rw [ha] at hall
    cases hall.2

theorem homeHolder (hid : index.id.str = "t") (hlen : (encode index).length ≤ 1000) :
    Holder homeTree.hash none none chunksQuery shortCut transferCdc homeSource
      (homeServer index) := by
  rw [homeServer_eq hid hlen]
  refine ⟨⟨chunksAt, rfl, ?_⟩, trivial, fun piece hp => ?_⟩
  · exact List.Forall₂.cons (.inl rfl) .nil
  · change homeStart.store (homeTree.hash piece) = some piece
    rw [homeSource_piece hp]
    decide +kernel

theorem homeServed (hid : index.id.str = "t") (hlen : (encode index).length ≤ 1000) :
    ∃ replies, (homeFetch index).index = some replies ∧
      IndexServed homeTree.hash none none treesQuery index replies := by
  have hserver := homeServer_eq hid hlen
  have hreg : (homeServer index).index.lookup index.id.str = some ⟨index, none⟩ := by
    rw [hserver, hid]
    exact AList.lookup_insert _
  have habc : homeTree.hash [97, 98, 99] = shortHash [97, 98, 99] := by decide +kernel
  refine ⟨_, rfl, homeServer index, ⟨"t/t", encIndex, encode index⟩,
    noShards, ⟨⟨treesAt, by rw [hserver]; rfl, ?_⟩,
    ⟨homeStart, _, rfl, fun h bytes hb => ?_, rfl⟩, ⟨index, none⟩, hreg, rfl⟩, by simp, ?_, ?_, ?_⟩
  · exact List.Forall₂.cons (.inl rfl) .nil
  · obtain ⟨rfl, rfl⟩ := homeStart_store hb
    exact habc
  · have htail : parseTier2Tail "t" (treeKey "t" "t") = some ["t"] := by decide
    rw [hid] at hreg ⊢
    have hunder : (homeServer index).treePrefix = "t" := by
      rw [hserver]
      rfl
    rw [TreeServer.serveIndexQuery, hunder, show treesQuery.str = "t" from rfl, htail]
    simp only [TreeServer.indexReply, hreg, hunder, Option.map_some]
    rfl
  · intro reg desc hr hdesc
    cases hreg.symm.trans hr
    cases hdesc
  · rintro piece - bytes (⟨k, rs, sample, hrs | hrs, -⟩ | ⟨h, hb⟩) hhash
    · cases hrs
    · cases hrs
    · rw [hserver] at hb
      obtain ⟨-, rfl⟩ := homeStart_store hb
      exact (homeTree_abc hhash.symm).symm

/-- The owner alone answers, behind a stranger's index. -/
theorem download_tree_delivers_home :
    ∃ index store taken s prog stats n w, homeSent = .ok (index, store) ∧
    Runs.Path (WillingStep homeTree.hash none
      (AnsweredBy none (Holder homeTree.hash none none chunksQuery shortCut transferCdc homeSource)
        chunksQuery)
      homeSync.toFetchConfig index.neededChunks.length)
        (index.fetching homeSync.toFetchConfig fun _ => none) taken s ∧
    runDownloadTree (TreeHash.postcard homeTree.hash) none homeSync ChunkMap.asStore
    ⟨index.id.str, some index.rootHash⟩
      ["dst"] (fun _ => none) ⟨(homeFetch index).index,
        .ok (ChunkMap.hasMany (fun _ => none) (index.neededChunkRefs.map ChunkRef.hash)),
        taken.map Prod.snd⟩ =
          some prog ∧
    prog (failing []) 0 ⟨emptyDst, []⟩ = (.ok stats, n, w) ∧ Mirrors homeSource ["dst"] w.fs := by
  obtain ⟨⟨index, store⟩, hsent⟩ : ∃ r, homeSent = .ok r := by
    cases h : homeSent with
    | ok r => exact ⟨r, rfl⟩
    | error e =>
      have hok := homeSent_ok
      rw [h] at hok
      cases hok
  obtain ⟨hid, hlen, hafford⟩ := homeSent_facts hsent
  obtain ⟨replies, hreplies, hserved⟩ := homeServed hid hlen
  have hundone : Compress.Undone none none := fun c hc => by cases hc
  have hroot : emptyDst.canonicalize ["dst"] = some ["dst"] := by decide +kernel
  have hio : ∀ n, (failing [] n).ok = true := by simp [failing]
  have hstore : ChunkMap.Addressed homeTree.hash fun _ => none := fun h bytes hb => by cases hb
  have hforge : Unforged homeTree.hash none homeSync.toTreeConfig
      index.id.str index.entries replies :=
    homeFetch_unforged hreplies
  have deliver := fun taken s (hrun : Runs.Path _ _ taken s) =>
    download_tree_delivers hsent homeSource_cuts hundone
    hafford hlen (by decide) treesAt.shaped chunksAt.shaped hserved hforge
      (homeHolder hid hlen) hstore hrun hio hroot
    (by decide +kernel) emptyDst_empty
  obtain ⟨taken, s, stats, hpath, hdone⟩ := (deliver [] _ .nil).1
  obtain ⟨prog, stats', n, w, -, hprog, hrun, hmirrors⟩ := (deliver taken s hpath).2 _ hdone
    fun _ _ b piece _ hp hhash => by
      rw [homeSource_piece hp] at hhash ⊢
      exact homeTree_abc hhash
  exact ⟨index, store, taken, s, prog, stats', n, w, hsent, hpath, hreplies ▸ hprog, hrun, hmirrors⟩

end Home

end Zblob

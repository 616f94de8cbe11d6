import Mathlib.Order.Interval.Finset.Nat
import Zblob.Seed

/-!
What a seeding has done when it returns: which chunks it has added and what it counts, and that
neither depends on an iteration order.
-/

set_option autoImplicit false

namespace Zblob

theorem ChunkMap.putMany_other {m : ChunkMap} {ps : List (Hash × Bytes)} {h : Hash}
    (hh : h ∉ ps.map Prod.fst) : m.putMany ps h = m h := by
  induction ps generalizing m with
  | nil => rfl
  | cons p ps ih =>
    rw [List.map_cons, List.mem_cons, not_or] at hh
    exact (ih hh.2).trans (Function.update_of_ne hh.1 _ _)

theorem ChunkMap.putMany_mem {m : ChunkMap} {ps : List (Hash × Bytes)}
    (hnd : (ps.map Prod.fst).Nodup)
    {p : Hash × Bytes} (hp : p ∈ ps) : m.putMany ps p.1 = some p.2 := by
  induction ps generalizing m with
  | nil => cases hp
  | cons q ps ih =>
    rw [List.map_cons, List.nodup_cons] at hnd
    rcases List.mem_cons.mp hp with rfl | hp
    · exact (ChunkMap.putMany_other hnd.1).trans (Function.update_self _ _ _)
    · exact ih hnd.2 hp

def TreeIndex.absentChunks (index : TreeIndex) (m : ChunkMap) : Finset Hash :=
  (index.neededChunks.filter fun h => !m.has h).toFinset

theorem TreeIndex.mem_absentChunks {index : TreeIndex} {m : ChunkMap} {h : Hash} :
    h ∈ index.absentChunks m ↔ h ∈ index.neededChunks ∧ m h = none := by
  simp [TreeIndex.absentChunks, ChunkMap.has]

/-- The contents after a set of wanted chunks has met the pieces: nothing else has changed, and
each wanted chunk among them is there, as one of the pieces with its hash. -/
structure Seeded (hash : Bytes → Hash) (want : Finset Hash) (pieces : List Bytes)
    (m m' : ChunkMap) : Prop where
  kept : ∀ h ∉ want ∩ Offers.keys hash pieces, m' h = m h
  added : ∀ h ∈ want ∩ Offers.keys hash pieces, ∃ p ∈ pieces, hash p = h ∧ m' h = some p

namespace Seeded

variable {hash : Bytes → Hash} {want : Finset Hash} {pieces more : List Bytes} {m m' m'' : ChunkMap}

theorem trans (h : Seeded hash want pieces m m')
    (h' : Seeded hash (want \ Offers.keys hash pieces) more m' m'') :
    Seeded hash want (pieces ++ more) m m'' := by
  refine ⟨fun x hx => ?_, fun x hx => ?_⟩
  · rw [Offers.keys_append, Finset.mem_inter, Finset.mem_union] at hx
    have hkept : m'' x = m' x := h'.kept x fun hc => by
      rw [Finset.mem_inter, Finset.mem_sdiff] at hc
      exact hx ⟨hc.1.1, .inr hc.2⟩
    exact hkept.trans (h.kept x fun hc =>
      hx ⟨(Finset.mem_inter.mp hc).1, .inl (Finset.mem_inter.mp hc).2⟩)
  · rw [Offers.keys_append, Finset.mem_inter, Finset.mem_union] at hx
    by_cases hfirst : x ∈ Offers.keys hash pieces
    · obtain ⟨p, hp, hpx, hm⟩ := h.added x (Finset.mem_inter.mpr ⟨hx.1, hfirst⟩)
      refine ⟨p, List.mem_append_left _ hp, hpx, (h'.kept x fun hc => ?_).trans hm⟩
      exact (Finset.mem_sdiff.mp (Finset.mem_inter.mp hc).1).2 hfirst
    · have hlater : x ∈ Offers.keys hash more := hx.2.resolve_left hfirst
      obtain ⟨p, hp, hpx, hm⟩ :=
        h'.added x (Finset.mem_inter.mpr ⟨Finset.mem_sdiff.mpr ⟨hx.1, hfirst⟩, hlater⟩)
      exact ⟨p, List.mem_append_right _ hp, hpx, hm⟩

theorem congr (h : Seeded hash want pieces m m') (hmem : ∀ p, p ∈ pieces ↔ p ∈ more) :
    Seeded hash want more m m' := by
  have hkeys : Offers.keys hash pieces = Offers.keys hash more := Offers.keys_congr hmem
  refine ⟨fun x hx => h.kept x (hkeys ▸ hx), fun x hx => ?_⟩
  obtain ⟨p, hp, hpx, hm⟩ := h.added x (hkeys ▸ hx)
  exact ⟨p, (hmem p).mp hp, hpx, hm⟩

theorem unique (hfree : ∀ p ∈ pieces, ∀ q ∈ pieces, hash p = hash q → p = q)
    (h : Seeded hash want pieces m m') (h' : Seeded hash want pieces m m'') : m' = m'' := by
  funext x
  by_cases hx : x ∈ want ∩ Offers.keys hash pieces
  · obtain ⟨p, hp, hpx, hm⟩ := h.added x hx
    obtain ⟨q, hq, hqx, hm'⟩ := h'.added x hx
    rw [hm, hm', hfree p hp q hq (hpx.trans hqx.symm)]
  · rw [h.kept x hx, h'.kept x hx]

theorem absent {index : TreeIndex} (h : Seeded hash (index.absentChunks m) pieces m m') :
    index.absentChunks m' = index.absentChunks m \ Offers.keys hash pieces := by
  ext x
  rw [Finset.mem_sdiff, TreeIndex.mem_absentChunks]
  by_cases hx : x ∈ index.absentChunks m ∩ Offers.keys hash pieces
  · obtain ⟨p, -, -, hm⟩ := h.added x hx
    simp [hm, (Finset.mem_inter.mp hx).2]
  · rw [h.kept x hx, ← TreeIndex.mem_absentChunks]
    exact ⟨fun ha => ⟨ha, fun hk => hx (Finset.mem_inter.mpr ⟨ha, hk⟩)⟩, And.left⟩

theorem has (h : Seeded hash want pieces m m') {x : Hash} (hx : x ∈ want)
    {p : Bytes} (hp : p ∈ pieces)
    (hpx : hash p = x) : m'.has x = true := by
  obtain ⟨q, -, -, hm⟩ := h.added x (Finset.mem_inter.mpr ⟨hx, Offers.mem_keys.mpr ⟨p, hp, hpx⟩⟩)
  simp [ChunkMap.has, hm]

end Seeded

section Run

variable {σ : Type} {hash : Bytes → Hash} {cut : CdcParams → Bytes → List Bytes}
  {torn : CdcParams → Bytes → List (Option Bytes)} {ops : MapStore σ}

theorem foldlM_putSeed {count : SeedStats → SeedStats} {pieces : List Bytes} {s t : σ × SeedStats}
    (habs : ∀ p ∈ pieces, ops.view s.1 (hash p) = none) (hnd : (pieces.map hash).Nodup)
    (h : pieces.foldlM (putSeed hash ops count) s = .ok t) :
    ops.view t.1 = (ops.view s.1).putMany (pieces.map fun p => (hash p, p)) ∧
      t.2 = count^[pieces.length] s.2 := by
  induction pieces generalizing s with
  | nil =>
    cases h
    exact ⟨rfl, rfl⟩
  | cons p rest ih =>
    rw [List.foldlM_cons] at h
    rw [List.map_cons, List.nodup_cons] at hnd
    cases hput : ops.put s.1 (hash p) p with
    | error e =>
      rw [putSeed, hput] at h
      cases h
    | ok store =>
      rw [putSeed, hput] at h
      have hview : ops.view store = (ops.view s.1).put (hash p, p) :=
        ops.put_ok hput (habs p (by simp))
      have hrest : ∀ q ∈ rest, ops.view store (hash q) = none := by
        intro q hq
        have hne : hash q ≠ hash p := fun he => hnd.1 (he ▸ List.mem_map_of_mem hq)
        rw [hview]
        exact (Function.update_of_ne hne _ _).trans (habs q (List.mem_cons_of_mem _ hq))
      obtain ⟨hv, hc⟩ := ih (s := (store, count s.2)) hrest hnd.2 h
      exact ⟨by rw [hv, hview]; rfl, hc⟩

theorem foldlM_putMissing_ok {count : SeedStats → SeedStats} {pieces : List Bytes} {s t : Seeding σ}
    (habs : ∀ h ∈ s.1, ops.view s.2.1 h = none)
    (h : pieces.foldlM (putMissing hash ops count) s = .ok t) :
    t.1 = s.1 \ Offers.keys hash pieces ∧ Seeded hash s.1 pieces (ops.view s.2.1) (ops.view t.2.1) ∧
      t.2.2 = count^[(s.1 ∩ Offers.keys hash pieces).card] s.2.2 := by
  obtain ⟨missing, s⟩ := s
  unfold putMissing at h
  rw [Offers.foldlM_offer] at h
  cases hfold : (Offers.taken hash missing pieces).foldlM (putSeed hash ops count) s with
  | error e =>
    rw [hfold] at h
    cases h
  | ok s' =>
    rw [hfold] at h
    cases h
    have hnd : ((Offers.taken hash missing pieces).map hash).Nodup := Offers.nodup_taken pieces
    obtain ⟨hview, hcount⟩ := foldlM_putSeed (fun p hp => habs _ (Offers.mem_taken hp).2) hnd hfold
    have hfst : ((Offers.taken hash missing pieces).map fun p => (hash p, p)).map Prod.fst =
        (Offers.taken hash missing pieces).map hash := by
      rw [List.map_map]
      rfl
    refine ⟨rfl, ⟨fun x hx => ?_, fun x hx => ?_⟩, by rw [hcount, Offers.length_taken]⟩
    · rw [← Offers.keys_taken, Offers.keys, List.mem_toFinset, ← hfst] at hx
      exact (congrFun hview x).trans (ChunkMap.putMany_other hx)
    · rw [← Offers.keys_taken] at hx
      obtain ⟨p, hp, hpx⟩ := Offers.mem_keys.mp hx
      refine ⟨p, (Offers.mem_taken hp).1, hpx, ?_⟩
      rw [← hpx]
      exact (congrFun hview _).trans
        (ChunkMap.putMany_mem (p := (hash p, p)) (hfst ▸ hnd) (List.mem_map_of_mem hp))

theorem countZero_iterate (n : Nat) (s : SeedStats) :
    SeedStats.countZero^[n] s = { s with fromZero := s.fromZero + UInt32.ofNat n } := by
  induction n with
  | zero => simp
  | succ n ih =>
    rw [Function.iterate_succ_apply', ih, SeedStats.countZero, UInt32.ofNat_add, UInt32.add_assoc];
      rfl

theorem countLocal_iterate (n : Nat) (s : SeedStats) :
    SeedStats.countLocal^[n] s = { s with fromLocal := s.fromLocal + UInt32.ofNat n } := by
  induction n with
  | zero => simp
  | succ n ih =>
    rw [Function.iterate_succ_apply', ih, SeedStats.countLocal, UInt32.ofNat_add, UInt32.add_assoc];
      rfl

theorem missing_eq (m : ChunkMap) (needed : List Hash) :
    (needed.zip (m.hasMany needed)).filterMap (fun p => if p.2 then none else some p.1) =
      needed.filter fun h => !m.has h := by
  induction needed with
  | nil => rfl
  | cons h rest ih =>
    unfold ChunkMap.hasMany at ih ⊢
    cases hh : m.has h with
    | true => simp [hh, ih]
    | false => simp [hh, ih]

section Store

variable (hash cut torn)

def TreeIndex.zeroChunks (index : TreeIndex) : Finset Hash :=
  index.chunkLens.image fun len => hash (zeros len)

def localChunks (cdc : CdcParams) (roots : List SeedNode) : Finset Hash :=
  Offers.keys hash (roots.flatMap (piecesOf cut torn cdc))

def foundLocally (index : TreeIndex) (roots : List SeedNode) (m : ChunkMap) : Finset Hash :=
  (index.absentChunks m \ index.zeroChunks hash) ∩ localChunks hash cut torn index.cdc roots

def foundNowhere (index : TreeIndex) (roots : List SeedNode) (m : ChunkMap) : Finset Hash :=
  (index.absentChunks m \ index.zeroChunks hash) \ localChunks hash cut torn index.cdc roots

def seedOffers (index : TreeIndex) (lens : List UInt32) (roots : List SeedNode) : List Bytes :=
  lens.map zeros ++ roots.flatMap (piecesOf cut torn index.cdc)

end Store

def Iterates (lens : List UInt32) (set : Finset UInt32) : Prop := lens.Nodup ∧ lens.toFinset = set

theorem Iterates.keys_zeros {index : TreeIndex} {lens : List UInt32}
    (h : Iterates lens index.chunkLens) :
    Offers.keys hash (lens.map zeros) = index.zeroChunks hash := by
  ext x
  simp [Offers.mem_keys, TreeIndex.zeroChunks, ← h.2]

/-- The outcome of a seeding in terms of the index, the initial contents and the offers. -/
theorem seedStore_ok {index : TreeIndex} {lens : List UInt32}
    (hlens : Iterates lens index.chunkLens)
    {roots : List SeedNode} {store store' : σ} {stats : SeedStats}
    (h : seedStore hash cut torn ops index lens roots store = .ok (stats, store')) :
    Seeded hash (index.absentChunks (ops.view store)) (seedOffers cut torn index lens roots)
        (ops.view store) (ops.view store') ∧
      stats =
        ⟨UInt32.ofNat (foundLocally hash cut torn index roots (ops.view store)).card,
          UInt32.ofNat (index.absentChunks (ops.view store) ∩ index.zeroChunks hash).card,
          UInt32.ofNat (foundNowhere hash cut torn index roots (ops.view store)).card⟩ := by
  simp only [seedStore, bind, Except.bind] at h
  cases hmany : ops.hasMany store index.neededChunks with
  | error e =>
    rw [hmany] at h
    cases h
  | ok answer =>
    obtain ⟨present, store₁⟩ := answer
    obtain ⟨rfl, hview₁⟩ := ops.hasMany_ok hmany
    simp only [hmany, missing_eq, seedZeros_eq, seedRoots_eq] at h
    rw [show (index.neededChunks.filter fun h => !(ops.view store).has h).toFinset =
      index.absentChunks (ops.view store) from rfl] at h
    cases hzero : (lens.map zeros).foldlM (putMissing hash ops .countZero)
        (index.absentChunks (ops.view store), store₁, ⟨0, 0, 0⟩) with
    | error e =>
      simp only [hzero] at h
      cases h
    | ok s =>
      simp only [hzero] at h
      cases hlocal : (roots.flatMap (piecesOf cut torn index.cdc)).foldlM
          (putMissing hash ops .countLocal) s with
      | error e =>
        simp only [hlocal] at h
        cases h
      | ok t =>
        simp only [hlocal] at h
        cases h
        have habs : ∀ x ∈ index.absentChunks (ops.view store), ops.view store₁ x = none := by
          intro x hx
          rw [hview₁]
          exact (TreeIndex.mem_absentChunks.mp hx).2
        obtain ⟨hleft, hzeros, hcount⟩ := foldlM_putMissing_ok habs hzero
        rw [hlens.keys_zeros] at hleft hcount
        have habs' : ∀ x ∈ s.1, ops.view s.2.1 x = none := by
          intro x hx
          rw [hleft, ← hlens.keys_zeros, Finset.mem_sdiff] at hx
          exact (hzeros.kept x fun hc => hx.2 (Finset.mem_inter.mp hc).2).trans (habs x hx.1)
        obtain ⟨hleft', hpieces, hcount'⟩ := foldlM_putMissing_ok habs' hlocal
        refine ⟨?_, ?_⟩
        · rw [hleft, ← hlens.keys_zeros] at hpieces
          have hall := hzeros.trans hpieces
          simp only [hview₁] at hall
          exact hall
        · rw [hleft', hcount', hcount, countZero_iterate, countLocal_iterate, hleft]
          simp [localChunks, foundLocally, foundNowhere]

end Run

/-- Listings that yield the same entries, in whatever order at each depth. -/
inductive Relisted : List SeedNode → List SeedNode → Prop
  | nil : Relisted [] []
  | cons (node : SeedNode) {as bs : List SeedNode} : Relisted as bs →
      Relisted (node :: as) (node :: bs)
  | dir (readable : Bool) {items items' as bs : List SeedNode} : Relisted items items' →
      Relisted as bs → Relisted (.dir readable items :: as) (.dir readable items' :: bs)
  | swap (a b : SeedNode) (rest : List SeedNode) : Relisted (a :: b :: rest) (b :: a :: rest)
  | trans {as bs cs : List SeedNode} : Relisted as bs → Relisted bs cs → Relisted as cs

section Exact

variable {σ : Type} (th : TreeHash) (cut : CdcParams → Bytes → List Bytes)
  (torn : CdcParams → Bytes → List (Option Bytes)) (ops : MapStore σ)

structure SeedExact (index : TreeIndex) (roots : List SeedNode) (m m' : ChunkMap)
    (stats : SeedStats) : Prop where
  only : ∀ h, m' h = m h ∨
    (h ∈ index.neededChunks ∧ m h = none ∧ ∃ bytes, m' h = some bytes ∧ th.hash bytes = h)
  total : stats.fromLocal.toNat + stats.fromZero.toNat + stats.stillMissing.toNat =
    (index.absentChunks m).card
  missing : stats.stillMissing.toNat = (index.absentChunks m').card
  zero : ∀ h ∈ index.absentChunks m, ∀ len ∈ index.chunkLens, th.hash (zeros len) = h →
    m'.has h = true
  whole : ∀ h ∈ index.absentChunks m, ∀ f ∈ roots.flatMap wholeFilesOf,
    (∃ p ∈ cut index.cdc f.data, th.hash p = h) → m'.has h = true

/-- Any other order of the lengths and of the directory entries gives the same. -/
def OrderFree (index : TreeIndex) (roots : List SeedNode) (store store' : σ)
    (stats : SeedStats) : Prop :=
  ∀ lens' roots' stats'' store'', Iterates lens' index.chunkLens → Relisted roots roots' →
    seedStore th.hash cut torn ops index lens' roots' store = .ok (stats'', store'') →
    stats'' = stats ∧ ops.view store'' = ops.view store'

variable {cut torn}

theorem piecesIn_cons (cdc : CdcParams) (node : SeedNode) (rest : List SeedNode) :
    piecesIn cut torn cdc (node :: rest) =
      piecesIn cut torn cdc [node] ++ piecesIn cut torn cdc rest := by
  cases node <;> simp [piecesIn]

theorem Relisted.mem_pieces {as bs : List SeedNode} (h : Relisted as bs)
    (cdc : CdcParams) (p : Bytes) :
    (p ∈ piecesIn cut torn cdc as ↔ p ∈ piecesIn cut torn cdc bs) ∧
      (p ∈ as.flatMap (piecesOf cut torn cdc) ↔ p ∈ bs.flatMap (piecesOf cut torn cdc)) := by
  induction h with
  | nil => exact ⟨Iff.rfl, Iff.rfl⟩
  | @cons node as bs _ ih =>
    rw [piecesIn_cons cdc node as, piecesIn_cons cdc node bs, List.flatMap_cons, List.flatMap_cons]
    simp only [List.mem_append, ih.1, ih.2, and_self]
  | dir readable _ _ ihitems ih =>
    rw [List.flatMap_cons, List.flatMap_cons]
    unfold piecesIn
    simp only [List.mem_append, ih.1, ih.2]
    cases readable with
    | false => simp [piecesOf]
    | true => simp only [piecesOf, ihitems.1, and_self]
  | swap a b rest =>
    rw [piecesIn_cons cdc a, piecesIn_cons cdc b, piecesIn_cons cdc b (a :: rest),
      piecesIn_cons cdc a rest]
    simp only [List.flatMap_cons, List.mem_append]
    exact ⟨or_left_comm, or_left_comm⟩
  | trans _ _ ih ih' => exact ⟨ih.1.trans ih'.1, ih.2.trans ih'.2⟩

theorem card_chunkLens_lt {index : TreeIndex} (hvalid : index.validate th = .ok ()) :
    index.chunkLens.card < 4294967296 := by
  have ok := TreeIndex.validate_ok hvalid
  have hpos : ∀ len ∈ index.chunkLens, len ≠ 0 := by
    intro len hlen
    obtain ⟨c, hc, rfl⟩ := List.mem_map.mp (List.mem_toFinset.mp hlen)
    obtain ⟨e, he, hce⟩ := List.mem_flatMap.mp hc
    cases e with
    | file path mode mtime size chunks =>
      exact ((ok.sizes path mode mtime size chunks he).2 c hce).1
    | dir path mode mtime => cases hce
    | symlink path target => cases hce
    | hardlink path target => cases hce
  have hmaps : ∀ len ∈ index.chunkLens, len.toNat ∈ Finset.Ioo 0 4294967296 := by
    intro len hlen
    have hne : len.toNat ≠ 0 := fun h => hpos len hlen (UInt32.toNat_inj.mp h)
    exact Finset.mem_Ioo.mpr ⟨Nat.pos_of_ne_zero hne, len.toNat_lt⟩
  have hcard :=
    Finset.card_le_card_of_injOn UInt32.toNat hmaps fun a _ b _ h => UInt32.toNat_inj.mp h
  rw [Nat.card_Ioo] at hcard
  omega

section Outcome

variable {index : TreeIndex} {lens : List UInt32} {roots : List SeedNode}
  {store store' : σ} {stats : SeedStats}

/-- Everything but the counters is exact whatever the sizes are, and the counters wrap. -/
theorem seedExact_iff (hvalid : index.validate th = .ok ()) (hlens : Iterates lens index.chunkLens)
    (h : seedStore th.hash cut torn ops index lens roots store = .ok (stats, store')) :
    SeedExact th cut index roots (ops.view store) (ops.view store') stats ↔
      (foundLocally th.hash cut torn index roots (ops.view store)).card < 4294967296 ∧
        (foundNowhere th.hash cut torn index roots (ops.view store)).card < 4294967296 := by
  obtain ⟨hseeded, rfl⟩ := seedStore_ok hlens h
  have hzero : (index.absentChunks (ops.view store) ∩ index.zeroChunks th.hash).card < 4294967296 :=
    (Finset.card_le_card Finset.inter_subset_right).trans_lt
      (Finset.card_image_le.trans_lt (card_chunkLens_lt th hvalid))
  have hsplit : (index.absentChunks (ops.view store)).card =
      (foundLocally th.hash cut torn index roots (ops.view store)).card +
        (index.absentChunks (ops.view store) ∩ index.zeroChunks th.hash).card +
        (foundNowhere th.hash cut torn index roots (ops.view store)).card := by
    have hfirst := Finset.card_inter_add_card_sdiff (index.absentChunks (ops.view store))
      (index.zeroChunks th.hash)
    have hthen := Finset.card_inter_add_card_sdiff
      (index.absentChunks (ops.view store) \ index.zeroChunks th.hash)
        (localChunks th.hash cut torn index.cdc roots)
    unfold foundLocally foundNowhere
    omega
  have hleft : index.absentChunks (ops.view store') =
      foundNowhere th.hash cut torn index roots (ops.view store) := by
    rw [hseeded.absent, seedOffers, Offers.keys_append, hlens.keys_zeros,
      foundNowhere, sdiff_sdiff_left]
    rfl
  constructor
  · intro hexact
    have htotal := hexact.total
    simp only [UInt32.toNat_ofNat'] at htotal
    omega
  · rintro ⟨hlocal, hmissing⟩
    refine ⟨fun x => ?_, ?_, ?_, fun x hx len hlen hhash => ?_, fun x hx f hf hcut => ?_⟩
    · by_cases hx : x ∈ index.absentChunks (ops.view store) ∩
          Offers.keys th.hash (seedOffers cut torn index lens roots)
      · obtain ⟨p, -, hpx, hm⟩ := hseeded.added x hx
        obtain ⟨hneeded, hnone⟩ := TreeIndex.mem_absentChunks.mp (Finset.mem_inter.mp hx).1
        exact .inr ⟨hneeded, hnone, p, hm, hpx⟩
      · exact .inl (hseeded.kept x hx)
    · simp only [UInt32.toNat_ofNat']
      omega
    · rw [hleft, UInt32.toNat_ofNat']
      omega
    · rw [← hlens.2, List.mem_toFinset] at hlen
      exact hseeded.has hx (List.mem_append_left _ (List.mem_map_of_mem hlen)) hhash
    · obtain ⟨p, hp, hpx⟩ := hcut
      obtain ⟨root, hroot, hfroot⟩ := List.mem_flatMap.mp hf
      refine hseeded.has hx (List.mem_append_right _ ?_) hpx
      exact List.mem_flatMap.mpr ⟨root, hroot, whole_piecesOf hfroot p hp⟩

theorem orderFree (hlens : Iterates lens index.chunkLens)
    (hfree : ∀ p ∈ seedOffers cut torn index lens roots, ∀ q ∈ seedOffers cut torn index lens roots,
      th.hash p = th.hash q → p = q)
    (h : seedStore th.hash cut torn ops index lens roots store = .ok (stats, store')) :
    OrderFree th cut torn ops index roots store store' stats := by
  intro lens' roots' stats'' store'' hlens' hroots h'
  obtain ⟨hseeded, rfl⟩ := seedStore_ok hlens h
  obtain ⟨hseeded', rfl⟩ := seedStore_ok hlens' h'
  have hlocal : localChunks th.hash cut torn index.cdc roots' =
      localChunks th.hash cut torn index.cdc roots :=
    Offers.keys_congr fun p => (hroots.mem_pieces index.cdc p).2.symm
  refine ⟨by rw [foundLocally, foundNowhere, hlocal, foundLocally, foundNowhere], ?_⟩
  refine ((hseeded.unique hfree) (hseeded'.congr fun p => ?_)).symm
  have hsame : ∀ len, len ∈ lens' ↔ len ∈ lens := by
    intro len
    rw [← List.mem_toFinset, ← List.mem_toFinset, hlens.2, hlens'.2]
  simp only [seedOffers, List.mem_append, List.mem_map, hsame, (hroots.mem_pieces index.cdc p).2]

end Outcome

/-- A seeding is exact, whatever the index, the store, the trees and the iteration orders, as long
as neither the missing chunks that only the trees have nor those found nowhere are more than a `u32`
can count. -/
theorem seeding_exact_iff (index : TreeIndex) (lens : List UInt32)
    (roots : List SeedNode) (store store' : σ)
    (stats : SeedStats) (hvalid : index.validate th = .ok ())
    (hlens : Iterates lens index.chunkLens)
    (hfree : ∀ p ∈ seedOffers cut torn index lens roots, ∀ q ∈ seedOffers cut torn index lens roots,
      th.hash p = th.hash q → p = q)
    (h : seedStore th.hash cut torn ops index lens roots store = .ok (stats, store')) :
    (SeedExact th cut index roots (ops.view store) (ops.view store') stats ∧
        OrderFree th cut torn ops index roots store store' stats) ↔
      (foundLocally th.hash cut torn index roots (ops.view store)).card < 4294967296 ∧
        (foundNowhere th.hash cut torn index roots (ops.view store)).card < 4294967296 := by
  rw [← seedExact_iff th ops hvalid hlens h]
  exact and_iff_left (orderFree th ops hlens hfree h)

end Exact

def memoryStore : MapStore ChunkMap where
  view m := m
  hasMany m hs := .ok (m.hasMany hs, m)
  put m h bytes := .ok (m.put (h, bytes))
  hasMany_ok h := by cases h; exact ⟨rfl, rfl⟩
  put_ok h _ := by cases h; rfl

def cutShort (_ : CdcParams) (data : Bytes) : List Bytes := if data = [] then [] else [data]
def tornAtOnce (_ : CdcParams) (_ : Bytes) : List (Option Bytes) := [none]

def mixedIndex : TreeIndex :=
  sampleIndex [.file "f" 0o644 0 6 [⟨shortHash [97, 98, 99], 3⟩, ⟨shortHash [0, 0, 0], 3⟩]]
    ⟨[0xa2, 0xcd, 0xc0, 0x98, 0x8e, 0x5c, 0x47, 0xb1, 0xe7, 0xca,
      0xc9, 0xf7, 0x05, 0x5f, 0x24, 0x7a,
      0x73, 0xd0, 0xed, 0xa3, 0x1a, 0x2e, 0xc3, 0x2e, 0x49, 0xdf,
      0xa9, 0xfe, 0x3e, 0xbe, 0xeb, 0xb3], by decide⟩

def mixedTree : TreeHash :=
  knownTree
    [0x03, 0x06, 0x62, 0x6c, 0x61, 0x6b, 0x65, 0x33, 0x01, 0x01, 0x01, 0x66, 0xa4, 0x03, 0x06, 0x02,
      0x20, 0x64, 0x37, 0xb3, 0xac, 0x38, 0x46, 0x51, 0x33, 0xff,
      0xb6, 0x3b, 0x75, 0x27, 0x3a, 0x8d, 0xb5,
      0x48, 0xc5, 0x58, 0x46, 0x5d, 0x79, 0xdb, 0x03, 0xfd, 0x35,
      0x9c, 0x6c, 0xd5, 0xbd, 0x9d, 0x85, 0x03,
      0x20, 0x91, 0x52, 0x5f, 0xf0, 0x0a, 0x37, 0x55, 0xa8, 0xdf,
      0x93, 0xc6, 0x26, 0xb5, 0x9f, 0x6e, 0x36,
      0xcf, 0x02, 0x1d, 0x85, 0xeb, 0xcc, 0xec, 0xde, 0xdc, 0x38,
      0xf3, 0xf1, 0x89, 0x0a, 0x15, 0xfc, 0x03]
    mixedIndex.rootHash

def abcSeeds : List SeedNode :=
  [.dir true [.dir false [], .denied, .dir true [.special, .file ⟨true, [97, 98, 99], true⟩],
    .file ⟨true, [120], false⟩]]

theorem seeding_exact_small : ∃ store',
    seedStore mixedTree.hash cutShort tornAtOnce memoryStore mixedIndex
    [3] abcSeeds (fun _ => none) =
        .ok (⟨1, 1, 0⟩, store') ∧
      ((SeedExact mixedTree cutShort mixedIndex abcSeeds (fun _ => none) store' ⟨1, 1, 0⟩ ∧
          OrderFree mixedTree cutShort tornAtOnce memoryStore mixedIndex abcSeeds
          (fun _ => none) store' ⟨1, 1, 0⟩) ↔
        (foundLocally mixedTree.hash cutShort tornAtOnce mixedIndex abcSeeds fun _ => none).card <
          4294967296 ∧
          (foundNowhere mixedTree.hash cutShort tornAtOnce mixedIndex abcSeeds fun _ => none).card <
          4294967296) := by
  have hstats : (seedStore mixedTree.hash cutShort tornAtOnce memoryStore mixedIndex [3] abcSeeds
      (fun _ => none)).map Prod.fst = .ok ⟨1, 1, 0⟩ := by decide +kernel
  cases hrun : seedStore mixedTree.hash cutShort tornAtOnce memoryStore mixedIndex [3] abcSeeds
      (fun _ => none) with
  | error e =>
    rw [hrun] at hstats
    cases hstats
  | ok r =>
    obtain ⟨stats, store'⟩ := r
    rw [hrun] at hstats
    cases hstats
    exact ⟨store', rfl, seeding_exact_iff mixedTree memoryStore mixedIndex [3] abcSeeds _ store' _
      (by decide +kernel) ⟨by decide, by decide +kernel⟩ (by decide +kernel) hrun⟩

def numbered (i : Nat) : Hash := ⟨(List.range 32).map fun k => UInt8.ofNat (i / 256 ^ k), by simp⟩

theorem numbered_byte {i k : Nat} (hk : k < 32) :
    (numbered i).bytes[k]? = some (UInt8.ofNat (i / 256 ^ k)) := by
  simp [numbered, hk]

theorem numbered_inj {i j : Nat} (hi : i < 4294967296) (hj : j < 4294967296)
    (h : numbered i = numbered j) :
    i = j := by
  have hbyte : ∀ k < 32, i / 256 ^ k % 256 = j / 256 ^ k % 256 := by
    intro k hk
    have hk' := congrArg (fun x => x.bytes[k]?) h
    simp only [numbered_byte hk, Option.some.injEq] at hk'
    have hnat := congrArg UInt8.toNat hk'
    simpa only [UInt8.toNat_ofNat'] using hnat
  have h₀ := hbyte 0 (by decide)
  have h₁ := hbyte 1 (by decide)
  have h₂ := hbyte 2 (by decide)
  have h₃ := hbyte 3 (by decide)
  simp only [Nat.reducePow] at h₀ h₁ h₂ h₃
  omega

theorem numbered_ne_zeros {i : Nat} (hi : i < 4294967296) : numbered i ≠ shortHash [0, 0, 0] := by
  intro h
  have hbyte := congrArg (fun x => x.bytes[4]?) h
  simp only [numbered_byte (show 4 < 32 by decide),
    Nat.div_eq_of_lt (show i < 256 ^ 4 from hi)] at hbyte
  exact absurd hbyte (by decide +kernel)

section Crowd

variable (th : TreeHash) (n : Nat)

def crowdChunks : List ChunkRef := (List.range n).map fun i => ⟨numbered i, 3⟩

def crowdIndex : TreeIndex :=
  let entries : List Entry := [.file "f" 0o644 0 (UInt64.ofNat (3 * n)) (crowdChunks n)]
  sampleIndex entries (th.rootDigest entries)

variable {th n}

theorem crowdIndex_chunks : (crowdIndex th n).entries.flatMap Entry.chunks = crowdChunks n := by
  simp [crowdIndex, sampleIndex, Entry.chunks]

theorem chunkSum_crowd : chunkSum (crowdChunks n) = 3 * n := by
  have hthree : (crowdChunks n).map (fun c => c.len.toNat) = List.replicate n 3 := by
    simp [crowdChunks, Function.comp_def, List.map_const']
  rw [chunkSum, hthree, List.sum_replicate_nat, Nat.mul_comm]

theorem validateEntries_one {cdc : CdcParams} {size : UInt64} {chunks : List ChunkRef}
    (hsum : chunkSum chunks = size.toNat) (hlens : ∀ c ∈ chunks, c.len ≠ 0 ∧ c.len ≤ cdc.max) :
    validateEntries cdc [] [] [.file "f" 0o644 0 size chunks] = .ok [] := by
  have hpath : sanitizeRelPath (Entry.file "f" 0o644 0 size chunks).path = .ok ["f"] := by
    change sanitizeRelPath "f" = .ok ["f"]
    decide +kernel
  have hfind : chunks.find? (fun c => c.len = 0 ∨ c.len > cdc.max) = none := by
    rw [List.find?_eq_none]
    intro c hc
    simpa [not_or] using hlens c hc
  have hentry : validateEntry cdc ["f"] [] (.file "f" 0o644 0 size chunks) = .ok [] := by
    rw [validateEntry, if_neg (not_not.mpr hsum), hfind]
  simp only [validateEntries, bind, Except.bind, hpath, hentry, List.not_mem_nil, if_false]

theorem crowdIndex_validate (hn : n ≤ 4294967296) : (crowdIndex th n).validate th = .ok () := by
  have hsum : chunkSum (crowdChunks n) = (UInt64.ofNat (3 * n)).toNat := by
    rw [chunkSum_crowd, UInt64.toNat_ofNat']
    omega
  have hlens : ∀ c ∈ crowdChunks n, c.len ≠ 0 ∧ c.len ≤ (crowdIndex th n).cdc.max := by
    intro c hc
    obtain ⟨i, -, rfl⟩ := List.mem_map.mp hc
    exact ⟨by simp, by simp [crowdIndex, sampleIndex]⟩
  have hcdc : (crowdIndex th n).cdc.validate = .ok () := rfl
  have hentries : validateEntries (crowdIndex th n).cdc [] [] (crowdIndex th n).entries = .ok [] :=
    validateEntries_one hsum hlens
  have hroot : th.rootDigest (crowdIndex th n).entries = (crowdIndex th n).rootHash := rfl
  have hversion : (crowdIndex th n).version = wireVersion := rfl
  simp only [TreeIndex.validate, bind, Except.bind, hversion, hcdc,
    hentries, hroot, ne_eq, not_true_eq_false,
    if_false]
  rfl

theorem mem_crowdIndex_needed {h : Hash} :
    h ∈ (crowdIndex th n).neededChunks ↔ ∃ i < n, numbered i = h := by
  rw [mem_neededChunks]
  simp [crowdIndex, sampleIndex, Entry.chunks, crowdChunks]

theorem crowdIndex_lens (hpos : 0 < n) : Iterates [3] (crowdIndex th n).chunkLens := by
  refine ⟨by decide, ?_⟩
  ext len
  rw [TreeIndex.chunkLens, crowdIndex_chunks]
  simp only [crowdChunks, List.map_map, List.mem_toFinset, List.mem_map,
    List.mem_range, List.mem_singleton]
  exact ⟨fun h => ⟨0, hpos, h.symm⟩, fun ⟨_, _, h⟩ => h.symm⟩

theorem crowdIndex_absent :
    (crowdIndex th n).absentChunks (fun _ => none) = (Finset.range n).image numbered := by
  ext h
  rw [TreeIndex.mem_absentChunks, mem_crowdIndex_needed]
  simp

theorem crowdIndex_nowhere (hn : n ≤ 4294967296) (hzeros : th.hash [0, 0, 0] = shortHash [0, 0, 0])
    (hpos : 0 < n) (cut : CdcParams → Bytes → List Bytes)
    (torn : CdcParams → Bytes → List (Option Bytes)) :
    (crowdIndex th n).absentChunks (fun _ => none) ∩ (crowdIndex th n).zeroChunks th.hash = ∅ ∧
      foundNowhere th.hash cut torn (crowdIndex th n) []
      (fun _ => none) = (Finset.range n).image numbered := by
  have hzero : (crowdIndex th n).zeroChunks th.hash = {shortHash [0, 0, 0]} := by
    rw [TreeIndex.zeroChunks, ← (crowdIndex_lens hpos).2, ← hzeros]
    rfl
  have hdisjoint : Disjoint ((Finset.range n).image numbered) {shortHash [0, 0, 0]} := by
    rw [Finset.disjoint_singleton_right]
    intro hmem
    obtain ⟨i, hi, he⟩ := Finset.mem_image.mp hmem
    exact numbered_ne_zeros (by have := Finset.mem_range.mp hi; omega) he
  rw [foundNowhere, crowdIndex_absent, hzero]
  refine ⟨Finset.disjoint_iff_inter_eq_empty.mp hdisjoint, ?_⟩
  rw [Finset.sdiff_eq_self_of_disjoint hdisjoint]
  simp [localChunks]

theorem card_numbered (hn : n ≤ 4294967296) : ((Finset.range n).image numbered).card = n := by
  rw [Finset.card_image_of_injOn, Finset.card_range]
  intro i hi j hj h
  exact numbered_inj (by have := Finset.mem_range.mp hi; omega)
    (by have := Finset.mem_range.mp hj; omega) h

theorem putMissing_memory (hash : Bytes → Hash) (count : SeedStats → SeedStats)
    (s : Seeding ChunkMap) (bytes : Bytes) :
    ∃ t, putMissing hash memoryStore count s bytes = .ok t := by
  unfold putMissing Offers.offer
  split
  · exact ⟨_, rfl⟩
  · exact ⟨s, rfl⟩

theorem seedZeros_memory (hash : Bytes → Hash) (lens : List UInt32) (s : Seeding ChunkMap) :
    ∃ t, seedZeros hash memoryStore lens s = .ok t := by
  induction lens generalizing s with
  | nil => exact ⟨s, rfl⟩
  | cons len lens ih =>
    unfold seedZeros
    split
    · exact ⟨s, rfl⟩
    · obtain ⟨t, ht⟩ := putMissing_memory hash .countZero s (zeros len)
      rw [ht]
      exact ih t

theorem seedStore_memory (index : TreeIndex) (lens : List UInt32) (hash : Bytes → Hash)
    (cut : CdcParams → Bytes → List Bytes) (torn : CdcParams → Bytes → List (Option Bytes))
    (m : ChunkMap) :
    ∃ r, seedStore hash cut torn memoryStore index lens [] m = .ok r := by
  obtain ⟨t, ht⟩ := seedZeros_memory hash lens (index.absentChunks m, m, ⟨0, 0, 0⟩)
  have hmissing : ((index.neededChunks.zip (m.hasMany index.neededChunks)).filterMap
      fun p => if p.2 then none else some p.1).toFinset = index.absentChunks m := by
    rw [missing_eq]
    rfl
  have hmany : memoryStore.hasMany m index.neededChunks = .ok (m.hasMany index.neededChunks, m) :=
    rfl
  simp only [seedStore, seedRoots, bind, Except.bind, hmany, hmissing, ht]
  exact ⟨_, rfl⟩

theorem crowd_seeded (hn : n ≤ 4294967296) (hpos : 0 < n)
    (hzeros : th.hash [0, 0, 0] = shortHash [0, 0, 0])
    (cut : CdcParams → Bytes → List Bytes) (torn : CdcParams → Bytes → List (Option Bytes)) :
    ∃ m, seedStore th.hash cut torn memoryStore (crowdIndex th n) [3] [] (fun _ => none) =
        .ok (⟨0, 0, UInt32.ofNat n⟩, m) ∧
      (SeedExact th cut (crowdIndex th n) [] (fun _ => none) m ⟨0, 0, UInt32.ofNat n⟩ →
        n < 4294967296) := by
  obtain ⟨⟨stats, m⟩, hrun⟩ :=
    seedStore_memory (crowdIndex th n) [3] th.hash cut torn fun _ => none
  obtain ⟨hzero, hnowhere⟩ := crowdIndex_nowhere hn hzeros hpos cut torn
  have hstats : stats = ⟨0, 0, UInt32.ofNat n⟩ := by
    rw [(seedStore_ok (crowdIndex_lens hpos) hrun).2]
    change SeedStats.mk
      (UInt32.ofNat (foundLocally th.hash cut torn (crowdIndex th n) [] fun _ => none).card)
      (UInt32.ofNat ((crowdIndex th n).absentChunks (fun _ => none) ∩
        (crowdIndex th n).zeroChunks th.hash).card)
      (UInt32.ofNat (foundNowhere th.hash cut torn (crowdIndex th n) [] fun _ => none).card) = _
    rw [hzero, hnowhere, card_numbered hn]
    simp [foundLocally, localChunks]
  subst hstats
  refine ⟨m, hrun, fun hexact => ?_⟩
  have hcond :=
    (seedExact_iff th memoryStore (crowdIndex_validate hn) (crowdIndex_lens hpos) hrun).mp hexact
  change _ ∧ (foundNowhere th.hash cut torn (crowdIndex th n) [] fun _ => none).card <
    4294967296 at hcond
  rw [hnowhere, card_numbered hn] at hcond
  exact hcond.2

end Crowd

/-- Of 4294967296 different chunks, none of them found, none is reported missing. -/
theorem missing_chunks_miscounted :
    (crowdIndex mixedTree 4294967296).validate mixedTree = .ok () ∧
      Iterates [3] (crowdIndex mixedTree 4294967296).chunkLens ∧
      ∃ m, seedStore mixedTree.hash cutShort tornAtOnce memoryStore
      (crowdIndex mixedTree 4294967296) [3] []
          (fun _ => none) = .ok (⟨0, 0, 0⟩, m) ∧
        ¬ SeedExact mixedTree cutShort (crowdIndex mixedTree 4294967296)
          [] (fun _ => none) m ⟨0, 0, 0⟩ := by
  refine ⟨crowdIndex_validate (Nat.le_refl _), crowdIndex_lens (by omega), ?_⟩
  obtain ⟨m, hrun, hexact⟩ :=
    @crowd_seeded mixedTree _ (Nat.le_refl 4294967296) (by omega) (by decide +kernel)
    cutShort tornAtOnce
  exact ⟨m, hrun, fun h => absurd (hexact h) (by omega)⟩

end Zblob

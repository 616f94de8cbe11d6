import Zblob.Resume

/-!
Verified slices. BLAKE3 and the bao decoder are not part of the repository, so
they are a parameter here; what the crate relies on is stated as `Bao.Laws`.
Everything after that is about files whose set bits are backed by verified bytes.
-/

set_option autoImplicit false

namespace Zblob

open ByteFile (Leaf Tiles leafBytes writeAll window)

/-- BLAKE3 over a byte string, and `verify::decode_slice`: the leaves of a slice
that decodes against `(root, total_len, bao chunk range)`, or nothing. -/
structure Bao where
  hash : Bytes → Hash
  decodeSlice : Hash → Nat → Nat × Nat → Bytes → Option (List Leaf)

def Aligned (len : Nat) (r : Nat × Nat) : Prop :=
  r.1 < r.2 ∧ r.2 ≤ len ∧ r.1 % groupSize = 0 ∧ (r.2 = len ∨ r.2 % groupSize = 0)

def Covers : Nat → List (Nat × Nat) → Nat → Prop
  | a, [], b => a = b
  | a, r :: rs, b => r.1 = a ∧ Covers r.2 rs b

structure Decoded where
  range : Nat × Nat
  encoded : Bytes
  leaves : List Leaf

/-- What bao-tree documents: the leaves of an accepted slice tile the requested
range, and accepted slices that together cover a non-empty blob hash to the root. -/
structure Bao.Laws (bao : Bao) : Prop where
  tiles : ∀ (root : Hash) (len : Nat) (r : Nat × Nat) (encoded : Bytes) (ls : List Leaf),
    Aligned len r → bao.decodeSlice root len (chunkRange r) encoded = some ls → Tiles r.1 ls r.2
  sound : ∀ (root : Hash) (len : Nat) (ds : List Decoded), 0 < len →
    Covers 0 (ds.map Decoded.range) len → (∀ d ∈ ds, Aligned len d.range) →
    (∀ d ∈ ds, bao.decodeSlice root len (chunkRange d.range) d.encoded = some d.leaves) →
    bao.hash (ds.flatMap fun d => leafBytes d.leaves) = root

theorem TransferChunks.aligned (c : TransferChunks) {i : Nat} (hi : i < c.count) :
    Aligned c.totalLen.toNat (c.byteRange i) :=
  ⟨c.byteRange_lt hi, c.byteRange_le i, c.byteRange_aligned hi⟩

/-- The decoder on blobs of one verification group: such a blob has no parent
hashes, so its slice is the content itself and decoding is one hash comparison. -/
def Bao.oneGroup (hash : Bytes → Hash) : Bao where
  hash := hash
  decodeSlice root len r encoded :=
    if 0 < len ∧ len ≤ groupSize ∧ r = (0, divCeil len 1024) ∧ len ≤ encoded.length ∧
        hash (encoded.take len) = root then
      some [(0, encoded.take len)]
    else none

theorem divCeil_group {b len : Nat} (hb : b % groupSize = 0) (h0 : 0 < b) (hl : b ≤ len)
    (hg : len ≤ groupSize) : b = len := by
  unfold groupSize at hb hg
  omega

theorem oneGroup_range {len : Nat} {r : Nat × Nat} (hg : len ≤ groupSize) (ha : Aligned len r)
    (hr : chunkRange r = (0, divCeil len 1024)) : r = (0, len) := by
  obtain ⟨hlt, hle, hs, he⟩ := ha
  have h1 : r.1 / 1024 = 0 := congrArg Prod.fst hr
  have hr1 : r.1 = 0 := by unfold groupSize at hs; omega
  have hr2 : r.2 = len := by
    rcases he with he | he
    · exact he
    · exact divCeil_group he (by omega) hle hg
  exact Prod.ext hr1 hr2

theorem oneGroup_decode {hash : Bytes → Hash} {root : Hash} {len : Nat} {r : Nat × Nat}
    {encoded : Bytes} {ls : List Leaf} (ha : Aligned len r)
    (h : (Bao.oneGroup hash).decodeSlice root len (chunkRange r) encoded = some ls) :
    r = (0, len) ∧ ls = [(0, encoded.take len)] ∧ len ≤ encoded.length ∧
      hash (encoded.take len) = root := by
  simp only [Bao.oneGroup] at h
  split at h
  · rename_i hc
    obtain ⟨-, hg, hr, hl, hh⟩ := hc
    cases h
    exact ⟨oneGroup_range hg ha hr, rfl, hl, hh⟩
  · cases h

theorem oneGroup_laws (hash : Bytes → Hash) : (Bao.oneGroup hash).Laws where
  tiles := by
    intro root len r encoded ls ha h
    obtain ⟨rfl, rfl, hl, -⟩ := oneGroup_decode ha h
    simpa [Tiles] using Nat.min_eq_left hl
  sound := by
    intro root len ds hpos hcov hal hdec
    cases ds with
    | nil =>
      simp only [List.map_nil, Covers] at hcov
      omega
    | cons d ds =>
      obtain ⟨hr, hl, -, hh⟩ := oneGroup_decode (hal d (by simp)) (hdec d (by simp))
      cases ds with
      | nil => simpa [hl, Bao.oneGroup] using hh
      | cons e ds =>
        obtain ⟨hr', -⟩ := oneGroup_decode (hal e (by simp)) (hdec e (by simp))
        simp only [List.map_cons, Covers, hr, hr'] at hcov
        omega

def shortHash (data : Bytes) : Hash :=
  if data = [] then
    ⟨[0xaf, 0x13, 0x49, 0xb9, 0xf5, 0xf9, 0xa1, 0xa6, 0xa0, 0x40,
      0x4d, 0xea, 0x36, 0xdc, 0xc9, 0x49,
    0x9b, 0xcb, 0x25, 0xc9, 0xad, 0xc1, 0x12, 0xb7, 0xcc, 0x9a, 0x93,
      0xca, 0xe4, 0x1f, 0x32, 0x62], by decide⟩
  else if data = [97, 98, 99] then
    ⟨[0x64, 0x37, 0xb3, 0xac, 0x38, 0x46, 0x51, 0x33, 0xff, 0xb6,
      0x3b, 0x75, 0x27, 0x3a, 0x8d, 0xb5,
    0x48, 0xc5, 0x58, 0x46, 0x5d, 0x79, 0xdb, 0x03, 0xfd, 0x35, 0x9c,
      0x6c, 0xd5, 0xbd, 0x9d, 0x85], by decide⟩
  else if data = [120, 121, 122] then
    ⟨[0xf0, 0x06, 0xb5, 0xee, 0x48, 0x90, 0xb6, 0x66, 0x56, 0xcf,
      0x6c, 0x23, 0x99, 0x8e, 0x25, 0x19,
    0x6a, 0x16, 0x36, 0x44, 0x66, 0x5d, 0xc9, 0xd4, 0xb4, 0x7d, 0xa1,
      0xfc, 0xa3, 0x03, 0x70, 0x23], by decide⟩
  else if data = [0, 0, 0] then
    ⟨[0x91, 0x52, 0x5f, 0xf0, 0x0a, 0x37, 0x55, 0xa8, 0xdf, 0x93,
      0xc6, 0x26, 0xb5, 0x9f, 0x6e, 0x36,
    0xcf, 0x02, 0x1d, 0x85, 0xeb, 0xcc, 0xec, 0xde, 0xdc, 0x38, 0xf3,
      0xf1, 0x89, 0x0a, 0x15, 0xfc], by decide⟩
  else ⟨List.replicate 32 0, by decide⟩

def shortBao : Bao := Bao.oneGroup shortHash

theorem shortBao_laws : shortBao.Laws := oneGroup_laws shortHash

def sampleManifest (totalLen : UInt64) (root : Hash) : Manifest where
  version := wireVersion
  id := ⟨"x", by decide⟩
  filename := none
  totalLen := totalLen
  chunkSize := 65536
  root := root
  createdMs := 0
  ext := Ext.new

/-- Chunk `i` of a blob reads as bytes that decoded against its root. -/
def ChunkVerified (bao : Bao) (m : Manifest) (c : TransferChunks)
    (i : Nat) (bytes : Bytes) : Prop :=
  ∃ encoded ls, bao.decodeSlice m.root m.totalLen.toNat (chunkRange (c.byteRange i))
    encoded = some ls ∧
    bytes = leafBytes ls

theorem oneGroup_verified {hash : Bytes → Hash} {m : Manifest} {c : TransferChunks} {i : Nat}
    {bytes : Bytes} (hc : m.chunks = .ok c) (hi : i < c.count)
    (h : ChunkVerified (Bao.oneGroup hash) m c i bytes) : hash bytes = m.root := by
  obtain ⟨encoded, ls, hd, rfl⟩ := h
  have ha := c.aligned hi
  rw [(Manifest.chunks_ok hc).2] at ha
  obtain ⟨-, rfl, -, hh⟩ := oneGroup_decode ha hd
  simpa [leafBytes] using hh

def chunkOf (c : TransferChunks) (i : Nat) (f : Bytes) : Bytes :=
  window f (c.byteRange i).1 (c.byteRange i).2

/-- `f` has the blob's length and every chunk of `has` reads as verified bytes. -/
def Holds (bao : Bao) (m : Manifest) (c : TransferChunks) (has : Nat → Bool) (f : Bytes) : Prop :=
  f.length = m.totalLen.toNat ∧
    ∀ i, i < c.count → has i = true → ChunkVerified bao m c i (chunkOf c i f)

def Backed (bao : Bao) (m : Manifest) (c : TransferChunks) (s : ResumeState) (f : Bytes) : Prop :=
  Holds bao m c s.isSet f

section Holding

variable {bao : Bao} {m : Manifest} {c : TransferChunks} {has : Nat → Bool} {f : Bytes}

theorem chunk_tiles (laws : bao.Laws) (hc : m.chunks = .ok c) {i : Nat} (hi : i < c.count)
    {encoded : Bytes} {ls : List Leaf}
    (h : bao.decodeSlice m.root m.totalLen.toNat (chunkRange (c.byteRange i)) encoded = some ls) :
    Tiles (c.byteRange i).1 ls (c.byteRange i).2 := by
  have hl := (Manifest.chunks_ok hc).2
  exact laws.tiles _ _ _ _ _ (by rw [← hl]; exact c.aligned hi) h

theorem byteRange_le_length (hc : m.chunks = .ok c) (hf : f.length = m.totalLen.toNat) (i : Nat) :
    (c.byteRange i).2 ≤ f.length := by
  rw [hf, ← (Manifest.chunks_ok hc).2]
  exact c.byteRange_le i

theorem holds_none (hf : f.length = m.totalLen.toNat) (hno : ∀ i, i < c.count → has i = false) :
    Holds bao m c has f := by
  refine ⟨hf, fun i hi hset => ?_⟩
  rw [hno i hi] at hset
  cases hset

theorem Holds.mono {has' : Nat → Bool} (h : Holds bao m c has f)
    (hsub : ∀ i, i < c.count → has' i = true → has i = true) : Holds bao m c has' f :=
  ⟨h.1, fun i hi hset => h.2 i hi (hsub i hi hset)⟩

/-- Any initial part of the leaves of a missing chunk can be written without
harming a claimed one. -/
theorem Holds.write_leaves (laws : bao.Laws) (hc : m.chunks = .ok c) (h : Holds bao m c has f)
    {i : Nat} (hi : i < c.count) (hs : has i = false) {encoded : Bytes} {ls : List Leaf}
    (hd : bao.decodeSlice m.root m.totalLen.toNat (chunkRange (c.byteRange i)) encoded = some ls)
    (k : Nat) : Holds bao m c has (writeAll f (ls.take k)) := by
  have ht := chunk_tiles laws hc hi hd
  have hend := byteRange_le_length hc h.1 i
  obtain ⟨e, he, hte⟩ := ht.take k
  refine ⟨by rw [ByteFile.writeAll_length hte (by omega)]; exact h.1, fun j hjc hj => ?_⟩
  have hij : i ≠ j := by rintro rfl; rw [hs] at hj; cases hj
  have hdis := c.byteRange_disjoint hjc hi (Ne.symm hij)
  have hw : chunkOf c j (writeAll f (ls.take k)) = chunkOf c j f :=
    ByteFile.window_writeAll_other hte (by omega) (by omega)
  rw [hw]
  exact h.2 j hjc hj

theorem Holds.write (laws : bao.Laws) (hc : m.chunks = .ok c) (h : Holds bao m c has f) {i : Nat}
    (hi : i < c.count) {encoded : Bytes} {ls : List Leaf}
    (hd : bao.decodeSlice m.root m.totalLen.toNat (chunkRange (c.byteRange i)) encoded = some ls)
    {has' : Nat → Bool} (hnew : ∀ j, j < c.count → has' j = true → has j = true ∨ j = i) :
    Holds bao m c has' (writeAll f ls) := by
  have hothers : Holds bao m c (fun j => has j && !decide (j = i)) f :=
    h.mono fun j _ hj => (Bool.and_eq_true_iff.mp hj).1
  have hw := hothers.write_leaves laws hc hi (by simp) hd ls.length
  rw [List.take_length] at hw
  refine ⟨hw.1, fun j hjc hj => ?_⟩
  by_cases hij : j = i
  · subst hij
    refine ⟨encoded, ls, hd, ?_⟩
    exact ByteFile.window_writeAll_self (chunk_tiles laws hc hi hd) (byteRange_le_length hc h.1 j)
  · have hold := (hnew j hjc hj).resolve_right hij
    exact hw.2 j hjc (by simp [hold, hij])

theorem Holds.of_geometry {m' : Manifest} (h : Holds bao m c has f)
    (hg : m'.geometry = m.geometry) : Holds bao m' c has f := by
  simp only [Manifest.geometry, Prod.mk.injEq] at hg
  obtain ⟨hr, hl, -⟩ := hg
  refine ⟨by rw [hl]; exact h.1, fun i hi hset => ?_⟩
  obtain ⟨encoded, ls, hd, hb⟩ := h.2 i hi hset
  exact ⟨encoded, ls, by rw [hr, hl]; exact hd, hb⟩

end Holding

section Backing

variable {bao : Bao} {m : Manifest} {c : TransferChunks} {s : ResumeState} {f : Bytes}

theorem backed_fresh (hc : m.chunks = .ok c) (hf : f.length = m.totalLen.toNat) :
    Backed bao m c (ResumeState.fresh m c.count) f :=
  holds_none hf fun i _ => ResumeState.fresh_isSet hc i

theorem Backed.write_leaves (laws : bao.Laws) (hfit : s.Fits m c) (h : Backed bao m c s f) {i : Nat}
    (hi : i < c.count) (hs : s.isSet i = false) {encoded : Bytes} {ls : List Leaf}
    (hd : bao.decodeSlice m.root m.totalLen.toNat (chunkRange (c.byteRange i)) encoded = some ls)
    (k : Nat) : Backed bao m c s (writeAll f (ls.take k)) :=
  Holds.write_leaves laws hfit.geometry h hi hs hd k

/-- Writing a verified chunk and then marking it keeps the file backed. -/
theorem Backed.write_mark (laws : bao.Laws) (hfit : s.Fits m c) (h : Backed bao m c s f) {i : Nat}
    (hi : i < c.count) {encoded : Bytes} {ls : List Leaf}
    (hd : bao.decodeSlice m.root m.totalLen.toNat (chunkRange (c.byteRange i)) encoded = some ls) :
    Backed bao m c (s.mark i).1 (writeAll f ls) := by
  refine Holds.write laws hfit.geometry h hi hd fun j _ hj => ?_
  rw [hfit.mark_isSet, Bool.or_eq_true, Bool.and_eq_true] at hj
  rcases hj with hj | hj
  · exact .inl hj
  · exact .inr (of_decide_eq_true hj.1).symm

end Backing

section Complete

variable {bao : Bao} {m : Manifest} {c : TransferChunks}

theorem covers_range' {f : Nat → Nat × Nat} {n b : Nat}
    (hnext : ∀ i, i + 1 < n → (f (i + 1)).1 = (f i).2)
    (hlast : ∀ i, i + 1 = n → (f i).2 = b) (k : Nat) (hk : k < n) :
    Covers (f k).1 ((List.range' k (n - k)).map f) b := by
  obtain ⟨d, hd⟩ : ∃ d, n - k = d + 1 := ⟨n - k - 1, by omega⟩
  induction d generalizing k with
  | zero =>
    rw [hd]
    simpa [Covers] using hlast k (by omega)
  | succ d ih =>
    have hrec := ih (k + 1) (by omega) (by omega)
    have hsplit : n - k = (n - (k + 1)) + 1 := by omega
    rw [hsplit, List.range'_succ, List.map_cons]
    rw [hnext k (by omega)] at hrec
    exact ⟨rfl, hrec⟩

theorem covers_chunks (c : TransferChunks) (k : Nat) (hk : k < c.count) :
    Covers (c.byteRange k).1 ((List.range' k (c.count - k)).map c.byteRange) c.totalLen.toNat :=
  covers_range' (fun _ => c.byteRange_succ) (fun _ => c.byteRange_last) k hk

theorem flatMap_window (f : Bytes) (rs : List (Nat × Nat)) (a b : Nat) (hcov : Covers a rs b)
    (hord : ∀ r ∈ rs, r.1 ≤ r.2) :
    rs.flatMap (fun r => window f r.1 r.2) = window f a b ∧ a ≤ b := by
  induction rs generalizing a with
  | nil =>
    simp only [Covers] at hcov
    subst hcov
    simp [window]
  | cons r rs ih =>
    obtain ⟨rfl, hcov⟩ := hcov
    obtain ⟨hrest, hle⟩ := ih r.2 hcov (fun x hx => hord x (by simp [hx]))
    have hr := hord r (by simp)
    refine ⟨?_, by omega⟩
    rw [List.flatMap_cons, hrest]
    exact ByteFile.window_append f hr hle

/-- A file that holds every chunk is the content the root names. -/
theorem Holds.hash_eq (laws : bao.Laws) {has : Nat → Bool} {f : Bytes} (hc : m.chunks = .ok c)
    (h : Holds bao m c has f) (hdone : ∀ i, i < c.count → has i = true)
    (hpos : 0 < m.totalLen.toNat) : bao.hash f = m.root := by
  have hf := h.1
  have hall := fun i hi => h.2 i hi (hdone i hi)
  have hl := (Manifest.chunks_ok hc).2
  choose! enc ls hd hb using hall
  let ds : List Decoded := (List.range c.count).map fun i => ⟨c.byteRange i, enc i, ls i⟩
  have hcount : 0 < c.count := by
    have := c.count_eq_zero_iff
    rw [hl] at this
    omega
  have hcov : Covers 0 ((List.range c.count).map c.byteRange) m.totalLen.toNat := by
    have h := covers_chunks c 0 hcount
    have h0 : (c.byteRange 0).1 = 0 := by rw [c.byteRange_fst hcount]; omega
    rwa [h0, Nat.sub_zero, ← List.range_eq_range', hl] at h
  have hmem : ∀ d ∈ ds, ∃ i, i < c.count ∧ d = ⟨c.byteRange i, enc i, ls i⟩ := by
    intro d hd'
    obtain ⟨i, hi, rfl⟩ := List.mem_map.mp hd'
    exact ⟨i, List.mem_range.mp hi, rfl⟩
  have hsound := laws.sound m.root m.totalLen.toNat ds hpos
    (by simpa [ds, Function.comp_def] using hcov)
    (fun d hd' => by
      obtain ⟨i, hi, rfl⟩ := hmem d hd'
      rw [← hl]; exact c.aligned hi)
    (fun d hd' => by
      obtain ⟨i, hi, rfl⟩ := hmem d hd'
      exact hd i hi)
  have hflat : (ds.flatMap fun d => leafBytes d.leaves) = f := by
    have hmap : (ds.flatMap fun d => leafBytes d.leaves) =
        ((List.range c.count).map c.byteRange).flatMap (fun r => window f r.1 r.2) := by
      simp only [ds, List.flatMap_map]
      apply List.flatMap_congr
      intro i hi
      exact (hb i (List.mem_range.mp hi)).symm
    rw [hmap, (flatMap_window f _ 0 _ hcov (fun r hr => by
      obtain ⟨i, hi, rfl⟩ := List.mem_map.mp hr
      exact Nat.le_of_lt (c.byteRange_lt (List.mem_range.mp hi)))).1, ← hf]
    exact ByteFile.window_all f
  rwa [hflat] at hsound

/-- A file that holds every chunk is the blob, where the root of an empty blob has
been checked by other means. -/
theorem Holds.content (laws : bao.Laws) {has : Nat → Bool} {f : Bytes} (hc : m.chunks = .ok c)
    (h : Holds bao m c has f) (hdone : ∀ i, i < c.count → has i = true)
    (hempty : m.totalLen = 0 → m.root = bao.hash []) :
    f.length = m.totalLen.toNat ∧ bao.hash f = m.root := by
  refine ⟨h.1, ?_⟩
  by_cases h0 : m.totalLen = 0
  · have hnil : f = [] := by
      apply List.eq_nil_of_length_eq_zero
      rw [h.1, h0]
      rfl
    rw [hnil, hempty h0]
  · have hpos : 0 < m.totalLen.toNat := by
      rw [Nat.pos_iff_ne_zero]
      intro hz
      exact h0 (UInt64.toNat_inj.mp hz)
    exact h.hash_eq laws hc hdone hpos

end Complete

end Zblob

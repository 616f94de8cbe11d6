import Zblob.Lib.Offers
import Zblob.Reuse

/-!
Local seeding: before anything is fetched, the chunks of a snapshot that are all zeros or turn
up in trees on this machine are put into the store.
-/

set_option autoImplicit false

namespace Zblob

structure SeedStats where
  fromLocal : UInt32
  fromZero : UInt32
  stillMissing : UInt32
  deriving DecidableEq

/-- A chunk store that is a map. Its operations may fail; one that succeeds has answered for
the map, or put one absent chunk into it. -/
structure MapStore (σ : Type) where
  view : σ → ChunkMap
  hasMany : σ → List Hash → Result (List Bool × σ)
  put : σ → Hash → Bytes → Result σ
  hasMany_ok : ∀ {s hs present s'}, hasMany s hs = .ok (present, s') →
    present = (view s).hasMany hs ∧ view s' = view s
  put_ok : ∀ {s h bytes s'}, put s h bytes = .ok s' → view s h = none →
    view s' = (view s).put (h, bytes)

/-- A regular file below a seed root: whether it opens, and the bytes that come before its end
or before the read that fails. -/
structure SeedFile where
  opens : Bool
  data : Bytes
  whole : Bool
  deriving DecidableEq

/-- What a path of a seed tree leads to. A directory comes with what its listing yields, in
that order; `denied` is a path whose metadata cannot be had. -/
inductive SeedNode where
  | dir (readable : Bool) (items : List SeedNode)
  | file (f : SeedFile)
  | special
  | denied

abbrev Seeding (σ : Type) := Finset Hash × σ × SeedStats

def SeedStats.countLocal (s : SeedStats) : SeedStats := { s with fromLocal := s.fromLocal + 1 }
def SeedStats.countZero (s : SeedStats) : SeedStats := { s with fromZero := s.fromZero + 1 }

def zeros (len : UInt32) : Bytes := List.replicate len.toNat 0

def TreeIndex.chunkLens (index : TreeIndex) : Finset UInt32 :=
  ((index.entries.flatMap Entry.chunks).map ChunkRef.len).toFinset

section Model

variable {σ : Type} (hash : Bytes → Hash) (cut : CdcParams → Bytes → List Bytes)
  (torn : CdcParams → Bytes → List (Option Bytes)) (ops : MapStore σ) (cdc : CdcParams)

/-- `chunk_reader` over an open file. Of one that cannot be read to its end come some pieces
and an error. -/
def chunkReader (f : SeedFile) : List (Option Bytes) :=
  if f.whole then (cut cdc f.data).map some else torn cdc f.data

def putSeed (count : SeedStats → SeedStats) (s : σ × SeedStats) (bytes : Bytes) :
    Result (σ × SeedStats) :=
  (ops.put s.1 (hash bytes) bytes).map fun store => (store, count s.2)

def putMissing (count : SeedStats → SeedStats) : Seeding σ → Bytes → Result (Seeding σ) :=
  Offers.offer hash (putSeed hash ops count)

def seedZeros : List UInt32 → Seeding σ → Result (Seeding σ)
  | [], s => .ok s
  | len :: lens, s =>
    if s.1 = ∅ then .ok s
    else do
      let s ← putMissing hash ops .countZero s (zeros len)
      seedZeros lens s

def seedChunks : List (Option Bytes) → Seeding σ → Result (Seeding σ × Bool)
  | [], s => .ok (s, false)
  | none :: _, s => .ok (s, false)
  | some bytes :: rest, s => do
    let s ← putMissing hash ops .countLocal s bytes
    if s.1 = ∅ then .ok (s, true) else seedChunks rest s

mutual

def seedFromTree : SeedNode → Seeding σ → Result (Seeding σ)
  | .dir true items, s => seedEntries items s
  | .dir false _, s => .ok s
  | .file _, s => .ok s
  | .special, s => .ok s
  | .denied, s => .ok s

def seedEntries : List SeedNode → Seeding σ → Result (Seeding σ)
  | [], s => .ok s
  | .dir readable items :: rest, s =>
    if s.1 = ∅ then .ok s
    else do
      let s ← seedFromTree (.dir readable items) s
      seedEntries rest s
  | .file f :: rest, s =>
    if s.1 = ∅ then .ok s
    else if f.opens then do
      let (s, returned) ← seedChunks hash ops (chunkReader cut torn cdc f) s
      if returned then .ok s else seedEntries rest s
    else seedEntries rest s
  | .special :: rest, s => if s.1 = ∅ then .ok s else seedEntries rest s
  | .denied :: rest, s => if s.1 = ∅ then .ok s else seedEntries rest s

end

def seedRoots : List SeedNode → Seeding σ → Result (Seeding σ)
  | [], s => .ok s
  | root :: roots, s =>
    if s.1 = ∅ then .ok s
    else do
      let s ← seedFromTree hash cut torn ops cdc root s
      seedRoots roots s

/-- `lens` is the order in which the set of lengths is iterated. -/
def seedStore (index : TreeIndex) (lens : List UInt32) (roots : List SeedNode) (store : σ) :
    Result (SeedStats × σ) := do
  let needed := index.neededChunks
  let (present, store) ← ops.hasMany store needed
  let missing := ((needed.zip present).filterMap fun p => if p.2 then none else some p.1).toFinset
  let s ← seedZeros hash ops lens (missing, store, ⟨0, 0, 0⟩)
  let (missing, store, stats) ← seedRoots hash cut torn ops index.cdc roots s
  .ok ({ stats with stillMissing := UInt32.ofNat missing.card }, store)

end Model

def beforeError : List (Option Bytes) → List Bytes
  | [] => []
  | none :: _ => []
  | some bytes :: rest => bytes :: beforeError rest

@[simp] theorem beforeError_some (pieces : List Bytes) :
    beforeError (pieces.map some) = pieces := by
  induction pieces with
  | nil => rfl
  | cons bytes rest ih => rw [List.map_cons, beforeError, ih]

section Pieces

variable (cut : CdcParams → Bytes → List Bytes) (torn : CdcParams → Bytes → List (Option Bytes))
  (cdc : CdcParams)

mutual

def piecesOf : SeedNode → List Bytes
  | .dir true items => piecesIn items
  | .dir false _ => []
  | .file _ => []
  | .special => []
  | .denied => []

def piecesIn : List SeedNode → List Bytes
  | [] => []
  | .dir readable items :: rest => piecesOf (.dir readable items) ++ piecesIn rest
  | .file f :: rest =>
    (if f.opens then beforeError (chunkReader cut torn cdc f) else []) ++ piecesIn rest
  | .special :: rest => piecesIn rest
  | .denied :: rest => piecesIn rest

end

mutual

def wholeFilesOf : SeedNode → List SeedFile
  | .dir true items => wholeFilesIn items
  | .dir false _ => []
  | .file _ => []
  | .special => []
  | .denied => []

def wholeFilesIn : List SeedNode → List SeedFile
  | [] => []
  | .dir readable items :: rest => wholeFilesOf (.dir readable items) ++ wholeFilesIn rest
  | .file f :: rest => (if f.opens && f.whole then [f] else []) ++ wholeFilesIn rest
  | .special :: rest => wholeFilesIn rest
  | .denied :: rest => wholeFilesIn rest

end

variable {cut torn cdc}

mutual

theorem whole_piecesOf {f : SeedFile} : ∀ {node : SeedNode}, f ∈ wholeFilesOf node →
    ∀ p ∈ cut cdc f.data, p ∈ piecesOf cut torn cdc node
  | .dir true items, h, p, hp =>
    have hin : f ∈ wholeFilesIn items := h
    whole_piecesIn hin p hp

theorem whole_piecesIn {f : SeedFile} : ∀ {items : List SeedNode}, f ∈ wholeFilesIn items →
    ∀ p ∈ cut cdc f.data, p ∈ piecesIn cut torn cdc items
  | .dir readable items :: rest, h, p, hp => by
    unfold wholeFilesIn at h
    unfold piecesIn
    rcases List.mem_append.mp h with h | h
    · exact List.mem_append_left _ (whole_piecesOf h p hp)
    · exact List.mem_append_right _ (whole_piecesIn h p hp)
  | .file g :: rest, h, p, hp => by
    unfold wholeFilesIn at h
    unfold piecesIn
    rcases List.mem_append.mp h with h | h
    · split at h
      · rename_i hg
        obtain ⟨hopens, hwhole⟩ := (Bool.and_eq_true _ _).mp hg
        rw [List.mem_singleton.mp h] at hp
        refine List.mem_append_left _ ?_
        rw [if_pos hopens, chunkReader, if_pos hwhole, beforeError_some]
        exact hp
      · cases h
    · exact List.mem_append_right _ (whole_piecesIn h p hp)
  | .special :: rest, h, p, hp => by
    unfold wholeFilesIn at h
    unfold piecesIn
    exact whole_piecesIn h p hp
  | .denied :: rest, h, p, hp => by
    unfold wholeFilesIn at h
    unfold piecesIn
    exact whole_piecesIn h p hp

end

end Pieces

section Fold

variable {σ : Type} {hash : Bytes → Hash} {cut : CdcParams → Bytes → List Bytes}
  {torn : CdcParams → Bytes → List (Option Bytes)} {ops : MapStore σ} {cdc : CdcParams}

theorem foldlM_putMissing_empty {count : SeedStats → SeedStats} {s : Seeding σ} (hs : s.1 = ∅)
    (pieces : List Bytes) : pieces.foldlM (putMissing hash ops count) s = .ok s := by
  obtain ⟨missing, t⟩ := s
  cases hs
  exact Offers.foldlM_empty _ pieces t

theorem seedZeros_eq (lens : List UInt32) (s : Seeding σ) :
    seedZeros hash ops lens s = (lens.map zeros).foldlM (putMissing hash ops .countZero) s := by
  induction lens generalizing s with
  | nil => rfl
  | cons len lens ih =>
    unfold seedZeros
    split
    · rename_i hs
      rw [foldlM_putMissing_empty hs]
    · rw [List.map_cons, List.foldlM_cons]
      exact bind_congr fun s => ih s

theorem seedChunks_then {next : Seeding σ → Result (Seeding σ)}
    (hnext : ∀ s, s.1 = ∅ → next s = .ok s) (chunks : List (Option Bytes)) (s : Seeding σ) :
    (do
      let (s, returned) ← seedChunks hash ops chunks s
      if returned then .ok s else next s) =
      (beforeError chunks).foldlM (putMissing hash ops .countLocal) s >>= next := by
  induction chunks generalizing s with
  | nil => rfl
  | cons chunk rest ih =>
    cases chunk with
    | none => rfl
    | some bytes =>
      rw [seedChunks, beforeError, List.foldlM_cons, bind_assoc, bind_assoc]
      refine bind_congr fun s => ?_
      by_cases hs : s.1 = ∅
      · rw [if_pos hs, foldlM_putMissing_empty hs]
        exact (hnext s hs).symm
      · rw [if_neg hs]
        exact ih s

mutual

theorem seedFromTree_eq : ∀ (node : SeedNode) (s : Seeding σ),
    seedFromTree hash cut torn ops cdc node s =
      (piecesOf cut torn cdc node).foldlM (putMissing hash ops .countLocal) s
  | .dir true items, s => by
    unfold seedFromTree piecesOf
    exact seedEntries_eq items s
  | .dir false _, s => by
    unfold seedFromTree piecesOf
    rfl
  | .file _, s => by
    unfold seedFromTree piecesOf
    rfl
  | .special, s => by
    unfold seedFromTree piecesOf
    rfl
  | .denied, s => by
    unfold seedFromTree piecesOf
    rfl

/-- The walk over a directory is the fold over its pieces: its early exits only leave out what
would change nothing. -/
theorem seedEntries_eq : ∀ (items : List SeedNode) (s : Seeding σ),
    seedEntries hash cut torn ops cdc items s =
      (piecesIn cut torn cdc items).foldlM (putMissing hash ops .countLocal) s
  | [], s => by
    unfold seedEntries piecesIn
    rfl
  | .dir readable items :: rest, s => by
    unfold seedEntries piecesIn
    split
    · rename_i hs
      rw [foldlM_putMissing_empty hs]
    · rw [List.foldlM_append, seedFromTree_eq (.dir readable items) s]
      exact bind_congr fun s => seedEntries_eq rest s
  | .file f :: rest, s => by
    have hrest : ∀ s : Seeding σ, seedEntries hash cut torn ops cdc rest s =
        (piecesIn cut torn cdc rest).foldlM (putMissing hash ops .countLocal) s :=
        seedEntries_eq rest
    unfold seedEntries piecesIn
    split
    · rename_i hs
      rw [foldlM_putMissing_empty hs]
    · split
      · rw [seedChunks_then fun s hs => (hrest s).trans (foldlM_putMissing_empty hs _),
          List.foldlM_append]
        exact bind_congr fun s => hrest s
      · exact hrest s
  | .special :: rest, s => by
    unfold seedEntries piecesIn
    split
    · rename_i hs
      rw [foldlM_putMissing_empty hs]
    · exact seedEntries_eq rest s
  | .denied :: rest, s => by
    unfold seedEntries piecesIn
    split
    · rename_i hs
      rw [foldlM_putMissing_empty hs]
    · exact seedEntries_eq rest s

end

theorem seedRoots_eq (roots : List SeedNode) (s : Seeding σ) :
    seedRoots hash cut torn ops cdc roots s =
      (roots.flatMap (piecesOf cut torn cdc)).foldlM (putMissing hash ops .countLocal) s := by
  induction roots generalizing s with
  | nil => rfl
  | cons root roots ih =>
    unfold seedRoots
    rw [List.flatMap_cons]
    split
    · rename_i hs
      rw [foldlM_putMissing_empty hs]
    · rw [List.foldlM_append, seedFromTree_eq root s]
      exact bind_congr fun s => ih s

end Fold

end Zblob

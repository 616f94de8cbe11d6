import Zblob.Answering
import Zblob.Messages
import Zblob.Lib.Machine

/-!
What a peer says it holds: the bitfield of an availability or of a probe's reply, read bit by
bit and counted byte by byte, over vectors of any length.
-/

set_option autoImplicit false

namespace Zblob

/-- `is_set` of both replies. The number of bytes is cut to 32 bits, and an index outside the
vector would stop the computation. -/
def bitIsSet (count : UInt32) (bits : Bytes) (i : Nat) : Option Bool :=
  if ¬ (i < count.toNat ∧ i / 8 < bits.length % 4294967296) then some false
  else do
    let b ← bits[i / 8]?
    let k ← Machine.shift 8 (i % 8)
    some ((b &&& (1 <<< UInt8.ofNat k)) != 0)

structure Counted where
  total : Nat
  visited : Nat
  deriving DecidableEq

def sumOnes (acc : Counted) : Bytes → Option Counted
  | [] => some acc
  | b :: bs => do
    let total ← Machine.add 32 acc.total (Bitfield.countOnes b)
    sumOnes ⟨total, acc.visited + 1⟩ bs

def countBits (bits : Bytes) (limit : UInt32) : Option Counted := do
  let full := limit.toNat / 8
  let n ← sumOnes ⟨0, 0⟩ (bits.take full)
  match bits[full]? with
  | none => some n
  | some last =>
    let rem := limit.toNat % 8
    if rem > 0 then do
      let k ← Machine.shift 8 rem
      let total ← Machine.add 32 n.total (Bitfield.countOnes (last &&& ((1 <<< UInt8.ofNat k) - 1)))
      some ⟨total, n.visited + 1⟩
    else some ⟨n.total, n.visited + 1⟩

def Availability.isSetMachine (a : Availability) (i : Nat) : Option Bool :=
  bitIsSet a.chunkCount a.bits i

def Availability.count (a : Availability) : Option Counted := countBits a.bits a.chunkCount

def HaveBits.isSet (b : HaveBits) (i : Nat) : Option Bool := bitIsSet b.count b.bits i

def HaveBits.countSet (b : HaveBits) : Option Counted := countBits b.bits b.count

theorem bitIsSet_eq (count : UInt32) (bits : Bytes) (i : Nat) :
    bitIsSet count bits i = some
      (decide (i < count.toNat) && decide (i / 8 < bits.length % 4294967296) &&
      Bitfield.testBit bits i) := by
  unfold bitIsSet
  by_cases h : i < count.toNat ∧ i / 8 < bits.length % 4294967296
  · have hin : i / 8 < bits.length := by have := Nat.mod_le bits.length 4294967296; omega
    have hk : i % 8 < 8 := Nat.mod_lt i (by decide)
    rw [if_neg (not_not.mpr h), List.getElem?_eq_getElem hin]
    simp only [Option.bind_eq_bind, Option.bind_some, Machine.shift_eq hk,
      Bitfield.byte_testBit _ _ hk]
    simp [h.1, h.2, Bitfield.testBit, List.getD_eq_getElem?_getD, List.getElem?_eq_getElem hin]
  · rw [if_pos h]
    rcases not_and_or.mp h with h | h
    · simp [h]
    · simp [h]

theorem Availability.isSetMachine_eq (a : Availability) (i : Nat) :
    a.isSetMachine i = some (a.isSet i) := by
  have hk : i % 8 < 8 := Nat.mod_lt i (by decide)
  rw [isSetMachine, bitIsSet_eq, isSet, Bitfield.byte_testBit _ _ hk]
  rfl

theorem sumOnes_eq (acc : Counted) (bs : Bytes)
    (h : acc.total + (bs.map Bitfield.countOnes).sum < 2 ^ 32) :
    sumOnes acc bs =
      some ⟨acc.total + (bs.map Bitfield.countOnes).sum, acc.visited + bs.length⟩ := by
  induction bs generalizing acc with
  | nil => simp [sumOnes]
  | cons b bs ih =>
    simp only [List.map_cons, List.sum_cons] at h
    simp only [sumOnes, Option.bind_eq_bind,
      Machine.add_eq (show acc.total + Bitfield.countOnes b < 2 ^ 32 by omega),
      Option.bind_some]
    rw [ih _ (by simp only; omega)]
    simp only [List.map_cons, List.sum_cons, List.length_cons, Option.some.injEq, Counted.mk.injEq]
    omega

theorem countBits_eq (bits : Bytes) (limit : UInt32) :
    ∃ visited, countBits bits limit =
      some ⟨(List.range limit.toNat).countP (Bitfield.testBit bits), visited⟩ ∧
      visited ≤ bits.length := by
  have hsum := Bitfield.countFrom_take limit.toNat 0 bits
  have hle := Bitfield.countFrom_le limit.toNat bits
  have hlt := limit.toNat_lt
  rw [← Bitfield.countFrom_any]
  simp only [Nat.sub_zero] at hsum
  unfold countBits
  simp only [Option.bind_eq_bind]
  rw [sumOnes_eq ⟨0, 0⟩ _ (by simp only; omega), Option.bind_some]
  cases hget : bits[limit.toNat / 8]? with
  | none =>
    simp only [hget, Option.map_none, Option.getD_none, Nat.add_zero] at hsum
    refine ⟨(bits.take (limit.toNat / 8)).length, by simp only [hsum, Nat.zero_add], ?_⟩
    simp
  | some last =>
    have hin := (List.getElem?_eq_some_iff.mp hget).1
    have hvisited : (bits.take (limit.toNat / 8)).length + 1 ≤ bits.length := by
      rw [List.length_take]
      omega
    simp only [hget, Option.map_some, Option.getD_some] at hsum
    simp only [Nat.zero_add]
    by_cases hrem : limit.toNat % 8 > 0
    · have hk : limit.toNat % 8 < 8 := Nat.mod_lt _ (by decide)
      have hmask : Bitfield.lowMask (limit.toNat % 8) =
          (1 <<< UInt8.ofNat (limit.toNat % 8)) - 1 := by
        rw [Bitfield.lowMask, if_neg (by omega)]
      rw [hmask] at hsum
      rw [if_pos hrem, Machine.shift_eq hk, Option.bind_some, Machine.add_eq (by omega),
        Option.bind_some]
      exact ⟨_, by rw [hsum], hvisited⟩
    · have hzero : limit.toNat % 8 = 0 := by omega
      rw [hzero, Bitfield.countOnes_mask_zero, Nat.add_zero] at hsum
      rw [if_neg hrem]
      exact ⟨_, by rw [hsum], hvisited⟩

structure CountsExactly (counted : Option Counted) (isSet : Nat → Option Bool) (declared : UInt32)
    (bits : Bytes) : Prop where
  total : ∃ c, counted = some c ∧ c.total = (List.range declared.toNat).countP
    (fun i => isSet i = some true) ∧
    c.total ≤ declared.toNat ∧ c.visited ≤ bits.length
  inside : ∀ i, ∃ b, isSet i = some b

/-- No bit is set where the cut length of the vector hides it from a reading bit by bit. -/
def NothingHidden (declared : UInt32) (bits : Bytes) : Prop :=
  ∀ i < declared.toNat, Bitfield.testBit bits i = true → i / 8 < bits.length % 4294967296

theorem nothingHidden_of_lt {declared : UInt32} {bits : Bytes} (h : bits.length < 4294967296) :
    NothingHidden declared bits := by
  intro i _ hset
  by_contra hc
  rw [Bitfield.testBit_past bits (by omega)] at hset
  cases hset

theorem countP_eq_countP_iff {α : Type} {l : List α} {p q : α → Bool}
    (h : ∀ a ∈ l, q a = true → p a = true) :
    l.countP p = l.countP q ↔ ∀ a ∈ l, p a = true → q a = true := by
  have hsplit := List.countP_eq_countP_filter_add l p q
  have hq : (l.filter q).countP p = l.countP q := by
    rw [List.countP_filter]
    apply List.countP_congr
    intro a ha
    simp only [Bool.and_eq_true]
    exact ⟨fun hpq => hpq.2, fun hqa => ⟨h a ha hqa, hqa⟩⟩
  rw [hsplit, hq]
  simp only [Nat.add_eq_left, List.countP_eq_zero, List.mem_filter, Bool.not_eq_true]
  constructor
  · intro hz a ha hp
    by_contra hqa
    exact absurd hp (by simp [hz a ⟨ha, by simpa using hqa⟩])
  · intro himp a ha
    by_contra hp
    have hqa := himp a ha.1 (by simpa using hp)
    simp [hqa] at ha

theorem countsExactly_iff (count : UInt32) (bits : Bytes) :
    CountsExactly (countBits bits count) (bitIsSet count bits) count bits ↔
      NothingHidden count bits := by
  obtain ⟨visited, hcount, hvisited⟩ := countBits_eq bits count
  have hle : (List.range count.toNat).countP (Bitfield.testBit bits) ≤ count.toNat := by
    simpa using List.countP_le_length (p := Bitfield.testBit bits) (l := List.range count.toNat)
  have hkey : (List.range count.toNat).countP (Bitfield.testBit bits) =
      (List.range count.toNat).countP (fun i => bitIsSet count bits i = some true) ↔
      NothingHidden count bits := by
    rw [countP_eq_countP_iff (by intro i _; simp only [bitIsSet_eq]; simp)]
    simp only [bitIsSet_eq, List.mem_range, Option.some.injEq, Bool.and_eq_true, decide_eq_true_eq]
    constructor
    · intro h i hi hset
      exact (h i hi hset).1.2
    · intro h i hi hset
      exact ⟨⟨hi, h i hi hset⟩, hset⟩
  constructor
  · intro h
    obtain ⟨c, hc, htotal, -, -⟩ := h.total
    rw [hcount, Option.some.injEq] at hc
    rw [← hc] at htotal
    exact hkey.mp htotal
  · intro h
    exact ⟨⟨_, hcount, hkey.mpr h, hle, hvisited⟩, fun i => ⟨_, bitIsSet_eq count bits i⟩⟩

def presenceEntry (i : Nat) (bits : Bytes) (yes : Bool) : Option Bytes :=
  let bits := if i % 8 = 0 then bits ++ [0] else bits
  if yes then do
    let last ← Machine.sub bits.length 1
    let k ← Machine.shift 8 (i % 8)
    let b ← bits[last]?
    some (bits.set last (b ||| (1 <<< UInt8.ofNat k)))
  else some bits

def presenceLoop : Nat → Nat → Bytes → List Bool → Option (Nat × Bytes)
  | _, count, bits, [] => some (count, bits)
  | i, count, bits, yes :: rest => do
    let bits ← presenceEntry i bits yes
    let count ← Machine.add 32 count 1
    presenceLoop (i + 1) count bits rest

def HaveBits.fromPresence (present : List Bool) : Option HaveBits :=
  (presenceLoop 0 0 [] present).map fun r => ⟨wireVersion, UInt32.ofNat r.1, r.2⟩

def HaveBits.validate (b : HaveBits) (asked : Nat) : Result Unit :=
  let want := divCeil b.count.toNat 8
  if b.version ≠ wireVersion then .error (.unsupportedVersion b.version)
  else if b.count.toNat ≠ asked then
    .error (.malformedMessage
      (s!"probe answered {b.count.toNat} entries for a want-list of {asked}"))
  else if b.bits.length ≠ want then
    .error (.malformedMessage (s!"probe bitfield is {b.bits.length} bytes, expected {want}"))
  else .ok ()

/-- The bits hold the answers given so far and nothing else. -/
structure Answers (bits : Bytes) (given : List Bool) : Prop where
  sized : bits.length = divCeil given.length 8
  bit : ∀ j, Bitfield.testBit bits j = given.getD j false

theorem getD_append_singleton (given : List Bool) (yes : Bool) (j : Nat) :
    (given ++ [yes]).getD j false = (given.getD j false || (decide (given.length = j) && yes)) := by
  rw [List.getD_eq_getElem?_getD, List.getElem?_append, List.getD_eq_getElem?_getD]
  split
  · rename_i h
    have hne : given.length ≠ j := by omega
    simp [hne]
  · rename_i h
    rw [List.getElem?_eq_none (by omega : given.length ≤ j), Option.getD_none, Bool.false_or]
    by_cases heq : given.length = j
    · simp [heq]
    · rw [List.getElem?_eq_none (by simp only [List.length_singleton]; omega)]
      simp [heq]

theorem presenceEntry_answers {bits : Bytes} {given : List Bool}
    (h : Answers bits given) (yes : Bool) :
    ∃ bits', presenceEntry given.length bits yes = some bits' ∧ Answers bits' (given ++ [yes]) := by
  have hsized := h.sized
  unfold divCeil at hsized
  -- a byte is appended when the entries so far fill whole bytes
  obtain ⟨grown, hgrown, hlen, hbit⟩ : ∃ grown,
      (if given.length % 8 = 0 then bits ++ [0] else bits) = grown ∧
      grown.length = given.length / 8 + 1 ∧ ∀ j, Bitfield.testBit grown j = given.getD j false := by
    by_cases hfull : given.length % 8 = 0
    · refine ⟨bits ++ [0], if_pos hfull, ?_, fun j => ?_⟩
      · simp only [List.length_append, List.length_singleton, hsized, hfull]
        simp
      · rw [Bitfield.testBit_append_zero, h.bit]
    · refine ⟨bits, if_neg hfull, ?_, h.bit⟩
      rw [hsized, if_pos (by omega)]
  have hnext : (given ++ [yes]).length = given.length + 1 := by simp
  have hceil : divCeil (given.length + 1) 8 = given.length / 8 + 1 := by
    unfold divCeil
    split <;> omega
  simp only [presenceEntry, hgrown]
  cases yes with
  | false =>
    refine ⟨grown, rfl, by rw [hnext, hceil, hlen], fun j => ?_⟩
    rw [hbit, getD_append_singleton]
    simp
  | true =>
    have hin : given.length / 8 < grown.length := by omega
    have hk : given.length % 8 < 8 := Nat.mod_lt _ (by decide)
    have hset : grown.set (given.length / 8)
        (grown[given.length / 8] ||| (1 <<< UInt8.ofNat (given.length % 8))) =
          Bitfield.setBit grown given.length := by
      simp [Bitfield.setBit, List.modify_eq_set_getElem?, List.getElem?_eq_getElem hin]
    refine ⟨Bitfield.setBit grown given.length, ?_, ?_, fun j => ?_⟩
    · simp only [if_true, Option.bind_eq_bind, Machine.sub_eq (show 1 ≤ grown.length by omega),
        Option.bind_some,
        Machine.shift_eq hk]
      rw [show grown.length - 1 =
        given.length / 8 by omega, List.getElem?_eq_getElem hin, Option.bind_some, hset]
    · rw [Bitfield.setBit_length, hnext, hceil, hlen]
    · rw [Bitfield.testBit_setBit hin, hbit, getD_append_singleton]
      simp

theorem presenceLoop_answers (rest : List Bool) (bits : Bytes) (given : List Bool)
    (h : Answers bits given)
    (hlt : given.length + rest.length < 2 ^ 32) :
    ∃ bits', presenceLoop given.length given.length bits rest = some
      ((given ++ rest).length, bits') ∧
      Answers bits' (given ++ rest) := by
  induction rest generalizing bits given with
  | nil => exact ⟨bits, by simp [presenceLoop], by simpa using h⟩
  | cons yes rest ih =>
    obtain ⟨grown, hentry, hanswers⟩ := presenceEntry_answers h yes
    simp only [List.length_cons] at hlt
    obtain ⟨bits', hloop, hfinal⟩ := ih grown (given ++ [yes]) hanswers (by simp; omega)
    simp only [List.length_append, List.length_singleton, List.append_assoc,
      List.singleton_append] at hloop hfinal
    refine ⟨bits', ?_, hfinal⟩
    simp only [presenceLoop, hentry, Option.bind_eq_bind, Option.bind_some,
      Machine.add_eq (show given.length + 1 < 2 ^ 32 by omega)]
    simpa using hloop

def AnswersInOrder (present : List Bool) : Prop :=
  ∃ b, HaveBits.fromPresence present = some b ∧ b.validate present.length = .ok () ∧
    ∀ i, b.isSet i = some (present.getD i false)

theorem fromPresence_answers (present : List Bool) (h : present.length < 2 ^ 32) :
    AnswersInOrder present := by
  have hnil : Answers [] [] := ⟨rfl, fun j => by simp [Bitfield.testBit]⟩
  obtain ⟨bits, hloop, hanswers⟩ := presenceLoop_answers present [] [] hnil (by simpa using h)
  simp only [List.nil_append, List.length_nil] at hloop hanswers
  have hcount : (UInt32.ofNat present.length).toNat = present.length := UInt32.toNat_ofNat_of_lt' h
  have hsized := hanswers.sized
  have hshort : bits.length < 4294967296 := by
    unfold divCeil at hsized
    split at hsized <;> omega
  refine ⟨⟨wireVersion, UInt32.ofNat present.length, bits⟩,
    by simp [HaveBits.fromPresence, hloop], ?_, fun i => ?_⟩
  · simp [HaveBits.validate, hcount, hsized]
  · rw [HaveBits.isSet, bitIsSet_eq, hanswers.bit, hcount, Nat.mod_eq_of_lt hshort]
    by_cases hi : i < present.length
    · have hbyte : i / 8 < bits.length := by
        rw [hsized, lt_divCeil_iff (by decide)]
        omega
      simp [hi, hbyte]
    · simp [hi, List.getD_eq_getElem?_getD]

/-- Counts agree with the reading bit by bit, stay within what was declared and cost what was sent,
where no set bit lies in a byte that a length cut to 32 bits leaves out; and a reply built here says
what it was told. -/
theorem bitfields_exact_iff (a : Availability) (b : HaveBits) (present : List Bool) :
    (CountsExactly a.count a.isSetMachine a.chunkCount a.bits ↔ NothingHidden a.chunkCount a.bits) ∧
    (CountsExactly b.countSet b.isSet b.count b.bits ↔ NothingHidden b.count b.bits) ∧
    (present.length < 2 ^ 32 → AnswersInOrder present) :=
  ⟨countsExactly_iff a.chunkCount a.bits, countsExactly_iff b.count b.bits,
    fromPresence_answers present⟩

theorem bitfields_exact_small :
    CountsExactly (Availability.count ⟨3, 10, [255, 255]⟩)
      (Availability.isSetMachine ⟨3, 10, [255, 255]⟩) 10
      [255, 255] ∧
    CountsExactly (HaveBits.countSet ⟨3, 3, [6]⟩) (HaveBits.isSet ⟨3, 3, [6]⟩) 3 [6] ∧
    AnswersInOrder [true, false, true] := by
  obtain ⟨havailable, hhave, hanswers⟩ :=
    bitfields_exact_iff ⟨3, 10, [255, 255]⟩ ⟨3, 3, [6]⟩ [true, false, true]
  exact ⟨havailable.mpr (nothingHidden_of_lt (by decide)),
    hhave.mpr (nothingHidden_of_lt (by decide)),
    hanswers (by decide)⟩

/-- A vector of 2^32 bytes looks empty to the reading bit by bit, and its bits are counted. -/
theorem long_vector_miscounted :
    ¬ CountsExactly (Availability.count ⟨3, 1, List.replicate 4294967296 1⟩)
      (Availability.isSetMachine ⟨3, 1, List.replicate 4294967296 1⟩) 1
      (List.replicate 4294967296 1) := by
  intro h
  have hhidden := (countsExactly_iff 1 (List.replicate 4294967296 1)).mp h
  have hbit : Bitfield.testBit (List.replicate 4294967296 1) 0 = true := by
    rw [Bitfield.testBit, List.getD_eq_getElem?_getD, List.getElem?_replicate]
    rfl
  have hbyte := hhidden 0 (by decide) hbit
  rw [List.length_replicate] at hbyte
  exact absurd hbyte (by decide)

def Availability.validate (a : Availability) (maxChunks : UInt32) : Result Unit :=
  let want := divCeil a.chunkCount.toNat 8
  if a.version ≠ wireVersion then .error (.unsupportedVersion a.version)
  else if a.chunkCount > maxChunks then
    .error (.malformedMessage
      (s!"availability claims {a.chunkCount.toNat} chunks, over the limit of {maxChunks.toNat}"))
  else if a.bits.length ≠ want then
    .error (.malformedMessage
      (s!"availability bitfield is {a.bits.length} bytes, " ++
        s!"expected {want} for {a.chunkCount.toNat} chunks"))
  else .ok ()

/-- The limit of `fetch_availability`: a quotient of two `u64`, cast to `u32`. -/
def fetchAvailabilityLimit (maxBlobSize : UInt64) : UInt32 :=
  UInt32.ofNat (divCeil maxBlobSize.toNat minChunkSize)

def probeLimit (m : Manifest) : UInt32 :=
  match m.chunkCount with
  | .ok n => UInt32.ofNat n
  | .error _ => UInt32.ofNat u32Max

theorem Availability.validate_ok_iff (a : Availability) (maxChunks : UInt32) :
    a.validate maxChunks = .ok () ↔
      a.version = wireVersion ∧ a.chunkCount.toNat ≤ maxChunks.toNat ∧
      a.bits.length = divCeil a.chunkCount.toNat 8 := by
  unfold validate
  by_cases hversion : a.version = wireVersion
  · by_cases hcount : a.chunkCount > maxChunks
    · have hnat : ¬ a.chunkCount.toNat ≤ maxChunks.toNat := by
        have := UInt32.lt_iff_toNat_lt.mp hcount
        omega
      simp [hversion, hcount, hnat]
    · have hnat : a.chunkCount.toNat ≤ maxChunks.toNat := by
        have := mt UInt32.lt_iff_toNat_lt.mpr hcount
        omega
      simp [hversion, hcount, hnat]
  · simp [hversion]

theorem full_bits (count : UInt32) :
    (Tier1.Availability.full count).bits = List.replicate (count.toNat / 8) 255 ++
      if count.toNat % 8 = 0 then [] else [Bitfield.lowMask (count.toNat % 8)] := by
  have hmod : count.toNat % 8 < 8 := Nat.mod_lt _ (by decide)
  unfold Tier1.Availability.full divCeil
  by_cases h : count.toNat % 8 = 0
  · simp [h]
  · simp only [if_neg h, if_pos (show count.toNat % 8 > 0 by omega),
      List.dropLast_replicate, Nat.add_sub_cancel]
    rw [Bitfield.lowMask, if_neg (by omega)]

theorem full_length (count : UInt32) :
    (Tier1.Availability.full count).bits.length = divCeil count.toNat 8 := by
  rw [full_bits]
  unfold divCeil
  by_cases h : count.toNat % 8 = 0
  · simp [h]
  · simp [h, Nat.pos_of_ne_zero h]

theorem full_testBit (count : UInt32) (i : Nat) :
    Bitfield.testBit (Tier1.Availability.full count).bits i = decide (i < count.toNat) := by
  have hsplit : 8 * (count.toNat / 8) + count.toNat % 8 = count.toNat := Nat.div_add_mod _ _
  rw [full_bits, Bitfield.testBit_ones _ _ _ (Nat.mod_lt _ (by decide)), hsplit]

theorem full_isSet (count : UInt32) (i : Nat) :
    (Tier1.Availability.full count).isSetMachine i = some (decide (i < count.toNat)) := by
  have hlt := count.toNat_lt
  have hlen := full_length count
  have hshort : (Tier1.Availability.full count).bits.length < 4294967296 := by
    unfold divCeil at hlen
    split at hlen <;> omega
  rw [Availability.isSetMachine, bitIsSet_eq, full_testBit, Nat.mod_eq_of_lt hshort, hlen]
  by_cases hi : i < count.toNat
  · have hbyte : i / 8 < divCeil count.toNat 8 := by
      rw [lt_divCeil_iff (by decide)]
      omega
    have hdeclared : i < (Tier1.Availability.full count).chunkCount.toNat := hi
    simp [hi, hbyte, hdeclared]
  · simp [hi]

theorem full_count (count : UInt32) :
    ∃ visited, (Tier1.Availability.full count).count = some ⟨count.toNat, visited⟩ := by
  obtain ⟨visited, hcount, -⟩ := countBits_eq (Tier1.Availability.full count).bits count
  have hall : (List.range count.toNat).countP
      (Bitfield.testBit (Tier1.Availability.full count).bits) = count.toNat := by
    have hevery : ∀ i ∈ List.range count.toNat, Bitfield.testBit
        (Tier1.Availability.full count).bits i = true := by
      intro i hi
      rw [full_testBit]
      simpa using hi
    rw [List.countP_eq_length.mpr hevery, List.length_range]
  exact ⟨visited, by rw [Availability.count, ← hall]; exact hcount⟩

theorem full_valid_iff (count maxChunks : UInt32) :
    (Tier1.Availability.full count).validate maxChunks = .ok () ↔
      count.toNat ≤ maxChunks.toNat := by
  rw [Availability.validate_ok_iff, full_length]
  simp [Tier1.Availability.full]

def HonestAccepted (maxBlobSize : UInt64) (m : Manifest) (c : TransferChunks) : Prop :=
  let reply := Tier1.Availability.full (UInt32.ofNat c.count)
  reply.validate (fetchAvailabilityLimit maxBlobSize) = .ok () ∧
    reply.validate (probeLimit m) = .ok () ∧
    (∀ i, reply.isSetMachine i = some (decide (i < c.count))) ∧
    ∃ visited, reply.count = some ⟨c.count, visited⟩

theorem totalLen_le_of_validate {m : Manifest} {maxBlobSize : UInt64}
    (h : m.validate maxBlobSize = .ok ()) :
    m.totalLen.toNat ≤ maxBlobSize.toNat := by
  unfold Manifest.validate at h
  split at h
  · cases h
  · split at h
    · cases h
    · split at h
      · cases h
      · rename_i hle
        have := mt UInt64.lt_iff_toNat_lt.mpr hle
        omega

theorem chunks_within_limit {m : Manifest} {c : TransferChunks} {maxBlobSize : UInt64}
    (hvalid : m.validate maxBlobSize = .ok ()) (hchunks : m.chunks = .ok c) :
    c.count ≤ divCeil maxBlobSize.toNat minChunkSize := by
  have hlen : c.totalLen.toNat ≤ maxBlobSize.toNat := by
    rw [(Manifest.chunks_ok hchunks).2]
    exact totalLen_le_of_validate hvalid
  by_contra hc
  have hlast := c.lt_count_iff.mp (show divCeil maxBlobSize.toNat minChunkSize < c.count by omega)
  have hcover := le_divCeil_mul (a := maxBlobSize.toNat) (b := minChunkSize) (by decide)
  have hsize := Nat.mul_le_mul_left (divCeil maxBlobSize.toNat minChunkSize) c.sizeOk.1
  omega

theorem honestAccepted_iff {m : Manifest} {c : TransferChunks} (maxBlobSize : UInt64)
    (hchunks : m.chunks = .ok c) :
    HonestAccepted maxBlobSize m c ↔ c.count ≤ divCeil maxBlobSize.toNat
      minChunkSize % 4294967296 := by
  have hcount : (UInt32.ofNat c.count).toNat = c.count := UInt32.toNat_ofNat_of_lt' c.count_lt
  have hprobe : probeLimit m = UInt32.ofNat c.count := by
    simp only [probeLimit, Manifest.chunkCount, hchunks]
    rfl
  have hlimit : (fetchAvailabilityLimit maxBlobSize).toNat =
      divCeil maxBlobSize.toNat minChunkSize % 4294967296 := by
    rw [fetchAvailabilityLimit, UInt32.toNat_ofNat']
  obtain ⟨visited, hfull⟩ := full_count (UInt32.ofNat c.count)
  rw [hcount] at hfull
  simp only [HonestAccepted]
  rw [full_valid_iff, full_valid_iff, hprobe, hlimit, hcount]
  constructor
  · intro h
    exact h.1
  · intro h
    exact ⟨h, Nat.le_refl _, fun i => by rw [full_isSet, hcount], visited, hfull⟩

/-- The holder's reply gets through when the client's limit fits 32 bits, or when what the cast
leaves of it still covers the blob. -/
theorem honest_availability_iff (maxBlobSize : UInt64) (m : Manifest) (c : TransferChunks)
    (hvalid : m.validate maxBlobSize = .ok ()) (hchunks : m.chunks = .ok c) :
    HonestAccepted maxBlobSize m c ↔
      divCeil maxBlobSize.toNat minChunkSize < 4294967296 ∨
        c.count ≤ divCeil maxBlobSize.toNat minChunkSize % 4294967296 := by
  have hwithin := chunks_within_limit hvalid hchunks
  rw [honestAccepted_iff maxBlobSize hchunks]
  constructor
  · exact .inr
  · rintro (hfits | h)
    · rwa [Nat.mod_eq_of_lt hfits]
    · exact h

theorem pair_sizeOk : SizeOk 65536 := by decide

theorem pair_countOk : divCeil (100000 : UInt64).toNat (65536 : UInt32).toNat ≤ u32Max := by decide

theorem pairId_valid : BlobId.isValid "a" = true := by decide

def pairManifest : Manifest :=
  ⟨wireVersion, ⟨"a", pairId_valid⟩, none, 100000, 65536,
    ⟨List.replicate 32 0, zeros_length⟩, 0, Ext.new⟩

def pairGeometry : TransferChunks := ⟨65536, 100000, pair_sizeOk, pair_countOk⟩

theorem pairManifest_chunks : pairManifest.chunks = .ok pairGeometry :=
  TransferChunks.new_self pairGeometry

theorem honest_availability_small :
    HonestAccepted 100000 pairManifest pairGeometry ↔
      divCeil 100000 minChunkSize < 4294967296 ∨ pairGeometry.count ≤
      divCeil 100000 minChunkSize % 4294967296 :=
  honest_availability_iff 100000 pairManifest pairGeometry (by decide) pairManifest_chunks

/-- With a client limit of 2^48 bytes the cast leaves zero chunks, and every holder is refused. -/
theorem wrapped_limit_refuses :
    pairManifest.validate 281474976710656 = .ok () ∧ pairManifest.chunks = .ok pairGeometry ∧
      ¬ HonestAccepted 281474976710656 pairManifest pairGeometry := by
  refine ⟨by decide, pairManifest_chunks, ?_⟩
  rw [honestAccepted_iff 281474976710656 pairManifest_chunks]
  decide

end Zblob

import Mathlib.Algebra.Group.Nat.Defs
import Mathlib.Data.List.Basic
import Mathlib.Data.Set.List
import Mathlib.Tactic.Common

/-!
Codecs of self-delimiting values: a decoder takes back what its encoder wrote and hands on
the bytes after it, so codecs can be put one after the other.
-/

set_option autoImplicit false

structure Codec (α : Type) where
  enc : α → List UInt8
  dec : List UInt8 → Option (α × List UInt8)
  filled : ∀ a, enc a ≠ []
  back : ∀ a rest, dec (enc a ++ rest) = some (a, rest)

namespace Codec

variable {α β : Type}

def read (c : Codec α) (data : List UInt8) : Option α := (c.dec data).map Prod.fst

theorem read_enc (c : Codec α) (a : α) : c.read (c.enc a) = some a := by
  have h := c.back a []
  rw [List.append_nil] at h
  rw [read, h]
  rfl

theorem enc_injective (c : Codec α) : Function.Injective c.enc := by
  intro a b h
  have hb := c.read_enc b
  rw [← h, c.read_enc a] at hb
  exact Option.some.inj hb

def byte : Codec UInt8 where
  enc b := [b]
  dec
    | [] => none
    | b :: rest => some (b, rest)
  filled _ := List.cons_ne_nil _ _
  back _ _ := rfl

def varint : Nat → Nat → List UInt8
  | 0, n => [UInt8.ofNat n]
  | fuel + 1, n =>
    if n < 128 then [UInt8.ofNat n] else UInt8.ofNat (n % 128 + 128) :: varint fuel (n / 128)

theorem varint_ne_nil (fuel n : Nat) : varint fuel n ≠ [] := by
  cases fuel with
  | zero => exact List.cons_ne_nil _ _
  | succ fuel =>
    unfold varint
    split
    · exact List.cons_ne_nil _ _
    · exact List.cons_ne_nil _ _

/-- A number in at most `g` groups; the last of them may be zero. -/
def readVarint : Nat → List UInt8 → Option (Nat × List UInt8)
  | 0, _ => none
  | _ + 1, [] => none
  | g + 1, b :: rest =>
    if b.toNat < 128 then some (b.toNat, rest)
    else (readVarint g rest).map fun r => (b.toNat - 128 + 128 * r.1, r.2)

theorem readVarint_varint {g fuel n : Nat} (h : n ≤ fuel) (hg : n < 128 ^ (g + 1))
    (rest : List UInt8) :
    readVarint (g + 1) (varint fuel n ++ rest) = some (n, rest) := by
  induction fuel generalizing g n with
  | zero =>
    have hn : n = 0 := by omega
    subst hn
    rfl
  | succ fuel ih =>
    unfold varint
    split
    · rename_i hsmall
      have hb : (UInt8.ofNat n).toNat = n := by simp; omega
      simp [readVarint, hb, hsmall]
    · rename_i hlarge
      have hb : (UInt8.ofNat (n % 128 + 128)).toNat = n % 128 + 128 := by simp; omega
      have hbig : ¬ n % 128 + 128 < 128 := by omega
      cases g with
      | zero => exact absurd (by simpa using hg) hlarge
      | succ g =>
        have hrest : n / 128 < 128 ^ (g + 1) := by
          rw [Nat.pow_succ] at hg
          exact Nat.div_lt_of_lt_mul (by omega)
        simp only [List.cons_append, readVarint, hb, if_neg hbig] at ih ⊢
        rw [ih (by omega) hrest, Option.map_some, Option.some.injEq, Prod.mk.injEq]
        exact ⟨by omega, rfl⟩

def uint (w : Nat) : Codec (Fin (2 ^ w)) where
  enc n := varint n n
  dec data := (readVarint (w / 7 + 1) data).bind fun r =>
    if h : r.1 < 2 ^ w then some (⟨r.1, h⟩, r.2) else none
  filled n := varint_ne_nil n n
  back n rest := by
    have hbits : 2 ^ w ≤ 128 ^ (w / 7 + 1) := by
      rw [show (128 : Nat) = 2 ^ 7 from rfl, ← Nat.pow_mul]
      exact Nat.pow_le_pow_right (by decide) (by omega)
    rw [readVarint_varint (Nat.le_refl _) (Nat.lt_of_lt_of_le n.isLt hbits)]
    simp

example : (uint 32).read [0x80, 0x80, 0x80, 0x80, 0x80, 0x00] = none := by decide

/-- The count in front of a sequence, which has 64 bits. No slice is `2 ^ 64` bytes long; an input
that is takes any count, for the sake of lists that no machine holds. -/
def readCount (data : List UInt8) : Option (Nat × List UInt8) :=
  if data.length < 2 ^ 64 then ((uint 64).dec data).map fun r => (r.1.val, r.2)
  else readVarint data.length data

theorem readCount_varint {n : Nat} {rest : List UInt8} (h : n ≤ rest.length) :
    readCount (varint n n ++ rest) = some (n, rest) := by
  unfold readCount
  have hlong : rest.length < (varint n n ++ rest).length := by
    rw [List.length_append]
    have := List.length_pos_iff.mpr (varint_ne_nil n n)
    omega
  split
  · rename_i hshort
    have hback := (uint 64).back ⟨n, by omega⟩ rest
    change (uint 64).dec (varint n n ++ rest) = _ at hback
    rw [hback]
    rfl
  · obtain ⟨g, hg⟩ : ∃ g, (varint n n ++ rest).length = g + 1 :=
      ⟨_, (Nat.succ_pred_eq_of_pos (by omega)).symm⟩
    have hpow : g + 1 < 128 ^ (g + 1) := Nat.lt_pow_self (by decide)
    rw [hg, readVarint_varint (Nat.le_refl n) (by omega)]

def pmap (c : Codec α) (put : β → α) (get : α → Option β) (h : ∀ b, get (put b) = some b) :
    Codec β where
  enc b := c.enc (put b)
  dec data := (c.dec data).bind fun r => (get r.1).map fun b => (b, r.2)
  filled b := c.filled (put b)
  back b rest := by simp [c.back, h]

def bool : Codec Bool :=
  byte.pmap (fun b => if b then 1 else 0)
    (fun n => if n = 0 then some false else if n = 1 then some true else none)
    fun b => by cases b <;> rfl

def option (c : Codec α) : Codec (Option α) where
  enc
    | none => bool.enc false
    | some a => bool.enc true ++ c.enc a
  dec data := (bool.dec data).bind fun r =>
    if r.1 then (c.dec r.2).map fun s => (some s.1, s.2) else some (none, r.2)
  filled o := by cases o <;> simp [bool.filled]
  back o rest := by cases o <;> simp [bool.back, c.back]

def pair (c : Codec α) (d : Codec β) : Codec (α × β) where
  enc p := c.enc p.1 ++ d.enc p.2
  dec data := (c.dec data).bind fun r => (d.dec r.2).map fun s => ((r.1, s.1), s.2)
  filled p := by simp [c.filled]
  back p rest := by simp [c.back, d.back]

def kinded {ι : Type} {F : ι → Type} (c : Codec ι) (d : ∀ i, Codec (F i)) : Codec (Sigma F) where
  enc p := c.enc p.1 ++ (d p.1).enc p.2
  dec data := (c.dec data).bind fun r => ((d r.1).dec r.2).map fun s => (⟨r.1, s.1⟩, s.2)
  filled p := by simp [c.filled]
  back p rest := by simp [c.back, (d _).back]

def times (c : Codec α) : Nat → List UInt8 → Option (List α × List UInt8)
  | 0, data => some ([], data)
  | n + 1, data => (c.dec data).bind fun r => (times c n r.2).map fun s => (r.1 :: s.1, s.2)

theorem times_enc (c : Codec α) (as : List α) (rest : List UInt8) :
    c.times as.length (as.flatMap c.enc ++ rest) = some (as, rest) := by
  induction as with
  | nil => rfl
  | cons a as ih => simp [times, c.back, ih]

theorem length_le_flatMap_enc (c : Codec α) (as : List α) :
    as.length ≤ (as.flatMap c.enc).length := by
  induction as with
  | nil => exact Nat.zero_le _
  | cons a as ih =>
    have := List.length_pos_iff.mpr (c.filled a)
    rw [List.flatMap_cons, List.length_append, List.length_cons]
    omega

def list (c : Codec α) : Codec (List α) where
  enc as := varint as.length as.length ++ as.flatMap c.enc
  dec data := (readCount data).bind fun r => c.times r.1 r.2
  filled as := by simp [varint_ne_nil]
  back as rest := by
    have hcount : as.length ≤ (as.flatMap c.enc ++ rest).length := by
      rw [List.length_append]
      exact Nat.le_trans (c.length_le_flatMap_enc as) (Nat.le_add_right _ _)
    rw [List.append_assoc, readCount_varint hcount]
    exact c.times_enc as rest

theorem pair_dec {c : Codec α} {d : Codec β} {data rest : List UInt8} {a : α} {b : β} :
    (c.pair d).dec data = some ((a, b), rest) ↔
      ∃ mid, c.dec data = some (a, mid) ∧ d.dec mid = some (b, rest) := by
  simp only [pair, Option.bind_eq_some_iff, Option.map_eq_some_iff, Prod.mk.injEq, Prod.exists]
  constructor
  · rintro ⟨a', mid, ha, b', rest', hb, ⟨rfl, rfl⟩, rfl⟩
    exact ⟨mid, ha, hb⟩
  · rintro ⟨mid, ha, hb⟩
    exact ⟨a, mid, ha, b, rest, hb, ⟨rfl, rfl⟩, rfl⟩

theorem times_cons {c : Codec α} {n : Nat} {data rest : List UInt8} {a : α} {as : List α} :
    c.times (n + 1) data = some (a :: as, rest) ↔
      ∃ mid, c.dec data = some (a, mid) ∧ c.times n mid = some (as, rest) := by
  simp only [times, Option.bind_eq_some_iff, Option.map_eq_some_iff,
    Prod.mk.injEq, Prod.exists, List.cons.injEq]
  constructor
  · rintro ⟨a', mid, ha, as', rest', has, ⟨rfl, rfl⟩, rfl⟩
    exact ⟨mid, ha, has⟩
  · rintro ⟨mid, ha, has⟩
    exact ⟨a, mid, ha, as, rest, has, ⟨rfl, rfl⟩, rfl⟩

theorem times_nil {c : Codec α} {n : Nat} {data rest : List UInt8} :
    c.times (n + 1) data ≠ some ([], rest) := by
  intro h
  simp [times, Option.bind_eq_some_iff] at h

theorem kinded_dec {ι : Type} {F : ι → Type} {k : Codec ι} {c : ∀ i, Codec (F i)}
    {data rest : List UInt8}
    {i : ι} {a : F i} : (kinded k c).dec data = some (⟨i, a⟩, rest) ↔
      ∃ mid, k.dec data = some (i, mid) ∧ (c i).dec mid = some (a, rest) := by
  simp only [kinded, Option.bind_eq_some_iff, Option.map_eq_some_iff, Prod.mk.injEq, Prod.exists]
  constructor
  · rintro ⟨i', mid, hi, a', rest', ha, hp, rfl⟩
    cases hp
    exact ⟨mid, hi, ha⟩
  · rintro ⟨mid, hi, ha⟩
    exact ⟨i, mid, hi, a, rest, ha, rfl, rfl⟩

/-- `c` handles the bytes of `raw`, and the plain values that pass `Sound` are those it reads. -/
structure Checked {ρ : Type} (c : Codec α) (raw : Codec ρ) (plain : α → ρ)
    (Sound : ρ → Prop) : Prop where
  enc : ∀ a, c.enc a = raw.enc (plain a)
  dec : ∀ data a rest, c.dec data = some (a, rest) ↔ raw.dec data = some (plain a, rest)
  covers : ∀ r, Sound r ↔ ∃ a, plain a = r

namespace Checked

variable {ρ σ : Type} {c : Codec α} {d : Codec β} {raw : Codec ρ} {raw' : Codec σ}
  {plain : α → ρ} {plain' : β → σ} {Sound : ρ → Prop} {Sound' : σ → Prop}

theorem read (h : c.Checked raw plain Sound) {data : List UInt8} {a : α} :
    c.read data = some a ↔ raw.read data = some (plain a) := by
  simp only [Codec.read, Option.map_eq_some_iff, Prod.exists, exists_and_right, exists_eq_right]
  exact exists_congr fun rest => h.dec data a rest

theorem sound (h : c.Checked raw plain Sound) (a : α) : Sound (plain a) := (h.covers _).mpr ⟨a, rfl⟩

theorem read_iff (h : c.Checked raw plain Sound) {data : List UInt8}
    {r : ρ} (hr : raw.read data = some r) :
    (∃ a, c.read data = some a) ↔ Sound r := by
  rw [h.covers]
  refine exists_congr fun a => ?_
  rw [h.read, hr, Option.some.injEq, eq_comm]

theorem free (c : Codec α) : c.Checked c id fun _ => True where
  enc _ := rfl
  dec _ _ _ := Iff.rfl
  covers r := ⟨fun _ => ⟨r, rfl⟩, fun _ => trivial⟩

theorem imp_iff (h : c.Checked raw plain Sound) {Other : ρ → Prop} (ho : ∀ r, Other r ↔ Sound r) :
    c.Checked raw plain Other where
  enc := h.enc
  dec := h.dec
  covers r := (ho r).trans (h.covers r)

theorem pmap (h : c.Checked raw plain Sound) {put : β → α} {get : α → Option β}
    {hb : ∀ b, get (put b) = some b}
    {Other : ρ → Prop} (hget : ∀ a b, get a = some b → put b = a)
    (ho : ∀ r, Other r ↔ ∃ b, plain (put b) = r) :
    (c.pmap put get hb).Checked raw (fun b => plain (put b)) Other where
  enc b := h.enc (put b)
  dec data b rest := by
    rw [← h.dec]
    simp only [Codec.pmap, Option.bind_eq_some_iff, Option.map_eq_some_iff,
      Prod.mk.injEq, Prod.exists]
    constructor
    · rintro ⟨a, rest', hdec, b', hb', rfl, rfl⟩
      rw [hget a b' hb']
      exact hdec
    · intro hdec
      exact ⟨put b, rest, hdec, b, hb b, rfl, rfl⟩
  covers := ho

theorem pair (h : c.Checked raw plain Sound) (h' : d.Checked raw' plain' Sound') :
    (c.pair d).Checked (raw.pair raw') (fun p => (plain p.1, plain' p.2))
    (fun r => Sound r.1 ∧ Sound' r.2) where
  enc p := by simp only [Codec.pair, h.enc, h'.enc]
  dec data p rest := by
    obtain ⟨a, b⟩ := p
    simp only [pair_dec, h.dec, h'.dec]
  covers r := by
    rw [h.covers, h'.covers]
    constructor
    · rintro ⟨⟨a, ha⟩, b, hb⟩
      exact ⟨(a, b), Prod.ext ha hb⟩
    · rintro ⟨p, rfl⟩
      exact ⟨⟨p.1, rfl⟩, p.2, rfl⟩

theorem times (h : c.Checked raw plain Sound) {n : Nat} {data rest : List UInt8} {as : List α} :
    c.times n data = some (as, rest) ↔ raw.times n data = some (as.map plain, rest) := by
  induction n generalizing data as with
  | zero => cases as <;> simp [Codec.times]
  | succ n ih =>
    cases as with
    | nil => exact iff_of_false times_nil times_nil
    | cons a as => simp only [List.map_cons, times_cons, h.dec, ih]

theorem list (h : c.Checked raw plain Sound) :
    c.list.Checked raw.list (List.map plain) fun r => ∀ x ∈ r, Sound x where
  enc as := by
    have hpart : as.flatMap c.enc = as.flatMap fun a => raw.enc (plain a) :=
      List.flatMap_congr fun a _ => h.enc a
    simp only [Codec.list, List.length_map, List.flatMap_map, hpart]
  dec data as rest := by
    simp only [Codec.list, Option.bind_eq_some_iff, h.times]
  covers r := by
    have hrange : (∀ x ∈ r, Sound x) ↔ ∀ x ∈ r, ∃ a, plain a = x :=
      forall_congr' fun x => imp_congr_right fun _ => h.covers x
    exact hrange.trans (Set.ext_iff.mp (Set.range_list_map plain) r).symm

theorem kinded {ι : Type} {F G : ι → Type} (k : Codec ι) {c : ∀ i, Codec (F i)}
    {raw : ∀ i, Codec (G i)}
    {plain : ∀ i, F i → G i} {Sound : ∀ i, G i → Prop}
    (h : ∀ i, (c i).Checked (raw i) (plain i) (Sound i)) :
    (Codec.kinded k c).Checked (Codec.kinded k raw) (fun p => ⟨p.1, plain p.1 p.2⟩)
    (fun r => Sound r.1 r.2) where
  enc p := by simp only [Codec.kinded, (h p.1).enc]
  dec data p rest := by
    obtain ⟨i, a⟩ := p
    simp only [kinded_dec, (h i).dec]
  covers r := by
    rw [(h r.1).covers]
    constructor
    · rintro ⟨a, ha⟩
      exact ⟨⟨r.1, a⟩, by rw [ha]⟩
    · rintro ⟨p, rfl⟩
      exact ⟨p.2, rfl⟩

end Checked

end Codec

import Mathlib.Data.List.Basic
import Mathlib.Data.List.GetD
import Mathlib.Tactic.Common

/-!
Byte files with positional writes: what `set_len`, `write` and a read of a byte
range do to a file's contents, and how a sequence of contiguous pieces written
one after the other adds up to one write.
-/

set_option autoImplicit false

namespace ByteFile

abbrev Bytes := List UInt8

def setLen (f : Bytes) (n : Nat) : Bytes :=
  f.take n ++ List.replicate (n - f.length) 0

/-- A write of `d` at offset `off`. A hole before `off` reads as zeros; writing
no bytes changes nothing, not even the length. -/
def writeAt (f : Bytes) (off : Nat) (d : Bytes) : Bytes :=
  if d.isEmpty then f else setLen f off ++ d ++ f.drop (off + d.length)

def window (f : Bytes) (a b : Nat) : Bytes := (f.drop a).take (b - a)

@[simp] theorem setLen_length (f : Bytes) (n : Nat) : (setLen f n).length = n := by
  simp [setLen]; omega

theorem setLen_self (f : Bytes) : setLen f f.length = f := by simp [setLen]

theorem setLen_of_le {f : Bytes} {n : Nat} (h : n ≤ f.length) : setLen f n = f.take n := by
  have h0 : n - f.length = 0 := by omega
  simp [setLen, h0]

@[simp] theorem writeAt_nil (f : Bytes) (off : Nat) : writeAt f off [] = f := rfl

theorem writeAt_eq {f d : Bytes} {off : Nat} (h : off + d.length ≤ f.length) :
    writeAt f off d = f.take off ++ d ++ f.drop (off + d.length) := by
  cases d with
  | nil => simp
  | cons b d => simp only [writeAt, List.isEmpty_cons, Bool.false_eq_true, if_false,
      setLen_of_le (by omega : off ≤ f.length)]

theorem writeAt_length {f d : Bytes} {off : Nat} (h : off + d.length ≤ f.length) :
    (writeAt f off d).length = f.length := by
  rw [writeAt_eq h]; simp; omega

theorem window_all (f : Bytes) : window f 0 f.length = f := by simp [window]

theorem window_append (f : Bytes) {a b c : Nat} (hab : a ≤ b) (hbc : b ≤ c) :
    window f a b ++ window f b c = window f a c := by
  have hb : b = a + (b - a) := by omega
  have hc : c - a = (b - a) + (c - b) := by omega
  simp only [window]
  rw [hc, List.take_add, List.drop_drop, ← hb]

theorem window_writeAt_self {f d : Bytes} {off : Nat} (h : off + d.length ≤ f.length) :
    window (writeAt f off d) off (off + d.length) = d := by
  have ht : (f.take off).length = off := by simp; omega
  rw [writeAt_eq h, window, List.append_assoc, List.drop_append_of_le_length (by omega)]
  simp

theorem window_writeAt_before {f d : Bytes} {off a b : Nat} (h : off + d.length ≤ f.length)
    (hb : b ≤ off) : window (writeAt f off d) a b = window f a b := by
  have ht : (f.take off).length = off := by simp; omega
  rw [writeAt_eq h]
  simp only [window, List.append_assoc]
  by_cases hab : b ≤ a
  · have h0 : b - a = 0 := by omega
    simp [h0]
  · rw [List.drop_append_of_le_length (by omega), List.take_append_of_le_length (by simp; omega),
      List.drop_take, List.take_take]
    congr 1
    omega

theorem window_writeAt_after {f d : Bytes} {off a b : Nat} (h : off + d.length ≤ f.length)
    (ha : off + d.length ≤ a) : window (writeAt f off d) a b = window f a b := by
  have ht : (f.take off ++ d).length = off + d.length := by simp; omega
  have hd : (f.take off ++ d).drop a = [] := by
    apply List.drop_eq_nil_of_le; omega
  rw [writeAt_eq h]
  simp only [window]
  rw [List.drop_append, hd, List.nil_append, List.drop_drop, ht]
  congr 2
  omega

theorem getD_setLen (f : Bytes) (n i : Nat) (hi : i < n) : (setLen f n).getD i 0 = f.getD i 0 := by
  simp only [setLen, List.getD_eq_getElem?_getD, List.getElem?_append, List.getElem?_take,
    List.getElem?_replicate, List.length_take]
  by_cases hf : i < f.length
  · have hm : i < min n f.length := by omega
    simp [hi, hf, hm]
  · have hm : ¬ i < min n f.length := by omega
    have hlt : i - min n f.length < n - f.length := by omega
    simp [hf, hm, hlt]

theorem getD_writeAt (f d : Bytes) (off i : Nat) :
    (writeAt f off d).getD i 0 =
      if off ≤ i ∧ i < off + d.length then d.getD (i - off) 0 else f.getD i 0 := by
  cases d with
  | nil =>
    have hn : ¬ (off ≤ i ∧ i < off + ([] : Bytes).length) := by simp
    rw [if_neg hn, writeAt_nil]
  | cons b d =>
    have hw : writeAt f off (b :: d) =
        setLen f off ++ ((b :: d) ++ f.drop (off + (b :: d).length)) := by simp [writeAt]
    rw [hw]
    by_cases h1 : i < off
    · have hn : ¬ (off ≤ i ∧ i < off + (b :: d).length) := by omega
      rw [if_neg hn, List.getD_append _ _ _ _ (by simpa using h1), getD_setLen f off i h1]
    · rw [List.getD_append_right _ _ _ _ (by simp; omega), setLen_length]
      by_cases h2 : i < off + (b :: d).length
      · rw [if_pos ⟨by omega, h2⟩, List.getD_append _ _ _ _ (by omega)]
      · rw [if_neg (by omega), List.getD_append_right _ _ _ _ (by omega)]
        simp only [List.getD_eq_getElem?_getD, List.getElem?_drop]
        congr 2
        omega

theorem length_le_writeAt (f d : Bytes) (off : Nat) : f.length ≤ (writeAt f off d).length := by
  unfold writeAt
  split
  · exact Nat.le_refl _
  · simp; omega

theorem end_le_writeAt {f d : Bytes} {off : Nat} (h : d ≠ []) :
    off + d.length ≤ (writeAt f off d).length := by
  have hne : d.isEmpty = false := by simpa using h
  simp only [writeAt, hne, Bool.false_eq_true, if_false, List.length_append, setLen_length]
  omega

theorem setLen_writeAt (f d : Bytes) {off n : Nat} (h : off + d.length ≤ n) :
    setLen (writeAt f off d) n = writeAt (setLen f n) off d := by
  have hl : (writeAt (setLen f n) off d).length = n := by
    rw [writeAt_length (by simpa using h), setLen_length]
  apply List.ext_getElem (by rw [setLen_length, hl])
  intro i h1 h2
  have hi : i < n := by simpa using h1
  have hg := getD_setLen (writeAt f off d) n i hi
  rw [getD_writeAt] at hg
  have hg2 := getD_writeAt (setLen f n) d off i
  rw [getD_setLen f n i hi, ← hg] at hg2
  rw [List.getD_eq_getElem _ _ h2, List.getD_eq_getElem _ _ h1] at hg2
  exact hg2.symm

abbrev Leaf := Nat × Bytes

/-- The pieces follow each other without gap or overlap from `a` to `b`. -/
def Tiles : Nat → List Leaf → Nat → Prop
  | a, [], b => a = b
  | a, l :: ls, b => l.1 = a ∧ Tiles (a + l.2.length) ls b

instance Tiles.decide : (a : Nat) → (ls : List Leaf) → (b : Nat) → Decidable (Tiles a ls b)
  | a, [], b => inferInstanceAs (Decidable (a = b))
  | a, l :: ls, b =>
    have := Tiles.decide (a + l.2.length) ls b
    inferInstanceAs (Decidable (l.1 = a ∧ Tiles (a + l.2.length) ls b))

def leafBytes (ls : List Leaf) : Bytes := ls.flatMap Prod.snd

def writeAll (f : Bytes) (ls : List Leaf) : Bytes :=
  ls.foldl (fun f l => writeAt f l.1 l.2) f

@[simp] theorem leafBytes_nil : leafBytes [] = [] := rfl

@[simp] theorem leafBytes_cons (l : Leaf) (ls : List Leaf) :
    leafBytes (l :: ls) = l.2 ++ leafBytes ls := rfl

@[simp] theorem writeAll_nil (f : Bytes) : writeAll f [] = f := rfl

@[simp] theorem writeAll_cons (f : Bytes) (l : Leaf) (ls : List Leaf) :
    writeAll f (l :: ls) = writeAll (writeAt f l.1 l.2) ls := rfl

theorem Tiles.length_eq {a b : Nat} {ls : List Leaf} (h : Tiles a ls b) :
    a + (leafBytes ls).length = b := by
  induction ls generalizing a with
  | nil => simpa [Tiles] using h
  | cons l ls ih =>
    have ht := ih h.2
    simp only [leafBytes_cons, List.length_append]
    omega

theorem Tiles.take {a b : Nat} {ls : List Leaf} (h : Tiles a ls b) (k : Nat) :
    ∃ c, c ≤ b ∧ Tiles a (ls.take k) c := by
  induction ls generalizing a k with
  | nil => exact ⟨a, by simp only [Tiles] at h; omega, by simp [Tiles]⟩
  | cons l ls ih =>
    cases k with
    | zero =>
      have hl := Tiles.length_eq h
      exact ⟨a, by omega, by simp [Tiles]⟩
    | succ k =>
      obtain ⟨c, hc, ht⟩ := ih h.2 k
      exact ⟨c, hc, by simpa [Tiles] using ⟨h.1, ht⟩⟩

theorem Tiles.inside {a b : Nat} {ls : List Leaf} (h : Tiles a ls b) :
    ∀ l ∈ ls, l.1 + l.2.length ≤ b := by
  induction ls generalizing a with
  | nil => simp
  | cons l ls ih =>
    intro x hx
    rcases List.mem_cons.mp hx with rfl | hx
    · have hl := h.2.length_eq
      rw [h.1]
      omega
    · exact ih h.2 x hx

theorem Tiles.reaches {a b : Nat} {ls : List Leaf} (h : Tiles a ls b) (hab : a < b) :
    ∃ l ∈ ls, l.2 ≠ [] ∧ l.1 + l.2.length = b := by
  induction ls generalizing a with
  | nil => simp only [Tiles] at h; omega
  | cons l ls ih =>
    by_cases hrest : a + l.2.length < b
    · obtain ⟨x, hx, hne, he⟩ := ih h.2 hrest
      exact ⟨x, List.mem_cons_of_mem _ hx, hne, he⟩
    · have hlen := h.2.length_eq
      refine ⟨l, by simp, ?_, by rw [h.1]; omega⟩
      intro hnil
      rw [hnil, List.length_nil] at hrest
      omega

theorem writeAt_writeAt {f d e : Bytes} {off : Nat}
    (h : off + (d.length + e.length) ≤ f.length) :
    writeAt (writeAt f off d) (off + d.length) e = writeAt f off (d ++ e) := by
  have hd : off + d.length ≤ f.length := by omega
  have ht : (f.take off).length = off := by simp; omega
  have ht2 : (f.take off ++ d).length = off + d.length := by simp; omega
  rw [writeAt_eq (f := writeAt f off d) (by rw [writeAt_length hd]; omega),
    writeAt_eq (f := f) (d := d ++ e) (by simp; omega), writeAt_eq hd]
  rw [List.take_append_of_le_length (by omega), List.take_of_length_le (by omega)]
  rw [List.drop_append, List.drop_eq_nil_of_le (by omega), ht2, List.drop_drop]
  simp only [List.nil_append, List.length_append, List.append_assoc]
  congr 4
  omega

/-- Writing a tiling piece by piece is one write of all its bytes. -/
theorem writeAll_eq_writeAt {f : Bytes} {a b : Nat} {ls : List Leaf} (h : Tiles a ls b)
    (hb : b ≤ f.length) : writeAll f ls = writeAt f a (leafBytes ls) := by
  induction ls generalizing f a with
  | nil => simp
  | cons l ls ih =>
    obtain ⟨hl, ht⟩ := h
    have hlen := ht.length_eq
    subst hl
    rw [writeAll_cons, ih ht (by rw [writeAt_length (by omega)]; exact hb), leafBytes_cons]
    exact writeAt_writeAt (by omega)

theorem writeAll_length {f : Bytes} {a b : Nat} {ls : List Leaf} (h : Tiles a ls b)
    (hb : b ≤ f.length) : (writeAll f ls).length = f.length := by
  have hlen := h.length_eq
  rw [writeAll_eq_writeAt h hb, writeAt_length (by omega)]

theorem window_writeAll_self {f : Bytes} {a b : Nat} {ls : List Leaf} (h : Tiles a ls b)
    (hb : b ≤ f.length) : window (writeAll f ls) a b = leafBytes ls := by
  have hlen := h.length_eq
  rw [writeAll_eq_writeAt h hb]
  have hw : window (writeAt f a (leafBytes ls)) a (a + (leafBytes ls).length) = leafBytes ls :=
    window_writeAt_self (by omega)
  rwa [hlen] at hw

theorem window_writeAll_other {f : Bytes} {a b c d : Nat} {ls : List Leaf} (h : Tiles a ls b)
    (hb : b ≤ f.length) (hcd : d ≤ a ∨ b ≤ c) :
    window (writeAll f ls) c d = window f c d := by
  have hlen := h.length_eq
  rw [writeAll_eq_writeAt h hb]
  rcases hcd with hd | hc
  · exact window_writeAt_before (by omega) hd
  · exact window_writeAt_after (by omega) (by omega)

end ByteFile

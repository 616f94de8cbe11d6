import Mathlib.Algebra.Group.Nat.Defs
import Zblob.Chunk

/-!
The blob manifest and its trailing extension list.
-/

set_option autoImplicit false

namespace Zblob

def wireVersion : UInt16 := 3

def Ext.maxFields : Nat := 16
def Ext.maxValueLen : Nat := 256

structure Ext where
  fields : List (UInt16 × Bytes)
  fieldsOk : fields.length ≤ Ext.maxFields
  valuesOk : ∀ f ∈ fields, f.2.length ≤ Ext.maxValueLen

namespace Ext

instance : DecidableEq Ext := fun a b =>
  decidable_of_iff (a.fields = b.fields) (by cases a; cases b; simp)

def new : Ext := ⟨[], by decide, by simp⟩

def fromFields (fields : List (UInt16 × Bytes)) : Result Ext :=
  if hl : fields.length > maxFields then
    .error (.malformedMessage
      (s!"extension list has {fields.length} fields, over the cap of {maxFields}"))
  else
    match hf : fields.find? (fun f => f.2.length > maxValueLen) with
    | some f => .error (.malformedMessage
        (s!"extension {f.1.toNat} carries {f.2.length} bytes, over the cap of {maxValueLen}"))
    | none => .ok ⟨fields, by omega, fun f hm => by simpa using List.find?_eq_none.mp hf f hm⟩

def get (e : Ext) (id : UInt16) : Option Bytes := (e.fields.find? (fun f => f.1 = id)).map Prod.snd

def toLe (width n : Nat) : Bytes := (List.range width).map fun k => UInt8.ofNat (n / 256 ^ k % 256)

def fromLe (bs : Bytes) : Nat := bs.foldr (fun b acc => b.toNat + 256 * acc) 0

def getU32 (e : Ext) (id : UInt16) : Option UInt32 :=
  (e.get id).bind fun v => if v.length = 4 then some (UInt32.ofNat (fromLe v)) else none

def getU64 (e : Ext) (id : UInt16) : Option UInt64 :=
  (e.get id).bind fun v => if v.length = 8 then some (UInt64.ofNat (fromLe v)) else none

/-- `Ext::set`, with the list it leaves behind: the fields are taken out before
the rebuilt list is checked, so a refused update leaves an empty list. -/
def set (e : Ext) (id : UInt16) (value : Bytes) : Ext × Result Unit :=
  match fromFields (e.fields.filter (fun f => f.1 ≠ id) ++ [(id, value)]) with
  | .ok e' => (e', .ok ())
  | .error err => (new, .error err)

def setU32 (e : Ext) (id : UInt16) (value : UInt32) : Ext × Result Unit :=
  e.set id (toLe 4 value.toNat)

def setU64 (e : Ext) (id : UInt16) (value : UInt64) : Ext × Result Unit :=
  e.set id (toLe 8 value.toNat)

def maxChunksPerQuery : UInt16 := 1
def maxBlobSize : UInt16 := 2

theorem fromFields_ok {fields : List (UInt16 × Bytes)} {e : Ext} (h : fromFields fields = .ok e) :
    e.fields = fields := by
  unfold fromFields at h
  split at h
  · cases h
  · split at h
    · cases h
    · cases h
      rfl

theorem set_get {e : Ext} {id : UInt16} {value : Bytes} (h : (e.set id value).2 = .ok ())
    (k : UInt16) : (e.set id value).1.get k = if k = id then some value else e.get k := by
  unfold set at h ⊢
  split at h
  · rename_i e' he
    simp only [get, fromFields_ok he, List.find?_append]
    by_cases hk : k = id
    · subst hk
      have hnone : (e.fields.filter fun f => f.1 ≠ k).find? (fun f => f.1 = k) = none := by
        rw [List.find?_eq_none]
        intro f hf
        simpa using (List.mem_filter.mp hf).2
      rw [hnone]
      simp
    · have hsame : (e.fields.filter fun f => f.1 ≠ id).find? (fun f => f.1 = k) =
          e.fields.find? (fun f => f.1 = k) := by
        rw [List.find?_filter]
        congr 1
        funext f
        by_cases hf : f.1 = k <;> simp [hf, hk]
      rw [hsame]
      simp [hk, Ne.symm hk]
  · cases h

def others (e : Ext) (id : UInt16) : List (UInt16 × Bytes) := e.fields.filter fun f => f.1 ≠ id

/-- An update that either takes effect on `id` alone or changes nothing. -/
def SetAtomic (e : Ext) (id : UInt16) (value : Bytes) : Prop :=
  let after := (e.set id value).1
  match (e.set id value).2 with
  | .ok () => after.get id = some value ∧ after.fields.countP (fun f => f.1 = id) = 1 ∧
      (∀ k, k ≠ id → after.get k = e.get k) ∧
      after.fields.length ≤ maxFields ∧ ∀ f ∈ after.fields, f.2.length ≤ maxValueLen
  | .error _ => after = e

def Admits (e : Ext) (id : UInt16) (value : Bytes) : Prop :=
  (e.others id).length < maxFields ∧ value.length ≤ maxValueLen

theorem fromFields_of {fields : List (UInt16 × Bytes)} (hl : fields.length ≤ maxFields)
    (hv : ∀ f ∈ fields, f.2.length ≤ maxValueLen) : fromFields fields = .ok ⟨fields, hl, hv⟩ := by
  unfold fromFields
  rw [dif_neg (by omega)]
  split
  · rename_i f hf
    have hlong := List.find?_some hf
    have hshort := hv f (List.mem_of_find?_eq_some hf)
    simp only [decide_eq_true_eq] at hlong
    omega
  · rfl

theorem fromFields_error {fields : List (UInt16 × Bytes)} {f : UInt16 × Bytes}
    (h : maxFields < fields.length ∨ f ∈ fields ∧ maxValueLen < f.2.length) :
    ∃ err, fromFields fields = .error err := by
  cases he : fromFields fields with
  | error err => exact ⟨err, rfl⟩
  | ok e =>
    have hfields := fromFields_ok he
    rcases h with hl | ⟨hm, hv⟩
    · have hcap := e.fieldsOk
      rw [hfields] at hcap
      omega
    · have hcap := e.valuesOk f (hfields ▸ hm)
      omega

theorem set_of_admits {e : Ext} {id : UInt16} {value : Bytes} (h : e.Admits id value) :
    (e.set id value).2 = .ok () ∧ (e.set id value).1.fields = e.others id ++ [(id, value)] := by
  have hv : ∀ f ∈ e.others id ++ [(id, value)], f.2.length ≤ maxValueLen := by
    intro f hf
    rcases List.mem_append.mp hf with hf | hf
    · exact e.valuesOk f (List.mem_of_mem_filter hf)
    · rw [List.mem_singleton.mp hf]
      exact h.2
  have hl : (e.others id ++ [(id, value)]).length ≤ maxFields := by
    have hroom := h.1
    simp only [List.length_append, List.length_singleton]
    omega
  have hset : e.set id value = (⟨_, hl, hv⟩, .ok ()) := by
    unfold set
    rw [← others, fromFields_of hl hv]
  rw [hset]
  exact ⟨rfl, rfl⟩

/-- A refused update leaves the empty list behind, whatever was there. -/
theorem set_of_not_admits {e : Ext} {id : UInt16} {value : Bytes} (h : ¬ e.Admits id value) :
    ∃ err, e.set id value = (new, .error err) := by
  have hbad : maxFields < (e.others id ++ [(id, value)]).length ∨
      (id, value) ∈ e.others id ++ [(id, value)] ∧ maxValueLen < value.length := by
    by_cases hroom : (e.others id).length < maxFields
    · refine .inr ⟨by simp, ?_⟩
      by_contra hv
      exact h ⟨hroom, by omega⟩
    · left
      simp only [List.length_append, List.length_singleton]
      omega
  obtain ⟨err, herr⟩ := fromFields_error hbad
  refine ⟨err, ?_⟩
  unfold set
  rw [← others, herr]

theorem atomic_of_admits {e : Ext} {id : UInt16} {value : Bytes} (h : e.Admits id value) :
    e.SetAtomic id value := by
  obtain ⟨hok, hfields⟩ := set_of_admits h
  have hget := set_get hok
  have hone : (e.set id value).1.fields.countP (fun f => f.1 = id) = 1 := by
    have hnone : (e.others id).countP (fun f => f.1 = id) = 0 := by
      rw [List.countP_eq_zero]
      intro f hf
      simpa using (List.mem_filter.mp hf).2
    rw [hfields, List.countP_append, hnone]
    simp
  simp only [SetAtomic, hok]
  refine ⟨by simp [hget id], hone, ?_, (e.set id value).1.fieldsOk, (e.set id value).1.valuesOk⟩
  intro k hk
  simp [hget k, hk]

theorem atomic_of_not_admits {e : Ext} {id : UInt16} {value : Bytes} (h : ¬ e.Admits id value) :
    e.SetAtomic id value ↔ e.fields = [] := by
  obtain ⟨err, hset⟩ := set_of_not_admits h
  simp only [SetAtomic, hset]
  constructor
  · intro he
    rw [← he]
    rfl
  · intro he
    cases e
    subst he
    rfl

/-- An update is atomic when it fits the caps, or when there was nothing to lose. -/
theorem set_atomic_iff (e : Ext) (id : UInt16) (value : Bytes) :
    e.SetAtomic id value ↔ e.Admits id value ∨ e.fields = [] := by
  by_cases h : e.Admits id value
  · simp only [h, true_or, iff_true]
    exact atomic_of_admits h
  · simp only [h, false_or]
    exact atomic_of_not_admits h

/-- One over-long value, and the field that was there is gone. -/
theorem set_drops_fields : ∃ (e : Ext) (id : UInt16) (value : Bytes),
    e.fields = [(7, [1])] ∧ id = 9 ∧ value = List.replicate 257 0 ∧ ¬ e.SetAtomic id value := by
  refine ⟨⟨[(7, [1])], by decide, by decide⟩, 9, List.replicate 257 0, rfl, rfl, rfl, ?_⟩
  rw [atomic_of_not_admits (by rw [Admits, List.length_replicate]; decide)]
  decide

theorem fromLe_toLe (width n : Nat) : fromLe (toLe width n) = n % 256 ^ width := by
  induction width generalizing n with
  | zero => simp [toLe, fromLe, Nat.mod_one]
  | succ width ih =>
    have hdiv : ∀ k, n / 256 ^ (k + 1) = n / 256 / 256 ^ k := by
      intro k
      rw [Nat.pow_succ', Nat.div_div_eq_div_mul]
    have htail : toLe (width + 1) n = UInt8.ofNat (n % 256) :: toLe width (n / 256) := by
      simp [toLe, List.range_succ_eq_map, hdiv]
    have hrec := ih (n / 256)
    rw [htail, fromLe, List.foldr_cons, ← fromLe, hrec, Nat.pow_succ', Nat.mod_mul]
    simp

@[simp] theorem toLe_length (width n : Nat) : (toLe width n).length = width := by simp [toLe]

theorem setU32_getU32 {e : Ext} {id : UInt16} {value : UInt32}
    (h : (e.setU32 id value).2 = .ok ()) : (e.setU32 id value).1.getU32 id = some value := by
  have hlt := value.toNat_lt
  simp [getU32, setU32, set_get h, fromLe_toLe, Nat.mod_eq_of_lt hlt]

theorem setU64_getU64 {e : Ext} {id : UInt16} {value : UInt64}
    (h : (e.setU64 id value).2 = .ok ()) : (e.setU64 id value).1.getU64 id = some value := by
  have hlt := value.toNat_lt
  simp [getU64, setU64, set_get h, fromLe_toLe, Nat.mod_eq_of_lt hlt]

end Ext

structure Manifest where
  version : UInt16
  id : BlobId
  filename : Option String
  totalLen : UInt64
  chunkSize : UInt32
  root : Hash
  createdMs : Int64
  ext : Ext
  deriving DecidableEq

namespace Manifest

def validate (m : Manifest) (maxBlobSize : UInt64) : Result Unit :=
  if m.version ≠ wireVersion then .error (.unsupportedVersion m.version)
  else
    match TransferChunks.validateChunkSize m.chunkSize with
    | .error e => .error e
    | .ok () =>
      if m.totalLen > maxBlobSize then
        .error (.invalidManifest
          (s!"total_len {m.totalLen.toNat} exceeds the configured max blob size " ++
            s!"{maxBlobSize.toNat}"))
      else .ok ()

def chunks (m : Manifest) : Result TransferChunks := TransferChunks.new m.chunkSize m.totalLen

def maxChunksPerQuery (m : Manifest) : Option UInt32 := m.ext.getU32 Ext.maxChunksPerQuery

def maxBlobSize (m : Manifest) : Option UInt64 := m.ext.getU64 Ext.maxBlobSize

def chunkCount (m : Manifest) : Result Nat := m.chunks.map TransferChunks.count

theorem chunks_ok {m : Manifest} {c : TransferChunks} (h : m.chunks = .ok c) :
    c.chunkSize = m.chunkSize ∧ c.totalLen = m.totalLen := TransferChunks.new_ok h

def geometry (m : Manifest) : Hash × UInt64 × UInt32 := (m.root, m.totalLen, m.chunkSize)

end Manifest

structure BlobSpec where
  id : String
  filename : Option String
  chunkSize : UInt32
  createdMs : Int64

end Zblob

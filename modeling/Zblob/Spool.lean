import Zblob.Download

/-!
The spool directory of a server that accepts pushes. `<id>.push.part`, its sidecar and
`<id>.blob` are names; what is written lives in inodes, which an open handle keeps
reaching after the name has moved on.
-/

set_option autoImplicit false

namespace Zblob

open ByteFile (Leaf writeAll setLen)

structure Spool where
  part : String → Option Nat
  blob : String → Option Nat
  sidecar : String → Option Sidecar
  data : Nat → Bytes
  nextIno : Nat

namespace Spool

def empty : Spool := ⟨fun _ => none, fun _ => none, fun _ => none, fun _ => [], 0⟩

def setData (sp : Spool) (ino : Nat) (f : Bytes) : Spool :=
  { sp with data := Function.update sp.data ino f }

def partFile (sp : Spool) (id : String) : Option Bytes := (sp.part id).map sp.data
def blobFile (sp : Spool) (id : String) : Option Bytes := (sp.blob id).map sp.data

def load (sp : Spool) (id : String) : Option ResumeState :=
  match sp.sidecar id with
  | some (.state s) => some s
  | _ => none

def createPart (sp : Spool) (id : String) : Spool × Nat :=
  match sp.part id with
  | some ino => (sp.setData ino [], ino)
  | none =>
    ({ sp.setData sp.nextIno [] with
        part := Function.update sp.part id (some sp.nextIno)
        nextIno := sp.nextIno + 1 }, sp.nextIno)

def setLenAt (sp : Spool) (ino n : Nat) : Spool := sp.setData ino (setLen (sp.data ino) n)

/-- Open the part by name and write the leaves; `none` is a part that is not there. -/
def writePart (sp : Spool) (id : String) (ls : List Leaf) : Option Spool :=
  (sp.part id).map fun ino => sp.setData ino (writeAll (sp.data ino) ls)

def save (sp : Spool) (id : String) (s : ResumeState) : Spool :=
  { sp with sidecar := Function.update sp.sidecar id (some (.state s)) }

def renamePart (sp : Spool) (id : String) : Option Spool :=
  (sp.part id).map fun ino =>
    { sp with
      part := Function.update sp.part id none
      blob := Function.update sp.blob id (some ino) }

def removePart (sp : Spool) (id : String) : Spool :=
  { sp with part := Function.update sp.part id none }

def removeMeta (sp : Spool) (id : String) : Spool :=
  { sp with sidecar := Function.update sp.sidecar id none }

def removeBlob (sp : Spool) (id : String) : Spool :=
  { sp with blob := Function.update sp.blob id none }

structure Wf (sp : Spool) : Prop where
  part_inj : ∀ i j n, sp.part i = some n → sp.part j = some n → i = j
  blob_inj : ∀ i j n, sp.blob i = some n → sp.blob j = some n → i = j
  apart : ∀ i j n, sp.part i = some n → sp.blob j ≠ some n
  part_lt : ∀ i n, sp.part i = some n → n < sp.nextIno
  blob_lt : ∀ i n, sp.blob i = some n → n < sp.nextIno

section Wf

variable {sp sp' : Spool} {id k : String}

theorem empty_wf : empty.Wf := ⟨nofun, nofun, nofun, nofun, nofun⟩

theorem Wf.sub (h : sp.Wf) (hpart : ∀ i n, sp'.part i = some n → sp.part i = some n)
    (hblob : ∀ i n, sp'.blob i = some n → sp.blob i = some n) (hnext : sp'.nextIno = sp.nextIno) :
    sp'.Wf where
  part_inj i j n hi hj := h.part_inj i j n (hpart i n hi) (hpart j n hj)
  blob_inj i j n hi hj := h.blob_inj i j n (hblob i n hi) (hblob j n hj)
  apart i j n hi hj := h.apart i j n (hpart i n hi) (hblob j n hj)
  part_lt i n hi := by rw [hnext]; exact h.part_lt i n (hpart i n hi)
  blob_lt i n hi := by rw [hnext]; exact h.blob_lt i n (hblob i n hi)

theorem update_none_sub {f : String → Option Nat} {i : String} {n : Nat}
    (h : Function.update f id none i = some n) : f i = some n := by
  by_cases hi : i = id
  · rw [hi, Function.update_self] at h
    cases h
  · rwa [Function.update_of_ne hi] at h

theorem removePart_wf (h : sp.Wf) : (sp.removePart id).Wf :=
  h.sub (fun _ _ => update_none_sub) (fun _ _ h => h) rfl

theorem removeMeta_wf (h : sp.Wf) : (sp.removeMeta id).Wf :=
  h.sub (fun _ _ h => h) (fun _ _ h => h) rfl

theorem removeBlob_wf (h : sp.Wf) : (sp.removeBlob id).Wf :=
  h.sub (fun _ _ h => h) (fun _ _ => update_none_sub) rfl

theorem save_wf (h : sp.Wf) (st : ResumeState) : (sp.save id st).Wf :=
  h.sub (fun _ _ h => h) (fun _ _ h => h) rfl

/-- What `File::create` does: the name is there afterwards and its file is empty; no other
name and no other file changes. -/
structure Created (sp : Spool) (id : String) (sp' : Spool) (ino : Nat) : Prop where
  here : sp'.part id = some ino
  part : ∀ k, k ≠ id → sp'.part k = sp.part k
  blob : sp'.blob = sp.blob
  sidecar : sp'.sidecar = sp.sidecar
  data : sp'.data = Function.update sp.data ino []
  fresh : sp.part id = some ino ∧ sp'.nextIno = sp.nextIno ∨
    ino = sp.nextIno ∧ sp'.nextIno = sp.nextIno + 1

theorem createPart_created (sp : Spool) (id : String) :
    Created sp id (sp.createPart id).1 (sp.createPart id).2 := by
  unfold createPart
  split
  · rename_i ino h
    exact ⟨h, fun _ _ => rfl, rfl, rfl, rfl, .inl ⟨h, rfl⟩⟩
  · exact ⟨by simp, fun k hk => by simp [hk], rfl, rfl, rfl, .inr ⟨rfl, rfl⟩⟩

theorem Created.part_cases {ino n : Nat} (h : Created sp id sp' ino) (hn : sp'.part k = some n) :
    k = id ∧ n = ino ∨ k ≠ id ∧ sp.part k = some n := by
  by_cases hk : k = id
  · subst hk
    exact .inl ⟨rfl, Option.some.inj (hn.symm.trans h.here)⟩
  · exact .inr ⟨hk, by rw [← h.part k hk]; exact hn⟩

theorem Created.own {ino : Nat} (h : Created sp id sp' ino) (hwf : sp.Wf) :
    (∀ k, k ≠ id → sp.part k ≠ some ino) ∧ ∀ k, sp.blob k ≠ some ino := by
  rcases h.fresh with ⟨hold, -⟩ | ⟨rfl, -⟩
  · exact ⟨fun k hk hp => hk (hwf.part_inj k id ino hp hold), fun k => hwf.apart id k ino hold⟩
  · exact ⟨fun k _ hp => Nat.lt_irrefl _ (hwf.part_lt k _ hp),
      fun k hb => Nat.lt_irrefl _ (hwf.blob_lt k _ hb)⟩

theorem Created.wf {ino : Nat} (h : Created sp id sp' ino) (hwf : sp.Wf) : sp'.Wf := by
  obtain ⟨hparts, hblobs⟩ := h.own hwf
  have hle : sp.nextIno ≤ sp'.nextIno := by
    rcases h.fresh with ⟨-, hn⟩ | ⟨-, hn⟩ <;> omega
  have hino : ino < sp'.nextIno := by
    rcases h.fresh with ⟨hold, hn⟩ | ⟨rfl, hn⟩
    · rw [hn]
      exact hwf.part_lt id ino hold
    · omega
  constructor
  · intro i j n hi hj
    rcases h.part_cases hi with ⟨rfl, rfl⟩ | ⟨hi', hpi⟩
    · rcases h.part_cases hj with ⟨rfl, -⟩ | ⟨hj', hpj⟩
      · rfl
      · exact absurd hpj (hparts j hj')
    · rcases h.part_cases hj with ⟨rfl, rfl⟩ | ⟨-, hpj⟩
      · exact absurd hpi (hparts i hi')
      · exact hwf.part_inj i j n hpi hpj
  · rw [h.blob]
    exact hwf.blob_inj
  · intro i j n hi
    rw [h.blob]
    rcases h.part_cases hi with ⟨rfl, rfl⟩ | ⟨-, hpi⟩
    · exact hblobs j
    · exact hwf.apart i j n hpi
  · intro i n hi
    rcases h.part_cases hi with ⟨rfl, rfl⟩ | ⟨-, hpi⟩
    · exact hino
    · exact Nat.lt_of_lt_of_le (hwf.part_lt i n hpi) hle
  · intro i n hi
    rw [h.blob] at hi
    exact Nat.lt_of_lt_of_le (hwf.blob_lt i n hi) hle

theorem writePart_some {ls : List Leaf} (h : sp.writePart id ls = some sp') :
    ∃ ino, sp.part id = some ino ∧ sp' = sp.setData ino (writeAll (sp.data ino) ls) := by
  obtain ⟨ino, hino, rfl⟩ := Option.map_eq_some_iff.mp h
  exact ⟨ino, hino, rfl⟩

theorem setData_wf (h : sp.Wf) (ino : Nat) (f : Bytes) : (sp.setData ino f).Wf :=
  h.sub (fun _ _ h => h) (fun _ _ h => h) rfl

theorem renamePart_some (h : sp.renamePart id = some sp') :
    ∃ ino, sp.part id = some ino ∧ sp' = { sp with
      part := Function.update sp.part id none
      blob := Function.update sp.blob id (some ino) } := by
  obtain ⟨ino, hino, rfl⟩ := Option.map_eq_some_iff.mp h
  exact ⟨ino, hino, rfl⟩

theorem renamePart_wf (hwf : sp.Wf) (h : sp.renamePart id = some sp') : sp'.Wf := by
  obtain ⟨ino, hino, rfl⟩ := renamePart_some h
  have blob_cases : ∀ {i : String} {n : Nat}, Function.update sp.blob id (some ino) i = some n →
      i = id ∧ n = ino ∨ sp.blob i = some n := by
    intro i n h
    by_cases hi : i = id
    · rw [hi, Function.update_self] at h
      exact .inl ⟨hi, (Option.some.inj h).symm⟩
    · rw [Function.update_of_ne hi] at h
      exact .inr h
  constructor
  · intro i j n hi hj
    exact hwf.part_inj i j n (update_none_sub hi) (update_none_sub hj)
  · intro i j n hi hj
    rcases blob_cases hi with ⟨rfl, rfl⟩ | hbi
    · rcases blob_cases hj with ⟨rfl, -⟩ | hbj
      · rfl
      · exact absurd hbj (hwf.apart i j n hino)
    · rcases blob_cases hj with ⟨rfl, rfl⟩ | hbj
      · exact absurd hbi (hwf.apart j i n hino)
      · exact hwf.blob_inj i j n hbi hbj
  · intro i j n hi hj
    have hne : i ≠ id := by
      rintro rfl
      simp at hi
    rcases blob_cases hj with ⟨rfl, rfl⟩ | hbj
    · exact hne (hwf.part_inj i j n (update_none_sub hi) hino)
    · exact hwf.apart i j n (update_none_sub hi) hbj
  · intro i n hi
    exact hwf.part_lt i n (update_none_sub hi)
  · intro i n hi
    rcases blob_cases hi with ⟨rfl, rfl⟩ | hbi
    · exact hwf.part_lt i n hino
    · exact hwf.blob_lt i n hbi

end Wf

end Spool

end Zblob

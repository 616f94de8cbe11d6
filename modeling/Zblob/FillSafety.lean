import Zblob.Fill

/-!
What the hole-filling loops keep. Both of them change a file in two ways only: a
verified chunk is written and marked, or the marks are persisted. `Fill.Keeps` is the
induction rule that this gives; the rest are its uses.
-/

set_option autoImplicit false

namespace Zblob

open ByteFile (Leaf Tiles leafBytes writeAll writeAt setLen)
open Runs (run visited Always)

section Rule

variable (bao : Bao) (m : Manifest) (c : TransferChunks)

/-- `P` looks at the bitfield and the file steps only, and survives both ways the
loops have of changing them. -/
structure Fill.Keeps (P : Fill → Prop) : Prop where
  frame : ∀ v w : Fill, P v → w.state = v.state → w.ops = v.ops → P w
  mark : ∀ (v : Fill) (index : Nat) (encoded : Bytes) (ls : List Leaf) (persist due : Bool),
    index < c.count → v.state.isSet index = false →
    bao.decodeSlice m.root m.totalLen.toNat (chunkRange (c.byteRange index)) encoded = some ls →
    P v → P (markVerified c persist due v index ls)
  persisted : ∀ (v : Fill) (persist : Bool), P v → P (v.persisted persist)

variable {bao m c} {P : Fill → Prop} (hP : Fill.Keeps bao m c P)

include hP

theorem onReply_keeps (persist : Bool) (v : Fill) (r : Reply) (due : Bool) (h : P v) :
    P (onReply bao m c persist v r due) := by
  cases r with
  | error e => exact h
  | ok sample =>
    simp only [onReply]
    split
    · exact h
    · cases hidx : parseSliceIndex sample.key with
      | none => exact h
      | some index =>
        simp only
        split
        · exact h
        · rename_i hnew
          rw [not_or, Nat.not_le, Bool.not_eq_true] at hnew
          cases hd : bao.decodeSlice m.root m.totalLen.toNat (chunkRange (c.byteRange index))
              sample.payload with
          | none => exact hP.frame v _ h rfl rfl
          | some ls => exact hP.mark v index _ ls persist due hnew.1 hnew.2 hd h

theorem drain_keeps (persist : Bool) (recvs : List Recv) (v : Fill) (h : P v) :
    P (drain bao m c persist v recvs).1 := by
  induction recvs generalizing v with
  | nil => exact h
  | cons r rest ih =>
    cases r with
    | cancelled => exact h
    | reply r due => exact ih _ (onReply_keeps hP persist v r due h)

/-- Every way the single-origin loop can stop leaves what `P` says. -/
theorem fillHoles_keeps (cfg : ClientConfig) (persist : Bool) (rounds : List Round) (v : Fill)
    (h : P v) : P (fillHoles bao cfg m c persist v rounds).1 := by
  induction rounds generalizing v with
  | nil =>
    simp only [fillHoles]
    split
    · exact hP.persisted v persist h
    · exact h
  | cons round rest ih =>
    unfold fillHoles
    split
    · exact hP.persisted v persist h
    split
    · exact hP.persisted v persist h
    cases round.got with
    | none => exact hP.frame v _ h rfl rfl
    | some recvs =>
      have hw := drain_keeps hP persist recvs
        ((v.ask [⟨cfg.origin, holes cfg m c v.state⟩]).countQueries 1) (hP.frame v _ h rfl rfl)
      simp only
      split
      · exact hP.persisted _ persist hw
      split
      · exact hP.persisted _ persist hw
      split
      · split
        · exact hP.persisted _ persist (hP.frame _ _ hw rfl rfl)
        · exact ih _ (hP.frame _ _ hw rfl rfl)
      · exact ih _ (hP.frame _ _ hw rfl rfl)

theorem onStripedReply_keeps (st : Stripe) (holder : Nat) (r : Reply) (h : P st.fill) :
    P (onStripedReply bao m c st holder r).fill := by
  cases r with
  | error e => exact h
  | ok sample =>
    simp only [onStripedReply]
    split
    · exact h
    · cases hidx : parseSliceIndex sample.key with
      | none => exact h
      | some index =>
        simp only
        cases hd : bao.decodeSlice m.root m.totalLen.toNat (chunkRange (c.byteRange index))
            sample.payload with
        | none => exact hP.frame st.fill _ h rfl rfl
        | some ls =>
          simp only
          split
          · exact h
          · rename_i hnew
            rw [not_or, Nat.not_le, Bool.not_eq_true] at hnew
            exact hP.mark st.fill index _ ls false false hnew.1 hnew.2 hd h

theorem stripedDrain_keeps (asked : Nat → Bool) (recvs : List StripedRecv) (st : Stripe)
    (h : P st.fill) : P (stripedDrain bao m c asked st recvs).1.fill := by
  induction recvs generalizing st with
  | nil => exact h
  | cons r rest ih =>
    cases r with
    | cancelled => exact h
    | reply holder r =>
      simp only [stripedDrain]
      split
      · exact ih _ (onStripedReply_keeps hP st holder r h)
      · exact ih _ h

theorem fillHolesStriped_keeps (cfg : ClientConfig) (holders : List BlobProbe)
    (rounds : List StripedRound) (st : Stripe) (h : P st.fill) :
    P (fillHolesStriped bao cfg m c holders st rounds).1 := by
  induction rounds generalizing st with
  | nil =>
    simp only [fillHolesStriped]
    split
    · exact hP.persisted _ true h
    · exact h
  | cons round rest ih =>
    unfold fillHolesStriped
    simp only
    split
    · exact hP.persisted _ true h
    split
    · exact hP.persisted _ true h
    split
    · exact h
    cases dealRound cfg m c holders (liveHolders cfg holders st.rejects) st.fill.state
      round.fuel with
    | none => exact h
    | some deal =>
      simp only
      have hw := stripedDrain_keeps hP
        (dealtTo (liveHolders cfg holders st.rejects) deal).contains round.recvs
        { st with
          fill := st.fill.ask (shareQueries holders (liveHolders cfg holders st.rejects) deal) }
        (hP.frame st.fill _ h rfl rfl)
      split
      · exact hP.persisted _ true hw
      have hs := hP.persisted _ true (hP.frame _ (Fill.countQueries _
        (liveHolders cfg holders st.rejects).length) hw rfl rfl)
      split
      · exact hP.persisted _ true hs
      split
      · split
        · exact hP.frame _ _ hs rfl rfl
        · exact ih _ (hP.frame _ _ hs rfl rfl)
      · exact ih _ (hP.frame _ _ hs rfl rfl)

end Rule

section Completion

variable {bao : Bao} {cfg : ClientConfig} {m : Manifest} {c : TransferChunks} {w : Fill}

@[simp] theorem Fill.persisted_state (v : Fill) (persist : Bool) :
    (v.persisted persist).state = v.state := rfl

theorem persistCancel_ne_ok {persist : Bool} {v : Fill} :
    persistCancel c persist v ≠ (w, .done (.ok ())) := by
  intro h
  simp [persistCancel] at h

/-- A loop that returns without error has every chunk. -/
theorem fillHoles_done {persist : Bool} {rounds : List Round} {v : Fill}
    (h : fillHoles bao cfg m c persist v rounds = (w, .done (.ok ()))) :
    w.state.isComplete c.count = true := by
  induction rounds generalizing v with
  | nil =>
    simp only [fillHoles] at h
    split at h
    · rename_i hdone
      cases h
      exact hdone
    · simp at h
  | cons round rest ih =>
    unfold fillHoles at h
    split at h
    · rename_i hdone
      cases h
      exact hdone
    split at h
    · exact absurd h persistCancel_ne_ok
    cases hgot : round.got with
    | none => simp [hgot] at h
    | some recvs =>
      simp only [hgot] at h
      split at h
      · exact absurd h persistCancel_ne_ok
      split at h
      · rename_i hdone
        cases h
        exact hdone
      split at h
      · split at h
        · simp at h
        · exact ih h
      · exact ih h

theorem fillHolesStriped_done {holders : List BlobProbe} {rounds : List StripedRound} {st : Stripe}
    (h : fillHolesStriped bao cfg m c holders st rounds = (w, .done (.ok ()))) :
    w.state.isComplete c.count = true := by
  induction rounds generalizing st with
  | nil =>
    simp only [fillHolesStriped] at h
    split at h
    · rename_i hdone
      cases h
      exact hdone
    · simp at h
  | cons round rest ih =>
    unfold fillHolesStriped at h
    simp only at h
    split at h
    · rename_i hdone
      cases h
      exact hdone
    split at h
    · exact absurd h persistCancel_ne_ok
    split at h
    · simp at h
    cases hdeal : dealRound cfg m c holders (liveHolders cfg holders st.rejects) st.fill.state
        round.fuel with
    | none => simp [hdeal] at h
    | some deal =>
      simp only [hdeal] at h
      split at h
      · exact absurd h persistCancel_ne_ok
      split at h
      · rename_i hdone
        cases h
        exact hdone
      split at h
      · split at h
        · simp at h
        · exact ih h
      · exact ih h

end Completion

structure Target where
  file : Bytes
  saved : Option ResumeState

def Target.apply (op : FillOp) (t : Target) : Target :=
  match op with
  | .write offset data => { t with file := writeAt t.file offset data }
  | .commit => t
  | .save s => { t with saved := some s }

section Tracking

variable (bao : Bao) (m : Manifest) (c : TransferChunks)

/-- The file has the blob's length, and the saved sidecar claims verified bytes only. -/
def Target.Sound (t : Target) : Prop :=
  t.file.length = m.totalLen.toNat ∧
    ∀ s, t.saved = some s → s.Fits m c ∧ Backed bao m c s t.file

/-- A loop that started on `t₀`: wherever it is cut off the target is sound, and
its bitfield claims no more than the file holds and no less than the sidecar. -/
structure Tracks (t₀ : Target) (v : Fill) : Prop where
  fits : v.state.Fits m c
  backed : Backed bao m c v.state (run Target.apply v.ops t₀).file
  within : ∀ s, (run Target.apply v.ops t₀).saved = some s →
    s.Fits m c ∧ ∀ i, s.isSet i = true → v.state.isSet i = true
  always : Always Target.apply (Target.Sound bao m c) v.ops t₀

variable {bao m c}

theorem run_leafOps (ls : List Leaf) (t : Target) :
    run Target.apply (leafOps ls) t = { t with file := writeAll t.file ls } := by
  induction ls generalizing t with
  | nil => rfl
  | cons l ls ih => simp only [leafOps, List.map_cons, Runs.run_cons] at ih ⊢; rw [ih]; rfl

theorem always_leafOps {P : Target → Prop} (ls : List Leaf) (t : Target)
    (h : ∀ k, P { t with file := writeAll t.file (ls.take k) }) :
    Always Target.apply P (leafOps ls) t := by
  induction ls generalizing t with
  | nil => simpa [leafOps] using h 0
  | cons l ls ih =>
    simp only [leafOps, List.map_cons, Runs.always_cons]
    refine ⟨by simpa using h 0, ih _ fun k => ?_⟩
    simpa [Target.apply] using h (k + 1)

theorem Tracks.sound_of_backed {t : Target} {s : ResumeState} (hb : Backed bao m c s t.file)
    (hw : ∀ s', t.saved = some s' → s'.Fits m c ∧ ∀ i, s'.isSet i = true → s.isSet i = true) :
    t.Sound bao m c :=
  ⟨hb.1, fun s' hs' => ⟨(hw s' hs').1, hb.mono fun i _ => (hw s' hs').2 i⟩⟩

theorem Tracks.start {t : Target} {s : ResumeState} (stats : TransferStats) (hfit : s.Fits m c)
    (hb : Backed bao m c s t.file)
    (hw : ∀ s', t.saved = some s' → s'.Fits m c ∧ ∀ i, s'.isSet i = true → s.isSet i = true) :
    Tracks bao m c t (Fill.start s stats) where
  fits := hfit
  backed := hb
  within := hw
  always := by
    rw [Fill.start, Runs.always_nil]
    exact Tracks.sound_of_backed hb hw

variable {t₀ : Target} {v : Fill}

theorem Tracks.persist (h : Tracks bao m c t₀ v) {w : Fill} (persist : Bool)
    (hstate : w.state = v.state) (hops : w.ops = v.ops ++ persistOps persist v.state) :
    Tracks bao m c t₀ w := by
  have hfile : (run Target.apply w.ops t₀).file = (run Target.apply v.ops t₀).file := by
    rw [hops, Runs.run_append]
    cases persist <;> rfl
  have hsound := h.always.last
  refine ⟨hstate ▸ h.fits, by rw [hfile, hstate]; exact h.backed, ?_, ?_⟩
  · intro s hs
    rw [hops, Runs.run_append] at hs
    cases persist with
    | false => rw [hstate]; exact h.within s hs
    | true =>
      obtain rfl : v.state = s := by simpa [persistOps, Target.apply] using hs
      exact ⟨h.fits, fun i hi => by rw [hstate]; exact hi⟩
  · rw [hops]
    apply Runs.always_append h.always
    cases persist with
    | false => simpa [persistOps, Target.apply] using hsound
    | true =>
      simp only [persistOps, if_true, Runs.always_cons, Runs.always_nil, Target.apply]
      refine ⟨hsound, hsound, hsound.1, fun s hs => ?_⟩
      obtain rfl : v.state = s := by simpa using hs
      exact ⟨h.fits, h.backed⟩

theorem Tracks.mark (laws : bao.Laws) (h : Tracks bao m c t₀ v) {index : Nat} {encoded : Bytes}
    {ls : List Leaf} (hi : index < c.count) (hs : v.state.isSet index = false)
    (hd : bao.decodeSlice m.root m.totalLen.toNat (chunkRange (c.byteRange index))
      encoded = some ls)
    {w : Fill} (hstate : w.state = (v.state.mark index).1) (hops : w.ops = v.ops ++ leafOps ls) :
    Tracks bao m c t₀ w := by
  have hrun : run Target.apply w.ops t₀ =
      { run Target.apply v.ops t₀ with file := writeAll (run Target.apply v.ops t₀).file ls } := by
    rw [hops, Runs.run_append, run_leafOps]
  refine ⟨hstate ▸ h.fits.mark_fits index, ?_, ?_, ?_⟩
  · rw [hrun, hstate]
    exact h.backed.write_mark laws h.fits hi hd
  · intro s hsv
    rw [hrun] at hsv
    obtain ⟨hsf, hsub⟩ := h.within s hsv
    refine ⟨hsf, fun i hset => ?_⟩
    rw [hstate, h.fits.mark_isSet, hsub i hset, Bool.true_or]
  · rw [hops]
    refine Runs.always_append h.always (always_leafOps ls _ fun k => ?_)
    exact Tracks.sound_of_backed (h.backed.write_leaves laws h.fits hi hs hd k) h.within

theorem markVerified_eq (persist due : Bool) (v : Fill) {index : Nat} (ls : List Leaf)
    (hm : (v.state.mark index).2 = true) :
    ∃ w : Fill, w.state = (v.state.mark index).1 ∧ w.ops = v.ops ++ leafOps ls ∧
      ∃ b : Bool, (markVerified c persist due v index ls).state = w.state ∧
        (markVerified c persist due v index ls).ops =
          w.ops ++ if b then persistOps true w.state else [] := by
  refine ⟨⟨(v.state.mark index).1, 0, 0, v.stats, [], v.ops ++ leafOps ls⟩, rfl, rfl,
    persist && (decide (v.marksSinceSave + 1 ≥ 64) || due), ?_⟩
  simp only [markVerified, hm, if_true]
  split <;> simp [persistOps]

theorem tracks_keeps (laws : bao.Laws) : Fill.Keeps bao m c (Tracks bao m c t₀) where
  frame := by
    intro v w h hstate hops
    exact ⟨hstate ▸ h.fits, by rw [hstate, hops]; exact h.backed,
      by rw [hstate, hops]; exact h.within, hops ▸ h.always⟩
  persisted := fun v persist h => h.persist persist rfl rfl
  mark := by
    intro v index encoded ls persist due hi hs hd h
    have hm : (v.state.mark index).2 = true := by rw [h.fits.mark_eq hi hs]
    obtain ⟨w, hstate, hops, b, hstate', hops'⟩ := markVerified_eq (c := c) persist due v ls hm
    have hw : Tracks bao m c t₀ w := h.mark laws hi hs hd hstate hops
    cases b with
    | true => exact hw.persist true hstate' (by simpa using hops')
    | false =>
      have hops' : (markVerified c persist due v index ls).ops = w.ops := by simpa using hops'
      exact ⟨hstate' ▸ hw.fits, by rw [hstate', hops']; exact hw.backed,
        by rw [hstate', hops']; exact hw.within, hops' ▸ hw.always⟩

end Tracking

end Zblob

import Zblob.Delivery

/-!
What the disk may hold between two calls, when each call can be cut off at any of its
steps. The two files of a partial are not updated together, so a fresh start over a
sidecar that still claims something is the one moment where they can disagree.
-/

set_option autoImplicit false

namespace Zblob

open ByteFile (setLen)
open Runs (run Always Reachable)

inductive Call where
  | downloadTo (dst : Dest) (req : DownloadRequest) (query : Option (List Reply))
      (rounds : List Round)
  | striped (dst : Dest) (req : DownloadRequest) (holders : List BlobProbe)
      (query : Option (List Reply)) (rounds : List Round) (stripes : List StripedRound)
  | deletePartial (partStays metaStays : Bool)

section Calls

variable [Postcard Manifest] (bao : Bao) (cfg : ClientConfig)

def Call.ops (d : Disk) : Call → List FsOp
  | .downloadTo dst req query rounds => (downloadToInner bao cfg d dst req query rounds).ops
  | .striped dst req holders query rounds stripes =>
    (runDownloadStriped bao cfg d dst req holders query rounds stripes).ops
  | .deletePartial partStays metaStays => Zblob.deletePartial partStays metaStays

/-- The disk when a crash or an I/O error stops a call after its first `k` steps. -/
def Call.cutAfter (d : Disk) (call : Call) (k : Nat) : Disk :=
  run Disk.apply ((call.ops bao cfg d).take k) d

def openedBy (dst : Dest) (d : Disk) (settled : Result (Manifest × TransferChunks)) :
    Option (Manifest × TransferChunks) :=
  if dst.refusesNow d then none else settled.toOption

def Call.opens (d : Disk) : Call → Option (Manifest × TransferChunks)
  | .downloadTo dst req query _ => openedBy dst d (start bao cfg req query)
  | .striped dst req (first :: second :: rest) _ _ _ =>
    openedBy dst d (stripedManifest req (first :: second :: rest) first)
  | .striped dst req _ query _ _ => openedBy dst d (start bao cfg req query)
  | .deletePartial _ _ => none

/-- If the call starts fresh, there is no sidecar of the same length that claims a chunk. -/
def Call.Clean (d : Disk) (call : Call) : Prop :=
  ∀ m c s, call.opens bao cfg d = some (m, c) → d.load = some s → resumes d m c s = false →
    s.totalLen = m.totalLen → ∀ i, s.isSet i = false

end Calls

/-- Whatever the next download would resume from is backed by verified bytes. -/
def Disk.Trusted (bao : Bao) (d : Disk) : Prop :=
  ∀ m c s, m.chunks = .ok c → d.load = some s → resumes d m c s = true →
    ∃ f, d.part = some f ∧ Backed bao m c s f

section Trust

variable {bao : Bao} {m : Manifest} {c : TransferChunks} {d : Disk}

theorem resumes_iff {s : ResumeState} (hc : m.chunks = .ok c) :
    resumes d m c s = true ↔ s.Fits m c ∧ ∃ f, d.part = some f ∧ f.length = m.totalLen.toNat := by
  rw [resumes, Bool.and_eq_true, ResumeState.matchesManifest_iff hc,
    beq_iff_eq, Option.map_eq_some_iff]

theorem trusted_of_no_load (h : d.load = none) : d.Trusted bao := by
  intro m c s _ hs
  rw [h] at hs
  cases hs

theorem trusted_of_no_part (h : d.part = none) : d.Trusted bao := by
  intro m c s hc _ hr
  obtain ⟨-, f, hf, -⟩ := (resumes_iff hc).mp hr
  rw [h] at hf
  cases hf

theorem trusted_of_unclaimed {f : Bytes} (hf : d.part = some f)
    (h : ∀ s, d.load = some s → s.totalLen.toNat = f.length → ∀ i, s.isSet i = false) :
    d.Trusted bao := by
  intro m c s hc hs hr
  obtain ⟨hfit, g, hg, hlen⟩ := (resumes_iff hc).mp hr
  obtain rfl : f = g := Option.some.inj (hf.symm.trans hg)
  exact ⟨f, hf, holds_none hlen fun i _ => h s hs (by rw [hfit.totalLen, hlen]) i⟩

theorem trusted_of_empty (hf : d.part = some []) : d.Trusted bao := by
  refine trusted_of_unclaimed hf fun s _ hlen i => ?_
  have hz : s.totalLen.toNat = 0 := hlen
  have h0 : s.chunkCount = 0 := by simp [ResumeState.chunkCount, hz, divCeil]
  simp [ResumeState.isSet, h0]

theorem Sound.trusted {f : Bytes} (hf : d.part = some f) (h : (d.target f).Sound bao m c) :
    d.Trusted bao := by
  intro m' c' s hc' hs hr
  obtain ⟨hfit', g, hg, -⟩ := (resumes_iff hc').mp hr
  obtain rfl : f = g := Option.some.inj (hf.symm.trans hg)
  obtain ⟨hfit, hb⟩ := h.2 s hs
  obtain ⟨hgeo, rfl⟩ := hfit.unique hfit'
  exact ⟨f, hf, hb.of_geometry hgeo⟩

theorem always_fill (ops : List FillOp) (d : Disk) {f : Bytes} (hf : d.part = some f)
    (h : Always Target.apply (Target.Sound bao m c) ops (d.target f)) :
    Always Disk.apply (Disk.Trusted bao) (ops.map .fill) d := by
  induction ops generalizing d f with
  | nil =>
    rw [Runs.always_nil] at h
    rw [List.map_nil, Runs.always_nil]
    exact Sound.trusted hf h
  | cons op ops ih =>
    rw [Runs.always_cons] at h
    rw [List.map_cons, Runs.always_cons]
    obtain ⟨hpart, hload, -⟩ := apply_fill d f hf op
    refine ⟨Sound.trusted hf h.1, ih _ hpart ?_⟩
    rw [Disk.target, hload]
    exact h.2

theorem startFresh_cut (hc : m.chunks = .ok c) (ht : d.Trusted bao) {k : Nat}
    (hclean : (∀ s, d.load = some s → s.totalLen = m.totalLen → ∀ i, s.isSet i = false) ∨ k ≠ 2) :
    (run Disk.apply ((startFresh m c).1.take k) d).Trusted bao := by
  match k with
  | 0 => exact ht
  | 1 => exact trusted_of_empty rfl
  | 2 =>
    rcases hclean with hclean | hk
    · refine trusted_of_unclaimed rfl fun s hs hlen => hclean s hs ?_
      rw [ByteFile.setLen_length] at hlen
      exact UInt64.toNat_inj.mp hlen
    · exact absurd rfl hk
  | k + 3 =>
    have hall : (startFresh m c).1.take (k + 3) = (startFresh m c).1 := by simp [startFresh]
    rw [hall, run_startFresh]
    refine trusted_of_unclaimed rfl fun s hs _ i => ?_
    obtain rfl : ResumeState.fresh m c.count = s := Option.some.inj hs
    exact ResumeState.fresh_isSet hc i

theorem openPart_tracks (hc : m.chunks = .ok c) (ht : d.Trusted bao) :
    ∃ f, (run Disk.apply (openPart d m c).1 d).part = some f ∧
      Tracks bao m c ((run Disk.apply (openPart d m c).1 d).target f)
        (Fill.resume (openPart d m c).2) := by
  have fresh : openPart d m c = startFresh m c →
      ∃ f, (run Disk.apply (openPart d m c).1 d).part = some f ∧
        Tracks bao m c ((run Disk.apply (openPart d m c).1 d).target f)
          (Fill.resume (openPart d m c).2) := by
    intro ho
    rw [ho]
    exact ⟨_, rfl,
      tracks_fresh hc _ _ (fun s hs => (Option.some.inj hs).symm) (ByteFile.setLen_length _ _)⟩
  cases hl : d.load with
  | none => exact fresh (openPart_fresh hl)
  | some s =>
    cases hr : resumes d m c s with
    | false => exact fresh (by simp [openPart, hl, hr])
    | true =>
      have ho : openPart d m c = ([], s) := by simp [openPart, hl, hr]
      obtain ⟨f, hf, hb⟩ := ht m c s hc hl hr
      have hfit := ((resumes_iff hc).mp hr).1
      rw [ho]
      refine ⟨f, hf, Tracks.start _ hfit hb ?_⟩
      intro s' hs'
      obtain rfl : s = s' := Option.some.inj (hl.symm.trans hs')
      exact ⟨hfit, fun i hi => hi⟩

theorem openPart_cut (hc : m.chunks = .ok c) (ht : d.Trusted bao) {k : Nat}
    (hclean : (∀ s, d.load = some s → resumes d m c s = false → s.totalLen = m.totalLen →
      ∀ i, s.isSet i = false) ∨ k ≠ 2) :
    (run Disk.apply ((openPart d m c).1.take k) d).Trusted bao := by
  have fresh : (∀ s, d.load = some s → resumes d m c s = false) →
      openPart d m c = startFresh m c →
      (run Disk.apply ((openPart d m c).1.take k) d).Trusted bao := by
    intro hno ho
    rw [ho]
    exact startFresh_cut hc ht (hclean.imp_left fun h s hs => h s hs (hno s hs))
  cases hl : d.load with
  | none => exact fresh (by simp [hl]) (openPart_fresh hl)
  | some s =>
    cases hr : resumes d m c s with
    | false => exact fresh (by simp [hl, hr]) (by simp [openPart, hl, hr])
    | true =>
      have ho : openPart d m c = ([], s) := by simp [openPart, hl, hr]
      simpa [ho] using ht

theorem finish_ops (dst : Dest) (m : Manifest) (opened : List FsOp) (filled : Fill × Outcome) :
    (dst.finish m opened filled).ops = opened ++ (dst.finish m [] filled).ops := by
  unfold Dest.finish
  simp only [List.nil_append]
  split
  · rfl
  · rfl
  · split
    · rw [List.append_assoc]
    · simp only [List.append_assoc]

theorem finish_always {dst : Dest} {filled : Fill × Outcome} {f : Bytes} (hf : d.part = some f)
    (htrack : Tracks bao m c (d.target f) filled.1) :
    Always Disk.apply (Disk.Trusted bao) (dst.finish m [] filled).ops d := by
  obtain ⟨hpart, -, -⟩ := run_fill filled.1.ops _ f hf
  have hfill := always_fill filled.1.ops _ hf htrack.always
  have hend := hfill.last
  have hsync :
      Always Disk.apply (Disk.Trusted bao) (filled.1.ops.map .fill ++ [.fill .commit]) d := by
    apply Runs.always_append hfill
    simp only [Runs.always_cons, Runs.always_nil, Disk.apply]
    exact ⟨hend, hend⟩
  unfold Dest.finish
  simp only [List.nil_append]
  split
  · exact hfill
  · exact hfill
  · split
    · exact hsync
    · apply Runs.always_append hsync
      have hrun : run Disk.apply (filled.1.ops.map .fill ++ [.fill .commit]) d =
          run Disk.apply (filled.1.ops.map .fill) d := by simp [Disk.apply]
      rw [Runs.always_cons]
      refine ⟨hsync.last, ?_⟩
      rw [hrun, Disk.apply, hpart]
      split
      · rw [Runs.always_nil]
        exact trusted_of_no_part rfl
      · simp only [Runs.always_cons, Runs.always_nil]
        exact ⟨trusted_of_no_part rfl, trusted_of_no_part rfl⟩

/-- A whole file download cut off after `k` steps. -/
theorem download_cut (hc : m.chunks = .ok c) (ht : d.Trusted bao) {k : Nat} {dst : Dest}
    {filled : Fill × Outcome}
    (hclean : (∀ s, d.load = some s → resumes d m c s = false → s.totalLen = m.totalLen →
      ∀ i, s.isSet i = false) ∨ k ≠ 2)
    (htrack : ∀ t, Tracks bao m c t (Fill.resume (openPart d m c).2) → Tracks bao m c t filled.1) :
    (run Disk.apply ((dst.finish m (openPart d m c).1 filled).ops.take k) d).Trusted bao := by
  rw [finish_ops, List.take_append, Runs.run_append]
  by_cases hk : k ≤ (openPart d m c).1.length
  · rw [Nat.sub_eq_zero_of_le hk, List.take_zero, Runs.run_nil]
    exact openPart_cut hc ht hclean
  · rw [List.take_of_length_le (by omega : (openPart d m c).1.length ≤ k)]
    obtain ⟨f, hf, htr⟩ := openPart_tracks hc ht
    exact finish_always hf (htrack _ htr) _ (Runs.run_take_mem_visited _ _ _)

end Trust

section Calls

variable {bao : Bao} {cfg : ClientConfig} {d : Disk}

theorem downloadTo_cut [Postcard Manifest] (laws : bao.Laws) (ht : d.Trusted bao) {k : Nat}
    {dst : Dest} {req : DownloadRequest} {query : Option (List Reply)} (rounds : List Round)
    (hclean : (Call.downloadTo dst req query rounds).Clean bao cfg d ∨ k ≠ 2) :
    (run Disk.apply
      ((downloadToInner bao cfg d dst req query rounds).ops.take k) d).Trusted bao := by
  unfold downloadToInner
  split
  · simpa [Ran.refused] using ht
  · rename_i hnow
    cases hs : start bao cfg req query with
    | error e => simpa [Ran.refused] using ht
    | ok mc =>
      obtain ⟨m, c⟩ := mc
      have hopens : (Call.downloadTo dst req query rounds).opens bao cfg d = some (m, c) := by
        simp [Call.opens, openedBy, hnow, hs, Except.toOption]
      exact download_cut (start_ok hs).1 ht (hclean.imp_left fun h s => h m c s hopens)
        (fun t htr => fillHoles_keeps (tracks_keeps laws) cfg true rounds _ htr)

theorem downloadStriped_cut [Postcard Manifest] (laws : bao.Laws) (ht : d.Trusted bao) {k : Nat}
    {dst : Dest} {req : DownloadRequest} {first second : BlobProbe} {rest : List BlobProbe}
    {query : Option (List Reply)} {rounds : List Round} {stripes : List StripedRound}
    (hclean : (Call.striped dst req (first :: second :: rest) query rounds stripes).Clean
      bao cfg d ∨
      k ≠ 2) :
    (run Disk.apply ((downloadStripedInner bao cfg d dst req first (first :: second :: rest)
      stripes).ops.take k) d).Trusted bao := by
  unfold downloadStripedInner
  split
  · simpa [Ran.refused] using ht
  · rename_i hnow
    cases hs : stripedManifest req (first :: second :: rest) first with
    | error e => simpa [Ran.refused] using ht
    | ok mc =>
      obtain ⟨m, c⟩ := mc
      have hopens : (Call.striped dst req (first :: second :: rest) query rounds stripes).opens
          bao cfg d = some (m, c) := by simp [Call.opens, openedBy, hnow, hs, Except.toOption]
      obtain ⟨rfl, -, -, hc⟩ := stripedManifest_ok.mp hs
      exact download_cut hc ht (hclean.imp_left fun h s => h _ c s hopens)
        (fun t htr => fillHolesStriped_keeps (tracks_keeps laws) cfg _ stripes
          ⟨Fill.resume _, fun _ => 0⟩ htr)

theorem deletePartial_cut (ht : d.Trusted bao) (partStays metaStays : Bool) (k : Nat) :
    (run Disk.apply ((deletePartial partStays metaStays).take k) d).Trusted bao := by
  have hm : ∀ d : Disk, (d.apply .removeMeta).Trusted bao := fun d => trusted_of_no_load rfl
  have hp : ∀ d : Disk, (d.apply .removePart).Trusted bao := fun d => trusted_of_no_part rfl
  have hall : Always Disk.apply (Disk.Trusted bao) (deletePartial partStays metaStays) d := by
    cases partStays <;> cases metaStays <;> simp [deletePartial, ht, hm, hp]
  exact hall _ (Runs.run_take_mem_visited _ _ _)

/-- One call keeps a trusted disk trusted, unless it starts fresh over claims and is cut
off right between `set_len` and the save. -/
theorem cutAfter_trusted [Postcard Manifest] (laws : bao.Laws) {call : Call} {k : Nat}
    (ht : d.Trusted bao) (hclean : call.Clean bao cfg d ∨ k ≠ 2) :
    (call.cutAfter bao cfg d k).Trusted bao := by
  cases call with
  | downloadTo dst req query rounds => exact downloadTo_cut laws ht rounds hclean
  | deletePartial partStays metaStays => exact deletePartial_cut ht partStays metaStays k
  | striped dst req holders query rounds stripes =>
    match holders, hclean with
    | [], hclean => exact downloadTo_cut laws ht rounds hclean
    | [_], hclean => exact downloadTo_cut laws ht rounds hclean
    | first :: second :: rest, hclean => exact downloadStriped_cut laws ht hclean

end Calls

/-- The disks a run of calls can leave, each call cut off after some number of steps that
`allowed` admits. -/
def Durable [Postcard Manifest] (bao : Bao) (cfg : ClientConfig)
    (allowed : Disk → Call → Nat → Prop) : Disk → Prop :=
  Reachable (fun d => d.load = none)
    (fun d (step : Call × Nat) d' => allowed d step.1 step.2 ∧
      d' = step.1.cutAfter bao cfg d step.2)

/-- Where no call that starts fresh over a sidecar of the same length with claims is cut
off between `set_len` and the save, a resumable partial holds verified bytes. -/
theorem resume_trusted [Postcard Manifest] (bao : Bao) (laws : bao.Laws) (cfg : ClientConfig)
    (d : Disk) (h : Durable bao cfg (fun d call k => call.Clean bao cfg d ∨ k ≠ 2) d) :
    d.Trusted bao := by
  apply Reachable.invariant _ _ h
  · intro d h0
    exact trusted_of_no_load h0
  · intro d step d' ht hstep
    rw [hstep.2]
    exact cutAfter_trusted laws ht hstep.1

def sampleCall : Call :=
  .striped sampleDest ⟨"x", none⟩ (sampleHolders (sampleManifest 3 (shortHash [97, 98, 99])))
    none []
    [sampleRound]

/-- The download of `abc` stopped after its first full save: the disk can be resumed from,
and holds the content. -/
theorem resume_trusted_abc :
    let _ : Postcard Manifest := ⟨fun _ => none⟩
    let d := sampleCall.cutAfter shortBao sampleConfig Disk.empty 6
    d.part = some [97, 98, 99] ∧ (d.load.map fun s => s.isSet 0) = some true ∧
      d.Trusted shortBao := by
  let _ : Postcard Manifest := ⟨fun _ => none⟩
  refine ⟨by decide, by decide, resume_trusted shortBao shortBao_laws sampleConfig _ ?_⟩
  exact .next (a := (sampleCall, 6)) (.start (s := Disk.empty) rfl) ⟨.inr (by decide), rfl⟩

/-- The first download stops between the rename and the removal of its sidecar; the second
starts fresh and stops after `set_len`. The sidecar then claims three bytes of zeros. -/
theorem stale_sidecar_trusted :
    let _ : Postcard Manifest := ⟨fun _ => none⟩
    ∃ d, Durable shortBao sampleConfig (fun _ _ _ => True) d ∧ ¬ d.Trusted shortBao := by
  let _ : Postcard Manifest := ⟨fun _ => none⟩
  refine ⟨sampleCall.cutAfter shortBao sampleConfig
    (sampleCall.cutAfter shortBao sampleConfig Disk.empty 10) 2,
    .next (a := (sampleCall, 2)) (.next (a := (sampleCall, 10)) (.start rfl) ⟨trivial, rfl⟩)
      ⟨trivial, rfl⟩, fun ht => ?_⟩
  let m := sampleManifest 3 (shortHash [97, 98, 99])
  let c : TransferChunks := ⟨65536, 3, by decide, by decide⟩
  have hc : m.chunks = .ok c := TransferChunks.new_self c
  obtain ⟨f, hf, hb⟩ := ht m c ((ResumeState.fresh m 1).mark 0).1 hc (by decide) (by decide)
  obtain rfl : [0, 0, 0] = f := Option.some.inj (Eq.trans (by decide) hf)
  have hh := oneGroup_verified hc (by decide) (hb.2 0 (by decide) (by decide))
  exact absurd hh (by decide)

end Zblob

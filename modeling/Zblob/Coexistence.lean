import Zblob.Durable

/-!
Downloads and the fan-out receiver on one destination. Both fill `<dest>.part`, but only
the downloads keep a sidecar: the receiver refills the file under whatever sidecar is there.
-/

set_option autoImplicit false

namespace Zblob

open ByteFile (setLen)
open Runs (run Reachable)

inductive DestCall where
  | client (call : Call)
  | fanout (cfg : FanoutConfig) (dst : Dest) (id : String) (expectedRoot : Option Hash)
      (recvs : List FanoutRecv)

section Calls

variable [Postcard Manifest] [Postcard FanoutMessage] (bao : Bao) (cfg : ClientConfig)

def DestCall.ops (d : Disk) : DestCall → List FsOp
  | .client call => call.ops bao cfg d
  | .fanout fcfg dst id expectedRoot recvs =>
    (receiveFanout bao fcfg d dst id expectedRoot recvs).ops

def DestCall.cutAfter (d : Disk) (call : DestCall) (k : Nat) : Disk :=
  run Disk.apply ((call.ops bao cfg d).take k) d

end Calls

def fanoutOpens [Postcard FanoutMessage] (bao : Bao) (cfg : FanoutConfig) (d : Disk) (dst : Dest)
    (id : String) (expectedRoot : Option Hash) (recvs : List FanoutRecv) :
    Option (Manifest × TransferChunks) :=
  if dst.refusesNow d then none
  else
    match phaseA bao cfg id expectedRoot PhaseA.start recvs with
    | .manifest m c _ _ => some (m, c)
    | _ => none

/-- What becomes of a sidecar of the same length that claims chunks, when a receiver of `m`
has made the steps `done`: they do not reach `set_len`, they take the partial away again, or
the sidecar is of the very blob that was received whole. -/
def Spared (m : Manifest) (s : ResumeState) (done : List FsOp) : Prop :=
  done.length ≤ 1 ∨ .removePart ∈ done ∨ .renamePart ∈ done ∨
    s.root = m.root ∧ s.chunkSize = m.chunkSize ∧ .fill .commit ∈ done

/-- A call that runs to its end is always admitted when it is a download. One that is cut off
does not stop between `set_len` and the save of a fresh start over claims; a receiver spares
the claims that are there. -/
def DestCall.Admitted [Postcard Manifest] [Postcard FanoutMessage] (bao : Bao) (cfg : ClientConfig)
    (d : Disk) (k : Nat) : DestCall → Prop
  | .client call => (call.ops bao cfg d).length ≤ k ∨ call.Clean bao cfg d ∨ k ≠ 2
  | .fanout fcfg dst id expectedRoot recvs =>
    ∀ m c s, fanoutOpens bao fcfg d dst id expectedRoot recvs = some (m, c) → d.load = some s →
      s.totalLen = m.totalLen → (∃ i, s.isSet i = true) →
      Spared m s ((receiveFanout bao fcfg d dst id expectedRoot recvs).ops.take k)

section Receiver

variable {bao : Bao} {m : Manifest} {c : TransferChunks}

def WritesInside (m : Manifest) (ops : List FillOp) : Prop :=
  ∀ op ∈ ops, ∃ off data, op = .write off data ∧ off + data.length ≤ m.totalLen.toNat

theorem applySlice_inside (laws : bao.Laws) (hc : m.chunks = .ok c) (b : PhaseB) (index : UInt32)
    (data : Bytes) (h : WritesInside m b.ops) :
    WritesInside m (applySlice bao m c b index data).ops := by
  unfold applySlice
  simp only
  split
  · exact h
  · rename_i hnew
    cases hd : bao.decodeSlice m.root m.totalLen.toNat
      (chunkRange (c.byteRange index.toNat)) data with
    | none => exact h
    | some ls =>
      intro op hop
      rcases List.mem_append.mp hop with hop | hop
      · exact h op hop
      · obtain ⟨l, hl, rfl⟩ := List.mem_map.mp hop
        have hin := (chunk_tiles laws hc (by omega) hd).inside l hl
        have hle := c.byteRange_le index.toNat
        rw [(Manifest.chunks_ok hc).2] at hle
        exact ⟨l.1, l.2, rfl, Nat.le_trans hin hle⟩

theorem WritesInside.length_run {ops : List FillOp} {t : Target} (h : WritesInside m ops)
    (hf : t.file.length = m.totalLen.toNat) :
    (run Target.apply ops t).file.length = m.totalLen.toNat ∧
      (run Target.apply ops t).saved = t.saved := by
  induction ops generalizing t with
  | nil => exact ⟨hf, rfl⟩
  | cons op ops ih =>
    obtain ⟨off, data, rfl, hle⟩ := h op (by simp)
    have hlen : (t.apply (.write off data)).file.length = m.totalLen.toNat := by
      simpa [Target.apply, ByteFile.writeAt_length (hf ▸ hle)] using hf
    exact ih (fun op hop => h op (by simp [hop])) hlen

/-- The receiver's steps after its partial has its length: the writes, and then one of the
four endings. -/
inductive Ending (bao : Bao) (m : Manifest) (c : TransferChunks) (ops : List FillOp) :
    List FsOp → Prop where
  | waiting : Ending bao m c ops []
  | failed : Ending bao m c ops [.removePart]
  | kept (h : ∀ t : Target, t.file.length = m.totalLen.toNat →
      Holds bao m c (fun _ => true) (run Target.apply ops t).file) :
    Ending bao m c ops [.fill .commit]
  | delivered (h : ∀ t : Target, t.file.length = m.totalLen.toNat →
      Holds bao m c (fun _ => true) (run Target.apply ops t).file) :
    Ending bao m c ops [.fill .commit, .renamePart]

theorem receiveFanout_steps [Postcard FanoutMessage] (laws : bao.Laws) {cfg : FanoutConfig}
    {d : Disk} {dst : Dest} {id : String} {expectedRoot : Option Hash} {recvs : List FanoutRecv}
    (h : fanoutOpens bao cfg d dst id expectedRoot recvs = some (m, c)) :
    m.chunks = .ok c ∧ ∃ ops tail, WritesInside m ops ∧ Ending bao m c ops tail ∧
      (receiveFanout bao cfg d dst id expectedRoot recvs).ops =
        .createPart :: .setLenPart m.totalLen.toNat :: (ops.map .fill ++ tail) := by
  unfold fanoutOpens at h
  split at h
  · cases h
  rename_i hnow
  split at h
  · rename_i m' c' early rest ha
    cases h
    obtain ⟨-, -, hc, -, -⟩ := fanoutVerdict_ok (phaseA_manifest ha)
    refine ⟨hc, ?_⟩
    simp only [receiveFanout, ha, if_neg hnow]
    have hwrites : WritesInside m
        (phaseB bao m c (applyEarly bao m c (PhaseB.start c) early) rest).1.ops :=
      phaseB_keeps (P := fun b => WritesInside m b.ops) (applySlice_inside laws hc) rest
        (applyEarly_keeps (P := fun b => WritesInside m b.ops) (applySlice_inside laws hc) early
          (by simp [PhaseB.start, WritesInside]))
    have hreceives : ∀ t : Target, t.file.length = m.totalLen.toNat → Receives bao m c t
        (phaseB bao m c (applyEarly bao m c (PhaseB.start c) early) rest).1 := fun t hf =>
      ((receives_start hf).applyEarly laws hc early).phaseB laws hc rest
    cases hb : phaseB bao m c (applyEarly bao m c (PhaseB.start c) early) rest with
    | mk b outcome =>
      rw [hb] at hwrites hreceives
      refine ⟨b.ops, ?_⟩
      cases outcome with
      | pending => exact ⟨[], hwrites, .waiting, by simp⟩
      | done r =>
        cases r with
        | error e => exact ⟨_, hwrites, .failed, by simp⟩
        | ok u =>
          have hall := fun t hf => (hreceives t hf).complete (phaseB_done hb)
          simp only
          split
          · exact ⟨_, hwrites, .kept hall, by simp⟩
          · exact ⟨_, hwrites, .delivered hall, by simp⟩
  · cases h

theorem receiveFanout_idle [Postcard FanoutMessage] {cfg : FanoutConfig} {d : Disk} {dst : Dest}
    {id : String} {expectedRoot : Option Hash} {recvs : List FanoutRecv}
    (h : fanoutOpens bao cfg d dst id expectedRoot recvs = none) :
    (receiveFanout bao cfg d dst id expectedRoot recvs).ops = [] := by
  unfold fanoutOpens at h
  unfold receiveFanout
  split at h
  · rename_i hnow
    simp [hnow, Ran.refused]
  · rename_i hnow
    rw [if_neg hnow]
    split at h
    · cases h
    · rename_i hno
      split
      · rfl
      · rfl
      · rename_i m c early rest hset
        exact absurd hset (hno m c early rest)

theorem refilled_trusted {d d' : Disk} {f : Bytes} (hc : m.chunks = .ok c)
    (hpart : d'.part = some f)
    (hlen : f.length = m.totalLen.toNat) (hload : d'.load = d.load)
    (hspare : ∀ s, d.load = some s → s.totalLen = m.totalLen → (∃ i, s.isSet i = true) →
      s.root = m.root ∧ s.chunkSize = m.chunkSize ∧ Holds bao m c (fun _ => true) f) :
    d'.Trusted bao := by
  intro m' c' s hc' hs hr
  obtain ⟨hfit, g, hg, hlen'⟩ := (resumes_iff hc').mp hr
  obtain rfl : f = g := Option.some.inj (hpart.symm.trans hg)
  have htotal : s.totalLen = m.totalLen :=
    UInt64.toNat_inj.mp (by rw [hfit.totalLen, ← hlen', hlen])
  refine ⟨f, hpart, ?_⟩
  by_cases hclaim : ∃ i, s.isSet i = true
  · obtain ⟨hroot, hsize, hall⟩ := hspare s (hload ▸ hs) htotal hclaim
    have hgeo : m'.geometry = m.geometry := by
      simp only [Manifest.geometry, ← hfit.root, ← hfit.totalLen, ← hfit.chunkSize, hroot, htotal,
        hsize]
    have hchunks : m'.chunks = m.chunks := by
      simp only [Manifest.chunks, ← hfit.totalLen, ← hfit.chunkSize, htotal, hsize]
    obtain rfl : c' = c := Except.ok.inj (hc'.symm.trans (hchunks.trans hc))
    exact (hall.of_geometry hgeo).mono fun _ _ _ => rfl
  · exact holds_none hlen' fun i _ => by simpa using not_exists.mp hclaim i

def refilled (d : Disk) (m : Manifest) (ops : List FillOp) : Disk :=
  run Disk.apply (ops.map .fill) ⟨d.dest, some (setLen [] m.totalLen.toNat), d.sidecar⟩

theorem WritesInside.refilled {ops : List FillOp} (h : WritesInside m ops) (d : Disk) :
    (refilled d m ops).load = d.load ∧ ∃ t : Target, t.file.length = m.totalLen.toNat ∧
      (refilled d m ops).part = some (run Target.apply ops t).file ∧
      (run Target.apply ops t).file.length = m.totalLen.toNat := by
  have hlen := ByteFile.setLen_length [] m.totalLen.toNat
  obtain ⟨hpart, hload, -⟩ := run_fill ops
    ⟨d.dest, some (setLen [] m.totalLen.toNat), d.sidecar⟩ _ rfl
  obtain ⟨hfile, hsaved⟩ := h.length_run (t := Disk.target
    ⟨d.dest, some (setLen [] m.totalLen.toNat), d.sidecar⟩ (setLen [] m.totalLen.toNat)) hlen
  exact ⟨hload.trans hsaved, _, hlen, hpart, hfile⟩

theorem Spared.tail {s : ResumeState} {ops : List FillOp} {tail : List FsOp}
    (hw : WritesInside m ops)
    (h : Spared m s (.createPart :: .setLenPart m.totalLen.toNat :: (ops.map .fill ++ tail))) :
    .removePart ∈ tail ∨ .renamePart ∈ tail ∨
      s.root = m.root ∧ s.chunkSize = m.chunkSize ∧ .fill .commit ∈ tail := by
  have hcommit : FillOp.commit ∉ ops := by
    intro hmem
    obtain ⟨off, data, hop, -⟩ := hw _ hmem
    cases hop
  rcases h with h | h | h | ⟨hroot, hsize, h⟩
  · simp at h
  · exact .inl (by simpa using h)
  · exact .inr (.inl (by simpa using h))
  · exact .inr (.inr ⟨hroot, hsize, by simpa [hcommit] using h⟩)

theorem refilled_cut {d : Disk} {ops : List FillOp} {tail : List FsOp} {k : Nat}
    (hc : m.chunks = .ok c) (hw : WritesInside m ops) (hend : Ending bao m c ops tail)
    (hspare : ∀ s, d.load = some s → s.totalLen = m.totalLen → (∃ i, s.isSet i = true) →
      Spared m s (.createPart :: .setLenPart m.totalLen.toNat ::
        ((ops.take k).map .fill ++ tail.take (k - ops.length)))) :
    (run Disk.apply (tail.take (k - ops.length)) (refilled d m (ops.take k))).Trusted bao := by
  have hwk : WritesInside m (ops.take k) := fun op hop => hw op (List.mem_of_mem_take hop)
  obtain ⟨hload, t, ht, hpart, hlen⟩ := hwk.refilled d
  -- before the first step of the ending nothing is spared, so nothing is claimed
  have before : tail.take (k - ops.length) = [] → (refilled d m (ops.take k)).Trusted bao := by
    intro hnil
    refine refilled_trusted hc hpart hlen hload fun s hs htotal hclaim => ?_
    have := (hspare s hs htotal hclaim).tail hwk
    simp [hnil] at this
  have synced : 0 < k - ops.length → tail.take (k - ops.length) = [.fill .commit] →
      (∀ t : Target, t.file.length = m.totalLen.toNat →
        Holds bao m c (fun _ => true) (run Target.apply ops t).file) →
      (refilled d m (ops.take k)).Trusted bao := by
    intro hj htl hall
    refine refilled_trusted hc hpart hlen hload fun s hs htotal hclaim => ?_
    have hmine := (hspare s hs htotal hclaim).tail hwk
    rw [htl] at hmine
    simp only [List.mem_singleton, reduceCtorEq, false_or, and_true] at hmine
    refine ⟨hmine.1, hmine.2, ?_⟩
    rw [List.take_of_length_le (by omega)]
    exact hall t ht
  cases hj : k - ops.length with
  | zero => exact before (by simp [hj])
  | succ j =>
    cases hend with
    | waiting => exact before (by simp)
    | failed =>
      apply trusted_of_no_part
      simp [Disk.apply]
    | kept hall => simpa [Disk.apply] using synced (by omega) (by simp [hj]) hall
    | delivered hall =>
      cases j with
      | zero => simpa [Disk.apply] using synced (by omega) (by simp [hj]) hall
      | succ j =>
        apply trusted_of_no_part
        simp [Disk.apply, hpart]

/-- A receiver cut off after `k` steps leaves a trusted disk, if it spares the claims there. -/
theorem fanout_cut [Postcard FanoutMessage] (laws : bao.Laws) {cfg : FanoutConfig}
    {d : Disk} {dst : Dest} {id : String} {expectedRoot : Option Hash} {recvs : List FanoutRecv}
    {k : Nat} (ht : d.Trusted bao)
    (hspare : ∀ m c s, fanoutOpens bao cfg d dst id expectedRoot recvs = some (m, c) →
      d.load = some s → s.totalLen = m.totalLen → (∃ i, s.isSet i = true) →
      Spared m s ((receiveFanout bao cfg d dst id expectedRoot recvs).ops.take k)) :
    (run Disk.apply ((receiveFanout bao cfg d dst id expectedRoot recvs).ops.take k) d).Trusted
      bao := by
  cases hopen : fanoutOpens bao cfg d dst id expectedRoot recvs with
  | none => simpa [receiveFanout_idle hopen] using ht
  | some mc =>
    obtain ⟨m, c⟩ := mc
    obtain ⟨hc, ops, tail, hwrites, hend, hops⟩ := receiveFanout_steps laws hopen
    rw [hops] at hspare ⊢
    match k with
    | 0 => exact ht
    | 1 => exact trusted_of_empty rfl
    | k + 2 =>
      have hdone : (FsOp.createPart :: .setLenPart m.totalLen.toNat :: (ops.map .fill ++ tail)).take
          (k + 2) = .createPart :: .setLenPart m.totalLen.toNat ::
            ((ops.take k).map .fill ++ tail.take (k - ops.length)) := by
        simp [List.take_append]
      rw [hdone] at hspare ⊢
      rw [Runs.run_cons, Runs.run_cons, Runs.run_append]
      exact refilled_cut hc hwrites hend fun s hs => hspare m c s hopen hs

end Receiver

section Calls

variable [Postcard Manifest] [Postcard FanoutMessage] {bao : Bao} {cfg : ClientConfig} {d : Disk}

theorem destCall_cut (laws : bao.Laws) (ht : d.Trusted bao) {call : DestCall} {k : Nat}
    (h : call.Admitted bao cfg d k) : (call.cutAfter bao cfg d k).Trusted bao := by
  cases call with
  | fanout fcfg dst id expectedRoot recvs => exact fanout_cut laws ht h
  | client call =>
    rcases h with hall | hclean
    · -- a finished call could as well have been stopped later
      have hsame :
        (DestCall.client call).cutAfter bao cfg d k = call.cutAfter bao cfg d (k + 3) := by
        simp only [DestCall.cutAfter, Call.cutAfter, DestCall.ops]
        rw [List.take_of_length_le hall, List.take_of_length_le (by omega)]
      rw [hsame]
      exact cutAfter_trusted laws ht (.inr (by omega))
    · exact cutAfter_trusted laws ht hclean

end Calls

def Coexists [Postcard Manifest] [Postcard FanoutMessage] (bao : Bao) (cfg : ClientConfig)
    (allowed : Disk → DestCall → Nat → Prop) : Disk → Prop :=
  Reachable (fun d => d.load = none)
    (fun d (step : DestCall × Nat) d' => allowed d step.1 step.2 ∧
      d' = step.1.cutAfter bao cfg d step.2)

/-- Where every receiver spares the claims of the sidecar it finds, no download resumes from
a partial whose claimed chunks are not verified bytes. -/
theorem coexisting_resume_trusted [Postcard Manifest] [Postcard FanoutMessage] (bao : Bao)
    (laws : bao.Laws) (cfg : ClientConfig) (d : Disk)
    (h : Coexists bao cfg (fun d call k => call.Admitted bao cfg d k) d) : d.Trusted bao := by
  apply Reachable.invariant _ _ h
  · intro d h0
    exact trusted_of_no_load h0
  · intro d step d' ht hstep
    rw [hstep.2]
    exact destCall_cut laws ht hstep.1

abbrev framePostcard : Postcard FanoutMessage where
  fromBytes b :=
    if b = [0] then some ⟨wireVersion, .manifest (sampleManifest 3 (shortHash [120, 121, 122]))⟩
    else if b = [1] then some ⟨wireVersion, .slice 0 [120, 121, 122]⟩
    else none

/-- The destination appears while a call is under way, and is gone before the next one. -/
def lateDest : Dest := ⟨"out", .refuse, true, false⟩

def lateDownload : DestCall :=
  .client (.striped lateDest ⟨"x", none⟩
    (sampleHolders (sampleManifest 3 (shortHash [97, 98, 99]))) none [] [sampleRound])

def receiveXyz (dst : Dest) : DestCall :=
  .fanout ⟨1024, 1000⟩ dst "x" none
    [.sample ⟨"x", encFanout, [0]⟩, .sample ⟨"x", encFanout, [1]⟩]

/-- The receiver leaves `xyz` behind without a sidecar; the download starts over and the disk
it leaves resumes `abc`. -/
theorem coexisting_resume_trusted_abc :
    let _ : Postcard Manifest := ⟨fun _ => none⟩
    let _ := framePostcard
    let d := lateDownload.cutAfter shortBao sampleConfig
      ((receiveXyz lateDest).cutAfter shortBao sampleConfig Disk.empty 9) 9
    d.part = some [97, 98, 99] ∧ (d.load.map fun s => s.isSet 0) = some true ∧
      d.Trusted shortBao := by
  let _ : Postcard Manifest := ⟨fun _ => none⟩
  let _ := framePostcard
  refine ⟨by decide, by decide, coexisting_resume_trusted shortBao shortBao_laws sampleConfig _ ?_⟩
  refine .next (a := (lateDownload, 9)) (.next (a := (receiveXyz lateDest, 9)) (.start rfl)
    ⟨?_, rfl⟩) ⟨.inl (by decide), rfl⟩
  intro m c s _ hload
  cases hload

/-- The download of `abc` is refused late and leaves its partial with a sidecar; the receiver
of `xyz` refills the partial and is refused late too. The sidecar then claims `xyz` as a
chunk of `abc`. -/
theorem receiver_poisons_partial :
    let _ : Postcard Manifest := ⟨fun _ => none⟩
    let _ := framePostcard
    ∃ d, Coexists shortBao sampleConfig
        (fun d call k => (call.ops shortBao sampleConfig d).length ≤ k) d ∧
      d.part = some [120, 121, 122] ∧ ¬d.Trusted shortBao := by
  let _ : Postcard Manifest := ⟨fun _ => none⟩
  let _ := framePostcard
  refine ⟨(receiveXyz lateDest).cutAfter shortBao sampleConfig
    (lateDownload.cutAfter shortBao sampleConfig Disk.empty 9) 9,
    .next (a := (receiveXyz lateDest, 9)) (.next (a := (lateDownload, 9)) (.start rfl)
      ⟨by decide, rfl⟩) ⟨by decide, rfl⟩, by decide, fun ht => ?_⟩
  let m := sampleManifest 3 (shortHash [97, 98, 99])
  let c : TransferChunks := ⟨65536, 3, by decide, by decide⟩
  have hc : m.chunks = .ok c := TransferChunks.new_self c
  obtain ⟨f, hf, hb⟩ := ht m c ((ResumeState.fresh m 1).mark 0).1 hc (by decide) (by decide)
  obtain rfl : [120, 121, 122] = f := Option.some.inj (Eq.trans (by decide) hf)
  have hh := oneGroup_verified hc (by decide) (hb.2 0 (by decide) (by decide))
  exact absurd hh (by decide)

end Zblob

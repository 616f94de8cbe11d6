import Zblob.Fanout

/-!
What a download that returned delivered. Three of the four receive paths prove the
content of every blob; the striped one proves it of every blob but an empty one, whose
root it never looks at.
-/

set_option autoImplicit false

namespace Zblob

open ByteFile (Leaf Tiles leafBytes writeAll writeAt setLen window)
open Runs (run visited Always)

section Files

variable {bao : Bao} {m : Manifest} {c : TransferChunks} {d : Disk}

theorem openPart_fresh (h : d.load = none) : openPart d m c = startFresh m c := by
  simp [openPart, h]

theorem run_startFresh (m : Manifest) (c : TransferChunks) (d : Disk) :
    run Disk.apply (startFresh m c).1 d =
      ⟨d.dest, some (setLen [] m.totalLen.toNat), some (.state (ResumeState.fresh m c.count))⟩ :=
      rfl

theorem tracks_fresh (hc : m.chunks = .ok c) (stats : TransferStats) (saved : Option ResumeState)
    (hsaved : ∀ s, saved = some s → s = ResumeState.fresh m c.count) {f : Bytes}
    (hf : f.length = m.totalLen.toNat) :
    Tracks bao m c ⟨f, saved⟩ (Fill.start (ResumeState.fresh m c.count) stats) := by
  refine Tracks.start stats (ResumeState.fresh_fits hc) (backed_fresh hc hf) ?_
  intro s hs
  rw [hsaved s hs]
  exact ⟨ResumeState.fresh_fits hc, fun i hi => hi⟩

theorem Tracks.content (laws : bao.Laws) {t : Target} {v : Fill} (h : Tracks bao m c t v)
    (hdone : v.state.isComplete c.count = true) (hempty : m.totalLen = 0 → m.root = bao.hash []) :
    (run Target.apply v.ops t).file.length = m.totalLen.toNat ∧
      bao.hash (run Target.apply v.ops t).file = m.root :=
  Holds.content laws h.fits.geometry h.backed
    (fun _ hi => h.fits.isSet_of_complete hdone hi) hempty

theorem finish_ok {dst : Dest} {opened : List FsOp} {filled : Fill × Outcome}
    {stats : TransferStats}
    (h : (dst.finish m opened filled).result = some (.ok stats)) :
    filled.2 = .done (.ok ()) ∧ ¬ (dst.overwrite = .refuse ∧ dst.appeared = true) ∧
      (dst.finish m opened filled).manifest = some m ∧
      (dst.finish m opened filled).ops = opened ++ filled.1.ops.map .fill ++ [.fill .commit] ++
        .renamePart :: (if dst.metaStays then [] else [.removeMeta]) := by
  obtain ⟨v, outcome⟩ := filled
  cases outcome with
  | pending => simp [Dest.finish] at h
  | done r =>
    cases r with
    | error e => simp [Dest.finish] at h
    | ok u =>
      simp only [Dest.finish] at h ⊢
      split at h
      · simp at h
      · rename_i hlate
        refine ⟨trivial, hlate, ?_⟩
        rw [if_neg hlate]
        exact ⟨rfl, rfl⟩

theorem finish_dest {dst : Dest} {opened : List FsOp} {filled : Fill × Outcome}
    {stats : TransferStats}
    (h : (dst.finish m opened filled).result = some (.ok stats)) {f : Bytes}
    (hf : (run Disk.apply opened d).part = some f) :
    (run Disk.apply (dst.finish m opened filled).ops d).dest =
      some (run Target.apply filled.1.ops ((run Disk.apply opened d).target f)).file := by
  obtain ⟨-, -, -, hops⟩ := finish_ok h
  obtain ⟨hpart, -, -⟩ := run_fill filled.1.ops _ f hf
  rw [hops, Runs.run_append, Runs.run_append, Runs.run_append, Runs.run_cons, Runs.run_cons,
    Runs.run_nil]
  simp only [Disk.apply, hpart]
  split <;> rfl

/-- A file download from a disk without a sidecar that returned, whichever loop it
ran: `m`'s content lies at the destination. -/
theorem fresh_delivers (laws : bao.Laws) (hc : m.chunks = .ok c) {dst : Dest}
    {filled : Fill × Outcome} {stats : TransferStats}
    (h : (dst.finish m (startFresh m c).1 filled).result = some (.ok stats))
    (htrack : ∀ t, Tracks bao m c t (Fill.resume (ResumeState.fresh m c.count)) →
      Tracks bao m c t filled.1)
    (hdone : filled.2 = .done (.ok ()) → filled.1.state.isComplete c.count = true)
    (hempty : m.totalLen = 0 → m.root = bao.hash []) :
    ∃ f, (run Disk.apply (dst.finish m (startFresh m c).1 filled).ops d).dest = some f ∧
      f.length = m.totalLen.toNat ∧ bao.hash f = m.root := by
  have hdest := finish_dest (d := d) h (f := setLen [] m.totalLen.toNat) rfl
  have ht := htrack ⟨setLen [] m.totalLen.toNat, some (ResumeState.fresh m c.count)⟩
    (tracks_fresh hc _ _ (fun s hs => (Option.some.inj hs).symm) (ByteFile.setLen_length _ _))
  exact ⟨_, hdest, ht.content laws (hdone (finish_ok h).1) hempty⟩

end Files

section Writer

variable (m : Manifest) (c : TransferChunks)

/-- The writes stay inside the blob, and each marked chunk was written to its end. -/
structure Written (v : Fill) : Prop where
  fits : v.state.Fits m c
  inside : ∀ off data, FillOp.write off data ∈ v.ops → off + data.length ≤ m.totalLen.toNat
  reaches : ∀ i, v.state.isSet i = true → ∃ off data, FillOp.write off data ∈ v.ops ∧ data ≠ [] ∧
    off + data.length = (c.byteRange i).2

variable {bao : Bao} {m c}

theorem mem_leafOps {ls : List Leaf} {off : Nat} {data : Bytes} :
    FillOp.write off data ∈ leafOps ls ↔ (off, data) ∈ ls := by
  simp only [leafOps, List.mem_map, FillOp.write.injEq, Prod.exists]
  constructor
  · rintro ⟨a, b, hm, rfl, rfl⟩
    exact hm
  · intro hm
    exact ⟨off, data, hm, rfl, rfl⟩

theorem not_mem_persistOps {persist : Bool} {s : ResumeState} {off : Nat} {data : Bytes} :
    FillOp.write off data ∉ persistOps persist s := by
  cases persist <;> simp [persistOps]

theorem Written.persist {v w : Fill} (h : Written m c v) {persist : Bool} {s : ResumeState}
    (hstate : w.state = v.state) (hops : w.ops = v.ops ++ persistOps persist s) :
    Written m c w := by
  have hmem : ∀ off data, FillOp.write off data ∈ w.ops ↔ FillOp.write off data ∈ v.ops := by
    intro off data
    rw [hops, List.mem_append, or_iff_left not_mem_persistOps]
  refine ⟨hstate ▸ h.fits, fun off data hm => h.inside off data ((hmem off data).mp hm), ?_⟩
  intro i hi
  obtain ⟨off, data, hm, hr⟩ := h.reaches i (hstate ▸ hi)
  exact ⟨off, data, (hmem off data).mpr hm, hr⟩

theorem Written.mark (laws : bao.Laws) {v w : Fill} (h : Written m c v) {index : Nat}
    {encoded : Bytes} {ls : List Leaf} (hi : index < c.count)
    (hd : bao.decodeSlice m.root m.totalLen.toNat (chunkRange (c.byteRange index))
      encoded = some ls)
    (hstate : w.state = (v.state.mark index).1) (hops : w.ops = v.ops ++ leafOps ls) :
    Written m c w := by
  have ht := chunk_tiles laws h.fits.geometry hi hd
  refine ⟨hstate ▸ h.fits.mark_fits index, ?_, ?_⟩
  · intro off data hm
    rw [hops, List.mem_append, mem_leafOps] at hm
    rcases hm with hm | hm
    · exact h.inside off data hm
    · have hin := ht.inside _ hm
      have hle := c.byteRange_le index
      rw [(Manifest.chunks_ok h.fits.geometry).2] at hle
      exact Nat.le_trans hin hle
  · intro i hset
    rw [hstate, h.fits.mark_isSet, Bool.or_eq_true, Bool.and_eq_true] at hset
    rw [hops]
    rcases hset with hset | hset
    · obtain ⟨off, data, hm, hr⟩ := h.reaches i hset
      exact ⟨off, data, List.mem_append_left _ hm, hr⟩
    · obtain rfl : index = i := of_decide_eq_true hset.1
      obtain ⟨l, hm, hr⟩ := ht.reaches (c.byteRange_lt hi)
      exact ⟨l.1, l.2, List.mem_append_right _ (mem_leafOps.mpr hm), hr⟩

theorem written_keeps (laws : bao.Laws) : Fill.Keeps bao m c (Written m c) where
  frame := by
    intro v w h hstate hops
    exact ⟨hstate ▸ h.fits, hops ▸ h.inside, by rw [hstate, hops]; exact h.reaches⟩
  persisted := fun v persist h => h.persist rfl rfl
  mark := by
    intro v index encoded ls persist due hi hs hd h
    have hm : (v.state.mark index).2 = true := by rw [h.fits.mark_eq hi hs]
    obtain ⟨w, hstate, hops, b, hstate', hops'⟩ := markVerified_eq (c := c) persist due v ls hm
    have hw : Written m c w := h.mark laws hi hd hstate hops
    cases b with
    | true => exact hw.persist hstate' (by simpa using hops')
    | false =>
      have hops' : (markVerified c persist due v index ls).ops = w.ops := by simpa using hops'
      exact ⟨hstate' ▸ hw.fits, hops' ▸ hw.inside, by rw [hstate', hops']; exact hw.reaches⟩

theorem run_setLen {n : Nat} (ops : List FillOp) (t : Target)
    (hin : ∀ off data, FillOp.write off data ∈ ops → off + data.length ≤ n) :
    (run Target.apply ops { t with file := setLen t.file n }).file =
      setLen (run Target.apply ops t).file n := by
  induction ops generalizing t with
  | nil => rfl
  | cons op ops ih =>
    have hrest := fun t => ih t fun off data hm => hin off data (List.mem_cons_of_mem _ hm)
    cases op with
    | write off data =>
      rw [Runs.run_cons, Runs.run_cons, ← hrest]
      simp only [Target.apply]
      rw [ByteFile.setLen_writeAt _ _ (hin off data (by simp))]
    | commit => exact hrest t
    | save s => exact hrest (t.apply (.save s))

theorem length_le_run (ops : List FillOp) (t : Target) :
    t.file.length ≤ (run Target.apply ops t).file.length := by
  induction ops generalizing t with
  | nil => exact Nat.le_refl _
  | cons op ops ih =>
    refine Nat.le_trans ?_ (ih (t.apply op))
    cases op with
    | write off data => exact ByteFile.length_le_writeAt _ _ _
    | commit => exact Nat.le_refl _
    | save s => exact Nat.le_refl _

theorem end_le_run {ops : List FillOp} {off : Nat} {data : Bytes} (t : Target)
    (hm : FillOp.write off data ∈ ops) (hne : data ≠ []) :
    off + data.length ≤ (run Target.apply ops t).file.length := by
  induction ops generalizing t with
  | nil => simp at hm
  | cons op ops ih =>
    rcases List.mem_cons.mp hm with rfl | hm
    · exact Nat.le_trans (ByteFile.end_le_writeAt hne)
        (length_le_run ops (t.apply (.write off data)))
    · exact ih _ hm

theorem Written.length_le {v : Fill} (h : Written m c v) (hdone : v.state.isComplete c.count = true)
    (t : Target) : m.totalLen.toNat ≤ (run Target.apply v.ops t).file.length := by
  have hl := (Manifest.chunks_ok h.fits.geometry).2
  by_cases h0 : c.count = 0
  · have hz := c.count_eq_zero_iff.mp h0
    rw [← hl]
    omega
  · have hlast : c.count - 1 + 1 = c.count := by omega
    obtain ⟨off, data, hm, hne, he⟩ :=
      h.reaches (c.count - 1) (h.fits.isSet_of_complete hdone (by omega))
    have hend := c.byteRange_last hlast
    have hle := end_le_run t hm hne
    rw [he, hend, hl] at hle
    exact hle

theorem written_fresh (hc : m.chunks = .ok c) (stats : TransferStats) :
    Written m c (Fill.start (ResumeState.fresh m c.count) stats) where
  fits := ResumeState.fresh_fits hc
  inside := by simp [Fill.start]
  reaches := by
    intro i hi
    rw [Fill.start, ResumeState.fresh_isSet hc] at hi
    cases hi

end Writer

section Frames

variable (bao : Bao) (m : Manifest) (c : TransferChunks)

structure Receives (t : Target) (b : PhaseB) : Prop where
  length : b.present.length = c.count
  counted : b.received = b.present.count true
  holds : Holds bao m c (fun i => b.present.getD i false) (run Target.apply b.ops t).file

variable {bao m c} {t : Target} {b : PhaseB}

theorem phaseB_keeps [Postcard FanoutMessage] {P : PhaseB → Prop}
    (hslice : ∀ b index data, P b → P (applySlice bao m c b index data)) (recvs : List FanoutRecv)
    {b : PhaseB} (h : P b) : P (phaseB bao m c b recvs).1 := by
  induction recvs generalizing b with
  | nil =>
    simp only [phaseB]
    split <;> exact h
  | cons r rest ih =>
    simp only [phaseB]
    split
    · cases r with
      | stalled => exact h
      | cancelled => exact h
      | sample s =>
        simp only
        split
        · exact ih (hslice _ _ _ h)
        · exact ih h
    · exact h

theorem applyEarly_keeps {P : PhaseB → Prop}
    (hslice : ∀ b index data, P b → P (applySlice bao m c b index data))
    (early : List (UInt32 × Bytes)) {b : PhaseB} (h : P b) : P (applyEarly bao m c b early) := by
  induction early generalizing b with
  | nil => exact h
  | cons s early ih => exact ih (hslice _ _ _ h)

theorem receives_start (hf : t.file.length = m.totalLen.toNat) :
    Receives bao m c t (PhaseB.start c) where
  length := by simp [PhaseB.start]
  counted := by simp [PhaseB.start, List.count_replicate]
  holds := holds_none hf fun i hi => by simp [PhaseB.start, hi]

theorem Receives.applySlice (laws : bao.Laws) (hc : m.chunks = .ok c) (h : Receives bao m c t b)
    (index : UInt32) (data : Bytes) : Receives bao m c t (applySlice bao m c b index data) := by
  unfold Zblob.applySlice
  simp only
  split
  · exact h
  · rename_i hnew
    rw [not_or, Nat.not_le, Bool.not_eq_true] at hnew
    obtain ⟨hi, hs⟩ := hnew
    have hlen : index.toNat < b.present.length := by rw [h.length]; exact hi
    have hget : b.present[index.toNat] = false := by
      rwa [List.getD_eq_getElem _ _ hlen] at hs
    cases hd : bao.decodeSlice m.root m.totalLen.toNat
      (chunkRange (c.byteRange index.toNat)) data with
    | none => exact ⟨h.length, h.counted, h.holds⟩
    | some ls =>
      refine ⟨by simpa using h.length, ?_, ?_⟩
      · simp [List.count_set hlen, hget, h.counted]
      · simp only [Runs.run_append, run_leafOps]
        refine h.holds.write laws hc hi hd fun j hj hset => ?_
        by_cases hij : j = index.toNat
        · exact .inr hij
        · left
          simpa [List.getD_eq_getElem?_getD, List.getElem?_set, Ne.symm hij] using hset

theorem Receives.applyEarly (laws : bao.Laws) (hc : m.chunks = .ok c)
    (early : List (UInt32 × Bytes)) (h : Receives bao m c t b) :
    Receives bao m c t (applyEarly bao m c b early) :=
  applyEarly_keeps (fun _ index data hb => hb.applySlice laws hc index data) early h

theorem Receives.phaseB [Postcard FanoutMessage] (laws : bao.Laws) (hc : m.chunks = .ok c)
    (recvs : List FanoutRecv) (h : Receives bao m c t b) :
    Receives bao m c t (phaseB bao m c b recvs).1 :=
  phaseB_keeps (fun _ index data hb => hb.applySlice laws hc index data) recvs h

theorem phaseB_done [Postcard FanoutMessage] {recvs : List FanoutRecv} {b' : PhaseB}
    (h : phaseB bao m c b recvs = (b', .done (.ok ()))) : c.count ≤ b'.received := by
  induction recvs generalizing b with
  | nil =>
    simp only [phaseB] at h
    split at h
    · simp at h
    · cases h; omega
  | cons r rest ih =>
    simp only [phaseB] at h
    split at h
    · cases r with
      | stalled => simp at h
      | cancelled => simp at h
      | sample s =>
        simp only at h
        split at h
        · exact ih h
        · exact ih h
    · cases h; omega

/-- A receiver that counted every chunk has written every chunk. -/
theorem Receives.complete (h : Receives bao m c t b)
    (hdone : c.count ≤ b.received) :
    Holds bao m c (fun _ => true) (run Target.apply b.ops t).file := by
  have hall : b.present.count true = b.present.length := by
    have hle := b.present.count_le_length (a := true)
    have hcount := h.counted
    have hlen := h.length
    omega
  refine h.holds.mono fun i hi _ => ?_
  have hlt : i < b.present.length := by rw [h.length]; exact hi
  rw [List.getD_eq_getElem _ _ hlt]
  exact (List.count_eq_length.mp hall _ (List.getElem_mem hlt)).symm

theorem Receives.content (laws : bao.Laws) (hc : m.chunks = .ok c) (h : Receives bao m c t b)
    (hdone : c.count ≤ b.received) (hempty : m.totalLen = 0 → m.root = bao.hash []) :
    (run Target.apply b.ops t).file.length = m.totalLen.toNat ∧
      bao.hash (run Target.apply b.ops t).file = m.root :=
  (h.complete hdone).content laws hc (fun _ _ => rfl) hempty

theorem fanoutVerdict_ok {cfg : FanoutConfig} {id : String} {expectedRoot : Option Hash}
    (h : fanoutVerdict bao cfg id expectedRoot m = .ok c) :
    m.validate cfg.maxBlobSize = .ok () ∧ m.id.str = id ∧ m.chunks = .ok c ∧
      (m.totalLen = 0 → m.root = bao.hash []) ∧ ∀ r, expectedRoot = some r → m.root = r := by
  unfold fanoutVerdict at h
  cases hv : m.validate cfg.maxBlobSize with
  | error e => simp [hv, bind, Except.bind] at h
  | ok u =>
    simp only [hv, bind, Except.bind] at h
    split at h
    · cases h
    · rename_i hid
      cases he : expectedRoot.filter (m.root ≠ ·) with
      | some r => simp only [he] at h; cases h
      | none =>
        simp only [he] at h
        split at h
        · cases h
        · rename_i hempty
          refine ⟨rfl, not_not.mp hid, h, fun h0 => by_contra fun hr => hempty ⟨h0, hr⟩, ?_⟩
          rintro r rfl
          by_contra hr
          simp [Option.filter, hr] at he

theorem phaseA_manifest [Postcard FanoutMessage] {cfg : FanoutConfig} {id : String}
    {expectedRoot : Option Hash} {a : PhaseA} {recvs : List FanoutRecv}
    {early : List (UInt32 × Bytes)} {rest : List FanoutRecv}
    (h : phaseA bao cfg id expectedRoot a recvs = .manifest m c early rest) :
    fanoutVerdict bao cfg id expectedRoot m = .ok c := by
  induction recvs generalizing a with
  | nil => simp [phaseA] at h
  | cons r recvs ih =>
    cases r with
    | stalled => simp [phaseA] at h
    | cancelled => simp [phaseA] at h
    | sample s =>
      simp only [phaseA] at h
      split at h
      · exact ih h
      · exact ih h
      · rename_i m' _
        cases hv : fanoutVerdict bao cfg id expectedRoot m' with
        | ok c' =>
          simp only [hv] at h
          cases h
          exact hv
        | error e =>
          simp only [hv] at h
          exact ih h

end Frames

inductive Transfer where
  | downloadTo (dst : Dest) (req : DownloadRequest) (query : Option (List Reply))
      (rounds : List Round)
  | downloadToWriter (writer : Bytes) (req : DownloadRequest) (query : Option (List Reply))
      (rounds : List Round)
  | striped (dst : Dest) (req : DownloadRequest) (holders : List BlobProbe)
      (query : Option (List Reply)) (rounds : List Round) (stripes : List StripedRound)
  | receiveFanout (dst : Dest) (id : String) (expectedRoot : Option Hash)
      (recvs : List FanoutRecv)

structure Ended where
  result : Option (Result TransferStats)
  manifest : Option Manifest
  delivered : Option Bytes

def Ran.ended (d : Disk) (r : Ran) : Ended :=
  ⟨r.result, r.manifest, (run Disk.apply r.ops d).dest⟩

def WriterRan.ended (writer : Bytes) (r : WriterRan) : Ended :=
  ⟨r.result, r.manifest, r.manifest.map fun m =>
    window (run Target.apply r.ops ⟨writer, none⟩).file 0 m.totalLen.toNat⟩

def Transfer.pinned : Transfer → Option Hash
  | .downloadTo _ req _ _ => req.expectedRoot
  | .downloadToWriter _ req _ _ => req.expectedRoot
  | .striped _ req _ _ _ _ => req.expectedRoot
  | .receiveFanout _ _ expectedRoot _ => expectedRoot

/-- A transfer that returned delivered the content its manifest names, under the
pinned root if there is one. -/
def Ended.Delivers (bao : Bao) (pinned : Option Hash) (e : Ended) : Prop :=
  ∀ stats, e.result = some (.ok stats) → ∃ m f, e.manifest = some m ∧ e.delivered = some f ∧
    f.length = m.totalLen.toNat ∧ bao.hash f = m.root ∧ ∀ r, pinned = some r → m.root = r

def Transfer.ended [Postcard Manifest] [Postcard FanoutMessage] (bao : Bao) (cfg : ClientConfig)
    (fanout : FanoutConfig) (d : Disk) : Transfer → Ended
  | .downloadTo dst req query rounds => (downloadToInner bao cfg d dst req query rounds).ended d
  | .downloadToWriter writer req query rounds =>
    (runDownloadToWriter bao cfg req query rounds).ended writer
  | .striped dst req holders query rounds stripes =>
    (runDownloadStriped bao cfg d dst req holders query rounds stripes).ended d
  | .receiveFanout dst id expectedRoot recvs =>
    (Zblob.receiveFanout bao fanout d dst id expectedRoot recvs).ended d

/-- A striped transfer over two or more holders that passes every check it makes, of a
blob that is empty under the root of something else. -/
def Transfer.UnprovedEmpty (bao : Bao) (d : Disk) : Transfer → Prop
  | .striped dst req (first :: second :: rest) _ _ _ =>
    dst.refusesNow d = false ∧ ¬ (dst.overwrite = .refuse ∧ dst.appeared = true) ∧
      (∀ r, req.expectedRoot = some r → first.manifest.root = r) ∧
      (∀ h ∈ second :: rest, h.manifest.root = first.manifest.root) ∧
      (∃ c, first.manifest.chunks = .ok c) ∧
      first.manifest.totalLen = 0 ∧ first.manifest.root ≠ bao.hash []
  | _ => False

section Entry

variable {bao : Bao} {cfg : ClientConfig} {fanout : FanoutConfig} {d : Disk}

theorem downloadTo_delivers [Postcard Manifest] (laws : bao.Laws)
    (hload : d.load = none) (dst : Dest)
    (req : DownloadRequest) (query : Option (List Reply)) (rounds : List Round) :
    ((downloadToInner bao cfg d dst req query rounds).ended d).Delivers bao req.expectedRoot := by
  intro stats hok
  simp only [Ran.ended, downloadToInner] at hok ⊢
  split at hok
  · simp [Ran.refused] at hok
  · rename_i hnow
    cases hs : start bao cfg req query with
    | error e => simp [hs, Ran.refused] at hok
    | ok mc =>
      obtain ⟨m, c⟩ := mc
      obtain ⟨hc, hempty, hpin⟩ := start_ok hs
      simp only [hs, openPart_fresh hload, if_neg hnow] at hok ⊢
      obtain ⟨f, hdest, hcontent⟩ := fresh_delivers (d := d) laws hc hok
        (fun t ht => fillHoles_keeps (tracks_keeps laws) cfg true rounds _ ht)
        (fun hdone => fillHoles_done (Prod.ext rfl hdone)) hempty
      exact ⟨m, f, (finish_ok hok).2.2.1, hdest, hcontent.1, hcontent.2, hpin⟩

theorem downloadToWriter_delivers [Postcard Manifest] (laws : bao.Laws) (writer : Bytes)
    (req : DownloadRequest) (query : Option (List Reply)) (rounds : List Round) :
    ((runDownloadToWriter bao cfg req query rounds).ended writer).Delivers bao
      req.expectedRoot := by
  intro stats hok
  simp only [WriterRan.ended, runDownloadToWriter] at hok ⊢
  cases hs : start bao cfg req query with
  | error e => simp [hs] at hok
  | ok mc =>
    obtain ⟨m, c⟩ := mc
    obtain ⟨hc, hempty, hpin⟩ := start_ok hs
    simp only [hs] at hok ⊢
    cases hfill : fillHoles bao cfg m c false
        (Fill.start (ResumeState.fresh m c.count) TransferStats.default) rounds with
    | mk v outcome =>
      simp only [hfill] at hok ⊢
      split at hok <;> simp only [reduceCtorEq, Option.some.injEq] at hok
      have hdone := fillHoles_done hfill
      have hw := fillHoles_keeps (written_keeps laws) cfg false rounds _
        (written_fresh hc TransferStats.default)
      have ht₀ : Tracks bao m c ⟨setLen writer m.totalLen.toNat, none⟩
          (Fill.start (ResumeState.fresh m c.count) TransferStats.default) :=
        tracks_fresh hc _ none (by simp) (ByteFile.setLen_length _ _)
      have ht := fillHoles_keeps (tracks_keeps laws) cfg false rounds _ ht₀
      rw [hfill] at hw ht
      have hlong := hw.length_le hdone ⟨writer, none⟩
      have hfile : (run Target.apply v.ops ⟨setLen writer m.totalLen.toNat, none⟩).file =
          window (run Target.apply v.ops ⟨writer, none⟩).file 0 m.totalLen.toNat := by
        rw [run_setLen v.ops ⟨writer, none⟩ hw.inside, ByteFile.setLen_of_le hlong]
        simp [window]
      have hcontent := ht.content laws hdone hempty
      rw [hfile] at hcontent
      exact ⟨m, _, rfl, rfl, hcontent.1, hcontent.2, hpin⟩

theorem receiveFanout_delivers [Postcard FanoutMessage] (laws : bao.Laws) (dst : Dest)
    (id : String) (expectedRoot : Option Hash) (recvs : List FanoutRecv) :
    ((receiveFanout bao fanout d dst id expectedRoot recvs).ended d).Delivers bao expectedRoot := by
  intro stats hok
  simp only [Ran.ended, receiveFanout] at hok ⊢
  split at hok
  · simp [Ran.refused] at hok
  · rename_i hnow
    cases ha : phaseA bao fanout id expectedRoot PhaseA.start recvs with
    | pending => simp [ha] at hok
    | failed e => simp [ha, Ran.refused] at hok
    | manifest m c early rest =>
      obtain ⟨-, -, hc, hempty, hpin⟩ := fanoutVerdict_ok (phaseA_manifest ha)
      simp only [ha, if_neg hnow] at hok ⊢
      cases hb : phaseB bao m c (applyEarly bao m c (PhaseB.start c) early) rest with
      | mk b outcome =>
        simp only [hb] at hok ⊢
        cases outcome with
        | pending => simp at hok
        | done r =>
          cases r with
          | error e => simp at hok
          | ok u =>
            simp only at hok ⊢
            split at hok
            · simp at hok
            · rename_i hlate
              have hr₀ : Receives bao m c ⟨setLen [] m.totalLen.toNat, d.load⟩ (PhaseB.start c) :=
                receives_start (ByteFile.setLen_length _ _)
              have hr := (hr₀.applyEarly laws hc early).phaseB laws hc rest
              rw [hb] at hr
              have hcontent := hr.content laws hc (phaseB_done hb) hempty
              refine ⟨m, _, by rw [if_neg hlate], ?_, hcontent.1, hcontent.2, hpin⟩
              obtain ⟨hpart, -, -⟩ := run_fill b.ops
                ⟨d.dest, some (setLen [] m.totalLen.toNat), d.sidecar⟩ _ rfl
              rw [if_neg hlate]
              simp only [List.append_assoc, Runs.run_append, Runs.run_cons,
                Runs.run_nil, Disk.apply,
                Option.map_some]
              rw [hpart]
              rfl

theorem stripedManifest_ok {req : DownloadRequest} {holders : List BlobProbe} {first : BlobProbe}
    {m : Manifest} {c : TransferChunks} :
    stripedManifest req holders first = .ok (m, c) ↔
      m = first.manifest ∧ (∀ r, req.expectedRoot = some r → first.manifest.root = r) ∧
        (∀ h ∈ holders, h.manifest.root = first.manifest.root) ∧ first.manifest.chunks = .ok c := by
  unfold stripedManifest
  simp only
  cases he : req.expectedRoot.filter (first.manifest.root ≠ ·) with
  | some r =>
    obtain ⟨hr, hne⟩ := Option.filter_eq_some_iff.mp he
    simp only [reduceCtorEq, false_iff]
    rintro ⟨-, hpin, -⟩
    exact of_decide_eq_true hne (hpin r hr)
  | none =>
    have hpin : ∀ r, req.expectedRoot = some r → first.manifest.root = r := by
      intro r hr
      by_contra hne
      simp [hr, Option.filter, hne] at he
    simp only
    split
    · rename_i hany
      simp only [reduceCtorEq, false_iff]
      rintro ⟨-, -, hall, -⟩
      obtain ⟨h, hm, hne⟩ := List.any_eq_true.mp hany
      exact of_decide_eq_true hne (hall h hm)
    · rename_i hany
      have hall : ∀ h ∈ holders, h.manifest.root = first.manifest.root := by
        intro h hm
        by_contra hne
        exact hany (List.any_eq_true.mpr ⟨h, hm, decide_eq_true hne⟩)
      cases hc : first.manifest.chunks with
      | error e => simp [Except.map]
      | ok c' =>
        simp only [Except.map, Except.ok.injEq, Prod.mk.injEq]
        constructor
        · rintro ⟨rfl, rfl⟩
          exact ⟨rfl, hpin, hall, rfl⟩
        · rintro ⟨rfl, -, -, rfl⟩
          exact ⟨rfl, rfl⟩

/-- A striped transfer delivers where the root of an empty blob is right. -/
theorem striped_delivers (laws : bao.Laws) (hload : d.load = none) (dst : Dest)
    (req : DownloadRequest) (first : BlobProbe) (holders : List BlobProbe)
    (rounds : List StripedRound)
    (hempty : first.manifest.totalLen = 0 → first.manifest.root = bao.hash []) :
    ((downloadStripedInner bao cfg d dst req first holders rounds).ended d).Delivers bao
      req.expectedRoot := by
  intro stats hok
  simp only [Ran.ended, downloadStripedInner] at hok ⊢
  split at hok
  · simp [Ran.refused] at hok
  · rename_i hnow
    cases hs : stripedManifest req holders first with
    | error e => simp [hs, Ran.refused] at hok
    | ok mc =>
      obtain ⟨m, c⟩ := mc
      obtain ⟨rfl, hpin, -, hc⟩ := stripedManifest_ok.mp hs
      simp only [hs, openPart_fresh hload, if_neg hnow] at hok ⊢
      obtain ⟨f, hdest, hcontent⟩ := fresh_delivers (d := d) laws hc hok
        (fun t ht => fillHolesStriped_keeps (tracks_keeps laws) cfg holders rounds
          ⟨Fill.resume _, fun _ => 0⟩ ht)
        (fun hdone => fillHolesStriped_done (Prod.ext rfl hdone)) hempty
      exact ⟨_, f, (finish_ok hok).2.2.1, hdest, hcontent.1, hcontent.2, hpin⟩

theorem fillHolesStriped_empty (bao : Bao) (cfg : ClientConfig) (m : Manifest) {c : TransferChunks}
    (h0 : c.count = 0) (holders : List BlobProbe) (st : Stripe) (rounds : List StripedRound) :
    (fillHolesStriped bao cfg m c holders st rounds).2 = .done (.ok ()) := by
  have hdone : st.fill.state.isComplete c.count = true := by simp [ResumeState.isComplete, h0]
  cases rounds <;> simp [fillHolesStriped, hdone]

theorem striped_empty_ok (cfg : ClientConfig) (hload : d.load = none)
    {dst : Dest} {req : DownloadRequest}
    {first second : BlobProbe} {rest : List BlobProbe} {query : Option (List Reply)}
    {rounds : List Round} {stripes : List StripedRound}
    (h : (Transfer.striped dst req (first :: second :: rest) query rounds stripes).UnprovedEmpty
      bao d) :
    ∃ stats,
      (downloadStripedInner bao cfg d dst req first (first :: second :: rest) stripes).result =
        some (.ok stats) ∧
      (downloadStripedInner bao cfg d dst req first (first :: second :: rest) stripes).manifest =
        some first.manifest := by
  obtain ⟨hnow, hlate, hpin, hroots, ⟨c, hc⟩, h0, -⟩ := h
  have hs : stripedManifest req (first :: second :: rest) first = .ok (first.manifest, c) := by
    refine stripedManifest_ok.mpr ⟨rfl, hpin, fun h hm => ?_, hc⟩
    rcases List.mem_cons.mp hm with rfl | hm
    · rfl
    · exact hroots h hm
  have hcount : c.count = 0 := by
    rw [c.count_eq_zero_iff, (Manifest.chunks_ok hc).2, h0]
    rfl
  have hfill := fillHolesStriped_empty bao cfg first.manifest hcount
    (first :: second :: rest) ⟨Fill.resume (ResumeState.fresh first.manifest c.count), fun _ => 0⟩
    stripes
  simp only [downloadStripedInner, hnow, Bool.false_eq_true, if_false, hs, openPart_fresh hload,
    startFresh, Dest.finish, hfill, if_neg hlate]
  exact ⟨_, rfl, trivial⟩

/-- Whatever the network does, a call that returns has delivered the content its root
names, unless it striped an empty blob whose root nobody checked. -/
theorem transfer_delivers_iff [Postcard Manifest] [Postcard FanoutMessage] (bao : Bao)
    (laws : bao.Laws) (cfg : ClientConfig) (fanout : FanoutConfig)
    (d : Disk) (hload : d.load = none) (t : Transfer) :
    (t.ended bao cfg fanout d).Delivers bao t.pinned ↔ ¬ t.UnprovedEmpty bao d := by
  cases t with
  | downloadTo dst req query rounds =>
    exact iff_of_true (downloadTo_delivers laws hload dst req query rounds) not_false
  | downloadToWriter writer req query rounds =>
    exact iff_of_true (downloadToWriter_delivers laws writer req query rounds) not_false
  | receiveFanout dst id expectedRoot recvs =>
    exact iff_of_true (receiveFanout_delivers laws dst id expectedRoot recvs) not_false
  | striped dst req holders query rounds stripes =>
    match holders with
    | [] => exact iff_of_true (downloadTo_delivers laws hload dst req query rounds) not_false
    | [_] => exact iff_of_true (downloadTo_delivers laws hload dst req query rounds) not_false
    | first :: second :: rest =>
      constructor
      · intro hdel hslip
        obtain ⟨stats, hok, hm⟩ := striped_empty_ok cfg hload hslip
        obtain ⟨-, -, -, -, -, h0, hroot⟩ := hslip
        obtain ⟨m, f, hm', -, hlen, hhash, -⟩ := hdel stats hok
        obtain rfl : first.manifest = m := Option.some.inj (hm.symm.trans hm')
        rw [h0] at hlen
        rw [List.eq_nil_of_length_eq_zero hlen] at hhash
        exact hroot hhash.symm
      · intro hslip stats hok
        by_cases hempty : first.manifest.totalLen = 0 → first.manifest.root = bao.hash []
        · exact striped_delivers laws hload dst req first _ stripes hempty stats hok
        · rw [Classical.not_imp] at hempty
          refine absurd ?_ hslip
          have hran : (downloadStripedInner bao cfg d dst req first (first :: second :: rest)
            stripes).result = some (.ok stats) := hok
          unfold downloadStripedInner at hran
          split at hran
          · simp [Ran.refused] at hran
          · rename_i hnow
            cases hs : stripedManifest req (first :: second :: rest) first with
            | error e => simp [hs, Ran.refused] at hran
            | ok mc =>
              obtain ⟨m, c⟩ := mc
              obtain ⟨-, hpin, hroots, hc⟩ := stripedManifest_ok.mp hs
              simp only [hs] at hran
              exact ⟨by simpa using hnow, (finish_ok hran).2.1, hpin,
                fun h hm => hroots h (List.mem_cons_of_mem _ hm), ⟨c, hc⟩, hempty⟩

end Entry

def sampleHolders (m : Manifest) : List BlobProbe := [⟨"a", m, none⟩, ⟨"b", m, none⟩]

def sampleDest : Dest := ⟨"out", .replace, false, false⟩
def sampleConfig : ClientConfig := ⟨"a", 5, 128, 1099511627776⟩

def sampleRound : StripedRound :=
  ⟨false, 4, [.reply 0 (.ok ⟨"a/x/slice/0", encSlice, [97, 98, 99]⟩)]⟩

def sampleStriped (m : Manifest) (rounds : List StripedRound) : Transfer :=
  .striped sampleDest ⟨"x", none⟩ (sampleHolders m) none [] rounds

theorem transfer_delivers_abc :
    letI : Postcard Manifest := ⟨fun _ => none⟩
    letI : Postcard FanoutMessage := ⟨fun _ => none⟩
    let t := sampleStriped (sampleManifest 3 (shortHash [97, 98, 99])) [sampleRound]
    ((t.ended shortBao sampleConfig ⟨0, 0⟩ Disk.empty).result.map Except.isOk = some true ∧
      (t.ended shortBao sampleConfig ⟨0, 0⟩ Disk.empty).delivered = some [97, 98, 99]) ∧
    ((t.ended shortBao sampleConfig ⟨0, 0⟩ Disk.empty).Delivers shortBao t.pinned ↔
      ¬ t.UnprovedEmpty shortBao Disk.empty) := by
  let : Postcard Manifest := ⟨fun _ => none⟩
  let : Postcard FanoutMessage := ⟨fun _ => none⟩
  exact ⟨by decide,
    transfer_delivers_iff shortBao shortBao_laws sampleConfig ⟨0, 0⟩ Disk.empty rfl _⟩

/-- Two holders that agree on an empty blob under the root of `abc`: the transfer returns
without error and delivers nothing. -/
theorem striped_empty_not_delivered :
    letI : Postcard Manifest := ⟨fun _ => none⟩
    letI : Postcard FanoutMessage := ⟨fun _ => none⟩
    let t := sampleStriped (sampleManifest 0 (shortHash [97, 98, 99])) []
    shortBao.Laws ∧ Disk.empty.load = none ∧
      ¬ (t.ended shortBao sampleConfig ⟨0, 0⟩ Disk.empty).Delivers shortBao t.pinned := by
  let : Postcard Manifest := ⟨fun _ => none⟩
  let : Postcard FanoutMessage := ⟨fun _ => none⟩
  refine ⟨shortBao_laws, rfl, fun hdel => ?_⟩
  obtain ⟨m, f, hm, hf, -, hhash, -⟩ := hdel TransferStats.default rfl
  cases hm
  cases hf
  exact absurd hhash (by decide)

end Zblob

import Zblob.Acceptance
import Zblob.Messages
import Zblob.Served

/-!
The fan-out tier from end to end. Which streams a receiver returns on, and what a publisher and
its cache bring to a receiver that joins at any moment, among strangers on the same key.
-/

set_option autoImplicit false

namespace Zblob

open ByteFile (Leaf)
open Runs (run)

section Slices

variable {bao : Bao} {m : Manifest} {c : TransferChunks} {b : PhaseB}

variable (bao m c) in
def FrameFor (i : Nat) (frame : UInt32 × Bytes) : Prop :=
  frame.1.toNat = i ∧
    ∃ ls, bao.decodeSlice m.root m.totalLen.toNat (chunkRange (c.byteRange i)) frame.2 = some ls

structure PhaseB.Counts (c : TransferChunks) (b : PhaseB) : Prop where
  length : b.present.length = c.count
  counted : b.received = b.present.count true

theorem PhaseB.counts_start (c : TransferChunks) : (PhaseB.start c).Counts c :=
  ⟨by simp [PhaseB.start], by simp [PhaseB.start, List.count_replicate]⟩

theorem PhaseB.Counts.complete_iff (h : b.Counts c) :
    c.count ≤ b.received ↔ ∀ i, i < c.count → b.present.getD i false = true := by
  rw [h.counted, ← h.length]
  have hle := b.present.count_le_length (a := true)
  constructor
  · intro hall i hi
    have heq : b.present.count true = b.present.length := by omega
    rw [List.getD_eq_getElem _ _ hi]
    exact (List.count_eq_length.mp heq _ (List.getElem_mem hi)).symm
  · intro hall
    refine Nat.le_of_eq (Eq.symm (List.count_eq_length.mpr fun x hx => ?_))
    obtain ⟨i, hi, rfl⟩ := List.getElem_of_mem hx
    have hset := hall i hi
    rw [List.getD_eq_getElem _ _ hi] at hset
    exact hset.symm

theorem PhaseB.Counts.applySlice (h : b.Counts c) (index : UInt32) (data : Bytes) :
    (applySlice bao m c b index data).Counts c := by
  unfold Zblob.applySlice
  simp only
  split
  · exact h
  · rename_i hnew
    rw [not_or, Nat.not_le, Bool.not_eq_true] at hnew
    obtain ⟨hi, hs⟩ := hnew
    have hlen : index.toNat < b.present.length := by rw [h.length]; exact hi
    rw [List.getD_eq_getElem _ _ hlen] at hs
    split
    · exact ⟨h.length, h.counted⟩
    · exact ⟨by simpa using h.length, by simp [List.count_set hlen, hs, h.counted]⟩

theorem PhaseB.Counts.applyEarly (h : b.Counts c) (early : List (UInt32 × Bytes)) :
    (applyEarly bao m c b early).Counts c :=
  applyEarly_keeps (fun _ index data hb => hb.applySlice index data) early h

theorem applySlice_present (h : b.Counts c) (frame : UInt32 × Bytes) {i : Nat} (hi : i < c.count) :
    (applySlice bao m c b frame.1 frame.2).present.getD i false = true ↔
      b.present.getD i false = true ∨ FrameFor bao m c i frame := by
  unfold Zblob.applySlice FrameFor
  simp only
  split
  · rename_i hold
    refine (or_iff_left_of_imp ?_).symm
    rintro ⟨rfl, -⟩
    exact hold.resolve_left (Nat.not_le.mpr hi)
  · rename_i hnew
    rw [not_or, Nat.not_le] at hnew
    have hlen : frame.1.toNat < b.present.length := by rw [h.length]; exact hnew.1
    split
    · rename_i hd
      refine (or_iff_left_of_imp ?_).symm
      rintro ⟨rfl, ls, hls⟩
      rw [hd] at hls
      cases hls
    · rename_i ls hd
      by_cases hsame : frame.1.toNat = i
      · subst hsame
        simp [List.getD_eq_getElem?_getD, hlen, hd]
      · simp [List.getD_eq_getElem?_getD, hsame]

theorem applyEarly_present (h : b.Counts c) (frames : List (UInt32 × Bytes))
    {i : Nat} (hi : i < c.count) :
    (applyEarly bao m c b frames).present.getD i false = true ↔
      b.present.getD i false = true ∨ ∃ frame ∈ frames, FrameFor bao m c i frame := by
  induction frames generalizing b with
  | nil => simp [applyEarly]
  | cons frame frames ih =>
    have hcons : applyEarly bao m c b (frame :: frames) =
        applyEarly bao m c (applySlice bao m c b frame.1 frame.2) frames := rfl
    rw [hcons, ih (h.applySlice _ _), applySlice_present h frame hi,
      List.exists_mem_cons_iff, or_assoc]

theorem applyEarly_complete (h : b.Counts c) (hdone : c.count ≤ b.received)
    (frames : List (UInt32 × Bytes)) :
    applyEarly bao m c b frames = b := by
  induction frames with
  | nil => rfl
  | cons frame frames ih =>
    have hsame : applySlice bao m c b frame.1 frame.2 = b := by
      unfold Zblob.applySlice
      simp only
      rw [if_pos]
      by_cases hi : frame.1.toNat < c.count
      · exact .inr (h.complete_iff.mp hdone _ hi)
      · exact .inl (Nat.not_lt.mp hi)
    have hcons : applyEarly bao m c b (frame :: frames) =
        applyEarly bao m c (applySlice bao m c b frame.1 frame.2) frames := rfl
    rw [hcons, hsame]
    exact ih

end Slices

section Streams

variable [Postcard FanoutMessage] {bao : Bao} {cfg : FanoutConfig}
  {id : String} {expectedRoot : Option Hash}
  {m : Manifest} {c : TransferChunks}

def sliceOf (s : Sample) : Option (UInt32 × Bytes) :=
  match fanoutFrame s with
  | some (.slice index data) => some (index, data)
  | _ => none

theorem phaseB_complete {b : PhaseB} (hdone : c.count ≤ b.received) (rest : List FanoutRecv) :
    phaseB bao m c b rest = (b, .done (.ok ())) := by
  have hopen := Nat.not_lt.mpr hdone
  cases rest <;> simp [phaseB, hopen]

/-- Phase B makes of a stream what `apply_slice` makes of its slices. -/
theorem phaseB_frames (frames : List Sample) {b : PhaseB} (h : b.Counts c)
    (rest : List FanoutRecv) :
    phaseB bao m c b (frames.map .sample ++ rest) =
      phaseB bao m c (applyEarly bao m c b (frames.filterMap sliceOf)) rest := by
  induction frames generalizing b with
  | nil => rfl
  | cons s frames ih =>
    by_cases hopen : b.received < c.count
    · simp only [List.map_cons, List.cons_append, phaseB, hopen, if_true]
      cases hf : fanoutFrame s with
      | none => rw [List.filterMap_cons_none (by simp [sliceOf, hf])]; exact ih h
      | some frame =>
        cases frame with
        | manifest m' => rw [List.filterMap_cons_none (by simp [sliceOf, hf])]; exact ih h
        | slice index data =>
          rw [List.filterMap_cons_some (show sliceOf s = some (index, data) by simp [sliceOf, hf])]
          exact ih (h.applySlice index data)
    · rw [applyEarly_complete h (Nat.not_lt.mp hopen)]
      rw [phaseB_complete (Nat.not_lt.mp hopen), phaseB_complete (Nat.not_lt.mp hopen)]

/-- What phase A keeps of the slices that come before the manifest. -/
def buffered (cfg : FanoutConfig) (a : PhaseA) (frames : List (UInt32 × Bytes)) : PhaseA :=
  frames.foldl (fun a frame => bufferSlice cfg a frame.1 frame.2) a

omit [Postcard FanoutMessage] in
theorem buffered_reject (a : PhaseA) (reject : Option BlobError) (frames : List (UInt32 × Bytes)) :
    (buffered cfg { a with deferredReject := reject } frames).early =
    (buffered cfg a frames).early := by
  induction frames generalizing a with
  | nil => rfl
  | cons frame frames ih =>
    have hstep : bufferSlice cfg { a with deferredReject := reject } frame.1 frame.2 =
        { bufferSlice cfg a frame.1 frame.2 with deferredReject := reject } := by
      unfold bufferSlice
      split <;> rfl
    have hcons : ∀ a, buffered cfg a (frame :: frames) = buffered cfg
        (bufferSlice cfg a frame.1 frame.2) frames :=
      fun _ => rfl
    rw [hcons, hcons, hstep]
    exact ih _

/-- Phase A settles on the first acceptable frame, with what it kept before. -/
theorem phaseA_settles {before : List Sample} {s : Sample}
    (hno : ∀ y ∈ before, ∀ mc, ¬ AcceptableFrame bao cfg id expectedRoot y mc)
    (hs : AcceptableFrame bao cfg id expectedRoot s (m, c)) (a : PhaseA) (rest : List FanoutRecv) :
    phaseA bao cfg id expectedRoot a (before.map .sample ++ .sample s :: rest) =
      .manifest m c (buffered cfg a (before.filterMap sliceOf)).early rest := by
  induction before generalizing a with
  | nil =>
    simp only [List.map_nil, List.nil_append, phaseA, hs.1, fanoutVerdict_iff.mpr hs.2]
    rfl
  | cons y before ih =>
    have hrest := ih fun z hz => hno z (List.mem_cons_of_mem _ hz)
    simp only [List.map_cons, List.cons_append, phaseA]
    cases hf : fanoutFrame y with
    | none =>
      rw [List.filterMap_cons_none (by simp [sliceOf, hf])]
      exact hrest a
    | some frame =>
      cases frame with
      | slice index data =>
        rw [List.filterMap_cons_some (show sliceOf y = some (index, data) by simp [sliceOf, hf])]
        exact hrest _
      | manifest m' =>
        cases hv : fanoutVerdict bao cfg id expectedRoot m' with
        | ok c' => exact absurd ⟨hf, fanoutVerdict_iff.mp hv⟩ (hno y List.mem_cons_self (m', c'))
        | error e =>
          rw [List.filterMap_cons_none (by simp [sliceOf, hf])]
          simp only [hv]
          rw [hrest, buffered_reject]

variable (bao cfg m c) in
/-- What a receiver has come to when it settled between `before` and `after`. -/
def gathered (before after : List Sample) : PhaseB :=
  applyEarly bao m c (PhaseB.start c)
    ((buffered cfg PhaseA.start (before.filterMap sliceOf)).early ++ after.filterMap sliceOf)

theorem gathered_counts (before after : List Sample) :
    (gathered bao cfg m c before after).Counts c :=
  (PhaseB.counts_start c).applyEarly _

theorem gathered_complete_iff {before after : List Sample} :
    c.count ≤ (gathered bao cfg m c before after).received ↔
      ∀ i, i < c.count →
        ∃ frame ∈ (buffered cfg PhaseA.start (before.filterMap sliceOf)).early ++
            after.filterMap sliceOf,
          FrameFor bao m c i frame := by
  rw [(gathered_counts before after).complete_iff]
  refine forall_congr' fun i => forall_congr' fun hi => ?_
  rw [gathered, applyEarly_present (PhaseB.counts_start c) _ hi]
  refine or_iff_right_of_imp fun hset => ?_
  simp [PhaseB.start, hi] at hset

section Settled

variable {dst : Dest} {d : Disk} (hfree : dst.refusesNow d = false)
  {before after : List Sample} {s : Sample}
  (hno : ∀ y ∈ before, ∀ mc, ¬ AcceptableFrame bao cfg id expectedRoot y mc)
  (hs : AcceptableFrame bao cfg id expectedRoot s (m, c))
include hfree hno hs

theorem receiveFanout_gathered {rest : List FanoutRecv} {b : PhaseB} {r : Result Unit}
    (h : phaseB bao m c (gathered bao cfg m c before after) rest = (b, .done r)) :
    let ran :=
      receiveFanout bao cfg d dst id expectedRoot ((before ++ s :: after).map .sample ++ rest)
    ran.manifest = some m ∧
      ran.result = some (r.bind fun _ =>
        if dst.overwrite = .refuse ∧ dst.appeared = true then .error (.destinationExists dst.path)
        else .ok b.stats) := by
  intro ran
  have hstream : (before ++ s :: after).map FanoutRecv.sample ++ rest =
      before.map .sample ++ .sample s :: (after.map .sample ++ rest) := by simp
  have hB : phaseB bao m c (applyEarly bao m c (PhaseB.start c)
      (buffered cfg PhaseA.start (before.filterMap sliceOf)).early) (after.map .sample ++ rest) =
        (b, .done r) := by
    rw [phaseB_frames after ((PhaseB.counts_start c).applyEarly _), ← h, gathered]
    simp only [applyEarly, List.foldl_append]
  simp only [ran, hstream]
  simp only [receiveFanout, hfree, Bool.false_eq_true, if_false, phaseA_settles hno hs, hB]
  cases r with
  | error e => exact ⟨rfl, rfl⟩
  | ok u =>
    simp only [Except.bind]
    split <;> exact ⟨rfl, rfl⟩

theorem receiveFanout_returns (hlate : ¬(dst.overwrite = .refuse ∧ dst.appeared = true))
    (hdone : c.count ≤ (gathered bao cfg m c before after).received) (rest : List FanoutRecv) :
    let ran :=
      receiveFanout bao cfg d dst id expectedRoot ((before ++ s :: after).map .sample ++ rest)
    ran.manifest = some m ∧ ran.result = some (.ok (gathered bao cfg m c before after).stats) := by
  intro ran
  obtain ⟨hmanifest, hresult⟩ := receiveFanout_gathered hfree hno hs (phaseB_complete hdone rest)
  refine ⟨hmanifest, hresult.trans ?_⟩
  simp only [Except.bind, if_neg hlate]

theorem receiveFanout_stalls (hopen : ¬ c.count ≤ (gathered bao cfg m c before after).received) :
    (receiveFanout bao cfg d dst id expectedRoot
      ((before ++ s :: after).map .sample ++ [.stalled])).result =
      some (.error (.incomplete (gathered bao cfg m c before after).received c.count)) := by
  have hend : phaseB bao m c (gathered bao cfg m c before after) [.stalled] =
      (gathered bao cfg m c before after,
        .done (.error (.incomplete (gathered bao cfg m c before after).received c.count))) := by
    simp only [phaseB, if_pos (Nat.not_le.mp hopen)]
  exact (receiveFanout_gathered hfree hno hs hend).2

end Settled

theorem receiveFanout_unsettled {dst : Dest} {d : Disk} {frames : List Sample}
    (hno : ∀ s ∈ frames, ∀ mc, ¬ AcceptableFrame bao cfg id expectedRoot s mc)
    (stats : TransferStats) :
    (receiveFanout bao cfg d dst id expectedRoot (frames.map .sample ++ [.stalled])).result ≠ some
    (.ok stats) := by
  obtain ⟨r, hr, hsel⟩ :
      ∃ r, (phaseA bao cfg id expectedRoot PhaseA.start (frames.map .sample ++ [.stalled])).result =
        some r ∧
        Selects (AcceptableFrame bao cfg id expectedRoot) frames r :=
        phaseA_selects frames PhaseA.start
  intro hok
  simp only [receiveFanout] at hok
  split at hok
  · cases hok
  · cases ha : phaseA bao cfg id expectedRoot PhaseA.start (frames.map .sample ++ [.stalled]) with
    | pending => rw [ha] at hok; cases hok
    | failed e => rw [ha] at hok; cases hok
    | manifest m c early rest =>
      rw [ha, Settled.result, Option.some.injEq] at hr
      obtain ⟨before, s, after, rfl, hs, -⟩ := (hsel (m, c)).mp hr.symm
      exact hno s (by simp) (m, c) hs

/-- Which streams a receiver returns on, whoever published the frames: those in which for each
chunk of the first acceptable manifest a slice verifies that either comes later or was kept while
the receiver waited for that manifest. -/
theorem receive_fanout_ok_iff {dst : Dest} {d : Disk} (frames : List Sample) :
    (∃ stats,
      (receiveFanout bao cfg d dst id expectedRoot (frames.map .sample ++ [.stalled])).result =
        some (.ok stats)) ↔
      dst.refusesNow d = false ∧ ¬(dst.overwrite = .refuse ∧ dst.appeared = true) ∧
        ∃ before s after m c, frames = before ++ s :: after ∧
        AcceptableFrame bao cfg id expectedRoot s (m, c) ∧
          (∀ y ∈ before, ∀ mc, ¬ AcceptableFrame bao cfg id expectedRoot y mc) ∧
          ∀ i, i < c.count →
            ∃ frame ∈ (buffered cfg PhaseA.start (before.filterMap sliceOf)).early ++
                after.filterMap sliceOf,
              FrameFor bao m c i frame := by
  constructor
  · rintro ⟨stats, hok⟩
    have hfree : dst.refusesNow d = false := by
      by_contra hrefuses
      rw [Bool.not_eq_false] at hrefuses
      simp [receiveFanout, hrefuses, Ran.refused] at hok
    have hfirst : ∃ mc, First (AcceptableFrame bao cfg id expectedRoot) frames mc := by
      rw [First.exists_iff]
      by_contra hnone
      exact receiveFanout_unsettled (fun s hs mc hacc => hnone ⟨s, hs, mc, hacc⟩) stats hok
    obtain ⟨mc, before, s, after, rfl, hs, hno⟩ := hfirst
    obtain ⟨m, c⟩ := mc
    have hdone : c.count ≤ (gathered bao cfg m c before after).received := by
      by_contra hopen
      rw [receiveFanout_stalls hfree hno hs hopen] at hok
      cases hok
    refine ⟨hfree, fun hlate => ?_, before, s, after, m, c, rfl,
      hs, hno, gathered_complete_iff.mp hdone⟩
    rw [(receiveFanout_gathered hfree hno hs (phaseB_complete hdone [.stalled])).2] at hok
    simp [Except.bind, hlate] at hok
  · rintro ⟨hfree, hlate, before, s, after, m, c, rfl, hs, hno, hall⟩
    exact ⟨_,
      (receiveFanout_returns hfree hno hs hlate (gathered_complete_iff.mpr hall) [.stalled]).2⟩

end Streams

namespace Format

inductive FrameKind where
  | manifest
  | slice

def FrameKind.index : FrameKind → UInt32
  | .manifest => 0
  | .slice => 1

def FrameKind.ofIndex (n : UInt32) : Option FrameKind :=
  if n = 0 then some .manifest else if n = 1 then some .slice else none

abbrev FrameKind.Fields : FrameKind → Type
  | .manifest => Manifest
  | .slice => UInt32 × Bytes

def frameFields : ∀ kind : FrameKind, Codec kind.Fields
  | .manifest => manifest
  | .slice => u32.pair bytes

def frameKind : Codec FrameKind :=
  u32.pmap FrameKind.index FrameKind.ofIndex fun k => by cases k <;> rfl

def frame : Codec FanoutFrame :=
  (Codec.kinded frameKind frameFields).pmap
    (fun
      | .manifest m => ⟨.manifest, m⟩
      | .slice index bao => ⟨.slice, index, bao⟩)
    (fun
      | ⟨.manifest, m⟩ => some (.manifest m)
      | ⟨.slice, p⟩ => some (.slice p.1 p.2))
    fun f => by cases f <;> rfl

def fanoutMessage : Codec FanoutMessage :=
  (u16.pair frame).pmap (fun msg => (msg.version, msg.frame))
    (fun p => some ⟨p.1, p.2⟩) fun _ => rfl

abbrev fanoutWire : Wire FanoutMessage := Wire.ofCodec fanoutMessage

end Format

section Publisher

def fanoutManifest (bao : Bao) (spec : BlobSpec) (data : Bytes) :
    Result (Manifest × TransferChunks) := do
  let chunks ← TransferChunks.new spec.chunkSize (UInt64.ofNat data.length)
  let id ← BlobId.new spec.id
  let manifest : Manifest :=
    ⟨wireVersion, id, spec.filename, UInt64.ofNat data.length, spec.chunkSize,
      bao.hash data, spec.createdMs, Ext.new⟩
  manifest.validate 18446744073709551615
  return (manifest, chunks)

/-- What the publishing task meets: whether the file opens, what a read for a slice finds, and which
puts go through. -/
structure PublisherEnv where
  opened : Bool
  read : Nat → Option Bytes
  put : Nat → Bool

variable [Wire FanoutMessage]

def fanoutSample (key : String) (frame : FanoutFrame) : Sample :=
  ⟨key, encFanout, encode (⟨wireVersion, frame⟩ : FanoutMessage)⟩

variable (encodeSlice : Tier1.OutboardStore → Bytes → Nat × Nat → Option Bytes) (key : String)
  (outboard : Tier1.OutboardStore) (c : TransferChunks) (env : PublisherEnv)

def publishSlices : List Nat → List Sample × Result Unit
  | [] => ([], .ok ())
  | index :: rest =>
    match (env.read index).bind fun data => encodeSlice outboard data
      (chunkRange (c.byteRange index)) with
    | none => ([], .error .io)
    | some slice =>
      if env.put (index + 1) then
        let (samples, r) := publishSlices rest
        (fanoutSample key (.slice (UInt32.ofNat index) slice) :: samples, r)
      else ([], .error .zenoh)

def publishTask (m : Manifest) : List Sample × Result Unit :=
  if env.put 0 then
    if env.opened then
      let (samples, r) := publishSlices encodeSlice key outboard c env (List.range c.count)
      (fanoutSample key (.manifest m) :: samples, r)
    else ([fanoutSample key (.manifest m)], .error .io)
  else ([], .error .zenoh)

def maxSamples (cacheSamples count : Nat) : Nat := min (max cacheSamples 1) (count + 1)

/-- What a receiver that joins after `k` puts is sent: the last of them that the cache has kept, and
all that is put then. -/
def sentTo (cache k : Nat) (samples : List Sample) : List Sample :=
  (samples.take k).drop ((samples.take k).length - cache) ++ samples.drop k

variable {encodeSlice key outboard c env} {bao : Bao} {spec : BlobSpec}
  {data : Bytes} {m : Manifest}

@[simp] theorem fanoutFrame_fanoutSample (key : String) (frame : FanoutFrame) :
    fanoutFrame (fanoutSample key frame) = some frame := by
  simp [fanoutFrame, fanoutSample, decode_encode]

omit [Wire FanoutMessage] in
theorem fanoutManifest_ok (h : fanoutManifest bao spec data = .ok (m, c)) :
    m.version = wireVersion ∧ TransferChunks.validateChunkSize m.chunkSize = .ok () ∧
      m.id.str = spec.id ∧
      m.totalLen = UInt64.ofNat data.length ∧ m.root = bao.hash data ∧ m.chunks = .ok c := by
  unfold fanoutManifest at h
  simp only [bind, Except.bind] at h
  split at h
  · cases h
  rename_i chunks hchunks
  split at h
  · cases h
  rename_i id hid
  split at h
  · cases h
  rename_i u hvalid
  cases h
  refine ⟨rfl, ?_, ?_, rfl, rfl, hchunks⟩
  · simp only [Manifest.validate, ne_eq, not_true_eq_false, if_false] at hvalid
    split at hvalid
    · cases hvalid
    · assumption
  · unfold BlobId.new at hid
    split at hid
    · cases hid
      rfl
    · cases hid

/-- A system that the task can rely on, and a file that stays as it was hashed. -/
structure PublisherEnv.Steady (env : PublisherEnv) (data : Bytes) : Prop where
  opened : env.opened = true
  read : ∀ i, env.read i = some data
  put : ∀ k, env.put k = true

variable (key) in
theorem publishSlices_steady (henv : env.Steady data) {indexes : List Nat}
    (hslices : ∀ i ∈ indexes, ∃ slice, encodeSlice outboard data (chunkRange (c.byteRange i)) =
      some slice) :
    let published := publishSlices encodeSlice key outboard c env indexes
    published.2 = .ok () ∧ published.1.length = indexes.length ∧
      (∀ s ∈ published.1, ∃ index slice, s = fanoutSample key (.slice index slice)) ∧
      ∀ i ∈ indexes, ∃ slice, encodeSlice outboard data (chunkRange (c.byteRange i)) = some slice ∧
        fanoutSample key (.slice (UInt32.ofNat i) slice) ∈ published.1 := by
  induction indexes with
  | nil => simp [publishSlices]
  | cons index rest ih =>
    obtain ⟨hok, hlen, honly, hall⟩ := ih fun i hi => hslices i (List.mem_cons_of_mem _ hi)
    obtain ⟨slice, hslice⟩ := hslices index List.mem_cons_self
    simp only [publishSlices, henv.read, Option.bind_some, hslice, henv.put, if_true]
    refine ⟨hok, by simp only [List.length_cons, hlen], ?_, ?_⟩
    · intro s hs
      rcases List.mem_cons.mp hs with rfl | hs
      · exact ⟨_, _, rfl⟩
      · exact honly s hs
    · intro i hi
      rcases List.mem_cons.mp hi with rfl | hi
      · exact ⟨slice, hslice, List.mem_cons_self⟩
      · obtain ⟨slice', hslice', hmem⟩ := hall i hi
        exact ⟨slice', hslice', List.mem_cons_of_mem _ hmem⟩

omit [Wire FanoutMessage] in
theorem sentTo_of_le {cache k : Nat} (samples : List Sample) (h : k ≤ cache) :
    sentTo cache k samples = samples := by
  have hlen : (samples.take k).length - cache = 0 := by
    rw [List.length_take]
    omega
  rw [sentTo, hlen, List.drop_zero, List.take_append_drop]

omit [Wire FanoutMessage] in
theorem sentTo_of_lt {cache k : Nat} {samples : List Sample} (hk : k ≤ samples.length) :
    sentTo cache k samples = samples.drop (k - cache) := by
  have hlen : (samples.take k).length = k := by
    rw [List.length_take]
    omega
  conv_rhs => rw [← List.take_append_drop k samples]
  rw [sentTo, hlen, List.drop_append_of_le_length (by omega)]

section Delivery

variable {cfg : FanoutConfig} {id : String} {expectedRoot : Option Hash} {dst : Dest} {d : Disk}
  (henc : Tier1.Encodes encodeSlice bao data) (hpub : fanoutManifest bao spec data = .ok (m, c))
  (hlen : data.length < UInt64.size) (henv : env.Steady data)

include hpub hlen in
theorem fanoutManifest_acceptable (hid : id = spec.id)
    (hpin : ∀ r, expectedRoot = some r → r = bao.hash data)
    (hsize : data.length ≤ cfg.maxBlobSize.toNat) :
    AcceptableFrame bao cfg id expectedRoot (fanoutSample key (.manifest m)) (m, c) := by
  obtain ⟨hversion, hchunk, hid', htotal, hroot, hc⟩ := fanoutManifest_ok hpub
  refine ⟨fanoutFrame_fanoutSample key _, ?_, hid'.trans hid.symm, fun r hr => ?_, hc, fun h0 => ?_⟩
  · have hle : ¬ m.totalLen > cfg.maxBlobSize := by
      rw [gt_iff_lt, UInt64.lt_iff_toNat_lt, htotal, UInt64.toNat_ofNat_of_lt' hlen]
      omega
    simp only [Manifest.validate, hversion, ne_eq, not_true_eq_false, if_false, hchunk, if_neg hle]
  · rw [hroot, hpin r hr]
  · have hzero : data.length = 0 := by
      rw [← UInt64.toNat_ofNat_of_lt' hlen, ← htotal, h0]
      rfl
    rw [hroot, List.length_eq_zero_iff.mp hzero]

variable (key) in
include henc hpub hlen henv in
/-- The whole of a broadcast: the manifest, then a slice for each chunk. -/
theorem publishTask_steady :
    let published := publishTask encodeSlice key ⟨bao.hash data, data.length⟩ c env m
    published.2 = .ok () ∧ published.1.length = c.count + 1 ∧
      ∃ slices, published.1 = fanoutSample key (.manifest m) :: slices ∧
        (∀ s ∈ slices, ∃ index slice, s = fanoutSample key (.slice index slice)) ∧
        ∀ i, i < c.count → ∃ s ∈ slices, ∃ frame, sliceOf s = some frame ∧
        FrameFor bao m c i frame := by
  obtain ⟨-, -, -, htotal, hroot, hc⟩ := fanoutManifest_ok hpub
  have hcl := (Manifest.chunks_ok hc).2
  have hdata : m.totalLen.toNat = data.length := by rw [htotal, UInt64.toNat_ofNat_of_lt' hlen]
  have hdecodes : ∀ i, i < c.count → ∃ bytes ls,
      encodeSlice ⟨bao.hash data, data.length⟩ data (chunkRange (c.byteRange i)) = some bytes ∧
        bao.decodeSlice m.root m.totalLen.toNat (chunkRange (c.byteRange i)) bytes = some ls := by
    intro i hi
    have haligned := c.aligned hi
    rw [hcl, hdata] at haligned
    obtain ⟨bytes, ls, hbytes, hls⟩ := henc _ haligned
    exact ⟨bytes, ls, hbytes, by rw [hroot, hdata]; exact hls⟩
  have hslices : ∀ i ∈ List.range c.count, ∃ slice,
      encodeSlice ⟨bao.hash data, data.length⟩ data (chunkRange (c.byteRange i)) = some slice := by
    intro i hi
    obtain ⟨bytes, -, hbytes, -⟩ := hdecodes i (List.mem_range.mp hi)
    exact ⟨bytes, hbytes⟩
  obtain ⟨hok, hcount, honly, hall⟩ := publishSlices_steady key henv hslices
  simp only [publishTask, henv.put, henv.opened, if_true]
  refine ⟨hok, by rw [List.length_cons, hcount, List.length_range], _, rfl, honly, fun i hi => ?_⟩
  obtain ⟨slice, hslice, hmem⟩ := hall i (List.mem_range.mpr hi)
  obtain ⟨bytes, ls, hbytes, hls⟩ := hdecodes i hi
  obtain rfl : bytes = slice := Option.some.inj (hbytes.symm.trans hslice)
  refine ⟨_, hmem, (UInt32.ofNat i, bytes), by simp [sliceOf], ?_, ls, hls⟩
  exact UInt32.toNat_ofNat_of_lt' (Nat.lt_trans hi c.count_lt)

end Delivery

/-- A broadcast of a file that stays as it is, and a receiver that joins after `k` of its puts. It
hears what it is sent, in that order, amid frames of strangers of which none is an acceptable
manifest. It comes to the content of the file if the cache has not yet let go of the manifest, and
else it never does. -/
theorem fanout_delivers (laws : bao.Laws) (henc : Tier1.Encodes encodeSlice bao data)
    (hunique : ∀ b, bao.hash b = bao.hash data → b = data)
    (hpub : fanoutManifest bao spec data = .ok (m, c))
    (hlen : data.length < UInt64.size) (henv : env.Steady data) {cfg : FanoutConfig}
    {expectedRoot : Option Hash} (hpin : ∀ r, expectedRoot = some r → r = bao.hash data)
    (hsize : data.length ≤ cfg.maxBlobSize.toNat) {dst : Dest} {d : Disk}
    (hfree : dst.refusesNow d = false)
    (hlate : ¬(dst.overwrite = .refuse ∧ dst.appeared = true)) {cacheSamples k : Nat}
    (hk : k ≤ c.count + 1) {frames : List Sample}
    (hheard : (sentTo (maxSamples cacheSamples c.count) k
      (publishTask encodeSlice key ⟨bao.hash data, data.length⟩ c env m).1).Sublist frames)
    (hstrangers : ∀ s ∈ frames, s ∈ sentTo (maxSamples cacheSamples c.count) k
        (publishTask encodeSlice key ⟨bao.hash data, data.length⟩ c env m).1 ∨
      ∀ mc, ¬ AcceptableFrame bao cfg spec.id expectedRoot s mc) :
    (publishTask encodeSlice key ⟨bao.hash data, data.length⟩ c env m).2 = .ok () ∧
      (k ≤ maxSamples cacheSamples c.count → ∀ rest,
        let ran := receiveFanout bao cfg d dst spec.id expectedRoot (frames.map .sample ++ rest)
        ∃ stats, ran.result = some (.ok stats) ∧ (run Disk.apply ran.ops d).dest = some data) ∧
      (maxSamples cacheSamples c.count < k → ∀ stats,
        (receiveFanout bao cfg d dst spec.id expectedRoot
          (frames.map .sample ++ [.stalled])).result ≠
          some (.ok stats)) := by
  obtain ⟨hok, hcount, slices, hall, honly, hframes⟩ := publishTask_steady key henc hpub hlen henv
  have hacc : AcceptableFrame bao cfg spec.id expectedRoot
      (fanoutSample key (.manifest m)) (m, c) :=
    fanoutManifest_acceptable hpub hlen rfl hpin hsize
  have hslice : ∀ s ∈ slices, ∀ mc, ¬ AcceptableFrame bao cfg spec.id expectedRoot s mc := by
    rintro s hs mc ⟨hframe, -⟩
    obtain ⟨index, slice, rfl⟩ := honly s hs
    rw [fanoutFrame_fanoutSample] at hframe
    cases hframe
  refine ⟨hok, ?_, ?_⟩
  · intro hkept rest ran
    rw [sentTo_of_le _ hkept, hall] at hheard hstrangers
    obtain ⟨before, s, after, mc, hsplit, hs, hno, hsub⟩ := First.of_sublist hheard hacc
    have hmc : mc = (m, c) := by
      rcases hstrangers s (by simp [hsplit]) with hmem | hstranger
      · rcases List.mem_cons.mp hmem with rfl | hmem
        · obtain ⟨m', c'⟩ := mc
          obtain ⟨hframe, ok⟩ := hs
          rw [fanoutFrame_fanoutSample] at hframe
          cases hframe
          have hc := hacc.2.geometry
          rw [ok.geometry] at hc
          cases hc
          rfl
        · exact absurd hs (hslice s hmem mc)
      · exact absurd hs (hstranger mc)
    subst hmc
    have hdone : c.count ≤ (gathered bao cfg m c before after).received := by
      refine gathered_complete_iff.mpr fun i hi => ?_
      obtain ⟨sample, hmem, frame, hframe, hfor⟩ := hframes i hi
      exact ⟨frame, List.mem_append_right _
        (List.mem_filterMap.mpr ⟨sample, hsub.subset hmem, hframe⟩), hfor⟩
    obtain ⟨hmanifest, hresult⟩ := receiveFanout_returns hfree hno hs hlate hdone rest
    rw [← hsplit] at hmanifest hresult
    refine ⟨_, hresult, ?_⟩
    have hdelivers : (ran.ended d).Delivers bao expectedRoot :=
      receiveFanout_delivers laws dst _ _ _
    obtain ⟨m', f, hm', hdest, -, hroot, -⟩ := hdelivers _ hresult
    obtain rfl : m' = m := Option.some.inj (hm'.symm.trans hmanifest)
    rw [(fanoutManifest_ok hpub).2.2.2.2.1] at hroot
    rw [← hunique f hroot]
    exact hdest
  · intro hgone stats
    refine receiveFanout_unsettled (fun s hs => ?_) stats
    rcases hstrangers s hs with hmem | hstranger
    · rw [sentTo_of_lt (by rw [hcount]; exact hk), hall] at hmem
      have hpos : k - maxSamples cacheSamples c.count = k - maxSamples cacheSamples c.count - 1 +
          1 := by omega
      rw [hpos, List.drop_succ_cons] at hmem
      exact hslice s (List.mem_of_mem_drop hmem)
    · exact hstranger

end Publisher

def steadyAbc : PublisherEnv := ⟨true, fun _ => some [97, 98, 99], fun _ => true⟩

def publishedAbc : List Sample :=
  letI := Format.fanoutWire
  (publishTask groupSlices "a/x/fanout" ⟨shortHash [97, 98, 99], 3⟩ abcChunks steadyAbc
    (sampleManifest 3 (shortHash [97, 98, 99]))).1

def strangeSample : Sample := ⟨"a/x/fanout", encSlice, [97, 98, 99]⟩

/-- Two receivers that join when both samples are out. The first finds both in the cache, the second
one finds a cache of one sample. -/
theorem fanout_delivers_abc :
    letI := Format.fanoutWire
    (let ran := receiveFanout shortBao ⟨0, 1000⟩ Disk.empty sampleDest "x"
      (some (shortHash [97, 98, 99]))
        ((strangeSample :: publishedAbc).map .sample)
      ∃ stats, ran.result = some (.ok stats) ∧ (run Disk.apply ran.ops Disk.empty).dest =
        some [97, 98, 99]) ∧
    ∀ stats,
      (receiveFanout shortBao ⟨0, 1000⟩ Disk.empty sampleDest "x" (some (shortHash [97, 98, 99]))
      ((strangeSample :: publishedAbc.drop 1).map .sample ++ [.stalled])).result ≠
        some (.ok stats) := by
  let _ := Format.fanoutWire
  have hpub : fanoutManifest shortBao ⟨"x", none, 65536, 0⟩ [97, 98, 99] =
      .ok (sampleManifest 3 (shortHash [97, 98, 99]), abcChunks) := by rfl
  have hsteady : steadyAbc.Steady [97, 98, 99] := ⟨rfl, fun _ => rfl, fun _ => rfl⟩
  have hpin : ∀ r, some (shortHash [97, 98, 99]) = some r →
      r = shortBao.hash [97, 98, 99] := fun r hr =>
    (Option.some.inj hr).symm
  have hstrange : ∀ mc, ¬ AcceptableFrame shortBao ⟨0, 1000⟩ "x"
      (some (shortHash [97, 98, 99])) strangeSample mc := by
    rintro mc ⟨hframe, -⟩
    cases hframe
  have hfree : sampleDest.refusesNow Disk.empty = false := rfl
  have hlate : ¬(sampleDest.overwrite = .refuse ∧ sampleDest.appeared = true) := by decide
  have hamid : ∀ heard : List Sample, ∀ s ∈ strangeSample :: heard,
      s ∈ heard ∨ ∀ mc, ¬ AcceptableFrame shortBao ⟨0, 1000⟩ "x"
      (some (shortHash [97, 98, 99])) s mc := by
    intro heard s hs
    rcases List.mem_cons.mp hs with rfl | hs
    · exact .inr hstrange
    · exact .inl hs
  refine ⟨?_, fun stats => ?_⟩
  · have hkept : 2 ≤ maxSamples 4096 abcChunks.count := by decide
    have hheard : sentTo (maxSamples 4096 abcChunks.count) 2 publishedAbc = publishedAbc :=
      sentTo_of_le _ hkept
    obtain ⟨-, hdelivers, -⟩ := fanout_delivers shortBao_laws abc_encodes
      (fun b hb => shortHash_abc hb) hpub (by decide) hsteady hpin
        (by decide) hfree hlate (by decide)
      (hheard ▸ List.sublist_cons_self strangeSample publishedAbc) (hheard ▸ hamid publishedAbc)
    have hran := hdelivers hkept []
    rw [List.append_nil] at hran
    exact hran
  · have hgone : maxSamples 1 abcChunks.count < 2 := by decide
    have hheard : sentTo (maxSamples 1 abcChunks.count) 2 publishedAbc = publishedAbc.drop 1 :=
      sentTo_of_lt (by decide)
    obtain ⟨-, -, hnever⟩ :=
      fanout_delivers shortBao_laws abc_encodes (fun b hb => shortHash_abc hb) hpub
      (by decide) hsteady hpin (by decide) hfree hlate (by decide)
      (hheard ▸ List.sublist_cons_self strangeSample (publishedAbc.drop 1))
        (hheard ▸ hamid (publishedAbc.drop 1))
    exact hnever hgone stats

end Zblob

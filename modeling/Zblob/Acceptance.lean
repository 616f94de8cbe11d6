import Zblob.Delivery
import Zblob.Index

/-!
Which reply a receive loop settles on. The fan-out receiver and the index fetch judge a
reply completely before they commit to it; `start` makes its last two checks on the reply
that the loop has already returned.
-/

set_option autoImplicit false

namespace Zblob

structure ManifestOk (bao : Bao) (maxBlobSize : UInt64) (id : String) (expectedRoot : Option Hash)
    (mc : Manifest × TransferChunks) : Prop where
  valid : mc.1.validate maxBlobSize = .ok ()
  id : mc.1.id.str = id
  pinned : ∀ r, expectedRoot = some r → mc.1.root = r
  geometry : mc.1.chunks = .ok mc.2
  proved : mc.1.totalLen = 0 → mc.1.root = bao.hash []

section Manifests

variable [Postcard Manifest] (bao : Bao) (cfg : ClientConfig) (req : DownloadRequest)

def AcceptableReply (r : Reply) (mc : Manifest × TransferChunks) : Prop :=
  ∃ sample, r = .ok sample ∧ sample.encoding = encManifest ∧
    decode Manifest sample.payload = .ok mc.1 ∧
    ManifestOk bao cfg.maxBlobSize req.id req.expectedRoot mc

/-- A manifest reply that the receive loop returns. -/
def LoopAccepts (r : Reply) (m : Manifest) : Prop :=
  ∃ sample, r = .ok sample ∧ sample.encoding = encManifest ∧
    manifestVerdict cfg req.id req.expectedRoot sample.payload = .ok m

/-- The first reply to pass the loop passes the two checks behind the loop as well, or
there is nothing it could mask. -/
def Unmasked (replies : List Reply) : Prop :=
  ∀ m, First (LoopAccepts cfg req) replies m →
    ((∃ c, m.chunks = .ok c) ∧ (m.totalLen = 0 → m.root = bao.hash [])) ∨
      ∀ r ∈ replies, ∀ mc, ¬ AcceptableReply bao cfg req r mc

variable {bao cfg req}

theorem manifestVerdict_of {id : String} {expectedRoot : Option Hash}
    {payload : Bytes} {m : Manifest}
    (hd : decode Manifest payload = .ok m) (hv : m.validate cfg.maxBlobSize = .ok ())
    (hid : m.id.str = id) (hpin : ∀ r, expectedRoot = some r → m.root = r) :
    manifestVerdict cfg id expectedRoot payload = .ok m := by
  unfold manifestVerdict
  simp only [hd, hv, hid, bind, Except.bind, ne_eq, not_true_eq_false, if_false]
  cases expectedRoot with
  | none => rfl
  | some r => simp [hpin r rfl]

theorem AcceptableReply.loopAccepts {r : Reply} {mc : Manifest × TransferChunks}
    (h : AcceptableReply bao cfg req r mc) : LoopAccepts cfg req r mc.1 := by
  obtain ⟨sample, rfl, henc, hd, ok⟩ := h
  exact ⟨sample, rfl, henc, manifestVerdict_of hd ok.valid ok.id ok.pinned⟩

theorem LoopAccepts.acceptable {r : Reply} {m : Manifest} {c : TransferChunks}
    (h : LoopAccepts cfg req r m) (hc : m.chunks = .ok c)
    (hempty : m.totalLen = 0 → m.root = bao.hash []) : AcceptableReply bao cfg req r (m, c) := by
  obtain ⟨sample, rfl, henc, hv⟩ := h
  obtain ⟨hd, hval, hid, hpin⟩ := manifestVerdict_ok hv
  exact ⟨sample, rfl, henc, hd, hval, hid, hpin, hc, hempty⟩

theorem LoopAccepts.unique {r : Reply} {m m' : Manifest} (h : LoopAccepts cfg req r m)
    (h' : LoopAccepts cfg req r m') : m = m' := by
  obtain ⟨sample, rfl, -, hv⟩ := h
  obtain ⟨sample', he, -, hv'⟩ := h'
  cases he
  exact Except.ok.inj (hv.symm.trans hv')

theorem manifestLoop_selects (replies : List Reply) (rejected : Option BlobError) :
    Selects (LoopAccepts cfg req) replies
      (manifestLoop cfg req.id req.expectedRoot rejected replies) := by
  intro m
  induction replies generalizing rejected with
  | nil => simp [manifestLoop]
  | cons r rest ih =>
    cases r with
    | error e =>
      rw [First.skip (by rintro m' ⟨sample, h, -⟩; cases h)]
      exact ih rejected
    | ok sample =>
      simp only [manifestLoop]
      split
      · rename_i henc
        rw [First.skip (by rintro m' ⟨s, h, he, -⟩; cases h; exact henc he)]
        exact ih rejected
      · rename_i henc
        cases hv : manifestVerdict cfg req.id req.expectedRoot sample.payload with
        | ok m' =>
          have hm' : LoopAccepts cfg req (.ok sample) m' := ⟨sample, rfl, not_not.mp henc, hv⟩
          rw [First.cons]
          constructor
          · intro h
            cases h
            exact .inl hm'
          · rintro (h | ⟨hno, -⟩)
            · rw [hm'.unique h]
            · exact absurd hm' (hno m')
        | error e =>
          rw [First.skip (by rintro m' ⟨s, h, -, hs⟩; cases h; rw [hv] at hs; cases hs)]
          exact ih _

theorem start_eq_ok {replies : List Reply} {mc : Manifest × TransferChunks} :
    start bao cfg req (some replies) = .ok mc ↔
      First (LoopAccepts cfg req) replies mc.1 ∧ mc.1.chunks = .ok mc.2 ∧
        (mc.1.totalLen = 0 → mc.1.root = bao.hash []) := by
  obtain ⟨m, c⟩ := mc
  have hloop : Selects (LoopAccepts cfg req) replies
      (manifestLoop cfg req.id req.expectedRoot none replies) := manifestLoop_selects replies none
  simp only [start, fetchManifestMatching, bind, Except.bind]
  cases hid : validateId req.id with
  | error e =>
    simp only [reduceCtorEq, false_iff]
    rintro ⟨hfirst, -⟩
    obtain ⟨r, -, m', hm'⟩ := First.exists_iff.mp ⟨m, hfirst⟩
    obtain ⟨sample, -, -, hv⟩ := hm'
    have hvalid := m'.id.valid
    rw [(manifestVerdict_ok hv).2.2.1] at hvalid
    simp [validateId, BlobId.new, hvalid, Except.map] at hid
  | ok u =>
    simp only
    cases hl : manifestLoop cfg req.id req.expectedRoot none replies with
    | error e =>
      simp only [reduceCtorEq, false_iff]
      rintro ⟨hfirst, -⟩
      have := (hloop m).mpr hfirst
      rw [hl] at this
      cases this
    | ok m' =>
      have hfirst := (hloop m').mp hl
      have hsame : First (LoopAccepts cfg req) replies m ↔ m' = m := by
        rw [← hloop m, hl, Except.ok.injEq]
      simp only [hsame]
      by_cases hempty : m'.totalLen = 0 ∧ m'.root ≠ bao.hash []
      · rw [if_pos hempty]
        simp only [reduceCtorEq, false_iff]
        rintro ⟨rfl, -, hp⟩
        exact hempty.2 (hp hempty.1)
      · rw [if_neg hempty]
        cases hc : m'.chunks with
        | error e =>
          simp only [reduceCtorEq, false_iff]
          rintro ⟨rfl, hc', -⟩
          rw [hc] at hc'
          cases hc'
        | ok c' =>
          simp only [Except.ok.injEq, Prod.mk.injEq]
          constructor
          · rintro ⟨rfl, rfl⟩
            exact ⟨rfl, hc, fun h0 => by_contra fun hr => hempty ⟨h0, hr⟩⟩
          · rintro ⟨rfl, hc', -⟩
            rw [hc] at hc'
            exact ⟨rfl, Except.ok.inj hc'⟩

theorem first_acceptable_iff {replies : List Reply} {mc : Manifest × TransferChunks}
    (hc : mc.1.chunks = .ok mc.2) (hempty : mc.1.totalLen = 0 → mc.1.root = bao.hash [])
    (hfirst : First (LoopAccepts cfg req) replies mc.1) :
    First (AcceptableReply bao cfg req) replies mc := by
  obtain ⟨before, r, after, he, hr, hno⟩ := hfirst
  exact ⟨before, r, after, he, hr.acceptable hc hempty,
    fun y hy mc' hacc => hno y hy mc'.1 hacc.loopAccepts⟩

theorem start_selects_iff (replies : List Reply) :
    Selects (AcceptableReply bao cfg req) replies (start bao cfg req (some replies)) ↔
      Unmasked bao cfg req replies := by
  constructor
  · intro hsel m hfirst
    by_cases hgood : (∃ c, m.chunks = .ok c) ∧ (m.totalLen = 0 → m.root = bao.hash [])
    · exact .inl hgood
    · right
      intro r hr mc hacc
      obtain ⟨mc', hmc'⟩ := First.exists_iff.mpr ⟨r, hr, mc, hacc⟩
      obtain ⟨hf', hc', he'⟩ := start_eq_ok.mp ((hsel mc').mpr hmc')
      obtain rfl : m = mc'.1 := hfirst.unique (fun _ _ _ ha hb => ha.unique hb) hf'
      exact hgood ⟨⟨mc'.2, hc'⟩, he'⟩
  · intro hun mc
    rw [start_eq_ok]
    constructor
    · rintro ⟨hfirst, hc, hempty⟩
      exact first_acceptable_iff hc hempty hfirst
    · intro hacc
      obtain ⟨r, hr, mc', hr'⟩ := First.exists_iff.mp ⟨mc, hacc⟩
      obtain ⟨m, hfirst⟩ := First.exists_iff.mpr ⟨r, hr, mc'.1, hr'.loopAccepts⟩
      rcases hun m hfirst with ⟨⟨c, hc⟩, hempty⟩ | hnone
      · have hfa : First (AcceptableReply bao cfg req) replies (m, c) :=
          first_acceptable_iff hc hempty hfirst
        have huniq : (m, c) = mc := by
          refine hfa.unique (fun r a b ha hb => ?_) hacc
          have hm := ha.loopAccepts.unique hb.loopAccepts
          obtain ⟨-, -, -, -, oka⟩ := ha
          obtain ⟨-, -, -, -, okb⟩ := hb
          have hcc := oka.geometry
          rw [hm, okb.geometry] at hcc
          exact Prod.ext hm (Except.ok.inj hcc).symm
        subst huniq
        exact ⟨hfirst, hc, hempty⟩
      · exact absurd hr' (hnone r hr mc')

end Manifests

section Frames

variable [Postcard FanoutMessage] (bao : Bao) (cfg : FanoutConfig) (id : String)
  (expectedRoot : Option Hash)

def AcceptableFrame (s : Sample) (mc : Manifest × TransferChunks) : Prop :=
  fanoutFrame s = some (.manifest mc.1) ∧ ManifestOk bao cfg.maxBlobSize id expectedRoot mc

def Settled.result : Settled → Option (Result (Manifest × TransferChunks))
  | .pending => none
  | .failed e => some (.error e)
  | .manifest m c _ _ => some (.ok (m, c))

variable {bao cfg id expectedRoot}

omit [Postcard FanoutMessage] in
theorem fanoutVerdict_iff {m : Manifest} {c : TransferChunks} :
    fanoutVerdict bao cfg id expectedRoot m = .ok c ↔
      ManifestOk bao cfg.maxBlobSize id expectedRoot (m, c) := by
  constructor
  · intro h
    obtain ⟨hv, hid, hc, hempty, hpin⟩ := fanoutVerdict_ok h
    exact ⟨hv, hid, hpin, hc, hempty⟩
  · intro ok
    have hpin : expectedRoot.filter (m.root ≠ ·) = none := by
      rw [Option.filter_eq_none_iff]
      intro r hr
      simpa using ok.pinned r hr
    have hempty : ¬ (m.totalLen = 0 ∧ m.root ≠ bao.hash []) := fun h => h.2 (ok.proved h.1)
    have hval := ok.valid
    have hid := ok.id
    simp only at hval hid
    simp only [fanoutVerdict, bind, Except.bind, hval, hid, ne_eq, not_true_eq_false, if_false]
    simp only [ne_eq] at hpin hempty
    simp only [hpin, if_neg hempty]
    exact ok.geometry

/-- Phase A skips every frame it cannot use, so on a finite stream it settles on the
first acceptable manifest. -/
theorem phaseA_selects (samples : List Sample) (a : PhaseA) :
    ∃ r, (phaseA bao cfg id expectedRoot a (samples.map .sample ++ [.stalled])).result = some r ∧
      Selects (AcceptableFrame bao cfg id expectedRoot) samples r := by
  induction samples generalizing a with
  | nil => exact ⟨_, rfl, selects_error _ (by simp)⟩
  | cons s samples ih =>
    have skipped : ∀ a', (∀ mc, ¬ AcceptableFrame bao cfg id expectedRoot s mc) →
        ∃ r, (phaseA bao cfg id expectedRoot a' (samples.map .sample ++ [.stalled])).result =
        some r ∧
          Selects (AcceptableFrame bao cfg id expectedRoot) (s :: samples) r := by
      intro a' hno
      obtain ⟨r, hr, hsel⟩ := ih a'
      exact ⟨r, hr, fun mc => by rw [First.skip hno]; exact hsel mc⟩
    simp only [List.map_cons, List.cons_append, phaseA]
    cases hf : fanoutFrame s with
    | none => exact skipped a (by rintro mc ⟨h, -⟩; rw [hf] at h; cases h)
    | some frame =>
      cases frame with
      | slice index data => exact skipped _ (by rintro mc ⟨h, -⟩; rw [hf] at h; cases h)
      | manifest m =>
        simp only
        cases hv : fanoutVerdict bao cfg id expectedRoot m with
        | error e =>
          refine skipped _ ?_
          rintro ⟨m', c⟩ ⟨h, ok⟩
          rw [hf] at h
          cases h
          rw [fanoutVerdict_iff.mpr ok] at hv
          cases hv
        | ok c =>
          have hacc : AcceptableFrame bao cfg id expectedRoot s (m, c) :=
            ⟨hf, fanoutVerdict_iff.mp hv⟩
          refine ⟨_, rfl, fun mc => ?_⟩
          rw [First.cons]
          constructor
          · intro h
            cases h
            exact .inl hacc
          · rintro (⟨h, ok⟩ | ⟨hno, -⟩)
            · obtain ⟨m', c'⟩ := mc
              rw [hf] at h
              cases h
              have hc := fanoutVerdict_iff.mpr ok
              rw [hv] at hc
              cases hc
              rfl
            · exact absurd hacc (hno (m, c))

end Frames

section Indexes

variable [Postcard TreeIndex] [Postcard IndexDescriptor] (th : TreeHash) (zstd : Zstd)
  (cfg : TreeConfig) (id : String) (expectedRoot : Option Hash)

def AcceptableIndex (r : Reply × ShardReplies) (index : TreeIndex) : Prop :=
  ∃ sample payload, r.1 = .ok sample ∧ indexPayload th zstd cfg sample r.2 = some (.ok payload) ∧
    payload.length ≤ cfg.maxIndexBytes ∧ decode TreeIndex payload = .ok index ∧
    index.validate th = .ok () ∧ index.id.str = id ∧
    ∀ root, expectedRoot = some root → index.rootHash = root

variable {th zstd cfg id expectedRoot}

omit [Postcard IndexDescriptor] in
theorem indexVerdict_iff {payload : Bytes} {index : TreeIndex} :
    indexVerdict th cfg id expectedRoot payload = .ok index ↔
      payload.length ≤ cfg.maxIndexBytes ∧ decode TreeIndex payload = .ok index ∧
        index.validate th = .ok () ∧ index.id.str = id ∧
        ∀ root, expectedRoot = some root → index.rootHash = root := by
  unfold indexVerdict
  split
  · rename_i hlen
    simp only [reduceCtorEq, false_iff]
    rintro ⟨hle, -⟩
    omega
  · rename_i hlen
    cases hd : decode TreeIndex payload with
    | error e => simp [bind, Except.bind]
    | ok found =>
      simp only [bind, Except.bind]
      cases hv : found.validate th with
      | error e =>
        simp only [reduceCtorEq, Except.ok.injEq, false_iff]
        rintro ⟨-, rfl, hv', -⟩
        rw [hv] at hv'
        cases hv'
      | ok u =>
        simp only
        split
        · rename_i hid
          simp only [reduceCtorEq, Except.ok.injEq, false_iff]
          rintro ⟨-, rfl, -, hid', -⟩
          exact hid hid'
        · rename_i hid
          cases hp : expectedRoot.filter (found.rootHash ≠ ·) with
          | some root =>
            obtain ⟨hr, hne⟩ := Option.filter_eq_some_iff.mp hp
            simp only [reduceCtorEq, Except.ok.injEq, false_iff]
            rintro ⟨-, rfl, -, -, hpin⟩
            exact of_decide_eq_true hne (hpin root hr)
          | none =>
            have hpin : ∀ root, expectedRoot = some root → found.rootHash = root := by
              intro root hr
              simpa using Option.filter_eq_none_iff.mp hp root hr
            simp only [Except.ok.injEq]
            constructor
            · rintro rfl
              exact ⟨by omega, rfl, hv, not_not.mp hid, hpin⟩
            · rintro ⟨-, rfl, -⟩
              rfl

theorem indexLoop_selects (replies : List (Reply × ShardReplies)) (rejected : Option BlobError) :
    Selects (AcceptableIndex th zstd cfg id expectedRoot) replies
      (indexLoop th zstd cfg id expectedRoot rejected replies) := by
  intro index
  induction replies generalizing rejected with
  | nil => simp [indexLoop]
  | cons r rest ih =>
    obtain ⟨r, shards⟩ := r
    cases r with
    | error e =>
      rw [First.skip (by rintro i ⟨s, p, h, -⟩; cases h)]
      exact ih rejected
    | ok sample =>
      simp only [indexLoop]
      cases hp : indexPayload th zstd cfg sample shards with
      | none =>
        rw [First.skip (by rintro i ⟨s, p, h, h2, -⟩; cases h; rw [hp] at h2; cases h2)]
        exact ih rejected
      | some got =>
        cases got with
        | error e =>
          rw [First.skip (by rintro i ⟨s, p, h, h2, -⟩; cases h; rw [hp] at h2; cases h2)]
          exact ih _
        | ok payload =>
          have hacc : ∀ i, AcceptableIndex th zstd cfg id expectedRoot (.ok sample, shards) i ↔
              indexVerdict th cfg id expectedRoot payload = .ok i := by
            intro i
            rw [indexVerdict_iff]
            constructor
            · rintro ⟨s, p, h, h2, hrest⟩
              cases h
              rw [hp] at h2
              cases h2
              exact hrest
            · exact fun hrest => ⟨sample, payload, rfl, hp, hrest⟩
          simp only
          cases hv : indexVerdict th cfg id expectedRoot payload with
          | ok found =>
            rw [First.cons, hacc, hv]
            constructor
            · exact .inl
            · rintro (h | ⟨hno, -⟩)
              · exact h
              · exact absurd ((hacc found).mpr hv) (hno found)
          | error e =>
            rw [First.skip (by intro i hi; rw [hacc, hv] at hi; cases hi)]
            exact ih _

theorem fetchIndexMatching_selects (replies : List (Reply × ShardReplies)) :
    Selects (AcceptableIndex th zstd cfg id expectedRoot) replies
      (fetchIndexMatching th zstd cfg id expectedRoot (some replies)) := by
  simp only [fetchIndexMatching, bind, Except.bind, BlobId.new]
  split
  · rename_i e hid
    split at hid
    · cases hid
    · rename_i hbad
      refine selects_error e fun r _ index hacc => ?_
      obtain ⟨-, -, -, -, -, -, -, hsame, -⟩ := hacc
      have hvalid := index.id.valid
      rw [hsame] at hvalid
      exact hbad hvalid
  · rename_i bid hid
    split at hid
    · cases hid
      exact indexLoop_selects replies none
    · cases hid

end Indexes

/-- Over every sequence of replies and frames, each of the three receive paths returns
the first acceptable one, if and only if `start` is not handed an unacceptable reply by
its loop while an acceptable one is there. -/
theorem first_acceptable_returned_iff [Postcard Manifest] [Postcard FanoutMessage]
    [Postcard TreeIndex] [Postcard IndexDescriptor] (bao : Bao) (cfg : ClientConfig)
    (fanout : FanoutConfig) (th : TreeHash) (zstd : Zstd) (tree : TreeConfig)
    (req : DownloadRequest)
    (replies : List Reply) (frames : List Sample) (indexes : List (Reply × ShardReplies)) :
    (Selects (AcceptableReply bao cfg req) replies (start bao cfg req (some replies)) ∧
      (∃ r, (phaseA bao fanout req.id req.expectedRoot PhaseA.start
          (frames.map .sample ++ [.stalled])).result = some r ∧
        Selects (AcceptableFrame bao fanout req.id req.expectedRoot) frames r) ∧
      Selects (AcceptableIndex th zstd tree req.id req.expectedRoot) indexes
        (fetchIndexMatching th zstd tree req.id req.expectedRoot (some indexes))) ↔
      Unmasked bao cfg req replies := by
  rw [start_selects_iff]
  exact ⟨fun h => h.1,
    fun h => ⟨h, phaseA_selects frames PhaseA.start, fetchIndexMatching_selects indexes⟩⟩

def samplePayload (totalLen : UInt8) (root : Hash) : Bytes :=
  [3, 1, 120, 0, totalLen, 0x80, 0x80, 4, 32] ++ root.bytes ++ [0, 0]

@[reducible] def samplePostcard : Postcard Manifest where
  fromBytes data :=
    if data = samplePayload 0 (shortHash [97, 98, 99]) then
      some (sampleManifest 0 (shortHash [97, 98, 99]))
    else if data = samplePayload 3 (shortHash [97, 98, 99]) then
      some (sampleManifest 3 (shortHash [97, 98, 99]))
    else none

/-- An empty blob under the root of `abc` answers first, the honest replica second: the
call fails although the second reply is acceptable. -/
theorem empty_manifest_masks :
    let _ : Postcard Manifest := samplePostcard
    let replies : List Reply :=
      [.ok ⟨"a/x/manifest", encManifest, samplePayload 0 (shortHash [97, 98, 99])⟩,
        .ok ⟨"b/x/manifest", encManifest, samplePayload 3 (shortHash [97, 98, 99])⟩]
    (∃ r ∈ replies, ∃ mc, AcceptableReply shortBao sampleConfig ⟨"x", none⟩ r mc) ∧
      ¬ Selects (AcceptableReply shortBao sampleConfig ⟨"x", none⟩) replies
        (start shortBao sampleConfig ⟨"x", none⟩ (some replies)) := by
  intro _ replies
  let c : TransferChunks := ⟨65536, 3, by decide, by decide⟩
  let good : Sample := ⟨"b/x/manifest", encManifest, samplePayload 3 (shortHash [97, 98, 99])⟩
  have hacc : AcceptableReply shortBao sampleConfig ⟨"x", none⟩ (.ok good)
      (sampleManifest 3 (shortHash [97, 98, 99]), c) := by
    refine ⟨good, rfl, rfl, by decide, ?_⟩
    exact ⟨by decide, rfl, by simp, TransferChunks.new_self c, by decide⟩
  have hmem : ∃ r ∈ replies, ∃ mc, AcceptableReply shortBao sampleConfig ⟨"x", none⟩ r mc :=
    ⟨.ok good, by simp [replies, good], _, hacc⟩
  refine ⟨hmem, fun hsel => ?_⟩
  obtain ⟨mc, hmc⟩ := First.exists_iff.mpr hmem
  have hok := (hsel mc).mpr hmc
  have hbad : (start shortBao sampleConfig ⟨"x", none⟩ (some replies)).isOk = false := by decide
  rw [hok] at hbad
  cases hbad

end Zblob

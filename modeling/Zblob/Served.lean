import Zblob.Durable
import Zblob.Honest
import Zblob.Lib.Progress

/-!
A download from a server of whole blobs, through a network that loses, repeats and reorders and
among strangers who answer too: as long as of as many queries as the client tries in vain one
brings a slice from the server, the download ends with the server's content.
-/

set_option autoImplicit false

namespace Zblob

open ByteFile (Leaf)
open Runs (run)

/-- Some reply that is looked at after the `k`-th query is good for it. -/
def Carries (good : SliceQuery → Reply → Prop) (asked : List SliceQuery)
    (rounds : List Round) (k : Nat) : Prop :=
  ∃ q round, asked[k]? = some q ∧ rounds[k]? = some round ∧ ∃ r ∈ round.replies, good q r

/-- Of `n` queries on end one at least brings a good reply. -/
def Fairly (n : Nat) (good : SliceQuery → Reply → Prop) (asked : List SliceQuery)
    (rounds : List Round) : Prop :=
  ∀ k, k + n ≤ asked.length → ∃ j, k ≤ j ∧ j < k + n ∧ Carries good asked rounds j

def Round.Calm (round : Round) : Prop := round.Uncancelled ∧ round.got ≠ none

section Loop

variable {bao : Bao} {cfg : ClientConfig} {m : Manifest} {c : TransferChunks}
  {persist : Bool} {v : Fill}

theorem heard_asked_eq (recvs : List Recv) :
    (v.heard bao cfg m c persist recvs).asked = v.asked ++ [⟨cfg.origin, holes cfg m c v.state⟩] :=
  (drain_frame recvs).1

theorem fillHoles_asked (v : Fill) (rounds : List Round) :
    v.asked <+: (fillHoles bao cfg m c persist v rounds).1.asked := by
  have heard : ∀ (v : Fill) (recvs : List Recv),
      v.asked <+: (v.heard bao cfg m c persist recvs).asked := by
    intro v recvs
    rw [heard_asked_eq]
    exact List.prefix_append _ _
  apply fillHoles_rule (P := fun v _ out => v.asked <+: out.1.asked)
  case full => exact fun v _ _ => List.prefix_rfl
  case dry => exact fun v _ => List.prefix_rfl
  case stopped => exact fun v _ _ _ _ => List.prefix_rfl
  case refused => exact fun v _ _ _ _ _ => List.prefix_append _ _
  case cut => exact fun v _ _ recvs _ _ _ _ => heard v recvs
  case filled => exact fun v _ _ recvs _ _ _ _ _ => heard v recvs
  case gaveUp => exact fun v _ _ recvs _ _ _ _ _ _ => heard v recvs
  case stalled => exact fun v _ _ recvs _ _ _ _ _ _ ih => (heard v recvs).trans ih
  case progress => exact fun v _ _ recvs _ _ _ _ _ _ ih => (heard v recvs).trans ih

/-- A slice that verifies for a missing chunk is progress. -/
theorem heard_progress (hfit : v.state.Fits m c) {recvs : List Recv}
    {r : Reply} (hr : r ∈ drained recvs) {i : Nat}
    (hi : i < c.count) (hmissing : v.state.isSet i = false) (hver : Verifies bao m c i r) :
    (v.heard bao cfg m c persist recvs).state.received ≠ v.state.received := by
  intro heq
  have hbefore := received_add_missing hfit
  have hafter := received_add_missing (heard_fits bao cfg persist recvs hfit)
  have hset := (heard_isSet bao cfg persist recvs hfit i).mpr (.inr ⟨hi, r, hr, hver⟩)
  have hsub : ((List.range c.count).filter fun j =>
      !(v.heard bao cfg m c persist recvs).state.isSet j).Sublist
      ((List.range c.count).filter fun j => !v.state.isSet j) := by
    apply List.monotone_filter_right
    intro j hj
    rw [Bool.not_eq_true'] at hj ⊢
    by_contra hjset
    rw [Bool.not_eq_false] at hjset
    rw [(heard_isSet bao cfg persist recvs hfit j).mpr (.inl hjset)] at hj
    cases hj
  have hsame := hsub.eq_of_length (by simp only [missingCount] at hbefore hafter; omega)
  have hmem : i ∈ (List.range c.count).filter fun j => !v.state.isSet j := by simp [hi, hmissing]
  rw [← hsame] at hmem
  simp [hset] at hmem

theorem heard_query {recvs : List Recv} {asked : List SliceQuery}
    (h : (v.heard bao cfg m c persist recvs).asked <+: asked) :
    asked[v.asked.length]? = some ⟨cfg.origin, holes cfg m c v.state⟩ := by
  rw [heard_asked_eq] at h
  obtain ⟨later, rfl⟩ := h
  simp

variable {good : SliceQuery → Reply → Prop} {asked : List SliceQuery} {all : List Round}

theorem heard_vain (hfit : v.state.Fits m c)
    (hgood : ∀ r, good ⟨cfg.origin, holes cfg m c v.state⟩ r →
      ∃ i, i < c.count ∧ v.state.isSet i = false ∧ Verifies bao m c i r)
    {round : Round} {recvs : List Recv} (hround : all[v.asked.length]? = some round)
    (hgot : round.got = some recvs)
    (hpre : (v.heard bao cfg m c persist recvs).asked <+: asked)
    (heq : (v.heard bao cfg m c persist recvs).state.received = v.state.received) :
    ¬Carries good asked all v.asked.length := by
  rintro ⟨q, round', hq, hround', r, hr, hqr⟩
  rw [hround, Option.some.injEq] at hround'
  subst hround'
  rw [heard_query hpre, Option.some.injEq] at hq
  subst hq
  obtain ⟨i, hi, hmissing, hver⟩ := hgood r hqr
  rw [Round.replies, hgot] at hr
  exact heard_progress hfit hr hi hmissing hver heq

/-- The loop never gives up on a network that is fair to it. -/
theorem fillHoles_fair
    (hgood : ∀ s : ResumeState, s.Fits m c → s.isComplete c.count = false →
      ∀ r, good ⟨cfg.origin, holes cfg m c s⟩ r →
      ∃ i, i < c.count ∧ s.isSet i = false ∧ Verifies bao m c i r)
    (hfair : Fairly (max 1 cfg.maxAttempts) good asked all)
    (hcalm : ∀ round ∈ all, round.Calm) (v : Fill)
    (rounds : List Round) (hfit : v.state.Fits m c)
    (hasked : (fillHoles bao cfg m c persist v rounds).1.asked = asked)
    (hrest : all.drop v.asked.length = rounds) (hcount : v.noProgress ≤ v.asked.length)
    (hvain : ∀ j, v.asked.length ≤ j + v.noProgress → j < v.asked.length →
      ¬Carries good asked all j) :
    (fillHoles bao cfg m c persist v rounds).2 = .pending ∨
      (fillHoles bao cfg m c persist v rounds).2 = .done (.ok ()) := by
  induction rounds generalizing v with
  | nil =>
    rw [fillHoles]
    split
    · exact .inr rfl
    · exact .inl rfl
  | cons round rest ih =>
    have hround : all[v.asked.length]? = some round := by
      rw [← List.head?_drop, hrest]
      rfl
    have htail : all.drop (v.asked.length + 1) = rest := by
      rw [← List.tail_drop, hrest]
      rfl
    obtain ⟨⟨hstart, hkeep⟩, hissued⟩ := hcalm round (List.mem_of_getElem? hround)
    obtain ⟨out, hout⟩ : ∃ out, fillHoles bao cfg m c persist v (round :: rest) = out := ⟨_, rfl⟩
    rw [hout] at hasked ⊢
    rw [fillHoles] at hout
    by_cases hdone : v.state.isComplete c.count = true
    · rw [if_pos hdone] at hout
      subst hout
      exact .inr rfl
    rw [if_neg hdone, if_neg (by simp [hstart])] at hout
    rw [Bool.not_eq_true] at hdone
    cases hgot : round.got with
    | none => exact absurd hgot hissued
    | some recvs =>
      rw [hgot] at hout
      simp only at hout
      have hlen := heard_asked bao cfg m c persist v recvs
      have hsame := heard_noProgress bao cfg m c persist v recvs
      have hfits := heard_fits bao cfg persist recvs hfit
      split at hout
      · rename_i hflag
        exact absurd ((drain_cut_iff recvs).mp hflag) (hkeep recvs hgot)
      split at hout
      · subst hout
        exact .inr rfl
      split at hout
      · rename_i heq
        have vain : (v.heard bao cfg m c persist recvs).asked <+: asked →
            ∀ j, v.asked.length ≤ j + v.noProgress → j < v.asked.length + 1 →
            ¬Carries good asked all j := by
          intro hpre j hlow hhigh
          rcases Nat.lt_succ_iff_lt_or_eq.mp hhigh with hj | rfl
          · exact hvain j hlow hj
          · exact heard_vain hfit (hgood v.state hfit hdone) hround hgot hpre heq
        split at hout
        · rename_i hgave
          subst hout
          have hpre : (v.heard bao cfg m c persist recvs).asked <+: asked := by
            rw [← hasked]
            exact List.prefix_rfl
          have hgave : (v.heard bao cfg m c persist recvs).noProgress + 1 ≥ cfg.maxAttempts := hgave
          have hall : asked.length = v.asked.length + 1 := by
            rw [← hlen, ← hasked]
            rfl
          obtain ⟨j, hlow, hhigh, hcarries⟩ :=
            hfair (asked.length - max 1 cfg.maxAttempts) (by omega)
          exact absurd hcarries (vain hpre j (by omega) (by omega))
        · subst hout
          have hpre : (v.heard bao cfg m c persist recvs).asked <+: asked := by
            rw [← hasked]
            exact fillHoles_asked (v.heard bao cfg m c persist recvs).stalled rest
          have hnext : (v.heard bao cfg m c persist recvs).stalled.noProgress =
              v.noProgress + 1 := by
            rw [← hsame]
            rfl
          have hnow : (v.heard bao cfg m c persist recvs).stalled.asked.length =
              v.asked.length + 1 := hlen
          refine ih (v.heard bao cfg m c persist recvs).stalled hfits hasked ?_ ?_ ?_
          · rw [hnow, htail]
          · omega
          · rw [hnow, hnext]
            exact fun j hlow hhigh => vain hpre j (by omega) hhigh
      · subst hout
        refine ih { v.heard bao cfg m c persist recvs with noProgress := 0 } hfits hasked ?_
          (Nat.zero_le _) ?_
        · change all.drop (v.heard bao cfg m c persist recvs).asked.length = rest
          rw [hlen, htail]
        · intro j hlow hhigh
          exact absurd hhigh (Nat.not_lt.mpr hlow)

end Loop

section Download

variable {ω : Type} {env : Env} {W : ω → Prop} {memLimit : Nat}
  {encodeSlice : Tier1.OutboardStore → Bytes → Nat × Nat → Option Bytes}
    {data : Bytes} {m : Manifest}
  {c : TransferChunks} {cfg : ClientConfig}

def FromServer (env : Env) (W : ω → Prop) (memLimit : Nat)
    (encodeSlice : Tier1.OutboardStore → Bytes → Nat × Nat → Option Bytes)
    (p : ServePrefix) (q : QueryPrefix)
    (m : Manifest) (query : SliceQuery) (reply : Reply) : Prop :=
  Tier1.SentSlice env W memLimit encodeSlice p m (sliceSelector q m.id query.ranges) reply

structure Serves (env : Env) (W : ω → Prop) (memLimit : Nat)
    (encodeSlice : Tier1.OutboardStore → Bytes → Nat × Nat → Option Bytes)
    (data : Bytes) (m : Manifest)
    (host : Tier1.Host ω) : Prop where
  steady : host.Steady env W memLimit encodeSlice
  registered : ∃ r, host.shared.registry m.id.str = some r ∧ r.manifest = m
  root : m.root = env.bao.hash data
  cap : 1 ≤ env.maxChunksPerQuery.toNat
  encodes : Tier1.Encodes encodeSlice env.bao data
  unique : ∀ b, env.bao.hash b = env.bao.hash data → b = data

theorem mem_chunksOf {ranges : List (Nat × Nat)} {i : Nat} :
    i ∈ Tier1.chunksOf ranges ↔ ∃ r ∈ ranges, r.1 ≤ i ∧ i < r.2 := by
  rw [Tier1.chunksOf, List.mem_flatMap]
  refine exists_congr fun r => and_congr_right fun _ => ?_
  rw [List.mem_range'_1]
  omega

variable {host : Tier1.Host ω} (h : Serves env W memLimit encodeSlice data m host)
  (hc : m.chunks = .ok c)
include h hc

variable (cfg) in
/-- The queries of the loop are for missing chunks, and the server takes them. -/
theorem Serves.accepts (q : QueryPrefix) {s : ResumeState} (hfit : s.Fits m c)
    (hopen : s.isComplete c.count = false) :
    (∀ i ∈ Tier1.chunksOf (holes cfg m c s), i < c.count ∧ s.isSet i = false) ∧
      parseRanges (selectorParameters (sliceSelector q m.id (holes cfg m c s))) c.count
        env.maxChunksPerQuery.toNat = .ok (holes cfg m c s) := by
  obtain ⟨r, hr, rfl⟩ := h.registered
  obtain ⟨data', hdata'⟩ := h.steady.holds.shared.2 _ r hr
  obtain ⟨-, hmissing, hparse⟩ :=
    slice_query_accepted cfg r.manifest c s q env.maxChunksPerQuery hfit hopen hdata'.cap h.cap
  refine ⟨fun i hi => ?_, hparse⟩
  obtain ⟨span, hspan, hlow, hhigh⟩ := mem_chunksOf.mp hi
  exact hmissing span hspan i hlow hhigh

theorem Serves.verifies {p : ServePrefix} {q : QueryPrefix} {s : ResumeState} (hfit : s.Fits m c)
    (hopen : s.isComplete c.count = false) {reply : Reply}
    (hreply : FromServer env W memLimit encodeSlice p q m ⟨cfg.origin, holes cfg m c s⟩ reply) :
    ∃ i, i < c.count ∧ s.isSet i = false ∧ Verifies env.bao m c i reply := by
  obtain ⟨hmissing, hparse⟩ := h.accepts cfg hc q hfit hopen
  obtain ⟨i, hi, hver⟩ :=
    hreply.verifies hc h.root h.unique h.encodes hparse fun i hi => (hmissing i hi).1
  exact ⟨i, (hmissing i hi).1, (hmissing i hi).2, hver⟩

theorem Serves.answers (p : ServePrefix) (q : QueryPrefix) {s : ResumeState} (hfit : s.Fits m c)
    (hopen : s.isComplete c.count = false) {i : Nat} (hi : i ∈ Tier1.chunksOf (holes cfg m c s)) :
    ∃ reply, FromServer env W memLimit encodeSlice p q m ⟨cfg.origin, holes cfg m c s⟩ reply ∧
      Verifies env.bao m c i reply := by
  obtain ⟨hmissing, hparse⟩ := h.accepts cfg hc q hfit hopen
  obtain ⟨r, hr, hm⟩ := h.registered
  obtain ⟨bytes, -, hsent, hver⟩ :=
    h.steady.answers hc h.root h.unique h.encodes hparse (fun i hi => (hmissing i hi).1) hr hm p hi
  exact ⟨_, hsent, hver⟩

end Download

/-- A download whose manifest is that of a server which stands still, from a disk that earlier
calls may have left at any point. The server has a slice to send for every chunk of every query
that the loop can come to issue. As long as of as many queries on end as the client tries in vain
one brings such a slice, in whatever company, the download does not fail; once it has had its
number of queries it has returned, and the content is at the destination. -/
theorem served_download_delivers [Postcard Manifest] {ω : Type} {env : Env}
    {W : ω → Prop} {memLimit : Nat}
    {encodeSlice : Tier1.OutboardStore → Bytes → Nat × Nat → Option Bytes}
    {data : Bytes} {m : Manifest}
    {c : TransferChunks} {cfg : ClientConfig} {host : Tier1.Host ω} (laws : env.bao.Laws)
    (h : Serves env W memLimit encodeSlice data m host) (p : ServePrefix)
    (q : QueryPrefix) {req : DownloadRequest}
    {query : Option (List Reply)} (hstart : start env.bao cfg req query = .ok (m, c)) {d : Disk}
    (hd : d.Trusted env.bao) {dst : Dest} (hfree : dst.refusesNow d = false)
    (hlate : ¬(dst.overwrite = .refuse ∧ dst.appeared = true)) {rounds : List Round}
    (hcalm : ∀ round ∈ rounds, round.Calm)
    (hfair : Fairly (max 1 cfg.maxAttempts) (FromServer env W memLimit encodeSlice p q m)
      (fillHoles env.bao cfg m c true (Fill.resume (openPart d m c).2) rounds).1.asked rounds) :
    let ran := downloadToInner env.bao cfg d dst req query rounds
    (∀ s : ResumeState, s.Fits m c → s.isComplete c.count = false →
      ∀ i ∈ Tier1.chunksOf (holes cfg m c s),
      ∃ reply, FromServer env W memLimit encodeSlice p q m ⟨cfg.origin, holes cfg m c s⟩ reply ∧
        Verifies env.bao m c i reply) ∧
    (ran.result = none ∨ ∃ stats, ran.result = some (.ok stats) ∧
      (run Disk.apply ran.ops d).dest = some data) ∧
    ((missingCount c (openPart d m c).2 + 1) * max 1 cfg.maxAttempts ≤ rounds.length →
      ran.result ≠ none) := by
  intro ran
  obtain ⟨hc, hempty, -⟩ := start_ok hstart
  obtain ⟨f, hf, htracks⟩ := openPart_tracks hc hd
  have hfit := htracks.fits
  have hran : ran = dst.finish m (openPart d m c).1
      (fillHoles env.bao cfg m c true (Fill.resume (openPart d m c).2) rounds) := by
    simp only [ran, downloadToInner, hfree, Bool.false_eq_true, if_false, hstart]
  generalize hfilled : fillHoles env.bao cfg m c true (Fill.resume (openPart d m c).2)
    rounds = filled at *
  have hloop : filled.2 = .pending ∨ filled.2 = .done (.ok ()) := by
    rw [← hfilled]
    refine fillHoles_fair (fun s hs hopen r hr => h.verifies hc hs hopen hr)
      hfair hcalm _ rounds hfit ?_ rfl
      (Nat.zero_le _) fun j _ hj => absurd hj (Nat.not_lt_zero j)
    rw [hfilled]
  refine ⟨fun s hs hopen i hi => h.answers hc p q hs hopen hi, ?_, fun hlong hnone => ?_⟩
  · rcases hloop with hpending | hok
    · left
      rw [hran, Dest.finish, hpending]
    · right
      have hresult : ran.result = some (.ok filled.1.stats) := by
        rw [hran, Dest.finish, hok]
        simp only [if_neg hlate]
      have hdest := finish_dest (hran ▸ hresult) hf
      have hkept :
          Tracks env.bao m c ((run Disk.apply (openPart d m c).1 d).target f) filled.1 := by
        rw [← hfilled]
        exact fillHoles_keeps (tracks_keeps laws) cfg true rounds _ htracks
      have hcomplete : filled.1.state.isComplete c.count = true :=
        fillHoles_done (hfilled.trans (Prod.ext rfl hok))
      obtain ⟨-, hhash⟩ := hkept.content laws hcomplete hempty
      refine ⟨_, hresult, ?_⟩
      rw [hran, hdest, h.unique _ (hhash.trans h.root)]
  · obtain ⟨-, hends, -⟩ := retry_loop_ends env.bao cfg m c true (openPart d m c).2
      { TransferStats.default with chunksResumed := (openPart d m c).2.received } rounds hfit
    have hpending := hends hlong
    rw [show Fill.start (openPart d m c).2 _ = Fill.resume (openPart d m c).2 from rfl,
      hfilled] at hpending
    rw [hran, Dest.finish, hloop.resolve_left hpending] at hnone
    simp [if_neg hlate] at hnone

section Abc

def groupSlices (_ : Tier1.OutboardStore) (data : Bytes) (_ : Nat × Nat) : Option Bytes := some data

def registerAbc : List (Tier1.Action Unit) :=
  [.register ⟨.source, ⟨"x", none, 65536, 0⟩, Tier1.MemoryBlobSource Unit [97, 98, 99]⟩,
    .run 0 true, .run 0 true,
    .run 0 true]

def abcHost : Option (Tier1.Host Unit) :=
  registerAbc.foldlM (fun s a => (s.step sampleEnv 1000 groupSlices a).map Prod.fst)
    (Tier1.Host.start ())

def abcManifest : Manifest :=
  { sampleManifest 3 (shortHash [97, 98, 99]) with
    ext := ((Ext.new.setU32 Ext.maxChunksPerQuery 64).1.setU64 Ext.maxBlobSize 1000).1 }

def abcConfig : ClientConfig := ⟨"a", 2, 128, 1099511627776⟩

def abcAt : ServePrefix := ⟨"a", ⟨by decide, by decide, by decide⟩, by decide⟩
def abcQuery : QueryPrefix := ⟨"a", by decide⟩

def abcSlice (payload : Bytes) : Recv := .reply (.ok ⟨"a/x/slice/0", encSlice, payload⟩) false

def abcRounds : List Round :=
  [⟨false, some []⟩,
    ⟨false, some [abcSlice [120, 121, 122], abcSlice [97, 98, 99], abcSlice [97, 98, 99]]⟩,
    ⟨false, some []⟩, ⟨false, some []⟩]

theorem shortHash_abc {b : Bytes} (h : shortHash b = shortHash [97, 98, 99]) :
    b = [97, 98, 99] := by
  unfold shortHash at h
  split at h
  · exact absurd h (by decide)
  · split at h
    · assumption
    · split at h
      · exact absurd h (by decide)
      · split at h
        · exact absurd h (by decide)
        · exact absurd h (by decide)

theorem abc_encodes : Tier1.Encodes groupSlices shortBao [97, 98, 99] := by
  intro r hr
  refine ⟨[97, 98, 99], [(0, [97, 98, 99])], rfl, ?_⟩
  obtain ⟨hlow, hhigh, hstart, hlast⟩ := hr
  have hwhole : r = (0, 3) := by
    have : r.1 % 16384 = 0 := hstart
    have : r.2 = 3 ∨ r.2 % 16384 = 0 := hlast
    have : r.2 ≤ 3 := hhigh
    exact Prod.ext (by simp only; omega) (by simp only; omega)
  subst hwhole
  decide +kernel

theorem abcSource_still :
    (Tier1.MemoryBlobSource Unit [97, 98, 99]).Still (fun _ => True) [97, 98, 99] :=
  ⟨fun _ _ => ⟨0, rfl⟩, fun _ _ _ _ _ _ => rfl, fun _ _ _ _ => rfl, by decide⟩

theorem abcHost_serves : ∃ host, abcHost = some host ∧
    Serves sampleEnv (fun _ => True) 1000 groupSlices [97, 98, 99] abcManifest host := by
  have hend : (abcHost.bind fun host => (host.shared.registry "x").map Tier1.Registered.manifest) =
      some abcManifest := by decide +kernel
  obtain ⟨host, hhost, hreg⟩ := Option.bind_eq_some_iff.mp hend
  refine ⟨host, hhost, ?_, Option.map_eq_some_iff.mp hreg, rfl, by decide, abc_encodes,
    fun b hb => shortHash_abc hb⟩
  refine Runs.Reachable.drive (fun s a t ha hstep => ?_) (.start ⟨(), trivial, rfl⟩) hhost
  obtain ⟨out, hout, rfl⟩ := Option.map_eq_some_iff.mp hstep
  refine ⟨?_, out.2, hout⟩
  simp only [registerAbc, List.mem_cons, List.not_mem_nil, or_false] at ha
  rcases ha with rfl | rfl | rfl | rfl
  · exact ⟨_, abcSource_still⟩
  · trivial
  · trivial
  · trivial

theorem abc_sizeOk : SizeOk 65536 := by decide

theorem abc_countOk : divCeil (3 : UInt64).toNat (65536 : UInt32).toNat ≤ u32Max := by decide

def abcChunks : TransferChunks := ⟨65536, 3, abc_sizeOk, abc_countOk⟩

def abcFilled : Fill × Outcome :=
  fillHoles shortBao abcConfig abcManifest abcChunks true
    (Fill.resume (openPart Disk.empty abcManifest abcChunks).2)
    abcRounds

theorem abcFilled_asked :
    abcFilled.1.asked.map (fun q => (q.origin, q.ranges)) = [("a", [(0, 1)]), ("a", [(0, 1)])] := by
  decide +kernel

theorem abcRounds_calm : ∀ round ∈ abcRounds, round.Calm := by
  simp [abcRounds, abcSlice, Round.Calm, Round.Uncancelled]

theorem served_download_delivers_abc :
    letI : Postcard Manifest := ⟨fun b => if b = [1] then some abcManifest else none⟩
    let ran :=
      downloadToInner shortBao abcConfig Disk.empty sampleDest ⟨"x", some (shortHash [97, 98, 99])⟩
      (some [.ok ⟨"a/x/manifest", encManifest, [1]⟩]) abcRounds
    ∃ stats, ran.result = some (.ok stats) ∧ (run Disk.apply ran.ops Disk.empty).dest =
      some [97, 98, 99] := by
  let _ : Postcard Manifest := ⟨fun b => if b = [1] then some abcManifest else none⟩
  intro ran
  obtain ⟨host, -, hserves⟩ := abcHost_serves
  have hc : abcManifest.chunks = .ok abcChunks := TransferChunks.new_self abcChunks
  have hstart : start shortBao abcConfig ⟨"x", some (shortHash [97, 98, 99])⟩
      (some [.ok ⟨"a/x/manifest", encManifest, [1]⟩]) = .ok (abcManifest, abcChunks) := by
    rfl
  have hfair : Fairly 2
      (FromServer sampleEnv (fun _ : Unit => True) 1000 groupSlices abcAt abcQuery abcManifest)
      abcFilled.1.asked abcRounds := by
    intro k hk
    have hlen := congrArg List.length abcFilled_asked
    rw [List.length_map] at hlen
    have hsecond := congrArg (fun l => l[1]?) abcFilled_asked
    simp only [List.getElem?_map, List.getElem?_cons_succ, List.getElem?_cons_zero] at hsecond
    obtain ⟨q, hq, hpair⟩ := Option.map_eq_some_iff.mp hsecond
    obtain ⟨-, hranges⟩ := Prod.mk.inj hpair
    refine ⟨1, ?_, ?_, q, _, hq, rfl, .ok ⟨"a/x/slice/0", encSlice, [97, 98, 99]⟩, ?_, ?_⟩
    · rw [hlen] at hk
      simp only [List.length_cons, List.length_nil] at hk
      omega
    · omega
    · simp [Round.replies, drained, abcSlice]
    · rw [FromServer, hranges]
      obtain ⟨r, hr, hm⟩ := hserves.registered
      have hparse : parseRanges
          (selectorParameters (sliceSelector abcQuery abcManifest.id [(0, 1)])) abcChunks.count
          64 = .ok [(0, 1)] := by decide +kernel
      obtain ⟨bytes, hbytes, hsent, -⟩ :=
        hserves.steady.answers hc hserves.root hserves.unique hserves.encodes hparse
        (by decide) hr hm abcAt (i := 0) (by decide)
      cases hbytes
      exact hsent
  have hfree : sampleDest.refusesNow Disk.empty = false := rfl
  have hlate : ¬(sampleDest.overwrite = .refuse ∧ sampleDest.appeared = true) :=
    by simp [sampleDest]
  obtain ⟨-, hdelivers, hends⟩ :=
    served_download_delivers shortBao_laws hserves abcAt abcQuery hstart
    (trusted_of_no_load rfl) hfree hlate abcRounds_calm hfair
  exact hdelivers.resolve_left (hends (by decide +kernel))

end Abc

end Zblob

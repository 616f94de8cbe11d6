import Zblob.Holes
import Zblob.Limits
import Zblob.Retry
import Zblob.Routing
import Zblob.Staleness

/-!
A server whose sources stand still: whatever it registers, and however its registrations,
queries and stops interleave, a slice that it sends is one that the client marks a chunk for,
and a query can be run until every chunk it asks for has been sent.
-/

set_option autoImplicit false

namespace Zblob.Tier1

open Runs (Reachable)

variable {ω : Type}

/-- In the worlds of `W` the source has the content `data`, through every object that opening it
reaches there. -/
structure BlobSource.Still (source : BlobSource ω) (W : ω → Prop) (data : Bytes) : Prop where
  opens : ∀ w, W w → ∃ obj, source.opens w = some obj
  reads : ∀ w w' obj, W w → W w' → source.opens w = some obj → source.read w' obj = data
  fingerprint : ∀ w w', W w → W w' → source.fingerprint w = source.fingerprint w'
  short : data.length < 2 ^ 64

def chunksOf (ranges : List (Nat × Nat)) : List Nat :=
  ranges.flatMap fun r => List.range' r.1 (r.2 - r.1)

section Content

variable (env : Env) (W : ω → Prop)

structure Registered.Of (data : Bytes) (r : Registered ω) : Prop where
  still : r.source.Still W data
  outboard : r.outboard = ⟨env.bao.hash data, data.length⟩
  root : r.manifest.root = env.bao.hash data
  len : r.manifest.totalLen.toNat = data.length
  chunks : r.manifest.chunks = .ok r.chunks
  fingerprint : ∀ w, W w → r.fingerprint = r.source.fingerprint w
  cap : r.manifest.maxChunksPerQuery = some env.maxChunksPerQuery

def Query.Asks (q : Query ω) (ranges : List (Nat × Nat)) : Prop :=
  ∃ params, q.kind = .slices params ∧
    parseRanges params q.snap.chunks.count env.maxChunksPerQuery.toNat = .ok ranges

def RegisterPc.Of (source : BlobSource ω) (data : Bytes) : RegisterPc ω → Prop
  | .opening => True
  | .hash obj totalLen => (∀ w, W w → source.read w obj = data) ∧ totalLen = data.length
  | .finish outboard totalLen _ _ =>
    outboard = ⟨env.bao.hash data, data.length⟩ ∧ totalLen = data.length

def QueryPc.Of (q : Query ω) (data : Bytes) : QueryPc → Prop
  | .check => True
  | .opening ranges => q.Asks env ranges
  | .slices obj todo => (∀ w, W w → q.snap.source.read w obj = data) ∧ ∃ ranges, q.Asks env ranges ∧
      todo ⊆ chunksOf ranges

def Task.Of : Task ω → Prop
  | .register r pc => ∃ data, r.source.Still W data ∧ pc.Of env W r.source data
  | .query q pc => ∃ data, q.snap.Of env W data ∧ pc.Of env W q data

def stillInv : Pool.Invariant (Shared ω) (Task ω) Unit where
  shared s := W s.world ∧ ∀ id r, s.registry id = some r → ∃ data, r.Of env W data
  task _ t := t.Of env W

/-- The worlds stay in `W`, and what is registered stands still in them. -/
def Action.Still : Action ω → Prop
  | .change world => W world
  | .register r => ∃ data, r.source.Still W data
  | _ => True

abbrev Host.Steady (memLimit : Nat)
    (encodeSlice : OutboardStore → Bytes → Nat × Nat → Option Bytes) : Host ω → Prop :=
  Reachable (fun s => ∃ world, W world ∧ s = Host.start world)
    fun s a t => a.Still W ∧ ∃ ev, s.step env memLimit encodeSlice a = some (t, ev)

end Content

section Steps

variable {env : Env} {memLimit : Nat} {encodeSlice : OutboardStore →
  Bytes → Nat × Nat → Option Bytes} {W : ω → Prop}

theorem newManifest_ok {spec : BlobSpec} {root : Hash} {totalLen : UInt64}
    {m : Manifest} {c : TransferChunks}
    (h : newManifest env spec root totalLen = .ok (m, c)) :
    m.root = root ∧ m.totalLen = totalLen ∧ m.chunks = .ok c ∧
      m.maxChunksPerQuery = some env.maxChunksPerQuery := by
  unfold newManifest at h
  simp only [bind, Except.bind] at h
  split at h
  · cases h
  rename_i id hid
  split at h
  · cases h
  rename_i chunks hchunks
  split at h
  · cases h
  rename_i u hlimits
  split at h
  · cases h
  rename_i u' hext
  cases h
  exact ⟨rfl, rfl, hchunks, (limits_advertised rfl rfl hlimits hext).1⟩

theorem pass_still {source : BlobSource ω} {data : Bytes} {obj totalLen : Nat}
    {w : ω} {pass : HashPass}
    {outboard : OutboardStore} (hread : source.read w obj = data) (hlen : totalLen = data.length)
    (h : pass.outboard env.bao.hash (source.read w obj) totalLen = some outboard) :
    outboard = ⟨env.bao.hash data, data.length⟩ := by
  subst hlen
  rw [hread] at h
  cases pass with
  | whole =>
    cases h
    rfl
  | sized =>
    rw [HashPass.outboard, if_pos (Nat.le_refl _), List.take_length] at h
    cases h
    rfl

theorem finish_of (hashedAt : ω) (changed : Bool) {s : Shared ω}
    {r : Registration ω} {outboard : OutboardStore}
    {totalLen : Nat} {data : Bytes} (hw : W s.world)
    (hs : ∀ id e, s.registry id = some e → ∃ data, e.Of env W data)
    (hstill : r.source.Still W data) (hout : outboard = ⟨env.bao.hash data, data.length⟩)
    (hlen : totalLen = data.length) :
    (finish env s r outboard totalLen hashedAt changed).1.world = s.world ∧
      ∀ id e, (finish env s r outboard totalLen hashedAt changed).1.registry id = some e →
      ∃ data, e.Of env W data := by
  subst hout hlen
  unfold finish
  cases hnew : newManifest env r.spec (env.bao.hash data) (UInt64.ofNat data.length) with
  | error e => exact ⟨rfl, hs⟩
  | ok made =>
    obtain ⟨manifest, chunks⟩ := made
    obtain ⟨hroot, htotal, hchunks, hcap⟩ := newManifest_ok hnew
    simp only
    cases hold : s.registry r.spec.id with
    | some existing =>
      simp only
      split
      · exact ⟨rfl, hs⟩
      · exact ⟨rfl, hs⟩
    | none =>
      refine ⟨rfl, fun id e he => ?_⟩
      by_cases hid : id = manifest.id.str
      · subst hid
        simp only [Function.update_self, Option.some.injEq] at he
        subst he
        have hsize : manifest.totalLen.toNat = data.length := by
          rw [htotal]
          exact UInt64.toNat_ofNat_of_lt' hstill.short
        exact ⟨data, hstill, rfl, hroot, hsize, hchunks, fun w hw' =>
          hstill.fingerprint _ _ hw hw', hcap⟩
      · simp only [Function.update_of_ne hid] at he
        exact hs id e he

variable (memLimit) in
theorem registerStep_of {s : Shared ω} (hw : W s.world)
    (hs : ∀ id e, s.registry id = some e → ∃ data, e.Of env W data) (ok : Bool) {r : Registration ω}
    {pc : RegisterPc ω} (ht : (Task.register r pc).Of env W) :
    (W (registerStep env memLimit s ok r pc).1.world ∧
      ∀ id e, (registerStep env memLimit s ok r pc).1.registry id = some e →
      ∃ data, e.Of env W data) ∧
      ∀ pc', (registerStep env memLimit s ok r pc).2.1 = some pc' →
      (Task.register r pc').Of env W := by
  obtain ⟨data, hstill, hpc⟩ := ht
  cases pc with
  | opening =>
    simp only [registerStep]
    split
    · exact ⟨⟨hw, hs⟩, fun pc' hpc' => by cases hpc'⟩
    · rename_i obj hobj
      refine ⟨⟨hw, hs⟩, fun pc' hpc' => ?_⟩
      cases ok with
      | false => cases hobj
      | true =>
        cases hpc'
        exact ⟨data, hstill, fun w hw' => hstill.reads _ _ _ hw hw' hobj,
          by rw [hstill.reads _ _ _ hw hw hobj]⟩
  | hash obj totalLen =>
    obtain ⟨hread, hlen⟩ := hpc
    simp only [registerStep]
    split
    · exact ⟨⟨hw, hs⟩, fun pc' hpc' => by cases hpc'⟩
    · rename_i outboard hob
      refine ⟨⟨hw, hs⟩, fun pc' hpc' => ?_⟩
      cases ok with
      | false => cases hob
      | true =>
        cases hpc'
        exact ⟨data, hstill, pass_still (hread _ hw) hlen hob, hlen⟩
  | finish outboard totalLen hashedAt changed =>
    obtain ⟨hout, hlen⟩ := hpc
    obtain ⟨hworld, hreg⟩ := finish_of hashedAt changed hw hs hstill hout hlen
    simp only [registerStep]
    split <;> rename_i heq <;> rw [heq] at hworld hreg <;>
      exact ⟨⟨by rw [hworld]; exact hw, hreg⟩, fun pc' hpc' => by cases hpc'⟩

theorem check_still {s : Shared ω} {q : Query ω} {data : Bytes} (hw : W s.world)
    (hq : q.snap.Of env W data) (ok : Bool) :
    queryStep env encodeSlice s ok q .check = answer env q := by
  have hfp := hq.fingerprint _ hw
  simp only [queryStep]
  split
  · rename_i before after hb ha
    rw [hfp, ha] at hb
    cases hb
    simp
  · rfl

theorem queryStep_of {s : Shared ω} (hw : W s.world) (ok : Bool) {q : Query ω} {pc : QueryPc}
    (ht : (Task.query q pc).Of env W) {pc' : QueryPc}
    (hstep : (queryStep env encodeSlice s ok q pc).1 = some pc') :
    (Task.query q pc').Of env W := by
  obtain ⟨data, hq, hpc⟩ := ht
  refine ⟨data, hq, ?_⟩
  cases pc with
  | check =>
    rw [check_still hw hq] at hstep
    unfold answer at hstep
    split at hstep
    · cases hstep
    · cases hstep
    · rename_i params hkind
      split at hstep
      · cases hstep
      · rename_i ranges hparse
        cases hstep
        exact ⟨params, hkind, hparse⟩
  | opening ranges =>
    simp only [queryStep] at hstep
    split at hstep
    · cases hstep
    · rename_i obj hobj
      cases ok with
      | false => cases hobj
      | true =>
        cases hstep
        exact ⟨fun w hw' => hq.still.reads _ _ _ hw hw' hobj, ranges, hpc, fun _ hi => hi⟩
  | slices obj todo =>
    obtain ⟨hread, ranges, hasks, hsub⟩ := hpc
    cases todo with
    | nil => cases hstep
    | cons index todo =>
      simp only [queryStep] at hstep
      split at hstep
      · cases hstep
      · cases hstep
        exact ⟨hread, ranges, hasks, fun i hi => hsub (List.mem_cons_of_mem _ hi)⟩

theorem Task.Of.note {before after : ω} {t : Task ω} (h : t.Of env W) :
    (t.note before after).Of env W := by
  cases t with
  | query q pc => exact h
  | register r pc =>
    cases pc with
    | opening => exact h
    | hash obj totalLen => exact h
    | finish outboard totalLen hashedAt changed => exact h

theorem Registered.Of.note {before after : ω} {r : Registered ω}
    {data : Bytes} (h : r.Of env W data) :
    (r.note before after).Of env W data :=
  ⟨h.still, h.outboard, h.root, h.len, h.chunks, h.fingerprint, h.cap⟩

theorem still_step {s t : Host ω} {a : Action ω} {ev : Option Event}
    (hI : (stillInv env W).Holds s) (ha : a.Still W)
    (h : s.step env memLimit encodeSlice a = some (t, ev)) : (stillInv env W).Holds t := by
  cases a with
  | change world =>
    cases h
    refine ⟨fun tid htid => ?_, ⟨ha, fun id r hr => ?_⟩, fun tid t ht => ?_,
      fun _ _ _ _ _ _ _ => trivial,
      fun _ _ => trivial⟩
    · change (s.tasks tid).map _ = none
      rw [hI.fresh tid htid]
      rfl
    · obtain ⟨r', hr', rfl⟩ := Option.map_eq_some_iff.mp hr
      obtain ⟨data, hdata⟩ := hI.shared.2 id r' hr'
      exact ⟨data, hdata.note⟩
    · obtain ⟨t', ht', rfl⟩ := Option.map_eq_some_iff.mp ht
      exact (hI.task tid t' ht').note
  | register r =>
    cases h
    obtain ⟨data, hstill⟩ := ha
    exact hI.spawn ⟨data, hstill, trivial⟩ fun _ => ⟨trivial, trivial⟩
  | unregister id =>
    cases h
    refine hI.onShared ⟨hI.shared.1, fun k e he => ?_⟩ (fun i u hu => hI.task i u hu)
      fun _ _ => trivial
    by_cases hk : k = id
    · subst hk
      simp at he
    · simp only [Function.update_of_ne hk] at he
      exact hI.shared.2 k e he
  | query id kind =>
    simp only [Host.step] at h
    split at h
    · cases h
      exact hI
    · rename_i r hr
      cases h
      obtain ⟨data, hdata⟩ := hI.shared.2 id r hr
      exact hI.spawn ⟨data, hdata, trivial⟩ fun _ => ⟨trivial, trivial⟩
  | run tid ok =>
    simp only [Host.step] at h
    split at h
    · cases h
    · rename_i u hu
      cases h
      have htask := hI.task tid u hu
      cases u with
      | register r pc =>
        obtain ⟨hshared, hnext⟩ := registerStep_of memLimit hI.shared.1 hI.shared.2 ok htask
        refine hI.resume hu hshared (fun v hv => ?_) (fun j u _ hj => hI.task j u hj)
          (fun _ _ _ _ _ _ => ⟨trivial, trivial⟩) fun _ _ _ _ => trivial
        obtain ⟨pc', hpc, rfl⟩ := Option.map_eq_some_iff.mp hv
        exact hnext pc' hpc
      | query q pc =>
        refine hI.resume hu hI.shared (fun v hv => ?_) (fun j u _ hj => hI.task j u hj)
          (fun _ _ _ _ _ _ => ⟨trivial, trivial⟩) fun _ _ _ _ => trivial
        obtain ⟨pc', hpc, rfl⟩ := Option.map_eq_some_iff.mp hv
        exact queryStep_of hI.shared.1 ok htask hpc

theorem Host.Steady.holds {s : Host ω} (h : s.Steady env W memLimit encodeSlice) :
    (stillInv env W).Holds s := by
  apply Reachable.invariant _ _ h
  · rintro s ⟨world, hw, rfl⟩
    exact Pool.Invariant.Holds.empty ⟨hw, fun id r hr => by cases hr⟩ fun _ => trivial
  · rintro s a t hs ⟨ha, ev, hstep⟩
    exact still_step hs ha hstep

end Steps

section Sent

variable (env : Env) (W : ω → Prop) (memLimit : Nat)
  (encodeSlice : OutboardStore → Bytes → Nat × Nat → Option Bytes)

/-- Slices that are cut out of `data`, by its own outboard, decode against its root. -/
def Encodes (bao : Bao) (data : Bytes) : Prop :=
  ∀ r, Aligned data.length r → ∃ bytes ls, encodeSlice ⟨bao.hash data, data.length⟩ data
    (chunkRange r) = some bytes ∧
    bao.decodeSlice (bao.hash data) data.length (chunkRange r) bytes = some ls

/-- A slice on its way from such a server, in answer to a query of what it serves as `m`. -/
def SentSlice (p : ServePrefix) (m : Manifest) (selector : String) (reply : Zblob.Reply) : Prop :=
  ∃ s : Host ω, s.Steady env W memLimit encodeSlice ∧ ∃ tid q pc ok t i bytes,
    s.tasks tid = some (.query q pc) ∧
    q.snap.manifest = m ∧ q.id = m.id.str ∧ q.kind = .slices (selectorParameters selector) ∧
    s.step env memLimit encodeSlice (.run tid ok) = some (t, some (.reply q.id (.slice i bytes))) ∧
    reply = .ok ⟨sliceKey p.str q.id (UInt32.ofNat i), encSlice, bytes⟩

variable {env W memLimit encodeSlice}

variable (env memLimit encodeSlice) in
theorem run_query {s : Host ω} {tid : Nat} {q : Query ω} {pc : QueryPc}
    (ht : s.tasks tid = some (.query q pc)) (ok : Bool) :
    s.step env memLimit encodeSlice (.run tid ok) =
      some (s.resume tid s.shared ((queryStep env encodeSlice s.shared ok q pc).1.map (.query q)),
        (queryStep env encodeSlice s.shared ok q pc).2) := by
  simp only [Host.step, ht]
  rfl

theorem Host.Steady.run {s : Host ω} (hs : s.Steady env W memLimit encodeSlice)
    {t : Nat} {q : Query ω} {p : QueryPc}
    (ht : s.tasks t = some (.query q p)) (ok : Bool) :
    Host.Steady env W memLimit encodeSlice
      (s.resume t s.shared ((queryStep env encodeSlice s.shared ok q p).1.map (.query q))) :=
  .next (a := .run t ok) hs ⟨trivial, _, run_query env memLimit encodeSlice ht ok⟩

/-- The only step of a query that sends a slice. -/
theorem slice_sent {s : Shared ω} {ok : Bool} {q : Query ω} {pc : QueryPc}
    {id : String} {i : Nat} {bytes : Bytes}
    (h : (queryStep env encodeSlice s ok q pc).2 = some (.reply id (.slice i bytes))) :
    ∃ obj todo, pc = .slices obj (i :: todo) ∧
      encodeSlice q.snap.outboard (q.snap.source.read s.world obj)
      (chunkRange (q.snap.chunks.byteRange i)) =
        some bytes := by
  have noSlice : ∀ {q : Query ω}, (answer env q).2 ≠ some (.reply id (.slice i bytes)) := by
    intro q hans
    unfold answer at hans
    split at hans
    · cases hans
    · cases hans
    · split at hans <;> cases hans
  cases pc with
  | check =>
    simp only [queryStep] at h
    split at h
    · split at h
      · cases h
      · exact absurd h noSlice
    · exact absurd h noSlice
  | opening ranges =>
    simp only [queryStep] at h
    split at h <;> cases h
  | slices obj todo =>
    cases todo with
    | nil => cases h
    | cons index todo =>
      simp only [queryStep] at h
      split at h
      · cases h
      · rename_i encoded henc
        cases h
        cases ok with
        | false => cases henc
        | true => exact ⟨obj, todo, rfl, henc⟩

section Blob

variable {m : Manifest} {c : TransferChunks} {data : Bytes} {selector : String}
  {ranges : List (Nat × Nat)}
  (hc : m.chunks = .ok c) (hroot : m.root = env.bao.hash data)
  (hcoll : ∀ b, env.bao.hash b = env.bao.hash data → b = data)
    (henc : Encodes encodeSlice env.bao data)
  (hparse : parseRanges (selectorParameters selector) c.count
    env.maxChunksPerQuery.toNat = .ok ranges)
  (hin : ∀ i ∈ chunksOf ranges, i < c.count)
include hc hroot hcoll

theorem Registered.Of.same {r : Registered ω} {data' : Bytes} (h : r.Of env W data')
    (hm : r.manifest = m) :
    r.Of env W data ∧ r.chunks = c ∧ c.totalLen.toNat = data.length := by
  have heq : data' = data := by
    apply hcoll
    rw [← h.root, hm, hroot]
  subst heq
  have hchunks := h.chunks
  rw [hm, hc, Except.ok.injEq] at hchunks
  refine ⟨h, hchunks.symm, ?_⟩
  rw [(Manifest.chunks_ok hc).2, ← hm]
  exact h.len

include henc hin

theorem encodes_chunk {r : Registered ω} (h : r.Of env W data) (hm : r.manifest = m) {i : Nat}
    (hi : i ∈ chunksOf ranges) :
    ∃ bytes ls, encodeSlice r.outboard data (chunkRange (r.chunks.byteRange i)) = some bytes ∧
      env.bao.decodeSlice m.root m.totalLen.toNat (chunkRange (c.byteRange i)) bytes = some ls := by
  obtain ⟨-, hchunks, hlen⟩ := h.same hc hroot hcoll hm
  have haligned := c.aligned (hin i hi)
  rw [hlen] at haligned
  obtain ⟨bytes, ls, hbytes, hls⟩ := henc _ haligned
  refine ⟨bytes, ls, by rw [h.outboard, hchunks]; exact hbytes, ?_⟩
  rw [hroot, ← (Manifest.chunks_ok hc).2, hlen]
  exact hls

omit hc hroot hcoll henc in
theorem decodes_verifies {i : Nat} (hi : i ∈ chunksOf ranges) {bytes : Bytes}
    {ls : List ByteFile.Leaf}
    (hls : env.bao.decodeSlice m.root m.totalLen.toNat (chunkRange (c.byteRange i)) bytes = some ls)
    (p : ServePrefix) (id : String) :
    Verifies env.bao m c i (.ok ⟨sliceKey p.str id (UInt32.ofNat i), encSlice, bytes⟩) := by
  refine verifies_ok.mpr ⟨rfl, ?_, ls, hls⟩
  rw [parseSliceIndex_sliceKey, UInt32.toNat_ofNat_of_lt' (Nat.lt_trans (hin i hi) c.count_lt)]

include hparse

theorem SentSlice.verifies {p : ServePrefix} {reply : Zblob.Reply}
    (h : SentSlice env W memLimit encodeSlice p m selector reply) :
    ∃ i ∈ chunksOf ranges, Verifies env.bao m c i reply := by
  obtain ⟨s, hs, tid, q, pc, ok, t, i, bytes, ht, hm, hid, hkind, hstep, rfl⟩ := h
  have hI := hs.holds
  obtain ⟨data', hq, hpc⟩ := hI.task tid _ ht
  obtain ⟨hof, hchunks, -⟩ := hq.same hc hroot hcoll hm
  rw [run_query env memLimit encodeSlice ht ok, Option.some.injEq, Prod.mk.injEq] at hstep
  obtain ⟨obj, todo, rfl, hsent⟩ := slice_sent hstep.2
  obtain ⟨hread, ranges', ⟨params, hparams, hparse'⟩, hsub⟩ := hpc
  rw [hkind] at hparams
  cases hparams
  rw [hchunks, hparse] at hparse'
  cases hparse'
  have hi : i ∈ chunksOf ranges := hsub (by simp)
  have hdata : data' = data := hcoll _ (by rw [← hq.root, hm, hroot])
  obtain ⟨encoded, ls, hencoded, hls⟩ := encodes_chunk hc hroot hcoll henc hin hof hm hi
  rw [hread _ hI.shared.1, hdata, hencoded] at hsent
  cases hsent
  exact ⟨i, hi, decodes_verifies hin hi hls p q.id⟩

omit hparse in
/-- A query can be run on until it is about to send any of the slices that are left. -/
theorem Host.Steady.until {s : Host ω} (hs : s.Steady env W memLimit encodeSlice)
    {tid : Nat} {q : Query ω} {obj : Nat}
    {todo : List Nat} (ht : s.tasks tid = some (.query q (.slices obj todo)))
    (hm : q.snap.manifest = m) {i : Nat}
    (hi : i ∈ todo) (hsub : todo ⊆ chunksOf ranges) :
    ∃ s' : Host ω, s'.Steady env W memLimit encodeSlice ∧ ∃ rest,
      s'.tasks tid = some (.query q (.slices obj (i :: rest))) := by
  induction todo generalizing s with
  | nil => cases hi
  | cons index todo ih =>
    by_cases hindex : i = index
    · subst hindex
      exact ⟨s, hs, todo, ht⟩
    · have hI := hs.holds
      obtain ⟨data', hq, hread, -⟩ := hI.task tid _ ht
      obtain ⟨hof, -, -⟩ := hq.same hc hroot hcoll hm
      have hdata : data' = data := hcoll _ (by rw [← hq.root, hm, hroot])
      obtain ⟨bytes, -, hbytes, -⟩ :=
        encodes_chunk hc hroot hcoll henc hin hof hm (hsub List.mem_cons_self)
      have hnext := hs.run ht true
      simp only [queryStep, if_true, hread _ hI.shared.1, hdata, hbytes] at hnext
      refine ih hnext ?_ ((List.mem_cons.mp hi).resolve_left hindex) fun j hj =>
        hsub (List.mem_cons_of_mem _ hj)
      simp [Pool.resume]

omit henc hin in
theorem Host.Steady.begins {s : Host ω} (hs : s.Steady env W memLimit encodeSlice)
    {r : Registered ω}
    (hr : s.shared.registry m.id.str = some r) (hm : r.manifest = m) :
    ∃ s' : Host ω, s'.Steady env W memLimit encodeSlice ∧ ∃ tid obj,
      s'.tasks tid =
        some (.query ⟨m.id.str, .slices (selectorParameters selector), r⟩
          (.slices obj (chunksOf ranges))) := by
  obtain ⟨data', hdata'⟩ := hs.holds.shared.2 _ r hr
  obtain ⟨hof, hchunks, -⟩ := hdata'.same hc hroot hcoll hm
  generalize hq : (⟨m.id.str, .slices (selectorParameters selector), r⟩ : Query ω) = q
  have hsnap : q.snap = r := by rw [← hq]
  have hasked : Host.Steady env W memLimit encodeSlice (s.spawn (.query q .check)) :=
    .next (a := .query m.id.str (.slices (selectorParameters selector))) hs
      ⟨trivial, none, by rw [query_step _ hr, hq]⟩
  have htask : (s.spawn (.query q .check)).tasks s.nextTask = some (.query q .check) :=
    by simp [Pool.spawn]
  have hanswer : answer env q = (some (.opening ranges), none) := by
    subst hq
    simp only [answer, hchunks, hparse]
  have hchecked := hasked.run htask true
  rw [check_still hasked.holds.shared.1 (hsnap ▸ hof), hanswer] at hchecked
  obtain ⟨obj, hobj⟩ := hof.still.opens _ hchecked.holds.shared.1
  have hopened :=
    hchecked.run (t := s.nextTask) (q := q) (p := .opening ranges) (by simp [Pool.resume]) true
  simp only [queryStep, hsnap, if_true, hobj] at hopened
  exact ⟨_, hopened, s.nextTask, obj, by simp [Pool.resume, chunksOf]⟩

/-- What is asked for of what is served is answered, chunk by chunk. -/
theorem Host.Steady.answers {s : Host ω} (hs : s.Steady env W memLimit encodeSlice)
    {r : Registered ω}
    (hr : s.shared.registry m.id.str = some r) (hm : r.manifest = m) (p : ServePrefix) {i : Nat}
    (hi : i ∈ chunksOf ranges) :
    ∃ bytes, encodeSlice ⟨env.bao.hash data, data.length⟩ data
      (chunkRange (c.byteRange i)) = some bytes ∧
      let reply := .ok ⟨sliceKey p.str m.id.str (UInt32.ofNat i), encSlice, bytes⟩
      SentSlice env W memLimit encodeSlice p m selector reply ∧ Verifies env.bao m c i reply := by
  obtain ⟨s', hs', tid, obj, ht⟩ := hs.begins hc hroot hcoll hparse hr hm
  obtain ⟨t, ht', rest, htask⟩ := hs'.until hc hroot hcoll henc hin ht hm hi fun _ hj => hj
  obtain ⟨data', hof, hstill, -⟩ := ht'.holds.task _ _ htask
  have hof : r.Of env W data' := hof
  have hread : r.source.read t.shared.world obj = data' := hstill _ ht'.holds.shared.1
  have hdata : data' = data := hcoll _ (by rw [← hof.root, hm, hroot])
  subst hdata
  obtain ⟨bytes, ls, hbytes, hls⟩ := encodes_chunk hc hroot hcoll henc hin hof hm hi
  have hsent := run_query env memLimit encodeSlice htask true
  simp only [queryStep, if_true, hread, hbytes] at hsent
  refine ⟨bytes, ?_, ⟨t, ht', tid, _, _, true, _, i, bytes, htask, hm, rfl, rfl, hsent, rfl⟩,
    decodes_verifies hin hi hls p _⟩
  rw [← hof.outboard, ← (hof.same hc hroot hcoll hm).2.1]
  exact hbytes

end Blob

end Sent

end Zblob.Tier1

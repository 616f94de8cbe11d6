import Zblob.Storage

/-!
A storage behind a network that loses nothing and keeps the order: an index that can be had has
all its chunks beside it, although nothing has been read back and its publisher may have died
right after the last put.
-/

set_option autoImplicit false

namespace Zblob

section Order

variable [Wire TreeIndex] (x : Terms)

def sampleNeeds (storePrefix : ServePrefix) (sample : Sample) : List String :=
  if sample.encoding = encIndex then
    match decode TreeIndex sample.payload with
    | .ok index => index.neededChunks.map (storeKey storePrefix.str .blake3)
    | .error _ => []
  else []

abbrev Storage.Complete (s : Storage) : Prop := s.Orderly Sample.key (sampleNeeds x.storePrefix)

abbrev Storage.Sent (s : Storage) (h : Hash) : Prop :=
  Depot.Sent Sample.key s (storeKey x.storePrefix.str .blake3 h)

/-- An index is put after its chunks, or where they are held; the network hands over what was
put first, once. -/
def FleetAction.InOrder (s : Fleet) : FleetAction → Prop
  | .begin job => ∀ index, job.index = some index → ∀ h ∈ index.neededChunks,
      h ∈ job.hashes ∨ (s.shared.held (storeKey x.storePrefix.str .blake3 h)).isSome
  | .network m => m = .land 0 false
  | _ => True

def Fleet.OrderlyStep (s : Fleet) (a : FleetAction) (s' : Fleet) : Prop :=
  s.FairStep x a s' ∧ a.InOrder x s

def Fleet.InOrder : Fleet → Prop :=
  Runs.Reachable (fun s => Fleet.Start x s ∧ s.shared.Complete x) (Fleet.OrderlyStep x)

/-- Of the chunks of the index that a job ends with, those not among `left` have been sent. -/
def Owed (s : Storage) (job : PublishJob) (left : List Hash) : Prop :=
  ∀ index, job.index = some index → ∀ h ∈ index.neededChunks, h ∈ left ∨ s.Sent x h

def PublishPc.Covers (s : Storage) (job : PublishJob) : PublishPc → Prop
  | .read groups => Owed x s job groups.flatten
  | .put batch groups => Owed x s job (batch.map Prod.fst ++ groups.flatten)
  | .index _ => Owed x s job []
  | _ => True

end Order

section Steps

variable {x : Terms} {s s' : Storage} {job : PublishJob}

theorem Owed.mono {left left' : List Hash} (h : Owed x s job left) (hleft : left ⊆ left')
    (hsent : ∀ h, s.Sent x h → s'.Sent x h) : Owed x s' job left' :=
  fun index hindex h' hh => (h index hindex h' hh).imp (fun hl => hleft hl) (hsent h')

theorem PublishPc.Covers.mono {pc : PublishPc} (h : pc.Covers x s job)
    (hsent : ∀ h, s.Sent x h → s'.Sent x h) :
    pc.Covers x s' job := by
  cases pc with
  | read groups => exact Owed.mono h (fun _ hh => hh) hsent
  | put batch groups => exact Owed.mono h (fun _ hh => hh) hsent
  | index index => exact Owed.mono h (fun _ hh => hh) hsent
  | settle => trivial
  | published => trivial
  | notSettled => trivial
  | failed => trivial

theorem next_covers {groups : List (List Hash)} (h : Owed x s job groups.flatten) :
    (job.next groups).Covers x s job := by
  cases groups with
  | cons group groups => exact h
  | nil =>
    unfold PublishJob.next PublishJob.afterChunks
    cases job.index with
    | none => trivial
    | some index => exact h

theorem afterPuts_covers {batch : List (Hash × Option Bytes)} {groups : List (List Hash)}
    (h : Owed x s job (batch.map Prod.fst ++ groups.flatten)) :
    (afterPuts job groups batch).Covers x s job := by
  cases batch with
  | nil => exact next_covers h
  | cons p batch => exact h

theorem afterProbe_covers (keys : List String) : (afterProbe keys).Covers x s job := by
  cases keys with
  | nil => trivial
  | cons key keys => trivial

theorem publishChunk_needs [Wire TreeIndex] {h : Hash} {bytes : Bytes}
    {policy : ChunkCompression} {sample : Sample}
    (hmade : publishChunk x.compress x.storePrefix h bytes policy = .ok sample) :
    sample.key = storeKey x.storePrefix.str .blake3 h ∧ sampleNeeds x.storePrefix sample = [] := by
  unfold publishChunk at hmade
  cases hpack : pack x.compress bytes policy with
  | error e =>
    rw [hpack] at hmade
    cases hmade
  | ok packed =>
    rw [hpack] at hmade
    cases hmade
    exact ⟨rfl, if_neg (show ¬encChunk = encIndex by decide)⟩

theorem indexSample_needs [Wire TreeIndex] (index : TreeIndex) :
    sampleNeeds x.storePrefix (indexSample x.treePrefix index) =
      index.neededChunks.map (storeKey x.storePrefix.str .blake3) := by
  simp [sampleNeeds, indexSample, decode_encode]

theorem PublishPc.GivenUp.covers {pc : PublishPc} (h : pc.GivenUp) : pc.Covers x s job := by
  cases pc with
  | notSettled key => trivial
  | failed e => trivial
  | _ => cases h

/-- A publisher puts an index only after its chunks. -/
theorem PublishPc.Covers.step [Wire TreeIndex] {t t' : Publishing} {input : PublishInput}
    (ok : t.Ok x) (h : t.pc.Covers x s t.job) (hs : s.Complete x)
    (hstep : t.step x.compress x.storePrefix x.treePrefix s input = some (s', t')) :
    s'.Complete x ∧ (∀ h, s.Sent x h → s'.Sent x h) ∧ t'.pc.Covers x s' t'.job := by
  have index : ∀ index, t.pc = .index index →
      Storage.Complete x (s.send (indexSample x.treePrefix index)) := by
    intro index hput
    have hown := ok.pc
    rw [hput] at h hown
    refine hs.send fun n hn => ?_
    rw [indexSample_needs] at hn
    obtain ⟨y, hy, rfl⟩ := List.mem_map.mp hn
    rcases h index hown y hy with hnil | hsent
    · cases hnil
    · exact hsent
  cases Publishing.step_moved hstep with
  | stop hstop => exact ⟨hs, fun _ hh => hh, hstop.covers⟩
  | read hread =>
    rw [hread] at h
    refine ⟨hs, fun _ hh => hh, afterPuts_covers (Owed.mono h ?_ fun _ hh => hh)⟩
    simp [Function.comp_def]
  | @chunk y bytes batch groups sample hput hmade =>
    rw [hput] at h
    obtain ⟨hkey, hneeds⟩ := publishChunk_needs hmade
    refine ⟨hs.send (by simp [hneeds]), fun _ hh => hh.send sample, afterPuts_covers ?_⟩
    intro index hindex z hz
    rcases h index hindex z hz with hz | hz
    · rcases List.mem_cons.mp hz with rfl | hz
      · have hsent : Depot.Sent Sample.key (s.send sample) sample.key := Depot.sent_send s sample
        rw [hkey] at hsent
        exact .inr hsent
      · exact .inl hz
    · exact .inr (hz.send sample)
  | index hput hsettle => exact ⟨index _ hput, fun _ hh => hh.send _, trivial⟩
  | settle hput hsettle hkeys =>
    exact ⟨index _ hput, fun _ hh => hh.send _, afterProbe_covers _⟩
  | answered hpc hanswer => exact ⟨hs, fun _ hh => hh, afterProbe_covers _⟩
  | again hpc hanswer => exact ⟨hs, fun _ hh => hh, h⟩

end Steps

section Runs

variable [Wire TreeIndex] {x : Terms} {s s' : Fleet}

/-- Every index is behind its chunks, and every publisher puts it there. -/
def orderInvariant (x : Terms) : Pool.Invariant Storage Publishing Unit where
  shared s := s.Complete x
  task s t := t.pc.Covers x s t.job

theorem orderInvariant_step {a : FleetAction} (hok : (publishInvariant x).Holds s)
    (h : (orderInvariant x).Holds s)
    (hstep : s.OrderlyStep x a s') : (orderInvariant x).Holds s' := by
  obtain ⟨⟨-, hstep⟩, horder⟩ := hstep
  cases a with
  | begin job =>
    cases hstep
    refine h.spawn (next_covers ?_) fun u => ⟨trivial, trivial⟩
    rw [sliceChunks_flatten, List.nil_append]
    exact fun index hindex y hy => (horder index hindex y hy).imp_right .inl
  | run tid input =>
    simp only [Fleet.step] at hstep
    split at hstep
    · cases hstep
    · rename_i t ht
      obtain ⟨r, hr, rfl⟩ := Option.map_eq_some_iff.mp hstep
      obtain ⟨hshared, hsent, hcovers⟩ := (h.task tid t ht).step (hok.task tid t ht) h.shared hr
      refine h.resume ht hshared (fun v hv => ?_) (fun j u hj hu => (h.task j u hu).mono hsent)
        (fun _ _ _ _ _ _ => ⟨trivial, trivial⟩) (fun _ _ _ _ => trivial)
      cases hv
      exact hcovers
  | crash tid =>
    simp only [Fleet.step] at hstep
    split at hstep
    · cases hstep
    · rename_i t ht
      cases hstep
      exact h.resume ht h.shared (fun v hv => by cases hv) (fun j u hj hu => h.task j u hu)
        (fun _ _ _ _ _ _ => ⟨trivial, trivial⟩) (fun _ _ _ _ => trivial)
  | network m =>
    obtain rfl : m = .land 0 false := horder
    obtain ⟨d, hd, rfl⟩ := Option.map_eq_some_iff.mp hstep
    exact h.onShared (h.shared.land hd) (fun i t ht => (h.task i t ht).mono fun _ hh => hh.land hd)
      fun _ _ => trivial

theorem Fleet.InOrder.reached (h : Fleet.InOrder x s) : Fleet.Reached x s :=
  Runs.Reachable.mono (fun _ hs => hs.1) (fun _ _ _ hstep => hstep.1) h

theorem Fleet.InOrder.invariant (h : Fleet.InOrder x s) : (orderInvariant x).Holds s := by
  induction h with
  | start hs =>
    obtain ⟨⟨hempty, -⟩, hshared⟩ := hs
    rw [hempty]
    exact Pool.Invariant.Holds.empty hshared fun _ => trivial
  | next hreach hstep ih =>
    exact orderInvariant_step (Fleet.InOrder.reached hreach).invariant ih hstep

end Runs

/-- An index that the storage has comes with all its chunks. -/
theorem Fleet.InOrder.complete [Wire TreeIndex] {x : Terms} {s : Fleet} (h : Fleet.InOrder x s)
    {key : String} {index : TreeIndex}
    (hheld : s.shared.held key = some (indexSample x.treePrefix index)) :
    ∀ h ∈ index.neededChunks, (s.shared.held (storeKey x.storePrefix.str .blake3 h)).isSome := by
  intro y hy
  refine h.invariant.shared.held key _ hheld _ ?_
  rw [indexSample_needs]
  exact List.mem_map_of_mem hy

/-- Where the network loses nothing and keeps the order, every index that the storage has comes
with its chunks, so that a snapshot can be had from the moment that its index can: nothing need
have been read back, and the publisher may be dead. -/
theorem index_comes_last [Wire TreeIndex] [Wire IndexDescriptor] {x : Terms} {cfg : SyncConfig}
    {cut : CdcParams → Bytes → List Bytes} {cdc : CdcParams} {tree : SourceTree} {id : String}
    {built built' : ChunkMap}
    (hbuild : buildTree (TreeHash.postcard x.hash) cut tree id cdc built = .ok (x.ours, built'))
    (hcut : CutsWell cut cdc tree) (hafford : affordable cfg x.ours = .ok ())
    (hmax : (encode x.ours).length ≤ cfg.maxIndexBytes) (hapart : x.Apart)
    (hclean : ∀ bytes piece, x.clean bytes → IsPiece cut cdc tree piece →
      x.hash bytes = x.hash piece → bytes = piece)
    (hpieces : ∀ piece, IsPiece cut cdc tree piece → x.clean piece)
    {s : Fleet} (hreach : Fleet.InOrder x s)
    (hindex : (s.shared.held (treeKey x.treePrefix.str x.ours.id.str)).isSome) :
    (∀ key index, s.shared.held key = some (indexSample x.treePrefix index) →
        ∀ h ∈ index.neededChunks, (s.shared.held (storeKey x.storePrefix.str .blake3 h)).isSome) ∧
      (∀ h ∈ x.ours.neededChunks, (s.shared.held (storeKey x.storePrefix.str .blake3 h)).isSome) ∧
      Retrievable x cfg cut cdc tree s := by
  have hchunks : ∀ h ∈ x.ours.neededChunks,
      (s.shared.held (storeKey x.storePrefix.str .blake3 h)).isSome := by
    obtain ⟨sample, hsample⟩ := Option.isSome_iff_exists.mp hindex
    have hget := hreach.reached.index hapart hindex
    simp only [Storage.get, hsample, Option.toList_some, List.map_cons,
      List.map_nil, List.cons.injEq, Except.ok.injEq,
      and_true] at hget
    exact hreach.complete (hget ▸ hsample)
  refine ⟨fun key index hheld => hreach.complete hheld, hchunks, ?_⟩
  exact hreach.reached.retrievable hbuild hcut hafford hmax hapart hclean hpieces hindex hchunks

section Home

attribute [local instance] Format.indexWire Format.descriptorWire

def homeLastPut (index : TreeIndex) : List FleetAction :=
  [.begin (.publish index .none .all), .run 0 (.read (.ok homeStart.store)),
    .run 0 (.put true), .run 0 (.put true),
    .crash 0, .network (.land 0 false), .network (.land 0 false)]

theorem homeLastPut_fair {index : TreeIndex} {a : FleetAction} (ha : a ∈ homeLastPut index) :
    a.Fair (homeTerms index) ∧ ∀ s, a.InOrder (homeTerms index) s := by
  simp only [homeLastPut, List.mem_cons, List.not_mem_nil, or_false] at ha
  have hpublish : FleetAction.begin (.publish index .none .all) ∈ homePublish index :=
    by simp [homePublish]
  have hread : FleetAction.run 0 (.read (.ok homeStart.store)) ∈ homePublish index :=
    by simp [homePublish]
  rcases ha with rfl | rfl | rfl | rfl | rfl | rfl | rfl
  · refine ⟨homePublish_fair hpublish, fun s i hi h hh => ?_⟩
    cases hi
    exact .inl hh
  · exact ⟨homePublish_fair hread, fun s => trivial⟩
  · exact ⟨trivial, fun s => trivial⟩
  · exact ⟨trivial, fun s => trivial⟩
  · exact ⟨trivial, fun s => trivial⟩
  · exact ⟨trivial, fun s => rfl⟩
  · exact ⟨trivial, fun s => rfl⟩

theorem emptyFleet_complete (x : Terms) : Storage.Complete x emptyFleet.shared := by
  refine ⟨fun k m hm => ?_, fun i m hm => ?_⟩
  · cases hm
  · cases hm

theorem index_comes_last_home : ∃ index store s, homeSent = .ok (index, store) ∧
    (homeLastPut index).foldlM (Fleet.step none chunksAt treesAt) emptyFleet = some s ∧
    s.tasks 0 = none ∧
    HomeArrives index s := by
  have hend : (homeSent.toOption.bind fun r =>
      ((homeLastPut r.1).foldlM (Fleet.step none chunksAt treesAt) emptyFleet).bind fun s =>
      if (s.tasks 0).isNone && (s.shared.held (treeKey treesAt.str r.1.id.str)).isSome then some ()
        else none).isSome =
        true := by decide +kernel
  obtain ⟨u, hend⟩ := Option.isSome_iff_exists.mp hend
  obtain ⟨⟨index, store⟩, hsent, hend⟩ := Option.bind_eq_some_iff.mp hend
  obtain ⟨s, hfleet, hend⟩ := Option.bind_eq_some_iff.mp hend
  have hbuild := Except.eq_ok_of_toOption hsent
  split at hend
  · rename_i hfacts
    simp only [Bool.and_eq_true, Option.isNone_iff_eq_none] at hfacts
    obtain ⟨hdead, hindex⟩ := hfacts
    obtain ⟨hid, hlen, hafford⟩ := homeSent_facts hbuild
    have hreach : Fleet.InOrder (homeTerms index) s := by
      refine Runs.Reachable.drive (fun u a v ha hstep => ?_)
        (.start ⟨emptyFleet_start (homeTerms index), emptyFleet_complete (homeTerms index)⟩) hfleet
      exact ⟨⟨(homeLastPut_fair ha).1, hstep⟩, (homeLastPut_fair ha).2 u⟩
    refine ⟨index, store, s, hbuild, hfleet, hdead, Retrievable.home hid hreach.reached hindex ?_⟩
    obtain ⟨-, -, hretrievable⟩ :=
      index_comes_last (x := homeTerms index) hbuild homeSource_cuts hafford hlen
      (homeTerms_apart index) (fun _ _ hb hp _ => homeClean hb hp)
        (fun piece hp => homeSource_piece hp) hreach hindex
    exact hretrievable
  · cases hend

end Home

end Zblob

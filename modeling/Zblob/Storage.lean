import Zblob.Delivered
import Zblob.Publish
import Zblob.Lib.Depot
import Zblob.Lib.Pool

/-!
Publishing into a storage on the router: any number of publishers, each putting the chunks of
its snapshot, then its index, and then reading back; the storage keeps the last it got under
each key, and may get what was put late, in another order, twice or not at all.
-/

set_option autoImplicit false

namespace Zblob

structure PublishJob where
  compression : ChunkCompression
  hashes : List Hash
  index : Option TreeIndex
  settle : Option SettleCoverage

def PublishJob.publish (index : TreeIndex) (compression : ChunkCompression)
    (coverage : SettleCoverage) : PublishJob :=
  ⟨compression, index.neededChunks, some index, some coverage⟩

def PublishJob.chunks (hashes : List Hash) (compression : ChunkCompression) : PublishJob :=
  ⟨compression, hashes, none, none⟩

def PublishJob.indexOnly (index : TreeIndex) : PublishJob := ⟨.none, [], some index, none⟩

/-- Where a publisher stands: before it reads a group out of its store, before a put, in the
read-back, or returned. -/
inductive PublishPc where
  | read (groups : List (List Hash))
  | put (batch : List (Hash × Option Bytes)) (groups : List (List Hash))
  | index (index : TreeIndex)
  | settle (keys : List String)
  | published
  | notSettled (key : String)
  | failed (e : BlobError)

structure Publishing where
  job : PublishJob
  count : Nat
  pc : PublishPc

/-- What a publisher may meet: what its store has at the moment, or that it fails; a put that
Zenoh refuses; a probe that is not issued or what anybody answers to it, and the deadline. -/
inductive PublishInput where
  | read (store : Result ChunkMap)
  | put (sent : Bool)
  | probe (replies : Option (List Reply)) (late : Bool)

abbrev Storage := Depot String Sample

def Storage.get (s : Storage) (key : String) : List Reply := (s.held key).toList.map .ok

def publishReadBatch : Nat := 32

section Publish

variable [Wire TreeIndex] (compress : Compress) (storePrefix treePrefix : ServePrefix)

def PublishJob.afterChunks (job : PublishJob) : PublishPc :=
  match job.index with
  | some index => .index index
  | none => .published

def PublishJob.next (job : PublishJob) : List (List Hash) → PublishPc
  | [] => job.afterChunks
  | groups => .read groups

def Publishing.start (job : PublishJob) : Publishing :=
  ⟨job, 0, job.next (sliceChunks publishReadBatch [] job.hashes)⟩

def afterPuts (job : PublishJob) (groups : List (List Hash)) :
    List (Hash × Option Bytes) → PublishPc
  | [] => job.next groups
  | batch => .put batch groups

def afterProbe : List String → PublishPc
  | [] => .published
  | keys => .settle keys

def indexSample (index : TreeIndex) : Sample :=
  ⟨treeKey treePrefix.str index.id.str, encIndex, encode index⟩

/-- One step of a publisher. Putting is over for it as soon as the message is under way. -/
def Publishing.step (s : Storage) (t : Publishing) : PublishInput → Option (Storage × Publishing)
  | .read store =>
    match t.pc with
    | .read (group :: groups) =>
      match store with
      | .error e => some (s, { t with pc := .failed e })
      | .ok m => some (s, { t with pc := afterPuts t.job groups (group.map fun h => (h, m h)) })
    | _ => none
  | .put sent =>
    match t.pc with
    | .put ((h, none) :: _) _ => some (s, { t with pc := .failed (.notFound h.toHex) })
    | .put ((h, some bytes) :: batch) groups =>
      match publishChunk compress storePrefix h bytes t.job.compression with
      | .error e => some (s, { t with pc := .failed e })
      | .ok sample =>
        if sent then
          some (s.send sample, { t with count := t.count + 1, pc := afterPuts t.job groups batch })
        else some (s, { t with pc := .failed .zenoh })
    | .index index =>
      if sent then
        match t.job.settle with
        | none => some (s.send (indexSample treePrefix index), { t with pc := .published })
        | some coverage => (settleKeys storePrefix treePrefix index coverage).map fun keys =>
            (s.send (indexSample treePrefix index), { t with pc := afterProbe keys })
      else some (s, { t with pc := .failed .zenoh })
    | _ => none
  | .probe replies late =>
    match t.pc with
    | .settle (key :: keys) =>
      match probeKey replies with
      | .error e => some (s, { t with pc := .failed e })
      | .ok true => some (s, { t with pc := afterProbe keys })
      | .ok false =>
        some (s, { t with pc := if late then .notSettled key else .settle (key :: keys) })
    | _ => none

abbrev Fleet := Pool Storage Publishing

inductive FleetAction where
  | begin (job : PublishJob)
  | run (tid : Nat) (input : PublishInput)
  | crash (tid : Nat)
  | network (m : Depot.Move)

def Fleet.step (s : Fleet) : FleetAction → Option Fleet
  | .begin job => some (s.spawn (.start job))
  | .run tid input =>
    match s.tasks tid with
    | none => none
    | some t => (t.step compress storePrefix treePrefix s.shared input).map fun r =>
      s.resume tid r.1 (some r.2)
  | .crash tid =>
    match s.tasks tid with
    | none => none
    | some _ => some (s.resume tid s.shared none)
  | .network m => (s.shared.move Sample.key m).map s.onShared

end Publish

theorem append_injective {pre a b : String} (h : pre ++ a = pre ++ b) : a = b := by
  have hlist := congrArg String.toList h
  rw [String.toList_append, String.toList_append] at hlist
  exact String.ext (List.append_cancel_left hlist)

theorem Hash.toHex_injective {h h' : Hash} (heq : h.toHex = h'.toHex) : h = h' := by
  have hparse := Hash.parse_toHex h
  rw [heq, Hash.parse_toHex] at hparse
  exact (Option.some.inj hparse).symm

theorem storeKey_injective {pre : String} {h h' : Hash}
    (heq : storeKey pre .blake3 h = storeKey pre .blake3 h') :
    h = h' := Hash.toHex_injective (append_injective heq)

theorem treeKey_injective {pre id id' : String} (heq : treeKey pre id = treeKey pre id') :
    id = id' :=
  append_injective heq

/-- What is agreed on around a storage: the hash, what is compressed and taken back, the two
prefixes, which bytes are mistaken for no others, and the index that goes by its id. -/
structure Terms where
  hash : Bytes → Hash
  compress : Compress
  zstd : Zstd
  storePrefix : ServePrefix
  treePrefix : ServePrefix
  clean : Bytes → Prop
  ours : TreeIndex

section Filed

variable (x : Terms)

/-- Publishers read stores that have under an address what hashes to it, put what clients can
unpack, and do not publish anything else than `ours` under its id. -/
def FleetAction.Fair : FleetAction → Prop
  | .begin job => job.compression.Supported x.compress x.zstd ∧
      ∀ index, job.index = some index → index.id.str = x.ours.id.str → index = x.ours
  | .run _ (.read (.ok m)) => ∀ h bytes, m h = some bytes → x.hash bytes = h ∧ x.clean bytes
  | _ => True

variable [Wire TreeIndex]

inductive Filed (sample : Sample) : Prop where
  | chunk (bytes : Bytes) (policy : ChunkCompression) (hclean : x.clean bytes)
      (hsup : policy.Supported x.compress x.zstd)
      (hmade : publishChunk x.compress x.storePrefix (x.hash bytes) bytes policy = .ok sample)
  | index (index : TreeIndex) (hown : index.id.str = x.ours.id.str → index = x.ours)
      (hmade : sample = indexSample x.treePrefix index)

def PublishPc.Ok (job : PublishJob) : PublishPc → Prop
  | .put batch _ => ∀ h bytes, (h, some bytes) ∈ batch → x.hash bytes = h ∧ x.clean bytes
  | .index i => job.index = some i
  | _ => True

structure Publishing.Ok (t : Publishing) : Prop where
  policy : t.job.compression.Supported x.compress x.zstd
  own : ∀ index, t.job.index = some index → index.id.str = x.ours.id.str → index = x.ours
  pc : t.pc.Ok x t.job

def Heard (s : Storage) (job : PublishJob) (keys : List String) : Prop :=
  ∀ index coverage, job.index = some index → job.settle = some coverage →
    ∃ all, settleKeys x.storePrefix x.treePrefix index coverage = some all ∧
      ∀ key ∈ all, key ∈ keys ∨ (s.held key).isSome

def PublishPc.Heard (s : Storage) (job : PublishJob) : PublishPc → Prop
  | .settle keys => Zblob.Heard x s job keys
  | .published => Zblob.Heard x s job []
  | _ => True

end Filed

def PublishPc.GivenUp : PublishPc → Prop
  | .notSettled _ => True
  | .failed _ => True
  | _ => False

inductive Publishing.Moved [Wire TreeIndex] (x : Terms) (s : Storage) (t : Publishing) :
    PublishInput → Storage → Publishing → Prop where
  | stop {input : PublishInput} {pc : PublishPc} (hstop : pc.GivenUp) :
      Moved x s t input s ⟨t.job, t.count, pc⟩
  | read {group : List Hash} {groups : List (List Hash)} {m : ChunkMap}
      (hread : t.pc = .read (group :: groups)) :
      Moved x s t (.read (.ok m)) s
        ⟨t.job, t.count, afterPuts t.job groups (group.map fun h => (h, m h))⟩
  | chunk {h : Hash} {bytes : Bytes} {batch : List (Hash × Option Bytes)}
      {groups : List (List Hash)} {sample : Sample}
      (hput : t.pc = .put ((h, some bytes) :: batch) groups)
      (hmade : publishChunk x.compress x.storePrefix h bytes t.job.compression = .ok sample) :
      Moved x s t (.put true) (s.send sample) ⟨t.job, t.count + 1, afterPuts t.job groups batch⟩
  | index {index : TreeIndex} (hput : t.pc = .index index) (hsettle : t.job.settle = none) :
      Moved x s t (.put true) (s.send (indexSample x.treePrefix index))
        ⟨t.job, t.count, .published⟩
  | settle {index : TreeIndex} {coverage : SettleCoverage} {keys : List String}
      (hput : t.pc = .index index) (hsettle : t.job.settle = some coverage)
      (hkeys : settleKeys x.storePrefix x.treePrefix index coverage = some keys) :
      Moved x s t (.put true) (s.send (indexSample x.treePrefix index))
        ⟨t.job, t.count, afterProbe keys⟩
  | answered {key : String} {keys : List String} {replies : List Reply} {late : Bool}
      (hpc : t.pc = .settle (key :: keys)) (hanswer : replies.any Except.isOk = true) :
      Moved x s t (.probe (some replies) late) s ⟨t.job, t.count, afterProbe keys⟩
  | again {key : String} {keys : List String} {replies : List Reply}
      (hpc : t.pc = .settle (key :: keys)) (hanswer : replies.any Except.isOk = false) :
      Moved x s t (.probe (some replies) false) s t

section Steps

variable [Wire TreeIndex] {x : Terms} {s s' : Storage} {t t' : Publishing} {job : PublishJob}

theorem Publishing.step_moved {input : PublishInput}
    (hstep : t.step x.compress x.storePrefix x.treePrefix s input = some (s', t')) :
    t.Moved x s input s' t' := by
  cases input with
  | read store =>
    simp only [Publishing.step] at hstep
    split at hstep
    · rename_i group groups hread
      cases store with
      | error e =>
        cases hstep
        exact .stop trivial
      | ok m =>
        cases hstep
        exact .read hread
    · cases hstep
  | put sent =>
    simp only [Publishing.step] at hstep
    split at hstep
    · cases hstep
      exact .stop trivial
    · rename_i h bytes batch groups hput
      split at hstep
      · cases hstep
        exact .stop trivial
      · rename_i sample hmade
        cases sent with
        | false =>
          cases hstep
          exact .stop trivial
        | true =>
          cases hstep
          exact .chunk hput hmade
    · rename_i index hput
      cases sent with
      | false =>
        cases hstep
        exact .stop trivial
      | true =>
        simp only [if_true] at hstep
        split at hstep
        · rename_i hsettle
          cases hstep
          exact .index hput hsettle
        · rename_i coverage hsettle
          obtain ⟨keys, hkeys, hout⟩ := Option.map_eq_some_iff.mp hstep
          cases hout
          exact .settle hput hsettle hkeys
    · cases hstep
  | probe replies late =>
    simp only [Publishing.step] at hstep
    split at hstep
    · rename_i key keys hpc
      cases replies with
      | none =>
        cases hstep
        exact .stop trivial
      | some replies =>
        simp only [probeKey] at hstep
        cases hanswer : replies.any Except.isOk with
        | true =>
          rw [hanswer] at hstep
          cases hstep
          exact .answered hpc hanswer
        | false =>
          rw [hanswer] at hstep
          cases late with
          | true =>
            cases hstep
            exact .stop trivial
          | false =>
            cases hstep
            have hsame : Publishing.mk t.job t.count (.settle (key :: keys)) = t := by rw [← hpc]
            simp only [Bool.false_eq_true, if_false, hsame]
            exact .again hpc hanswer
    · cases hstep

omit [Wire TreeIndex] in
theorem next_ok (job : PublishJob) (groups : List (List Hash)) : (job.next groups).Ok x job := by
  cases groups with
  | cons group groups => trivial
  | nil =>
    unfold PublishJob.next PublishJob.afterChunks
    cases hindex : job.index with
    | none => trivial
    | some index => exact hindex

omit [Wire TreeIndex] in
theorem afterPuts_ok (job : PublishJob) (groups : List (List Hash))
    {batch : List (Hash × Option Bytes)}
    (h : ∀ h bytes, (h, some bytes) ∈ batch → x.hash bytes = h ∧ x.clean bytes) :
    (afterPuts job groups batch).Ok x job := by
  cases batch with
  | nil => exact next_ok job groups
  | cons p batch => exact h

omit [Wire TreeIndex] in
theorem afterProbe_ok (keys : List String) : (afterProbe keys).Ok x job := by
  cases keys with
  | nil => trivial
  | cons key keys => trivial

omit [Wire TreeIndex] in
theorem PublishPc.GivenUp.ok {pc : PublishPc} (h : pc.GivenUp) : pc.Ok x job := by
  cases pc with
  | notSettled key => trivial
  | failed e => trivial
  | _ => cases h

/-- A publisher puts what is right. -/
theorem Publishing.Ok.step (h : t.Ok x) (hs : s.Holds Sample.key (Filed x)) {tid : Nat}
    {input : PublishInput} (hfair : (FleetAction.run tid input).Fair x)
    (hstep : t.step x.compress x.storePrefix x.treePrefix s input = some (s', t')) :
    s'.Holds Sample.key (Filed x) ∧ s.Within s' ∧ t'.Ok x := by
  have hpc := h.pc
  have hwithin := Depot.within_send s
  cases Publishing.step_moved hstep with
  | stop hstop => exact ⟨hs, Depot.Within.refl s, h.policy, h.own, hstop.ok⟩
  | @read group groups m hread =>
    refine ⟨hs, Depot.Within.refl s, h.policy, h.own, ?_⟩
    refine afterPuts_ok t.job groups fun y bytes hmem => ?_
    obtain ⟨z, -, hz⟩ := List.mem_map.mp hmem
    obtain ⟨rfl, hm⟩ := Prod.mk.inj hz
    exact hfair z bytes hm
  | @chunk y bytes batch groups sample hput hmade =>
    rw [hput] at hpc
    obtain ⟨rfl, hclean⟩ := hpc y bytes (by simp)
    refine ⟨hs.send (.chunk bytes _ hclean h.policy hmade), hwithin sample, h.policy, h.own, ?_⟩
    exact afterPuts_ok t.job groups fun z b hmem => hpc z b (List.mem_cons_of_mem _ hmem)
  | @index index hput hsettle =>
    rw [hput] at hpc
    have hfiled : Filed x (indexSample x.treePrefix index) := .index index (h.own index hpc) rfl
    exact ⟨hs.send hfiled, hwithin _, h.policy, h.own, trivial⟩
  | @settle index coverage keys hput hsettle hkeys =>
    rw [hput] at hpc
    have hfiled : Filed x (indexSample x.treePrefix index) := .index index (h.own index hpc) rfl
    exact ⟨hs.send hfiled, hwithin _, h.policy, h.own, afterProbe_ok keys⟩
  | answered hpc' hanswer => exact ⟨hs, Depot.Within.refl s, h.policy, h.own, afterProbe_ok _⟩
  | again hpc' hanswer => exact ⟨hs, Depot.Within.refl s, h⟩

omit [Wire TreeIndex] in
theorem PublishPc.Heard.mono {pc : PublishPc} (h : pc.Heard x s job) (hwithin : s.Within s') :
    pc.Heard x s' job := by
  have keys : ∀ keys, Zblob.Heard x s job keys → Zblob.Heard x s' job keys := by
    intro keys h index coverage hindex hsettle
    obtain ⟨all, hall, hkeys⟩ := h index coverage hindex hsettle
    exact ⟨all, hall, fun key hkey => (hkeys key hkey).imp_right (hwithin key)⟩
  cases pc with
  | settle left => exact keys left h
  | published => exact keys [] h
  | _ => trivial

omit [Wire TreeIndex] in
theorem PublishPc.GivenUp.heard {pc : PublishPc} (h : pc.GivenUp) : pc.Heard x s job := by
  cases pc with
  | notSettled key => trivial
  | failed e => trivial
  | _ => cases h

omit [Wire TreeIndex] in
theorem next_heard (job : PublishJob) (groups : List (List Hash)) :
    (job.next groups).Heard x s job := by
  cases groups with
  | cons group groups => trivial
  | nil =>
    unfold PublishJob.next PublishJob.afterChunks
    cases hindex : job.index with
    | some index => trivial
    | none =>
      intro index coverage hsome
      rw [hindex] at hsome
      cases hsome

omit [Wire TreeIndex] in
theorem afterPuts_heard (job : PublishJob) (groups : List (List Hash))
    (batch : List (Hash × Option Bytes)) : (afterPuts job groups batch).Heard x s job := by
  cases batch with
  | nil => exact next_heard job groups
  | cons p batch => trivial

omit [Wire TreeIndex] in
theorem afterProbe_heard {keys : List String} (h : Zblob.Heard x s job keys) :
    (afterProbe keys).Heard x s job := by
  cases keys with
  | nil => exact h
  | cons key keys => exact h

/-- Nobody but the storage answers this probe: if anybody does, the storage has something. -/
def PublishInput.candid (s : Storage) (t : Publishing) : PublishInput → Bool
  | .probe (some replies) _ =>
    match t.pc with
    | .settle (key :: _) => !replies.any Except.isOk || (s.held key).isSome
    | _ => true
  | _ => true

theorem PublishPc.Heard.step {input : PublishInput} (hok : t.Ok x) (h : t.pc.Heard x s t.job)
    (hcandid : input.candid s t = true)
    (hstep : t.step x.compress x.storePrefix x.treePrefix s input = some (s', t')) :
    t'.pc.Heard x s' t'.job := by
  cases Publishing.step_moved hstep with
  | stop hstop => exact hstop.heard
  | read hread => exact afterPuts_heard _ _ _
  | chunk hput hmade => exact afterPuts_heard _ _ _
  | index hput hsettle =>
    intro index coverage _ hsome
    rw [hsettle] at hsome
    cases hsome
  | @settle index coverage keys hput hsettle hkeys =>
    have hindex := hok.pc
    rw [hput] at hindex
    refine afterProbe_heard fun index' coverage' hindex' hsettle' => ?_
    cases hindex.symm.trans hindex'
    cases hsettle.symm.trans hsettle'
    exact ⟨keys, hkeys, fun key hkey => .inl hkey⟩
  | @answered key keys replies late hpc hanswer =>
    rw [hpc] at h
    refine afterProbe_heard fun index coverage hindex hsettle => ?_
    obtain ⟨all, hall, hkeys⟩ := h index coverage hindex hsettle
    refine ⟨all, hall, fun k hk => ?_⟩
    rcases hkeys k hk with hk | hk
    · rcases List.mem_cons.mp hk with rfl | hk
      · simp only [PublishInput.candid, hpc, hanswer, Bool.not_true, Bool.false_or] at hcandid
        exact .inr hcandid
      · exact .inl hk
    · exact .inr hk
  | again hpc hanswer => exact h

end Steps

section Runs

variable [Wire TreeIndex] (x : Terms)

def Fleet.FairStep (s : Fleet) (a : FleetAction) (s' : Fleet) : Prop :=
  a.Fair x ∧ s.step x.compress x.storePrefix x.treePrefix a = some s'

def Fleet.Start (s : Fleet) : Prop :=
  s = ⟨s.shared, fun _ => none, 0⟩ ∧ s.shared.Holds Sample.key (Filed x)

def Fleet.Reached : Fleet → Prop := Runs.Reachable (Fleet.Start x) (Fleet.FairStep x)

def publishInvariant : Pool.Invariant Storage Publishing Unit where
  shared s := s.Holds Sample.key (Filed x)
  task _ t := t.Ok x

variable {x}

theorem publishInvariant_step {s s' : Fleet} {a : FleetAction} (h : (publishInvariant x).Holds s)
    (hstep : s.FairStep x a s') : (publishInvariant x).Holds s' ∧ s.shared.Within s'.shared := by
  obtain ⟨hfair, hstep⟩ := hstep
  cases a with
  | begin job =>
    cases hstep
    refine ⟨h.spawn ⟨hfair.1, hfair.2, next_ok job _⟩ fun u => ⟨trivial, trivial⟩,
      Depot.Within.refl _⟩
  | run tid input =>
    simp only [Fleet.step] at hstep
    split at hstep
    · cases hstep
    · rename_i t ht
      obtain ⟨r, hr, rfl⟩ := Option.map_eq_some_iff.mp hstep
      obtain ⟨hshared, hwithin, hok⟩ := (h.task tid t ht).step h.shared hfair hr
      refine ⟨h.resume ht hshared (fun v hv => ?_) (fun j u hj hu => h.task j u hu)
        (fun _ _ _ _ _ _ => ⟨trivial, trivial⟩) (fun _ _ _ _ => trivial), hwithin⟩
      cases hv
      exact hok
  | crash tid =>
    simp only [Fleet.step] at hstep
    split at hstep
    · cases hstep
    · rename_i t ht
      cases hstep
      refine ⟨h.resume ht h.shared (fun v hv => by cases hv) (fun j u hj hu => h.task j u hu)
        (fun _ _ _ _ _ _ => ⟨trivial, trivial⟩) (fun _ _ _ _ => trivial), Depot.Within.refl _⟩
  | network m =>
    obtain ⟨d, hd, rfl⟩ := Option.map_eq_some_iff.mp hstep
    have hwithin := Depot.within_move hd
    exact ⟨h.onShared (h.shared.move hd) (fun i t ht => h.task i t ht) fun _ _ => trivial, hwithin⟩

theorem Fleet.Reached.invariant {s : Fleet} (h : Fleet.Reached x s) :
    (publishInvariant x).Holds s := by
  induction h with
  | start hs =>
    obtain ⟨hempty, hshared⟩ := hs
    rw [hempty]
    exact Pool.Invariant.Holds.empty hshared fun _ => trivial
  | next _ hstep ih => exact (publishInvariant_step ih hstep).1

theorem Fleet.within_path {s s' : Fleet} {taken : List (Fleet × FleetAction)}
    (h : Fleet.Reached x s)
    (hpath : Runs.Path (Fleet.FairStep x) s taken s') :
    Fleet.Reached x s' ∧ s.shared.Within s'.shared := by
  induction hpath with
  | nil => exact ⟨h, Depot.Within.refl _⟩
  | cons hstep _ ih =>
    obtain ⟨hreached, hwithin⟩ := ih (.next h hstep)
    exact ⟨hreached, (publishInvariant_step h.invariant hstep).2.trans hwithin⟩

def FleetAction.candid (tid : Nat) (s : Fleet) : FleetAction → Bool
  | .run i input => i ≠ tid || (s.tasks i).all (input.candid s.shared)
  | _ => true

/-- Runs in which nobody but the storage answers the probes of publisher `tid`. -/
def Fleet.ReadBack (x : Terms) (tid : Nat) : Fleet → Prop :=
  Runs.Reachable (Fleet.Start x) fun s a s' => s.FairStep x a s' ∧ a.candid tid s = true

theorem Fleet.ReadBack.reached {tid : Nat} {s : Fleet} (h : s.ReadBack x tid) : s.Reached x :=
  Runs.Reachable.mono (fun _ hs => hs) (fun _ _ _ hstep => hstep.1) h

theorem Fleet.ReadBack.heard {tid : Nat} {s : Fleet} (h : s.ReadBack x tid) :
    ∀ t, s.tasks tid = some t → t.pc.Heard x s.shared t.job := by
  induction h with
  | start hs =>
    intro t ht
    rw [hs.1] at ht
    cases ht
  | @next s s' a hreach hstep ih =>
    obtain ⟨hfair, hcandid⟩ := hstep
    have hinv := (Fleet.ReadBack.reached hreach).invariant
    have hwithin := (publishInvariant_step hinv hfair).2
    obtain ⟨-, hstep⟩ := hfair
    have stays : ∀ t, s.tasks tid = some t → t.pc.Heard x s'.shared t.job :=
      fun t ht => (ih t ht).mono hwithin
    intro t ht
    cases a with
    | begin job =>
      cases hstep
      by_cases hid : tid = s.nextTask
      · simp only [Pool.spawn, hid, Function.update_self, Option.some.injEq] at ht
        subst ht
        exact next_heard job _
      · simp only [Pool.spawn, Function.update_of_ne hid] at ht
        exact stays t ht
    | run i input =>
      simp only [Fleet.step] at hstep
      split at hstep
      · cases hstep
      · rename_i u hu
        obtain ⟨r, hr, rfl⟩ := Option.map_eq_some_iff.mp hstep
        by_cases hid : tid = i
        · subst hid
          simp only [Pool.resume, Function.update_self, Option.some.injEq] at ht
          subst ht
          simp only [FleetAction.candid, hu, Option.all_some, ne_eq,
            not_true_eq_false, decide_false,
            Bool.false_or] at hcandid
          exact (ih u hu).step (hinv.task tid u hu) hcandid hr
        · simp only [Pool.resume, Function.update_of_ne hid] at ht
          exact stays t ht
    | crash i =>
      simp only [Fleet.step] at hstep
      split at hstep
      · cases hstep
      · cases hstep
        by_cases hid : tid = i
        · simp [Pool.resume, hid] at ht
        · simp only [Pool.resume, Function.update_of_ne hid] at ht
          exact stays t ht
    | network m =>
      obtain ⟨d, hd, rfl⟩ := Option.map_eq_some_iff.mp hstep
      exact stays t ht

end Runs

section Consumer

variable [Wire TreeIndex] {x : Terms} {s : Fleet}

def Terms.Apart (x : Terms) : Prop :=
  ∀ h id, storeKey x.storePrefix.str .blake3 h ≠ treeKey x.treePrefix.str id

theorem Fleet.Reached.chunk (h : Fleet.Reached x s) (hapart : x.Apart) {piece : Bytes}
    (hmax : piece.length ≤ maxUnpacked)
    (hclean : ∀ bytes, x.clean bytes → x.hash bytes = x.hash piece → bytes = piece)
    (hheld : (s.shared.held (storeKey x.storePrefix.str .blake3 (x.hash piece))).isSome) :
    ∃ r ∈ s.shared.get (storeKey x.storePrefix.str .blake3 (x.hash piece)),
      judgeReply x.hash x.zstd (x.hash piece) (some (UInt32.ofNat piece.length)) maxUnpacked r =
      .accepted piece := by
  obtain ⟨sample, hsample⟩ := Option.isSome_iff_exists.mp hheld
  obtain ⟨hkey, hfiled⟩ := h.invariant.shared.held _ sample hsample
  refine ⟨.ok sample, by simp [Storage.get, hsample], ?_⟩
  cases hfiled with
  | index i hown hmade =>
    rw [hmade] at hkey
    exact absurd hkey.symm (hapart _ _)
  | chunk bytes policy hgood hsup hmade =>
    obtain ⟨packed, hpack, hlen, hun⟩ := pack_supported hsup bytes
    rw [publishChunk, hpack] at hmade
    cases hmade
    obtain rfl := hclean bytes hgood (storeKey_injective hkey)
    have hunpack := hun hmax
    have hsize : (UInt32.ofNat bytes.length).toNat = bytes.length := by
      rw [UInt32.toNat_ofNat']
      exact tryUnpack_mod hunpack
    refine judgeReply_accepted.mpr ⟨_, rfl, rfl, ?_, hunpack, fun n hn => ?_, rfl⟩
    · simp only [Option.map_some, Option.getD_some, hsize]
      omega
    · cases hn
      exact hsize.symm

theorem Fleet.Reached.index (h : Fleet.Reached x s) (hapart : x.Apart)
    (hheld : (s.shared.held (treeKey x.treePrefix.str x.ours.id.str)).isSome) :
    s.shared.get (treeKey x.treePrefix.str x.ours.id.str) =
      [.ok (indexSample x.treePrefix x.ours)] := by
  obtain ⟨sample, hsample⟩ := Option.isSome_iff_exists.mp hheld
  obtain ⟨hkey, hfiled⟩ := h.invariant.shared.held _ sample hsample
  cases hfiled with
  | chunk bytes policy hclean hsup hmade =>
    obtain ⟨packed, hpack, -⟩ := pack_supported hsup bytes
    rw [publishChunk, hpack] at hmade
    cases hmade
    exact absurd hkey (hapart _ _)
  | index i hown hmade =>
    rw [hmade] at hkey
    have hours := hown (treeKey_injective hkey)
    subst hours
    simp [Storage.get, hsample, hmade]

/-- What a publisher has read back in full is held. -/
theorem Fleet.ReadBack.read_back {tid : Nat} (h : s.ReadBack x tid) {t : Publishing}
    (ht : s.tasks tid = some t) (hdone : t.pc = .published) {index : TreeIndex}
    (hindex : t.job.index = some index)
    (hall : t.job.settle = some .all) :
    (s.shared.held (treeKey x.treePrefix.str index.id.str)).isSome ∧
      ∀ h ∈ index.neededChunks, (s.shared.held (storeKey x.storePrefix.str .blake3 h)).isSome := by
  have hpc := h.heard t ht
  rw [hdone] at hpc
  obtain ⟨keys, hkeys, hheld⟩ := hpc index .all hindex hall
  have there : ∀ key ∈ keys, (s.shared.held key).isSome := by
    intro key hkey
    rcases hheld key hkey with hnil | hheld
    · cases hnil
    · exact hheld
  obtain ⟨keys', hkeys', htree, hpicks⟩ := settleKeys_ok x.storePrefix x.treePrefix index .all
  cases hkeys.symm.trans hkeys'
  refine ⟨there _ htree, fun h hh => ?_⟩
  obtain ⟨i, hi, hget⟩ := List.getElem_of_mem hh
  obtain ⟨picked, hpicked⟩ : ∃ picked, sampleIndices index.neededChunks.length .all = some picked ∧
      i ∈ picked := by
    refine ⟨List.range index.neededChunks.length, ?_, List.mem_range.mpr hi⟩
    unfold sampleIndices
    exact if_neg (by omega)
  obtain ⟨h', hget', hkey⟩ := hpicks picked hpicked.1 i hpicked.2
  rw [List.getElem?_eq_getElem hi, hget, Option.some.injEq] at hget'
  exact there _ (hget' ▸ hkey)

/-- Among the replies to the query for a chunk is the storage's at some later time. -/
def StoredReply (x : Terms) (s : Fleet) (c : ChunkRef) (replies : List Reply) : Prop :=
  ∃ taken s', Runs.Path (Fleet.FairStep x) s taken s' ∧
    ∀ r ∈ s'.shared.get (storeKey x.storePrefix.str .blake3 c.hash), r ∈ replies

end Consumer

/-- The directory can be had from the storage alone, from here on: whatever the storage then gets
or loses of what anybody publishes, and among whatever strangers, a download that pins the root
can be brought to its end at every moment, and ends with a mirror of the directory. -/
def Retrievable [Wire TreeIndex] [Wire IndexDescriptor] (x : Terms) (cfg : SyncConfig)
    (cut : CdcParams → Bytes → List Bytes) (cdc : CdcParams) (tree : SourceTree)
    (s : Fleet) : Prop :=
  ∀ (moves : List (Fleet × FleetAction)) (s' : Fleet) (replies : List (Reply × ShardReplies)),
    Runs.Path (Fleet.FairStep x) s moves s' →
    (∀ r ∈ s'.shared.get (treeKey x.treePrefix.str x.ours.id.str),
      ∃ shards, (r, shards) ∈ replies) →
    Unforged x.hash x.zstd cfg.toTreeConfig x.ours.id.str x.ours.entries replies →
    ∀ (store : ChunkMap) (taken : List (Fetching × FetchInput)) (f : Fetching),
    store.Addressed x.hash →
      Runs.Path
      (WillingStep x.hash x.zstd (StoredReply x s) cfg.toFetchConfig x.ours.neededChunks.length)
        (x.ours.fetching cfg.toFetchConfig store) taken f →
      ∀ (io : Nat → KernelReply) (fs : Fs) (dest root : Path), (∀ n, (io n).ok = true) →
        fs.canonicalize dest = some root → fs.obj root = some .dir →
        (∀ q, q ≠ [] → fs.obj (root ++ q) = none) →
        (∃ rest g stats, Runs.Path (WillingStep x.hash x.zstd (StoredReply x s) cfg.toFetchConfig
            x.ours.neededChunks.length) f rest g ∧ g.phase = .done (.ok stats)) ∧
          ∀ r, f.phase = .done r → Unmistaken
            (TreeHash.postcard x.hash) cut cdc tree f.store.asStore →
            ∃ prog stats n w, r = .ok stats ∧
              runDownloadTree (TreeHash.postcard x.hash) x.zstd cfg ChunkMap.asStore
                ⟨x.ours.id.str, some x.ours.rootHash⟩ dest store
                ⟨some replies, .ok (store.hasMany (x.ours.neededChunkRefs.map ChunkRef.hash)),
                  taken.map Prod.snd⟩ =
                  some prog ∧
              prog io 0 ⟨fs, []⟩ = (.ok stats, n, w) ∧ Mirrors tree root w.fs

/-- Once the index and its chunks are held, the snapshot is there to stay. -/
theorem Fleet.Reached.retrievable [Wire TreeIndex] [Wire IndexDescriptor]
    {x : Terms} {cfg : SyncConfig}
    {cut : CdcParams → Bytes → List Bytes} {cdc : CdcParams} {tree : SourceTree}
    {id : String} {built built' : ChunkMap}
    {s : Fleet} (hreach : Fleet.Reached x s)
    (hbuild : buildTree (TreeHash.postcard x.hash) cut tree id cdc built = .ok (x.ours, built'))
    (hcut : CutsWell cut cdc tree) (hafford : affordable cfg x.ours = .ok ())
    (hmax : (encode x.ours).length ≤ cfg.maxIndexBytes) (hapart : x.Apart)
    (hclean : ∀ bytes piece, x.clean bytes → IsPiece cut cdc tree piece →
      x.hash bytes = x.hash piece → bytes = piece)
    (hpieces : ∀ piece, IsPiece cut cdc tree piece → x.clean piece)
    (hindex : (s.shared.held (treeKey x.treePrefix.str x.ours.id.str)).isSome)
    (hchunks : ∀ h ∈ x.ours.neededChunks,
      (s.shared.held (storeKey x.storePrefix.str .blake3 h)).isSome) :
    Retrievable x cfg cut cdc tree s := by
  intro moves s' replies hlater hquery hforge store taken f hstore
    hrun io fs dest root hio hroot hdir hempty
  have hvalid := buildTree_valid hbuild
  have supplied : ∀ piece, IsPiece cut cdc tree piece → piece.length ≤ maxUnpacked →
      x.hash piece ∈ x.ours.neededChunks → ∀ replies,
      StoredReply x s (pieceRef x.hash piece) replies →
        Supplied x.hash x.zstd (pieceRef x.hash piece) replies := by
    rintro piece hp hlen hneeded replies ⟨moves, later, hpath, hin⟩
    obtain ⟨hreached, hwithin⟩ := Fleet.within_path hreach hpath
    obtain ⟨r, hr, hacc⟩ := hreached.chunk hapart hlen (fun bytes hb => hclean bytes piece hb hp)
      (hwithin _ (hchunks _ hneeded))
    exact ⟨r, hin r hr, piece, hacc⟩
  refine good_network_delivers hbuild hcut hafford supplied (fun piece _ _ _ => ?_)
    (fun a b ha hb => hclean a b (hpieces a ha) hb) ?_ hforge hstore hrun hio hroot hdir hempty
  · exact ⟨s.shared.get (storeKey x.storePrefix.str .blake3 (x.hash piece)),
      [], s, .nil, fun r hr => hr⟩
  · obtain ⟨hreached, hwithin⟩ := Fleet.within_path hreach hlater
    have hget := hreached.index hapart (hwithin _ hindex)
    obtain ⟨shards, hmem⟩ := hquery _ (hget ▸ List.mem_singleton_self _)
    refine ⟨_, hmem, _, encode x.ours, rfl, ?_, hmax, decode_encode _,
      hvalid, rfl, fun root hr => by
      cases hr
      rfl⟩
    rw [indexSample, indexPayload, if_neg (show ¬encIndex = encIndexDesc by decide), if_pos rfl]

/-- Once `publish` has returned after reading everything back, with nobody but the storage
answering its probes, its directory can be had from the storage alone for ever after, whoever
crashes. -/
theorem serverless_delivers [Wire TreeIndex] [Wire IndexDescriptor] {x : Terms} {cfg : SyncConfig}
    {cut : CdcParams → Bytes → List Bytes} {cdc : CdcParams} {tree : SourceTree} {id : String}
    {built built' : ChunkMap}
    (hbuild : buildTree (TreeHash.postcard x.hash) cut tree id cdc built = .ok (x.ours, built'))
    (hcut : CutsWell cut cdc tree) (hafford : affordable cfg x.ours = .ok ())
    (hmax : (encode x.ours).length ≤ cfg.maxIndexBytes) (hapart : x.Apart)
    (hclean : ∀ bytes piece, x.clean bytes → IsPiece cut cdc tree piece →
      x.hash bytes = x.hash piece → bytes = piece)
    (hpieces : ∀ piece, IsPiece cut cdc tree piece → x.clean piece) {tid : Nat} {s : Fleet}
    (hreach : s.ReadBack x tid) {t : Publishing} (ht : s.tasks tid = some t)
    (hpublished : t.pc = .published) (hours : t.job.index = some x.ours)
    (hall : t.job.settle = some .all) : Retrievable x cfg cut cdc tree s := by
  obtain ⟨hindex, hchunks⟩ := hreach.read_back ht hpublished hours hall
  exact hreach.reached.retrievable hbuild hcut hafford hmax hapart hclean hpieces hindex hchunks

section Home

attribute [local instance] Format.indexWire Format.descriptorWire

def homeTerms (index : TreeIndex) : Terms where
  hash := homeTree.hash
  compress := none
  zstd := none
  storePrefix := chunksAt
  treePrefix := treesAt
  clean bytes := bytes = [97, 98, 99]
  ours := index

def homeChunk : Sample :=
  ⟨storeKey chunksAt.str .blake3 (shortHash [97, 98, 99]), encChunk, [0, 97, 98, 99]⟩

def homePublish (index : TreeIndex) : List FleetAction :=
  [.begin (.publish index .none .all), .run 0 (.read (.ok homeStart.store)), .run 0 (.put true),
    .run 0 (.put true), .network (.land 1 false),
    .run 0 (.probe (some [.ok (indexSample treesAt index)]) false), .run 0 (.probe (some []) false),
    .network (.land 0 true), .run 0 (.probe (some [.error [], .ok homeChunk]) false)]

def emptyFleet : Fleet := ⟨.empty, fun _ => none, 0⟩

def homeFleet (index : TreeIndex) : Option Fleet :=
  (homePublish index).foldlM (fun s a => if a.candid 0 s then s.step none chunksAt treesAt a
    else none) emptyFleet

def PublishPc.isPublished : PublishPc → Bool
  | .published => true
  | _ => false

theorem PublishPc.eq_published {pc : PublishPc} (h : pc.isPublished = true) : pc = .published := by
  cases pc with
  | published => rfl
  | _ => cases h

theorem homeTerms_apart (index : TreeIndex) : (homeTerms index).Apart := by
  intro h id heq
  have hlist := congrArg String.toList heq
  simp [storeKey, treeKey, homeTerms, chunksAt, treesAt] at hlist

theorem homePublish_fair {index : TreeIndex} {a : FleetAction} (ha : a ∈ homePublish index) :
    a.Fair (homeTerms index) := by
  simp only [homePublish, List.mem_cons, List.not_mem_nil, or_false] at ha
  rcases ha with rfl | rfl | rfl | rfl | rfl | rfl | rfl | rfl | rfl
  · exact ⟨trivial, fun i hi _ => (Option.some.inj hi).symm⟩
  · intro h bytes hb
    obtain ⟨rfl, rfl⟩ := homeStart_store hb
    have habc : homeTree.hash [97, 98, 99] = shortHash [97, 98, 99] := by decide +kernel
    exact ⟨habc, rfl⟩
  all_goals exact trivial

theorem emptyFleet_start (x : Terms) : Fleet.Start x emptyFleet := by
  refine ⟨rfl, ⟨fun m hm => ?_, fun k m hm => ?_⟩⟩
  · cases hm
  · cases hm

/-- A download from the storage, with a stranger before it who answers the index query. -/
def HomeArrives (index : TreeIndex) (s : Fleet) : Prop :=
  ∃ taken f prog stats n w,
    Runs.Path (WillingStep homeTree.hash none (StoredReply (homeTerms index) s)
      homeSync.toFetchConfig index.neededChunks.length)
        (index.fetching homeSync.toFetchConfig fun _ => none) taken f ∧
    runDownloadTree (TreeHash.postcard homeTree.hash) none homeSync ChunkMap.asStore
      ⟨index.id.str, some index.rootHash⟩
      ["dst"] (fun _ => none) ⟨(homeFetch index).index,
        .ok (ChunkMap.hasMany (fun _ => none) (index.neededChunkRefs.map ChunkRef.hash)),
        taken.map Prod.snd⟩ =
          some prog ∧
    prog (failing []) 0 ⟨emptyDst, []⟩ = (.ok stats, n, w) ∧ Mirrors homeSource ["dst"] w.fs

theorem Retrievable.home {index : TreeIndex} {s : Fleet} (hid : index.id.str = "t")
    (hreach : Fleet.Reached (homeTerms index) s)
    (hindex : (s.shared.held (treeKey treesAt.str index.id.str)).isSome)
    (h : Retrievable (homeTerms index) homeSync shortCut transferCdc homeSource s) :
    HomeArrives index s := by
  have hquery : ∀ r ∈ s.shared.get (treeKey treesAt.str index.id.str), ∃ shards, (r, shards) ∈
      [(Except.ok ⟨"t/t", encIndex, [255]⟩, noShards),
        (.ok ⟨"t/t", encIndex, encode index⟩, noShards)] := by
    intro r hr
    have hget : s.shared.get (treeKey treesAt.str index.id.str) =
        [.ok (indexSample treesAt index)] :=
      hreach.index (homeTerms_apart index) hindex
    rw [hget, List.mem_singleton] at hr
    subst hr
    refine ⟨noShards, ?_⟩
    rw [indexSample, hid]
    exact List.mem_cons_of_mem _ (List.mem_singleton_self _)
  have deliver :=
    fun taken f hrun => h [] s _ .nil hquery (homeFetch_unforged rfl) (fun _ => none) taken f
    (fun h bytes hb => by cases hb) hrun (failing []) emptyDst ["dst"] ["dst"]
      (by simp [failing]) (by decide +kernel)
    (by decide +kernel) emptyDst_empty
  obtain ⟨taken, f, stats, hpath, hdone⟩ := (deliver [] _ .nil).1
  obtain ⟨prog, stats', n, w, -, hprog, hrun, hmirrors⟩ := (deliver taken f hpath).2 _ hdone
    fun _ _ b piece _ hp hhash => by
      rw [homeSource_piece hp] at hhash ⊢
      exact homeTree_abc hhash
  exact ⟨taken, f, prog, stats', n, w, hpath, hprog, hrun, hmirrors⟩

theorem homeClean {index : TreeIndex} {bytes piece : Bytes} (hb : (homeTerms index).clean bytes)
    (hp : IsPiece shortCut transferCdc homeSource piece) : bytes = piece :=
      Eq.trans hb (homeSource_piece hp).symm

/-- The owner has read everything back, and has gone. -/
theorem serverless_delivers_home :
    ∃ index store s, homeSent = .ok (index, store) ∧ homeFleet index = some s ∧
    HomeArrives index s := by
  have hend : (homeSent.toOption.bind fun r =>
      (homeFleet r.1).bind fun s => (s.tasks 0).bind fun t =>
      if t.pc.isPublished && decide (t.job.index = some r.1) && decide (t.job.settle =
        some .all) then some ()
      else none).isSome = true := by decide +kernel
  obtain ⟨u, hend⟩ := Option.isSome_iff_exists.mp hend
  obtain ⟨⟨index, store⟩, hsent, hend⟩ := Option.bind_eq_some_iff.mp hend
  obtain ⟨s, hfleet, hend⟩ := Option.bind_eq_some_iff.mp hend
  obtain ⟨t, ht, hend⟩ := Option.bind_eq_some_iff.mp hend
  have hbuild := Except.eq_ok_of_toOption hsent
  split at hend
  · rename_i hfacts
    simp only [Bool.and_eq_true, decide_eq_true_eq] at hfacts
    obtain ⟨⟨hpublished, hours⟩, hall⟩ := hfacts
    have hpublished := PublishPc.eq_published hpublished
    obtain ⟨hid, hlen, hafford⟩ := homeSent_facts hbuild
    have hreach : Fleet.ReadBack (homeTerms index) 0 s := by
      refine Runs.Reachable.drive (fun u a v ha hstep => ?_) (.start (emptyFleet_start _)) hfleet
      split at hstep
      · rename_i hcandid
        exact ⟨⟨homePublish_fair ha, hstep⟩, hcandid⟩
      · cases hstep
    refine ⟨index, store, s, hbuild, hfleet, Retrievable.home hid hreach.reached ?_ ?_⟩
    · exact (hreach.read_back ht hpublished hours hall).1
    · exact serverless_delivers (x := homeTerms index) hbuild homeSource_cuts hafford hlen
        (homeTerms_apart index)
        (fun _ _ hb hp _ => homeClean hb hp) (fun piece hp => homeSource_piece hp)
          hreach ht hpublished hours hall
  · cases hend

/-- A stranger answers both probes: `publish` has returned, and the storage has nothing. -/
example : (homeSent.toOption.bind fun r =>
    ([.begin (.publish r.1 .none .all), .run 0 (.read (.ok homeStart.store)), .run 0 (.put true),
      .run 0 (.put true), .run 0 (.probe (some [.ok homeChunk]) false),
      .run 0 (.probe (some [.ok homeChunk]) false)].foldlM (Fleet.step none chunksAt treesAt)
        emptyFleet).bind fun s =>
    (s.tasks 0).map fun t => (t.pc.isPublished, (s.shared.held homeChunk.key).isNone)) =
      some (true, true) := by decide +kernel

end Home

end Zblob

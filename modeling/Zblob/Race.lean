import Zblob.FetchSafety
import Zblob.Gc

/-!
A sweep beside a running download: both work on one store and one registry of temp tags,
and every operation of one may fall between any two of the other.
-/

set_option autoImplicit false

namespace Zblob

open Runs (Reachable)

/-- Where a sweep stands: before it reads the tags, before it reads the temp tags, before
it lists the store, and in its loop. -/
inductive SweepPhase where
  | start
  | marking (tagged : List Hash)
  | marked (live : List Hash)
  | removing (live todo : List Hash) (stats : GcStats)
  | done (result : Result GcStats)

/-- Where a download stands once it has its index. `queue` are the puts of a flush that
have not been made yet. -/
inductive DownloadPhase where
  | start
  | probing (present : List Bool) (todo : List ChunkRef)
  | fetching (fetch : Fetching) (queue : List (Hash × Bytes))
  | reading (todo : List ChunkRef)
  | done

/-- The shared store and registry, the two programs, the temp tag while the download holds
it, and the chunks that the download has found or put. -/
structure Race where
  store : ChunkMap
  temps : TempTags
  sweep : SweepPhase
  download : DownloadPhase
  tag : Option Nat
  secured : List Hash

inductive RaceStep where
  /-- `tags.live_set()` -/
  | readTags
  /-- `temps.live_set()` -/
  | readTemps
  /-- `store.hashes()` -/
  | list (hashes : Result (List Hash))
  /-- one turn of the removal loop -/
  | remove (fails : Bool)
  | protect
  /-- one `has` of the presence pass -/
  | probe
  | fetch (input : FetchInput)
  /-- one `put` of a flush -/
  | put
  /-- one `get` of the materialization -/
  | read
  /-- the download returns, or is dropped -/
  | drop

def answered (present : List Bool) (needed : List ChunkRef) : ChunkMap := fun h =>
  if ((needed.map ChunkRef.hash).zip present).any fun a => a.1 = h ∧ a.2 then some [] else none

section Steps

variable [Wire TagRecord] (hash : Bytes → Hash) (zstd : Zstd) (cfg : FetchConfig) (reads : TagReads)
  (tags : TagDir) (roots : List TreeIndex) (index : TreeIndex)

def startFetch (present : List Bool) : Fetching :=
  fetchMissing cfg index.neededChunkRefs (answered present index.neededChunkRefs)
    index.neededChunks.length
    (.ok present)

def Race.sweepStep (s : Race) : RaceStep → Option Race
  | .readTags =>
    match s.sweep with
    | .start =>
      match tags.liveSet reads with
      | .error e => some { s with sweep := .done (.error e) }
      | .ok tagged => some { s with sweep := .marking tagged }
    | _ => none
  | .readTemps =>
    match s.sweep with
    | .marking tagged =>
      some { s with temps := s.temps.liveSet.1, sweep := .marked (markLive tagged s.temps roots) }
    | _ => none
  | .list hashes =>
    match s.sweep with
    | .marked live =>
      match hashes with
      | .error e => some { s with sweep := .done (.error e) }
      | .ok hashes => some { s with sweep := .removing live hashes ⟨0, 0⟩ }
    | _ => none
  | .remove fails =>
    match s.sweep with
    | .removing _ [] stats => some { s with sweep := .done (.ok stats) }
    | .removing live (h :: todo) stats =>
      if h ∈ live then
        some { s with sweep := .removing live todo { stats with kept := stats.kept + 1 } }
      else if fails then some { s with sweep := .done (.error .io) }
      else
        some { s with
          store := s.store.remove h
          sweep := .removing live todo
            (if s.store.has h then { stats with removed := stats.removed + 1 } else stats) }
    | _ => none
  | _ => none

def Race.downloadStep (s : Race) : RaceStep → Option Race
  | .protect =>
    match s.download with
    | .start =>
      let (temps, tag) := s.temps.protect index.neededChunks
      some { s with temps := temps, tag := some tag, download := .probing [] index.neededChunkRefs }
    | _ => none
  | .probe =>
    match s.download with
    | .probing present [] => some { s with download := .fetching (startFetch cfg index present) [] }
    | .probing present (c :: todo) =>
      let found := s.store.has c.hash
      some { s with
        download := .probing (present ++ [found]) todo
        secured := if found then c.hash :: s.secured else s.secured }
    | _ => none
  | .fetch input =>
    match s.download with
    | .fetching fetch [] =>
      match fetch.phase with
      | .done (.ok _) => some { s with download := .reading (index.entries.flatMap Entry.chunks) }
      | _ =>
        (fetch.step hash zstd cfg index.neededChunks.length input).map fun next =>
          { s with download := .fetching next (next.puts.drop fetch.puts.length) }
    | _ => none
  | .put =>
    match s.download with
    | .fetching fetch (p :: queue) =>
      some { s with
        store := s.store.put p
        download := .fetching fetch queue
        secured := p.1 :: s.secured }
    | _ => none
  | .read =>
    match s.download with
    | .reading (c :: todo) =>
      match s.store c.hash with
      | some _ => some { s with download := .reading todo }
      | none =>
        s.tag.map fun tag => { s with temps := s.temps.drop tag, tag := none, download := .done }
    | _ => none
  | .drop =>
    s.tag.map fun tag => { s with temps := s.temps.drop tag, tag := none, download := .done }
  | _ => none

def Race.step (s : Race) (a : RaceStep) : Option Race :=
  (s.sweepStep reads tags roots a).or (s.downloadStep hash zstd cfg index a)

/-- A tag that is taken while a sweep runs comes in time for it: the sweep has not read the
temp tags yet, or it is not going to remove anything the tag is for. -/
def SweepPhase.Spares (needed : List Hash) : SweepPhase → Prop
  | .marked live => ∀ h ∈ needed, h ∈ live
  | .removing live todo _ => ∀ h ∈ needed, h ∈ live ∨ h ∉ todo
  | _ => True

def RaceStep.InTime (s : Race) : RaceStep → Prop
  | .protect => s.sweep.Spares index.neededChunks
  | _ => True

def Race.Start (ops : List TagOp) (s : Race) : Prop :=
  s.temps = (Runs.run TagState.apply ops .new).temps ∧ s.sweep = .start ∧ s.download = .start ∧
    s.tag = none ∧ s.secured = []

/-- The states of a race in which every `protect` comes in time. -/
def Race.Timely (ops : List TagOp) : Race → Prop :=
  Reachable (Race.Start ops) fun s a t =>
    s.step hash zstd cfg reads (Runs.run TagState.apply ops .new).dir roots index a = some t ∧
      a.InTime index s

end Steps

structure TempTags.Holds (t : TempTags) (tag : Nat) (hashes : List Hash) : Prop where
  upgrade : t.upgrade tag = some hashes
  known : tag ∈ t.sets

def TempTags.Numbered (t : TempTags) : Prop := ∀ p ∈ t.held, p.1 < t.next

section Registry

variable {t : TempTags} {tag : Nat} {hashes : List Hash}

theorem TempTags.Holds.live (h : t.Holds tag hashes) {x : Hash} (hx : x ∈ hashes) :
    x ∈ t.liveSet.2 := by
  simp only [TempTags.liveSet, TempTags.retain, List.mem_flatMap, List.mem_filter]
  exact ⟨tag, ⟨h.known, by simp [h.upgrade]⟩, by simpa [h.upgrade] using hx⟩

theorem TempTags.Holds.retain (h : t.Holds tag hashes) : t.liveSet.1.Holds tag hashes :=
  ⟨h.upgrade, List.mem_filter.mpr ⟨h.known, by simp [h.upgrade]⟩⟩

theorem TempTags.protect_holds (h : t.Numbered) :
    (t.protect hashes).1.Holds (t.protect hashes).2 hashes := by
  refine ⟨?_, by simp [TempTags.protect]⟩
  have hnone : t.held.lookup t.next = none := by
    rw [List.lookup_eq_none_iff]
    intro p hp
    have hlt := h p hp
    simp only [bne_iff_ne, ne_eq]
    omega
  simp [TempTags.upgrade, TempTags.protect, List.lookup_append, hnone]

theorem TempTags.Numbered.protect (h : t.Numbered) : (t.protect hashes).1.Numbered := by
  intro p hp
  simp only [TempTags.protect] at hp ⊢
  rcases List.mem_append.mp hp with hp | hp
  · have := h p hp
    omega
  · cases List.mem_singleton.mp hp
    exact Nat.lt_succ_self _

theorem TempTags.Numbered.drop (h : t.Numbered) (other : Nat) : (t.drop other).Numbered :=
  fun p hp => h p (List.mem_of_mem_filter hp)

end Registry

theorem answered_hasMany {needed : List ChunkRef} {present : List Bool}
    (hnd : (needed.map ChunkRef.hash).Nodup) (hlen : present.length = needed.length) :
    (answered present needed).hasMany (needed.map ChunkRef.hash) = present := by
  unfold ChunkMap.hasMany
  generalize hhs : needed.map ChunkRef.hash = hs at hnd
  have hl : present.length = hs.length := by rw [← hhs, List.length_map, hlen]
  refine List.ext_getElem (by simp [hl]) fun i hi hp => ?_
  have hi' : i < hs.length := by simpa using hi
  rw [List.getElem_map, Bool.eq_iff_iff]
  simp only [ChunkMap.has, answered, hhs, List.any_eq_true, decide_eq_true_eq]
  constructor
  · intro hsome
    split at hsome
    · rename_i hany
      obtain ⟨⟨x, b⟩, hm, hx, hb⟩ := hany
      obtain ⟨j, hj, he⟩ := List.mem_iff_getElem.mp hm
      rw [List.getElem_zip, Prod.mk.injEq] at he
      rw [List.length_zip] at hj
      have hji : j = i := (hnd.getElem_inj_iff).mp (he.1.trans hx)
      subst hji
      rw [he.2]
      exact hb
    · cases hsome
  · intro htrue
    have hm : (hs[i], present[i]) ∈ hs.zip present := by
      rw [List.mem_iff_getElem]
      exact ⟨i, by simp [hi', hp], by simp⟩
    rw [if_pos ⟨_, hm, rfl, htrue⟩]
    rfl

theorem markLive_temps {tagged : List Hash} {temps : TempTags} {roots : List TreeIndex} {x : Hash}
    (h : x ∈ temps.liveSet.2) : x ∈ markLive tagged temps roots := by
  simp [markLive, h]

section Guard

variable (hash : Bytes → Hash) (zstd : Zstd) (cfg : FetchConfig) (index : TreeIndex)

def DownloadPhase.Sound : DownloadPhase → Prop
  | .probing present todo =>
    ∃ asked, index.neededChunkRefs = asked ++ todo ∧ present.length = asked.length
  | .fetching fetch queue =>
    (∃ before, FetchReaches hash zstd cfg index before fetch) ∧ ∀ p ∈ queue, p ∈ fetch.puts
  | _ => True

/-- While the tag is held, the registry has it, the sweep spares what it is for, and what the
download has secured is there. -/
structure Guarded (s : Race) : Prop where
  numbered : s.temps.Numbered
  fresh : s.download = .start → s.secured = []
  sound : s.download.Sound hash zstd cfg index
  holds : ∀ tag, s.tag = some tag → s.temps.Holds tag index.neededChunks
  spared : s.tag ≠ none → s.sweep.Spares index.neededChunks
  wanted : s.tag ≠ none → ∀ h ∈ s.secured, h ∈ index.neededChunks
  secured : s.tag ≠ none → ∀ h ∈ s.secured, s.store.has h = true

end Guard

section Steps

variable [Wire TagRecord] {hash : Bytes → Hash} {zstd : Zstd} {cfg : FetchConfig} {reads : TagReads}
  {tags : TagDir} {roots : List TreeIndex} {index : TreeIndex} {s t : Race} {a : RaceStep}

theorem Guarded.sweepStep (h : Guarded hash zstd cfg index s)
    (ht : s.sweepStep reads tags roots a = some t) : Guarded hash zstd cfg index t := by
  unfold Race.sweepStep at ht
  cases a with
  | readTags =>
    simp only at ht
    split at ht
    · split at ht
      · cases ht
        exact ⟨h.numbered, h.fresh, h.sound, h.holds, fun _ => trivial, h.wanted, h.secured⟩
      · cases ht
        exact ⟨h.numbered, h.fresh, h.sound, h.holds, fun _ => trivial, h.wanted, h.secured⟩
    · cases ht
  | readTemps =>
    simp only at ht
    split at ht
    · cases ht
      refine ⟨h.numbered, h.fresh, h.sound, fun tag htag => (h.holds tag htag).retain,
        ?_, h.wanted, h.secured⟩
      intro htag x hx
      obtain ⟨tag, htag⟩ := Option.ne_none_iff_exists'.mp htag
      exact markLive_temps ((h.holds tag htag).live hx)
    · cases ht
  | list hashes =>
    simp only at ht
    split at ht
    · rename_i live hsweep
      split at ht
      · cases ht
        exact ⟨h.numbered, h.fresh, h.sound, h.holds, fun _ => trivial, h.wanted, h.secured⟩
      · cases ht
        refine ⟨h.numbered, h.fresh, h.sound, h.holds, ?_, h.wanted, h.secured⟩
        intro htag x hx
        have hspared := h.spared htag
        rw [hsweep] at hspared
        exact .inl (hspared x hx)
    · cases ht
  | remove fails =>
    simp only at ht
    split at ht
    · cases ht
      exact ⟨h.numbered, h.fresh, h.sound, h.holds, fun _ => trivial, h.wanted, h.secured⟩
    · rename_i live first todo stats hsweep
      have hspared : s.tag ≠ none → ∀ x ∈ index.neededChunks, x ∈ live ∨ x ∉ first :: todo := by
        intro htag
        have hs := h.spared htag
        rw [hsweep] at hs
        exact hs
      have hrest : s.tag ≠ none → ∀ x ∈ index.neededChunks, x ∈ live ∨ x ∉ todo := by
        intro htag x hx
        exact (hspared htag x hx).imp_right fun hno hm => hno (List.mem_cons_of_mem _ hm)
      split at ht
      · cases ht
        exact ⟨h.numbered, h.fresh, h.sound, h.holds, hrest, h.wanted, h.secured⟩
      · rename_i hdead
        split at ht
        · cases ht
          exact ⟨h.numbered, h.fresh, h.sound, h.holds, fun _ => trivial, h.wanted, h.secured⟩
        · cases ht
          refine ⟨h.numbered, h.fresh, h.sound, h.holds, hrest, h.wanted, ?_⟩
          intro htag x hx
          have hne : x ≠ first := by
            rintro rfl
            rcases hspared htag x (h.wanted htag x hx) with hl | hno
            · exact hdead hl
            · exact hno (by simp)
          rw [ChunkMap.has_remove hne]
          exact h.secured htag x hx
    · cases ht
  | protect => cases ht
  | probe => cases ht
  | fetch input => cases ht
  | put => cases ht
  | read => cases ht
  | drop => cases ht

omit [Wire TagRecord] in
theorem FetchReaches.put_needed {before : ChunkMap} {fetch : Fetching}
    (h : FetchReaches hash zstd cfg index before fetch) {p : Hash × Bytes} (hp : p ∈ fetch.puts) :
    p.1 ∈ index.neededChunks := by
  obtain ⟨c, hc, hhash, -⟩ := h.sound.safe.puts p hp
  rw [← hhash, ← index.neededChunkRefs_hashes]
  exact List.mem_map_of_mem (List.mem_of_mem_filter hc)

omit [Wire TagRecord] in
theorem startFetch_reaches {present : List Bool}
    (hlen : present.length = index.neededChunkRefs.length) :
    FetchReaches hash zstd cfg index (answered present index.neededChunkRefs)
      (startFetch cfg index present) := by
  refine .start ⟨.ok present, rfl, ?_⟩
  intro p hp
  cases hp
  have hnd := index.neededChunks_nodup
  rw [← index.neededChunkRefs_hashes] at hnd
  exact (answered_hasMany hnd hlen).symm

omit [Wire TagRecord] in
theorem Guarded.drop (h : Guarded hash zstd cfg index s) (tag : Nat) :
    Guarded hash zstd cfg index
      { s with temps := s.temps.drop tag, tag := none, download := .done } := by
  refine ⟨h.numbered.drop tag, ?_, trivial, ?_, ?_, ?_, ?_⟩
  · intro hd
    cases hd
  · intro other ho
    cases ho
  · exact fun hno => absurd rfl hno
  · exact fun hno => absurd rfl hno
  · exact fun hno => absurd rfl hno

omit [Wire TagRecord] in
theorem Guarded.moved (h : Guarded hash zstd cfg index s) {phase : DownloadPhase}
    (hbegun : phase ≠ .start)
    (hsound : phase.Sound hash zstd cfg index) :
    Guarded hash zstd cfg index { s with download := phase } :=
  ⟨h.numbered, fun hstart => absurd hstart hbegun, hsound, h.holds, h.spared, h.wanted, h.secured⟩

omit [Wire TagRecord] in
/-- One more needed chunk is found in the store, or put there. -/
theorem Guarded.secure (h : Guarded hash zstd cfg index s) {x : Hash} {store : ChunkMap}
    (hbegun : s.download ≠ .start) (hneeded : x ∈ index.neededChunks) (hthere : store.has x = true)
    (hkept : ∀ y, s.store.has y = true → store.has y = true) :
    Guarded hash zstd cfg index { s with store := store, secured := x :: s.secured } := by
  refine ⟨h.numbered, fun hstart => absurd hstart hbegun, h.sound, h.holds, h.spared, ?_, ?_⟩
  · intro htag y hy
    rcases List.mem_cons.mp hy with rfl | hy
    · exact hneeded
    · exact h.wanted htag y hy
  · intro htag y hy
    rcases List.mem_cons.mp hy with rfl | hy
    · exact hthere
    · exact hkept y (h.secured htag y hy)

omit [Wire TagRecord] in
theorem Guarded.downloadStep (h : Guarded hash zstd cfg index s) (htimely : a.InTime index s)
    (ht : s.downloadStep hash zstd cfg index a = some t) : Guarded hash zstd cfg index t := by
  unfold Race.downloadStep at ht
  cases a with
  | protect =>
    simp only at ht
    split at ht
    · rename_i hstart
      cases ht
      have hnone : s.secured = [] := h.fresh hstart
      refine ⟨h.numbered.protect, ?_, ⟨[], rfl, rfl⟩, ?_, fun _ => htimely, ?_, ?_⟩
      · intro hd
        cases hd
      · intro tag htag
        cases htag
        exact TempTags.protect_holds h.numbered
      · simp [hnone]
      · simp [hnone]
    · cases ht
  | probe =>
    simp only at ht
    split at ht
    · rename_i present hprobing
      cases ht
      have hsound := h.sound
      rw [hprobing] at hsound
      obtain ⟨asked, hasked, hlen⟩ := hsound
      rw [List.append_nil] at hasked
      exact h.moved nofun ⟨⟨_, startFetch_reaches (hasked ▸ hlen)⟩, by simp⟩
    · rename_i present c todo hprobing
      cases ht
      have hsound := h.sound
      rw [hprobing] at hsound
      obtain ⟨asked, hasked, hlen⟩ := hsound
      have hneeded : c.hash ∈ index.neededChunks := by
        rw [← index.neededChunkRefs_hashes, hasked]
        simp
      have hnext : (DownloadPhase.probing (present ++ [s.store.has c.hash]) todo).Sound
          hash zstd cfg index :=
        ⟨asked ++ [c], by simp [hasked], by simp [hlen]⟩
      cases hfound : s.store.has c.hash with
      | true =>
        rw [hfound] at hnext
        exact (h.secure (by simp [hprobing]) hneeded hfound fun _ hy => hy).moved nofun hnext
      | false =>
        rw [hfound] at hnext
        exact h.moved nofun hnext
    · cases ht
  | fetch input =>
    simp only at ht
    split at ht
    · rename_i fetch hfetching
      have hsound := h.sound
      rw [hfetching] at hsound
      obtain ⟨⟨before, hreaches⟩, -⟩ := hsound
      split at ht
      · cases ht
        exact h.moved nofun trivial
      · obtain ⟨next, hnext, rfl⟩ := Option.map_eq_some_iff.mp ht
        exact h.moved nofun ⟨⟨before, .next hreaches hnext⟩, fun p hp => List.mem_of_mem_drop hp⟩
    · cases ht
  | put =>
    simp only at ht
    split at ht
    · rename_i fetch p queue hfetching
      cases ht
      have hsound := h.sound
      rw [hfetching] at hsound
      obtain ⟨⟨before, hreaches⟩, hqueue⟩ := hsound
      have hneeded : p.1 ∈ index.neededChunks := hreaches.put_needed (hqueue p (by simp))
      have hthere : (s.store.put p).has p.1 = true :=
        (ChunkMap.has_put s.store p p.1).mpr (.inr rfl)
      have hput := h.secure (by simp [hfetching]) hneeded hthere fun y hy =>
        (ChunkMap.has_put s.store p y).mpr (.inl hy)
      exact hput.moved nofun ⟨⟨before, hreaches⟩, fun q hq => hqueue q (by simp [hq])⟩
    · cases ht
  | read =>
    simp only at ht
    split at ht
    · split at ht
      · cases ht
        exact h.moved nofun trivial
      · obtain ⟨tag, -, rfl⟩ := Option.map_eq_some_iff.mp ht
        exact h.drop tag
    · cases ht
  | drop =>
    obtain ⟨tag, -, rfl⟩ := Option.map_eq_some_iff.mp ht
    exact h.drop tag
  | readTags => cases ht
  | readTemps => cases ht
  | list hashes => cases ht
  | remove fails => cases ht

theorem Race.remove_alone (io : SweepIo) {live todo : List Hash} {stats : GcStats}
    (hs : s.sweep = .removing live todo stats) :
    ∃ (steps : List RaceStep) (t : Race),
      steps.foldlM (Race.step hash zstd cfg reads tags roots index) s = some t ∧
      t.sweep = .done (sweepLoop io live todo stats s.store).1 ∧
      t.store = (sweepLoop io live todo stats s.store).2 := by
  induction todo generalizing s stats with
  | nil =>
    refine ⟨[.remove false], { s with sweep := .done (.ok stats) }, ?_, rfl, rfl⟩
    simp [Race.step, Race.sweepStep, hs]
  | cons first todo ih =>
    by_cases hlive : first ∈ live
    · obtain ⟨steps, t, hsteps, hdone, hstore⟩ := ih (s := { s with
        sweep := .removing live todo { stats with kept := stats.kept + 1 } }) rfl
      refine ⟨.remove false :: steps, t, ?_, ?_, ?_⟩
      · simpa [Race.step, Race.sweepStep, hs, hlive] using hsteps
      · simpa [sweepLoop, hlive] using hdone
      · simpa [sweepLoop, hlive] using hstore
    · by_cases hfails : io.fails first = true
      · refine ⟨[.remove true], { s with sweep := .done (.error .io) }, ?_, ?_, ?_⟩
        · simp [Race.step, Race.sweepStep, hs, hlive]
        · simp [sweepLoop, hlive, hfails]
        · simp [sweepLoop, hlive, hfails]
      · obtain ⟨steps, t, hsteps, hdone, hstore⟩ := ih (s := { s with
          store := s.store.remove first
          sweep := .removing live todo
            (if s.store.has first then { stats with removed := stats.removed + 1 } else stats) })
              rfl
        refine ⟨.remove false :: steps, t, ?_, ?_, ?_⟩
        · simpa [Race.step, Race.sweepStep, hs, hlive] using hsteps
        · simpa [sweepLoop, hlive, hfails] using hdone
        · simpa [sweepLoop, hlive, hfails] using hstore

/-- A sweep that nothing comes between does what `sweep` does. -/
theorem Race.sweep_alone (io : SweepIo) (hs : s.sweep = .start) :
    ∃ (steps : List RaceStep) (t : Race),
      steps.foldlM (Race.step hash zstd cfg reads tags roots index) s = some t ∧
      t.sweep = .done (Zblob.sweep reads io s.store tags s.temps roots).1 ∧
      t.store = (Zblob.sweep reads io s.store tags s.temps roots).2 := by
  cases htags : tags.liveSet reads with
  | error e =>
    refine ⟨[.readTags], { s with sweep := .done (.error e) }, ?_, ?_, ?_⟩
    · simp [Race.step, Race.sweepStep, hs, htags]
    · simp [Zblob.sweep, htags]
    · simp [Zblob.sweep, htags]
  | ok tagged =>
    cases hlist : io.listing with
    | error e =>
      refine ⟨[.readTags, .readTemps, .list (.error e)],
        { s with temps := s.temps.liveSet.1, sweep := .done (.error e) }, ?_, ?_, ?_⟩
      · simp [Race.step, Race.sweepStep, hs, htags]
      · simp [Zblob.sweep, htags, hlist]
      · simp [Zblob.sweep, htags, hlist]
    | ok hashes =>
      obtain ⟨steps, t, hsteps, hdone, hstore⟩ : ∃ (steps : List RaceStep) (t : Race),
          steps.foldlM (Race.step hash zstd cfg reads tags roots index) { s with
            temps := s.temps.liveSet.1
            sweep := .removing (markLive tagged s.temps roots) hashes ⟨0, 0⟩ } = some t ∧ _ :=
        Race.remove_alone io rfl
      refine ⟨.readTags :: .readTemps :: .list (.ok hashes) :: steps, t, ?_, ?_, ?_⟩
      · simpa [Race.step, Race.sweepStep, hs, htags] using hsteps
      · simpa [Zblob.sweep, htags, hlist] using hdone
      · simpa [Zblob.sweep, htags, hlist] using hstore

/-- In every race whose tag comes in time, what the download has found or put is there for
as long as it holds the tag. -/
theorem secured_while_tagged {ops : List TagOp}
    (h : Race.Timely hash zstd cfg reads roots index ops s)
    (htag : s.tag ≠ none) (x : Hash) (hx : x ∈ s.secured) : s.store.has x = true := by
  have hguarded : Guarded hash zstd cfg index s := by
    refine h.invariant (fun s h0 => ?_) fun s a t hs hstep => ?_
    · obtain ⟨htemps, -, hdownload, htag, hsecured⟩ := h0
      have htracked : Tracked (Runs.run TagState.apply ops .new) (Runs.run Roots.apply ops .new) :=
        Tracked.new.run ops
      refine ⟨?_, fun _ => hsecured, by rw [hdownload]; trivial, ?_, ?_, ?_, ?_⟩
      · intro p hp
        rw [htemps, htracked.held] at hp
        rw [htemps, htracked.next]
        exact htracked.numbered p.1 p.2 hp
      · simp [htag]
      · simp [htag]
      · simp [htag]
      · simp [htag]
    · obtain ⟨hstep, htimely⟩ := hstep
      rcases Option.or_eq_some_iff.mp hstep with hsweep | ⟨-, hdownload⟩
      · exact hs.sweepStep hsweep
      · exact hs.downloadStep htimely hdownload
  exact hguarded.secured htag x hx

end Steps

def leftover : ChunkMap := ChunkMap.put (fun _ => none) (shortHash [97, 98, 99], [97, 98, 99])

def leftoverIndex : TreeIndex := oneFile [⟨shortHash [97, 98, 99], 3⟩]

def raceStart : Race := ⟨leftover, TempTags.new, .start, .start, none, []⟩

theorem leftover_lists : Lists leftover [shortHash [97, 98, 99]] := by
  refine ⟨by simp, fun h => ?_⟩
  simp only [leftover, ChunkMap.has, ChunkMap.put, List.mem_singleton, Function.update_apply]
  split <;> simp [*]

/-- The download finds its chunk after the mark and before its removal. -/
def lateSteps : List RaceStep :=
  [.readTags, .readTemps, .list (.ok [shortHash [97, 98, 99]]), .protect, .probe, .remove false]

theorem sweep_takes_found_chunk :
    let _ := Wire.ofCodec Format.tagRecord
    Lists raceStart.store [shortHash [97, 98, 99]] ∧
      ∃ s, Reachable (Race.Start [])
      (fun s a t => s.step shortHash none pairConfig ⟨true, fun _ => true⟩
          (Runs.run TagState.apply [] .new).dir [] leftoverIndex a = some t) s ∧
        s.tag ≠ none ∧ shortHash [97, 98, 99] ∈ leftoverIndex.neededChunks ∧
        shortHash [97, 98, 99] ∈ s.secured ∧ s.store.has (shortHash [97, 98, 99]) = false := by
  intro _
  have hrun : (lateSteps.foldlM (Race.step shortHash none pairConfig ⟨true, fun _ => true⟩
      (Runs.run TagState.apply [] .new).dir [] leftoverIndex) raceStart).map
      (fun s => decide (s.tag = some 0 ∧ s.secured = [shortHash [97, 98, 99]] ∧
        s.store.has (shortHash [97, 98, 99]) = false)) = some true := by decide +kernel
  obtain ⟨s, hs, hend⟩ := Option.map_eq_some_iff.mp hrun
  obtain ⟨htag, hsecured, hgone⟩ := of_decide_eq_true hend
  refine ⟨leftover_lists, s, ?_, by simp [htag], by decide +kernel, by simp [hsecured], hgone⟩
  exact (Reachable.start ⟨rfl, rfl, rfl, rfl, rfl⟩ : Reachable _ _ raceStart).foldlM hs

def timelySteps : List RaceStep :=
  [.readTags, .protect, .readTemps, .list (.ok [shortHash [97, 98, 99]]), .probe, .remove false]

instance (needed : List Hash) : ∀ phase : SweepPhase, Decidable (phase.Spares needed)
  | .start => inferInstanceAs (Decidable True)
  | .marking _ => inferInstanceAs (Decidable True)
  | .marked live => inferInstanceAs (Decidable (∀ h ∈ needed, h ∈ live))
  | .removing live todo _ => inferInstanceAs (Decidable (∀ h ∈ needed, h ∈ live ∨ h ∉ todo))
  | .done _ => inferInstanceAs (Decidable True)

instance (index : TreeIndex) (s : Race) : ∀ a : RaceStep, Decidable (a.InTime index s)
  | .protect => inferInstanceAs (Decidable (s.sweep.Spares index.neededChunks))
  | .readTags | .readTemps | .list _ | .remove _ | .probe | .fetch _ | .put | .read | .drop =>
    inferInstanceAs (Decidable True)

theorem secured_while_tagged_leftover :
    let _ := Wire.ofCodec Format.tagRecord
    ∃ s, Race.Timely shortHash none pairConfig ⟨true, fun _ => true⟩ [] leftoverIndex [] s ∧
      s.tag ≠ none ∧ shortHash [97, 98, 99] ∈ s.secured ∧
      s.store.has (shortHash [97, 98, 99]) = true := by
  intro _
  have hrun : (timelySteps.foldlM (fun (s : Race) (a : RaceStep) => if a.InTime leftoverIndex s then
      Race.step shortHash none pairConfig ⟨true, fun _ => true⟩
        (Runs.run TagState.apply [] .new).dir [] leftoverIndex s a else none) raceStart).map
      (fun s => decide (s.tag = some 0 ∧ s.secured = [shortHash [97, 98, 99]])) = some true :=
        by decide +kernel
  obtain ⟨s, hs, hend⟩ := Option.map_eq_some_iff.mp hrun
  obtain ⟨htag, hsecured⟩ := of_decide_eq_true hend
  have hreach : Race.Timely shortHash none pairConfig ⟨true, fun _ => true⟩ [] leftoverIndex [] s :=
    (Reachable.start ⟨rfl, rfl, rfl, rfl, rfl⟩ : Reachable _ _ raceStart).foldlM_guarded hs
  have htagged : s.tag ≠ none := by simp [htag]
  have hfound : shortHash [97, 98, 99] ∈ s.secured := by simp [hsecured]
  exact ⟨s, hreach, htagged, hfound, secured_while_tagged hreach htagged _ hfound⟩

end Zblob

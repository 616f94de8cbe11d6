import Zblob.Delivered
import Zblob.Lib.Weight

/-!
What a snapshot can cost whoever asks for it, if everything he is sent is made up: the index
is no larger in memory than its bytes allow, its size is not a sum gone round, and no run of
the chunk fetch, finished or failed, takes more chunks or more bytes than the limits say.
-/

set_option autoImplicit false

namespace Zblob

namespace Format

theorem hash_weighs : hash.Weighs fun _ => 33 := by
  refine (Codec.Weighs.items Codec.Weighs.byte).pmap fun data h hget => ?_
  split at hget
  · rename_i hlen
    rw [hlen]
  · cases hget

theorem u32_weighs : u32.Weighs fun _ => 1 := (Codec.Weighs.uint _).pmap fun _ _ _ => Nat.le_refl 1

theorem u16_weighs : u16.Weighs fun _ => 1 := (Codec.Weighs.uint _).pmap fun _ _ _ => Nat.le_refl 1

theorem u64_weighs : u64.Weighs fun _ => 1 := (Codec.Weighs.uint _).pmap fun _ _ _ => Nat.le_refl 1

theorem i64_weighs : i64.Weighs fun _ => 1 := (Codec.Weighs.uint _).pmap fun _ _ _ => Nat.le_refl 1

theorem string_weighs : string.Weighs fun _ => 1 :=
  (Codec.Weighs.list Codec.Weighs.byte).pmap fun _ _ _ => Nat.le_add_right _ _

theorem chunkRef_weighs : chunkRef.Weighs fun _ => 34 :=
  (hash_weighs.pair u32_weighs).pmap fun _ _ _ => Nat.le_refl 34

def EntryKind.refs : ∀ kind : EntryKind, kind.Fields → List ChunkRef
  | .file, p => p.2.2.2.2
  | .dir, _ => []
  | .symlink, _ => []
  | .hardlink, _ => []

theorem entryFields_weighs (kind : EntryKind) :
    (entryFields kind).Weighs fun p => 34 * (kind.refs p).length := by
  have none : ∀ {α : Type} {c : Codec α} {w : α → Nat}, c.Weighs w → c.Weighs fun _ => 34 * 0 :=
    fun h => h.mono fun _ => Nat.zero_le _
  cases kind with
  | dir => exact none (string_weighs.pair (u32_weighs.pair i64_weighs))
  | symlink => exact none (string_weighs.pair string_weighs)
  | hardlink => exact none (string_weighs.pair string_weighs)
  | file =>
    refine (string_weighs.pair (u32_weighs.pair (i64_weighs.pair (u64_weighs.pair
      (Codec.Weighs.items chunkRef_weighs))))).mono fun p => ?_
    simp only [EntryKind.refs]
    omega

theorem entry_weighs : entry.Weighs fun e => 34 * e.chunks.length := by
  refine (Codec.Weighs.kinded (Codec.Weighs.pmap u32_weighs fun _ _ _ => Nat.le_refl 1)
    entryFields_weighs).pmap ?_
  rintro ⟨kind, fields⟩ e hget
  cases kind <;> cases hget <;> simp [Entry.chunks, EntryKind.refs]

theorem treeIndex_weighs :
    treeIndex.Weighs fun i => 34 * (i.entries.flatMap Entry.chunks).length := by
  have free : ∀ {α : Type} {c : Codec α} {w : α → Nat}, c.Weighs w → c.Weighs fun _ => 0 :=
    fun h => h.mono fun _ => Nat.zero_le _
  have blobId_weighs : blobId.Weighs fun _ => 0 :=
    Codec.Weighs.pmap string_weighs fun _ _ _ => Nat.zero_le 1
  have algo_weighs : algo.Weighs fun _ => 0 :=
    Codec.Weighs.pmap string_weighs fun _ _ _ => Nat.zero_le 1
  have cdc_weighs : cdcParams.Weighs fun _ => 0 :=
    Codec.Weighs.pmap (free (u32_weighs.pair (u32_weighs.pair (u32_weighs.pair
      (Codec.Weighs.byte.pair u64_weighs))))) fun _ _ _ => Nat.zero_le 0
  refine ((free u16_weighs).pair (blobId_weighs.pair (algo_weighs.pair (cdc_weighs.pair
    ((Codec.Weighs.list entry_weighs).pair hash_weighs))))).pmap ?_
  rintro ⟨version, id, algo, cdc, entries, root⟩ i hget
  cases hget
  simp only
  have hsum : ∀ es : List Entry,
      34 * (es.flatMap Entry.chunks).length = (es.map fun e => 34 * e.chunks.length).sum := by
    intro es
    induction es with
    | nil => rfl
    | cons e es ih =>
      rw [List.flatMap_cons, List.length_append, List.map_cons, List.sum_cons, ← ih]
      omega
  rw [hsum]
  omega

end Format

section Sizes

variable {cdc : CdcParams} {es : List Entry} {order : List ChunkRef} {c : ChunkRef}

theorem EntriesOk.size_eq (ok : EntriesOk cdc [] es) {e : Entry} (he : e ∈ es) :
    e.size.toNat = chunkSum e.chunks := by
  cases e with
  | dir => rfl
  | symlink => rfl
  | hardlink => rfl
  | file path mode mtime size chunks => exact (ok.sizes path mode mtime size chunks he).1.symm

theorem EntriesOk.chunkSum_eq (ok : EntriesOk cdc [] es) :
    (es.map fun e => e.size.toNat).sum = chunkSum (es.flatMap Entry.chunks) := by
  have hall : ∀ es' : List Entry, (∀ e ∈ es', e ∈ es) →
      (es'.map fun e => e.size.toNat).sum = chunkSum (es'.flatMap Entry.chunks) := by
    intro es'
    induction es' with
    | nil => exact fun _ => rfl
    | cons e es' ih =>
      intro hmem
      have hrest := ih fun x hx => hmem x (by simp [hx])
      rw [List.map_cons, List.sum_cons, hrest, ok.size_eq (hmem e (by simp))]
      simp [chunkSum]
  exact hall es fun _ he => he

theorem EntriesOk.chunkSum_le (ok : EntriesOk cdc [] es) (hcdc : cdc.validate = .ok ()) :
    chunkSum (es.flatMap Entry.chunks) ≤ maxUnpacked * (es.flatMap Entry.chunks).length := by
  have hlen : ∀ c ∈ es.flatMap Entry.chunks, c.len.toNat ≤ maxUnpacked := by
    intro c hc
    obtain ⟨e, he, hce⟩ := List.mem_flatMap.mp hc
    cases e with
    | dir => cases hce
    | symlink => cases hce
    | hardlink => cases hce
    | file path mode mtime size chunks =>
      exact (UInt32.le_iff_toNat_le.mp ((ok.sizes path mode mtime size chunks he).2 c hce).2).trans
        (CdcParams.max_le hcdc)
  generalize es.flatMap Entry.chunks = chunks at hlen ⊢
  induction chunks with
  | nil => exact Nat.zero_le _
  | cons c chunks ih =>
    have hrest := ih fun x hx => hlen x (by simp [hx])
    have hfirst := hlen c (by simp)
    simp only [chunkSum, List.map_cons, List.sum_cons, List.length_cons] at hrest ⊢
    rw [Nat.mul_succ]
    omega

theorem TreeIndex.totalSize_toNat {index : TreeIndex}
    (h : (index.entries.map fun e => e.size.toNat).sum < 2 ^ 64) :
    index.totalSize.toNat = (index.entries.map fun e => e.size.toNat).sum := by
  have hfold : ∀ (es : List Entry) (acc : UInt64), acc.toNat +
      (es.map fun e => e.size.toNat).sum < 2 ^ 64 →
      (es.foldl (fun sum e => sum + e.size) acc).toNat = acc.toNat +
      (es.map fun e => e.size.toNat).sum := by
    intro es
    induction es with
    | nil => exact fun _ _ => rfl
    | cons e es ih =>
      intro acc hlt
      rw [List.map_cons, List.sum_cons] at hlt ⊢
      have hadd : (acc + e.size).toNat = acc.toNat + e.size.toNat := by
        rw [UInt64.toNat_add]
        omega
      rw [List.foldl_cons, ih _ (by omega), hadd, Nat.add_assoc]
  rw [TreeIndex.totalSize, hfold _ 0 (by simpa using h)]
  simp

theorem noteRef_sum (hnd : (order.map ChunkRef.hash).Nodup) :
    chunkSum (noteRef order c) ≤ chunkSum order + c.len.toNat := by
  unfold noteRef
  split
  · rename_i hmem
    clear hmem
    induction order with
    | nil => exact Nat.zero_le _
    | cons x order ih =>
      rw [List.map_cons, List.nodup_cons] at hnd
      simp only [List.map_cons, chunkSum, List.sum_cons] at ih ⊢
      by_cases hx : x.hash = c.hash
      · -- no other reference has this address
        have hrest : (order.map fun y =>
            if y.hash = c.hash then { y with len := max y.len c.len } else y) = order := by
          refine (List.map_congr_left fun y hy => if_neg fun he => hnd.1 ?_).trans
            (List.map_id order)
          rw [hx, ← he]
          exact List.mem_map_of_mem hy
        have hmax : (max x.len c.len).toNat ≤ x.len.toNat + c.len.toNat := by
          by_cases hle : x.len ≤ c.len
          · rw [show max x.len c.len = c.len from if_pos hle]
            exact Nat.le_add_left _ _
          · rw [show max x.len c.len = x.len from if_neg hle]
            exact Nat.le_add_right _ _
        rw [if_pos hx, hrest]
        simp only
        omega
      · have hle := ih hnd.2
        rw [if_neg hx]
        omega
  · simp [chunkSum]

theorem TreeIndex.neededChunkRefs_sum (index : TreeIndex) :
    chunkSum index.neededChunkRefs ≤ chunkSum (index.entries.flatMap Entry.chunks) := by
  have hfold : ∀ (chunks order : List ChunkRef), (order.map ChunkRef.hash).Nodup →
      chunkSum (chunks.foldl noteRef order) ≤ chunkSum order + chunkSum chunks := by
    intro chunks
    induction chunks with
    | nil => exact fun order _ => Nat.le_add_right _ _
    | cons c chunks ih =>
      intro order hnd
      have hrest := ih (noteRef order c) (by rw [noteRef_hashes]; exact noteHash_nodup hnd c)
      have hfirst := noteRef_sum (c := c) hnd
      simp only [chunkSum, List.map_cons, List.sum_cons, List.foldl_cons] at hrest hfirst ⊢
      omega
  have hall := hfold (index.entries.flatMap Entry.chunks) [] List.nodup_nil
  rwa [show chunkSum [] = 0 from rfl, Nat.zero_add] at hall

end Sizes

section Run

variable {hash : Bytes → Hash} {zstd : Zstd} {cfg : FetchConfig} {total : Nat} {store : ChunkMap}
  {missing : List ChunkRef} {s t : Fetching}

/-- What has been put, what is still to come and what the tasks owe is no more than was
missing. A fetch that fails drops some of it. -/
def Owing (missing : List ChunkRef) (s : Fetching) : Prop :=
  ∀ x, (s.puts.map Prod.fst).count x + s.phase.live.count x + (owedHashes s.tasks).count x ≤
    (missing.map ChunkRef.hash).count x

/-- What holds of every fetch, also of one that has failed. -/
structure Frugal (cfg : FetchConfig) (missing : List ChunkRef) (s : Fetching) : Prop where
  owing : Owing missing s
  tasks : s.tasks.length ≤ cfg.fetchConcurrency
  pending : s.phase.pending.length < flushLen

theorem SoundFetch.owing (h : SoundFetch hash total store missing s) (hf : s.phase.failed = false) :
    Owing missing s :=
  fun x => Nat.le_of_eq ((h.exact hf).balance x)

theorem Owing.done (h : Owing missing s) (r : Result TransferStats) :
    Owing missing (s.finish r) := by
  intro x
  have hx := h x
  simp only [Fetching.finish, FetchPhase.live, FetchPhase.wants, List.map_nil, List.count_nil]
  omega

theorem Owing.cancel (h : Owing missing s) (total : Nat) :
    Owing missing (s.cancel total) := h.done _

theorem Owing.countQueries (h : Owing missing s) (n : Nat) : Owing missing (s.countQueries n) := h

theorem keepFull_length (n : Nat) (tasks : List FetchTask) (queue : List Want)
    (h : tasks.length ≤ n) :
    (keepFull n tasks queue).1.length ≤ n := by
  induction queue generalizing tasks with
  | nil => exact h
  | cons w queue ih =>
    simp only [keepFull]
    split
    · exact ih _ (by simp; omega)
    · exact h

theorem owedHashes_eraseIdx (tasks : List FetchTask) (k : Nat) (x : Hash) :
    (owedHashes (tasks.eraseIdx k)).count x ≤ (owedHashes tasks).count x :=
  ((List.eraseIdx_sublist tasks k).filterMap FetchTask.owed).count_le x

theorem Owing.erase (h : Owing missing s) (k : Nat) :
    Owing missing { s with tasks := s.tasks.eraseIdx k } := by
  intro x
  have hx := h x
  have hless := owedHashes_eraseIdx s.tasks k x
  simp only
  omega

theorem Frugal.round (h : Frugal cfg missing s) {cancelled : Bool} {query : Result Unit}
    (ht : s.step hash zstd cfg total (.round cancelled query) = some t) : Frugal cfg missing t := by
  have hflush : 0 < flushLen := by decide
  simp only [Fetching.step] at ht
  split at ht
  · rename_i unanswered hphase
    cases cancelled with
    | true =>
      cases ht
      exact ⟨h.owing.cancel total, h.tasks, hflush⟩
    | false =>
      cases ht
      refine ⟨fun x => ?_, h.tasks, hflush⟩
      have hx := h.owing x
      rw [hphase] at hx
      simpa [FetchPhase.live, FetchPhase.wants] using hx
  · rename_i group rest unanswered hphase
    cases cancelled with
    | true =>
      cases ht
      exact ⟨h.owing.cancel total, h.tasks, hflush⟩
    | false =>
      cases query with
      | error e =>
        cases ht
        exact ⟨(h.owing.countQueries 1).done _, h.tasks, hflush⟩
      | ok u =>
        cases ht
        refine ⟨fun x => ?_, h.tasks, hflush⟩
        have hx := h.owing x
        rw [hphase] at hx
        simpa [FetchPhase.live, FetchPhase.wants, Fetching.countQueries, Nat.add_assoc] using hx
  · cases ht

theorem SoundFetch.endTurn_frugal {group : List Want} {pending : List (Hash × Bytes)}
    {arrived : List Hash}
    {rest : List (List Want)} {unanswered : List Want} {cancelled : Bool} {next : Option Reply}
    (h : SoundFetch hash total store missing
      { s with phase := .draining group pending arrived rest unanswered })
    (hflushed : next.isNone = true → pending = []) (hroom : pending.length < flushLen)
    (htasks : s.tasks.length ≤ cfg.fetchConcurrency) :
    Frugal cfg missing
      (Zblob.endTurn total group arrived rest unanswered cancelled next pending s) := by
  have hsound : SoundFetch hash total store missing
      (Zblob.endTurn total group arrived rest unanswered cancelled next pending s) :=
        h.endTurn hflushed
  have hflush : 0 < flushLen := by decide
  generalize hout : Zblob.endTurn total group arrived rest unanswered cancelled next pending s =
    out at hsound ⊢
  unfold Zblob.endTurn at hout
  split at hout
  · split at hout
    · subst hout
      exact ⟨fun x => (h.owing rfl).cancel total x, htasks, hflush⟩
    · subst hout
      exact ⟨hsound.owing rfl, htasks, hflush⟩
  · subst hout
    exact ⟨h.owing rfl, htasks, hroom⟩

theorem Frugal.turn (hnd : (missing.map ChunkRef.hash).Nodup)
    (hs : SoundFetch hash total store missing s)
    (h : Frugal cfg missing s) {cancelled : Bool} {next : Option Reply}
    {failed : Option (Nat × BlobError)}
    (ht : s.step hash zstd cfg total (.turn cancelled next failed) = some t) :
    Frugal cfg missing t := by
  simp only [Fetching.step] at ht
  split at ht
  · rename_i group pending arrived rest unanswered hphase
    generalize (if cancelled = true then none else next) = got at ht
    have htaken := SoundFetch.takeReply hnd zstd cfg got hphase hs
    generalize takeReply hash zstd cfg group pending arrived got = taken at ht htaken
    split at ht
    · cases failed with
      | some f =>
        cases ht
        refine ⟨fun x => ?_, h.tasks, show 0 < flushLen by decide⟩
        have hx := (htaken.exact rfl).balance x
        have hpart := ((List.take_sublist f.1 taken.1).map Prod.fst).count_le x
        simp only [FetchPhase.live, List.count_append] at hx
        simp only [Fetching.finish, Fetching.putMany, FetchPhase.live,
          FetchPhase.wants, List.map_append,
          List.count_append, List.map_nil, List.count_nil]
        omega
      | none =>
        cases ht
        have counts := countBatch_counts total group taken.1 (s.putMany taken.1)
        exact htaken.flush.endTurn_frugal (fun _ => rfl) (by decide)
          (by rw [counts.tasks]; exact h.tasks)
    · rename_i hkeep
      cases ht
      rw [not_or] at hkeep
      refine htaken.endTurn_frugal (fun hnone => ?_) (Nat.lt_of_not_le hkeep.1) h.tasks
      by_contra hne
      exact hkeep.2 ⟨hnone, hne⟩
  · cases ht

theorem Frugal.fill (h : Frugal cfg missing s) {cancelled : Bool}
    (ht : s.step hash zstd cfg total (.fill cancelled) = some t) : Frugal cfg missing t := by
  have hflush : 0 < flushLen := by decide
  simp only [Fetching.step] at ht
  split at ht
  · rename_i queue hphase
    obtain ⟨spawned, hqueue, htasks, -⟩ := keepFull_spec cfg.fetchConcurrency s.tasks queue
    have hfew := keepFull_length cfg.fetchConcurrency s.tasks queue h.tasks
    generalize keepFull cfg.fetchConcurrency s.tasks queue = full at ht hqueue htasks hfew
    obtain ⟨tasks, rest⟩ := full
    simp only at ht hqueue htasks hfew
    have hspawned : Owing missing { s with tasks := tasks, phase := .waiting rest } := by
      intro x
      have hx := h.owing x
      rw [hphase] at hx
      simp only [FetchPhase.live, FetchPhase.wants, hqueue, List.map_append,
        List.count_append] at hx
      simp only [FetchPhase.live, FetchPhase.wants, htasks, owedHashes_append,
        owedHashes_spawned, List.count_append]
      omega
    split at ht
    · cases ht
      exact ⟨fun x => hspawned.done _ x, hfew, hflush⟩
    · split at ht
      · cases ht
        exact ⟨fun x => hspawned.cancel total x, hfew, hflush⟩
      · cases ht
        exact ⟨hspawned, hfew, hflush⟩
  · cases ht

theorem Frugal.wake (h : Frugal cfg missing s) {joined : Option Nat}
    (ht : s.step hash zstd cfg total (.wake joined) = some t) : Frugal cfg missing t := by
  have hflush : 0 < flushLen := by decide
  simp only [Fetching.step] at ht
  split at ht
  · rename_i queue hphase
    have hback : Owing missing { s with phase := .filling queue } := by
      intro x
      have hx := h.owing x
      rwa [hphase] at hx
    split at ht
    · cases ht
      exact ⟨hback, h.tasks, hflush⟩
    · rename_i k
      have hfew : (s.tasks.eraseIdx k).length ≤ cfg.fetchConcurrency :=
        (List.eraseIdx_sublist s.tasks k).length_le.trans h.tasks
      split at ht
      · cases ht
        exact ⟨hback.erase k, hfew, hflush⟩
      · cases ht
        exact ⟨(h.owing.erase k).done _, hfew, hflush⟩
      · cases ht
  · cases ht

theorem Frugal.runTask (h : Frugal cfg missing s) {k : Nat} {query : Option (List Reply)}
    {put : Result Unit}
    (ht : s.step hash zstd cfg total (.run k query put) = some t) : Frugal cfg missing t := by
  simp only [Fetching.step] at ht
  split at ht
  · rename_i want htask
    obtain ⟨before, after, hsplit, -, hset⟩ := split_at_index htask
    have hended : ∀ e,
        Frugal cfg missing { s with tasks := s.tasks.set k ⟨want, some (.error e)⟩ } := by
      intro e
      refine ⟨fun x => ?_, by rw [List.length_set]; exact h.tasks, h.pending⟩
      have hx := h.owing x
      rw [hsplit] at hx
      simpa [hset] using hx
    split at ht
    · cases ht
      exact hended _
    · cases ht
      exact hended _
    · rename_i bytes rejected hfetch
      cases ht
      refine ⟨fun x => ?_, by rw [List.length_set]; exact h.tasks, h.pending⟩
      have hx := h.owing x
      rw [hsplit] at hx
      simp only [owedHashes_append, owedHashes_fresh, List.count_append,
        List.count_cons, Want.hash] at hx
      simp only [hset, Fetching.putMany, owedHashes_append, owedHashes_ok,
        List.count_append, List.map_append,
        List.map_cons, List.map_nil, List.count_cons, List.count_nil]
      omega
  · cases ht

theorem Frugal.step (hnd : (missing.map ChunkRef.hash).Nodup)
    (hs : SoundFetch hash total store missing s)
    (h : Frugal cfg missing s) {input : FetchInput}
    (ht : s.step hash zstd cfg total input = some t) :
    Frugal cfg missing t := by
  cases input with
  | round cancelled query => exact h.round ht
  | turn cancelled next failed => exact h.turn hnd hs ht
  | fill cancelled => exact h.fill ht
  | wake joined => exact h.wake ht
  | run k query put => exact h.runTask ht

theorem splitPresence_tasks (total i : Nat) (refs : List (ChunkRef × Bool))
    (s : Fetching) (missing : List Want) :
    (splitPresence total i refs s missing).1.tasks = s.tasks := by
  induction refs generalizing i s missing with
  | nil => rfl
  | cons r refs ih =>
    obtain ⟨c, there⟩ := r
    cases there with
    | true => exact ih (i + 1) (s.resume total i) missing
    | false => exact ih (i + 1) s (missing ++ [(i, c)])

theorem fetchMissing_frugal (cfg : FetchConfig) (needed : List ChunkRef)
    (store : ChunkMap) (present : List Bool)
    (hs : SoundFetch hash total store missing (fetchMissing cfg needed store total (.ok present))) :
    Frugal cfg missing (fetchMissing cfg needed store total (.ok present)) := by
  have htasks :=
    splitPresence_tasks total 0 (needed.zip present) (Fetching.idle store (.filling [])) []
  have hflush : 0 < flushLen := by decide
  generalize hout : fetchMissing cfg needed store total (.ok present) = out at hs ⊢
  simp only [fetchMissing] at hout
  split at hout
  · subst hout
    exact ⟨hs.owing rfl, by rw [htasks]; exact Nat.zero_le _, hflush⟩
  · subst hout
    exact ⟨hs.owing rfl, by rw [htasks]; exact Nat.zero_le _, hflush⟩

variable {index : TreeIndex}

theorem FetchReaches.frugal (h : FetchReaches hash zstd cfg index store s) :
    Frugal cfg (absent store index.neededChunkRefs) s := by
  have hnd := index.absent_nodup store
  induction h with
  | start h0 =>
    have hreach : FetchReaches hash zstd cfg index store _ := .start h0
    have hsound := hreach.sound
    obtain ⟨presence, rfl, -⟩ := h0
    cases presence with
    | error e => exact ⟨fun x => Nat.zero_le _, Nat.zero_le _, show 0 < flushLen by decide⟩
    | ok present => exact fetchMissing_frugal cfg _ store present hsound
  | next hr ht ih => exact ih.step hnd (FetchReaches.sound hr) ht

theorem Owing.totalLen_le (h : Owing missing s) (hnd : (missing.map ChunkRef.hash).Nodup)
    (hputs : ∀ p ∈ s.puts, GoodPut hash missing p) : totalLen s.puts ≤ chunkSum missing := by
  -- what an address is good for
  let lenOf (x : Hash) : Nat :=
    ((missing.find? fun c => c.hash = x).map fun c => c.len.toNat).getD 0
  have hlen : ∀ c ∈ missing, lenOf c.hash = c.len.toNat := by
    intro c hc
    obtain ⟨d, hd⟩ : ∃ d, missing.find? (fun d => d.hash = c.hash) = some d :=
      Option.isSome_iff_exists.mp (List.find?_isSome.mpr ⟨c, hc, by simp⟩)
    have hsame : d.hash = c.hash := by simpa using List.find?_some hd
    rw [List.inj_on_of_nodup_map hnd (List.mem_of_find?_eq_some hd) hc hsame] at hd
    simp [lenOf, hd]
  have hputs' : s.puts.map (fun p => p.2.length) = (s.puts.map Prod.fst).map lenOf := by
    rw [List.map_map]
    refine List.map_congr_left fun p hp => ?_
    obtain ⟨c, hc, hhash, -, hbytes⟩ := hputs p hp
    rw [hbytes, ← hlen c hc, hhash]
    rfl
  have hmissing : missing.map (fun c => c.len.toNat) = (missing.map ChunkRef.hash).map lenOf := by
    rw [List.map_map]
    exact List.map_congr_left fun c hc => (hlen c hc).symm
  rw [totalLen, hputs', chunkSum, hmissing]
  refine sum_le_of_count_le (fun x => ?_) lenOf
  have hx := h x
  omega

theorem Owing.nodup (h : Owing missing s) (hnd : (missing.map ChunkRef.hash).Nodup) :
    (s.puts.map Prod.fst).Nodup := by
  rw [List.nodup_iff_count_le_one] at hnd ⊢
  intro x
  have hx := h x
  have hone := hnd x
  omega

theorem Owing.length_le (h : Owing missing s) : s.puts.length ≤ missing.length := by
  have hcount : ∀ x, (s.puts.map Prod.fst).count x ≤ (missing.map ChunkRef.hash).count x := by
    intro x
    have hx := h x
    omega
  have hle := (List.subperm_ext_iff.mpr fun x _ => hcount x).length_le
  rwa [List.length_map, List.length_map] at hle

end Run

theorem chunkSum_absent (store : ChunkMap) (needed : List ChunkRef) :
    chunkSum (absent store needed) ≤ chunkSum needed := by
  induction needed with
  | nil => exact Nat.le_refl _
  | cons c needed ih =>
    simp only [absent, List.filter_cons] at ih ⊢
    split
    · simp only [chunkSum, List.map_cons, List.sum_cons] at ih ⊢
      omega
    · simp only [chunkSum, List.map_cons, List.sum_cons] at ih ⊢
      omega

theorem TreeIndex.validate_cdc {th : TreeHash} {index : TreeIndex}
    (h : index.validate th = .ok ()) :
    index.cdc.validate = .ok () := by
  unfold TreeIndex.validate at h
  split at h
  · cases h
  · cases hc : index.cdc.validate with
    | error e => simp [bind, Except.bind, hc] at h
    | ok u => rfl

section Cost

attribute [local instance] Format.indexWire Format.descriptorWire

/-- Whatever replies an index was taken from, and whatever becomes of the fetch of its chunks:
the index has no more references than its bytes can hold, its sizes add up to no more than the
limit as numbers, not only as words, and up to every moment, also of a fetch that fails, no
address has been put twice and what has been put is within the limits of the client. -/
theorem index_cost_bounded {th : TreeHash} {zstd : Zstd} {cfg : SyncConfig}
    {id : String} {pin : Option Hash}
    {query : Option (List (Reply × ShardReplies))} {index : TreeIndex}
    (hbits : cfg.maxIndexBytes ≤ 2 ^ 45)
    (hfetched : fetchIndexMatching th zstd cfg.toTreeConfig id pin query = .ok index)
    (hafford : affordable cfg index = .ok ()) {store : ChunkMap} {s : Fetching}
    (hreach : FetchReaches th.hash zstd cfg.toFetchConfig index store s) :
    34 * (index.entries.flatMap Entry.chunks).length ≤ cfg.maxIndexBytes ∧
      (index.entries.map fun e => e.size.toNat).sum ≤ cfg.maxTreeBytes ∧
      (s.puts.map Prod.fst).Nodup ∧
      s.puts.length ≤ cfg.maxTreeChunks.toNat ∧ totalLen s.puts ≤ cfg.maxTreeBytes ∧
      s.tasks.length ≤ cfg.fetchConcurrency ∧ s.phase.pending.length < flushLen := by
  obtain ⟨replies, -, r, -, sample, payload, -, -, hlen, hdecode, hvalid, -⟩ :=
    fetchIndexMatching_ok hfetched
  have ok : EntriesOk index.cdc [] index.entries := TreeIndex.validate_ok hvalid
  have hweight : 34 * (index.entries.flatMap Entry.chunks).length ≤ payload.length := by
    refine Format.treeIndex_weighs.read ?_
    change Postcard.fromBytes payload = some index
    unfold decode at hdecode
    split at hdecode
    · rename_i a ha
      cases hdecode
      exact ha
    · cases hdecode
  have hcdc := TreeIndex.validate_cdc hvalid
  have hsum := ok.chunkSum_eq
  have hmost := ok.chunkSum_le hcdc
  rw [show maxUnpacked = 16777216 from rfl] at hmost
  have htotal : index.totalSize.toNat = (index.entries.map fun e => e.size.toNat).sum :=
    index.totalSize_toNat (by omega)
  have frugal := hreach.frugal
  have hnd := index.absent_nodup store
  unfold affordable at hafford
  split at hafford
  · cases hafford
  · rename_i hsize
    split at hafford
    · cases hafford
    · rename_i hcount
      have hfew : (absent store index.neededChunkRefs).length ≤ index.neededChunks.length := by
        rw [← index.neededChunkRefs_hashes, List.length_map]
        exact List.length_filter_le _ _
      have hbytes := frugal.owing.totalLen_le hnd hreach.sound.safe.puts
      have habsent := chunkSum_absent store index.neededChunkRefs
      have hneeded := index.neededChunkRefs_sum
      have hputs := frugal.owing.length_le
      exact ⟨by omega, by omega, frugal.owing.nodup hnd, by omega, by omega, frugal.tasks,
        frugal.pending⟩

def homeCost (sent : TreeIndex) : Option (TreeIndex × Fetching) :=
  (fetchIndexMatching (TreeHash.postcard homeTree.hash) none homeSync.toTreeConfig "t" none
    (homeFetch sent).index).toOption.bind fun index =>
      if (affordable homeSync index).toBool &&
        decide (index.neededChunkRefs.map ChunkRef.hash = [shortHash [97, 98, 99]])
      then (fetchNeeded homeTree.hash none homeSync.toFetchConfig index
        (fun _ => none) (homeFetch sent)).map fun s =>
        (index, s)
      else none

theorem index_cost_bounded_home : ∃ sent store index s, homeSent = .ok (sent, store) ∧
    fetchIndexMatching (TreeHash.postcard homeTree.hash) none homeSync.toTreeConfig "t" none
    (homeFetch sent).index =
      .ok index ∧ FetchReaches homeTree.hash none homeSync.toFetchConfig index (fun _ => none) s ∧
    s.puts.length = 1 ∧ totalLen s.puts ≤ homeSync.maxTreeBytes := by
  have hend : ((homeSent.toOption.bind fun r => homeCost r.1).map fun r => r.2.puts.length) =
      some 1 := by
    decide +kernel
  obtain ⟨⟨index, s⟩, hend, hone⟩ := Option.map_eq_some_iff.mp hend
  obtain ⟨⟨sent, store⟩, hsent, hcost⟩ := Option.bind_eq_some_iff.mp hend
  obtain ⟨index', hindex, hcost⟩ := Option.bind_eq_some_iff.mp hcost
  split at hcost
  · rename_i hgood
    rw [Bool.and_eq_true, decide_eq_true_eq] at hgood
    obtain ⟨s', hfetched, hp⟩ := Option.map_eq_some_iff.mp hcost
    cases hp
    have hfound := Except.eq_ok_of_toOption hindex
    have hafford : affordable homeSync index = .ok () := by
      cases ha : affordable homeSync index with
      | ok u => rfl
      | error e =>
        rw [ha] at hgood
        cases hgood.1
    have hreach :
        FetchReaches homeTree.hash none homeSync.toFetchConfig index (fun _ => none) s := by
      refine Runs.Reachable.foldlM (.start ⟨.ok [false], rfl, fun present hp => ?_⟩) hfetched
      cases hp
      rw [hgood.2]
      rfl
    exact ⟨sent, store, index, s, Except.eq_ok_of_toOption hsent, hfound, hreach, hone,
      (index_cost_bounded (by decide) hfound hafford hreach).2.2.2.2.1⟩
  · cases hcost

end Cost

end Zblob

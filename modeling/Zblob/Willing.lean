import Zblob.Carriage
import Zblob.Lib.Progress

/-!
A chunk fetch among peers of whom some are willing: as long as every query goes out, every
put lands and one of the replies to each single query is good, it comes to its end, whatever
else is answered, how often, and in which order.
-/

set_option autoImplicit false

namespace Zblob

section Machine

variable (hash : Bytes → Hash) (zstd : Zstd)

def Supplied (want : ChunkRef) (replies : List Reply) : Prop :=
  ∃ r ∈ replies, ∃ bytes, judgeReply hash zstd want.hash (some want.len) maxUnpacked r =
    .accepted bytes

/-- An input by which nothing is lost: no cancel, no failing query, no failing put, and for
every single query replies that are `good`. Rounds may bring anything. -/
inductive Willing (good : ChunkRef → List Reply → Prop) (s : Fetching) : FetchInput → Prop
  | round : Willing good s (.round false (.ok ()))
  | turn {next : Option Reply} : Willing good s (.turn false next none)
  | fill : Willing good s (.fill false)
  | wake {joined : Option Nat} : Willing good s (.wake joined)
  | run {k : Nat} {replies : List Reply} :
      (∀ task, s.tasks[k]? = some task → good task.want.2 replies) →
      Willing good s (.run k (some replies) (.ok ()))

def WillingStep (good : ChunkRef → List Reply → Prop) (cfg : FetchConfig)
    (total : Nat) (s : Fetching)
    (input : FetchInput) (t : Fetching) : Prop :=
  s.step hash zstd cfg total input = some t ∧ Willing good s input

abbrev SuppliedStep := WillingStep hash zstd (Supplied hash zstd)

end Machine

/-- An input that takes the fetch on: a round begins or ends, a task runs or is joined. -/
def FetchInput.advances : FetchInput → Bool
  | .round _ _ => true
  | .turn _ next _ => next.isNone
  | .fill _ => false
  | .wake joined => joined.isSome
  | .run _ _ _ => true

def FetchPhase.work : FetchPhase → Nat
  | .rounds rest unanswered => 2 * rest.length + 1 + 2 * (rest.flatten ++ unanswered).length
  | .draining group _ _ rest unanswered =>
    2 * rest.length + 2 + 2 * (group ++ rest.flatten ++ unanswered).length
  | .filling queue => 2 * queue.length
  | .waiting queue => 2 * queue.length
  | .done _ => 0

def FetchTask.work (t : FetchTask) : Nat := if t.ended.isSome then 1 else 2

def taskWork : List FetchTask → Nat
  | [] => 0
  | t :: tasks => t.work + taskWork tasks

def Fetching.work (s : Fetching) : Nat := s.phase.work + taskWork s.tasks

def FetchPhase.idle : FetchPhase → Nat
  | .filling _ => 1
  | _ => 0

def Fetching.rank (s : Fetching) : Nat := 2 * s.work + s.phase.idle

theorem FetchPhase.idle_le (phase : FetchPhase) : phase.idle ≤ 1 :=
  by cases phase <;> simp [FetchPhase.idle]

@[simp] theorem taskWork_append (a b : List FetchTask) :
    taskWork (a ++ b) = taskWork a + taskWork b := by
  induction a with
  | nil => simp [taskWork]
  | cons t a ih =>
    simp only [List.cons_append, taskWork, ih]
    omega

@[simp] theorem taskWork_spawned (ws : List Want) :
    taskWork (ws.map (⟨·, none⟩)) = 2 * ws.length := by
  induction ws with
  | nil => rfl
  | cons w ws ih =>
    simp only [List.map_cons, taskWork, ih, FetchTask.work, List.length_cons,
      Option.isSome_none, Bool.false_eq_true,
      if_false]
    omega

/-- A fetch in which nothing has failed, and which waits only while there is a task. -/
structure Healthy (s : Fetching) : Prop where
  phase : s.phase.failed = false
  tasks : ∀ t ∈ s.tasks, ∀ e, t.ended ≠ some (.error e)
  busy : ∀ queue, s.phase = .waiting queue → s.tasks ≠ []

section Replies

variable {hash : Bytes → Hash} {zstd : Zstd}

theorem Supplied.fetched {want : ChunkRef} {replies : List Reply}
    (h : Supplied hash zstd want replies) :
    ∃ bytes n,
      fetchOneChunk hash zstd want.hash (some want.len) maxUnpacked (some replies) =
        .ok (bytes, n) := by
  obtain ⟨r, hr, bytes, hacc⟩ := h
  exact fetchOneLoop_found 0 hr hacc

end Replies

section Steps

variable {hash : Bytes → Hash} {zstd : Zstd} {cfg : FetchConfig}
  {total : Nat} {s t : Fetching} {input : FetchInput}

theorem countBatch_tasks (group : List Want) (batch : List (Hash × Bytes)) (s : Fetching) :
    (countBatch total group batch s).tasks = s.tasks :=
    (countBatch_counts total group batch s).tasks

theorem endTurn_work (total : Nat) (group : List Want) (arrived : List Hash)
    (rest : List (List Want))
    (unanswered : List Want) (next : Option Reply) (pending : List (Hash × Bytes)) (s : Fetching) :
    (endTurn total group arrived rest unanswered false next pending s).tasks = s.tasks ∧
      (endTurn total group arrived rest unanswered false next pending s).phase.work +
      next.isNone.toNat ≤
        2 * rest.length + 2 + 2 * (group ++ rest.flatten ++ unanswered).length ∧
      (endTurn total group arrived rest unanswered false next pending s).phase.failed = false ∧
      ∀ queue, (endTurn total group arrived rest unanswered false next pending s).phase ≠
      .waiting queue := by
  unfold endTurn
  cases next with
  | some r => exact ⟨rfl, by simp [FetchPhase.work], rfl, by simp⟩
  | none =>
    refine ⟨rfl, ?_, rfl, by simp⟩
    have hfew := List.length_filter_le (fun w : Want => decide (w.2.hash ∉ arrived)) group
    simp only [Option.isNone_none, if_true, Bool.false_eq_true, if_false,
      FetchPhase.work, List.length_append,
      Bool.toNat_true] at hfew ⊢
    omega

theorem Healthy.round (hs : Healthy s)
    (hstep : s.step hash zstd cfg total (.round false (.ok ())) = some t) :
    Healthy t ∧ t.work + (FetchInput.round false (.ok ())).advances.toNat ≤ s.work := by
  simp only [Fetching.step] at hstep
  split at hstep
  · rename_i unanswered hphase
    cases hstep
    refine ⟨⟨rfl, hs.tasks, by simp⟩, ?_⟩
    simp only [Fetching.work, hphase, FetchPhase.work, FetchInput.advances,
      Bool.toNat_true, List.length_nil,
      List.flatten_nil, List.nil_append]
    omega
  · rename_i group rest unanswered hphase
    cases hstep
    refine ⟨⟨rfl, hs.tasks, by simp⟩, ?_⟩
    simp only [Fetching.work, Fetching.countQueries, hphase, FetchPhase.work,
      FetchInput.advances, Bool.toNat_true,
      List.length_cons, List.flatten_cons, List.length_append]
    omega
  · cases hstep

theorem Healthy.turn (hs : Healthy s) {next : Option Reply}
    (hstep : s.step hash zstd cfg total (.turn false next none) = some t) :
    Healthy t ∧ t.work + (FetchInput.turn false next none).advances.toNat ≤ s.work := by
  simp only [Fetching.step, Bool.false_eq_true, if_false] at hstep
  split at hstep
  · rename_i group pending arrived rest unanswered hphase
    generalize takeReply hash zstd cfg group pending arrived next = taken at hstep
    have hwork : s.work =
        2 * rest.length + 2 + 2 * (group ++ rest.flatten ++ unanswered).length +
        taskWork s.tasks := by
      rw [Fetching.work, hphase, FetchPhase.work]
    split at hstep
    · cases hstep
      obtain ⟨htasks, hless, hfail, hwait⟩ :=
        endTurn_work total group taken.2 rest unanswered next []
        (countBatch total group taken.1 (s.putMany taken.1))
      rw [countBatch_tasks, show (s.putMany taken.1).tasks = s.tasks from rfl] at htasks
      refine ⟨⟨hfail, fun t ht =>
        hs.tasks t (htasks ▸ ht), fun queue hq => absurd hq (hwait queue)⟩, ?_⟩
      rw [hwork, Fetching.work, htasks]
      simp only [FetchInput.advances]
      omega
    · cases hstep
      obtain ⟨htasks, hless, hfail, hwait⟩ :=
        endTurn_work total group taken.2 rest unanswered next taken.1 s
      refine ⟨⟨hfail, fun t ht =>
        hs.tasks t (htasks ▸ ht), fun queue hq => absurd hq (hwait queue)⟩, ?_⟩
      rw [hwork, Fetching.work, htasks]
      simp only [FetchInput.advances]
      omega
  · cases hstep

theorem Healthy.fill (hs : Healthy s) (hstep : s.step hash zstd cfg total (.fill false) = some t) :
    Healthy t ∧ t.work + (FetchInput.fill false).advances.toNat ≤ s.work := by
  simp only [Fetching.step] at hstep
  split at hstep
  · rename_i queue hphase
    obtain ⟨spawned, hqueue, htasks, -⟩ := keepFull_spec cfg.fetchConcurrency s.tasks queue
    generalize keepFull cfg.fetchConcurrency s.tasks queue = full at hstep hqueue htasks
    obtain ⟨tasks, rest⟩ := full
    simp only at hstep hqueue htasks
    have hclean : ∀ t ∈ tasks, ∀ e, t.ended ≠ some (.error e) := by
      intro t ht e
      rw [htasks] at ht
      rcases List.mem_append.mp ht with ht | ht
      · exact hs.tasks t ht e
      · obtain ⟨w, -, rfl⟩ := List.mem_map.mp ht
        simp
    have hsum : 2 * rest.length + taskWork tasks = s.work := by
      rw [Fetching.work, hphase, FetchPhase.work, htasks, hqueue]
      simp only [taskWork_append, taskWork_spawned, List.length_append]
      omega
    split at hstep
    · cases hstep
      refine ⟨⟨rfl, hclean, by simp [Fetching.finish]⟩, ?_⟩
      simp only [Fetching.work, Fetching.finish, FetchPhase.work,
        FetchInput.advances, Bool.toNat_false] at hsum ⊢
      omega
    · rename_i hsome
      cases hstep
      refine ⟨⟨rfl, hclean, fun _ _ hnil => hsome (by rw [show tasks = [] from hnil]; rfl)⟩, ?_⟩
      simp only [Fetching.work, FetchPhase.work, FetchInput.advances, Bool.toNat_false] at hsum ⊢
      omega
  · cases hstep

theorem Healthy.wake (hs : Healthy s) {joined : Option Nat}
    (hstep : s.step hash zstd cfg total (.wake joined) = some t) :
    Healthy t ∧ t.work + (FetchInput.wake joined).advances.toNat ≤ s.work := by
  simp only [Fetching.step] at hstep
  split at hstep
  · rename_i queue hphase
    split at hstep
    · cases hstep
      exact ⟨⟨rfl, hs.tasks, by simp⟩,
        by simp [Fetching.work, hphase, FetchPhase.work, FetchInput.advances]⟩
    · rename_i k
      split at hstep
      · rename_i want bytes rejected htask
        obtain ⟨before, after, hsplit, herase, -⟩ := split_at_index htask
        cases hstep
        refine ⟨⟨rfl, fun t ht => hs.tasks t (List.mem_of_mem_eraseIdx ht), by simp⟩, ?_⟩
        have htasks : taskWork s.tasks = taskWork before + (1 + taskWork after) := by
          rw [hsplit]
          simp [taskWork, FetchTask.work]
        simp only [Fetching.work, hphase, FetchPhase.work, FetchInput.advances,
          herase, htasks, taskWork_append,
          Option.isSome_some, Bool.toNat_true]
        omega
      · rename_i want e htask
        exact absurd rfl (hs.tasks _ (List.mem_of_getElem? htask) e)
      · cases hstep
  · cases hstep

theorem Healthy.run (hs : Healthy s) {k : Nat} {replies : List Reply}
    (hanswer : ∀ task, s.tasks[k]? = some task → Supplied hash zstd task.want.2 replies)
    (hstep : s.step hash zstd cfg total (.run k (some replies) (.ok ())) = some t) :
    Healthy t ∧ t.work + (FetchInput.run k (some replies) (.ok ())).advances.toNat ≤ s.work := by
  simp only [Fetching.step] at hstep
  split at hstep
  · rename_i want htask
    obtain ⟨bytes, n, hfetch⟩ := (hanswer _ htask).fetched
    obtain ⟨before, after, hsplit, -, hset⟩ := split_at_index htask
    simp only [hfetch] at hstep
    cases hstep
    refine ⟨⟨hs.phase, fun t ht e => ?_, fun queue hq hnil => ?_⟩, ?_⟩
    · rcases List.mem_or_eq_of_mem_set ht with ht | rfl
      · exact hs.tasks t ht e
      · simp
    · have hlen := congrArg List.length hnil
      simp only [hset, List.length_append, List.length_cons, List.length_nil] at hlen
      omega
    · have htasks : taskWork s.tasks = taskWork before + (2 + taskWork after) := by
        rw [hsplit]
        simp [taskWork, FetchTask.work]
      simp only [Fetching.work, Fetching.putMany, hset, htasks, taskWork_append,
        taskWork, FetchTask.work,
        FetchInput.advances, Option.isSome_some, if_true, Bool.toNat_true]
      omega
  · cases hstep

/-- What a step on willing input does: nothing fails, the work never grows, and shrinks with
every input that advances. -/
theorem SuppliedStep.spends (hs : Healthy s) (h : SuppliedStep hash zstd cfg total s input t) :
    Healthy t ∧ t.work + input.advances.toNat ≤ s.work := by
  obtain ⟨hstep, hwill⟩ := h
  cases hwill with
  | round => exact hs.round hstep
  | turn => exact hs.turn hstep
  | fill => exact hs.fill hstep
  | wake => exact hs.wake hstep
  | run hanswer => exact hs.run hanswer hstep

/-- A fetch that is not over can be taken on, if every chunk it may still ask for can be had. -/
theorem Healthy.continues (cfg : FetchConfig) (total : Nat) (hs : Healthy s)
    {good : ChunkRef → List Reply → Prop}
    (hsupply : ∀ task ∈ s.tasks, ∃ replies, good task.want.2 replies ∧
      Supplied hash zstd task.want.2 replies)
    (hopen : ∀ r, s.phase ≠ .done r) :
    ∃ input t, WillingStep hash zstd good cfg total s input t ∧
      SuppliedStep hash zstd cfg total s input t ∧
      t.rank < s.rank := by
  have advance : ∀ (input : FetchInput) {t : Fetching}, s.step hash zstd cfg total input = some t →
      Willing good s input → Willing (Supplied hash zstd) s input → input.advances = true →
      ∃ input t, WillingStep hash zstd good cfg total s input t ∧
      SuppliedStep hash zstd cfg total s input t ∧
        t.rank < s.rank := by
    intro input t hstep hwill hsupplied hadvances
    refine ⟨input, t, ⟨hstep, hwill⟩, ⟨hstep, hsupplied⟩, ?_⟩
    have hless := (SuppliedStep.spends hs ⟨hstep, hsupplied⟩).2
    have hidle := t.phase.idle_le
    rw [hadvances, Bool.toNat_true] at hless
    unfold Fetching.rank
    omega
  cases hphase : s.phase with
  | done r => exact absurd hphase (hopen r)
  | rounds rest unanswered =>
    cases rest with
    | nil =>
      exact advance (.round false (.ok ())) (by simp only [Fetching.step, hphase]; rfl)
        .round .round rfl
    | cons group rest =>
      exact advance (.round false (.ok ())) (by simp only [Fetching.step, hphase]; rfl)
        .round .round rfl
  | draining group pending arrived rest unanswered =>
    obtain ⟨t, ht⟩ : ∃ t, s.step hash zstd cfg total (.turn false none none) = some t := by
      simp only [Fetching.step, hphase]
      rw [← apply_ite some]
      exact ⟨_, rfl⟩
    exact advance _ ht .turn .turn rfl
  | filling queue =>
    obtain ⟨t, ht, hidle⟩ : ∃ t, s.step hash zstd cfg total (.fill false) = some t ∧
        t.phase.idle = 0 := by
      simp only [Fetching.step, hphase]
      split
      · exact ⟨_, rfl, rfl⟩
      · exact ⟨_, rfl, rfl⟩
    refine ⟨_, t, ⟨ht, .fill⟩, ⟨ht, .fill⟩, ?_⟩
    have hle := (SuppliedStep.spends hs ⟨ht, .fill⟩).2
    unfold Fetching.rank
    rw [hidle, hphase, FetchPhase.idle]
    omega
  | waiting queue =>
    obtain ⟨task, tasks, htasks⟩ := List.exists_cons_of_ne_nil (hs.busy queue hphase)
    have hfirst : s.tasks[0]? = some task := by rw [htasks]; rfl
    obtain ⟨want, ended⟩ := task
    cases ended with
    | none =>
      obtain ⟨replies, hgood, hreplies⟩ := hsupply _ (List.mem_of_getElem? hfirst)
      obtain ⟨bytes, n, hfetch⟩ := hreplies.fetched
      have honly : ∀ task, s.tasks[0]? = some task → task = ⟨want, none⟩ :=
        fun task htask => Option.some.inj (htask.symm.trans hfirst)
      exact advance (.run 0 (some replies) (.ok ()))
        (by simp only [Fetching.step, hfirst, hfetch]; rfl)
        (.run fun task htask => honly task htask ▸ hgood)
          (.run fun task htask => honly task htask ▸ hreplies) rfl
    | some r =>
      cases r with
      | error e => exact absurd rfl (hs.tasks _ (List.mem_of_getElem? hfirst) e)
      | ok got =>
        exact advance (.wake (some 0)) (by simp only [Fetching.step, hphase, hfirst]; rfl)
          .wake .wake rfl

end Steps

theorem sliceChunks_length_le {α : Type} (n : Nat) (cur xs : List α) :
    (sliceChunks n cur xs).length ≤ cur.length + xs.length := by
  induction xs generalizing cur with
  | nil => cases cur <;> simp [sliceChunks]
  | cons x xs ih =>
    simp only [sliceChunks]
    split
    · have hrest := ih []
      simp only [List.length_cons, List.length_nil] at hrest ⊢
      omega
    · have hrest := ih (cur ++ [x])
      simp only [List.length_append, List.length_cons, List.length_nil] at hrest ⊢
      omega

section Runs

variable {hash : Bytes → Hash} {zstd : Zstd} {cfg : FetchConfig}
  {index : TreeIndex} {store : ChunkMap}
  {s t : Fetching}

def TreeIndex.fetching (index : TreeIndex) (cfg : FetchConfig) (store : ChunkMap) : Fetching :=
  fetchMissing cfg index.neededChunkRefs store index.neededChunks.length
    (.ok (store.hasMany (index.neededChunkRefs.map ChunkRef.hash)))

theorem TreeIndex.absent_nodup (index : TreeIndex) (store : ChunkMap) :
    ((absent store index.neededChunkRefs).map ChunkRef.hash).Nodup := by
  have hall := index.neededChunks_nodup
  rw [← index.neededChunkRefs_hashes] at hall
  exact hall.sublist ((List.filter_sublist).map _)

theorem TreeIndex.neededChunks_length (index : TreeIndex) :
    index.neededChunks.length = index.neededChunkRefs.length := by
  rw [← index.neededChunkRefs_hashes, List.length_map]

structure Faring (hash : Bytes → Hash) (index : TreeIndex) (store : ChunkMap)
    (s : Fetching) : Prop where
  healthy : Healthy s
  sound : SoundFetch hash index.neededChunks.length store (absent store index.neededChunkRefs) s

theorem Faring.start (hash : Bytes → Hash) (cfg : FetchConfig) (index : TreeIndex)
    (store : ChunkMap) :
    Faring hash index store (index.fetching cfg store) ∧
      (index.fetching cfg store).work ≤ 4 * (absent store index.neededChunkRefs).length + 1 := by
  have hsound : SoundFetch hash index.neededChunks.length store (absent store index.neededChunkRefs)
      (index.fetching cfg store) := by
    rw [TreeIndex.fetching, index.neededChunks_length]
    exact fetchMissing_sound hash cfg index.neededChunkRefs store
  have hzip : index.neededChunkRefs.zip (store.hasMany (index.neededChunkRefs.map ChunkRef.hash)) =
      index.neededChunkRefs.map fun c => (c, store.has c.hash) := by
    have hz := List.zip_map' (f := id) (g := fun c : ChunkRef => store.has c.hash)
      (l := index.neededChunkRefs)
    simpa [ChunkMap.hasMany, Function.comp_def] using hz
  have split := splitPresence_spec store index.neededChunks.length 0 index.neededChunkRefs
    (Fetching.idle store (.filling [])) []
  suffices h : Healthy (index.fetching cfg store) ∧
      (index.fetching cfg store).work ≤ 4 * (absent store index.neededChunkRefs).length + 1 from
    ⟨⟨h.1, hsound⟩, h.2⟩
  clear hsound
  simp only [TreeIndex.fetching, fetchMissing, hzip]
  generalize splitPresence index.neededChunks.length 0
    (index.neededChunkRefs.map fun c => (c, store.has c.hash))
    (Fetching.idle store (.filling [])) [] = r at split
  obtain ⟨u, missing⟩ := r
  have htasks : u.tasks = [] := split.tasks
  have hlen : missing.length = (absent store index.neededChunkRefs).length := by
    have := congrArg List.length split.missing
    simpa using this
  simp only
  split
  · have hfew := sliceChunks_length_le cfg.batchSize [] missing
    have hflat : (sliceChunks cfg.batchSize [] missing).flatten = missing :=
      sliceChunks_flatten _ _ _
    refine ⟨⟨rfl, by simp [htasks], by simp⟩, ?_⟩
    simp only [Fetching.work, FetchPhase.work, htasks, taskWork,
      hflat, List.append_nil, List.length_nil] at hfew ⊢
    omega
  · refine ⟨⟨rfl, by simp [htasks], by simp⟩, ?_⟩
    simp only [Fetching.work, FetchPhase.work, htasks, taskWork]
    omega

theorem Faring.step {input : FetchInput} (h : Faring hash index store s)
    (hstep : SuppliedStep hash zstd cfg index.neededChunks.length s input t) :
    Faring hash index store t :=
  ⟨(SuppliedStep.spends h.healthy hstep).1, h.sound.step (index.absent_nodup store) hstep.1⟩

theorem Faring.complete (h : Faring hash index store s) {stats : TransferStats}
    (hdone : s.phase = .done (.ok stats)) :
    ∀ c ∈ index.neededChunkRefs, s.store.has c.hash = true := by
  intro c hc
  rw [h.sound.safe.store, ChunkMap.has_putMany]
  cases hhas : store.has c.hash with
  | true => exact .inl rfl
  | false =>
    refine .inr ((h.sound.returned hdone).1.mem_iff.mpr (List.mem_map_of_mem ?_))
    exact List.mem_filter.mpr ⟨hc, by simp [hhas]⟩

theorem Faring.continues (h : Faring hash index store s) {good : ChunkRef → List Reply → Prop}
    (hsupply : ∀ c ∈ absent store index.neededChunkRefs, ∃ replies, good c replies ∧
      Supplied hash zstd c replies)
    (hopen : ¬∃ stats, s.phase = .done (.ok stats)) :
    ∃ input t, WillingStep hash zstd good cfg index.neededChunks.length s input t ∧
      Faring hash index store t ∧
      t.rank < s.rank := by
  have hphase : ∀ r, s.phase ≠ .done r := by
    intro r hr
    cases r with
    | ok stats => exact hopen ⟨stats, hr⟩
    | error e =>
      have hfail := h.healthy.phase
      rw [hr] at hfail
      cases hfail
  obtain ⟨input, t, hstep, hsupplied, hrank⟩ := h.healthy.continues cfg index.neededChunks.length
    (fun task ht => hsupply _ (h.sound.safe.tasks task ht)) hphase
  exact ⟨input, t, hstep, h.step hsupplied, hrank⟩

end Runs

/-- Among peers of whom some are willing a fetch cannot fail: at no moment of a run, however
many other replies come in whatever order, it has; it takes at most `4 n + 1` inputs that
advance it, `n` being the number of absent chunks; and from every moment on it can be brought
to its end, with all chunks in the store. -/
theorem fetch_missing_live {hash : Bytes → Hash} {zstd : Zstd} {cfg : FetchConfig}
    {index : TreeIndex}
    {store : ChunkMap} {taken : List (Fetching × FetchInput)} {s : Fetching}
    (hrun : Runs.Path (SuppliedStep hash zstd cfg index.neededChunks.length)
      (index.fetching cfg store) taken s) :
    s.phase.failed = false ∧
      taken.countP (fun p => p.2.advances) ≤ 4 * (absent store index.neededChunkRefs).length + 1 ∧
      ((∀ c ∈ absent store index.neededChunkRefs, ∃ replies, Supplied hash zstd c replies) →
        ∃ rest t stats, Runs.Path (SuppliedStep hash zstd cfg index.neededChunks.length) s rest t ∧
          t.phase = .done (.ok stats) ∧ ∀ c ∈ index.neededChunkRefs,
          t.store.has c.hash = true) := by
  have start := Faring.start hash cfg index store
  have hs : Faring hash index store s := hrun.invariant (fun _ _ _ h hstep => h.step hstep) start.1
  refine ⟨hs.healthy.phase, ?_, fun hsupply => ?_⟩
  · have hspent :=
      hrun.spends (I := Faring hash index store) (w := Fetching.work) (c := FetchInput.advances)
      (fun _ _ _ h hstep => h.step hstep)
      (fun _ _ _ h hstep => Nat.le_of_add_right_le (SuppliedStep.spends h.healthy hstep).2)
      (fun u input v h hstep hcounts => ?_) start.1
    · have hbound := start.2
      omega
    · have hless := (SuppliedStep.spends h.healthy hstep).2
      rw [hcounts, Bool.toNat_true] at hless
      omega
  · obtain ⟨rest, t, hpath, stats, hdone⟩ := Runs.Path.completes (I := Faring hash index store)
      (r := Fetching.rank) (D := fun t => ∃ stats, t.phase = .done (.ok stats))
      (fun u h hopen => h.continues (fun c hc => (hsupply c hc).imp fun _ hr => ⟨hr, hr⟩) hopen) hs
    have ht : Faring hash index store t := hpath.invariant (fun _ _ _ h hstep => h.step hstep) hs
    exact ⟨rest, t, stats, hpath, hdone, ht.complete hdone⟩

def forgedReply : Reply :=
  .ok ⟨"s/blake3/" ++ (shortHash [97, 98, 99]).toHex, encChunk, [0, 120, 121, 122]⟩

theorem pair_absent : absent (fun _ => none) twoChunkIndex.neededChunkRefs =
    [⟨shortHash [97, 98, 99], 3⟩, ⟨shortHash [120, 121, 122], 3⟩] := by decide +kernel

/-- A round has begun and has brought a forgery; the end is still in reach. -/
theorem fetch_missing_live_pair : ∃ taken s rest t stats,
    Runs.Path (SuppliedStep shortHash none pairConfig 2)
    (twoChunkIndex.fetching pairConfig fun _ => none) taken s ∧
      taken.map Prod.snd = [.round false (.ok ()), .turn false (some forgedReply) none] ∧
      Runs.Path (SuppliedStep shortHash none pairConfig 2) s rest t ∧ t.phase = .done (.ok stats) ∧
      ∀ c ∈ twoChunkIndex.neededChunkRefs, t.store.has c.hash = true := by
  have hneeded : twoChunkIndex.neededChunks.length = 2 := by decide +kernel
  obtain ⟨taken, s, hinputs, hrun⟩ : ∃ taken s,
      taken.map Prod.snd = [.round false (.ok ()), .turn false (some forgedReply) none] ∧
      Runs.Path (SuppliedStep shortHash none pairConfig 2)
      (twoChunkIndex.fetching pairConfig fun _ => none) taken s :=
    ⟨_, _, rfl, .cons ⟨rfl, .round⟩ (.cons ⟨rfl, .turn⟩ .nil)⟩
  rw [← hneeded] at hrun ⊢
  obtain ⟨rest, t, stats, hrest, hdone, hall⟩ := (fetch_missing_live hrun).2.2 fun c hc => by
    rw [pair_absent] at hc
    rcases List.mem_cons.mp hc with rfl | hc
    · exact ⟨_, abcReply, List.mem_singleton.mpr rfl, [97, 98, 99], rfl⟩
    · rw [List.mem_singleton.mp hc]
      exact ⟨_, .ok ⟨"", encChunk, [0, 120, 121, 122]⟩, List.mem_singleton.mpr rfl,
        [120, 121, 122], rfl⟩
  exact ⟨taken, s, rest, t, stats, hrun, hinputs, hrest, hdone, hall⟩

end Zblob

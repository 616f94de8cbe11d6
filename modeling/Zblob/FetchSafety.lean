import Mathlib.Data.List.Perm.Basic
import Mathlib.Data.List.Count
import Zblob.Fetch
import Zblob.Lib.Runs

/-!
What a fetch has put into the store and what it has counted, after any replies in any order.
Every needed chunk that was absent is in one place at a time: in the store, pending in a
round, in the hands of a task, or still to be asked for.
-/

set_option autoImplicit false

namespace Zblob

theorem tryUnpack_length {zstd : Zstd} {payload bytes : Bytes}
    (h : tryUnpack zstd payload = .ok bytes) : bytes.length ≤ maxUnpacked := by
  unfold tryUnpack at h
  split at h
  · split at h
    · cases h
    · cases h
      omega
  · split at h
    · cases h
    · split at h
      · cases h
      · split at h
        · cases h
        · split at h
          · cases h
          · split at h
            · cases h
            · cases h
              omega
  · cases h
  · cases h

/-- What a container unpacks to is short enough for its length to be compared as a `u32`. -/
theorem tryUnpack_mod {zstd : Zstd} {payload bytes : Bytes}
    (h : tryUnpack zstd payload = .ok bytes) : bytes.length % 4294967296 = bytes.length := by
  have hle := tryUnpack_length h
  unfold maxUnpacked at hle
  omega

section Replies

variable {hash : Bytes → Hash} {zstd : Zstd}

theorem expectedLen_some {wanted : List ChunkRef} {h : Hash} {len : UInt32}
    (hl : expectedLen wanted h = some len) : ∃ c ∈ wanted, c.hash = h ∧ c.len = len := by
  obtain ⟨c, hc, rfl⟩ := Option.map_eq_some_iff.mp hl
  have hmem := List.mem_of_find?_eq_some hc
  have heq := List.find?_some hc
  exact ⟨c, List.mem_reverse.mp hmem, by simpa using heq, rfl⟩

/-- What is taken from a batch is what its reply unpacks to, of the length asked for. -/
theorem acceptBatchReply_unpacks {cfg : TreeConfig} {sample : Sample} {wanted : List ChunkRef}
    {h : Hash} {bytes : Bytes}
    (ha : acceptBatchReply hash zstd cfg sample wanted = some (h, bytes)) :
    ∃ len, expectedLen wanted h = some len ∧ tryUnpack zstd sample.payload = .ok bytes ∧
      hash bytes = h ∧ bytes.length = len.toNat := by
  unfold acceptBatchReply at ha
  split at ha
  · cases ha
  · split at ha
    · split at ha
      · cases ha
      · simp only [bind, Option.bind_eq_some_iff] at ha
        obtain ⟨h', -, len, hlen, ha⟩ := ha
        split at ha
        · cases ha
        · simp only [Option.bind_eq_some_iff] at ha
          obtain ⟨b, hb, ha⟩ := ha
          split at ha
          · cases ha
          · rename_i hok
            cases ha
            have hun : tryUnpack zstd sample.payload = .ok bytes := by
              cases hu : tryUnpack zstd sample.payload with
              | error e => simp [hu, Except.toOption] at hb
              | ok b' =>
                simp only [hu, Except.toOption, Option.some.injEq] at hb
                rw [hb]
            have hmod := tryUnpack_mod hun
            simp only [not_or, not_not] at hok
            exact ⟨len, hlen, hun, hok.2, by omega⟩
    · cases ha

theorem acceptBatchReply_some {cfg : TreeConfig} {sample : Sample} {wanted : List ChunkRef}
    {h : Hash} {bytes : Bytes}
    (ha : acceptBatchReply hash zstd cfg sample wanted = some (h, bytes)) :
    ∃ c ∈ wanted, c.hash = h ∧ hash bytes = h ∧ bytes.length = c.len.toNat := by
  obtain ⟨len, hlen, -, hhash, hsize⟩ := acceptBatchReply_unpacks ha
  obtain ⟨c, hc, hh, rfl⟩ := expectedLen_some hlen
  exact ⟨c, hc, hh, hhash, hsize⟩

section Receive

variable {want : Hash} {expectedLen : Option UInt32} {maxBytes : Nat}

theorem judgeReply_accepted {r : Reply} {bytes : Bytes} :
    judgeReply hash zstd want expectedLen maxBytes r = .accepted bytes ↔
      ∃ sample, r = .ok sample ∧ sample.encoding = encChunk ∧
        sample.payload.length ≤ (expectedLen.map UInt32.toNat).getD maxBytes + 1 + 4 ∧
        tryUnpack zstd sample.payload = .ok bytes ∧
        (∀ n, expectedLen = some n → bytes.length = n.toNat) ∧
        hash bytes = want := by
  cases r with
  | error e => simp [judgeReply]
  | ok sample =>
    rw [judgeReply]
    split_ifs with henc hsize
    · simp [henc]
    · simp only [false_iff]
      rintro ⟨_, hr, -, hle, -⟩
      cases hr
      omega
    · rw [not_not] at henc
      cases hun : tryUnpack zstd sample.payload with
      | error e => simp [hun]
      | ok b =>
        have hmod := tryUnpack_mod hun
        simp only
        split_ifs with hbad
        · simp only [false_iff]
          rintro ⟨_, hr, -, -, hb, hlen, hhash⟩
          cases hr
          cases hun.symm.trans hb
          rcases hbad with hbad | hbad
          · cases expectedLen with
            | none => simp at hbad
            | some n =>
              rw [Option.any_some, decide_eq_true_eq, hmod] at hbad
              exact hbad (hlen n rfl)
          · exact hbad hhash
        · rw [not_or, not_not] at hbad
          simp only [Judged.accepted.injEq]
          constructor
          · rintro rfl
            refine ⟨sample, rfl, henc, by omega, hun, fun n hn => ?_, hbad.2⟩
            have := hbad.1
            rw [hn, Option.any_some, decide_eq_true_eq, not_not, hmod] at this
            exact this
          · rintro ⟨_, hr, -, -, hb, -⟩
            cases hr
            cases hun.symm.trans hb
            rfl

theorem fetchOneLoop_ok {rejected n : Nat} {replies : List Reply} {bytes : Bytes}
    (h : fetchOneLoop hash zstd want expectedLen maxBytes rejected replies = .ok (bytes, n)) :
    ∃ r ∈ replies, judgeReply hash zstd want expectedLen maxBytes r = .accepted bytes := by
  induction replies generalizing rejected with
  | nil => cases h
  | cons r rest ih =>
    rw [fetchOneLoop] at h
    cases hr : judgeReply hash zstd want expectedLen maxBytes r with
    | ignored =>
      rw [hr] at h
      obtain ⟨q, hq, hok⟩ := ih h
      exact ⟨q, List.mem_cons_of_mem _ hq, hok⟩
    | rejected =>
      rw [hr] at h
      obtain ⟨q, hq, hok⟩ := ih h
      exact ⟨q, List.mem_cons_of_mem _ hq, hok⟩
    | accepted b =>
      rw [hr] at h
      cases h
      exact ⟨r, List.mem_cons_self, hr⟩

theorem fetchOneLoop_first {before rest : List Reply} {r : Reply} {bytes : Bytes} (rejected : Nat)
    (hnone : ∀ q ∈ before, ∀ b, judgeReply hash zstd want expectedLen maxBytes q ≠ .accepted b)
    (hr : judgeReply hash zstd want expectedLen maxBytes r = .accepted bytes) :
    ∃ n, fetchOneLoop hash zstd want expectedLen maxBytes rejected
      (before ++ r :: rest) = .ok (bytes, n) := by
  induction before generalizing rejected with
  | nil => exact ⟨rejected, by rw [List.nil_append, fetchOneLoop, hr]⟩
  | cons q before ih =>
    have hlater := fun rejected => ih rejected fun q hq => hnone q (List.mem_cons_of_mem _ hq)
    rw [List.cons_append, fetchOneLoop]
    cases hq : judgeReply hash zstd want expectedLen maxBytes q with
    | ignored => exact hlater rejected
    | rejected => exact hlater (rejected + 1)
    | accepted b => exact absurd hq (hnone q List.mem_cons_self b)

theorem fetchOneLoop_found {replies : List Reply} (rejected : Nat)
    {r : Reply} {bytes : Bytes} (hr : r ∈ replies)
    (hacc : judgeReply hash zstd want expectedLen maxBytes r = .accepted bytes) :
    ∃ b n, fetchOneLoop hash zstd want expectedLen maxBytes rejected replies = .ok (b, n) := by
  induction replies generalizing rejected with
  | nil => cases hr
  | cons q rest ih =>
    rw [fetchOneLoop]
    cases hq : judgeReply hash zstd want expectedLen maxBytes q with
    | accepted b => exact ⟨b, rejected, rfl⟩
    | ignored =>
      rcases List.mem_cons.mp hr with rfl | hr
      · rw [hacc] at hq
        cases hq
      · exact ih rejected hr
    | rejected =>
      rcases List.mem_cons.mp hr with rfl | hr
      · rw [hacc] at hq
        cases hq
      · exact ih (rejected + 1) hr

theorem fetchOneChunk_ok {query : Option (List Reply)} {bytes : Bytes} {n : Nat}
    (h : fetchOneChunk hash zstd want expectedLen maxBytes query = .ok (bytes, n)) :
    ∃ replies r, query = some replies ∧ r ∈ replies ∧
      judgeReply hash zstd want expectedLen maxBytes r = .accepted bytes := by
  cases query with
  | none => cases h
  | some replies =>
    obtain ⟨r, hr, hacc⟩ := fetchOneLoop_ok h
    exact ⟨replies, r, rfl, hr, hacc⟩

theorem fetchOneChunk_sound {query : Option (List Reply)} {bytes : Bytes} {n : Nat}
    (h : fetchOneChunk hash zstd want expectedLen maxBytes query = .ok (bytes, n)) :
    hash bytes = want ∧ ∀ len, expectedLen = some len → bytes.length = len.toNat := by
  obtain ⟨-, r, -, -, hacc⟩ := fetchOneChunk_ok h
  obtain ⟨-, -, -, -, -, hlen, hhash⟩ := judgeReply_accepted.mp hacc
  exact ⟨hhash, hlen⟩

end Receive

end Replies

theorem noteRef_hashes (order : List ChunkRef) (c : ChunkRef) :
    (noteRef order c).map ChunkRef.hash = noteHash (order.map ChunkRef.hash) c := by
  unfold noteRef noteHash
  split
  · rw [List.map_map]
    refine List.map_congr_left fun x _ => ?_
    simp only [Function.comp]
    split <;> rfl
  · simp

theorem noteHash_nodup {out : List Hash} (h : out.Nodup) (c : ChunkRef) :
    (noteHash out c).Nodup := by
  unfold noteHash
  split
  · exact h
  · rename_i hnew
    exact List.nodup_append.mpr ⟨h, List.nodup_singleton _, by
      rintro a ha b hb rfl
      exact hnew (List.mem_singleton.mp hb ▸ ha)⟩

theorem foldl_noteRef (chunks : List ChunkRef) (order : List ChunkRef) :
    (chunks.foldl noteRef order).map ChunkRef.hash =
      chunks.foldl noteHash (order.map ChunkRef.hash) := by
  induction chunks generalizing order with
  | nil => rfl
  | cons c rest ih => rw [List.foldl_cons, List.foldl_cons, ih, noteRef_hashes]

theorem TreeIndex.neededChunkRefs_hashes (index : TreeIndex) :
    index.neededChunkRefs.map ChunkRef.hash = index.neededChunks := foldl_noteRef _ _

theorem TreeIndex.neededChunks_nodup (index : TreeIndex) : index.neededChunks.Nodup := by
  have hfold : ∀ (chunks : List ChunkRef) (out : List Hash), out.Nodup →
      (chunks.foldl noteHash out).Nodup := by
    intro chunks
    induction chunks with
    | nil => exact fun out h => h
    | cons c rest ih => exact fun out h => ih _ (noteHash_nodup h c)
  exact hfold _ _ List.nodup_nil

theorem sliceChunks_flatten {α : Type} (n : Nat) (cur xs : List α) :
    (sliceChunks n cur xs).flatten = cur ++ xs := by
  induction xs generalizing cur with
  | nil => cases cur <;> simp [sliceChunks]
  | cons x xs ih =>
    simp only [sliceChunks]
    split
    · simp [ih]
    · simp [ih]

/-- The pipeline takes from the front of the queue, and leaves something only when full. -/
theorem keepFull_spec (n : Nat) (tasks : List FetchTask) (queue : List Want) :
    ∃ spawned, queue = spawned ++ (keepFull n tasks queue).2 ∧
      (keepFull n tasks queue).1 = tasks ++ spawned.map (⟨·, none⟩) ∧
      ((keepFull n tasks queue).2 = [] ∨ n ≤ (keepFull n tasks queue).1.length) := by
  induction queue generalizing tasks with
  | nil => exact ⟨[], by simp [keepFull]⟩
  | cons w queue ih =>
    simp only [keepFull]
    split
    · obtain ⟨spawned, hq, ht, hfull⟩ := ih (tasks ++ [⟨w, none⟩])
      refine ⟨w :: spawned, ?_, ?_, hfull⟩
      · rw [List.cons_append, ← hq]
      · rw [ht]
        simp
    · exact ⟨[], by simp, by simp, .inr (by simp only; omega)⟩

def FetchPhase.wants : FetchPhase → List Want
  | .rounds rest unanswered => rest.flatten ++ unanswered
  | .draining group _ _ rest unanswered => group ++ rest.flatten ++ unanswered
  | .filling queue => queue
  | .waiting queue => queue
  | .done _ => []

def FetchPhase.pending : FetchPhase → List (Hash × Bytes)
  | .draining _ pending _ _ _ => pending
  | _ => []

/-- The addresses that neither the store nor a task has: a group's chunks that have not
arrived, those that have but are not flushed, and everything after it. -/
def FetchPhase.live : FetchPhase → List Hash
  | .draining group pending arrived rest unanswered =>
    (group.filter fun w => w.2.hash ∉ arrived).map Want.hash ++ pending.map Prod.fst ++
      (rest.flatten ++ unanswered).map Want.hash
  | phase => phase.wants.map Want.hash

def FetchTask.landed (t : FetchTask) : Option (Hash × Bytes) :=
  match t.ended with
  | some (.ok (bytes, _)) => some (t.want.hash, bytes)
  | _ => none

def FetchTask.owed (t : FetchTask) : Option Hash :=
  match t.ended with
  | some (.ok _) => none
  | _ => some t.want.hash

def landedChunks (tasks : List FetchTask) : List (Hash × Bytes) := tasks.filterMap FetchTask.landed

def owedHashes (tasks : List FetchTask) : List Hash := tasks.filterMap FetchTask.owed

def totalLen (chunks : List (Hash × Bytes)) : Nat := (chunks.map fun p => p.2.length).sum

def absent (store : ChunkMap) (needed : List ChunkRef) : List ChunkRef :=
  needed.filter fun c => !store.has c.hash

section Invariant

variable (hash : Bytes → Hash) (total : Nat) (store : ChunkMap) (missing : List ChunkRef)

/-- A put that was asked for, with the bytes that its address and its declared length say. -/
def GoodPut (p : Hash × Bytes) : Prop :=
  ∃ c ∈ missing, c.hash = p.1 ∧ hash p.2 = p.1 ∧ p.2.length = c.len.toNat

/-- What holds of a fetch at all times, also after it has failed. -/
structure SafeFetch (s : Fetching) : Prop where
  puts : ∀ p ∈ s.puts, GoodPut hash missing p
  pending : ∀ p ∈ s.phase.pending, GoodPut hash missing p
  wants : ∀ w ∈ s.phase.wants, w.2 ∈ missing
  tasks : ∀ t ∈ s.tasks, t.want.2 ∈ missing
  store : s.store = store.putMany s.puts

def Reported (s : Fetching) : Prop :=
  s.received = 0 ∨ ∃ i b, s.events.getLast? = some (.chunk i s.received total b)

/-- What holds of a fetch that has not failed: no chunk is lost between the phases, none
is counted twice. -/
structure ExactFetch (s : Fetching) : Prop where
  balance : ∀ h, (s.puts.map Prod.fst).count h + s.phase.live.count h +
    (owedHashes s.tasks).count h =
    (missing.map ChunkRef.hash).count h
  fetched : s.stats.chunksFetched + (landedChunks s.tasks).length = s.puts.length
  bytes : s.stats.bytesFetched + totalLen (landedChunks s.tasks) = totalLen s.puts
  received : s.received = s.stats.chunksResumed + s.stats.chunksFetched
  resumed : s.stats.chunksResumed + missing.length = total
  reported : Reported total s
  returned : ∀ stats, s.phase = .done (.ok stats) → stats = s.stats ∧ s.tasks = []

def FetchPhase.failed : FetchPhase → Bool
  | .done (.error _) => true
  | _ => false

structure SoundFetch (s : Fetching) : Prop where
  safe : SafeFetch hash store missing s
  exact : s.phase.failed = false → ExactFetch total missing s

end Invariant

@[simp] theorem ChunkMap.putMany_append (m : ChunkMap) (a b : List (Hash × Bytes)) :
    m.putMany (a ++ b) = (m.putMany a).putMany b := by simp [ChunkMap.putMany]

theorem ChunkMap.has_putMany (m : ChunkMap) (ps : List (Hash × Bytes)) (h : Hash) :
    (m.putMany ps).has h = true ↔ m.has h = true ∨ h ∈ ps.map Prod.fst := by
  induction ps generalizing m with
  | nil => simp [ChunkMap.putMany]
  | cons p ps ih =>
    have hcons : m.putMany (p :: ps) = (m.put p).putMany ps := rfl
    rw [hcons, ih]
    by_cases hp : h = p.1
    · simp [ChunkMap.has, ChunkMap.put, hp]
    · simp [ChunkMap.has, ChunkMap.put, hp]

@[simp] theorem totalLen_nil : totalLen [] = 0 := rfl

@[simp] theorem totalLen_cons (p : Hash × Bytes) (ps : List (Hash × Bytes)) :
    totalLen (p :: ps) = p.2.length + totalLen ps := by simp [totalLen]

@[simp] theorem totalLen_append (a b : List (Hash × Bytes)) :
    totalLen (a ++ b) = totalLen a + totalLen b := by simp [totalLen]

@[simp] theorem landedChunks_append (a b : List FetchTask) :
    landedChunks (a ++ b) = landedChunks a ++ landedChunks b := List.filterMap_append

@[simp] theorem owedHashes_append (a b : List FetchTask) :
    owedHashes (a ++ b) = owedHashes a ++ owedHashes b := List.filterMap_append

section Tasks

variable (w : Want) (bytes : Bytes) (n : Nat) (e : BlobError) (ts : List FetchTask)

@[simp] theorem landedChunks_fresh : landedChunks (⟨w, none⟩ :: ts) = landedChunks ts := rfl

@[simp] theorem landedChunks_failed :
    landedChunks (⟨w, some (.error e)⟩ :: ts) = landedChunks ts := rfl

@[simp] theorem landedChunks_ok :
    landedChunks (⟨w, some (.ok (bytes, n))⟩ :: ts) = (w.hash, bytes) :: landedChunks ts := rfl

@[simp] theorem owedHashes_fresh : owedHashes (⟨w, none⟩ :: ts) = w.hash :: owedHashes ts := rfl

@[simp] theorem owedHashes_failed :
    owedHashes (⟨w, some (.error e)⟩ :: ts) = w.hash :: owedHashes ts := rfl

@[simp] theorem owedHashes_ok :
    owedHashes (⟨w, some (.ok (bytes, n))⟩ :: ts) = owedHashes ts := rfl

@[simp] theorem landedChunks_spawned (ws : List Want) :
    landedChunks (ws.map (⟨·, none⟩)) = [] := by
  induction ws with
  | nil => rfl
  | cons w ws ih => exact ih

@[simp] theorem owedHashes_spawned (ws : List Want) :
    owedHashes (ws.map (⟨·, none⟩)) = ws.map Want.hash := by
  induction ws with
  | nil => rfl
  | cons w ws ih => rw [List.map_cons, owedHashes_fresh, ih, List.map_cons]

end Tasks

theorem split_at_index {α : Type} {xs : List α} {k : Nat} {x : α} (h : xs[k]? = some x) :
    ∃ a b, xs = a ++ x :: b ∧ xs.eraseIdx k = a ++ b ∧ ∀ y, xs.set k y = a ++ y :: b := by
  obtain ⟨hk, rfl⟩ := List.getElem?_eq_some_iff.mp h
  refine ⟨xs.take k, xs.drop (k + 1), ?_, List.eraseIdx_eq_take_drop_succ .., fun y => ?_⟩
  · rw [← List.drop_eq_getElem_cons hk, List.take_append_drop]
  · rw [List.set_eq_take_append_cons_drop, if_pos hk]

section Steps

variable {hash : Bytes → Hash} {zstd : Zstd} {cfg : FetchConfig} {total : Nat} {store : ChunkMap}
  {missing : List ChunkRef} {s t : Fetching}

theorem SafeFetch.enter (h : SafeFetch hash store missing s) {phase : FetchPhase}
    (hp : ∀ p ∈ phase.pending, GoodPut hash missing p) (hw : ∀ w ∈ phase.wants, w.2 ∈ missing) :
    SafeFetch hash store missing { s with phase := phase } :=
  ⟨h.puts, hp, hw, h.tasks, h.store⟩

theorem SafeFetch.putMany (h : SafeFetch hash store missing s) {batch : List (Hash × Bytes)}
    (hb : ∀ p ∈ batch, GoodPut hash missing p) :
    SafeFetch hash store missing (s.putMany batch) := by
  refine ⟨fun p hp => ?_, h.pending, h.wants, h.tasks, ?_⟩
  · rcases List.mem_append.mp hp with hp | hp
    · exact h.puts p hp
    · exact hb p hp
  · simp [Fetching.putMany, h.store]

theorem SafeFetch.fail (h : SafeFetch hash store missing s) (e : BlobError) :
    SoundFetch hash total store missing (s.finish (.error e)) :=
  ⟨h.enter (by simp [FetchPhase.pending]) (by simp [FetchPhase.wants]), fun hf => by cases hf⟩

theorem SafeFetch.cancel (h : SafeFetch hash store missing s) :
    SoundFetch hash total store missing (s.cancel total) :=
  ⟨⟨h.puts,
    by simp [Fetching.cancel, FetchPhase.pending], by simp [Fetching.cancel, FetchPhase.wants],
    h.tasks, h.store⟩, fun hf => by cases hf⟩

theorem ExactFetch.enter (h : ExactFetch total missing s) {phase : FetchPhase}
    (hl : ∀ x, phase.live.count x = s.phase.live.count x) (hn : ∀ r, phase ≠ .done r) :
    ExactFetch total missing { s with phase := phase } :=
  ⟨fun x => by rw [hl x]; exact h.balance x, h.fetched, h.bytes, h.received, h.resumed, h.reported,
    fun _ hd => absurd hd (hn _)⟩

theorem ExactFetch.countQueries (h : ExactFetch total missing s) (n : Nat)
    (hn : ∀ r, s.phase ≠ .done r) : ExactFetch total missing (s.countQueries n) :=
  ⟨h.balance, h.fetched, h.bytes, h.received, h.resumed, h.reported, fun _ hd => absurd hd (hn _)⟩

/-- The head of the round loop. -/
theorem SoundFetch.round (h : SoundFetch hash total store missing s) {cancelled : Bool}
    {query : Result Unit} (ht : s.step hash zstd cfg total (.round cancelled query) = some t) :
    SoundFetch hash total store missing t := by
  simp only [Fetching.step] at ht
  split at ht
  · rename_i unanswered hphase
    have hexact := h.exact (by rw [hphase]; rfl)
    have hwants := h.safe.wants
    rw [hphase] at hwants
    cases cancelled with
    | true =>
      cases ht
      exact h.safe.cancel
    | false =>
      cases ht
      refine ⟨h.safe.enter (by simp [FetchPhase.pending]) fun w hw => hwants w ?_, fun _ =>
        hexact.enter (fun x => ?_) (by simp)⟩
      · exact List.mem_append_right _ hw
      · rw [hphase]
        simp [FetchPhase.live, FetchPhase.wants]
  · rename_i group rest unanswered hphase
    have hexact := h.exact (by rw [hphase]; rfl)
    have hwants := h.safe.wants
    rw [hphase] at hwants
    cases cancelled with
    | true =>
      cases ht
      exact h.safe.cancel
    | false =>
      cases query with
      | error e =>
        cases ht
        exact SafeFetch.fail (s := s.countQueries 1) ⟨h.safe.puts, h.safe.pending, h.safe.wants,
          h.safe.tasks, h.safe.store⟩ e
      | ok u =>
        cases ht
        refine ⟨SafeFetch.enter (s := s.countQueries 1) ⟨h.safe.puts, h.safe.pending, h.safe.wants,
          h.safe.tasks, h.safe.store⟩ (by simp [FetchPhase.pending]) fun w hw =>
          hwants w ?_, fun _ =>
          (hexact.countQueries 1 (by rw [hphase]; simp)).enter (fun x => ?_) (by simp)⟩
        · simpa [FetchPhase.wants, or_assoc] using hw
        · have hlive : (s.countQueries 1).phase = s.phase := rfl
          rw [hlive, hphase]
          simp [FetchPhase.live, FetchPhase.wants, List.count_append]
  · cases ht

theorem count_unarrived (group : List Want) (arrived : List Hash) (y : Hash) :
    ((group.filter fun w => w.2.hash ∉ arrived).map Want.hash).count y =
      if y ∈ arrived then 0 else (group.map Want.hash).count y := by
  induction group with
  | nil => simp
  | cons w group ih =>
    by_cases hw : w.2.hash ∈ arrived
    · have hskip : (w :: group).filter (fun w => w.2.hash ∉ arrived) =
          group.filter fun w => w.2.hash ∉ arrived := by simp [hw]
      rw [hskip, ih]
      split
      · rfl
      · rename_i hy
        have hne : w.hash ≠ y := fun he => hy (he ▸ hw)
        simp [hne]
    · have hkeep : (w :: group).filter (fun w => w.2.hash ∉ arrived) =
          w :: group.filter fun w => w.2.hash ∉ arrived := by simp [hw]
      rw [hkeep, List.map_cons, List.count_cons, ih, List.map_cons, List.count_cons]
      by_cases hy : y ∈ arrived
      · have hne : w.hash ≠ y := by
          rintro rfl
          exact hw hy
        simp [hy, hne]
      · simp [hy]

theorem SoundFetch.takeReply (hnd : (missing.map ChunkRef.hash).Nodup) (zstd : Zstd)
    (cfg : FetchConfig) (next : Option Reply) {group : List Want} {pending : List (Hash × Bytes)}
    {arrived : List Hash} {rest : List (List Want)} {unanswered : List Want}
    (hphase : s.phase = .draining group pending arrived rest unanswered)
    (h : SoundFetch hash total store missing s) :
    SoundFetch hash total store missing { s with
      phase := .draining group (takeReply hash zstd cfg group pending arrived next).1
        (takeReply hash zstd cfg group pending arrived next).2 rest unanswered } := by
  have hsame : SoundFetch hash total store missing
      { s with phase := .draining group pending arrived rest unanswered } := hphase ▸ h
  unfold Zblob.takeReply
  split
  · rename_i sample
    cases ha : acceptBatchReply hash zstd cfg.toTreeConfig sample (group.map Prod.snd) with
    | none => exact hsame
    | some p =>
      obtain ⟨x, bytes⟩ := p
      simp only
      split
      · exact hsame
      · rename_i hnew
        obtain ⟨c, hc, hx, hhash, hlen⟩ := acceptBatchReply_some ha
        obtain ⟨w, hw, rfl⟩ := List.mem_map.mp hc
        have hwants := h.safe.wants
        have hpending := h.safe.pending
        rw [hphase] at hwants hpending
        have hmiss : w.2 ∈ missing := hwants w (by simp [FetchPhase.wants, hw])
        refine ⟨h.safe.enter (fun p hp => ?_) hwants, fun hf => ?_⟩
        · rcases List.mem_append.mp hp with hp | hp
          · exact hpending p hp
          · cases List.mem_singleton.mp hp
            exact ⟨w.2, hmiss, hx, hhash, hlen⟩
        · have hexact := h.exact (by rw [hphase]; rfl)
          have hbal := hexact.balance
          rw [hphase] at hbal
          refine hexact.enter (fun y => ?_) (by simp)
          rw [hphase]
          simp only [FetchPhase.live, List.map_append, List.count_append, List.map_cons,
            List.map_nil, count_unarrived] at hbal ⊢
          have hy := hbal y
          have hle : (missing.map ChunkRef.hash).count y ≤ 1 := List.nodup_iff_count_le_one.mp hnd y
          by_cases hyx : y = x
          · -- the address is in the group once, since it is missing once
            subst hyx
            have hone : 1 ≤ (group.map Want.hash).count y :=
              List.count_pos_iff.mpr (List.mem_map.mpr ⟨w, hw, hx⟩)
            rw [if_neg hnew] at hy
            rw [if_pos List.mem_cons_self, if_neg hnew, List.count_singleton_self]
            omega
          · simp [hyx, Ne.symm hyx]
  · exact hsame

structure Counts (total : Nat) (batch : List (Hash × Bytes)) (s t : Fetching) : Prop where
  store : t.store = s.store
  puts : t.puts = s.puts
  tasks : t.tasks = s.tasks
  fetched : t.stats.chunksFetched = s.stats.chunksFetched + batch.length
  bytes : t.stats.bytesFetched = s.stats.bytesFetched + totalLen batch
  resumed : t.stats.chunksResumed = s.stats.chunksResumed
  received : t.received = s.received + batch.length
  reported : Reported total s → Reported total t

theorem reported_count (s : Fetching) (i len rejected : Nat) :
    Reported total (s.count total i len rejected) :=
  .inr ⟨i, s.bytesReceived + len, by simp [Fetching.count]⟩

theorem countBatch_counts (total : Nat) (group : List Want) (batch : List (Hash × Bytes))
    (s : Fetching) :
    Counts total batch s (countBatch total group batch s) := by
  induction batch generalizing s with
  | nil => exact ⟨rfl, rfl, rfl, rfl, rfl, rfl, rfl, id⟩
  | cons p batch ih =>
    let i := (group.find? fun w => w.2.hash = p.1).elim 0 Prod.fst
    have step := ih (s.count total i p.2.length 0)
    refine ⟨step.store, step.puts, step.tasks, ?_, ?_, step.resumed, ?_, fun _ =>
      step.reported (reported_count s i p.2.length 0)⟩
    · exact step.fetched.trans (by simp only [Fetching.count, List.length_cons]; omega)
    · exact step.bytes.trans (by simp [Fetching.count, Nat.add_assoc])
    · exact step.received.trans (by simp only [Fetching.count, List.length_cons]; omega)

theorem SoundFetch.flush {group : List Want} {pending : List (Hash × Bytes)} {arrived : List Hash}
    {rest : List (List Want)} {unanswered : List Want}
    (h : SoundFetch hash total store missing
      { s with phase := .draining group pending arrived rest unanswered }) :
    SoundFetch hash total store missing
      { countBatch total group pending (s.putMany pending) with
        phase := .draining group [] arrived rest unanswered } := by
  have counts := countBatch_counts total group pending (s.putMany pending)
  generalize countBatch total group pending (s.putMany pending) = t at counts ⊢
  have hsafe := h.safe.putMany h.safe.pending
  have hexact := h.exact rfl
  refine ⟨⟨?_, by simp [FetchPhase.pending], h.safe.wants, ?_, ?_⟩,
    fun _ => ⟨fun x => ?_, ?_, ?_, ?_, ?_, ?_, by simp⟩⟩
  · rw [counts.puts]
    exact hsafe.puts
  · rw [counts.tasks]
    exact hsafe.tasks
  · rw [counts.store, counts.puts]
    exact hsafe.store
  · have hx := hexact.balance x
    simp only [FetchPhase.live, List.map_append, List.count_append] at hx
    simp only [counts.puts, counts.tasks, Fetching.putMany, FetchPhase.live, List.map_append,
      List.count_append, List.map_nil, List.count_nil]
    omega
  · have hf := hexact.fetched
    simp only [counts.fetched, counts.tasks, counts.puts, Fetching.putMany,
      List.length_append] at hf ⊢
    omega
  · have hb := hexact.bytes
    simp only [counts.bytes, counts.tasks, counts.puts, Fetching.putMany, totalLen_append] at hb ⊢
    omega
  · have hr := hexact.received
    simp only [counts.received, counts.resumed, counts.fetched, Fetching.putMany] at hr ⊢
    omega
  · simp only [counts.resumed, Fetching.putMany]
    exact hexact.resumed
  · exact counts.reported hexact.reported

theorem SoundFetch.endTurn {group : List Want} {pending : List (Hash × Bytes)} {arrived : List Hash}
    {rest : List (List Want)} {unanswered : List Want} {cancelled : Bool} {next : Option Reply}
    (h : SoundFetch hash total store missing
      { s with phase := .draining group pending arrived rest unanswered })
    (hflushed : next.isNone = true → pending = []) :
    SoundFetch hash total store missing
      (endTurn total group arrived rest unanswered cancelled next pending s) := by
  unfold Zblob.endTurn
  split
  · rename_i hnone
    cases hflushed hnone
    split
    · exact h.safe.cancel
    · refine ⟨h.safe.enter (by simp [FetchPhase.pending]) fun w hw => h.safe.wants w ?_, fun _ =>
        (h.exact rfl).enter (fun x => ?_) (by simp)⟩
      · simp only [FetchPhase.wants, List.mem_append, List.mem_filter] at hw ⊢
        tauto
      · simp only [FetchPhase.live, FetchPhase.wants, List.map_append, List.count_append,
          List.map_nil, List.count_nil]
        omega
  · exact h

theorem SoundFetch.turn (hnd : (missing.map ChunkRef.hash).Nodup)
    (h : SoundFetch hash total store missing s) {cancelled : Bool} {next : Option Reply}
    {failed : Option (Nat × BlobError)}
    (ht : s.step hash zstd cfg total (.turn cancelled next failed) = some t) :
    SoundFetch hash total store missing t := by
  simp only [Fetching.step] at ht
  split at ht
  · rename_i group pending arrived rest unanswered hphase
    generalize (if cancelled = true then none else next) = got at ht
    have htaken := SoundFetch.takeReply hnd zstd cfg got hphase h
    generalize Zblob.takeReply hash zstd cfg group pending arrived got = taken at ht htaken
    split at ht
    · cases failed with
      | some f =>
        cases ht
        exact (htaken.safe.putMany fun p hp =>
          htaken.safe.pending p (List.mem_of_mem_take hp)).fail f.2
      | none =>
        cases ht
        exact htaken.flush.endTurn fun _ => rfl
    · rename_i hkeep
      cases ht
      refine htaken.endTurn fun hnone => ?_
      by_contra hne
      exact hkeep (.inr ⟨hnone, hne⟩)
  · cases ht

theorem SoundFetch.fill (h : SoundFetch hash total store missing s) {cancelled : Bool}
    (ht : s.step hash zstd cfg total (.fill cancelled) = some t) :
    SoundFetch hash total store missing t := by
  simp only [Fetching.step] at ht
  split at ht
  · rename_i queue hphase
    have hexact := h.exact (by rw [hphase]; rfl)
    have hwants := h.safe.wants
    rw [hphase] at hwants
    obtain ⟨spawned, hqueue, htasks, hfull⟩ := keepFull_spec cfg.fetchConcurrency s.tasks queue
    generalize keepFull cfg.fetchConcurrency s.tasks queue = full at ht hqueue htasks hfull
    obtain ⟨tasks, rest⟩ := full
    simp only at ht hqueue htasks hfull
    -- the state after spawning, from which all three ways out depart
    have hspawned : SoundFetch hash total store missing
        { s.countQueries (queue.length - rest.length) with
          tasks := tasks, phase := .filling rest } := by
      refine ⟨⟨h.safe.puts, by simp [FetchPhase.pending], fun w hw => hwants w ?_, ?_,
        h.safe.store⟩, fun _ => ⟨fun x => ?_, ?_, ?_, hexact.received, hexact.resumed,
        hexact.reported, by simp⟩⟩
      · simp only [FetchPhase.wants] at hw ⊢
        exact hqueue ▸ List.mem_append_right _ hw
      · intro task hm
        simp only [htasks, List.mem_append, List.mem_map] at hm
        rcases hm with hm | ⟨w, hw, rfl⟩
        · exact h.safe.tasks task hm
        · exact hwants w (hqueue ▸ List.mem_append_left _ hw)
      · have hx := hexact.balance x
        rw [hphase] at hx
        simp only [FetchPhase.live, FetchPhase.wants, hqueue, List.map_append,
          List.count_append] at hx
        simp only [FetchPhase.live, FetchPhase.wants, htasks, owedHashes_append, owedHashes_spawned,
          List.count_append, Fetching.countQueries]
        omega
      · simp only [htasks, landedChunks_append, landedChunks_spawned, List.append_nil]
        exact hexact.fetched
      · simp only [htasks, landedChunks_append, landedChunks_spawned, List.append_nil]
        exact hexact.bytes
    split at ht
    · rename_i hempty
      cases ht
      have htasks : tasks = [] := List.isEmpty_iff.mp hempty
      have hrest : rest = [] := by
        have := cfg.atLeastOne
        rcases hfull with hr | hr
        · exact hr
        · rw [htasks, List.length_nil] at hr
          omega
      have hdone := hspawned.exact rfl
      refine ⟨hspawned.safe.enter (by simp [FetchPhase.pending])
        (by simp [FetchPhase.wants]), fun _ =>
        ⟨fun x => ?_, hdone.fetched, hdone.bytes, hdone.received,
          hdone.resumed, hdone.reported, ?_⟩⟩
      · have hx := hdone.balance x
        simpa [FetchPhase.live, FetchPhase.wants, hrest, Fetching.finish] using hx
      · intro stats hstats
        cases hstats
        exact ⟨rfl, htasks⟩
    · split at ht
      · cases ht
        exact hspawned.safe.cancel
      · cases ht
        exact ⟨hspawned.safe.enter (by simp [FetchPhase.pending]) hspawned.safe.wants, fun _ =>
          (hspawned.exact rfl).enter (fun _ => rfl) (by simp)⟩
  · cases ht

theorem SoundFetch.wake (h : SoundFetch hash total store missing s) {joined : Option Nat}
    (ht : s.step hash zstd cfg total (.wake joined) = some t) :
    SoundFetch hash total store missing t := by
  simp only [Fetching.step] at ht
  split at ht
  · rename_i queue hphase
    have hexact := h.exact (by rw [hphase]; rfl)
    have hwants := h.safe.wants
    rw [hphase] at hwants
    split at ht
    · cases ht
      exact ⟨h.safe.enter (by simp [FetchPhase.pending]) hwants, fun _ =>
        hexact.enter (fun x => by rw [hphase]; rfl) (by simp)⟩
    · rename_i k
      split at ht
      · rename_i want bytes rejected htask
        obtain ⟨before, after, hsplit, herase, -⟩ := split_at_index htask
        cases ht
        refine ⟨⟨h.safe.puts, by simp [FetchPhase.pending], hwants, fun t hm => ?_,
          h.safe.store⟩, fun _ =>
          ⟨fun x => ?_, ?_, ?_, ?_, hexact.resumed, reported_count s _ _ rejected, by simp⟩⟩
        · exact h.safe.tasks t (List.mem_of_mem_eraseIdx hm)
        · have hx := hexact.balance x
          rw [hphase, hsplit] at hx
          simpa [FetchPhase.live, FetchPhase.wants, herase, Fetching.count] using hx
        · have hf := hexact.fetched
          rw [hsplit] at hf
          simp only [landedChunks_append, landedChunks_ok, List.length_append,
            List.length_cons] at hf
          simp only [herase, Fetching.count, landedChunks_append, List.length_append]
          omega
        · have hb := hexact.bytes
          rw [hsplit] at hb
          simp only [landedChunks_append, landedChunks_ok, totalLen_append, totalLen_cons] at hb
          simp only [herase, Fetching.count, landedChunks_append, totalLen_append]
          omega
        · have hr := hexact.received
          simp only [Fetching.count]
          omega
      · rename_i want e htask
        cases ht
        refine SafeFetch.fail (s := { s with tasks := s.tasks.eraseIdx k })
          ⟨h.safe.puts, h.safe.pending,
          h.safe.wants, fun t hm => ?_, h.safe.store⟩ e
        exact h.safe.tasks t (List.mem_of_mem_eraseIdx hm)
      · cases ht
  · cases ht

theorem SoundFetch.runTask (h : SoundFetch hash total store missing s) {k : Nat}
    {query : Option (List Reply)} {put : Result Unit}
    (ht : s.step hash zstd cfg total (.run k query put) = some t) :
    SoundFetch hash total store missing t := by
  simp only [Fetching.step] at ht
  split at ht
  · rename_i want htask
    obtain ⟨before, after, hsplit, -, hset⟩ := split_at_index htask
    have hwant : want.2 ∈ missing := h.safe.tasks ⟨want, none⟩ (hsplit ▸ by simp)
    have htasks : ∀ r, ∀ t ∈ s.tasks.set k ⟨want, r⟩, t.want.2 ∈ missing := by
      intro r t hm
      rcases List.mem_or_eq_of_mem_set hm with hm | rfl
      · exact h.safe.tasks t hm
      · exact hwant
    have hopen : s.phase.failed = false → ∀ stats, s.phase ≠ .done (.ok stats) := by
      intro hf stats hd
      have hnil := ((h.exact hf).returned stats hd).2
      rw [hnil] at htask
      cases htask
    have hended : ∀ e, SoundFetch hash total store missing
        { s with tasks := s.tasks.set k ⟨want, some (.error e)⟩ } := by
      intro e
      refine ⟨⟨h.safe.puts, h.safe.pending, h.safe.wants, htasks _, h.safe.store⟩, fun hf => ?_⟩
      have hexact := h.exact hf
      refine ⟨fun x => ?_, ?_, ?_, hexact.received, hexact.resumed, hexact.reported, fun stats hd =>
        absurd hd (hopen hf stats)⟩
      · have hx := hexact.balance x
        rw [hsplit] at hx
        simpa [hset] using hx
      · have hx := hexact.fetched
        rw [hsplit] at hx
        simpa [hset] using hx
      · have hx := hexact.bytes
        rw [hsplit] at hx
        simpa [hset] using hx
    split at ht
    · cases ht
      exact hended _
    · cases ht
      exact hended _
    · rename_i bytes rejected hfetch
      cases ht
      obtain ⟨hhash, hsized⟩ := fetchOneChunk_sound hfetch
      have hlen : bytes.length = want.2.len.toNat := hsized _ rfl
      have hgood : ∀ p ∈ [(want.2.hash, bytes)], GoodPut hash missing p := by
        intro p hp
        cases List.mem_singleton.mp hp
        exact ⟨want.2, hwant, rfl, hhash, hlen⟩
      have hsafe := h.safe.putMany hgood
      refine ⟨⟨hsafe.puts, hsafe.pending, hsafe.wants, htasks _, hsafe.store⟩, fun hf => ?_⟩
      have hexact := h.exact hf
      refine ⟨fun x => ?_, ?_, ?_, hexact.received, hexact.resumed, hexact.reported, fun stats hd =>
        absurd hd (hopen hf stats)⟩
      · have hx := hexact.balance x
        rw [hsplit] at hx
        simp only [owedHashes_append, owedHashes_fresh, List.count_append,
          List.count_cons, Want.hash] at hx
        simp only [hset, Fetching.putMany, owedHashes_append, owedHashes_ok, List.count_append,
          List.map_append, List.map_cons, List.map_nil, List.count_cons, List.count_nil]
        omega
      · have hx := hexact.fetched
        rw [hsplit] at hx
        simp only [landedChunks_append, landedChunks_fresh, List.length_append] at hx
        simp only [hset, Fetching.putMany, landedChunks_append, landedChunks_ok, List.length_append,
          List.length_cons, List.length_nil]
        omega
      · have hx := hexact.bytes
        rw [hsplit] at hx
        simp only [landedChunks_append, landedChunks_fresh, totalLen_append] at hx
        simp only [hset, Fetching.putMany, landedChunks_append, landedChunks_ok, totalLen_append,
          totalLen_cons, totalLen_nil]
        omega
  · cases ht

theorem SoundFetch.step (hnd : (missing.map ChunkRef.hash).Nodup)
    (h : SoundFetch hash total store missing s) {input : FetchInput}
    (ht : s.step hash zstd cfg total input = some t) : SoundFetch hash total store missing t := by
  cases input with
  | round cancelled query => exact h.round ht
  | turn cancelled next failed => exact h.turn hnd ht
  | fill cancelled => exact h.fill ht
  | wake joined => exact h.wake ht
  | run k query put => exact h.runTask ht

end Steps

/-- What the split of the needed chunks has done, and what it leaves to fetch. -/
structure SplitOff (store : ChunkMap) (total : Nat) (refs : List ChunkRef) (s t : Fetching)
    (before after : List Want) : Prop where
  missing : after.map Prod.snd = before.map Prod.snd ++ absent store refs
  kept : t.store = s.store
  puts : t.puts = s.puts
  tasks : t.tasks = s.tasks
  fetched : t.stats.chunksFetched = s.stats.chunksFetched
  bytes : t.stats.bytesFetched = s.stats.bytesFetched
  resumed : t.stats.chunksResumed + (absent store refs).length = s.stats.chunksResumed + refs.length
  received : t.received + s.stats.chunksResumed = s.received + t.stats.chunksResumed
  reported : Reported total s → Reported total t

theorem splitPresence_spec (store : ChunkMap) (total i : Nat) (refs : List ChunkRef) (s : Fetching)
    (missing : List Want) :
    SplitOff store total refs s
      (splitPresence total i (refs.map fun c => (c, store.has c.hash)) s missing).1 missing
      (splitPresence total i (refs.map fun c => (c, store.has c.hash)) s missing).2 := by
  induction refs generalizing i s missing with
  | nil => exact ⟨by simp [splitPresence, absent], rfl, rfl, rfl, rfl, rfl, rfl, rfl, id⟩
  | cons c refs ih =>
    cases hc : store.has c.hash with
    | true =>
      have step := ih (i + 1) (s.resume total i) missing
      have habs : absent store (c :: refs) = absent store refs := by simp [absent, hc]
      simp only [List.map_cons, hc, splitPresence]
      refine ⟨by rw [step.missing, habs], step.kept, step.puts, step.tasks, step.fetched,
        step.bytes, ?_, ?_, fun _ => step.reported ?_⟩
      · have hr := step.resumed
        simp only [Fetching.resume] at hr
        rw [habs, List.length_cons]
        simp only [Fetching.resume]
        omega
      · have hr := step.received
        simp only [Fetching.resume] at hr ⊢
        omega
      · exact .inr ⟨i, s.bytesReceived, by simp [Fetching.resume]⟩
    | false =>
      have step := ih (i + 1) s (missing ++ [(i, c)])
      have habs : absent store (c :: refs) = c :: absent store refs := by simp [absent, hc]
      simp only [List.map_cons, hc, splitPresence]
      refine ⟨by rw [step.missing, habs]; simp, step.kept, step.puts, step.tasks, step.fetched,
        step.bytes, ?_, step.received, step.reported⟩
      have hr := step.resumed
      rw [habs, List.length_cons, List.length_cons]
      omega

/-- The fetch starts sound, with the absent chunks as the missing ones. -/
theorem fetchMissing_sound (hash : Bytes → Hash) (cfg : FetchConfig) (needed : List ChunkRef)
    (store : ChunkMap) :
    SoundFetch hash needed.length store (absent store needed)
      (fetchMissing cfg needed store needed.length
        (.ok (store.hasMany (needed.map ChunkRef.hash)))) := by
  have hzip : needed.zip (store.hasMany (needed.map ChunkRef.hash)) =
      needed.map fun c => (c, store.has c.hash) := by
    have hz := List.zip_map' (f := id) (g := fun c : ChunkRef => store.has c.hash) (l := needed)
    simpa [ChunkMap.hasMany, Function.comp_def] using hz
  have split :=
    splitPresence_spec store needed.length 0 needed (Fetching.idle store (.filling [])) []
  simp only [fetchMissing, hzip]
  generalize splitPresence needed.length 0 (needed.map fun c => (c, store.has c.hash))
    (Fetching.idle store (.filling [])) [] = r at split
  obtain ⟨s, missing⟩ := r
  have hmissing : missing.map Prod.snd = absent store needed := by simpa using split.missing
  have hhashes : missing.map Want.hash = (absent store needed).map ChunkRef.hash := by
    rw [← hmissing, List.map_map]
    rfl
  have hputs : s.puts = [] := split.puts
  have htasks : s.tasks = [] := split.tasks
  have hsafe : ∀ phase : FetchPhase, phase.pending = [] → phase.wants = missing →
      SafeFetch hash store (absent store needed) { s with phase := phase } := by
    intro phase hp hw
    have hstore : s.store = store := split.kept
    refine ⟨by simp [hputs], by simp [hp], fun w hm => ?_, by simp [htasks], by
      simp [hputs, hstore, ChunkMap.putMany]⟩
    rw [← hmissing]
    exact List.mem_map_of_mem (hw ▸ hm)
  have hexact : ∀ phase : FetchPhase, phase.live = missing.map Want.hash → (∀ r, phase ≠ .done r) →
      ExactFetch needed.length (absent store needed) { s with phase := phase } := by
    intro phase hl hn
    have hfetched : s.stats.chunksFetched = 0 := split.fetched
    have hbytes : s.stats.bytesFetched = 0 := split.bytes
    have hresumed := split.resumed
    have hreceived := split.received
    simp only [Fetching.idle, TransferStats.default] at hresumed hreceived
    refine ⟨fun x => ?_, ?_, ?_, ?_, ?_, split.reported (.inl rfl),
      fun stats hd => absurd hd (hn _)⟩
    · simp [hputs, htasks, hl, hhashes, owedHashes]
    · simp [hputs, htasks, hfetched, landedChunks]
    · simp [hputs, htasks, hbytes, landedChunks]
    · simp only [hfetched]
      omega
    · simp only
      omega
  simp only
  split
  · have hflat : (sliceChunks cfg.batchSize [] missing).flatten = missing :=
      sliceChunks_flatten _ _ _
    exact ⟨hsafe _ rfl (by simp [FetchPhase.wants, hflat]), fun _ =>
      hexact _ (by simp [FetchPhase.live, FetchPhase.wants, hflat]) (by simp)⟩
  · exact ⟨hsafe _ rfl rfl, fun _ => hexact _ rfl (by simp)⟩

section Runs

variable (hash : Bytes → Hash) (zstd : Zstd) (cfg : FetchConfig)
  (index : TreeIndex) (store : ChunkMap)

def FetchStart (s : Fetching) : Prop :=
  ∃ presence, s = fetchMissing cfg index.neededChunkRefs store index.neededChunks.length presence ∧
    ∀ present, presence = .ok present →
      present = store.hasMany (index.neededChunkRefs.map ChunkRef.hash)

/-- The states of a fetch under any replies, in any order of its tasks. -/
def FetchReaches : Fetching → Prop :=
  Runs.Reachable (FetchStart cfg index store) fun s input t =>
    s.step hash zstd cfg index.neededChunks.length input = some t

end Runs

section Exact

variable {hash : Bytes → Hash} {zstd : Zstd} {cfg : FetchConfig}
  {index : TreeIndex} {store : ChunkMap}
  {s : Fetching}

theorem FetchReaches.sound (h : FetchReaches hash zstd cfg index store s) :
    SoundFetch hash index.neededChunks.length store (absent store index.neededChunkRefs) s := by
  have hlen : index.neededChunks.length = index.neededChunkRefs.length := by
    rw [← index.neededChunkRefs_hashes, List.length_map]
  have hnd : ((absent store index.neededChunkRefs).map ChunkRef.hash).Nodup := by
    have hall := index.neededChunks_nodup
    rw [← index.neededChunkRefs_hashes] at hall
    exact hall.sublist ((List.filter_sublist).map _)
  refine h.invariant (fun s h0 => ?_) fun s input t hs ht => hs.step hnd ht
  obtain ⟨presence, rfl, hpresence⟩ := h0
  cases presence with
  | error e =>
    exact ⟨⟨by simp [fetchMissing, Fetching.idle],
      by simp [fetchMissing, Fetching.idle, FetchPhase.pending],
      by simp [fetchMissing, Fetching.idle, FetchPhase.wants],
      by simp [fetchMissing, Fetching.idle], rfl⟩, fun hf => by cases hf⟩
  | ok present =>
    cases hpresence present rfl
    rw [hlen]
    exact fetchMissing_sound hash cfg index.neededChunkRefs store

/-- Nothing is owed any more when the fetch returns. -/
theorem SoundFetch.returned {total : Nat} {missing : List ChunkRef} {stats : TransferStats}
    (h : SoundFetch hash total store missing s) (hdone : s.phase = .done (.ok stats)) :
    (s.puts.map Prod.fst).Perm (missing.map ChunkRef.hash) ∧
      stats.chunksResumed + stats.chunksFetched = total ∧ stats.bytesFetched = totalLen s.puts ∧
      (total = 0 ∨ ∃ i b, s.events.getLast? = some (.chunk i total total b)) := by
  have hexact := h.exact (by rw [hdone]; rfl)
  obtain ⟨rfl, htasks⟩ := hexact.returned stats hdone
  have hperm : (s.puts.map Prod.fst).Perm (missing.map ChunkRef.hash) := by
    rw [List.perm_iff_count]
    intro x
    have hx := hexact.balance x
    simpa [hdone, htasks, FetchPhase.live, FetchPhase.wants, owedHashes] using hx
  have hlen := hperm.length_eq
  have hfetched := hexact.fetched
  have hresumed := hexact.resumed
  have hbytes := hexact.bytes
  simp only [htasks, landedChunks, List.filterMap_nil, List.length_nil, totalLen_nil]
    at hfetched hbytes
  simp only [List.length_map] at hlen
  have hall : s.stats.chunksResumed + s.stats.chunksFetched = total := by omega
  refine ⟨hperm, hall, hbytes, ?_⟩
  have hreceived : s.received = total := by rw [hexact.received, hall]
  have hreported := hexact.reported
  rw [Reported, hreceived] at hreported
  exact hreported

/-- Chunk fetching is sound and exact: whatever anybody answers, only needed chunks that
were absent are put, each with the bytes its address and its length say; and a fetch that
returns has put every one of them once and counted every one of them once. -/
theorem fetch_missing_exact (h : FetchReaches hash zstd cfg index store s) :
    (∀ p ∈ s.puts, ∃ c ∈ index.neededChunkRefs, c.hash = p.1 ∧ store.has p.1 = false ∧
      hash p.2 = p.1 ∧ p.2.length = c.len.toNat) ∧
    s.store = store.putMany s.puts ∧
    ∀ stats, s.phase = .done (.ok stats) →
      (∀ x ∈ index.neededChunks, s.store.has x = true) ∧
      (s.puts.map Prod.fst).Perm (index.neededChunks.filter fun x => !store.has x) ∧
      stats.chunksResumed + stats.chunksFetched = index.neededChunks.length ∧
      stats.bytesFetched = totalLen s.puts ∧
      (index.neededChunks = [] ∨ ∃ i b, s.events.getLast? =
        some (.chunk i index.neededChunks.length index.neededChunks.length b)) := by
  have hsound := h.sound
  refine ⟨fun p hp => ?_, hsound.safe.store, fun stats hdone => ?_⟩
  · obtain ⟨c, hc, hhash, hgood⟩ := hsound.safe.puts p hp
    have hmem := List.mem_filter.mp hc
    exact ⟨c, hmem.1, hhash, by simpa [hhash] using hmem.2, hgood⟩
  · obtain ⟨hperm, hall, hbytes, hevent⟩ := hsound.returned hdone
    have habsent : (absent store index.neededChunkRefs).map ChunkRef.hash =
        index.neededChunks.filter fun x => !store.has x := by
      rw [← index.neededChunkRefs_hashes, List.filter_map]
      rfl
    rw [habsent] at hperm
    refine ⟨fun x hx => ?_, hperm, hall, hbytes, ?_⟩
    · rw [hsound.safe.store, ChunkMap.has_putMany]
      cases hhas : store.has x with
      | true => exact .inl rfl
      | false => exact .inr (hperm.mem_iff.mpr (List.mem_filter.mpr ⟨hx, by simp [hhas]⟩))
    · simpa using hevent

end Exact

theorem twoChunkId_valid : BlobId.isValid "t" = true := by decide

def twoChunkIndex : TreeIndex where
  version := wireVersion
  id := ⟨"t", twoChunkId_valid⟩
  algo := .blake3
  cdc := ⟨16384, 65536, 262144, 2, 0⟩
  entries := [.file "a" 0o644 0 6 [⟨shortHash [97, 98, 99], 3⟩, ⟨shortHash [120, 121, 122], 3⟩]]
  rootHash := shortHash []

def pairConfig : FetchConfig := ⟨⟨"s", 1000, 2⟩, 1, 1000, one_at_a_time⟩

def abcReply : Reply :=
  .ok ⟨"s/blake3/" ++ (shortHash [97, 98, 99]).toHex, encChunk, [0, 97, 98, 99]⟩

/-- A round that brings `abc` twice and nothing else, then `xyz` by a query of its own, behind
a reply with the wrong bytes. -/
def pairInputs : List FetchInput :=
  [.round false (.ok ()), .turn false (some abcReply) none, .turn false (some abcReply) none,
    .turn false none none, .round false (.ok ()), .fill false,
    .run 0 (some [.ok ⟨"", encChunk, [0, 97, 98, 99]⟩, .ok ⟨"", encChunk, [0, 120, 121, 122]⟩])
    (.ok ()),
    .wake (some 0), .fill false]

def FetchPhase.stats : FetchPhase → Option TransferStats
  | .done (.ok stats) => some stats
  | _ => none

theorem FetchPhase.eq_of_stats {phase : FetchPhase} {stats : TransferStats}
    (h : phase.stats = some stats) :
    phase = .done (.ok stats) := by
  unfold FetchPhase.stats at h
  split at h
  · cases h
    rfl
  · cases h

theorem fetch_missing_exact_pair :
    ∃ s stats, FetchReaches shortHash none pairConfig twoChunkIndex (fun _ => none) s ∧
      s.phase = .done (.ok stats) ∧ stats.chunksResumed + stats.chunksFetched = 2 := by
  let start := fetchMissing pairConfig twoChunkIndex.neededChunkRefs (fun _ => none) 2
    (.ok [false, false])
  have hend : ((pairInputs.foldlM (Fetching.step shortHash none pairConfig 2) start).bind
      (·.phase.stats)).isSome = true := by decide +kernel
  obtain ⟨stats, hend⟩ := Option.isSome_iff_exists.mp hend
  obtain ⟨s, hrun, hstats⟩ := Option.bind_eq_some_iff.mp hend
  have hdone := FetchPhase.eq_of_stats hstats
  have hreach : FetchReaches shortHash none pairConfig twoChunkIndex (fun _ => none) s := by
    refine Runs.Reachable.foldlM (.start ⟨.ok [false, false], rfl, fun present hp => ?_⟩) hrun
    cases hp
    decide +kernel
  exact ⟨s, stats, hreach, hdone, ((fetch_missing_exact hreach).2.2 stats hdone).2.2.1⟩

end Zblob

import Zblob.Carriage
import Zblob.Readback
import Zblob.Serving
import Zblob.Sharding

/-!
The want lists a client sends in its batched rounds, against what a server answers. Three
callers cut three lists of references into groups; only the references of a whole snapshot
name every address once.
-/

set_option autoImplicit false

namespace Zblob

def maxWantList : Nat := 512

theorem firstRepeated_none_iff (seen hashes : List Hash) :
    firstRepeated seen hashes = none ↔ hashes.Nodup ∧ ∀ h ∈ hashes, h ∉ seen := by
  induction hashes generalizing seen with
  | nil => simp [firstRepeated]
  | cons h rest ih =>
    rw [firstRepeated]
    by_cases hseen : h ∈ seen
    · simp [hseen]
    · rw [if_neg hseen, ih, List.nodup_cons]
      constructor
      · rintro ⟨hnodup, hfresh⟩
        refine ⟨⟨fun hmem => (hfresh h hmem) List.mem_cons_self, hnodup⟩, ?_⟩
        refine List.forall_mem_cons.mpr ⟨hseen, fun x hx => ?_⟩
        exact fun hxs => hfresh x hx (List.mem_cons_of_mem _ hxs)
      · rintro ⟨⟨hnot, hnodup⟩, hfresh⟩
        refine ⟨hnodup, fun x hx hxs => ?_⟩
        rcases List.mem_cons.mp hxs with rfl | hxs
        · exact hnot hx
        · exact hfresh x (List.mem_cons_of_mem _ hx) hxs

theorem WantList.validate_ok_iff (w : WantList) (max : Nat) :
    w.validate max = .ok () ↔
      w.version = wireVersion ∧ w.hashes ≠ [] ∧ w.hashes.length ≤ max ∧ w.hashes.Nodup := by
  unfold validate
  by_cases hversion : w.version = wireVersion
  · by_cases hempty : w.hashes = []
    · simp [hversion, hempty]
    · by_cases hlong : w.hashes.length > max
      · have hle : ¬ w.hashes.length ≤ max := by omega
        simp [hversion, hempty, hlong, hle]
      · have hle : w.hashes.length ≤ max := by omega
        have hrep := firstRepeated_none_iff [] w.hashes
        simp only [List.not_mem_nil, not_false_eq_true, implies_true, and_true] at hrep
        cases hfirst : firstRepeated [] w.hashes with
        | none => simp [hversion, hempty, hlong, hle, hrep.mp hfirst]
        | some dup =>
          have hnot : ¬ w.hashes.Nodup := fun hn => by rw [hrep.mpr hn] at hfirst; cases hfirst
          simp [hversion, hempty, hlong, hle, hnot]
  · simp [hversion]

/-- No two entries that fall into one group of `n` are the same. -/
def Spread {α : Type} (n : Nat) (xs : List α) : Prop :=
  ∀ i j, i < j → j < xs.length → i / n = j / n → xs[i]? ≠ xs[j]?

theorem Spread.of_nodup {α : Type} {xs : List α} (h : xs.Nodup) (n : Nat) : Spread n xs :=
  fun i j hij hj _ => List.nodup_iff_getElem?_ne_getElem?.mp h i j hij hj

theorem spread_iff {α : Type} {n : Nat} (hn : 0 < n) (xs : List α) :
    Spread n xs ↔ (xs.take n).Nodup ∧ Spread n (xs.drop n) := by
  rw [List.nodup_iff_getElem?_ne_getElem?]
  constructor
  · intro h
    constructor
    · intro i j hij hj
      rw [List.length_take] at hj
      rw [List.getElem?_take_of_lt (by omega), List.getElem?_take_of_lt (by omega)]
      exact h i j hij (by omega) (by rw [Nat.div_eq_of_lt (by omega), Nat.div_eq_of_lt (by omega)])
    · intro i j hij hj hsame
      rw [List.length_drop] at hj
      rw [List.getElem?_drop, List.getElem?_drop]
      exact h (n + i) (n + j) (by omega) (by omega)
        (by rw [Nat.add_div_left _ hn, Nat.add_div_left _ hn, hsame])
  · rintro ⟨hfirst, hrest⟩ i j hij hj hsame
    by_cases hi : i < n
    · have hjn : j < n := by
        rw [Nat.div_eq_of_lt hi] at hsame
        exact (Nat.div_eq_zero_iff_lt hn).mp hsame.symm
      have hne := hfirst i j hij (by rw [List.length_take]; omega)
      rwa [List.getElem?_take_of_lt hi, List.getElem?_take_of_lt hjn] at hne
    · have hnj : ¬ j < n := by omega
      obtain ⟨i', rfl⟩ : ∃ i', i = n + i' := ⟨i - n, by omega⟩
      obtain ⟨j', rfl⟩ : ∃ j', j = n + j' := ⟨j - n, by omega⟩
      rw [Nat.add_div_left _ hn, Nat.add_div_left _ hn] at hsame
      have hne := hrest i' j' (by omega) (by rw [List.length_drop]; omega) (by omega)
      rwa [List.getElem?_drop, List.getElem?_drop] at hne

theorem spread_sliceChunks {α β : Type} {n : Nat} (hn : 0 < n) (f : α → β) (xs : List α) :
    (∀ group ∈ sliceChunks n [] xs, (group.map f).Nodup) ↔ Spread n (xs.map f) := by
  induction hlen : xs.length using Nat.strongRecOn generalizing xs with
  | ind len ih =>
    rw [sliceChunks_cons [] xs hn, List.nil_append]
    by_cases hempty : xs = []
    · subst hempty
      simp [Spread]
    · have hpos : 0 < xs.length := List.length_pos_iff.mpr hempty
      rw [if_neg hempty, List.forall_mem_cons, spread_iff hn (xs.map f),
        ← List.map_take, ← List.map_drop,
        ih (xs.drop n).length (by rw [List.length_drop]; omega) (xs.drop n) rfl]

def batchWant (group : List ChunkRef) : WantList := ⟨wireVersion, group.map ChunkRef.hash⟩

def Answerable (w : WantList) : Prop := w.validate maxWantList = .ok ()

theorem answered_batchWant {n : Nat} (hmax : n ≤ maxWantList) {group : List ChunkRef}
    (hne : 0 < group.length)
    (hlen : group.length ≤ n) : Answerable (batchWant group) ↔ (group.map ChunkRef.hash).Nodup := by
  have hnil : group.map ChunkRef.hash ≠ [] := by
    rw [Ne, List.map_eq_nil_iff]
    rintro rfl
    cases hne
  unfold Answerable
  rw [WantList.validate_ok_iff]
  simp only [batchWant, List.length_map, true_and]
  constructor
  · exact fun h => h.2.2
  · exact fun h => ⟨hnil, by omega, h⟩

def Fetching.asks (s : Fetching) : FetchInput → Option WantList
  | .round false _ =>
    match s.phase with
    | .rounds (group :: _) _ => some (batchWant (group.map Prod.snd))
    | _ => none
  | _ => none

def Fetching.ahead (s : Fetching) : List (List Want) :=
  match s.phase with
  | .rounds rest _ => rest
  | .draining _ _ _ rest _ => rest
  | _ => []

section Fetch

variable (hash : Bytes → Hash) (zstd : Zstd) (cfg : FetchConfig) (total : Nat)

/-- Every want list of every run from here is one that a server answers. -/
def AllAnswered (s : Fetching) : Prop :=
  ∀ taken t, Runs.Path (fun s input t => Fetching.step hash zstd cfg total s input = some t)
    s taken t →
    ∀ p ∈ taken, ∀ w, p.1.asks p.2 = some w → Answerable w

variable {hash zstd cfg total}

theorem asks_ahead {s : Fetching} {input : FetchInput} {w : WantList} (h : s.asks input = some w) :
    ∃ group ∈ s.ahead, w = batchWant (group.map Prod.snd) := by
  unfold Fetching.asks at h
  split at h
  · split at h
    · rename_i group rest unanswered hphase
      cases h
      exact ⟨group, by simp [Fetching.ahead, hphase], rfl⟩
    · cases h
  · cases h

theorem endTurn_ahead (group : List Want) (arrived : List Hash) (rest : List (List Want))
    (unanswered : List Want)
    (cancelled : Bool) (next : Option Reply) (pending : List (Hash × Bytes)) (s : Fetching) :
    ∀ g ∈ (endTurn total group arrived rest unanswered cancelled next pending s).ahead,
      g ∈ rest := by
  intro g hg
  unfold endTurn at hg
  split at hg
  · split at hg
    · simp [Fetching.ahead, Fetching.cancel] at hg
    · exact hg
  · exact hg

/-- A step asks for no new groups. -/
theorem step_ahead {s t : Fetching} {input : FetchInput}
    (h : s.step hash zstd cfg total input = some t) :
    ∀ group ∈ t.ahead, group ∈ s.ahead := by
  intro group hg
  cases input with
  | round cancelled query =>
    simp only [Fetching.step] at h
    split at h
    · split at h <;> cases h <;> simp [Fetching.ahead, Fetching.cancel] at hg
    · rename_i g rest unanswered hphase
      split at h
      · cases h
        simp [Fetching.ahead, Fetching.cancel] at hg
      · split at h
        · cases h
          simp [Fetching.ahead, Fetching.finish] at hg
        · cases h
          have hrest : group ∈ rest := hg
          simp [Fetching.ahead, hphase, hrest]
    · cases h
  | turn cancelled next failed =>
    simp only [Fetching.step] at h
    split at h
    · rename_i g pending arrived rest unanswered hphase
      generalize (if cancelled = true then none else next) = reply at h
      have hrest : group ∈ rest := by
        split at h
        · split at h
          · cases h
            simp [Fetching.ahead, Fetching.finish] at hg
          · cases h
            exact endTurn_ahead _ _ _ _ _ _ _ _ _ hg
        · cases h
          exact endTurn_ahead _ _ _ _ _ _ _ _ _ hg
      simpa [Fetching.ahead, hphase] using hrest
    · cases h
  | fill cancelled =>
    simp only [Fetching.step] at h
    split at h
    · split at h
      · cases h
        simp [Fetching.ahead, Fetching.finish] at hg
      · split at h <;> cases h <;> simp [Fetching.ahead, Fetching.cancel] at hg
    · cases h
  | wake joined =>
    simp only [Fetching.step] at h
    split at h
    · split at h
      · cases h
        simp [Fetching.ahead] at hg
      · split at h
        · cases h
          simp [Fetching.ahead] at hg
        · cases h
          simp [Fetching.ahead, Fetching.finish] at hg
        · cases h
    · cases h
  | run k query put =>
    simp only [Fetching.step] at h
    split at h
    · split at h <;> cases h <;> exact hg
    · cases h

theorem path_asks {s t : Fetching} {taken : List (Fetching × FetchInput)}
    (h : Runs.Path (fun s input t => Fetching.step hash zstd cfg total s input = some t)
      s taken t) :
    ∀ p ∈ taken, ∀ w, p.1.asks p.2 = some w → ∃ group ∈ s.ahead,
      w = batchWant (group.map Prod.snd) := by
  induction h with
  | nil => simp
  | cons hstep _ ih =>
    refine List.forall_mem_cons.mpr ⟨fun w hw => asks_ahead hw, fun p hp w hw => ?_⟩
    obtain ⟨group, hg, hgroup⟩ := ih p hp w hw
    exact ⟨group, step_ahead hstep group hg, hgroup⟩

theorem rounds_asked (groups : List (List Want)) (s : Fetching) (unanswered : List Want)
    (hphase : s.phase = .rounds groups unanswered) {group : List Want} (hg : group ∈ groups) :
    ∃ taken t, Runs.Path
      (fun s input t => Fetching.step hash zstd cfg total s input = some t) s taken t ∧
      ∃ p ∈ taken, p.1.asks p.2 = some (batchWant (group.map Prod.snd)) := by
  induction groups generalizing s unanswered with
  | nil => cases hg
  | cons first rest ih =>
    have hround : s.step hash zstd cfg total (.round false (.ok ())) =
        some { s.countQueries 1 with phase := .draining first [] [] rest unanswered } := by
      simp [Fetching.step, hphase]
    rcases List.mem_cons.mp hg with rfl | hg
    · refine ⟨_, _, .cons hround .nil, _, List.mem_cons_self, ?_⟩
      simp [Fetching.asks, hphase]
    · have hturn : Fetching.step hash zstd cfg total
          { s.countQueries 1 with phase := .draining first [] [] rest unanswered }
            (.turn false none none) =
          some { s.countQueries 1 with
            phase := .rounds rest (unanswered ++ first.filter fun w => w.2.hash ∉ []) } := by
        simp [Fetching.step, takeReply, flushLen, endTurn]
      obtain ⟨taken, t, hpath, p, hp, hasks⟩ := ih
        { s.countQueries 1 with
          phase := .rounds rest (unanswered ++ first.filter fun w => w.2.hash ∉ []) } _ rfl hg
      exact ⟨_, t, .cons hround (.cons hturn hpath), p,
        List.mem_cons_of_mem _ (List.mem_cons_of_mem _ hp), hasks⟩

theorem allAnswered_iff {s : Fetching} {groups : List (List Want)} {unanswered : List Want}
    (hphase : s.phase = .rounds groups unanswered) :
    AllAnswered hash zstd cfg total s ↔ ∀ group ∈ groups, Answerable
      (batchWant (group.map Prod.snd)) := by
  constructor
  · intro h group hg
    obtain ⟨taken, t, hpath, p, hp, hasks⟩ : ∃ taken t,
        Runs.Path (fun s input t => Fetching.step hash zstd cfg total s input = some t) s taken t ∧
          ∃ p ∈ taken, p.1.asks p.2 = some (batchWant (group.map Prod.snd)) :=
      rounds_asked groups s unanswered hphase hg
    exact h taken t hpath p hp _ hasks
  · intro h taken t hpath p hp w hw
    obtain ⟨group, hg, rfl⟩ := path_asks hpath p hp w hw
    exact h group (by simpa [Fetching.ahead, hphase] using hg)

end Fetch

def FetchConfig.withBatchSize (cfg : FetchConfig) (n : Nat) : FetchConfig :=
  { cfg with batchSize := min n maxWantList }

def unheld (needed : List ChunkRef) (present : List Bool) : List ChunkRef :=
  ((needed.zip present).filter fun p => !p.2).map Prod.fst

/-- The want lists of `assemble_sharded_index`, up to the first query that cannot be made. -/
def shardAsks (replies : ShardReplies) : Nat → List (List ChunkRef) → List WantList
  | _, [] => []
  | k, group :: rest =>
    batchWant group ::
      match replies.batches k with
      | none => []
      | some _ => shardAsks replies (k + 1) rest

section Callers

variable {hash : Bytes → Hash} {zstd : Zstd} {total : Nat}

theorem splitPresence_missing (total i : Nat) (ps : List (ChunkRef × Bool))
    (s : Fetching) (missing : List Want) :
    (splitPresence total i ps s missing).2.map Prod.snd =
      missing.map Prod.snd ++ (ps.filter fun p => !p.2).map Prod.fst := by
  induction ps generalizing i s missing with
  | nil => simp [splitPresence]
  | cons p ps ih =>
    obtain ⟨c, held⟩ := p
    cases held with
    | true => simp [splitPresence, ih]
    | false => simp [splitPresence, ih]

theorem groups_answered_iff {n : Nat} (hn : 0 < n) (hmax : n ≤ maxWantList)
    {α : Type} (ref : α → ChunkRef) (xs : List α) :
    (∀ group ∈ sliceChunks n [] xs, Answerable (batchWant (group.map ref))) ↔
      Spread n ((xs.map ref).map ChunkRef.hash) := by
  rw [List.map_map, ← spread_sliceChunks hn]
  have hgroup : ∀ group ∈ sliceChunks n [] xs,
      Answerable (batchWant (group.map ref)) ↔ (group.map (ChunkRef.hash ∘ ref)).Nodup := by
    intro group hg
    obtain ⟨hpos, hle⟩ := sliceChunks_bounds hn (by simpa using hn) group hg
    rw [answered_batchWant hmax (by simpa using hpos) (by simpa using hle), List.map_map]
  constructor
  · exact fun h group hg => (hgroup group hg).mp (h group hg)
  · exact fun h group hg => (hgroup group hg).mpr (h group hg)

theorem fetchMissing_answered_iff {cfg : FetchConfig} (hmax : cfg.batchSize ≤ maxWantList)
    (needed : List ChunkRef)
    (store : ChunkMap) (present : List Bool) :
    AllAnswered hash zstd cfg total (fetchMissing cfg needed store total (.ok present)) ↔
      cfg.batchSize = 0 ∨ Spread cfg.batchSize ((unheld needed present).map ChunkRef.hash) := by
  have hmissing :=
    splitPresence_missing total 0 (needed.zip present) (Fetching.idle store (.filling [])) []
  simp only [List.map_nil, List.nil_append] at hmissing
  rw [← unheld] at hmissing
  unfold fetchMissing
  simp only
  generalize splitPresence total 0 (needed.zip present) (Fetching.idle store (.filling [])) [] =
    split at hmissing ⊢
  by_cases hrounds : cfg.batchSize > 0 ∧ split.2 ≠ []
  · rw [if_pos hrounds, allAnswered_iff rfl, groups_answered_iff hrounds.1 hmax, hmissing]
    exact ⟨.inr, fun h => h.resolve_left (by have := hrounds.1; omega)⟩
  · rw [if_neg hrounds]
    refine iff_of_true (fun taken t hpath p hp w hw => ?_) ?_
    · obtain ⟨group, hg, -⟩ := path_asks hpath p hp w hw
      cases hg
    · rcases Nat.eq_zero_or_pos cfg.batchSize with hzero | hpos
      · exact .inl hzero
      · have hnone : split.2 = [] := by
          by_contra hne
          exact hrounds ⟨hpos, hne⟩
        right
        rw [← hmissing, hnone]
        exact Spread.of_nodup List.nodup_nil _

section Shards

variable (hash zstd)

/-- The queries are those that `collectBatches` reads: all of them when it ends well, and
otherwise up to the one that could not be made. -/
theorem collectBatches_asks (cfg : TreeConfig) (replies : ShardReplies) (k : Nat)
    (got : List (Hash × Bytes)) (groups : List (List ChunkRef)) :
    ∃ asked rest, groups = asked ++ rest ∧ shardAsks replies k groups = asked.map batchWant ∧
      ((∃ out, collectBatches hash zstd cfg replies k got groups = .ok out ∧ rest = []) ∨
        (collectBatches hash zstd cfg replies k got groups = .error .zenoh ∧
          ∃ last, asked.length = last + 1 ∧ replies.batches (k + last) = none)) := by
  induction groups generalizing k got with
  | nil => exact ⟨[], [], rfl, rfl, .inl ⟨got, rfl, rfl⟩⟩
  | cons group groups ih =>
    rw [shardAsks, collectBatches]
    cases hround : replies.batches k with
    | none => exact ⟨[group], groups, rfl, rfl, .inr ⟨rfl, 0, rfl, hround⟩⟩
    | some rs =>
      obtain ⟨asked, rest, rfl, hasked, hend⟩ :=
        ih (k + 1) (collectBatch hash zstd cfg group got rs)
      refine ⟨group :: asked, rest, rfl, by simp only [hasked, List.map_cons], ?_⟩
      rcases hend with hend | ⟨herr, last, hlen, hnone⟩
      · exact .inl hend
      · refine .inr ⟨herr, last + 1, by rw [List.length_cons, hlen], ?_⟩
        rwa [show k + (last + 1) = k + 1 + last by omega]

theorem mem_shardAsks (hash : Bytes → Hash) (zstd : Zstd) (cfg : TreeConfig)
    {replies : ShardReplies} {k : Nat} {groups : List (List ChunkRef)}
    {w : WantList} (h : w ∈ shardAsks replies k groups) :
    ∃ group ∈ groups, w = batchWant group := by
  obtain ⟨asked, rest, rfl, hasked, -⟩ := collectBatches_asks hash zstd cfg replies k [] groups
  rw [hasked] at h
  obtain ⟨group, hg, rfl⟩ := List.mem_map.mp h
  exact ⟨group, List.mem_append_left _ hg, rfl⟩

theorem shardAsks_answered_iff (hash : Bytes → Hash) (zstd : Zstd) (cfg : TreeConfig) {n : Nat}
    (hn : 0 < n) (hmax : n ≤ maxWantList) (refs : List ChunkRef) :
    (∀ replies, ∀ w ∈ shardAsks replies 0 (sliceChunks n [] refs), Answerable w) ↔
      Spread n (refs.map ChunkRef.hash) := by
  have hgroups := groups_answered_iff hn hmax id refs
  simp only [List.map_id] at hgroups
  rw [← hgroups]
  constructor
  · intro h group hg
    -- when every query can be made, every group is asked for
    obtain ⟨asked, rest, hsplit, hasked, hend⟩ := collectBatches_asks hash zstd cfg
      ⟨fun _ => some [], fun _ => some []⟩ 0 [] (sliceChunks n [] refs)
    rcases hend with ⟨-, -, rfl⟩ | ⟨-, last, -, hnone⟩
    · rw [List.append_nil] at hsplit
      refine h ⟨fun _ => some [], fun _ => some []⟩ _ ?_
      rw [hasked, ← hsplit]
      exact List.mem_map_of_mem hg
    · cases hnone
  · intro h replies w hw
    obtain ⟨group, hg, rfl⟩ := mem_shardAsks hash zstd cfg hw
    exact h group hg

end Shards

theorem unheld_sublist (needed : List ChunkRef) (present : List Bool) :
    (unheld needed present).Sublist needed := by
  induction needed generalizing present with
  | nil => simp [unheld]
  | cons c rest ih =>
    cases present with
    | nil => simp [unheld]
    | cons held present =>
      cases held with
      | true => exact (ih present).cons c
      | false => exact (ih present).cons_cons c

theorem unheld_needed_spread (index : TreeIndex) (present : List Bool) (n : Nat) :
    Spread n ((unheld index.neededChunkRefs present).map ChunkRef.hash) := by
  have hsub := unheld_sublist index.neededChunkRefs present
  refine Spread.of_nodup ((hsub.map ChunkRef.hash).nodup ?_) n
  rw [index.neededChunkRefs_hashes]
  exact index.neededChunks_nodup

variable (hash zstd)

/-- The want lists of `download_tree` over the whole index, of `fetch_file` for one path and of
`assemble_sharded_index` for one descriptor are all answered, in every run; `held` and `heldFile`
are what the store has answered to the two presence queries. -/
structure WantListsAnswered (cfg : FetchConfig) (index : TreeIndex)
    (path : String) (desc : IndexDescriptor)
    (store : ChunkMap) (held heldFile : List Bool) : Prop where
  tree : AllAnswered hash zstd cfg index.neededChunkRefs.length
    (fetchMissing cfg index.neededChunkRefs store index.neededChunkRefs.length (.ok held))
  file : ∀ chunks, index.fileChunks path = some chunks → chunkSum chunks ≤ cfg.maxTreeBytes →
    AllAnswered hash zstd cfg chunks.length
    (fetchMissing cfg chunks store chunks.length (.ok heldFile))
  shards : desc.validate cfg.maxIndexBytes = .ok () → ∀ replies,
    ∀ w ∈ shardAsks replies 0 (sliceChunks (max cfg.batchSize 1) [] desc.indexChunks), Answerable w

end Callers

/-- Whatever batch size the builder lets through, the server answers every want list when no group
repeats an address: neither one of the missing chunks of a file, as the file lists them, nor one of
the chunks of an encoded index. -/
theorem want_lists_answered_iff (hash : Bytes → Hash) (zstd : Zstd)
    (base : FetchConfig) (n : Nat) (index : TreeIndex)
    (path : String) (desc : IndexDescriptor) (store : ChunkMap) (held heldFile : List Bool) :
    let cfg := base.withBatchSize n
    WantListsAnswered hash zstd cfg index path desc store held heldFile ↔
      (∀ chunks, index.fileChunks path = some chunks → chunkSum chunks ≤ cfg.maxTreeBytes →
        cfg.batchSize = 0 ∨ Spread cfg.batchSize ((unheld chunks heldFile).map ChunkRef.hash)) ∧
      (desc.validate cfg.maxIndexBytes = .ok () →
        Spread (max cfg.batchSize 1) (desc.indexChunks.map ChunkRef.hash)) := by
  intro cfg
  have hmax : cfg.batchSize ≤ maxWantList := Nat.min_le_right _ _
  have hgroup : max cfg.batchSize 1 ≤ maxWantList := Nat.max_le.mpr ⟨hmax, by decide⟩
  have hpos : 0 < max cfg.batchSize 1 := by omega
  constructor
  · intro h
    exact ⟨fun chunks hchunks hsize =>
      (fetchMissing_answered_iff hmax chunks store heldFile).mp (h.file chunks hchunks hsize),
      fun hdesc =>
      (shardAsks_answered_iff hash zstd cfg.toTreeConfig hpos hgroup desc.indexChunks).mp
      (h.shards hdesc)⟩
  · rintro ⟨hfile, hshards⟩
    refine ⟨?_, fun chunks hchunks hsize => ?_, fun hdesc => ?_⟩
    · exact (fetchMissing_answered_iff hmax _ store held).mpr
        (.inr (unheld_needed_spread index held _))
    · exact (fetchMissing_answered_iff hmax chunks store heldFile).mpr (hfile chunks hchunks hsize)
    · exact (shardAsks_answered_iff hash zstd cfg.toTreeConfig hpos hgroup desc.indexChunks).mpr
        (hshards hdesc)

def twinIndex : TreeIndex :=
  sampleIndex [.file "f" 0o644 0 6 [⟨shortHash [97, 98, 99], 3⟩, ⟨shortHash [97, 98, 99], 3⟩]]
    ⟨[0x76, 0x6c, 0x59, 0x9c, 0xe3, 0xea, 0x8c, 0xd5, 0x34, 0x6e,
      0xed, 0x43, 0x1d, 0xdb, 0x80, 0x53,
      0x96, 0x89, 0xa6, 0xa8, 0xb9, 0x56, 0xb2, 0x23, 0xe8, 0xe1,
      0xfa, 0x81, 0xb7, 0x39, 0x4d, 0xe4], by decide⟩

def twinTree : TreeHash :=
  knownTree
    [0x03, 0x06, 0x62, 0x6c, 0x61, 0x6b, 0x65, 0x33, 0x01, 0x01, 0x01, 0x66, 0xa4, 0x03, 0x06, 0x02,
      0x20, 0x64, 0x37, 0xb3, 0xac, 0x38, 0x46, 0x51, 0x33, 0xff,
      0xb6, 0x3b, 0x75, 0x27, 0x3a, 0x8d, 0xb5,
      0x48, 0xc5, 0x58, 0x46, 0x5d, 0x79, 0xdb, 0x03, 0xfd, 0x35,
      0x9c, 0x6c, 0xd5, 0xbd, 0x9d, 0x85, 0x03,
      0x20, 0x64, 0x37, 0xb3, 0xac, 0x38, 0x46, 0x51, 0x33, 0xff,
      0xb6, 0x3b, 0x75, 0x27, 0x3a, 0x8d, 0xb5,
      0x48, 0xc5, 0x58, 0x46, 0x5d, 0x79, 0xdb, 0x03, 0xfd, 0x35,
      0x9c, 0x6c, 0xd5, 0xbd, 0x9d, 0x85, 0x03]
    twinIndex.rootHash

def twinConfig : FetchConfig := ⟨⟨"store", 67108864, 256⟩, 16, 1099511627776, by decide⟩

/-- The index is valid, its file is two references to one chunk, and an empty store has them both
asked for in one want list, which every server refuses. -/
theorem twin_chunks_refused :
    twinIndex.validate twinTree = .ok () ∧
      twinIndex.fileChunks "f" = some [⟨shortHash [97, 98, 99], 3⟩, ⟨shortHash [97, 98, 99], 3⟩] ∧
      ∀ desc store held, ¬ WantListsAnswered twinTree.hash none
      (twinConfig.withBatchSize 256) twinIndex "f" desc store
        held [false, false] := by
  have hchunks : twinIndex.fileChunks "f" =
      some [⟨shortHash [97, 98, 99], 3⟩, ⟨shortHash [97, 98, 99], 3⟩] := by
    decide +kernel
  refine ⟨by decide +kernel, hchunks, fun desc store held h => ?_⟩
  have hmax : (twinConfig.withBatchSize 256).batchSize ≤ maxWantList := by decide
  rcases (fetchMissing_answered_iff hmax _ store _).mp
      (h.file _ hchunks (by decide +kernel)) with hzero | hspread
  · exact absurd hzero (by decide)
  · exact hspread 0 1 (by decide) (by decide +kernel) (by decide) rfl

end Zblob

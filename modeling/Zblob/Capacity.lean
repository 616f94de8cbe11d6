import Zblob.ServerSteps

/-!
What pushes cost a server: the entries of the map, which the cap bounds, and the part files,
which have to be removed by whoever gives them up.
-/

set_option autoImplicit false

namespace Zblob

open Runs (Reachable)

section Cap

variable {env : Env}

theorem keys_put {s : Shared} {id : String} {e e' : PushEntry} (h : s.pushes.lookup id = some e) :
    (s.put id e').pushes.keys.length = s.pushes.keys.length := by
  have hmem : id ∈ s.pushes.keys := AList.mem_keys.mp (AList.lookup_isSome.mp (by simp [h]))
  have hpos := List.length_pos_of_mem hmem
  simp only [Shared.put, AList.keys_insert, List.length_cons, List.length_erase_of_mem hmem]
  omega

theorem keys_erase_le (s : Shared) (id : String) :
    (s.erase id).pushes.keys.length ≤ s.pushes.keys.length := by
  simp only [Shared.erase, AList.keys_erase]
  exact List.length_erase_le

theorem keys_evict_le (s : Shared) : (evict env s).pushes.keys.length ≤ s.pushes.keys.length := by
  unfold evict
  generalize stale env s = ids
  induction ids generalizing s with
  | nil => exact Nat.le_refl _
  | cons id ids ih =>
    refine (ih (s.drop id)).trans ?_
    unfold Shared.drop
    split
    · exact keys_erase_le s id
    · exact Nat.le_refl _

theorem Effect.keys_le {s s' : Shared} {t : Task} (h : Effect env s t s')
    (ht : ∀ o st, t ≠ .offer o (.insert st)) : s'.pushes.keys.length ≤ s.pushes.keys.length := by
  cases h with
  | evicted => exact keys_evict_le s
  | found hin => exact (keys_put hin).trans_le (keys_evict_le s)
  | touched hin => exact (keys_put hin).le
  | marked hin => exact (keys_put hin).le
  | opened => exact absurd rfl (ht _ _)
  | fin _ h =>
    cases h with
    | take => exact keys_erase_le s _
    | _ => exact Nat.le_refl _
  | _ => exact Nat.le_refl _

theorem insert_keys_le {s : Shared} (ok : Bool) (o : Offered) (st : ResumeState)
    (h : s.pushes.keys.length ≤ env.push.maxConcurrent) :
    (offerStep env s ok o (.insert st)).1.pushes.keys.length ≤ env.push.maxConcurrent := by
  simp only [offerStep]
  split
  · exact h
  · split
    · exact h
    · rename_i hroom
      have hlen : (s.pushes.keys.erase o.id).length ≤ s.pushes.keys.length := List.length_erase_le
      simp only [open_pushes, Shared.put, AList.keys_insert, List.length_cons]
      omega

theorem taskStep_keys_le {s : Shared} {ok : Bool} {t : Task}
    (h : s.pushes.keys.length ≤ env.push.maxConcurrent) :
    (taskStep env s ok t).1.pushes.keys.length ≤ env.push.maxConcurrent := by
  by_cases ht : ∃ o st, t = .offer o (.insert st)
  · obtain ⟨o, st, rfl⟩ := ht
    have hkeys := insert_keys_le ok o st h
    simp only [taskStep]
    split <;> rename_i heq <;> rw [heq] at hkeys <;> exact hkeys
  · refine ((taskStep_move env s ok t).effect.keys_le fun o st hins => ?_).trans h
    exact ht ⟨o, st, hins⟩

end Cap

def CleanupOp.removes (k : String) : CleanupOp → Bool
  | .part id => id == k
  | .sidecar _ => false

def Task.keeps (k : String) : Task → Bool
  | .offer _ (.cleanup todo _) => todo.any (CleanupOp.removes k)
  | .offer o (.setLen _) => o.id == k
  | .offer o .save => o.id == k
  | .offer o (.insert _) => o.id == k
  | .offer o (.finalize (.rename _) _) => o.id == k
  | .slice r (.finalize (.rename _)) => r.id == k
  | _ => false

/-- `id`, when what would have settled its part fails and the map has no entry for it. -/
def unmapped (s : Shared) (ok : Bool) (id : String) : List String :=
  if ok || (s.pushes.lookup id).isSome then [] else [id]

/-- The ids whose part the next step of a handler gives up: a file operation fails, the map
is full when the push is to be entered, or a conflicting offer has evicted other pushes. -/
def Task.drops (env : Env) (s : Shared) (ok : Bool) : Task → List String
  | .offer o .first =>
    match (evict env s).pushes.lookup o.id with
    | some e =>
      if e.manifest.root ≠ o.manifest.root ∨ e.manifest.totalLen ≠ o.manifest.totalLen ∨
        e.manifest.chunkSize ≠ o.manifest.chunkSize then stale env s else []
    | none => []
  | .offer _ (.cleanup (.part id :: _) _) => unmapped s ok id
  | .offer o (.setLen _) => unmapped s ok o.id
  | .offer o .save => unmapped s ok o.id
  | .offer o (.insert _) => unmapped s (decide (s.pushes.keys.length < env.push.maxConcurrent)) o.id
  | .offer o (.finalize (.rename _) _) => unmapped s ok o.id
  | .slice r (.finalize (.rename _)) => unmapped s ok r.id
  | _ => []

/-- The part of `k`, if it was made since the start, belongs to an entry. `base` is the first
inode number that was free at the start. -/
def Shared.Owned (base : Nat) (s : Shared) (k : String) : Prop :=
  ∀ ino, s.spool.part k = some ino → base ≤ ino → (s.pushes.lookup k).isSome = true

def Spool.OldPart (base : Nat) (sp : Spool) (k : String) : Prop :=
  ∀ ino, sp.part k = some ino → ino < base

section Parts

variable {env : Env} {base : Nat} {s s' : Shared} {k : String}

theorem Spool.OldPart.owned (h : s.spool.OldPart base k) (hsp : s'.spool = s.spool) :
    s'.Owned base k := by
  intro ino hino hbase
  rw [hsp] at hino
  exact absurd hbase (Nat.not_le.mpr (h ino hino))

theorem Shared.Owned.frame (h : s.Owned base k) (hpart : s'.spool.part k = s.spool.part k)
    (hentry : (s.pushes.lookup k).isSome = true → (s'.pushes.lookup k).isSome = true) :
    s'.Owned base k :=
  fun ino hino hbase => hentry (h ino (hpart ▸ hino) hbase)

theorem owned_of_entry (h : (s.pushes.lookup k).isSome = true) : s.Owned base k := fun _ _ _ => h

theorem owned_of_gone (h : s.spool.part k = none) : s.Owned base k := fun ino hino _ => by
  rw [h] at hino
  cases hino

theorem owned_unmapped (hdrop : k ∈ unmapped s false k → s.spool.OldPart base k) :
    s.Owned base k := by
  by_cases hin : (s.pushes.lookup k).isSome = true
  · exact owned_of_entry hin
  · exact (hdrop (by simp [unmapped, hin])).owned rfl

theorem evict_owned (h : s.Owned base k) (hk : k ∉ stale env s) : (evict env s).Owned base k := by
  refine h.frame (by rw [evict_spool]) fun hin => ?_
  rw [evict_lookup, if_neg hk]
  exact hin

theorem put_owned {id : String} {e : PushEntry} (h : s.Owned base k) :
    (s.put id e).Owned base k := by
  refine h.frame rfl fun hin => ?_
  rw [put_lookup]
  split
  · rfl
  · exact hin

theorem removes_cleanupOps (ids : List String) :
    (cleanupOps ids).any (CleanupOp.removes k) = true ↔ k ∈ ids := by
  induction ids with
  | nil => simp [cleanupOps]
  | cons id ids ih =>
    simp only [cleanupOps, List.flatMap_cons, List.any_append, Bool.or_eq_true] at ih ⊢
    rw [ih, List.mem_cons, eq_comm (a := k)]
    simp [CleanupOp.removes]

theorem removeBlob_part {id : String} {sp : Spool} (h : sp = s.spool ∨ sp = s.spool.removeBlob id) :
    sp.part k = s.spool.part k := by
  rcases h with rfl | rfl <;> rfl

theorem finStep_owned {ok : Bool} {id : String} {f : Fin}
    (hnext : ∀ e, (finStep env s ok id f).2 = .go (.rename e) → k ≠ id)
    (hdrop : ∀ e, f = .rename e → k ∈ unmapped s ok id → s.spool.OldPart base k)
    (h : (∃ e, f = .rename e ∧ k = id) ∨ s.Owned base k) :
    (finStep env s ok id f).1.Owned base k := by
  by_cases hren : ∃ e, f = .rename e
  · obtain ⟨e, rfl⟩ := hren
    have hold : k ≠ id → s.Owned base k := by
      intro hne
      rcases h with ⟨_, -, hk⟩ | hown
      · exact absurd hk hne
      · exact hown
    by_cases hk : k = id
    · subst hk
      cases ok with
      | false => exact owned_unmapped (hdrop e rfl)
      | true =>
        simp only [finStep, if_true]
        split
        · rename_i hnone
          exact owned_of_gone (Option.map_eq_none_iff.mp hnone)
        · rename_i sp hsp
          obtain ⟨ino, -, rfl⟩ := Spool.renamePart_some hsp
          exact owned_of_gone (Function.update_self ..)
    · simp only [finStep]
      split
      · exact hold hk
      · rename_i sp hsp
        cases ok with
        | false => cases hsp
        | true =>
          obtain ⟨ino, -, rfl⟩ := Spool.renamePart_some hsp
          exact (hold hk).frame (Function.update_of_ne hk ..) fun hin => hin
  · have hold : s.Owned base k := by
      rcases h with ⟨e, he, -⟩ | hown
      · exact absurd ⟨e, he⟩ hren
      · exact hown
    have hmove := finStep_move env s ok id f
    revert hnext hmove
    generalize finStep env s ok id f = step
    obtain ⟨s', out⟩ := step
    intro hnext hmove
    cases hmove with
    | take =>
      refine hold.frame rfl fun hin => ?_
      change ((s.erase id).pushes.lookup k).isSome = true
      rw [erase_lookup, if_neg (hnext _ rfl)]
      exact hin
    | rename => exact absurd ⟨_, rfl⟩ hren
    | renameFailed => exact absurd ⟨_, rfl⟩ hren
    | removeBad hsp => exact hold.frame (removeBlob_part hsp) fun hin => hin
    | removeSame hsp => exact hold.frame (removeBlob_part hsp) fun hin => hin
    | removeOther hsp => exact hold.frame (removeBlob_part hsp) fun hin => hin
    | _ => exact hold

abbrev DropsOld (env : Env) (base : Nat) (s : Shared) (k : String) (ok : Bool) (t : Task) : Prop :=
  k ∈ t.drops env s ok → s.spool.OldPart base k

theorem first_owned {ok : Bool} {o : Offered}
    (hnext : ∀ pc, (offerStep env s ok o .first).2 = .go pc → (Task.offer o pc).keeps k = false)
    (hdrop : DropsOld env base s k ok (.offer o .first)) (h : s.Owned base k) :
    (offerStep env s ok o .first).1.Owned base k := by
  simp only [DropsOld, Task.drops, offerStep] at *
  -- a push that goes on removes what it has evicted
  have hcleaned : ∀ {next : AfterCleanup},
      (Task.offer o (.cleanup (cleanupOps (stale env s)) next)).keeps k = false →
      k ∉ stale env s := by
    intro next hkeeps hk
    rw [Task.keeps, (removes_cleanupOps _).mpr hk] at hkeeps
    cases hkeeps
  split
  · rename_i e he
    simp only [he] at hnext hdrop
    split
    · rename_i hconf
      rw [if_pos hconf] at hdrop
      by_cases hk : k ∈ stale env s
      · exact (hdrop hk).owned (evict_spool s)
      · exact evict_owned h hk
    · rename_i hagree
      rw [if_neg hagree] at hnext
      exact put_owned (evict_owned h (hcleaned (hnext _ rfl)))
  · rename_i hnone
    simp only [hnone] at hnext
    exact evict_owned h (hcleaned (hnext _ rfl))

theorem cleanup_owned {ok : Bool} {o : Offered} {op : CleanupOp}
    {todo : List CleanupOp} {next : AfterCleanup}
    (hnext : (Task.offer o (.cleanup todo next)).keeps k = false)
    (hdrop : DropsOld env base s k ok (.offer o (.cleanup (op :: todo) next)))
    (h : (Task.offer o (.cleanup (op :: todo) next)).keeps k = true ∨ s.Owned base k) :
    (if ok then s.onSpool (op.apply s.spool) else s).Owned base k := by
  simp only [Task.keeps] at hnext h
  rw [List.any_cons, hnext, Bool.or_false] at h
  cases op with
  | sidecar id =>
    have hold : s.Owned base k := h.resolve_left (by simp [CleanupOp.removes])
    cases ok with
    | false => exact hold
    | true => exact hold.frame rfl fun hin => hin
  | part id =>
    by_cases hk : id = k
    · subst hk
      cases ok with
      | false => exact owned_unmapped hdrop
      | true => exact owned_of_gone (Function.update_self ..)
    · have hold : s.Owned base k := h.resolve_left (by simp [CleanupOp.removes, hk])
      cases ok with
      | false => exact hold
      | true => exact hold.frame (Function.update_of_ne (Ne.symm hk) ..) fun hin => hin

/-- What has made the part of `k` and fails has given it up. -/
theorem failing_owned {o : Offered} (hdrop : k ∈ unmapped s false o.id → s.spool.OldPart base k)
    (h : (o.id == k) = true ∨ s.Owned base k) : s.Owned base k := by
  rcases h with hk | hold
  · rw [beq_iff_eq] at hk
    subst hk
    exact owned_unmapped hdrop
  · exact hold

theorem insert_owned {ok : Bool} {o : Offered} {st : ResumeState}
    (hdrop : DropsOld env base s k ok (.offer o (.insert st)))
    (h : (o.id == k) = true ∨ s.Owned base k) :
    (offerStep env s ok o (.insert st)).1.Owned base k := by
  have here : ∀ {t : Shared}, (t.pushes.lookup o.id).isSome = true →
      (s.Owned base k → t.Owned base k) → t.Owned base k := by
    intro t hin hkept
    rcases h with hk | hold
    · rw [beq_iff_eq] at hk
      subst hk
      exact owned_of_entry hin
    · exact hkept hold
  simp only [offerStep]
  split
  · rename_i e he
    exact here (by simp [he]) id
  · split
    · rename_i hfull
      have hno : decide (s.pushes.keys.length < env.push.maxConcurrent) = false :=
        decide_eq_false (Nat.not_lt.mpr hfull)
      exact failing_owned (hno ▸ hdrop) h
    · refine here ?_ put_owned
      rw [open_pushes, put_lookup, if_pos rfl]
      rfl

theorem offerFinalize_owned {ok : Bool} {o : Offered} {f : Fin} {a : Answer}
    (hnext : ∀ pc', (offerStep env s ok o (.finalize f a)).2 = .go pc' →
      (Task.offer o pc').keeps k = false)
    (hdrop : DropsOld env base s k ok (.offer o (.finalize f a)))
    (h : (Task.offer o (.finalize f a)).keeps k = true ∨ s.Owned base k) :
    (offerStep env s ok o (.finalize f a)).1.Owned base k := by
  have hfin : (finStep env s ok o.id f).1.Owned base k := by
    refine finStep_owned (fun e he => ?_) (fun e he => ?_) ?_
    · have hkeeps :=
        hnext (.finalize (.rename e) a) (by simp only [offerStep]; split <;> simp_all)
      rintro rfl
      simp [Task.keeps] at hkeeps
    · subst he
      exact hdrop
    · refine h.imp (fun hkeeps => ?_) id
      cases f with
      | rename e => exact ⟨e, rfl, (beq_iff_eq.mp hkeeps).symm⟩
      | _ => cases hkeeps
  simp only [offerStep]
  split <;> rename_i heq <;> rw [heq] at hfin <;> exact hfin

theorem offerStep_owned {ok : Bool} {o : Offered} {pc : OfferPc}
    (hnext : ∀ pc', (offerStep env s ok o pc).2 = .go pc' → (Task.offer o pc').keeps k = false)
    (hdrop : DropsOld env base s k ok (.offer o pc))
    (h : (Task.offer o pc).keeps k = true ∨ s.Owned base k) :
    (offerStep env s ok o pc).1.Owned base k := by
  cases pc with
  | registry =>
    have hold := h.resolve_left (by simp [Task.keeps])
    simp only [offerStep]
    split
    · split <;> exact hold
    · exact hold
  | first => exact first_owned hnext hdrop (h.resolve_left (by simp [Task.keeps]))
  | cleanup todo next =>
    cases todo with
    | cons op todo => exact cleanup_owned (hnext _ rfl) hdrop h
    | nil =>
      have hold := h.resolve_left (by simp [Task.keeps])
      cases next <;> exact hold
  | probe => exact h.resolve_left (by simp [Task.keeps])
  | load len =>
    have hold := h.resolve_left (by simp [Task.keeps])
    simp only [offerStep]
    split
    · split <;> exact hold
    · exact hold
  | create =>
    have hold := h.resolve_left (by simp [Task.keeps])
    cases ok with
    | false => exact hold
    | true =>
      have hk : k ≠ o.id := by
        have hkeeps := hnext _ rfl
        rintro rfl
        simp [Task.keeps] at hkeeps
      exact hold.frame ((Spool.createPart_created s.spool o.id).part k hk) fun hin => hin
  | setLen ino =>
    cases ok with
    | false => exact failing_owned hdrop h
    | true =>
      have hold := h.resolve_left (by simpa [Task.keeps] using hnext _ rfl)
      exact hold.frame rfl fun hin => hin
  | save =>
    cases ok with
    | false => exact failing_owned hdrop h
    | true =>
      have hold := h.resolve_left (by simpa [Task.keeps] using hnext _ rfl)
      exact hold.frame rfl fun hin => hin
  | insert st => exact insert_owned hdrop h
  | finalize f a => exact offerFinalize_owned hnext hdrop h
  | reply a =>
    have hold := h.resolve_left (by simp [Task.keeps])
    cases ok with
    | false => exact hold
    | true => exact hold.frame rfl fun hin => hin

theorem sliceStep_owned {ok : Bool} {r : SliceReq} {pc : SlicePc}
    (hnext : ∀ pc', (sliceStep env s ok r pc).2 = .go pc' → (Task.slice r pc').keeps k = false)
    (hdrop : DropsOld env base s k ok (.slice r pc))
    (h : (Task.slice r pc).keeps k = true ∨ s.Owned base k) :
    (sliceStep env s ok r pc).1.Owned base k := by
  by_cases hfin : ∃ f, pc = .finalize f
  · obtain ⟨f, rfl⟩ := hfin
    have hfin : (finStep env s ok r.id f).1.Owned base k := by
      refine finStep_owned (fun e he => ?_) (fun e he => ?_) ?_
      · have hkeeps := hnext (.finalize (.rename e)) (by simp only [sliceStep]; split <;> simp_all)
        rintro rfl
        simp [Task.keeps] at hkeeps
      · subst he
        exact hdrop
      · refine h.imp (fun hkeeps => ?_) id
        cases f with
        | rename e => exact ⟨e, rfl, (beq_iff_eq.mp hkeeps).symm⟩
        | _ => cases hkeeps
    simp only [sliceStep]
    split <;> rename_i heq <;> rw [heq] at hfin <;> exact hfin
  · have hold : s.Owned base k := by
      refine h.resolve_left ?_
      cases pc with
      | finalize f => exact absurd ⟨f, rfl⟩ hfin
      | _ => simp [Task.keeps]
    have hmove := sliceStep_move env s ok r pc
    revert hmove
    generalize sliceStep env s ok r pc = step
    obtain ⟨s', out⟩ := step
    intro hmove
    cases hmove with
    | denied => exact put_owned hold
    | already => exact put_owned hold
    | verified => exact put_owned hold
    | mark => exact put_owned hold
    | flush => exact put_owned hold
    | write hsp =>
      obtain ⟨ino, -, rfl⟩ := Spool.writePart_some hsp
      exact hold.frame rfl fun hin => hin
    | save => exact hold.frame rfl fun hin => hin
    | fin => exact absurd ⟨_, rfl⟩ hfin
    | finOk => exact absurd ⟨_, rfl⟩ hfin
    | finFailed => exact absurd ⟨_, rfl⟩ hfin
    | _ => exact hold

theorem taskStep_owned {ok : Bool} {t : Task}
    (hnext : ∀ v, (taskStep env s ok t).2.1 = some v → v.keeps k = false)
    (hdrop : DropsOld env base s k ok t) (h : t.keeps k = true ∨ s.Owned base k) :
    (taskStep env s ok t).1.Owned base k := by
  cases t with
  | offer o pc =>
    have howned : (offerStep env s ok o pc).1.Owned base k := by
      refine offerStep_owned (fun pc' hpc => hnext _ ?_) hdrop h
      simp only [taskStep]
      split <;> simp_all
    simp only [taskStep]
    split <;> rename_i heq <;> rw [heq] at howned <;> exact howned
  | slice r pc =>
    have howned : (sliceStep env s ok r pc).1.Owned base k := by
      refine sliceStep_owned (fun pc' hpc => hnext _ ?_) hdrop h
      simp only [taskStep]
      split <;> simp_all
    simp only [taskStep]
    split <;> rename_i heq <;> rw [heq] at howned <;> exact howned

end Parts

def capacityInv (env : Env) (base : Nat) : Pool.Invariant Shared Task String where
  shared s := s.pushes.keys.length ≤ env.push.maxConcurrent
  busy t k := t.keeps k = true
  quiet s k := s.Owned base k

/-- A step that gives up a part finds that it is not there or was there before the start, or
leaves it to another handler that has it in hand. -/
def Server.Tidy (env : Env) (base : Nat) (s : Server) : Action → Prop
  | .run tid ok => ∀ t, s.tasks tid = some t → ∀ id ∈ t.drops env s.shared ok,
      s.shared.spool.OldPart base id ∨ ∃ j u, j ≠ tid ∧ s.tasks j = some u ∧ u.keeps id = true
  | _ => True

section Runs

variable [Postcard Manifest] {env : Env} {base : Nat}

theorem run_step {s t : Server} {tid : Nat} {ok : Bool} {ev : Option Event}
    (h : s.step env (.run tid ok) = some (t, ev)) : ∃ u, s.tasks tid = some u ∧
      t = s.resume tid (taskStep env s.shared ok u).1 (taskStep env s.shared ok u).2.1 := by
  simp only [Server.step] at h
  split at h
  · cases h
  · rename_i u hu
    cases h
    exact ⟨u, hu, rfl⟩

theorem cap_step {s t : Server} {a : Action} {ev : Option Event}
    (h : s.shared.pushes.keys.length ≤ env.push.maxConcurrent)
    (hstep : s.step env a = some (t, ev)) :
    t.shared.pushes.keys.length ≤ env.push.maxConcurrent := by
  cases step_move hstep with
  | run =>
    obtain ⟨u, -, ht⟩ := run_step hstep
    rw [ht]
    exact taskStep_keys_le h
  | register hreg => cases hreg <;> exact h
  | _ => exact h

theorem capacity_step {s t : Server} {a : Action} {ev : Option Event}
    (hI : (capacityInv env base).Holds s)
    (htidy : s.Tidy env base a) (hstep : s.step env a = some (t, ev)) :
    (capacityInv env base).Holds t := by
  have hcap := cap_step hI.shared hstep
  cases step_move hstep with
  | run =>
    obtain ⟨u, hu, ht⟩ := run_step hstep
    rw [ht] at hcap ⊢
    refine hI.resume hu hcap (fun _ _ => trivial) (fun _ _ _ _ => trivial)
      (fun _ _ _ _ _ _ => ⟨trivial, trivial⟩) fun k hself hothers hk => ?_
    refine taskStep_owned (fun v hv => Bool.eq_false_iff.mpr (hself v hv)) (fun hdrop => ?_) hk
    exact (htidy u hu k hdrop).resolve_right fun ⟨j, v, hj, hv, hkeeps⟩ => hothers j v hj hv hkeeps
  | offer =>
    exact (hI.onShared hcap (fun _ _ _ => trivial) fun _ hq => hq).spawn trivial fun _ =>
      ⟨trivial, trivial⟩
  | slice => exact hI.spawn trivial fun _ => ⟨trivial, trivial⟩
  | refused => exact hI
  | register hreg =>
    refine hI.onShared hcap (fun _ _ _ => trivial) fun k hq => ?_
    cases hreg <;> exact hq
  | _ => exact hI.onShared hcap (fun _ _ _ => trivial) fun _ hq => hq

/-- The map of pushes never outgrows the cap. While every step that gives up a part file
finds it gone or leaves it to another handler, a server on which no handler is at work has
an entry for every part made since it started. -/
theorem push_resources_bounded (env : Env) (spool : Spool)
    (hino : ∀ id ino, spool.part id = some ino → ino < spool.nextIno) :
    (∀ s, Reachable (· = Server.start spool) (Server.Runs env fun _ _ => True) s →
      s.shared.pushes.keys.length ≤ env.push.maxConcurrent) ∧
    ∀ s, Reachable (· = Server.start spool) (Server.Runs env (Server.Tidy env spool.nextIno)) s →
      (∀ tid, s.tasks tid = none) → ∀ id ino, s.shared.spool.part id = some ino →
      spool.nextIno ≤ ino →
      (s.shared.pushes.lookup id).isSome = true := by
  constructor
  · intro s h
    induction h with
    | start h0 =>
      subst h0
      exact Nat.zero_le _
    | next _ hstep ih =>
      obtain ⟨-, ev, hstep⟩ := hstep
      exact cap_step ih hstep
  · intro s h hidle id
    have hI : (capacityInv env spool.nextIno).Holds s := by
      apply h.invariant
      · rintro s rfl
        refine Pool.Invariant.Holds.empty (Nat.zero_le _) fun k ino hpart hbase => ?_
        exact absurd hbase (Nat.not_le.mpr (hino k ino hpart))
      · rintro s a t hs ⟨htidy, ev, hstep⟩
        exact capacity_step hs htidy hstep
    refine hI.quiet id fun tid t ht => ?_
    rw [hidle tid] at ht
    cases ht

end Runs

def tidyTest (s : Server) : Action → Bool
  | .run tid ok => (s.tasks tid).all fun t => (t.drops sampleEnv s.shared ok).isEmpty
  | _ => true

theorem tidyTest_sound {base : Nat} {s : Server} {a : Action} (h : tidyTest s a = true) :
    s.Tidy sampleEnv base a := by
  cases a with
  | run tid ok =>
    intro t ht id hid
    rw [tidyTest, ht, Option.all_some, List.isEmpty_iff] at h
    rw [h] at hid
    cases hid
  | _ => trivial

def offerAbc : List Action := .offer "x" (some [1]) none :: List.replicate 10 (.run 0 true)

theorem push_resources_bounded_abc :
    let _ := pushPostcard
    let s := sampleServer tidyTest offerAbc
    Reachable (· = Server.start Spool.empty) (Server.Runs sampleEnv (Server.Tidy sampleEnv 0)) s ∧
      (∀ tid, s.tasks tid = none) ∧ s.shared.spool.part "x" = some 0 ∧
      (s.shared.pushes.lookup "x").isSome = true ∧ s.shared.pushes.keys.length ≤ 8 := by
  let _ := pushPostcard
  have hreach : Reachable (· = Server.start Spool.empty)
      (Server.Runs sampleEnv (Server.Tidy sampleEnv 0))
      (sampleServer tidyTest offerAbc) := by
    refine sample_reached (fun s a _ h => ?_) ?_ (by decide +kernel)
    · exact tidyTest_sound h
    · rfl
  have hany : Reachable (· = Server.start Spool.empty) (Server.Runs sampleEnv fun _ _ => True)
      (sampleServer tidyTest offerAbc) :=
    hreach.mono (fun _ h => h) fun _ _ _ h => ⟨trivial, h.2⟩
  have hidle : ∀ tid, (sampleServer tidyTest offerAbc).tasks tid = none := by
    intro tid
    by_cases hlt : tid < 1
    · obtain rfl : tid = 0 := by omega
      exact Option.isNone_iff_eq_none.mp (by decide +kernel)
    · refine reached_idle (hany.mono (fun _ h => ⟨_, h⟩) fun _ _ _ h => h) tid ?_
      have hnext : (sampleServer tidyTest offerAbc).nextTask = 1 := by decide +kernel
      omega
  have hpart : (sampleServer tidyTest offerAbc).shared.spool.part "x" = some 0 := by decide +kernel
  obtain ⟨hcap, howned⟩ := push_resources_bounded sampleEnv Spool.empty nofun
  exact ⟨hreach, hidle, hpart, howned _ hreach hidle "x" 0 hpart (Nat.le_refl 0), hcap _ hany⟩

def narrowEnv : Env := { sampleEnv with push := { sampleEnv.push with maxConcurrent := 1 } }

abbrev twoIds : Postcard Manifest where
  fromBytes b :=
    if b = [1] then some (sampleManifest 3 (shortHash [97, 98, 99]))
    else if b = [4] then
      some { sampleManifest 3 (shortHash [97, 98, 99]) with id := ⟨"y", by decide⟩ }
    else none

/-- Two offers that both find the map empty; the second is to be entered when the first has
been. -/
def racingOffers : List Action :=
  [.offer "x" (some [1]) none, .offer "y" (some [4]) none] ++ List.replicate 8 (.run 0 true) ++
    List.replicate 8 (.run 1 true) ++ [.run 0 true, .run 0 true, .run 1 true]

def racedServer : Option (Server × Option Event) :=
  let _ := twoIds
  Server.exec narrowEnv untested racingOffers (Server.start Spool.empty, none)

/-- The offer that is refused at the second check leaves its part behind. -/
theorem refused_offer_leaves_part :
    let _ := twoIds
    ∃ s, Reachable (· = Server.start Spool.empty) (Server.Runs narrowEnv fun _ _ => True) s ∧
      (∀ tid, s.tasks tid = none) ∧ s.shared.spool.part "y" = some 1 ∧ Spool.empty.nextIno ≤ 1 ∧
      s.shared.pushes.lookup "y" = none := by
  let _ := twoIds
  obtain ⟨⟨s, ev⟩, hs⟩ :=
    Option.isSome_iff_exists.mp (show racedServer.isSome = true by decide +kernel)
  have hreach : Reachable (· = Server.start Spool.empty)
      (Server.Runs narrowEnv fun _ _ => True) s := by
    refine exec_reachable (fun _ _ _ _ => trivial) racingOffers (.start ?_) hs
    rfl
  have hserver : ∀ test : Server → Bool, racedServer.all (fun p => test p.1) = true →
      test s = true := by
    intro test h
    rw [hs] at h
    exact h
  have hidle : ∀ tid, s.tasks tid = none := by
    intro tid
    have hnext : s.nextTask = 2 := by
      simpa using hserver (fun s => decide (s.nextTask = 2)) (by decide +kernel)
    by_cases hlt : tid < 2
    · have hnone : (List.range 2).all (fun i => (s.tasks i).isNone) = true :=
        hserver (fun s => (List.range 2).all fun i => (s.tasks i).isNone) (by decide +kernel)
      exact Option.isNone_iff_eq_none.mp (List.all_eq_true.mp hnone tid (List.mem_range.mpr hlt))
    · exact reached_idle (hreach.mono (fun _ h => ⟨_, h⟩) fun _ _ _ h => h) tid (by omega)
  refine ⟨s, hreach, hidle, ?_, Nat.zero_le 1, ?_⟩
  · simpa using hserver (fun s => decide (s.shared.spool.part "y" = some 1)) (by decide +kernel)
  · exact Option.isNone_iff_eq_none.mp
      (hserver (fun s => (s.shared.pushes.lookup "y").isNone) (by decide +kernel))

end Zblob

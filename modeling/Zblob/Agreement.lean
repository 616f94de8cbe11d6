import Zblob.ServerSteps

/-!
Which push an offer is answered from. The conflict test of the first critical section
compares root, length and chunk size with the push in progress; a served blob is compared
by its root alone.
-/

set_option autoImplicit false

namespace Zblob

open Runs (Reachable)

def Task.answer : Task → Option (Offered × Answer)
  | .offer o (.cleanup _ (.resumed a)) => some (o, a)
  | .offer o (.finalize _ a) => some (o, a)
  | .offer o (.reply a) => some (o, a)
  | _ => none

/-- The push an answer comes from, where the handler compared or inserted it itself. -/
def Answered.push : Answered → Option Nat
  | .found _ gen | .inserted _ gen => some gen
  | .registry _ | .joined _ _ => none

/-- What the answer's source has in common with the offer. -/
def Answered.Suits (s : Shared) (o : Offered) : Answered → Prop
  | .registry m => m.root = o.manifest.root
  | .found m gen | .inserted m gen => o.Agrees m ∧ s.history.origin gen = some m
  | .joined m gen => s.history.origin gen = some m

/-- Numbers are given out in order, and every entry is the push its number was given to. -/
structure Numbered (s : Shared) : Prop where
  entry : ∀ id e, s.pushes.lookup id = some e → s.history.origin e.gen = some e.manifest
  below : ∀ gen m, s.history.origin gen = some m → gen < s.history.nextGen

def answerInv : Pool.Invariant Shared Task Unit where
  shared := Numbered
  task s t := ∀ o a, t.answer = some (o, a) → a.source.Suits s o

section Step

variable {env : Env}

def OriginsKept (s s' : Shared) : Prop :=
  ∀ gen m, s.history.origin gen = some m → s'.history.origin gen = some m

theorem Answered.Suits.mono {s s' : Shared} {o : Offered} {src : Answered} (h : src.Suits s o)
    (hkept : OriginsKept s s') : src.Suits s' o := by
  cases src with
  | registry m => exact h
  | found m gen => exact ⟨h.1, hkept gen m h.2⟩
  | inserted m gen => exact ⟨h.1, hkept gen m h.2⟩
  | joined m gen => exact hkept gen m h

theorem origins_open {s : Shared} {id : String} {e : PushEntry} (hs : Numbered s)
    (hgen : e.gen = s.history.nextGen) : OriginsKept s (s.open id e) := by
  intro gen m h
  have hne : gen ≠ e.gen := by
    rw [hgen]
    exact Nat.ne_of_lt (hs.below gen m h)
  simpa [Shared.open, hne] using h

theorem Effect.origins {s s' : Shared} {t : Task} (h : Effect env s t s') (hs : Numbered s) :
    OriginsKept s s' := by
  intro gen m hgen
  cases h.records with
  | fates h => rw [h]; exact hgen
  | opened ht hm hnext hs' => rw [hs']; exact origins_open hs hnext gen m hgen
  | accepted ht hs' => rw [hs']; exact hgen

theorem Effect.numbered {s s' : Shared} {t : Task} (h : Effect env s t s') (hs : Numbered s) :
    Numbered s' := by
  constructor
  · intro k e' he
    rcases h.entries k e' he with ⟨e, he0, hm, -, hg⟩ | ⟨o, st, -, -, -, -, hs'⟩
    · rw [hm, hg]
      exact h.origins hs _ _ (hs.entry k e he0)
    · rw [hs']
      simp [Shared.open]
  · intro gen m hgen
    cases h.records with
    | fates h =>
      rw [h] at hgen ⊢
      exact hs.below gen m hgen
    | accepted ht hs' =>
      rw [hs'] at hgen ⊢
      exact hs.below gen m hgen
    | @opened o st e ht hm hnext hs' =>
      rw [hs'] at hgen ⊢
      by_cases hg : gen = e.gen
      · rw [hg, hnext]
        exact Nat.lt_succ_self _
      · have : gen < s.history.nextGen := hs.below gen m (by simpa [Shared.open, hg] using hgen)
        exact Nat.lt_succ_of_lt this

theorem answerOffer_answer {o : Offered} {a : Answer} :
    (Task.offer o (answerOffer a)).answer = some (o, a) := by
  unfold answerOffer
  split <;> rfl

theorem TaskMove.suits {ok : Bool} {s s' : Shared} {t t' : Task} {ev : Option Event}
    (h : TaskMove env ok s t s' (some t') ev) (hs : Numbered s)
    (ht : ∀ o a, t.answer = some (o, a) → a.source.Suits s o) (o : Offered) (a : Answer)
    (ha : t'.answer = some (o, a)) : a.source.Suits s' o := by
  have hkept := h.effect.origins hs
  have kept : t.answer = some (o, a) → a.source.Suits s' o := fun h0 => (ht o a h0).mono hkept
  cases h with
  | slice h =>
    cases h with
    | save =>
      split at ha <;> cases ha
    | _ => cases ha
  | offer h =>
    cases h with
    | known hin hroot =>
      cases ha
      exact hroot
    | found hin hagree =>
      cases ha
      exact ⟨hagree, hkept _ _ (hs.entry _ _ (evict_sub s _ _ hin))⟩
    | free hno hnext =>
      rcases hnext with rfl | rfl <;> cases ha
    | @clean op todo next =>
      cases next with
      | resumed a0 =>
        cases ha
        exact kept rfl
      | _ => cases ha
    | @cleanFailed op todo next =>
      cases next with
      | resumed a0 =>
        cases ha
        exact kept rfl
      | _ => cases ha
    | resumed =>
      rw [answerOffer_answer] at ha
      cases ha
      exact kept rfl
    | join hin =>
      rw [answerOffer_answer] at ha
      cases ha
      exact hs.entry _ _ hin
    | insert hno =>
      rw [answerOffer_answer] at ha
      cases ha
      exact ⟨⟨rfl, rfl, rfl⟩, by simp [Shared.open]⟩
    | fin h =>
      cases ha
      exact kept rfl
    | finOk h =>
      cases ha
      exact kept rfl
    | _ => cases ha

theorem answers_step {s t : Server} {a : Action} {ev : Option Event} (hI : answerInv.Holds s)
    (h : ServerMove env s a t ev) : answerInv.Holds t := by
  have quiet :
    ∀ s' : Shared, s'.pushes = s.shared.pushes → s'.history.origin = s.shared.history.origin →
      s'.history.nextGen = s.shared.history.nextGen → answerInv.Holds (s.onShared s') := by
    intro s' hp ho hn
    refine hI.onShared ⟨?_, ?_⟩ (fun i u hu o a ha => ?_) (fun _ _ => trivial)
    · rw [hp, ho]
      exact hI.shared.entry
    · rw [ho, hn]
      exact hI.shared.below
    · refine (hI.task i u hu o a ha).mono fun gen m hg => ?_
      rw [ho]
      exact hg
  cases h with
  | tick => exact quiet _ rfl rfl rfl
  | @offer keyId payload token o hid =>
    refine (quiet (s.shared.noteOffer keyId o.manifest) rfl rfl rfl).spawn ?_ fun _ =>
      ⟨trivial, trivial⟩
    intro o a ha
    cases ha
  | refused => exact hI
  | slice hpush =>
    refine hI.spawn ?_ fun _ => ⟨trivial, trivial⟩
    intro o a ha
    cases ha
  | register h =>
    cases h with
    | unchanged => exact hI
    | added => exact quiet _ rfl rfl rfl
  | unregister => exact quiet _ rfl rfl rfl
  | run ht h =>
    refine hI.resume ht (h.effect.numbered hI.shared) ?_ ?_ (fun _ _ _ _ _ _ => ⟨trivial, trivial⟩)
      (fun _ _ _ _ => trivial)
    · rintro v rfl o a ha
      exact h.suits hI.shared (hI.task _ _ ht) o a ha
    · intro j u _ hu o a ha
      exact (hI.task j u hu o a ha).mono (h.effect.origins hI.shared)

theorem answers_start (spool : Spool) : answerInv.Holds (Server.start spool) := by
  apply Pool.Invariant.Holds.empty
  · constructor
    · intro id e he
      simp at he
    · intro gen m h
      cases h
  · intro
    trivial

theorem step_origins {s t : Server} {a : Action} {ev : Option Event} (hs : Numbered s.shared)
    (h : ServerMove env s a t ev) : OriginsKept s.shared t.shared := by
  cases h with
  | run ht h => exact h.effect.origins hs
  | register h =>
    cases h with
    | unchanged => exact fun _ _ h => h
    | added => exact fun _ _ h => h
  | _ => exact fun _ _ h => h

theorem wanted_answer {s t : Server} {a : Action} {o : Offered} {ans : Answer}
    (h : ServerMove env s a t (some (.wanted o ans))) :
    ∃ tid, s.tasks tid = some (.offer o (.reply ans)) := by
  cases h with
  | run ht h =>
    cases h with
    | accepted h =>
      cases h with
      | reply => exact ⟨_, ht⟩

theorem Answered.Suits.push {s : Shared} {o : Offered} {src : Answered} {gen : Nat}
    (h : src.Suits s o) (hp : src.push = some gen) :
    ∃ m, s.history.origin gen = some m ∧ o.Agrees m := by
  cases src with
  | registry m => cases hp
  | joined m g => cases hp
  | found m g =>
    cases hp
    exact ⟨m, h.2, h.1⟩
  | inserted m g =>
    cases hp
    exact ⟨m, h.2, h.1⟩

end Step

section Runs

variable [Postcard Manifest] {env : Env}

theorem answers_run {s t : Server} {allowed : Server → Action → Prop} (hI : answerInv.Holds s)
    (h : Reachable (fun u => u = s) (Server.Runs env allowed) t) :
    answerInv.Holds t ∧ OriginsKept s.shared t.shared := by
  induction h with
  | start h0 =>
    subst h0
    exact ⟨hI, fun _ _ h => h⟩
  | next _ hs ih =>
    obtain ⟨hIu, hkept⟩ := ih
    obtain ⟨-, ev, hstep⟩ := hs
    have hmove := step_move hstep
    exact ⟨answers_step hIu hmove, fun g m hg => step_origins hIu.shared hmove g m (hkept g m hg)⟩

theorem reached_answers {s : Server} (h : Server.Reached env s) : answerInv.Holds s := by
  apply Reachable.invariant _ _ h
  · rintro s ⟨spool, rfl⟩
    exact answers_start spool
  · rintro s a t hI ⟨-, ev, hstep⟩
    exact answers_step hI (step_move hstep)

theorem wanted_suits {s t : Server} {a : Action} {o : Offered} {ans : Answer}
    (hI : answerInv.Holds s)
    (h : s.step env a = some (t, some (.wanted o ans))) : ans.source.Suits t.shared o := by
  have hmove := step_move h
  obtain ⟨tid, htid⟩ := wanted_answer hmove
  exact (hI.task tid _ htid o ans rfl).mono (step_origins hI.shared hmove)

/-- Of an accepted offer: one answered from a served blob has its root, one answered from
the push it found first or from the push it inserted agrees with that push in root, length
and chunk size, and so do any two answered from the same push. An offer whose first critical
section sees a live push that disagrees is refused. -/
theorem offer_agreement (s : Server) (h : Server.Reached env s) :
    (∀ a t o ans, s.step env a = some (t, some (.wanted o ans)) → ans.source.Suits t.shared o) ∧
    (∀ tid ok o e, s.tasks tid = some (.offer o .first) → s.shared.pushes.lookup o.id = some e →
      o.id ∉ stale env s.shared → ¬ o.Agrees e.manifest →
      ∃ t, s.step env (.run tid ok) = some (t, some .refused)) ∧
    ∀ a t o ans, s.step env a = some (t, some (.wanted o ans)) →
      ∀ s', Reachable (fun u => u = t) (Server.Runs env fun _ _ => True) s' →
        ∀ a' t' o' ans' gen, s'.step env a' = some (t', some (.wanted o' ans')) →
          ans.source.push = some gen → ans'.source.push = some gen →
            o.manifest.geometry = o'.manifest.geometry := by
  have hI := reached_answers h
  refine ⟨fun a t o ans hstep => wanted_suits hI hstep, ?_, ?_⟩
  · intro tid ok o e htid hin hlive hne
    have hlook : (evict env s.shared).pushes.lookup o.id = some e := by
      rw [evict_lookup, if_neg hlive]
      exact hin
    refine ⟨s.resume tid (evict env s.shared) none, ?_⟩
    have htest : e.manifest.root ≠ o.manifest.root ∨ e.manifest.totalLen ≠ o.manifest.totalLen ∨
        e.manifest.chunkSize ≠ o.manifest.chunkSize := by
      by_contra hall
      simp only [not_or, ne_eq, not_not] at hall
      exact hne hall
    simp [Server.step, htid, taskStep, offerStep, hlook, htest]
  · intro a t o ans hstep s' hrun a' t' o' ans' gen hstep' hpush hpush'
    obtain ⟨m, hm, hagree⟩ := (wanted_suits hI hstep).push hpush
    obtain ⟨hI', hkept⟩ := answers_run (answers_step hI (step_move hstep)) hrun
    obtain ⟨m', hm', hagree'⟩ := (wanted_suits hI' hstep').push hpush'
    have hsame := step_origins hI'.shared (step_move hstep') gen m (hkept gen m hm)
    obtain rfl : m = m' := Option.some.inj (hsame.symm.trans hm')
    obtain ⟨h1, h2, h3⟩ := hagree
    obtain ⟨h1', h2', h3'⟩ := hagree'
    simp only [Manifest.geometry, Prod.mk.injEq]
    exact ⟨h1.symm.trans h1', h2.symm.trans h2', h3.symm.trans h3'⟩

end Runs

/-- Two offers of the empty blob, the second after the first has been registered, up to
their replies. -/
def offerTwice (payload : Bytes) : List Action :=
  offerEmpty ++ [.run 0 true, .offer "x" (some payload) none, .run 1 true]

/-- The reply to the first of them is from the push it inserted. -/
theorem offer_agreement_empty :
    let _ := pushPostcard
    let s := sampleServer untested (offerTwice [0])
    Server.Reached sampleEnv s ∧ ∃ t o ans, s.step sampleEnv (.run 0 true) =
      some (t, some (.wanted o ans)) ∧
      ans.source.push = some 0 ∧ ans.source.Suits t.shared o := by
  let _ := pushPostcard
  have hreach : Server.Reached sampleEnv (sampleServer untested (offerTwice [0])) :=
    sample_untested (by decide +kernel)
  obtain ⟨t, o, ans, hstep, hpush⟩ := accepts_iff.mp
    (show accepts ((sampleServer untested (offerTwice [0])).step sampleEnv (.run 0 true))
      (fun _ ans => decide (ans.source.push = some 0)) = true by decide +kernel)
  exact ⟨hreach, t, o, ans, hstep, of_decide_eq_true hpush,
    (offer_agreement _ hreach).1 _ t o ans hstep⟩

/-- A served blob acknowledges an offer of the same content in chunks of another size. -/
theorem registry_ack_ignores_chunk_size :
    let _ := pushPostcard
    let s := sampleServer untested (offerTwice [3])
    Server.Reached sampleEnv s ∧ ∃ t o ans, s.step sampleEnv (.run 1 true) =
      some (t, some (.wanted o ans)) ∧
      ans.source.manifest.chunkSize ≠ o.manifest.chunkSize := by
  let _ := pushPostcard
  obtain ⟨t, o, ans, hstep, hne⟩ := accepts_iff.mp
    (show accepts ((sampleServer untested (offerTwice [3])).step sampleEnv (.run 1 true))
      (fun o ans => decide (ans.source.manifest.chunkSize ≠ o.manifest.chunkSize)) = true by
        decide +kernel)
  exact ⟨sample_untested (by decide +kernel), t, o, ans, hstep, of_decide_eq_true hne⟩

end Zblob

import Zblob.ServerSteps

/-!
What pushes may do to the registry: they add to it and never change or remove an entry,
and what they add was offered under that id, hashed and measured.
-/

set_option autoImplicit false

namespace Zblob

open Runs (Reachable)

def OfferedAs (s : Shared) (id : String) (m : Manifest) : Prop :=
  m.id.str = id ∧ (id, m) ∈ s.history.offered

def Fin.From (s : Shared) (id : String) : Fin → Prop
  | .take => True
  | .rename e | .removeMeta e | .hash e | .removeBad e _ | .removeDup e _ =>
    OfferedAs s id e.manifest
  | .register e root len =>
    OfferedAs s id e.manifest ∧ root = e.manifest.root ∧ len = e.manifest.totalLen.toNat

def Task.From (s : Shared) (t : Task) : Prop :=
  (∀ o pc, t = .offer o pc → OfferedAs s o.id o.manifest) ∧
    ∀ id f, t.fin = some (id, f) → f.From s id

def offeredInv : Pool.Invariant Shared Task Unit where
  shared s := ∀ id e, s.pushes.lookup id = some e → OfferedAs s id e.manifest
  task := Task.From

section Step

variable {env : Env}

theorem OfferedAs.mono {s s' : Shared} {id : String} {m : Manifest} (h : OfferedAs s id m)
    (hsub : ∀ x ∈ s.history.offered, x ∈ s'.history.offered) : OfferedAs s' id m :=
  ⟨h.1, hsub _ h.2⟩

theorem Fin.From.mono {s s' : Shared} {id : String} {f : Fin} (h : f.From s id)
    (hsub : ∀ x ∈ s.history.offered, x ∈ s'.history.offered) : f.From s' id := by
  cases f with
  | take => trivial
  | register e root len => exact ⟨h.1.mono hsub, h.2⟩
  | _ => exact OfferedAs.mono h hsub

theorem Task.From.mono {s s' : Shared} {t : Task} (h : t.From s)
    (hsub : ∀ x ∈ s.history.offered, x ∈ s'.history.offered) : t.From s' :=
  ⟨fun o pc ht => (h.1 o pc ht).mono hsub, fun id f hf => (h.2 id f hf).mono hsub⟩

theorem FinMove.from {s s' : Shared} {id : String} {f f' : Fin}
    (hin : ∀ id e, s.pushes.lookup id = some e → OfferedAs s id e.manifest)
    (h : f.From s id) (hmove : FinMove env id s f s' (.go f')) : f'.From s id := by
  cases hmove with
  | take hlook => exact hin _ _ hlook
  | rename => exact h
  | removeMeta => exact h
  | keepMeta => exact h
  | mismatch => exact h
  | hashed hb hroot hlen => exact ⟨h, hroot, hlen⟩
  | dup => exact h.1

theorem TaskMove.offer_kept {ok : Bool} {s s' : Shared} {t t' : Task} {ev : Option Event}
    (h : TaskMove env ok s t s' (some t') ev) {o : Offered} {pc : OfferPc} (ht : t' = .offer o pc) :
    ∃ pc, t = .offer o pc := by
  cases h with
  | offer h =>
    cases ht
    exact ⟨_, rfl⟩
  | slice h => cases ht

theorem offered_task {s : Server} {tid : Nat} {ok : Bool} {t : Task}
    {s' : Shared} {t' : Option Task}
    {ev : Option Event} (hI : offeredInv.Holds s) (ht : s.tasks tid = some t)
    (h : TaskMove env ok s.shared t s' t' ev) : offeredInv.Holds (s.resume tid s' t') := by
  have hsub : ∀ x ∈ s.shared.history.offered, x ∈ s'.history.offered := by
    rw [h.effect.offered]
    exact fun x hx => hx
  have hfrom := hI.task tid t ht
  refine hI.resume ht ?_ ?_ ?_ ?_ ?_
  · intro k e' he
    rcases h.effect.entries k e' he with ⟨e, he0, hm, -⟩ | ⟨o, st, rfl, rfl, hm, -⟩
    · rw [hm]
      exact (hI.shared k e he0).mono hsub
    · rw [hm]
      exact (hfrom.1 o _ rfl).mono hsub
  · rintro v rfl
    constructor
    · intro o pc hv
      obtain ⟨pc0, rfl⟩ := h.offer_kept hv
      exact (hfrom.1 o pc0 rfl).mono hsub
    · intro id f hf
      rcases h.fin hf with rfl | ⟨f0, hf0, hmove⟩
      · trivial
      · exact (hmove.from hI.shared (hfrom.2 id f0 hf0)).mono hsub
  · intro j u hj hu
    exact (hI.task j u hu).mono hsub
  · intros
    exact ⟨trivial, trivial⟩
  · intros
    trivial

theorem offered_step {s t : Server} {a : Action} {ev : Option Event} (hI : offeredInv.Holds s)
    (h : ServerMove env s a t ev) : offeredInv.Holds t := by
  -- a change that keeps the map and forgets no offer
  have quiet : ∀ s' : Shared, s'.pushes = s.shared.pushes →
      (∀ x ∈ s.shared.history.offered, x ∈ s'.history.offered) →
      offeredInv.Holds (s.onShared s') := by
    intro s' hp hsub
    refine hI.onShared ?_ (fun i u hu => (hI.task i u hu).mono hsub) (fun _ _ => trivial)
    intro k e he
    rw [hp] at he
    exact (hI.shared k e he).mono hsub
  cases h with
  | tick => exact quiet _ rfl fun x hx => hx
  | @offer keyId payload token o hid =>
    have hnote := quiet (s.shared.noteOffer keyId o.manifest) rfl
      fun x hx => List.mem_cons_of_mem _ hx
    refine hnote.spawn ?_ fun _ => ⟨trivial, trivial⟩
    refine ⟨fun o pc ho => ?_, fun id f hf => by cases hf⟩
    cases ho
    exact ⟨rfl, by simp [Pool.onShared, Shared.noteOffer, ← hid, Offered.id]⟩
  | refused => exact hI
  | slice hpush =>
    refine hI.spawn ⟨fun o pc ho => ?_, fun id f hf => ?_⟩ fun _ => ⟨trivial, trivial⟩
    · cases ho
    · cases hf
  | run ht h => exact offered_task hI ht h
  | register h =>
    cases h with
    | unchanged => exact hI
    | added => exact quiet _ rfl fun x hx => hx
  | unregister => exact quiet _ rfl fun x hx => hx

theorem offered_start (spool : Spool) : offeredInv.Holds (Server.start spool) := by
  apply Pool.Invariant.Holds.empty
  · intro id e he
    simp at he
  · intro
    trivial

end Step

/-- Registered for good: what one step may do to the registry. -/
theorem registry_step {env : Env} {s t : Server} {a : Action} {ev : Option Event}
    (h : ServerMove env s a t ev) {id : String} (hno : a ≠ .unregister id) {r : Registered}
    (hr : s.shared.registry id = some r) (hI : offeredInv.Holds s) :
    t.shared.registry id = some r := by
  -- an id that was free is not this one
  have added : ∀ k r', s.shared.registry k = none →
      Function.update s.shared.registry k (some r') id = some r := by
    intro k r' hk
    have hne : id ≠ k := by
      rintro rfl
      rw [hk] at hr
      cases hr
    rwa [Function.update_of_ne hne]
  cases h with
  | run ht h =>
    rcases h.effect.gains with hreg | ⟨k, e, root, len, hf, hk, hreg⟩
    · exact (congrFun hreg id).trans hr
    · have hid := ((hI.task _ _ ht).2 k _ hf).1.1
      refine (congrFun hreg id).trans (added _ _ ?_)
      rw [hid, hk]
  | register h =>
    cases h with
    | unchanged => exact hr
    | added hk => exact added _ _ hk
  | @unregister k =>
    have hk : id ≠ k := by
      rintro rfl
      exact hno rfl
    simpa [Pool.onShared, Shared.unserve, hk] using hr
  | _ => exact hr

section Runs

variable [Postcard Manifest] {env : Env}

theorem reached_offered {s : Server} (h : Server.Reached env s) : offeredInv.Holds s := by
  apply Reachable.invariant _ _ h
  · rintro s ⟨spool, rfl⟩
    exact offered_start spool
  · rintro s a t hI ⟨-, ev, hstep⟩
    exact offered_step hI (step_move hstep)

end Runs

/-- What an entry of the registry says of itself when a push has added it. -/
structure PushedAs (s : Server) (id : String) (r : Registered) : Prop where
  root : r.outboardRoot = r.manifest.root
  len : r.outboardLen = r.manifest.totalLen.toNat
  key : r.manifest.id.str = id
  offered : (id, r.manifest) ∈ s.shared.history.offered
  geometry : TransferChunks.new r.manifest.chunkSize r.manifest.totalLen = .ok r.chunks

/-- From any state a server can get to: a step other than an explicit unregistration keeps
every entry, a step that adds one without registering it locally is a push that was offered
and hashed, and over a run without unregistrations the registry only grows. -/
theorem push_never_displaces [Postcard Manifest] (env : Env) (s : Server)
    (h : Server.Reached env s) :
    (∀ a t ev, s.step env a = some (t, ev) →
      (∀ id r, s.shared.registry id = some r → t.shared.registry id = some r ∨ a = .unregister id) ∧
      (∀ id r, s.shared.registry id = none → t.shared.registry id = some r →
        (∃ spec root len, a = .register spec root len) ∨ PushedAs s id r)) ∧
    ∀ t, Reachable (fun u => u = s) (Server.Runs env fun _ a => ∀ id, a ≠ .unregister id) t →
      ∀ id r, s.shared.registry id = some r → t.shared.registry id = some r := by
  have hI := reached_offered h
  refine ⟨fun a t ev hstep => ⟨fun id r hr => ?_, fun id r hnone hr => ?_⟩, fun t ht id r hr => ?_⟩
  · by_cases ha : a = .unregister id
    · exact .inr ha
    · exact .inl (registry_step (step_move hstep) ha hr hI)
  · cases step_move hstep with
    | run htask hmove =>
      rcases hmove.effect.gains with hreg | ⟨k, e, root, len, hf, hk, hreg⟩
      · rw [← hreg] at hnone
        exact absurd (hr.symm.trans hnone) nofun
      · obtain ⟨⟨hid, hoff⟩, hroot, hlen⟩ := (hI.task _ _ htask).2 k _ hf
        have hset := (congrFun hreg id).symm.trans hr
        by_cases hidk : id = e.manifest.id.str
        · subst hidk
          rw [Function.update_self] at hset
          cases hset
          refine .inr ⟨hroot, hlen, rfl, ?_, e.geometry⟩
          rw [hid]
          exact hoff
        · rw [Function.update_of_ne hidk, hnone] at hset
          cases hset
    | register => exact .inl ⟨_, _, _, rfl⟩
    | @unregister k =>
      simp only [Pool.onShared, Shared.unserve] at hr
      by_cases hk : id = k
      · rw [hk, Function.update_self] at hr
        cases hr
      · rw [Function.update_of_ne hk, hnone] at hr
        cases hr
    | _ => exact absurd (hr.symm.trans hnone) nofun
  · have hkeep : offeredInv.Holds t ∧ t.shared.registry id = some r := by
      apply Reachable.invariant _ _ ht
      · rintro u rfl
        exact ⟨hI, hr⟩
      · rintro u a v ⟨hIu, hru⟩ ⟨hno, ev, hstep⟩
        exact ⟨offered_step hIu (step_move hstep), registry_step (step_move hstep) (hno id) hru hIu⟩
    exact hkeep.2

/-- The step that registers the empty blob. -/
theorem push_never_displaces_empty :
    let _ := pushPostcard
    let s := sampleServer untested offerEmpty
    Server.Reached sampleEnv s ∧ s.shared.registry "x" = none ∧ ∃ t ev r,
      s.step sampleEnv (.run 0 true) = some (t, ev) ∧ t.shared.registry "x" = some r ∧
        PushedAs s "x" r := by
  let _ := pushPostcard
  have hreach : Server.Reached sampleEnv (sampleServer untested offerEmpty) :=
    sample_untested (by decide +kernel)
  have hnone : (sampleServer untested offerEmpty).shared.registry "x" = none :=
    Option.isNone_iff_eq_none.mp (by decide +kernel)
  obtain ⟨⟨t, ev⟩, hstep⟩ := Option.isSome_iff_exists.mp
    (show ((sampleServer untested offerEmpty).step sampleEnv (.run 0 true)).isSome =
      true by decide +kernel)
  obtain ⟨r, hr⟩ : ∃ r, t.shared.registry "x" = some r := by
    have h : (((sampleServer untested offerEmpty).step sampleEnv (.run 0 true)).bind
        fun t => t.1.shared.registry "x").isSome = true := by decide +kernel
    rw [hstep] at h
    exact Option.isSome_iff_exists.mp h
  refine ⟨hreach, hnone, t, ev, r, hstep, hr, ?_⟩
  rcases ((push_never_displaces sampleEnv _ hreach).1 _ t ev hstep).2 "x" r hnone hr with
    ⟨spec, root, len, ha⟩ | hpush
  · cases ha
  · exact hpush

end Zblob

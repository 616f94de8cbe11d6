import Zblob.Registry
import Zblob.Agreement

/-!
What an acknowledgement of completion is worth. The entry of a push leaves the map before
its blob enters the registry, and it leaves the map too when the push is evicted or its
finalization fails; a handler that finds it gone acknowledges completion all the same.
-/

set_option autoImplicit false

namespace Zblob

open Runs (Reachable)

def RootServed (s : Shared) (id : String) (root : Hash) : Prop :=
  ∃ r, s.registry id = some r ∧ r.manifest.root = root

def Fin.entry : Fin → Option PushEntry
  | .take => none
  | .rename e | .removeMeta e | .hash e | .removeBad e _ | .register e _ _ | .removeDup e _ =>
    some e

def Task.id : Task → String
  | .offer o _ => o.id
  | .slice r _ => r.id

def Task.root : Task → Option Hash
  | .offer o _ => some o.manifest.root
  | .slice r _ => r.push.map fun p => p.2.root

def Task.gen (t : Task) : Option Nat :=
  match t with
  | .offer _ _ => t.answer.bind fun p => p.2.source.gen
  | .slice r _ => r.push.map fun p => p.1

def Task.Completes : Task → Prop
  | .offer _ (.reply a) => a.wanted = []
  | .slice _ (.reply n) => n = 0
  | _ => False

/-- A handler that returns to the map finds its own push there, or finds it gone because
it has been registered: not because it is still being finalized, has been lost, or has been
replaced by a push of other content. -/
structure Task.InTime (s : Shared) (t : Task) : Prop where
  joins : ∀ o st e, t = .offer o (.insert st) → s.pushes.lookup o.id = some e →
    e.manifest.root = o.manifest.root
  takes : ∀ root e, t.fin = some (t.id, .take) → t.root = some root →
    s.pushes.lookup t.id = some e → e.manifest.root = root
  gone : ∀ root, t.fin = some (t.id, .take) → t.root = some root → s.pushes.lookup t.id = none →
    ∃ g, t.gen = some g ∧ s.history.fate g = .served
  marks : ∀ r snap p, t = .slice r (.mark snap) → r.push = some p → s.pushes.lookup r.id = none →
    s.history.fate p.1 = .served
  served : ∀ r p reg, t = .slice r .registry → r.push = some p → s.registry r.id = some reg →
    reg.manifest.root = p.2.root

/-- What a handler of a push to `id` can rely on, given the root it works for. -/
structure Task.Promises (s : Shared) (id : String) (t : Task) (root : Hash) : Prop where
  own : ∀ g, t.gen = some g → ∃ m, s.history.origin g = some m ∧ m.id.str = id ∧ m.root = root
  taken : ∀ f e, t.fin = some (id, f) → f.entry = some e → e.manifest.root = root
  completes : t.Completes → RootServed s id root

structure Task.Finishes (s : Shared) (id : String) (t : Task) : Prop where
  origin : ∀ k f e, t.fin = some (k, f) → f.entry = some e →
    s.history.origin e.gen = some e.manifest
  dup : ∀ e, t.fin = some (id, .removeDup e true) → RootServed s id e.manifest.root

/-- The pushes of `id` that count as served are served, and an accepted offer of `id` was
answered from a push of the same root. -/
structure Kept (s : Shared) (id : String) : Prop where
  served : ∀ g m, s.history.fate g = .served → s.history.origin g = some m → m.id.str = id →
    RootServed s id m.root
  accepted : ∀ p ∈ s.history.accepted, p.2.id.str = id →
    ∃ m, s.history.origin p.1 = some m ∧ m.id.str = id ∧ m.root = p.2.root

def completionInv (id : String) : Pool.Invariant Shared Task Unit where
  shared s := Kept s id
  task s t := t.Finishes s id ∧ ∀ root, t.id = id → t.root = some root → t.Promises s id root

section Step

variable {env : Env} {id : String}

theorem TaskMove.same {ok : Bool} {s s' : Shared} {t t' : Task} {ev : Option Event}
    (h : TaskMove env ok s t s' (some t') ev) : t'.id = t.id ∧ t'.root = t.root := by
  cases h with
  | offer h => exact ⟨rfl, rfl⟩
  | slice h => exact ⟨rfl, rfl⟩

theorem Task.fin_id {t : Task} {k : String} {f : Fin} (h : t.fin = some (k, f)) : k = t.id := by
  unfold Task.fin at h
  split at h <;> cases h <;> rfl

theorem RootServed.mono {s s' : Shared} {root : Hash} (h : RootServed s id root)
    (hreg : ∀ r, s.registry id = some r → s'.registry id = some r) : RootServed s' id root := by
  obtain ⟨r, hr, hroot⟩ := h
  exact ⟨r, hreg r hr, hroot⟩

theorem foldl_drop_served (ids : List String) (s : Shared) (g : Nat)
    (h : (ids.foldl Shared.drop s).history.fate g = .served) : s.history.fate g = .served := by
  induction ids generalizing s with
  | nil => exact h
  | cons id ids ih =>
    have hd := ih (s.drop id) h
    unfold Shared.drop at hd
    split at hd
    · rename_i e _
      simp only [Shared.setFate, History.setFate, erase_history] at hd
      by_cases hg : g = e.gen
      · rw [hg, Function.update_self] at hd
        cases hd
      · rwa [Function.update_of_ne hg] at hd
    · exact hd

def ServedBy (s s' : Shared) (t : Task) : Prop :=
  ∀ g, s'.history.fate g = .served → s.history.fate g = .served ∨
    ∃ k f e, t.fin = some (k, f) ∧ f.entry = some e ∧ g = e.gen ∧
      ((∃ root len, f = .register e root len ∧ s'.registry e.manifest.id.str =
          some ⟨e.manifest, e.chunks, .spooled, root, len⟩) ∨ f = .removeDup e true)

theorem servedBy_setFate {s s' : Shared} {t : Task} {g : Nat} {fate : Fate} (hne : fate ≠ .served)
    (h : s'.history.fate = Function.update s.history.fate g fate) : ServedBy s s' t := by
  intro g' hg'
  rw [h] at hg'
  by_cases hg : g' = g
  · rw [hg, Function.update_self] at hg'
    exact absurd hg' hne
  · rw [Function.update_of_ne hg] at hg'
    exact .inl hg'

theorem servedBy_of_eq {s s' : Shared} {t : Task} (h : s'.history.fate = s.history.fate) :
    ServedBy s s' t := by
  intro g hg
  rw [h] at hg
  exact .inl hg

theorem FinMove.servedBy {s s' : Shared} {t : Task} {k : String} {f : Fin} {out : FinOut}
    (h : FinMove env k s f s' out) (ht : t.fin = some (k, f)) : ServedBy s s' t := by
  cases h with
  | take => exact servedBy_setFate (show Fate.finalizing ≠ .served from nofun) rfl
  | renameFailed => exact servedBy_setFate (show Fate.lost ≠ .served from nofun) rfl
  | hashFailed => exact servedBy_setFate (show Fate.lost ≠ .served from nofun) rfl
  | removeBad => exact servedBy_setFate (show Fate.lost ≠ .served from nofun) rfl
  | removeOther => exact servedBy_setFate (show Fate.lost ≠ .served from nofun) rfl
  | @register e root len hno =>
    intro g hg
    by_cases hge : g = e.gen
    · refine .inr ⟨k, _, e, ht, rfl, hge, .inl ⟨root, len, rfl, ?_⟩⟩
      simp [Shared.serve]
    · exact .inl (by simpa [Shared.setFate, History.setFate, hge] using hg)
  | @removeSame e sp hsp =>
    intro g hg
    by_cases hge : g = e.gen
    · exact .inr ⟨k, _, e, ht, rfl, hge, .inr rfl⟩
    · exact .inl (by simpa [Shared.setFate, History.setFate, hge] using hg)
  | _ => exact servedBy_of_eq rfl

theorem Effect.servedBy {s s' : Shared} {t : Task} (h : Effect env s t s') : ServedBy s s' t := by
  cases h with
  | evicted => exact fun g hg => .inl (foldl_drop_served _ s g hg)
  | found => exact fun g hg => .inl (foldl_drop_served _ s g hg)
  | opened => exact servedBy_setFate (show Fate.opened ≠ .served from nofun) rfl
  | fin ht h => exact h.servedBy ht
  | _ => exact servedBy_of_eq rfl

theorem FinMove.completes {s s' : Shared} {t : Task} {f : Fin} {root : Hash}
    (h : FinMove env id s f s' .ok) (ht : t.fin = some (id, f)) (hroot : t.root = some root)
    (hkept : Kept s id) (hfrom : t.From s) (hfin : t.Finishes s id) (hprom : t.Promises s id root)
    (htime : t.InTime s) : RootServed s' id root := by
  have hid := Task.fin_id ht
  cases h with
  | gone hno =>
    subst hid
    obtain ⟨g, hg, hfate⟩ := htime.gone root ht hroot hno
    obtain ⟨m, hm, hmid, rfl⟩ := hprom.own g hg
    exact hkept.served g m hfate hm hmid
  | @register e r len hno =>
    have hkey := (hfrom.2 id _ ht).1.1
    exact ⟨⟨e.manifest, e.chunks, .spooled, r, len⟩, by simp [Shared.serve, hkey],
      hprom.taken _ e ht rfl⟩
  | @removeSame e sp hsp =>
    rw [← hprom.taken _ e ht rfl]
    exact hfin.dup e ht

theorem answerOffer_completes {o : Offered} {a : Answer} :
    ¬ (Task.offer o (answerOffer a)).Completes := by
  unfold answerOffer
  split
  · exact id
  · rename_i hne
    intro hnil
    exact hne (by rw [show a.wanted = [] from hnil]; rfl)

theorem TaskMove.gen_from {ok : Bool} {s s' : Shared} {t t' : Task} {ev : Option Event}
    (h : TaskMove env ok s t s' (some t') ev) {g : Nat} (hg : t'.gen = some g) :
    t.gen = some g ∨ ∃ o pc, t = .offer o pc ∧
      ((∃ e, s.pushes.lookup o.id = some e ∧ e.gen = g ∧
        (e.manifest.root = o.manifest.root ∨ ∃ st, pc = .insert st)) ∨
      s'.history.origin g = some o.manifest) := by
  cases h with
  | slice h => exact .inl hg
  | offer h =>
    cases h with
    | found hin hagree =>
      cases hg
      exact .inr ⟨_, _, rfl, .inl ⟨_, evict_sub s _ _ hin, rfl, .inl hagree.1⟩⟩
    | free hno hnext => rcases hnext with rfl | rfl <;> cases hg
    | @clean op todo next =>
      cases next with
      | resumed a => exact .inl hg
      | _ => cases hg
    | @cleanFailed op todo next =>
      cases next with
      | resumed a => exact .inl hg
      | _ => cases hg
    | resumed =>
      rw [Task.gen, answerOffer_answer] at hg
      exact .inl hg
    | join hin =>
      rw [Task.gen, answerOffer_answer] at hg
      cases hg
      exact .inr ⟨_, _, rfl, .inl ⟨_, hin, rfl, .inr ⟨_, rfl⟩⟩⟩
    | insert hno =>
      rw [Task.gen, answerOffer_answer] at hg
      cases hg
      exact .inr ⟨_, _, rfl, .inr (by simp [Shared.open])⟩
    | fin h => exact .inl hg
    | finOk h => exact .inl hg
    | _ => cases hg

theorem TaskMove.promises {ok : Bool} {s s' : Shared} {t t' : Task}
    {ev : Option Event} {root : Hash}
    (h : TaskMove env ok s t s' (some t') ev) (hid : t.id = id) (hroot : t.root = some root)
    (hreg : ∀ r, s.registry id = some r → s'.registry id = some r) (hnum : Numbered s)
    (hentries : ∀ k e, s.pushes.lookup k = some e → OfferedAs s k e.manifest)
    (hkept : Kept s id) (hfrom : t.From s) (hfin : t.Finishes s id) (hprom : t.Promises s id root)
    (htime : t.InTime s) : t'.Promises s' id root := by
  have horig := h.effect.origins hnum
  refine ⟨fun g hg => ?_, fun f e hf he => ?_, fun hc => ?_⟩
  · rcases h.gen_from hg with hg | ⟨o, pc, rfl, hsrc⟩
    · obtain ⟨m, hm, hmid, hmroot⟩ := hprom.own g hg
      exact ⟨m, horig g m hm, hmid, hmroot⟩
    · cases hroot
      rcases hsrc with ⟨e, hin, rfl, hr⟩ | hopen
      · refine ⟨e.manifest, horig _ _ (hnum.entry _ e hin), ?_, ?_⟩
        · rw [(hentries _ e hin).1]
          exact hid
        · rcases hr with hr | ⟨st, rfl⟩
          · exact hr
          · exact htime.joins o st e rfl hin
      · exact ⟨o.manifest, hopen, hid, rfl⟩
  · rcases h.fin hf with rfl | ⟨f0, hf0, hmove⟩
    · cases he
    · have hkeep : ∀ e', f0.entry = some e' → e'.manifest.root = root := fun e' he' =>
        hprom.taken f0 e' hf0 he'
      cases hmove with
      | take hin =>
        cases he
        subst hid
        exact htime.takes root e hf0 hroot hin
      | _ =>
        cases he
        exact hkeep e rfl
  · cases h with
    | offer h =>
      cases hroot
      cases h with
      | known hin hr =>
        subst hid
        exact ⟨_, hin, hr⟩
      | resumed => exact absurd hc answerOffer_completes
      | join => exact absurd hc answerOffer_completes
      | insert => exact absurd hc answerOffer_completes
      | finOk h =>
        subst hid
        exact h.completes rfl rfl hkept hfrom hfin hprom htime
      | _ => exact hc.elim
    | @slice _ r pc pc' h =>
      cases h with
      | served hin =>
        obtain ⟨p, hp, rfl⟩ := Option.map_eq_some_iff.mp hroot
        subst hid
        exact ⟨_, hin, htime.served r p _ rfl hp hin⟩
      | mark hin hmore => exact absurd hc hmore
      | save =>
        split at hc
        · exact hc.elim
        · rename_i hne
          exact absurd hc hne
      | finOk h =>
        subst hid
        exact h.completes rfl hroot hkept hfrom hfin hprom htime
      | _ => exact hc.elim

theorem FinMove.finishes {s s' : Shared} {k : String} {f f' : Fin}
    (h : FinMove env k s f s' (.go f')) (hnum : Numbered s)
    (horig : ∀ e, f.entry = some e → s.history.origin e.gen = some e.manifest) :
    (∀ e, f'.entry = some e → s.history.origin e.gen = some e.manifest) ∧
      ∀ e, f' = .removeDup e true → f.entry = some e ∧ RootServed s k e.manifest.root := by
  cases h with
  | take hin =>
    refine ⟨fun e he => ?_, nofun⟩
    cases he
    exact hnum.entry _ _ hin
  | @dup e root len existing hin =>
    refine ⟨horig, fun e' he' => ?_⟩
    injection he' with he1 he2
    subst he1
    exact ⟨rfl, existing, hin, of_decide_eq_true he2⟩
  | _ => exact ⟨horig, nofun⟩

theorem Task.Finishes.mono {s s' : Shared} {t : Task} (h : t.Finishes s id)
    (horig : OriginsKept s s')
    (hreg : ∀ r, s.registry id = some r → s'.registry id = some r) : t.Finishes s' id :=
  ⟨fun k f e hf he => horig _ _ (h.origin k f e hf he), fun e hf => (h.dup e hf).mono hreg⟩

theorem Task.Promises.mono {s s' : Shared} {t : Task} {root : Hash} (h : t.Promises s id root)
    (horig : OriginsKept s s') (hreg : ∀ r, s.registry id = some r → s'.registry id = some r) :
    t.Promises s' id root where
  own g hg := by
    obtain ⟨m, hm, hmid, hmroot⟩ := h.own g hg
    exact ⟨m, horig g m hm, hmid, hmroot⟩
  taken := h.taken
  completes hc := (h.completes hc).mono hreg

theorem TaskMove.finishes {ok : Bool} {s s' : Shared} {t t' : Task} {ev : Option Event}
    (h : TaskMove env ok s t s' (some t') ev) (hnum : Numbered s)
    (hreg : ∀ r, s.registry id = some r → s'.registry id = some r) (hfin : t.Finishes s id) :
    t'.Finishes s' id := by
  have horig := h.effect.origins hnum
  constructor
  · intro k f e hf he
    rcases h.fin hf with rfl | ⟨f0, hf0, hmove⟩
    · cases he
    · exact horig _ _ ((hmove.finishes hnum fun e' he' => hfin.origin k f0 e' hf0 he').1 e he)
  · intro e hf
    rcases h.fin hf with hf | ⟨f0, hf0, hmove⟩
    · cases hf
    · exact ((hmove.finishes hnum fun e' he' => hfin.origin id f0 e' hf0 he').2 e rfl).2.mono hreg

/-- The records of served pushes and accepted offers stay true. -/
theorem Effect.kept {s s' : Shared} {t : Task} (h : Effect env s t s') (hnum : Numbered s)
    (hreg : ∀ r, s.registry id = some r → s'.registry id = some r) (hkept : Kept s id)
    (hfrom : t.From s) (hfin : t.Finishes s id)
    (hprom : ∀ root, t.id = id → t.root = some root → t.Promises s id root) : Kept s' id := by
  have horig := h.origins hnum
  constructor
  · intro g m hfate hm hmid
    rcases h.servedBy g hfate with hold | ⟨k, f, e, ht, he, rfl, hend⟩
    · cases h.records with
      | fates h => exact (hkept.served g m hold (by rw [h] at hm; exact hm) hmid).mono hreg
      | accepted ht hs =>
        rw [hs] at hm ⊢
        exact hkept.served g m hold hm hmid
      | @opened o st e ht he hgen hs =>
        by_cases hg : g = e.gen
        · rw [hs, hg] at hfate
          simp [Shared.open] at hfate
        · rw [hs] at hm ⊢
          exact hkept.served g m hold (by simpa [Shared.open, hg] using hm) hmid
    · have hmk : e.manifest = m :=
        Option.some.inj ((horig _ _ (hfin.origin k f e ht he)).symm.trans hm)
      subst hmk
      rcases hend with ⟨root, len, -, hadd⟩ | rfl
      · rw [hmid] at hadd
        exact ⟨_, hadd, rfl⟩
      · have hk : k = id := by
          rw [← (hfrom.2 k _ ht).1]
          exact hmid
        subst hk
        exact (hfin.dup e ht).mono hreg
  · intro p hp hpid
    have hold : p ∈ s.history.accepted →
        ∃ m, s'.history.origin p.1 = some m ∧ m.id.str = id ∧ m.root = p.2.root := by
      intro hp
      obtain ⟨m, hm, hmid, hmroot⟩ := hkept.accepted p hp hpid
      exact ⟨m, horig _ _ hm, hmid, hmroot⟩
    cases h.records with
    | fates h =>
      rw [h] at hp
      exact hold hp
    | opened ht he hgen hs =>
      rw [hs] at hp
      exact hold hp
    | @accepted o a ht hs =>
      rw [hs] at hp
      rcases List.mem_append.mp hp with hnew | hp
      · obtain ⟨g, hg, rfl⟩ : ∃ g, a.source.gen = some g ∧ (g, o.manifest) = p := by
          simpa using hnew
        subst ht
        obtain ⟨m, hm, hmid, hmroot⟩ := (hprom _ hpid rfl).own g hg
        exact ⟨m, horig _ _ hm, hmid, hmroot⟩
      · exact hold hp

def Server.InTime (id : String) (s : Server) : Action → Prop
  | .run tid _ => ∀ t, s.tasks tid = some t → t.id = id → t.InTime s.shared
  | .register spec _ _ => spec.id ≠ id
  | .unregister k => k ≠ id
  | _ => True

theorem finishes_idle {s : Shared} {t : Task} (h : t.fin = none) : t.Finishes s id := by
  constructor
  · intro k f e hf
    rw [h] at hf
    cases hf
  · intro e hf
    rw [h] at hf
    cases hf

theorem completion_step {s t : Server} {a : Action} {ev : Option Event}
    (hoff : offeredInv.Holds s) (hans : answerInv.Holds s) (hI : (completionInv id).Holds s)
    (hin : s.InTime id a) (h : ServerMove env s a t ev) : (completionInv id).Holds t := by
  have hreg : ∀ r, s.shared.registry id = some r → t.shared.registry id = some r := by
    intro r hr
    refine registry_step h ?_ hr hoff
    rintro rfl
    exact hin rfl
  have horig := step_origins hans.shared h
  have others : ∀ i u, s.tasks i = some u → (completionInv id).task t.shared u := by
    intro i u hu
    obtain ⟨hfin, hprom⟩ := hI.task i u hu
    exact ⟨hfin.mono horig hreg, fun root hid hroot => (hprom root hid hroot).mono horig hreg⟩
  -- a step that leaves the history alone
  have quiet : ∀ s' : Shared, s'.history.fate = s.shared.history.fate →
      s'.history.origin = s.shared.history.origin →
      s'.history.accepted = s.shared.history.accepted →
      (∀ r, s.shared.registry id = some r → s'.registry id = some r) → Kept s' id := by
    intro s' hf ho hacc hr
    constructor
    · rw [hf, ho]
      exact fun g m h1 h2 h3 => (hI.shared.served g m h1 h2 h3).mono hr
    · rw [hacc, ho]
      exact hI.shared.accepted
  cases h with
  | tick => exact hI.onShared (quiet _ rfl rfl rfl hreg) others fun _ _ => trivial
  | @offer keyId payload token o hid =>
    have hnote : (completionInv id).Holds (s.onShared (s.shared.noteOffer keyId o.manifest)) :=
      hI.onShared (quiet _ rfl rfl rfl hreg) others fun _ _ => trivial
    refine hnote.spawn ?_ fun _ => ⟨trivial, trivial⟩
    refine ⟨finishes_idle rfl, fun root _ _ => ⟨fun g hg => ?_, fun f e hf => ?_, fun hc => ?_⟩⟩
    · cases hg
    · cases hf
    · exact hc.elim
  | refused => exact hI
  | @slice r hpush =>
    refine hI.spawn ⟨finishes_idle rfl, fun root hid hroot => ⟨fun g hg => ?_, fun f e hf => ?_,
      fun hc => ?_⟩⟩ fun _ => ⟨trivial, trivial⟩
    · obtain ⟨p, hp, rfl⟩ := Option.map_eq_some_iff.mp hroot
      obtain ⟨hacc, hpid⟩ := hpush p.1 p.2 hp
      obtain rfl : p.1 = g := by simpa [Task.gen, hp] using hg
      exact hI.shared.accepted p hacc (hpid.trans hid)
    · cases hf
    · exact hc.elim
  | @run tid ok u s' u' ev hu h =>
    obtain ⟨hfin, hprom⟩ := hI.task tid u hu
    have hfrom := hoff.task tid u hu
    refine hI.resume hu ?_ ?_ (fun j v _ hv => others j v hv)
      (fun _ _ _ _ _ _ => ⟨trivial, trivial⟩)
      fun _ _ _ _ => trivial
    · exact h.effect.kept hans.shared hreg hI.shared hfrom hfin hprom
    · rintro v rfl
      obtain ⟨hvid, hvroot⟩ := h.same
      refine ⟨h.finishes hans.shared hreg hfin, fun root hid hroot => ?_⟩
      rw [hvid] at hid
      rw [hvroot] at hroot
      exact h.promises hid hroot hreg hans.shared hoff.shared hI.shared hfrom hfin
        (hprom root hid hroot) (hin u hu hid)
  | register h =>
    cases h with
    | unchanged => exact hI
    | added => exact hI.onShared (quiet _ rfl rfl rfl hreg) others fun _ _ => trivial
  | unregister => exact hI.onShared (quiet _ rfl rfl rfl hreg) others fun _ _ => trivial

theorem completion_start (spool : Spool) : (completionInv id).Holds (Server.start spool) := by
  apply Pool.Invariant.Holds.empty
  · exact ⟨nofun, nofun⟩
  · intro
    trivial

def Event.Completes (id : String) (root : Hash) : Event → Prop
  | .wanted o a => o.id = id ∧ o.manifest.root = root ∧ a.wanted = []
  | .remaining r n => r.id = id ∧ n = 0 ∧ ∃ p, r.push = some p ∧ p.2.root = root
  | .refused => False

theorem completes_served {s t : Server} {a : Action} {ev : Event} {root : Hash}
    (hI : (completionInv id).Holds s) (hin : s.InTime id a) (h : ServerMove env s a t (some ev))
    (hc : ev.Completes id root) : RootServed t.shared id root := by
  cases h with
  | refused => exact hc.elim
  | @run tid ok u s' u' ev hu h =>
    have hprom := (hI.task tid u hu).2 root
    cases h with
    | accepted h =>
      cases h with
      | reply =>
        obtain ⟨hid, rfl, hnil⟩ := hc
        exact (hprom hid rfl).completes hnil
    | refused => exact hc.elim
    | @acked _ r pc n h =>
      obtain ⟨hid, rfl, p, hp, rfl⟩ := hc
      have hroot : (Task.slice r pc).root = some p.2.root := by simp [Task.root, hp]
      cases h with
      | gone hno =>
        obtain ⟨m, hm, hmid, hmroot⟩ := (hprom hid hroot).own p.1 (by simp [Task.gen, hp])
        have hfate := (hin _ hu hid).marks r _ p rfl hp hno
        rw [← hmroot]
        exact hI.shared.served p.1 m hfate hm hmid
      | reply => exact (hprom hid hroot).completes rfl
    | rejected => exact hc.elim

end Step

section Runs

variable [Postcard Manifest] {env : Env} {id : String}

abbrev Server.ReachedInTime (env : Env) (id : String) : Server → Prop :=
  Reachable (fun s => ∃ spool, s = Server.start spool) (Server.Runs env (Server.InTime id))

theorem reached_completion {s : Server} (h : Server.ReachedInTime env id s) :
    (completionInv id).Holds s := by
  induction h with
  | start h0 =>
    obtain ⟨spool, rfl⟩ := h0
    exact completion_start spool
  | next hs hstep ih =>
    obtain ⟨hin, ev, hstep⟩ := hstep
    have hreach := Server.Runs.reached hs
    exact completion_step (reached_offered hreach) (reached_answers hreach) ih hin (step_move hstep)

/-- While every handler of a push to `id` returns to the map in time, an acknowledgement of
completion is sent with the offered root registered, and the root stays registered. -/
theorem completion_served (env : Env) (id : String) (s t u : Server) (a : Action) (ev : Event)
    (root : Hash) (h : Server.ReachedInTime env id s) (hin : s.InTime id a)
    (hstep : s.step env a = some (t, some ev)) (hack : ev.Completes id root)
    (hlater : Reachable (fun v => v = t) (Server.Runs env (Server.InTime id)) u) :
    RootServed u.shared id root := by
  have hserved := completes_served (reached_completion h) hin (step_move hstep) hack
  have hreach : Server.ReachedInTime env id t := .next (a := a) h ⟨hin, _, hstep⟩
  have hkeep : Server.ReachedInTime env id u ∧ RootServed u.shared id root := by
    apply Reachable.invariant _ _ hlater
    · rintro v rfl
      exact ⟨hreach, hserved⟩
    · rintro v b w ⟨hv, hroot⟩ ⟨hbin, ev', hb⟩
      refine ⟨.next (a := b) hv ⟨hbin, ev', hb⟩, hroot.mono fun r hr => ?_⟩
      refine registry_step (step_move hb) ?_ hr (reached_offered (Server.Runs.reached hv))
      rintro rfl
      exact hbin rfl
  exact hkeep.2

end Runs

def Task.inTime (s : Shared) (t : Task) : Bool :=
  match t with
  | .offer o (.insert _) =>
    (s.pushes.lookup o.id).all fun e => decide (e.manifest.root = o.manifest.root)
  | .slice r (.mark _) =>
    (s.pushes.lookup r.id).isSome || r.push.all fun p => decide (s.history.fate p.1 = .served)
  | .slice r .registry =>
    (s.registry r.id).all fun reg => r.push.all fun p => decide (reg.manifest.root = p.2.root)
  | _ =>
    match t.fin with
    | some (_, .take) =>
      t.root.all fun root =>
        match s.pushes.lookup t.id with
        | some e => decide (e.manifest.root = root)
        | none => t.gen.any fun g => decide (s.history.fate g = .served)
    | _ => true

theorem Task.inTime_sound {s : Shared} {t : Task} (h : t.inTime s = true) : t.InTime s where
  joins o st e ht hin := by
    subst ht
    simpa [Task.inTime, hin] using h
  takes root e hf hroot hin := by
    unfold Task.inTime at h
    split at h
    · cases hf
    · cases hf
    · cases hf
    · simpa [hf, hroot, hin] using h
  gone root hf hroot hno := by
    unfold Task.inTime at h
    split at h
    · cases hf
    · cases hf
    · cases hf
    · simp only [hf, hroot, hno, Option.all_some, Option.any_eq_true] at h
      obtain ⟨g, hg, hfate⟩ := h
      exact ⟨g, hg, of_decide_eq_true hfate⟩
  marks r snap p ht hp hno := by
    subst ht
    simpa [Task.inTime, hno, hp] using h
  served r p reg ht hp hin := by
    subst ht
    simpa [Task.inTime, hin, hp] using h

def inTimeTest (s : Server) : Action → Bool
  | .run tid _ => (s.tasks tid).all fun t => t.inTime s.shared
  | .register _ _ _ | .unregister _ => false
  | _ => true

theorem inTimeTest_sound {id : String} {s : Server} {a : Action} (h : inTimeTest s a = true) :
    s.InTime id a := by
  cases a with
  | run tid ok =>
    intro t ht _
    rw [inTimeTest, ht] at h
    exact Task.inTime_sound h
  | register spec root len => cases h
  | unregister k => cases h
  | _ => trivial

/-- The offer of the empty blob, in time all the way: its acceptance says that the blob is
complete, and the blob is served. -/
theorem completion_served_empty :
    let _ := pushPostcard
    let s := sampleServer inTimeTest (offerEmpty ++ [.run 0 true])
    Server.ReachedInTime sampleEnv "x" s ∧ ∃ t o ans,
      s.step sampleEnv (.run 0 true) = some (t, some (.wanted o ans)) ∧ ans.wanted = [] ∧
        RootServed t.shared "x" (shortHash []) := by
  let _ := pushPostcard
  have hreach : Server.ReachedInTime sampleEnv "x"
      (sampleServer inTimeTest (offerEmpty ++ [.run 0 true])) :=
    sample_reached (fun _ _ _ h => inTimeTest_sound h) ⟨Spool.empty, rfl⟩ (by decide +kernel)
  obtain ⟨t, o, ans, hstep, hans⟩ := accepts_iff.mp
    (show accepts
      ((sampleServer inTimeTest (offerEmpty ++ [.run 0 true])).step sampleEnv (.run 0 true))
      (fun o ans => decide (o.id = "x" ∧ o.manifest.root = shortHash [] ∧ ans.wanted = [])) =
        true by
        decide +kernel)
  have hc := of_decide_eq_true hans
  exact ⟨hreach, t, o, ans, hstep, hc.2.2,
    completion_served sampleEnv "x" _ t t (.run 0 true) _ (shortHash []) hreach
      (inTimeTest_sound (by decide +kernel)) hstep hc (.start rfl)⟩

/-- Two offers of the empty blob. The first has taken the entry and not yet renamed its file
when the second comes to finalize and finds nothing to take. -/
def ackEarly : List Action :=
  .offer "x" (some [0]) none :: List.replicate 9 (.run 0 true) ++
    [.offer "x" (some [0]) none, .run 1 true, .run 1 true, .run 1 true, .run 0 true, .run 1 true]

/-- The second offer is acknowledged as complete while nothing is served under its id. -/
theorem ack_before_registration :
    let _ := pushPostcard
    let s := sampleServer untested ackEarly
    Server.Reached sampleEnv s ∧ ∃ t o ans,
      s.step sampleEnv (.run 1 true) = some (t, some (.wanted o ans)) ∧ ans.wanted = [] ∧
        ¬ RootServed t.shared "x" o.manifest.root := by
  let _ := pushPostcard
  obtain ⟨t, o, ans, hstep, hans⟩ := accepts_iff.mp
    (show accepts ((sampleServer untested ackEarly).step sampleEnv (.run 1 true))
      (fun _ ans => decide (ans.wanted = [])) = true by decide +kernel)
  have hnone : (((sampleServer untested ackEarly).step sampleEnv (.run 1 true)).all
      fun t => (t.1.shared.registry "x").isNone) = true := by decide +kernel
  rw [hstep] at hnone
  refine ⟨sample_untested (by decide +kernel), t, o, ans, hstep, of_decide_eq_true hans, ?_⟩
  rintro ⟨r, hr, -⟩
  simp [hr] at hnone

end Zblob

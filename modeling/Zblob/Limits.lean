import Zblob.Registry
import Zblob.Ranges

/-!
The limits a server advertises. A local registration writes them into the manifest it
makes; a finalized push keeps the manifest its uploader chose.
-/

set_option autoImplicit false

namespace Zblob

open Runs (Reachable)

def Advertises (env : Env) (m : Manifest) : Prop :=
  m.maxChunksPerQuery = some env.maxChunksPerQuery ∧ m.maxBlobSize = some env.push.maxBlobSize

instance (env : Env) (m : Manifest) : Decidable (Advertises env m) :=
  inferInstanceAs (Decidable (_ ∧ _))

/-- The task is about to register a push whose manifest states other limits, or none. -/
def Task.Misstates (env : Env) (s : Shared) (t : Task) : Prop :=
  ∃ id e root len, t.fin = some (id, .register e root len) ∧ s.registry id = none ∧
    ¬Advertises env e.manifest

def Advertising (env : Env) (s : Server) (a : Action) : Prop :=
  ∀ tid ok t, a = .run tid ok → s.tasks tid = some t → ¬t.Misstates env s.shared

def AllAdvertise (env : Env) (s : Shared) : Prop :=
  ∀ id r, s.registry id = some r → Advertises env r.manifest

section Step

variable {env : Env}

theorem AllAdvertise.serve {s : Shared} (h : AllAdvertise env s) (id : String) {r : Registered}
    (hr : Advertises env r.manifest) : AllAdvertise env (s.serve id r) := by
  intro k r' hk
  by_cases hki : k = id
  · subst hki
    simp only [Shared.serve, Function.update_self, Option.some.injEq] at hk
    rwa [← hk]
  · exact h k r' (by simpa [Shared.serve, hki] using hk)

theorem AllAdvertise.unserve {s : Shared} (h : AllAdvertise env s) (id : String) :
    AllAdvertise env (s.unserve id) := by
  intro k r hk
  by_cases hki : k = id
  · simp [Shared.unserve, hki] at hk
  · exact h k r (by simpa [Shared.unserve, hki] using hk)

theorem limits_advertised {limits : Ext × Result Unit} {ext : Ext × Result Unit}
    (hl : limits = Ext.new.setU32 Ext.maxChunksPerQuery env.maxChunksPerQuery)
    (he : ext = limits.1.setU64 Ext.maxBlobSize env.push.maxBlobSize) (hok : limits.2 = .ok ())
    (hok' : ext.2 = .ok ()) :
    ext.1.getU32 Ext.maxChunksPerQuery = some env.maxChunksPerQuery ∧
      ext.1.getU64 Ext.maxBlobSize = some env.push.maxBlobSize := by
  rw [he] at hok' ⊢
  constructor
  · have hkeep :
        (limits.1.setU64 Ext.maxBlobSize env.push.maxBlobSize).1.get Ext.maxChunksPerQuery =
          limits.1.get Ext.maxChunksPerQuery := by
      rw [Ext.setU64, Ext.set_get hok', if_neg (by decide)]
    rw [Ext.getU32, hkeep, ← Ext.getU32, hl]
    exact Ext.setU32_getU32 (by rwa [← hl])
  · exact Ext.setU64_getU64 hok'

theorem finishRegister_advertises {s : Shared} (h : AllAdvertise env s) (spec : BlobSpec)
    (root : Hash) (totalLen : UInt64) :
    AllAdvertise env (finishRegister env s spec root totalLen).1 := by
  unfold finishRegister
  split
  · exact h
  · exact h
  · simp only
    split
    · exact h
    · exact h
    · rename_i hok hok'
      split
      · split <;> exact h
      · exact h.serve _ (limits_advertised rfl rfl hok hok')

theorem advertise_step [Postcard Manifest] {s t : Server} {a : Action}
    (h : AllAdvertise env s.shared) (hstep : Server.Runs env (Advertising env) s a t) :
    AllAdvertise env t.shared := by
  obtain ⟨hallowed, ev, hstep⟩ := hstep
  cases a with
  | register spec root totalLen =>
    cases hstep
    exact finishRegister_advertises h spec root totalLen
  | unregister id =>
    cases hstep
    exact h.unserve id
  | run tid ok =>
    cases step_move hstep with
    | run hu hmove =>
      have hclean := hallowed tid ok _ rfl hu
      rcases hmove.effect.gains with hreg | ⟨id, e, root, len, hf, hfree, hreg⟩
      · intro k r hk
        exact h k r ((congrFun hreg k).symm.trans hk)
      · have hstates : Advertises env e.manifest := by
          by_contra hno
          exact hclean ⟨id, e, root, len, hf, hfree, hno⟩
        intro k r hk
        exact h.serve e.manifest.id.str hstates k r ((congrFun hreg k).symm.trans hk)
  | tick d =>
    cases hstep
    exact h
  | offer keyId payload token =>
    cases step_move hstep with
    | offer => exact h
    | refused => exact h
  | slice r =>
    cases step_move hstep with
    | slice => exact h

end Step

/-- In a run that finalizes no push whose uploader stated other limits, every served manifest
states the server's own, and a query within the stated cap is never too large. -/
theorem served_manifests_advertise [Postcard Manifest] (env : Env) (s : Server)
    (h : Reachable (fun s => ∃ spool, s = Server.start spool) (Server.Runs env (Advertising env)) s)
    (id : String) (r : Registered) (hr : s.shared.registry id = some r) :
    Advertises env r.manifest ∧
      ∀ (p : QueryPrefix) (cap : UInt32) (rs : List (Nat × Nat)),
        r.manifest.maxChunksPerQuery = some cap → Servable r.chunks.count cap.toNat rs →
        parseRanges (selectorParameters (sliceSelector p r.manifest.id rs)) r.chunks.count
          env.maxChunksPerQuery.toNat = .ok rs := by
  have hall : AllAdvertise env s.shared := by
    apply Reachable.invariant _ _ h
    · rintro s ⟨spool, rfl⟩ k r hk
      cases hk
    · intro s a t hs hstep
      exact advertise_step hs hstep
  have hstated := hall id r hr
  refine ⟨hstated, ?_⟩
  intro p cap rs hcap hrs
  rw [hstated.1, Option.some.injEq] at hcap
  rw [hcap]
  exact hrs.parsed (Nat.le_of_lt_succ r.chunks.count_lt)

def Task.states (env : Env) (s : Shared) (t : Task) : Bool :=
  match t.fin with
  | some (id, .register e _ _) => (s.registry id).isSome || decide (Advertises env e.manifest)
  | _ => true

theorem Task.states_sound {env : Env} {s : Shared} {t : Task} (h : t.states env s = true) :
    ¬t.Misstates env s := by
  rintro ⟨id, e, root, len, hf, hfree, hno⟩
  simp only [Task.states, hf, hfree, Option.isSome_none, Bool.false_or, decide_eq_true_eq] at h
  exact hno h

def statingTest (s : Server) : Action → Bool
  | .run tid _ => (s.tasks tid).all fun t => t.states sampleEnv s.shared
  | _ => true

/-- A push of `abc` under a manifest with the limits in it, and a registration by the server's
own process. -/
def pushStating : List Action :=
  .offer "x" (some [4]) none :: List.replicate 9 (.run 0 true) ++
    .slice sliceAbc :: List.replicate 9 (.run 1 true) ++
    [.register ⟨"y", none, 65536, 0⟩ (shortHash [97, 98, 99]) 3]

theorem served_manifests_advertise_abc :
    let s := sampleServer statingTest pushStating
    (∃ r, s.shared.registry "x" = some r ∧ r.source = .spooled ∧
      Advertises sampleEnv r.manifest ∧
      ∀ p : QueryPrefix, parseRanges (selectorParameters (sliceSelector p r.manifest.id [(0, 1)]))
        r.chunks.count 64 = .ok [(0, 1)]) ∧
    ∃ r, s.shared.registry "y" = some r ∧ r.source = .given ∧ Advertises sampleEnv r.manifest := by
  let _ := pushPostcard
  have hreach : Reachable (fun s => ∃ spool, s = Server.start spool)
      (Server.Runs sampleEnv (Advertising sampleEnv)) (sampleServer statingTest pushStating) := by
    refine sample_reached ?_ ⟨Spool.empty, rfl⟩ (by decide +kernel)
    intro _ s a _ htest tid ok t ha ht
    rw [ha, statingTest, ht] at htest
    exact Task.states_sound htest
  have hpushed : ((sampleServer statingTest pushStating).shared.registry "x").any
      (fun r => decide (r.source = .spooled ∧ r.chunks.count = 1)) = true := by decide +kernel
  have hgiven : ((sampleServer statingTest pushStating).shared.registry "y").any
      (fun r => decide (r.source = .given)) = true := by decide +kernel
  obtain ⟨r, hr, hsource⟩ := (Option.any_eq_true _ _).mp hpushed
  obtain ⟨q, hq, hlocal⟩ := (Option.any_eq_true _ _).mp hgiven
  obtain ⟨hspooled, hcount⟩ := of_decide_eq_true hsource
  obtain ⟨hstated, hserved⟩ := served_manifests_advertise sampleEnv _ hreach "x" r hr
  refine ⟨⟨r, hr, hspooled, hstated, fun p => hserved p 64 _ hstated.1 ?_⟩, q, hq,
    of_decide_eq_true hlocal, (served_manifests_advertise sampleEnv _ hreach "y" q hq).1⟩
  rw [hcount]
  exact ⟨by decide, by decide, by decide, by decide, by decide⟩

/-- The empty blob, pushed under a manifest without extensions, is served with it. -/
theorem pushed_manifest_states_nothing :
    let _ := pushPostcard
    let s := sampleServer untested (offerEmpty ++ [.run 0 true])
    Server.Reached sampleEnv s ∧ ∃ r, s.shared.registry "x" = some r ∧
      r.manifest.maxChunksPerQuery = none ∧ ¬Advertises sampleEnv r.manifest := by
  let _ := pushPostcard
  have hreach : Server.Reached sampleEnv (sampleServer untested (offerEmpty ++ [.run 0 true])) :=
    sample_untested (by decide +kernel)
  have hnone : ((sampleServer untested (offerEmpty ++ [.run 0 true])).shared.registry "x").map
      (fun r => r.manifest.maxChunksPerQuery) = some none := by decide +kernel
  obtain ⟨r, hr, hcap⟩ := Option.map_eq_some_iff.mp hnone
  refine ⟨hreach, r, hr, hcap, ?_⟩
  intro h
  rw [h.1] at hcap
  cases hcap

end Zblob

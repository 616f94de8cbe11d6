import Zblob.Registry

/-!
What a local registration tells its caller, against what the registry serves from then on.
-/

set_option autoImplicit false

namespace Zblob

open Runs (Reachable)

def advertised (env : Env) : List (UInt16 × Bytes) :=
  [(Ext.maxChunksPerQuery, Ext.toLe 4 env.maxChunksPerQuery.toNat),
    (Ext.maxBlobSize, Ext.toLe 8 env.push.maxBlobSize.toNat)]

structure MadeFor (env : Env) (spec : BlobSpec) (totalLen : UInt64) (m : Manifest) : Prop where
  version : m.version = wireVersion
  filename : m.filename = spec.filename
  totalLen : m.totalLen = totalLen
  chunkSize : m.chunkSize = spec.chunkSize
  createdMs : m.createdMs = spec.createdMs
  ext : m.ext.fields = advertised env

/-- If the call returns a manifest, that manifest is what the registry then serves under the id. -/
def Announces (env : Env) (s : Shared) (spec : BlobSpec) (root : Hash) (totalLen : UInt64) : Prop :=
  ∀ m, (finishRegister env s spec root totalLen).2 = .ok m →
    ((finishRegister env s spec root totalLen).1.registry spec.id).map Registered.manifest = some m

/-- The same bytes are not served under this id already with another description. -/
def Unrivalled (env : Env) (s : Shared) (spec : BlobSpec) (root : Hash)
    (totalLen : UInt64) : Prop :=
  ∀ existing, s.registry spec.id = some existing → existing.manifest.root = root →
    (∃ c, TransferChunks.new spec.chunkSize totalLen = .ok c) →
    MadeFor env spec totalLen existing.manifest

def Keyed (s : Shared) : Prop := ∀ id r, s.registry id = some r → r.manifest.id.str = id

section Step

variable {env : Env}

theorem limits_fields (env : Env) :
    let limits := Ext.new.setU32 Ext.maxChunksPerQuery env.maxChunksPerQuery
    let ext := limits.1.setU64 Ext.maxBlobSize env.push.maxBlobSize
    limits.2 = .ok () ∧ ext.2 = .ok () ∧ ext.1.fields = advertised env := by
  have hfirst : Ext.new.Admits Ext.maxChunksPerQuery (Ext.toLe 4 env.maxChunksPerQuery.toNat) :=
    ⟨by decide, by rw [Ext.toLe_length]; decide⟩
  obtain ⟨hok, hfields⟩ := Ext.set_of_admits hfirst
  have hone : (Ext.new.setU32 Ext.maxChunksPerQuery env.maxChunksPerQuery).1.fields =
      [(Ext.maxChunksPerQuery, Ext.toLe 4 env.maxChunksPerQuery.toNat)] := hfields
  have hothers :
      (Ext.new.setU32 Ext.maxChunksPerQuery env.maxChunksPerQuery).1.others Ext.maxBlobSize =
        [(Ext.maxChunksPerQuery, Ext.toLe 4 env.maxChunksPerQuery.toNat)] := by
    rw [Ext.others, hone]
    rfl
  have hsecond : (Ext.new.setU32 Ext.maxChunksPerQuery env.maxChunksPerQuery).1.Admits
      Ext.maxBlobSize
      (Ext.toLe 8 env.push.maxBlobSize.toNat) :=
    ⟨by rw [hothers, List.length_singleton]; decide, by rw [Ext.toLe_length]; decide⟩
  obtain ⟨hok', hfields'⟩ := Ext.set_of_admits hsecond
  rw [hothers] at hfields'
  exact ⟨hok, hok', hfields'⟩

theorem BlobId.new_str {id : String} {b : BlobId} (h : BlobId.new id = .ok b) : b.str = id := by
  unfold BlobId.new at h
  split at h
  · cases h
    rfl
  · cases h

theorem BlobId.new_self (b : BlobId) : BlobId.new b.str = .ok b := dif_pos b.valid

inductive Registering (s : Shared) (spec : BlobSpec) (root : Hash) (m : Manifest) :
    Shared × Result Manifest → Prop where
  | added {r : Registered} (hfree : s.registry spec.id = none) (hr : r.manifest = m) :
    Registering s spec root m (s.serve spec.id r, .ok m)
  | repeated {existing : Registered} (hthere : s.registry spec.id = some existing)
      (hroot : existing.manifest.root = root) : Registering s spec root m (s, .ok m)
  | refused {existing : Registered} {e : BlobError} (hthere : s.registry spec.id = some existing)
      (hroot : existing.manifest.root ≠ root) : Registering s spec root m (s, .error e)

theorem finishRegister_of (env : Env) {s : Shared} {spec : BlobSpec}
    {totalLen : UInt64} {id : BlobId} {c : TransferChunks}
    (hid : BlobId.new spec.id = .ok id) (hc : TransferChunks.new spec.chunkSize totalLen = .ok c)
    (root : Hash) :
    ∃ m, m.id = id ∧ m.root = root ∧ MadeFor env spec totalLen m ∧
      Registering s spec root m (finishRegister env s spec root totalLen) := by
  obtain ⟨hok, hok', hfields⟩ := limits_fields env
  refine ⟨⟨wireVersion, id, spec.filename, totalLen, spec.chunkSize, root, spec.createdMs,
    ((Ext.new.setU32 Ext.maxChunksPerQuery env.maxChunksPerQuery).1.setU64 Ext.maxBlobSize
      env.push.maxBlobSize).1⟩, rfl, rfl, ⟨rfl, rfl, rfl, rfl, rfl, hfields⟩, ?_⟩
  simp only [finishRegister, hid, hc, hok, hok']
  cases hthere : s.registry spec.id with
  | none =>
    rw [BlobId.new_str hid]
    exact .added hthere rfl
  | some existing =>
    by_cases hroot : existing.manifest.root = root
    · simp only [if_pos hroot]
      exact .repeated hthere hroot
    · simp only [if_neg hroot]
      exact .refused hthere hroot

theorem finishRegister_unusable (env : Env) (s : Shared) {spec : BlobSpec}
    (root : Hash) (totalLen : UInt64)
    (h : (∃ e, BlobId.new spec.id = .error e) ∨ ∃ e,
      TransferChunks.new spec.chunkSize totalLen = .error e) :
    ∃ e, finishRegister env s spec root totalLen = (s, .error e) := by
  cases hid : BlobId.new spec.id with
  | error e => exact ⟨e, by simp only [finishRegister, hid]⟩
  | ok id =>
    rcases h with ⟨e, he⟩ | ⟨e, he⟩
    · rw [hid] at he
      cases he
    · exact ⟨e, by simp only [finishRegister, hid, he]⟩

theorem MadeFor.unique {spec : BlobSpec} {totalLen : UInt64} {m m' : Manifest}
    (h : MadeFor env spec totalLen m)
    (h' : MadeFor env spec totalLen m') (hid : m.id = m'.id) (hroot : m.root = m'.root) :
    m = m' := by
  have hext : m.ext = m'.ext := by
    have hfields := h.ext.trans h'.ext.symm
    cases hm : m.ext
    cases hm' : m'.ext
    simp only [hm, hm'] at hfields
    subst hfields
    rfl
  obtain ⟨version, id, filename, totalLen, chunkSize, root, createdMs, ext⟩ := m
  obtain ⟨version', id', filename', totalLen', chunkSize', root', createdMs', ext'⟩ := m'
  obtain ⟨rfl, rfl, rfl, rfl, rfl, -⟩ := h
  obtain ⟨hv, hf, hl, hc, ht, -⟩ := h'
  simp only at hid hroot hext hv hf hl hc ht
  rw [hid, hroot, hext, hv, hf, hl, hc, ht]

theorem announces_iff {s : Shared} (hkeyed : Keyed s) (spec : BlobSpec)
    (root : Hash) (totalLen : UInt64) :
    Announces env s spec root totalLen ↔ Unrivalled env s spec root totalLen := by
  cases hid : BlobId.new spec.id with
  | error e =>
    obtain ⟨e', he⟩ := finishRegister_unusable env s root totalLen (.inl ⟨e, hid⟩)
    simp only [Announces, he]
    refine iff_of_true (fun m hm => nomatch hm) fun existing hthere => ?_
    rw [← hkeyed _ _ hthere, BlobId.new_self] at hid
    cases hid
  | ok id =>
    cases hc : TransferChunks.new spec.chunkSize totalLen with
    | error e =>
      obtain ⟨e', he⟩ := finishRegister_unusable env s root totalLen (.inr ⟨e, hc⟩)
      simp only [Announces, he]
      refine iff_of_true (fun m hm => nomatch hm) fun existing hthere _ hsome => ?_
      obtain ⟨c, hok⟩ := hsome
      rw [hc] at hok
      cases hok
    | ok c =>
      obtain ⟨m, hmid, hmroot, hdesc, hcase⟩ := finishRegister_of env hid hc root
      unfold Announces Unrivalled
      generalize finishRegister env s spec root totalLen = after at hcase ⊢
      cases hcase with
      | added hfree hr =>
        refine iff_of_true (fun m' hm' => ?_)
          (fun existing hthere => by rw [hfree] at hthere; cases hthere)
        cases hm'
        simp [Shared.serve, hr]
      | @repeated existing hthere hroot =>
        constructor
        · intro hsame existing' hthere' _ _
          have hserved := hsame m rfl
          rw [hthere] at hthere' hserved
          cases hthere'
          rwa [Option.some.inj hserved]
        · intro h m' hm'
          cases hm'
          have hidsame : existing.manifest.id = m.id := by
            have hstr := hkeyed _ _ hthere
            have hnew := BlobId.new_self existing.manifest.id
            rw [hstr, hid] at hnew
            rw [hmid]
            exact (Except.ok.inj hnew).symm
          have hdesc' := h existing hthere hroot ⟨c, hc⟩
          rw [hthere, Option.map_some, hdesc'.unique hdesc hidsame (hroot.trans hmroot.symm)]
      | @refused existing e hthere hroot =>
        refine iff_of_true (fun m' hm' => nomatch hm') fun existing' hthere' hroot' => ?_
        rw [hthere] at hthere'
        cases hthere'
        exact absurd hroot' hroot

theorem Keyed.serve {s : Shared} (h : Keyed s) {r : Registered} :
    Keyed (s.serve r.manifest.id.str r) := by
  intro k r' hk
  by_cases hki : k = r.manifest.id.str
  · subst hki
    simp only [Shared.serve, Function.update_self, Option.some.injEq] at hk
    rw [← hk]
  · exact h k r' (by simpa [Shared.serve, hki] using hk)

theorem Keyed.unserve {s : Shared} (h : Keyed s) (id : String) : Keyed (s.unserve id) := by
  intro k r hk
  by_cases hki : k = id
  · simp [Shared.unserve, hki] at hk
  · exact h k r (by simpa [Shared.unserve, hki] using hk)

theorem finishRegister_keyed {s : Shared} (h : Keyed s) (spec : BlobSpec)
    (root : Hash) (totalLen : UInt64) :
    Keyed (finishRegister env s spec root totalLen).1 := by
  cases hid : BlobId.new spec.id with
  | error e =>
    obtain ⟨e', he⟩ := finishRegister_unusable env s root totalLen (.inl ⟨e, hid⟩)
    rwa [he]
  | ok id =>
    cases hc : TransferChunks.new spec.chunkSize totalLen with
    | error e =>
      obtain ⟨e', he⟩ := finishRegister_unusable env s root totalLen (.inr ⟨e, hc⟩)
      rwa [he]
    | ok c =>
      obtain ⟨m, hmid, -, -, hcase⟩ := finishRegister_of env (s := s) hid hc root
      generalize finishRegister env s spec root totalLen = after at hcase ⊢
      cases hcase with
      | @added r hfree hr =>
        have hstr : spec.id = r.manifest.id.str := by rw [hr, hmid, BlobId.new_str hid]
        rw [hstr]
        exact h.serve
      | repeated => exact h
      | refused => exact h

theorem keyed_step [Postcard Manifest] {s t : Server} {a : Action}
    {allowed : Server → Action → Prop}
    (h : Keyed s.shared) (hstep : Server.Runs env allowed s a t) : Keyed t.shared := by
  obtain ⟨-, ev, hstep⟩ := hstep
  cases a with
  | register spec root totalLen =>
    cases hstep
    exact finishRegister_keyed h spec root totalLen
  | unregister id =>
    cases hstep
    exact h.unserve id
  | run tid ok =>
    cases step_move hstep with
    | run hu hmove =>
      rcases hmove.effect.gains with hreg | ⟨id, e, root, len, hf, hfree, hreg⟩
      · intro k r hk
        exact h k r ((congrFun hreg k).symm.trans hk)
      · intro k r hk
        exact h.serve (r := ⟨e.manifest, e.chunks, .spooled, root, len⟩) k r
          ((congrFun hreg k).symm.trans hk)
  | tick d =>
    cases hstep
    exact h
  | offer keyId payload token =>
    cases step_move hstep with
    | offer => exact h
    | refused => exact h
  | slice r =>
    cases step_move hstep with
    | slice => exact h

theorem reached_keyed [Postcard Manifest] {s : Server} (h : Server.Reached env s) :
    Keyed s.shared := by
  apply Reachable.invariant _ _ h
  · rintro s ⟨spool, rfl⟩ id r hr
    cases hr
  · intro s a t hs hstep
    exact keyed_step hs hstep

end Step

/-- In a run of a server, pushes included, every registration that returns a manifest returns the
one that is served, exactly when none of them repeats bytes that are served under the same id with
another description. -/
theorem registrations_announce_iff [Postcard Manifest] (env : Env)
    (spool : Spool) (taken : List (Server × Action))
    (t : Server) (h : Runs.Path (Server.Runs env fun _ _ => True) (Server.start spool) taken t) :
    (∀ s spec root totalLen, (s, Action.register spec root totalLen) ∈ taken →
        Announces env s.shared spec root totalLen) ↔
      ∀ s spec root totalLen, (s, Action.register spec root totalLen) ∈ taken →
        Unrivalled env s.shared spec root totalLen := by
  have hkeyed : ∀ p ∈ taken, Keyed p.1.shared := fun p hp =>
    reached_keyed (h.reachable (.start ⟨spool, rfl⟩) p hp)
  constructor
  · intro hall s spec root totalLen hp
    exact (announces_iff (hkeyed _ hp) spec root totalLen).mp (hall s spec root totalLen hp)
  · intro hall s spec root totalLen hp
    exact (announces_iff (hkeyed _ hp) spec root totalLen).mpr (hall s spec root totalLen hp)

def smallChunks : BlobSpec := ⟨"x", none, 65536, 0⟩

def largeChunks : BlobSpec := ⟨"x", none, 131072, 0⟩

def registeredOnce : Shared :=
  (finishRegister sampleEnv (Server.start Spool.empty).shared smallChunks
    (shortHash [97, 98, 99]) 3).1

theorem registeredOnce_made {existing : Registered}
    (hthere : registeredOnce.registry "x" = some existing) :
    MadeFor sampleEnv smallChunks 3 existing.manifest := by
  have hid : BlobId.new smallChunks.id = .ok ⟨"x", by decide⟩ := dif_pos (by decide)
  have hc : TransferChunks.new smallChunks.chunkSize 3 = .ok ⟨65536, 3, by decide, by decide⟩ := rfl
  obtain ⟨m, -, -, hmade, hreg⟩ := finishRegister_of sampleEnv
    (s := (Server.start Spool.empty).shared) hid hc (shortHash [97, 98, 99])
  unfold registeredOnce at hthere
  generalize finishRegister sampleEnv _ smallChunks _ 3 = out at hreg hthere
  cases hreg with
  | added _ hr =>
    simp only [Shared.serve, smallChunks, Function.update_self, Option.some.injEq] at hthere
    exact hthere ▸ hr ▸ hmade
  | repeated held => cases held
  | refused held => cases held

/-- A registration, and an equal one after it. -/
theorem registrations_announce_once :
    let _ := pushPostcard
    Announces sampleEnv (Server.start Spool.empty).shared smallChunks (shortHash [97, 98, 99]) 3 ∧
      Announces sampleEnv registeredOnce smallChunks (shortHash [97, 98, 99]) 3 := by
  let _ := pushPostcard
  let again := (finishRegister sampleEnv registeredOnce smallChunks (shortHash [97, 98, 99]) 3).1
  have hpath : Runs.Path (Server.Runs sampleEnv fun _ _ => True) (Server.start Spool.empty)
      [(Server.start Spool.empty, Action.register smallChunks (shortHash [97, 98, 99]) 3),
        ((Server.start Spool.empty).onShared registeredOnce,
          Action.register smallChunks (shortHash [97, 98, 99]) 3)]
      ((Server.start Spool.empty).onShared again) :=
    .cons ⟨trivial, none, rfl⟩ (.cons ⟨trivial, none, rfl⟩ .nil)
  have hall := (registrations_announce_iff sampleEnv Spool.empty _ _ hpath).mpr ?_
  · exact ⟨hall _ _ _ _ List.mem_cons_self,
      hall _ _ _ _ (List.mem_cons_of_mem _ List.mem_cons_self)⟩
  · intro s spec root totalLen hp existing hthere _ _
    rcases List.mem_cons.mp hp with hp | hp
    · cases hp
      cases hthere
    · cases List.mem_singleton.mp hp
      exact registeredOnce_made hthere

/-- The second call returns a manifest of larger chunks, and the registry goes on serving the first.
-/
theorem second_registration_unserved :
    let _ := pushPostcard
    Server.Reached sampleEnv ((Server.start Spool.empty).onShared registeredOnce) ∧
      ¬ Announces sampleEnv registeredOnce largeChunks (shortHash [97, 98, 99]) 3 := by
  let _ := pushPostcard
  have hreach : Server.Reached sampleEnv ((Server.start Spool.empty).onShared registeredOnce) :=
    .next (a := Action.register smallChunks (shortHash [97, 98, 99]) 3) (.start ⟨Spool.empty, rfl⟩)
      ⟨trivial, none, rfl⟩
  have hserved : (registeredOnce.registry "x").map
      (fun r => (r.manifest.root, r.manifest.chunkSize)) =
      some (shortHash [97, 98, 99], 65536) := by decide +kernel
  obtain ⟨r, hr, hfields⟩ := Option.map_eq_some_iff.mp hserved
  obtain ⟨hroot, hsize⟩ := Prod.mk.inj hfields
  refine ⟨hreach, fun h => ?_⟩
  have hdesc := (announces_iff (reached_keyed hreach) _ _ _).mp h r hr hroot
    ⟨⟨131072, 3, by decide, by decide⟩, rfl⟩
  have hchunks := hdesc.chunkSize
  rw [hsize] at hchunks
  exact absurd hchunks (by decide)

end Zblob

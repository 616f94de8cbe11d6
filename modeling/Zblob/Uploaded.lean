import Zblob.Lib.Progress
import Zblob.Pushing
import Zblob.Served

/-!
An upload beside whatever else the server does. The uploader makes an offer and sends the
chunks that are asked for one by one, each when the one before it has been acknowledged.
-/

set_option autoImplicit false

namespace Zblob

/-- The uploader waits for the reply to its offer or to a slice, or has the chunks before it
that it still has to send. -/
inductive Stage where
  | offering (tid : Nat)
  | ready (todo : List Nat)
  | sending (tid : Nat) (i : Nat) (rest : List Nat)
  | refused

structure Session where
  server : Server
  stage : Stage

/-- Anything may happen at the server; the uploader's own handler takes a step, or the next
slice goes out. -/
inductive SessionAction where
  | server (a : Action)
  | turn
  | send

def SessionAction.Own : SessionAction → Prop
  | .server _ => False
  | _ => True

def Stage.tid : Stage → Option Nat
  | .offering tid | .sending tid _ _ => some tid
  | .ready _ | .refused => none

def Stage.heard (u : Uploader) (stage : Stage) : Option Event → Stage
  | none => stage
  | some (.wanted _ a) =>
    match checkWanted u.count 0 a.ranges with
    | .ok () => .ready a.indices
    | .error _ => .refused
  | some (.remaining _ _) =>
    match stage with
    | .sending _ _ rest => .ready rest
    | stage => stage
  | some .refused => .refused

namespace Session

def step [Postcard Manifest] (env : Env) (u : Uploader) (σ : Session) :
    SessionAction → Option Session
  | .server a => (σ.server.step env a).map fun r => ⟨r.1, σ.stage⟩
  | .turn => do
    let tid ← σ.stage.tid
    let (server, ev) ← σ.server.step env (.run tid true)
    some ⟨server, σ.stage.heard u ev⟩
  | .send =>
    match σ.stage with
    | .ready (i :: rest) =>
      (σ.server.step env (.slice (u.slice i))).map fun r => ⟨r.1, .sending σ.server.nextTask i rest⟩
    | _ => none

variable (env : Env) (u : Uploader)

/-- While the offer has yet to take its place among the pushes, there is one. -/
def Placed (σ : Session) : Prop :=
  ∀ tid pc, σ.stage = .offering tid → σ.server.tasks tid = some (.offer u.offered pc) →
    pc.Unplaced → σ.server.shared.Roomy env u.id

/-- Nobody else is concerned with the id, and the push does not idle for too long. -/
def Allowed (σ : Session) : SessionAction → Prop
  | .server (.tick d) => (σ.server.shared.tick d).Fresh env u.id
  | .server (.offer keyId _ _) => keyId ≠ u.id
  | .server (.slice r) => r.id ≠ u.id
  | .server (.run tid ok) => σ.stage.tid ≠ some tid ∧ σ.server.Separate (.run tid ok)
  | .server (.register spec _ _) => spec.id ≠ u.id
  | .server (.unregister id) => id ≠ u.id
  | .turn => σ.Placed env u
  | .send => True

def Undisturbed [Postcard Manifest] (σ : Session) (a : SessionAction) (τ : Session) : Prop :=
  σ.Allowed env u a ∧ σ.step env u a = some τ

def Alone [Postcard Manifest] (σ : Session) (a : SessionAction) (τ : Session) : Prop :=
  a.Own ∧ σ.Undisturbed env u a τ

end Session

def Stage.At (env : Env) (u : Uploader) (x : Site) (tasks : Nat → Option Task) : Stage → Prop
  | .offering tid => ∃ pc, tasks tid = some (.offer u.offered pc) ∧ u.OfferAt env x pc
  | .ready todo => u.Between env x todo
  | .sending tid i rest =>
    ∃ pc, tasks tid = some (.slice (u.slice i) pc) ∧ u.SliceAt env x i rest pc
  | .refused => False

theorem Stage.At.congr {env : Env} {u : Uploader} {x y : Site} {tasks tasks' : Nat → Option Task}
    {stage : Stage}
    (h : stage.At env u x tasks) (hsite : y = x)
    (htask : ∀ tid, stage.tid = some tid → tasks' tid = tasks tid) :
    stage.At env u y tasks' := by
  subst hsite
  cases stage with
  | offering tid =>
    obtain ⟨pc, ht, hpc⟩ := h
    exact ⟨pc, (htask tid rfl).trans ht, hpc⟩
  | sending tid i rest =>
    obtain ⟨pc, ht, hpc⟩ := h
    exact ⟨pc, (htask tid rfl).trans ht, hpc⟩
  | _ => exact h

theorem Stage.At.task {env : Env} {u : Uploader} {x : Site} {tasks : Nat → Option Task}
    {stage : Stage} {tid : Nat}
    (h : stage.At env u x tasks) (htid : stage.tid = some tid) : ∃ t, tasks tid = some t := by
  cases stage with
  | offering tid' =>
    cases htid
    obtain ⟨pc, ht, -⟩ := h
    exact ⟨_, ht⟩
  | sending tid' i rest =>
    cases htid
    obtain ⟨pc, ht, -⟩ := h
    exact ⟨_, ht⟩
  | ready todo => cases htid
  | refused => cases htid

namespace Session

structure Ok (env : Env) (u : Uploader) (σ : Session) : Prop where
  spool : (spoolInv env).Holds σ.server
  offered : offeredInv.Holds σ.server
  foreign : ∀ tid t, σ.stage.tid ≠ some tid → σ.server.tasks tid = some t → t.Foreign u.id
  fresh : σ.server.shared.Fresh env u.id
  stage : σ.stage.At env u (σ.server.shared.site u.id) σ.server.tasks

def rank (env : Env) (u : Uploader) (σ : Session) : Nat :=
  match σ.stage with
  | .offering tid =>
    13 * u.count + 1 + match σ.server.tasks tid with
      | some (.offer _ pc) => pc.rank (stale env σ.server.shared).length
      | _ => 0
  | .ready todo => 13 * todo.length
  | .sending tid _ rest =>
    13 * rest.length + 1 + match σ.server.tasks tid with
      | some (.slice _ pc) => pc.rank
      | _ => 0
  | .refused => 0

variable {env : Env} {u : Uploader} {σ τ : Session}

theorem Ok.relies (h : σ.Ok env u) : u.Relies env σ.server.shared where
  wf := h.spool.shared.1
  serves := h.spool.shared.2 u.id
  named e he := (h.offered.shared u.id e he).1
  fresh := h.fresh

theorem Ok.tid_ne (h : σ.Ok env u) {tid : Nat} (htid : σ.stage.tid = some tid) :
    tid ≠ σ.server.nextTask := by
  intro hnew
  obtain ⟨t, ht⟩ := h.stage.task htid
  rw [hnew, h.spool.fresh _ (Nat.le_refl _)] at ht
  cases ht

theorem Ok.others [Postcard Manifest] (hu : u.Fitting env) (h : σ.Ok env u) {a : Action}
    (hallow : σ.Allowed env u (.server a)) {server : Server} {ev : Option Event}
    (hstep : σ.server.step env a = some (server, ev)) : Ok env u ⟨server, σ.stage⟩ := by
  have hmove := step_move hstep
  have hsep : σ.server.Separate a := by
    cases a with
    | run tid ok => exact hallow.2
    | _ => trivial
  have hspool := spool_step hu.laws h.spool hsep hmove
  have hoffered := offered_step h.offered hmove
  -- a new handler of another id
  have spawned : ∀ t : Task, t.Foreign u.id → ∀ tid v, σ.stage.tid ≠ some tid →
      Function.update σ.server.tasks σ.server.nextTask (some t) tid = some v → v.Foreign u.id := by
    intro t ht tid v hne hv
    by_cases htid : tid = σ.server.nextTask
    · rw [htid, Function.update_self] at hv
      exact Option.some.inj hv ▸ ht
    · rw [Function.update_of_ne htid] at hv
      exact h.foreign tid v hne hv
  have apart : ∀ t tid, σ.stage.tid = some tid →
      Function.update σ.server.tasks σ.server.nextTask t tid = σ.server.tasks tid :=
      fun t tid htid =>
    Function.update_of_ne (h.tid_ne htid) _ _
  cases hmove with
  | tick => exact ⟨hspool, hoffered, h.foreign, hallow, h.stage.congr rfl fun _ _ => rfl⟩
  | @offer keyId payload token o hid =>
    have hother : o.id ≠ u.id := by
      rw [Offered.id, hid]
      exact hallow
    have hforeign : (Task.offer o .registry).Foreign u.id := foreign_offer.mpr ⟨hother, rfl⟩
    exact ⟨hspool, hoffered, spawned _ hforeign, h.fresh, h.stage.congr rfl (apart _)⟩
  | refused => exact h
  | slice =>
    exact ⟨hspool, hoffered, spawned _ (foreign_slice hallow), h.fresh, h.stage.congr rfl (apart _)⟩
  | @run tid ok t s' t' ev ht hrun =>
    have hforeign := h.foreign tid t hallow.1 ht
    have heffect := hrun.effect
    have hsite : s'.site u.id = σ.server.shared.site u.id := by
      refine heffect.elsewhere h.spool.shared.1 hforeign h.fresh (h.offered.task tid t ht).2 ?_
      rintro o ino rfl
      have hrole : (Task.offer o (.setLen ino)).role o.id = some (.size o ino) := by
        simp [Task.role, OfferPc.cleans, OfferPc.role]
      obtain ⟨-, f, hpart⟩ := h.spool.task tid _ ht o.id _ hrole
      exact (view_part hpart).1
    refine ⟨hspool, hoffered, ?_, heffect.fresh h.fresh, h.stage.congr hsite ?_⟩
    · intro tid' v hne hv
      by_cases htid : tid' = tid
      · rw [htid] at hv
        obtain rfl : t' = some v := by simpa [Pool.resume] using hv
        exact hrun.foreign hforeign h.fresh
      · exact h.foreign tid' v hne (by simpa [Pool.resume, htid] using hv)
    · intro tid' htid'
      have hne : tid' ≠ tid := by
        rintro rfl
        exact hallow.1 htid'
      simp [Pool.resume, hne]
  | register hreg =>
    cases hreg with
    | unchanged => exact h
    | added =>
      refine ⟨hspool, hoffered, h.foreign, h.fresh, h.stage.congr ?_ fun _ _ => rfl⟩
      exact site_eq rfl (Function.update_of_ne (Ne.symm hallow) _ _) rfl
  | unregister =>
    refine ⟨hspool, hoffered, h.foreign, h.fresh, h.stage.congr ?_ fun _ _ => rfl⟩
    exact site_eq rfl (Function.update_of_ne (Ne.symm hallow) _ _) rfl

theorem Ok.ran [Postcard Manifest] (hu : u.Fitting env) (h : σ.Ok env u)
    {tid : Nat} {t : Task} {s' : Shared}
    {t' : Option Task} {ev : Option Event} {stage : Stage} (htid : σ.stage.tid = some tid)
    (ht : σ.server.tasks tid = some t) (hsep : t.Separate σ.server tid true)
    (hstep : taskStep env σ.server.shared true t = (s', t', ev))
    (hnext : stage.tid = some tid ∨ stage.tid = none ∧ t' = none)
    (hat : stage.At env u (s'.site u.id) (Function.update σ.server.tasks tid t')) :
    Ok env u ⟨σ.server.resume tid s' t', stage⟩ := by
  have hmove : TaskMove env true σ.server.shared t s' t' ev := by
    have h := taskStep_move env σ.server.shared true t
    rwa [hstep] at h
  have hrun : ServerMove env σ.server (.run tid true) (σ.server.resume tid s' t') ev :=
    .run ht hmove
  refine ⟨spool_step hu.laws h.spool ?_ hrun, offered_step h.offered hrun,
    ?_, hmove.effect.fresh h.fresh, hat⟩
  · intro v hv
    obtain rfl : t = v := Option.some.inj (ht.symm.trans hv)
    exact hsep
  · intro j v hne hv
    by_cases hj : j = tid
    · rw [hj] at hv hne
      have hnone := (hnext.resolve_left hne).2
      simp [Pool.resume, hnone] at hv
    · refine h.foreign j v ?_ (by simpa [Pool.resume, hj] using hv)
      rw [htid]
      exact fun heq => hj (Option.some.inj heq).symm

theorem turn_eq [Postcard Manifest] {tid : Nat} {t : Task} {s' : Shared}
    {t' : Option Task} {ev : Option Event}
    (htid : σ.stage.tid = some tid) (ht : σ.server.tasks tid = some t)
    (hstep : taskStep env σ.server.shared true t = (s', t', ev)) :
    σ.step env u .turn = some ⟨σ.server.resume tid s' t', σ.stage.heard u ev⟩ := by
  simp [step, htid, Server.step, ht, hstep]

theorem Ok.separate (h : σ.Ok env u) {tid : Nat} {pc : OfferPc} (htid : σ.stage.tid = some tid)
    (hpc : u.OfferAt env (σ.server.shared.site u.id) pc) :
    (Task.offer u.offered pc).Separate σ.server tid true where
  setup o ho := by
    cases ho
    refine ⟨hpc.2, fun j v hj hv => (h.foreign j v ?_ hv).role⟩
    rw [htid]
    exact fun heq => hj (Option.some.inj heq).symm
  saves o st ho hok := by cases hok

theorem rank_offering {server : Server} {tid : Nat} {o : Offered} {pc : OfferPc}
    (ht : server.tasks tid = some (.offer o pc)) :
    rank env u ⟨server, .offering tid⟩ = 13 * u.count + 1 + pc.rank
      (stale env server.shared).length := by
  simp only [rank, ht]

theorem rank_sending {server : Server} {tid i : Nat} {rest : List Nat} {r : SliceReq} {pc : SlicePc}
    (ht : server.tasks tid = some (.slice r pc)) :
    rank env u ⟨server, .sending tid i rest⟩ = 13 * rest.length + 1 + pc.rank := by
  simp only [rank, ht]

theorem resume_self {server : Server} {tid : Nat} {s' : Shared} {t' : Option Task} :
    (server.resume tid s' t').tasks tid = t' := Function.update_self _ _ _

def Advances [Postcard Manifest] (env : Env) (u : Uploader) (σ : Session)
    (a : SessionAction) : Prop :=
  ∃ τ, σ.step env u a = some τ ∧ τ.Ok env u ∧ τ.Placed env u ∧ τ.rank env u < σ.rank env u

theorem Ok.turn_offer [Postcard Manifest] (hu : u.Fitting env) {server : Server} {tid : Nat}
    (h : Ok env u ⟨server, .offering tid⟩) (hroom : Placed env u ⟨server, .offering tid⟩) :
    Advances env u ⟨server, .offering tid⟩ .turn := by
  obtain ⟨pc, ht, hpc⟩ := h.stage
  have hsep := h.separate rfl hpc
  rcases Uploader.offerStep_turn hu h.relies hpc (hroom tid pc rfl ht) with
    ⟨s', pc', hstep, hpc', hless, hplaced⟩ | ⟨s', a, hstep, hsound, hbetween⟩
  · have htask : taskStep env server.shared true (.offer u.offered pc) =
        (s', some (.offer u.offered pc'), none) := by
      simp [taskStep, hstep]
    refine ⟨_, turn_eq rfl ht htask, h.ran hu rfl ht hsep htask (.inl rfl)
      ⟨pc', by simp, hpc'⟩, ?_, ?_⟩
    · intro tid' pc'' heq ht' hun
      cases heq
      rw [resume_self] at ht'
      cases ht'
      exact hplaced hun
    · rw [Stage.heard, rank_offering ht, rank_offering resume_self]
      exact Nat.add_lt_add_left hless _
  · have htask : taskStep env server.shared true (.offer u.offered pc) =
        (s', none, some (.wanted u.offered a)) := by
      simp [taskStep, hstep]
    have hcheck : checkWanted u.count 0 a.ranges = .ok () :=
      (checkWanted_ok_iff _ _ _).mpr ⟨fun _ _ => Nat.zero_le _, hsound⟩
    have hheard : Stage.heard u (.offering tid) (some (.wanted u.offered a)) =
        .ready a.indices := by
      simp [Stage.heard, hcheck]
    have hlength : a.indices.length ≤ u.count := hsound.length_le
    refine ⟨_, turn_eq rfl ht htask, ?_, ?_, ?_⟩
    · rw [hheard]
      exact h.ran hu rfl ht hsep htask (.inr ⟨rfl, rfl⟩) hbetween
    · rw [hheard]
      intro tid' pc' heq
      cases heq
    · rw [hheard, rank_offering ht]
      simp only [rank]
      omega

theorem Ok.turn_slice [Postcard Manifest] (hu : u.Fitting env) {server : Server}
    {tid i : Nat} {rest : List Nat}
    (h : Ok env u ⟨server, .sending tid i rest⟩) :
    Advances env u ⟨server, .sending tid i rest⟩ .turn := by
  obtain ⟨pc, ht, hpc⟩ := h.stage
  have hsep : (Task.slice (u.slice i) pc).Separate server tid true := by
    constructor
    · intro o ho
      cases ho
    · intro o st ho
      cases ho
  rcases Uploader.sliceStep_turn hu h.relies
      hpc with ⟨s', pc', hstep, hpc', hless⟩ | ⟨s', n, hstep, hbetween⟩
  · have htask : taskStep env server.shared true (.slice (u.slice i) pc) =
        (s', some (.slice (u.slice i) pc'), none) := by simp [taskStep, hstep]
    refine ⟨_, turn_eq rfl ht htask, h.ran hu rfl ht hsep htask (.inl rfl)
      ⟨pc', by simp, hpc'⟩, ?_, ?_⟩
    · intro tid' pc'' heq
      cases heq
    · rw [Stage.heard, rank_sending ht, rank_sending resume_self]
      exact Nat.add_lt_add_left hless _
  · have htask : taskStep env server.shared true (.slice (u.slice i) pc) =
        (s', none, some (.remaining (u.slice i) n)) := by simp [taskStep, hstep]
    refine ⟨_, turn_eq rfl ht htask, h.ran hu rfl ht hsep htask (.inr ⟨rfl, rfl⟩) hbetween, ?_, ?_⟩
    · intro tid' pc'' heq
      cases heq
    · rw [rank_sending ht]
      simp only [rank, Stage.heard]
      omega

theorem Ok.turn [Postcard Manifest] (hu : u.Fitting env) (h : σ.Ok env u) (hroom : σ.Placed env u)
    (hwaits : σ.stage.tid ≠ none) : Advances env u σ .turn := by
  obtain ⟨server, stage⟩ := σ
  cases stage with
  | offering tid => exact h.turn_offer hu hroom
  | sending tid i rest => exact h.turn_slice hu
  | ready todo => exact absurd rfl hwaits
  | refused => exact absurd rfl hwaits

theorem Ok.send [Postcard Manifest] (hu : u.Fitting env) {server : Server}
    {i : Nat} {rest : List Nat}
    (h : Ok env u ⟨server, .ready (i :: rest)⟩) :
    Advances env u ⟨server, .ready (i :: rest)⟩ .send := by
  have hopen : u.Open (server.shared.site u.id) (i :: rest) := by
    rcases h.stage with ⟨hnil, -⟩ | ⟨-, hopen⟩
    · cases hnil
    · exact hopen
  have hspawn : server.step env (.slice (u.slice i)) =
      some (server.spawn (.slice (u.slice i) .snapshot), none) := rfl
  have hmove := step_move hspawn
  have hself : (server.spawn (.slice (u.slice i) .snapshot)).tasks server.nextTask =
      some (.slice (u.slice i) .snapshot) := Function.update_self _ _ _
  have hspool : (spoolInv env).Holds (server.spawn (.slice (u.slice i) .snapshot)) :=
    spool_step (a := .slice (u.slice i)) hu.laws h.spool trivial hmove
  refine ⟨⟨server.spawn (.slice (u.slice i) .snapshot), .sending server.nextTask i rest⟩,
    rfl, ?_, ?_, ?_⟩
  · refine ⟨hspool, offered_step h.offered hmove, ?_, h.fresh, .snapshot, hself, hopen⟩
    intro j v hne hv
    have hj : j ≠ server.nextTask := fun hj => hne (by rw [hj]; rfl)
    refine h.foreign j v ?_ (by simpa [Pool.spawn, hj] using hv)
    exact fun hnone => by cases hnone
  · intro tid' pc'' heq
    cases heq
  · rw [rank_sending hself]
    simp only [rank, SlicePc.rank, List.length_cons]
    omega

theorem Ok.step [Postcard Manifest] (hu : u.Fitting env) (h : σ.Ok env u) {a : SessionAction}
    (hstep : σ.Undisturbed env u a τ) : τ.Ok env u := by
  obtain ⟨hallow, hstep⟩ := hstep
  cases a with
  | server a =>
    obtain ⟨⟨server, ev⟩, hserver, rfl⟩ := Option.map_eq_some_iff.mp hstep
    exact h.others hu hallow hserver
  | turn =>
    have hwaits : σ.stage.tid ≠ none := by
      intro hnone
      simp [Session.step, hnone] at hstep
    obtain ⟨υ, hυ, hok, -⟩ := h.turn hu hallow hwaits
    obtain rfl : τ = υ := Option.some.inj (hstep.symm.trans hυ)
    exact hok
  | send =>
    obtain ⟨server, stage⟩ := σ
    cases stage with
    | ready todo =>
      cases todo with
      | nil => cases hstep
      | cons i rest =>
        obtain ⟨υ, hυ, hok, -⟩ := h.send hu
        obtain rfl : τ = υ := Option.some.inj (hstep.symm.trans hυ)
        exact hok
    | _ => cases hstep

/-- Short of its end, a push with a place can go on by itself. -/
theorem Ok.next [Postcard Manifest] (hu : u.Fitting env) (h : σ.Ok env u ∧ σ.Placed env u)
    (hopen : σ.stage ≠ .ready []) :
    ∃ a τ, σ.Alone env u a τ ∧ (τ.Ok env u ∧ τ.Placed env u) ∧ τ.rank env u < σ.rank env u := by
  obtain ⟨hok, hplaced⟩ := h
  obtain ⟨server, stage⟩ := σ
  cases stage with
  | ready todo =>
    cases todo with
    | nil => exact absurd rfl hopen
    | cons i rest =>
      obtain ⟨τ, hτ, hok', hplaced', hless⟩ := hok.send hu
      exact ⟨.send, τ, ⟨trivial, trivial, hτ⟩, ⟨hok', hplaced'⟩, hless⟩
  | refused => exact hok.stage.elim
  | offering tid =>
    obtain ⟨τ, hτ, hok', hplaced', hless⟩ := hok.turn_offer hu hplaced
    exact ⟨.turn, τ, ⟨trivial, hplaced, hτ⟩, ⟨hok', hplaced'⟩, hless⟩
  | sending tid i rest =>
    obtain ⟨τ, hτ, hok', hplaced', hless⟩ := hok.turn_slice hu
    exact ⟨.turn, τ, ⟨trivial, hplaced, hτ⟩, ⟨hok', hplaced'⟩, hless⟩

end Session

structure Uploader.Calm (env : Env) (u : Uploader) (s : Server) : Prop where
  foreign : ∀ tid t, s.tasks tid = some t → t.Foreign u.id
  vacant : u.Vacant (s.shared.site u.id)
  fresh : s.shared.Fresh env u.id

def Uploader.begin (u : Uploader) (s : Server) : Session :=
  ⟨(s.onShared (s.shared.noteOffer u.id u.offered.manifest)).spawn (.offer u.offered .registry),
    .offering s.nextTask⟩

section Delivery

variable [Postcard Manifest] {env : Env} {u : Uploader} {s : Server}

theorem begin_step {payload : Option Bytes}
    (hoffer : admitOffer env u.id payload u.token = some u.offered) :
    s.step env (.offer u.id payload u.token) = some ((u.begin s).server, none) := by
  simp only [Server.step, hoffer]
  rfl

theorem begin_ok (hu : u.Fitting env) (hs : Server.ReachedSeparate env s) (hcalm : u.Calm env s)
    {payload : Option Bytes} (hoffer : admitOffer env u.id payload u.token = some u.offered) :
    (u.begin s).Ok env u := by
  have hmove := step_move (begin_step (s := s) hoffer)
  have hspool : (spoolInv env).Holds (u.begin s).server :=
    spool_step (a := .offer u.id payload u.token) hu.laws (reached_spool hu.laws hs) trivial hmove
  have hreached : Server.Reached env s :=
    hs.mono (fun s h => ⟨h.choose, h.choose_spec.2.1⟩) fun _ _ _ h => ⟨trivial, h.2⟩
  refine ⟨hspool, offered_step (reached_offered hreached) hmove, ?_, hcalm.fresh, .registry,
    Function.update_self _ _ _, ⟨hcalm.vacant.free, hcalm.vacant.agrees⟩⟩
  · intro j v hne hv
    have hj : j ≠ s.nextTask := fun hj => hne (by rw [hj]; rfl)
    exact hcalm.foreign j v (by simpa [Uploader.begin, Pool.spawn, Pool.onShared, hj] using hv)

/-- An upload to a server that has nothing else to do with its id, whatever the server does with
other ids meanwhile, as long as the offer finds a place among the pushes: it is never turned down,
what it has to send is what the push misses, it ends with the blob served and its file in place,
and where there is a place its own steps are enough to end it. -/
theorem upload_delivers (hu : u.Fitting env) (hs : Server.ReachedSeparate env s)
    (hcalm : u.Calm env s)
    (payload : Option Bytes) (hoffer : admitOffer env u.id payload u.token = some u.offered) :
    s.step env (.offer u.id payload u.token) = some ((u.begin s).server, none) ∧
      ∀ (taken : List (Session × SessionAction)) (σ : Session),
        Runs.Path (Session.Undisturbed env u) (u.begin s) taken σ →
        σ.stage ≠ .refused ∧
          (∀ todo, σ.stage = .ready todo → todo ≠ [] → u.Open (σ.server.shared.site u.id) todo) ∧
          (σ.stage = .ready [] → u.Done env (σ.server.shared.site u.id)) ∧
          (σ.Placed env u → ∃ (more : List (Session × SessionAction)) (τ : Session),
            Runs.Path (Session.Alone env u) σ more τ ∧ τ.stage = .ready [] ∧
            u.Done env (τ.server.shared.site u.id)) := by
  refine ⟨begin_step hoffer, fun taken σ hpath => ?_⟩
  have hok : σ.Ok env u :=
    hpath.invariant (fun _ _ _ h hstep => h.step hu hstep) (begin_ok hu hs hcalm hoffer)
  have hdone : ∀ {τ : Session}, τ.Ok env u → τ.stage = .ready [] →
      u.Done env (τ.server.shared.site u.id) := by
    intro τ hτ hend
    have hat := hτ.stage
    rw [hend] at hat
    rcases hat with ⟨-, hdone⟩ | ⟨hne, -⟩
    · exact hdone
    · exact absurd rfl hne
  refine ⟨fun href => ?_, fun todo hready hne => ?_, hdone hok, fun hplaced => ?_⟩
  · have hat := hok.stage
    rw [href] at hat
    exact hat
  · have hat := hok.stage
    rw [hready] at hat
    rcases hat with ⟨hnil, -⟩ | ⟨-, hopen⟩
    · exact absurd hnil hne
    · exact hopen
  · obtain ⟨more, τ, hmore, hend⟩ : ∃ (more : List (Session × SessionAction)) (τ : Session),
        Runs.Path (Session.Alone env u) σ more τ ∧ τ.stage = .ready [] :=
      Runs.Path.completes (fun _ h hopen => Session.Ok.next hu h hopen) ⟨hok, hplaced⟩
    have hτ : τ.Ok env u := hmore.invariant (fun _ _ _ h hstep => h.step hu hstep.2) hok
    exact ⟨more, τ, hmore, hend, hdone hτ hend⟩

end Delivery

theorem abc_geometry : (sampleManifest 3 (shortHash [97, 98, 99])).chunks = .ok abcChunks :=
  TransferChunks.new_self abcChunks

def abcUploader : Uploader where
  offered := ⟨sampleManifest 3 (shortHash [97, 98, 99]), abcChunks, abc_geometry⟩
  payload _ := [97, 98, 99]
  token := none

theorem abcUploader_fitting : abcUploader.Fitting sampleEnv where
  laws := shortBao_laws
  decodes := by
    intro i hi
    obtain rfl : i = 0 := Nat.lt_one_iff.mp hi
    exact ⟨[(0, [97, 98, 99])], by decide +kernel⟩
  allowed _ _ := rfl
  empty h := absurd h (by decide)

/-- `abc` is pushed to a server with an empty spool. -/
theorem upload_delivers_abc :
    let _ := pushPostcard
    ∃ (more : List (Session × SessionAction)) (τ : Session),
      Runs.Path (Session.Alone sampleEnv abcUploader)
      (abcUploader.begin (Server.start Spool.empty)) more τ ∧
        τ.stage = .ready [] ∧ abcUploader.Done sampleEnv (τ.server.shared.site "x") := by
  let _ := pushPostcard
  have hreach : Server.ReachedSeparate sampleEnv (Server.start Spool.empty) :=
    .start ⟨Spool.empty, Spool.empty_wf, rfl, nofun⟩
  have hcalm : abcUploader.Calm sampleEnv (Server.start Spool.empty) := by
    refine ⟨fun tid t ht => ?_, ⟨rfl, fun e he => ?_⟩, fun e he => ?_⟩
    · cases ht
    · cases he
    · cases he
  have hoffer : admitOffer sampleEnv abcUploader.id (some [1]) abcUploader.token =
      some abcUploader.offered := rfl
  refine ((upload_delivers abcUploader_fitting hreach hcalm (some [1]) hoffer).2 [] _ .nil).2.2.2 ?_
  intro tid pc _ _ _ _
  decide

end Zblob

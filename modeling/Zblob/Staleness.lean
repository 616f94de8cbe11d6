import Zblob.Answering
import Zblob.ServerSteps

/-!
When a source that has changed since it was hashed is noticed. The fingerprint of a
registration is taken after the hash pass, so a change between the two goes unnoticed; any
other change is reported by every query that begins after it.
-/

set_option autoImplicit false

namespace Zblob.Tier1

open Runs (Reachable)

variable {ω : Type}

def Registered.Differs (world : ω) (r : Registered ω) : Prop :=
  ∃ before after, r.fingerprint = some before ∧ r.source.fingerprint world = some after ∧
    before ≠ after

/-- The outboard was computed from the bytes that opening the source reached. -/
def HashedFrom (hash : Bytes → Hash) (source : BlobSource ω) (world : ω)
    (outboard : OutboardStore) : Prop :=
  ∃ obj totalLen, ∃ pass : HashPass, source.opens world = some obj ∧
    pass.outboard hash (source.read world obj) totalLen = some outboard

/-- The stored fingerprint describes the bytes the outboard was computed from. -/
structure Registered.Described (hash : Bytes → Hash) (r : Registered ω) : Prop where
  fingerprint : r.fingerprint = r.source.fingerprint r.hashedAt
  hashed : HashedFrom hash r.source r.hashedAt r.outboard

structure Registered.Sound (hash : Bytes → Hash) (world : ω) (r : Registered ω) : Prop where
  same : r.changed = false → r.source.fingerprint world = r.fingerprint
  differs : r.changed = true → r.Differs world
  described : r.Described hash

def Task.Sound (hash : Bytes → Hash) (world : ω) : Task ω → Prop
  | .register _ .opening => True
  | .register r (.hash obj _) => r.source.opens world = some obj
  | .register r (.finish outboard _ hashedAt changed) =>
    changed = false ∧ r.source.fingerprint world = r.source.fingerprint hashedAt ∧
      HashedFrom hash r.source hashedAt outboard
  | .query q pc => q.snap.changed = true → pc = .check ∧ q.snap.Differs world

def soundInv (hash : Bytes → Hash) : Pool.Invariant (Shared ω) (Task ω) Unit where
  shared s := ∀ id r, s.registry id = some r → r.Sound hash s.world
  task s t := t.Sound hash s.world

/-- The source keeps its fingerprint, or gets one that is not the stored one. -/
def Registered.Noticed (before after : ω) (r : Registered ω) : Prop :=
  r.source.fingerprint after = r.source.fingerprint before ∨ r.Differs after

def Task.Noticed (before after : ω) : Task ω → Prop
  | .register _ .opening => True
  | .register r (.hash obj _) => r.source.opens after = some obj
  | .register r (.finish ..) => r.source.fingerprint after = r.source.fingerprint before
  | .query q _ => q.snap.changed = true → q.snap.Noticed before after

def Host.Noticed (s : Host ω) : Action ω → Prop
  | .change world =>
    (∀ id r, s.shared.registry id = some r → r.Noticed s.shared.world world) ∧
      ∀ tid t, s.tasks tid = some t → t.Noticed s.shared.world world
  | _ => True

section Step

variable {env : Env} {memLimit : Nat} {encodeSlice : OutboardStore →
  Bytes → Nat × Nat → Option Bytes}

theorem Registered.Differs.noticed {before after : ω} {r : Registered ω} (h : r.Differs before)
    (hn : r.Noticed before after) : r.Differs after := by
  rcases hn with heq | hdiff
  · obtain ⟨f, g, hf, hg, hne⟩ := h
    exact ⟨f, g, hf, heq.trans hg, hne⟩
  · exact hdiff

theorem Registered.Sound.note {hash : Bytes → Hash} {before after : ω} {r : Registered ω}
    (h : r.Sound hash before) (hn : r.Noticed before after) :
    (r.note before after).Sound hash after := by
  refine ⟨fun hsame => ?_, fun hchanged => ?_, ⟨h.described.fingerprint, h.described.hashed⟩⟩
  · simp only [Registered.note, Bool.or_eq_false_iff, decide_eq_false_iff_not, not_not] at hsame
    exact hsame.2.trans (h.same hsame.1)
  · simp only [Registered.note, Bool.or_eq_true, decide_eq_true_eq] at hchanged
    rcases hchanged with hold | hnew
    · exact (h.differs hold).noticed hn
    · exact hn.resolve_left hnew

theorem Task.Sound.note {hash : Bytes → Hash} {before after : ω}
    {t : Task ω} (h : t.Sound hash before)
    (hn : t.Noticed before after) : (t.note before after).Sound hash after := by
  cases t with
  | query q pc =>
    intro hchanged
    obtain ⟨hpc, hdiff⟩ := h hchanged
    exact ⟨hpc, hdiff.noticed (hn hchanged)⟩
  | register r pc =>
    cases pc with
    | opening => trivial
    | hash obj totalLen => exact hn
    | finish outboard totalLen hashedAt changed =>
      obtain ⟨hch, hfp, hfrom⟩ := h
      have hkeep : r.source.fingerprint after = r.source.fingerprint before := hn
      exact ⟨by simp [hch, hkeep], hkeep.trans hfp, hfrom⟩

theorem sound_change {s : Host ω} {hash : Bytes → Hash} {world : ω} (hI : (soundInv hash).Holds s)
    (hn : s.Noticed (.change world)) : (soundInv hash).Holds (s.change world) where
  fresh tid htid := by
    change (s.tasks tid).map _ = none
    rw [hI.fresh tid htid]
    rfl
  shared id r' hr' := by
    obtain ⟨r, hr, rfl⟩ := Option.map_eq_some_iff.mp hr'
    exact (hI.shared id r hr).note (hn.1 id r hr)
  task tid t' ht' := by
    obtain ⟨t, ht, rfl⟩ := Option.map_eq_some_iff.mp ht'
    exact (hI.task tid t ht).note (hn.2 tid t ht)
  pair _ _ _ _ _ _ _ := trivial
  quiet _ _ := trivial

variable (env) in
/-- What the end of a registration leaves: the world as it was, and in the registry at most
one new blob, under the fingerprint of this moment. -/
theorem finish_spec (s : Shared ω) (r : Registration ω) (outboard : OutboardStore) (totalLen : Nat)
    (hashedAt : ω) (changed : Bool) :
    (finish env s r outboard totalLen hashedAt changed).1.world = s.world ∧
      ∀ id e, (finish env s r outboard totalLen hashedAt changed).1.registry id = some e →
        s.registry id = some e ∨ (e.source = r.source ∧ e.outboard = outboard ∧
          e.fingerprint = r.source.fingerprint s.world ∧ e.hashedAt = hashedAt ∧
          e.changed = changed) := by
  unfold finish
  split
  · exact ⟨rfl, fun id e he => .inl he⟩
  · rename_i manifest chunks _
    split
    · split <;> exact ⟨rfl, fun id e he => .inl he⟩
    · refine ⟨rfl, fun id e he => ?_⟩
      by_cases hid : id = manifest.id.str
      · subst hid
        simp only [Function.update_self, Option.some.injEq] at he
        subst he
        exact .inr ⟨rfl, rfl, rfl, rfl, rfl⟩
      · simp only [Function.update_of_ne hid] at he
        exact .inl he

theorem finish_sound {s : Shared ω} {r : Registration ω} {outboard : OutboardStore} {totalLen : Nat}
    {hashedAt : ω} {changed : Bool}
    (hs : ∀ id e, s.registry id = some e → e.Sound env.bao.hash s.world)
    (ht : (Task.register r (.finish outboard totalLen hashedAt changed)).Sound
      env.bao.hash s.world) :
    ∀ id e, (finish env s r outboard totalLen hashedAt changed).1.registry id = some e →
      e.Sound env.bao.hash s.world := by
  obtain ⟨hch, hfp, hfrom⟩ := ht
  intro id e he
  rcases (finish_spec env s r outboard totalLen hashedAt changed).2
      id e he with hold | ⟨hsrc, hob, hf, hat, hc⟩
  · exact hs id e hold
  · refine ⟨fun _ => by rw [hsrc, hf], fun hchanged => ?_,
      ⟨by rw [hf, hsrc, hat, hfp], by rw [hsrc, hat, hob]; exact hfrom⟩⟩
    rw [hc, hch] at hchanged
    cases hchanged

variable (memLimit) in
theorem registerStep_sound {s : Shared ω} (ok : Bool) {r : Registration ω} {pc : RegisterPc ω}
    (hs : ∀ id e, s.registry id = some e → e.Sound env.bao.hash s.world)
    (ht : (Task.register r pc).Sound env.bao.hash s.world) :
    let moved := registerStep env memLimit s ok r pc
    moved.1.world = s.world ∧
      (∀ id e, moved.1.registry id = some e → e.Sound env.bao.hash s.world) ∧
      ∀ pc', moved.2.1 = some pc' → (Task.register r pc').Sound env.bao.hash s.world := by
  cases pc with
  | opening =>
    simp only [registerStep]
    split
    · exact ⟨rfl, hs, nofun⟩
    · rename_i obj hobj
      refine ⟨rfl, hs, ?_⟩
      rintro pc' ⟨⟩
      cases ok
      · cases hobj
      · exact hobj
  | hash obj totalLen =>
    simp only [registerStep]
    split
    · exact ⟨rfl, hs, nofun⟩
    · rename_i outboard hob
      refine ⟨rfl, hs, ?_⟩
      rintro pc' ⟨⟩
      cases ok
      · cases hob
      · exact ⟨rfl, rfl, obj, totalLen, _, ht, hob⟩
  | finish outboard totalLen hashedAt changed =>
    have hworld := (finish_spec env s r outboard totalLen hashedAt changed).1
    have hsound := finish_sound hs ht
    simp only [registerStep]
    split <;> rename_i heq <;> rw [heq] at hworld hsound <;> exact ⟨hworld, hsound, nofun⟩

variable (env encodeSlice) in
/-- A query that begins after a change of its source answers with that and nothing else. -/
theorem check_changed {s : Shared ω} {q : Query ω} (ok : Bool) (h : q.snap.Differs s.world) :
    ∃ before after, q.snap.fingerprint = some before ∧
      q.snap.source.fingerprint s.world = some after ∧
      queryStep env encodeSlice s ok q .check =
        (none, some (.reply q.id (.error (changedError q.id before after)))) := by
  obtain ⟨before, after, hb, ha, hne⟩ := h
  refine ⟨before, after, hb, ha, ?_⟩
  simp only [queryStep, hb, ha]
  rw [if_pos hne]

theorem sound_task {s : Host ω} {tid : Nat} {ok : Bool} {t : Task ω}
    (hI : (soundInv env.bao.hash).Holds s) (ht : s.tasks tid = some t) :
    (soundInv env.bao.hash).Holds (s.resume tid (taskStep env memLimit encodeSlice s.shared ok t).1
      (taskStep env memLimit encodeSlice s.shared ok t).2.1) := by
  have htask := hI.task tid t ht
  have others : ∀ {s' : Shared ω}, s'.world = s.shared.world → ∀ j u, j ≠ tid → s.tasks j = some u →
      u.Sound env.bao.hash s'.world := by
    intro s' hw j u _ hu
    rw [hw]
    exact hI.task j u hu
  cases t with
  | register r pc =>
    obtain ⟨hw, hreg, hnext⟩ := registerStep_sound memLimit ok hI.shared htask
    refine hI.resume ht ?_ ?_ (others hw) (fun _ _ _ _ _ _ => ⟨trivial, trivial⟩)
      fun _ _ _ _ => trivial
    · intro id e he
      change e.Sound env.bao.hash (registerStep env memLimit s.shared ok r pc).1.world
      rw [hw]
      exact hreg id e he
    · intro v hv
      obtain ⟨pc', hpc, rfl⟩ := Option.map_eq_some_iff.mp hv
      change (Task.register r pc').Sound env.bao.hash
        (registerStep env memLimit s.shared ok r pc).1.world
      rw [hw]
      exact hnext pc' hpc
  | query q pc =>
    refine hI.resume ht hI.shared ?_ (others rfl) (fun _ _ _ _ _ _ => ⟨trivial, trivial⟩)
      fun _ _ _ _ => trivial
    intro v hv
    have hnext : (queryStep env encodeSlice s.shared ok q pc).1.map (Task.query q) = some v := hv
    by_cases hchanged : q.snap.changed = true
    · obtain ⟨rfl, hdiff⟩ := htask hchanged
      obtain ⟨before, after, -, -, hstep⟩ := check_changed env encodeSlice ok hdiff
      rw [hstep] at hnext
      cases hnext
    · obtain ⟨pc', -, rfl⟩ := Option.map_eq_some_iff.mp hnext
      exact fun h => absurd h hchanged

theorem query_step {s : Host ω} {id : String} {r : Registered ω} (kind : QueryKind)
    (h : s.shared.registry id = some r) : s.step env memLimit encodeSlice (.query id kind) =
      some (s.spawn (.query ⟨id, kind, r⟩ .check), none) := by
  simp [Host.step, h]

theorem sound_step {s t : Host ω} {a : Action ω} {ev : Option Event}
    (hI : (soundInv env.bao.hash).Holds s)
    (hn : s.Noticed a) (h : s.step env memLimit encodeSlice a = some (t, ev)) :
    (soundInv env.bao.hash).Holds t := by
  cases a with
  | change world =>
    cases h
    exact sound_change hI hn
  | register r =>
    cases h
    exact hI.spawn trivial fun _ => ⟨trivial, trivial⟩
  | unregister id =>
    cases h
    refine hI.onShared (fun k e he => ?_) (fun i u hu => hI.task i u hu) fun _ _ => trivial
    by_cases hk : k = id
    · subst hk
      simp at he
    · simp only [Function.update_of_ne hk] at he
      exact hI.shared k e he
  | query id kind =>
    simp only [Host.step] at h
    split at h
    · cases h
      exact hI
    · rename_i r hr
      cases h
      exact hI.spawn (fun hchanged => ⟨rfl, (hI.shared id r hr).differs hchanged⟩) fun _ =>
        ⟨trivial, trivial⟩
  | run tid ok =>
    simp only [Host.step] at h
    split at h
    · cases h
    · rename_i u hu
      cases h
      exact sound_task hI hu

end Step

section Runs

variable (env : Env) (memLimit : Nat)
  (encodeSlice : OutboardStore → Bytes → Nat × Nat → Option Bytes)

def Host.start (world : ω) : Host ω := ⟨⟨world, fun _ => none⟩, fun _ => none, 0⟩

abbrev Host.ReachedBy (allowed : Host ω → Action ω → Prop) : Host ω → Prop :=
  Reachable (fun s => ∃ world, s = Host.start world)
    fun s a t => allowed s a ∧ ∃ ev, s.step env memLimit encodeSlice a = some (t, ev)

theorem reached_sound {s : Host ω} (h : s.ReachedBy env memLimit encodeSlice Host.Noticed) :
    (soundInv env.bao.hash).Holds s := by
  apply Reachable.invariant _ _ h
  · rintro s ⟨world, rfl⟩
    exact Pool.Invariant.Holds.empty nofun fun _ => trivial
  · rintro s a t hs ⟨hn, ev, hstep⟩
    exact sound_step hs hn hstep

/-- In a run in which every change of the world can be noticed, a query that begins after its
source has changed has one step to take, which sends the error about the change; and the
fingerprint of every registered blob describes the bytes its outboard was computed from. -/
theorem source_change_detected (s : Host ω)
    (h : s.ReachedBy env memLimit encodeSlice Host.Noticed) :
    (∀ tid q pc, s.tasks tid = some (.query q pc) → q.snap.changed = true →
      ∃ before after, q.snap.fingerprint = some before ∧
      q.snap.source.fingerprint s.shared.world = some after ∧
        ∀ ok, s.step env memLimit encodeSlice (.run tid ok) = some (s.resume tid s.shared none,
          some (.reply q.id (.error (changedError q.id before after))))) ∧
    ∀ id r, s.shared.registry id = some r → r.Described env.bao.hash := by
  have hI := reached_sound env memLimit encodeSlice h
  refine ⟨fun tid q pc ht hchanged => ?_, fun id r hr => (hI.shared id r hr).described⟩
  obtain ⟨rfl, hdiff⟩ := hI.task tid _ ht hchanged
  obtain ⟨before, after, hb, ha, -⟩ := check_changed env encodeSlice true hdiff
  refine ⟨before, after, hb, ha, fun ok => ?_⟩
  obtain ⟨before', after', hb', ha', hstep⟩ := check_changed env encodeSlice ok hdiff
  obtain rfl : before = before' := Option.some.inj (hb.symm.trans hb')
  obtain rfl : after = after' := Option.some.inj (ha.symm.trans ha')
  simp [Host.step, ht, taskStep, hstep]

end Runs

section Notes

def notesDisk (data : Bytes) (mtime : Int) : Disk :=
  ⟨fun path => if path = "notes" then some 0 else none, fun _ => data, fun _ => some mtime⟩

def notesRegistration : Registration Disk := ⟨.file, ⟨"x", none, 65536, 0⟩, FileBlobSource "notes"⟩

def noSlices (_ : OutboardStore) (_ : Bytes) (_ : Nat × Nat) : Option Bytes := none

abbrev notesStep (s : Host Disk) (a : Action Disk) : Option (Host Disk) :=
  (s.step sampleEnv 1000 noSlices a).map Prod.fst

theorem notesStep_some {s t : Host Disk} {a : Action Disk} (h : notesStep s a = some t) :
    ∃ ev, s.step sampleEnv 1000 noSlices a = some (t, ev) := by
  obtain ⟨⟨u, ev⟩, hu, rfl⟩ := Option.map_eq_some_iff.mp h
  exact ⟨ev, hu⟩

def Action.quiet : Action Disk → Bool
  | .change _ => false
  | _ => true

theorem quiet_noticed {s : Host Disk} {a : Action Disk} (h : a.quiet = true) : s.Noticed a := by
  cases a with
  | change world => cases h
  | _ => trivial

theorem quiet_reached {actions : List (Action Disk)} (hquiet : ∀ a ∈ actions, a.quiet = true)
    {s t : Host Disk}
    (hs : s.ReachedBy sampleEnv 1000 noSlices Host.Noticed)
    (h : actions.foldlM notesStep s = some t) :
    t.ReachedBy sampleEnv 1000 noSlices Host.Noticed := by
  induction actions generalizing s with
  | nil =>
    cases h
    exact hs
  | cons a actions ih =>
    rw [List.foldlM_cons] at h
    obtain ⟨u, hu, h⟩ := Option.bind_eq_some_iff.mp h
    have hnext : u.ReachedBy sampleEnv 1000 noSlices Host.Noticed :=
      .next (a := a) hs ⟨quiet_noticed (hquiet a (by simp)), notesStep_some hu⟩
    exact ih (fun b hb => hquiet b (by simp [hb])) hnext h

def registerNotes : List (Action Disk) :=
  [.register notesRegistration, .run 0 true, .run 0 true, .run 0 true]

def notesShared : Shared Disk :=
  let disk := notesDisk [97, 98, 99] 1
  (finish sampleEnv ⟨disk, fun _ => none⟩ notesRegistration
    ⟨shortHash [97, 98, 99], 3⟩ 3 disk false).1

theorem notes_registered : ∃ tasks,
    registerNotes.foldlM notesStep (Host.start (notesDisk [97, 98, 99] 1)) =
    some ⟨notesShared, tasks, 1⟩ ∧
      ∀ tid, tasks tid = none := by
  refine ⟨_, rfl, fun tid => ?_⟩
  by_cases htid : tid = 0
  · subst htid
    rfl
  · simp [Pool.spawn, Pool.resume, Host.start, htid]

theorem notesShared_entry {id : String} {r : Registered Disk}
    (h : notesShared.registry id = some r) :
    r.source = FileBlobSource "notes" ∧ r.fingerprint = some ⟨3, some 1⟩ ∧ r.changed = false := by
  rcases (finish_spec sampleEnv _ notesRegistration _ 3 _ false).2
      id r h with hold | ⟨hsrc, -, hfp, -, hch⟩
  · cases hold
  · exact ⟨hsrc, hfp, hch⟩

/-- The file grows after its registration, and a manifest query comes in. -/
theorem source_change_detected_notes :
    ∃ s : Host Disk, s.ReachedBy sampleEnv 1000 noSlices Host.Noticed ∧
      ∃ q, s.tasks 1 = some (.query q .check) ∧ q.snap.changed = true ∧ ∃ before after,
        s.step sampleEnv 1000 noSlices (.run 1 true) = some (s.resume 1 s.shared none,
          some (.reply q.id (.error (changedError q.id before after)))) := by
  obtain ⟨tasks, hrun, hidle⟩ := notes_registered
  have hreg : Host.ReachedBy sampleEnv 1000 noSlices Host.Noticed ⟨notesShared, tasks, 1⟩ :=
    quiet_reached (by simp [registerNotes, Action.quiet])
      (.start ⟨notesDisk [97, 98, 99] 1, rfl⟩) hrun
  have hgrown : ∀ {r : Registered Disk}, r.source = FileBlobSource "notes" →
      r.fingerprint = some ⟨3, some 1⟩ →
      r.Differs (notesDisk [97, 98, 99, 100] 2) := by
    intro r hsrc hfp
    exact ⟨⟨3, some 1⟩, ⟨4, some 2⟩, hfp, by rw [hsrc]; rfl, by decide⟩
  have hnoticed :
      Host.Noticed ⟨notesShared, tasks, 1⟩ (.change (notesDisk [97, 98, 99, 100] 2)) := by
    refine ⟨fun id r hr => ?_, fun tid t ht => ?_⟩
    · obtain ⟨hsrc, hfp, -⟩ := notesShared_entry hr
      exact .inr (hgrown hsrc hfp)
    · cases (hidle tid).symm.trans ht
  have hchange :=
    Reachable.next (a := .change (notesDisk [97, 98, 99, 100] 2)) hreg ⟨hnoticed, none, rfl⟩
  obtain ⟨r, hr⟩ := Option.isSome_iff_exists.mp
    (show (notesShared.registry "x").isSome = true by decide +kernel)
  obtain ⟨hsrc, hfp, -⟩ := notesShared_entry hr
  have hfound :
      (Host.change ⟨notesShared, tasks, 1⟩ (notesDisk [97, 98, 99, 100] 2)).shared.registry "x" =
      some (r.note notesShared.world (notesDisk [97, 98, 99, 100] 2)) := by
    change (notesShared.registry "x").map _ = _
    rw [hr]
    rfl
  have hchanged : (r.note notesShared.world (notesDisk [97, 98, 99, 100] 2)).changed = true := by
    simp only [Registered.note, hsrc, Bool.or_eq_true, decide_eq_true_eq]
    exact .inr (by decide +kernel)
  have hquery := Reachable.next hchange ⟨quiet_noticed rfl, none, query_step .manifest hfound⟩
  obtain ⟨before, after, -, -, hstep⟩ :=
    (source_change_detected sampleEnv 1000 noSlices _ hquery).1 1 _ _ rfl hchanged
  exact ⟨_, hquery, _, rfl, hchanged, before, after, hstep true⟩

/-- The file grows between the hash pass and the end of its registration. -/
def changeBeforeFinish : List (Action Disk) :=
  [.register notesRegistration, .run 0 true, .run 0 true, .change (notesDisk [97, 98, 99, 100] 2),
    .run 0 true,
    .query "x" .manifest]

/-- The manifest of the bytes that are gone is answered. -/
theorem change_before_finish_unnoticed :
    ∃ s : Host Disk, s.ReachedBy sampleEnv 1000 noSlices (fun _ _ => True) ∧
      ∃ q, s.tasks 1 = some (.query q .check) ∧ q.snap.changed = true ∧
        s.step sampleEnv 1000 noSlices (.run 1 true) = some (s.resume 1 s.shared none,
          some (.reply "x" (.manifest q.snap.manifest))) := by
  have hrun : ∃ s, changeBeforeFinish.foldlM notesStep
      (Host.start (notesDisk [97, 98, 99] 1)) = some s ∧
      ∃ q, s.tasks 1 = some (.query q .check) ∧ q.snap.changed = true ∧
        s.step sampleEnv 1000 noSlices (.run 1 true) = some (s.resume 1 s.shared none,
          some (.reply "x" (.manifest q.snap.manifest))) :=
    ⟨_, rfl, _, rfl, rfl, rfl⟩
  obtain ⟨s, hs, hq⟩ := hrun
  refine ⟨s, (Reachable.foldlM (.start ⟨_, rfl⟩) hs).mono (fun _ h => h) fun s a t h =>
    ⟨trivial, ?_⟩, hq⟩
  exact notesStep_some h

end Notes

end Zblob.Tier1

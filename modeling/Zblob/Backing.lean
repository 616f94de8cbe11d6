import Zblob.Registry

/-!
The files behind the blobs that pushes have registered. All pushes of one id share one
`<id>.blob`, which a finalization renames over and, when it loses, removes.
-/

set_option autoImplicit false

namespace Zblob

open Runs (Reachable)

def BlobHolds (env : Env) (sp : Spool) (id : String) (m : Manifest) : Prop :=
  ∃ f, sp.blobFile id = some f ∧ f.length = m.totalLen.toNat ∧ env.bao.hash f = m.root

def NotPushed (s : Shared) (id : String) : Prop :=
  ∀ r, s.registry id = some r → r.source = .given

/-- What a finalization past its first step relies on. -/
structure Fin.Owns (env : Env) (s : Shared) (id : String) (f : Fin) : Prop where
  free : NotPushed s id
  hashed : ∀ e root len, f = .register e root len → BlobHolds env s.spool id e.manifest

def blobInv (env : Env) : Pool.Invariant Shared Task Unit where
  shared s := s.spool.Wf ∧
    ∀ id r, s.registry id = some r → r.source = .spooled → BlobHolds env s.spool id r.manifest
  task s t := ∀ id f, t.fin = some (id, f) → f ≠ .take → f.Owns env s id
  pair t u := ∀ id f g, t.fin = some (id, f) → u.fin = some (id, g) → f = .take ∨ g = .take

/-- A finalization takes an entry only while no push has registered its id and no other
finalization of the id is under way, and `set_len` does not reach through its handle into a
file that has become a blob of another length. -/
structure Task.Exclusive (s : Server) (tid : Nat) (t : Task) : Prop where
  free : ∀ id e, t.fin = some (id, .take) → s.shared.pushes.lookup id = some e →
    NotPushed s.shared id
  alone : ∀ id e j u f, t.fin = some (id, .take) → s.shared.pushes.lookup id = some e → j ≠ tid →
    s.tasks j = some u → u.fin = some (id, f) → f = .take
  handle : ∀ o ino k, t = .offer o (.setLen ino) → s.shared.spool.blob k = some ino →
    (s.shared.spool.data ino).length = o.manifest.totalLen.toNat

def Server.Exclusive (s : Server) : Action → Prop
  | .run tid _ => ∀ t, s.tasks tid = some t → t.Exclusive s tid
  | _ => True

section Step

variable {env : Env}

theorem BlobHolds.of_eq {sp sp' : Spool} {id : String} {m : Manifest} (h : BlobHolds env sp id m)
    (hblob : sp'.blob id = sp.blob id) (hdata : ∀ n, sp.blob id = some n → sp'.data n = sp.data n) :
    BlobHolds env sp' id m := by
  obtain ⟨f, hf, hlen, hhash⟩ := h
  obtain ⟨n, hn, rfl⟩ := Option.map_eq_some_iff.mp hf
  exact ⟨sp.data n, by simp [Spool.blobFile, hblob, hn, hdata n hn], hlen, hhash⟩

theorem SpoolOp.blobs {sp sp' : Spool} {t : Task} (h : SpoolOp sp t sp') (hwf : sp.Wf)
    (hhandle : ∀ o ino k, t = .offer o (.setLen ino) → sp.blob k = some ino →
      (sp.data ino).length = o.manifest.totalLen.toNat) :
    sp'.blob = sp.blob ∧ ∀ k n, sp.blob k = some n → sp'.data n = sp.data n := by
  cases h with
  | @clean o op todo next => cases op <;> exact ⟨rfl, fun _ _ _ => rfl⟩
  | @create o =>
    have hc := Spool.createPart_created sp o.id
    refine ⟨hc.blob, fun k n hk => ?_⟩
    have hne : n ≠ (sp.createPart o.id).2 := by
      rintro rfl
      exact (hc.own hwf).2 k hk
    rw [hc.data, Function.update_of_ne hne]
  | @setLen o ino =>
    refine ⟨rfl, fun k n hk => ?_⟩
    by_cases hn : n = ino
    · subst hn
      have hlen := hhandle o n k rfl hk
      simp [Spool.setLenAt, Spool.setData, ← hlen, ByteFile.setLen_self]
    · simp [Spool.setLenAt, Spool.setData, hn]
  | save => exact ⟨rfl, fun _ _ _ => rfl⟩
  | @write r snap ls sp' hsp =>
    obtain ⟨ino, hino, rfl⟩ := Spool.writePart_some hsp
    refine ⟨rfl, fun k n hk => ?_⟩
    have hne : n ≠ ino := by
      rintro rfl
      exact hwf.apart _ k n hino hk
    simp [Spool.setData, hne]
  | flush => exact ⟨rfl, fun _ _ _ => rfl⟩

def Fin.Looks : Fin → Prop
  | .take | .hash _ | .register _ _ _ => True
  | _ => False

theorem FinMove.blobs {s s' : Shared} {id : String} {f : Fin} {out : FinOut}
    (h : FinMove env id s f s' out) :
    s'.spool.data = s.spool.data ∧ (∀ k, k ≠ id → s'.spool.blob k = s.spool.blob k) ∧
      (f.Looks → s'.spool = s.spool) := by
  have removed : ∀ {sp : Spool}, sp = s.spool ∨ sp = s.spool.removeBlob id →
      sp.data = s.spool.data ∧ ∀ k, k ≠ id → sp.blob k = s.spool.blob k := by
    rintro sp (rfl | rfl)
    · exact ⟨rfl, fun _ _ => rfl⟩
    · exact ⟨rfl, fun k hk => by simp [Spool.removeBlob, hk]⟩
  cases h with
  | rename hsp =>
    obtain ⟨ino, hino, rfl⟩ := Spool.renamePart_some hsp
    exact ⟨rfl, fun k hk => by simp [hk], fun h => h.elim⟩
  | removeMeta => exact ⟨rfl, fun _ _ => rfl, fun h => h.elim⟩
  | removeBad hsp => exact ⟨(removed hsp).1, (removed hsp).2, fun h => h.elim⟩
  | removeSame hsp => exact ⟨(removed hsp).1, (removed hsp).2, fun h => h.elim⟩
  | removeOther hsp => exact ⟨(removed hsp).1, (removed hsp).2, fun h => h.elim⟩
  | _ => exact ⟨rfl, fun _ _ => rfl, fun _ => rfl⟩

/-- A step keeps every blob but the one that its own finalization is moving. -/
theorem Effect.blobs {s s' : Shared} {t : Task} (h : Effect env s t s') (hwf : s.spool.Wf)
    (hhandle : ∀ o ino k, t = .offer o (.setLen ino) → s.spool.blob k = some ino →
      (s.spool.data ino).length = o.manifest.totalLen.toNat) (k : String) (m : Manifest)
    (hlooks : ∀ f, t.fin = some (k, f) → f.Looks) (hm : BlobHolds env s.spool k m) :
    BlobHolds env s'.spool k m := by
  cases h with
  | evicted => rwa [evict_spool]
  | found => rwa [put_spool, evict_spool]
  | spooled h =>
    obtain ⟨hblob, hdata⟩ := h.blobs hwf hhandle
    exact hm.of_eq (congrFun hblob k) fun n hn => hdata k n hn
  | @fin _ id f _ _ ht h =>
    obtain ⟨hdata, hblob, hsame⟩ := h.blobs
    by_cases hk : k = id
    · subst hk
      rw [hsame (hlooks f ht)]
      exact hm
    · exact hm.of_eq (hblob k hk) fun n _ => by rw [hdata]
  | _ => exact hm

theorem FinMove.go_registry {s s' : Shared} {id : String} {f f' : Fin}
    (h : FinMove env id s f s' (.go f')) : s'.registry = s.registry := by
  cases h <;> rfl

theorem blob_task {s : Server} {tid : Nat} {ok : Bool} {t : Task} {s' : Shared} {t' : Option Task}
    {ev : Option Event} (hoff : offeredInv.Holds s) (hI : (blobInv env).Holds s)
    (ht : s.tasks tid = some t) (hex : t.Exclusive s tid)
    (h : TaskMove env ok s.shared t s' t' ev) : (blobInv env).Holds (s.resume tid s' t') := by
  obtain ⟨hwf, hback⟩ := hI.shared
  have hkeep := h.effect.blobs hwf hex.handle
  have howns := hI.task tid t ht
  -- the registry has gained at most the blob of this handler's finalization
  have hfree : ∀ k, NotPushed s.shared k → (∀ e root len, t.fin ≠ some (k, .register e root len)) →
      NotPushed s' k := by
    intro k hk hne r hr
    rcases h.effect.gains with hreg | ⟨id, e, root, len, hf, -, hreg⟩
    · exact hk r (by rw [← hreg]; exact hr)
    · have hid : e.manifest.id.str = id := ((hoff.task tid t ht).2 id _ hf).1.1
      have hki : k ≠ e.manifest.id.str := by
        rintro rfl
        rw [hid] at hne
        exact hne e root len hf
      rw [hreg, Function.update_of_ne hki] at hr
      exact hk r hr
  refine hI.resume ht ⟨h.effect.wf hwf, fun id r hr hsp => ?_⟩ ?_ ?_ ?_ (fun _ _ _ _ => trivial)
  · rcases h.effect.gains with hreg | ⟨k, e, root, len, hf, -, hreg⟩
    · rw [hreg] at hr
      refine hkeep id _ (fun f hf => ?_) (hback id r hr hsp)
      by_cases htake : f = .take
      · rw [htake]
        trivial
      · rw [(howns id f hf htake).free r hr] at hsp
        cases hsp
    · have hid : e.manifest.id.str = k := ((hoff.task tid t ht).2 k _ hf).1.1
      by_cases hk : id = e.manifest.id.str
      · rw [hreg, hk, Function.update_self] at hr
        cases hr
        refine hkeep id _ (fun f hf' => ?_) ?_
        · rw [hk, hid, hf] at hf'
          cases hf'
          trivial
        · rw [hk, hid]
          exact (howns k _ hf nofun).hashed e root len rfl
      · rw [hreg, Function.update_of_ne hk] at hr
        refine hkeep id _ (fun f hf' => ?_) (hback id r hr hsp)
        rw [hf] at hf'
        cases hf'
        trivial
  · rintro v rfl id f' hf' hne
    rcases h.fin hf' with rfl | ⟨f, hf, hmove⟩
    · exact absurd rfl hne
    · constructor
      · have hs : NotPushed s.shared id := by
          by_cases htake : f = .take
          · subst htake
            cases hmove with
            | take hin => exact hex.free id _ hf hin
          · exact (howns id f hf htake).free
        intro r hr
        rw [hmove.go_registry] at hr
        exact hs r hr
      · rintro e root len rfl
        cases hmove with
        | hashed hb hroot hlen => exact ⟨_, hb, hlen, hroot⟩
  · intro j u hj hu id f hf hne
    have hpair : ∀ g, t.fin = some (id, g) → g = .take := by
      intro g hg
      rcases hI.pair tid j t u (Ne.symm hj) ht hu id g f hg hf with h | h
      · exact h
      · exact absurd h hne
    have hown := hI.task j u hu id f hf hne
    refine ⟨hfree id hown.free fun e root len hreg => ?_, fun e root len hreg => ?_⟩
    · cases hpair _ hreg
    · refine hkeep id _ (fun g hg => ?_) (hown.hashed e root len hreg)
      rw [hpair g hg]
      trivial
  · rintro j u hj hu v rfl
    have hpair : ∀ id f' g, v.fin = some (id, f') → u.fin = some (id, g) →
        f' = .take ∨ g = .take := by
      intro id f' g hf' hg
      rcases h.fin hf' with rfl | ⟨f, hf, hmove⟩
      · exact .inl rfl
      · by_cases htake : f = .take
        · subst htake
          cases hmove with
          | take hin => exact .inr (hex.alone id _ j u g hf hin hj hu hg)
        · rcases hI.pair tid j t u (Ne.symm hj) ht hu id f g hf hg with h | h
          · exact absurd h htake
          · exact .inr h
    exact ⟨hpair, fun id f g hf hg => (hpair id g f hg hf).symm⟩

theorem blob_step {s t : Server} {a : Action} {ev : Option Event} (hoff : offeredInv.Holds s)
    (hI : (blobInv env).Holds s) (hex : s.Exclusive a) (h : ServerMove env s a t ev) :
    (blobInv env).Holds t := by
  -- outside the handlers only blobs that are not in the spool come, and entries go
  have quiet : ∀ s' : Shared, s'.spool = s.shared.spool →
      (∀ id r, s'.registry id = some r → s.shared.registry id = some r ∨ r.source = .given) →
      (blobInv env).Holds (s.onShared s') := by
    intro s' hsp hreg
    refine hI.onShared ⟨?_, fun id r hr hs => ?_⟩ (fun i u hu id f hf hne => ?_) fun _ _ => trivial
    · rw [hsp]
      exact hI.shared.1
    · rcases hreg id r hr with hr | hgiven
      · rw [hsp]
        exact hI.shared.2 id r hr hs
      · rw [hgiven] at hs
        cases hs
    · obtain ⟨hfree, hhashed⟩ := hI.task i u hu id f hf hne
      refine ⟨fun r hr => ?_, ?_⟩
      · rcases hreg id r hr with hr | hgiven
        · exact hfree r hr
        · exact hgiven
      · rw [hsp]
        exact hhashed
  cases h with
  | tick => exact quiet _ rfl fun _ _ h => .inl h
  | @offer keyId payload token o hid =>
    refine (quiet (s.shared.noteOffer keyId o.manifest) rfl fun _ _ h => .inl h).spawn
      ?_ fun u => ?_
    · intro id f hf
      cases hf
    · exact ⟨fun id f g hf => (by cases hf), fun id f g _ hg => (by cases hg)⟩
  | refused => exact hI
  | slice hpush =>
    refine hI.spawn ?_ fun u => ?_
    · intro id f hf
      cases hf
    · exact ⟨fun id f g hf => (by cases hf), fun id f g _ hg => (by cases hg)⟩
  | run hu h => exact blob_task hoff hI hu (hex _ hu) h
  | @register spec root len s' h =>
    cases h with
    | unchanged => exact hI
    | @added r hno hsource =>
      refine quiet _ rfl fun id r' hr' => ?_
      by_cases hid : id = spec.id
      · rw [hid] at hr'
        simp only [Shared.serve, Function.update_self, Option.some.injEq] at hr'
        exact .inr (by rw [← hr']; exact hsource)
      · exact .inl (by simpa [Shared.serve, hid] using hr')
  | @unregister k =>
    refine quiet _ rfl fun id r hr => .inl ?_
    by_cases hid : id = k
    · rw [hid] at hr
      simp [Shared.unserve] at hr
    · simpa [Shared.unserve, hid] using hr

end Step

section Runs

variable [Postcard Manifest] {env : Env}

/-- The servers that exclusive runs reach over a spool directory without hard links. -/
abbrev Server.ReachedExclusive (env : Env) : Server → Prop :=
  Reachable (fun s => ∃ spool : Spool, spool.Wf ∧ s = Server.start spool)
    (Server.Runs env Server.Exclusive)

theorem reached_blobs {s : Server} (h : Server.ReachedExclusive env s) : (blobInv env).Holds s := by
  induction h with
  | start h0 =>
    obtain ⟨spool, hwf, rfl⟩ := h0
    exact Pool.Invariant.Holds.empty ⟨hwf, nofun⟩ fun _ => trivial
  | next hs hstep ih =>
    obtain ⟨hex, ev, hstep⟩ := hstep
    have hreach : Server.Reached env _ :=
      hs.mono (fun _ h => ⟨_, h.choose_spec.2⟩) fun _ _ _ h => ⟨trivial, h.2⟩
    exact blob_step (reached_offered hreach) ih hex (step_move hstep)

/-- While finalizations of one id do not overlap and none starts on an id that a push has
registered, every blob registered by a push is in its file. -/
theorem pushed_blob_backed (env : Env) (s : Server) (h : Server.ReachedExclusive env s)
    (id : String)
    (r : Registered) (hr : s.shared.registry id = some r) (hpush : r.source = .spooled) :
    ∃ f, s.shared.spool.blobFile id = some f ∧ f.length = r.manifest.totalLen.toNat ∧
      env.bao.hash f = r.manifest.root :=
  (reached_blobs h).shared.2 id r hr hpush

end Runs

def Task.exclusive (s : Server) (tid : Nat) (t : Task) : Bool :=
  match t with
  | .offer o (.setLen ino) => s.shared.spool.part o.id == some ino
  | _ =>
    match t.fin with
    | some (id, .take) =>
      (s.shared.registry id).isNone &&
        (List.range s.nextTask).all fun j => j == tid || (s.tasks j).isNone
    | _ => true

theorem Task.exclusive_sound {s : Server} {tid : Nat} {t : Task} (hwf : s.shared.spool.Wf)
    (hidle : s.Idle) (h : t.exclusive s tid = true) : t.Exclusive s tid := by
  have htake : ∀ id, t.fin = some (id, .take) → s.shared.registry id = none ∧
      ∀ j, j ≠ tid → s.tasks j = none := by
    intro id hf
    unfold Task.exclusive at h
    split at h
    · cases hf
    · simp only [hf, Bool.and_eq_true, Option.isNone_iff_eq_none, List.all_eq_true, List.mem_range,
        Bool.or_eq_true, beq_iff_eq] at h
      refine ⟨h.1, fun j hj => ?_⟩
      by_cases hlt : j < s.nextTask
      · exact (h.2 j hlt).resolve_left hj
      · exact hidle j (by omega)
  refine ⟨fun id e hf _ r hr => ?_, fun id e j u f hf _ hj hu _ => ?_, fun o ino k ht hk => ?_⟩
  · rw [(htake id hf).1] at hr
    cases hr
  · rw [(htake id hf).2 j hj] at hu
    cases hu
  · subst ht
    exact absurd hk (hwf.apart o.id k ino (beq_iff_eq.mp h))

def exclusiveTest (s : Server) : Action → Bool
  | .run tid _ => (s.tasks tid).all fun t => t.exclusive s tid
  | _ => true

/-- One offer of the empty blob, to its end. -/
theorem pushed_blob_backed_empty :
    let _ := pushPostcard
    let s := sampleServer exclusiveTest (offerEmpty ++ [.run 0 true])
    Server.ReachedExclusive sampleEnv s ∧ ∃ r, s.shared.registry "x" = some r ∧
      r.source = .spooled ∧ ∃ f, s.shared.spool.blobFile "x" = some f ∧
        sampleEnv.bao.hash f = r.manifest.root := by
  let _ := pushPostcard
  have hreach : Server.ReachedExclusive sampleEnv
      (sampleServer exclusiveTest (offerEmpty ++ [.run 0 true])) := by
    refine sample_reached (fun s a hs h => ?_) ⟨Spool.empty, Spool.empty_wf, rfl⟩
      (by decide +kernel)
    have hI := reached_blobs hs
    cases a with
    | run tid ok =>
      intro t ht
      rw [exclusiveTest, ht] at h
      exact Task.exclusive_sound hI.shared.1 hI.fresh h
    | _ => trivial
  have hspooled :
      ((sampleServer exclusiveTest (offerEmpty ++ [.run 0 true])).shared.registry "x").any
      (fun r => decide (r.source = .spooled)) = true := by decide +kernel
  obtain ⟨r, hr, hsrc⟩ := (Option.any_eq_true _ _).mp hspooled
  have hpush := of_decide_eq_true hsrc
  obtain ⟨f, hf, -, hhash⟩ := pushed_blob_backed sampleEnv _ hreach "x" r hr hpush
  exact ⟨hreach, r, hr, hpush, f, hf, hhash⟩

/-- Two offers of the empty blob. The second sets up its spool between the rename and the
registration of the first, and finalizes after it. -/
def loserRemoves : List Action :=
  .offer "x" (some [0]) none :: List.replicate 10 (.run 0 true) ++
    [.offer "x" (some [0]) none, .run 1 true] ++ List.replicate 3 (.run 0 true) ++
    List.replicate 8 (.run 1 true) ++ [.run 0 true] ++ List.replicate 6 (.run 1 true)

/-- The losing finalization removes the file of the blob that is being served. -/
theorem loser_removes_served_blob :
    let _ := pushPostcard
    let s := sampleServer untested loserRemoves
    Server.Reached sampleEnv s ∧ s.shared.spool.blobFile "x" = none ∧
      ∃ r, s.shared.registry "x" = some r ∧ r.source = .spooled := by
  let _ := pushPostcard
  have hspooled : ((sampleServer untested loserRemoves).shared.registry "x").any
      (fun r => decide (r.source = .spooled)) = true := by decide +kernel
  obtain ⟨r, hr, hsrc⟩ := (Option.any_eq_true _ _).mp hspooled
  exact ⟨sample_untested (by decide +kernel), by decide +kernel, r, hr, of_decide_eq_true hsrc⟩

end Zblob

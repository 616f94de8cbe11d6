import Zblob.ServerSteps
import Zblob.Slot

/-!
The server at work on its spool, one id at a time: every step of a handler is, at every id,
a move of that id's slot.
-/

set_option autoImplicit false

namespace Zblob

open ByteFile (Leaf setLen writeAll)
open Runs (Reachable)

def Shared.view (s : Shared) (k : String) : View :=
  ⟨s.pushes.lookup k, (s.spool.part k).map fun n => (n, s.spool.data n), s.spool.load k⟩

def Fin.role : Fin → Option Role
  | .take => none
  | _ => some .finalize

def FinOut.role : FinOut → Option Role
  | .go f => f.role
  | _ => none

def OfferPc.role (o : Offered) : OfferPc → Option Role
  | .load len => some (.load o len)
  | .create => some (.create o)
  | .setLen ino => some (.size o ino)
  | .save => some (.save o)
  | .insert st => some (.insert o st)
  | .finalize f _ => f.role
  | _ => none

def SlicePc.role (r : SliceReq) : SlicePc → Option Role
  | .write snap ls => some (.write snap r.index ls)
  | .mark snap => some (.mark snap r.index)
  | .save snap st _ => some (.flush snap st)
  | .finalize f => f.role
  | _ => none

def CleanupOp.id : CleanupOp → String
  | .part id | .sidecar id => id

def OfferPc.cleans (k : String) : OfferPc → Bool
  | .cleanup todo _ => todo.any fun op => op.id == k
  | _ => false

def Task.role (k : String) : Task → Option Role
  | .offer o pc => if pc.cleans k then some .clean else if o.id = k then pc.role o else none
  | .slice r pc => if r.id = k then pc.role r else none

section View

variable {s s' : Shared} {k id : String}

theorem view_congr (hl : s'.pushes.lookup k = s.pushes.lookup k)
    (hp : s'.spool.part k = s.spool.part k)
    (hd : ∀ n, s.spool.part k = some n → s'.spool.data n = s.spool.data n)
    (hs : s'.spool.sidecar k = s.spool.sidecar k) : s'.view k = s.view k := by
  have hpart : (s'.spool.part k).map (fun n => (n, s'.spool.data n)) =
      (s.spool.part k).map fun n => (n, s.spool.data n) := by
    rw [hp]
    cases hn : s.spool.part k with
    | none => rfl
    | some n => simp [hd n hn]
  simp only [Shared.view, hl, hpart, Spool.load, hs]

theorem view_put (e : PushEntry) :
    (s.put id e).view k = if k = id then { s.view k with entry := some e } else s.view k := by
  simp only [Shared.view, put_lookup, put_spool]
  split <;> rfl

theorem view_erase :
    (s.erase id).view k = if k = id then { s.view k with entry := none } else s.view k := by
  simp only [Shared.view, erase_lookup, erase_spool]
  split <;> rfl

theorem view_evict (env : Env) (s : Shared) (k : String) :
    (evict env s).view k = if k ∈ stale env s then { s.view k with entry := none }
      else s.view k := by
  simp only [Shared.view, evict_lookup, evict_spool]
  split <;> rfl

theorem stale_entry {env : Env} (h : k ∈ stale env s) : ∃ e, (s.view k).entry = some e := by
  have hk := (List.mem_filter.mp h).1
  exact Option.isSome_iff_exists.mp (AList.lookup_isSome.mpr hk)

theorem view_removePart : (s.onSpool (s.spool.removePart id)).view k =
    if k = id then { s.view k with part := none } else s.view k := by
  split
  · rename_i hk
    subst hk
    simp [Shared.view, Spool.removePart, Spool.load]
  · rename_i hk
    exact view_congr rfl (by simp [Spool.removePart, hk]) (fun _ _ => rfl) rfl

theorem view_removeMeta : (s.onSpool (s.spool.removeMeta id)).view k =
    if k = id then { s.view k with saved := none } else s.view k := by
  split
  · rename_i hk
    subst hk
    simp [Shared.view, Spool.removeMeta, Spool.load]
  · rename_i hk
    exact view_congr rfl rfl (fun _ _ => rfl) (by simp [Spool.removeMeta, hk])

theorem view_save (st : ResumeState) : (s.onSpool (s.spool.save id st)).view k =
    if k = id then { s.view k with saved := some st } else s.view k := by
  split
  · rename_i hk
    subst hk
    simp [Shared.view, Spool.save, Spool.load]
  · rename_i hk
    exact view_congr rfl rfl (fun _ _ => rfl) (by simp [Spool.save, hk])

theorem view_rename {sp : Spool} (h : s.spool.renamePart id = some sp) : (s.onSpool sp).view k =
    if k = id then { s.view k with part := none } else s.view k := by
  obtain ⟨ino, -, rfl⟩ := Spool.renamePart_some h
  split
  · rename_i hk
    subst hk
    simp [Shared.view, Spool.load]
  · rename_i hk
    exact view_congr rfl (by simp [hk]) (fun _ _ => rfl) rfl

theorem view_blob {sp : Spool} (h : sp = s.spool ∨ sp = s.spool.removeBlob id) :
    (s.onSpool sp).view k = s.view k := by
  rcases h with rfl | rfl <;> rfl

theorem view_create (hwf : s.spool.Wf) : (s.onSpool (s.spool.createPart id).1).view k =
    if k = id then { s.view k with part := some ((s.spool.createPart id).2, []) }
    else s.view k := by
  have hc := Spool.createPart_created s.spool id
  split
  · rename_i hk
    subst hk
    simp [Shared.view, hc.here, hc.data, Spool.load, hc.sidecar]
  · rename_i hk
    refine view_congr rfl (hc.part k hk) (fun n hn => ?_) (by rw [onSpool_spool, hc.sidecar])
    have hne : n ≠ (s.spool.createPart id).2 := by
      rintro rfl
      exact (hc.own hwf).1 k hk hn
    rw [onSpool_spool, hc.data, Function.update_of_ne hne]

theorem view_setData (hwf : s.spool.Wf) {ino : Nat} (hino : s.spool.part id = some ino)
    (f : Bytes) :
    (s.onSpool (s.spool.setData ino f)).view k =
      if k = id then { s.view k with part := some (ino, f) } else s.view k := by
  split
  · rename_i hk
    subst hk
    simp [Shared.view, Spool.setData, hino, Spool.load]
  · rename_i hk
    refine view_congr rfl rfl (fun n hn => ?_) rfl
    have hne : n ≠ ino := by
      rintro rfl
      exact hk (hwf.part_inj k id n hn hino)
    simp [Spool.setData, hne]

theorem view_part {ino : Nat} {f : Bytes} (h : (s.view k).part = some (ino, f)) :
    s.spool.part k = some ino ∧ s.spool.data ino = f := by
  obtain ⟨n, hn, he⟩ := Option.map_eq_some_iff.mp h
  cases he
  exact ⟨hn, rfl⟩

theorem partFile_view (s : Shared) (k : String) : s.spool.partFile k = (s.view k).file := by
  simp [Shared.view, View.file, Spool.partFile, Function.comp_def]

end View

section Slots

variable {env : Env} {alone : Prop} {s s' : Shared} {id k : String}

theorem slot_at {bao : Bao} {r r' : Option Role}
    (hself : id = k → SlotMove bao alone (s.view k) r (s'.view k) r')
    (hother : id ≠ k → s'.view k = s.view k) :
    SlotMove bao alone (s.view k) (if id = k then r else none) (s'.view k)
      (if id = k then r' else none) := by
  by_cases hk : id = k
  · rw [if_pos hk, if_pos hk]
    exact hself hk
  · rw [if_neg hk, if_neg hk, hother hk]
    exact .same

theorem slot_end {bao : Bao} {r : Option Role}
    (hself : id = k → SlotMove bao alone (s.view k) r (s'.view k) none)
    (hother : id ≠ k → s'.view k = s.view k) :
    SlotMove bao alone (s.view k) (if id = k then r else none) (s'.view k) none := by
  have h := slot_at hself hother
  rwa [ite_self] at h

theorem slot_to {bao : Bao} {r r' : Option Role} {w : View}
    (hv : s'.view k = if k = id then w else s.view k)
    (hself : id = k → SlotMove bao alone (s.view k) r w r') :
    SlotMove bao alone (s.view k) (if id = k then r else none) (s'.view k)
      (if id = k then r' else none) := by
  refine slot_at (fun hk => ?_) fun hk => ?_
  · rw [hv, if_pos hk.symm]
    exact hself hk
  · rw [hv, if_neg (Ne.symm hk)]

theorem slot_to_end {bao : Bao} {r : Option Role} {w : View}
    (hv : s'.view k = if k = id then w else s.view k)
    (hself : id = k → SlotMove bao alone (s.view k) r w none) :
    SlotMove bao alone (s.view k) (if id = k then r else none) (s'.view k) none := by
  have h := slot_to hv hself
  rwa [ite_self] at h

theorem Fin.role_ne_save (f : Fin) (o : Offered) : f.role ≠ some (.save o) := by
  cases f <;> exact nofun

theorem FinMove.slot {f : Fin} {out : FinOut} (h : FinMove env id s f s' out) (k : String) :
    SlotMove env.bao alone (s.view k) (if id = k then f.role else none) (s'.view k)
      (if id = k then out.role else none) := by
  -- a step after which the handler has left, or has only looked
  have leaves : ∀ {x : Option Role}, x = none ∨ x = f.role → s'.view k = s.view k →
      SlotMove env.bao alone (s.view k) f.role (s'.view k) x := by
    rintro x (rfl | rfl) hv
    · rw [hv]
      exact .leave f.role_ne_save
    · rw [hv]
      exact .same
  cases h with
  | gone => exact slot_at (fun _ => .same) fun _ => rfl
  | @take e hin =>
    have hv : ((s.erase id).setFate e.gen .finalizing).view k = _ := view_erase
    refine slot_to hv fun hk => ?_
    subst hk
    exact .take (show (s.view id).entry = some e from hin)
  | rename hsp =>
    exact slot_to (view_rename hsp) fun _ => .dropPart (.inr rfl) (.inl rfl)
  | removeMeta =>
    exact slot_to view_removeMeta fun _ => .dropMeta (.inr rfl) (.inl rfl)
  | renameFailed => exact slot_at (fun _ => leaves (.inl rfl) rfl) fun _ => rfl
  | keepMeta => exact slot_at (fun _ => leaves (.inr rfl) rfl) fun _ => rfl
  | hashFailed => exact slot_at (fun _ => leaves (.inl rfl) rfl) fun _ => rfl
  | mismatch => exact slot_at (fun _ => leaves (.inr rfl) rfl) fun _ => rfl
  | hashed => exact slot_at (fun _ => leaves (.inr rfl) rfl) fun _ => rfl
  | removeBad hsp =>
    exact slot_at (fun _ => leaves (.inl rfl) (view_blob hsp)) fun _ => view_blob hsp
  | dup => exact slot_at (fun _ => leaves (.inr rfl) rfl) fun _ => rfl
  | register => exact slot_at (fun _ => leaves (.inl rfl) rfl) fun _ => rfl
  | removeSame hsp =>
    exact slot_at (fun _ => leaves (.inl rfl) (view_blob hsp)) fun _ => view_blob hsp
  | removeOther hsp =>
    exact slot_at (fun _ => leaves (.inl rfl) (view_blob hsp)) fun _ => view_blob hsp

theorem FinMove.slot_last {f : Fin} {out : FinOut} (h : FinMove env id s f s' out)
    (hout : out.role = none) (k : String) :
    SlotMove env.bao alone (s.view k) (if id = k then f.role else none) (s'.view k) none := by
  have hs : SlotMove env.bao alone (s.view k) (if id = k then f.role else none) (s'.view k)
    (if id = k then out.role else none) := h.slot k
  rwa [hout, ite_self] at hs

def Out.task {π ρ : Type} (resume : π → Task) : Out π ρ → Option Task
  | .go pc => some (resume pc)
  | .done _ => none

theorem SliceMove.slot {r : SliceReq} {pc : SlicePc} {out : Out SlicePc Nat}
    (h : SliceMove env r s pc s' out) (hwf : s.spool.Wf) (k : String) :
    SlotMove env.bao alone (s.view k) ((Task.slice r pc).role k) (s'.view k)
      ((out.task (.slice r)).bind (Task.role k)) := by
  have hentry :
    ∀ {e : PushEntry}, s.pushes.lookup r.id = some e → r.id = k → (s.view k).entry = some e := by
    intro e hin hk
    rw [← hk]
    exact hin
  have not_save : ∀ o, pc.role r ≠ some (.save o) := by
    intro o
    cases pc with
    | finalize f => exact f.role_ne_save o
    | _ => exact nofun
  cases h with
  | refuse => exact slot_end (fun _ => .leave not_save) fun _ => rfl
  | absent => exact slot_at (r := none) (fun _ => .same) fun _ => rfl
  | @denied e hin =>
    exact slot_to_end (view_put _) fun hk => .touch (hentry hin hk)
  | @already e hin hi hset =>
    exact slot_to (view_put _) fun hk => .seen (hentry hin hk) hi hset
  | @verified e ls hin hi hd =>
    exact slot_to (view_put _) fun hk => .verified (hentry hin hk) hi hd
  | served => exact slot_at (r := none) (fun _ => .same) fun _ => rfl
  | @write snap ls sp hsp =>
    obtain ⟨ino, hino, rfl⟩ := Spool.writePart_some hsp
    refine slot_to (view_setData hwf hino _) fun hk => ?_
    subst hk
    exact .write (by simp [Shared.view, hino])
  | gone => exact slot_end (fun _ => .leave nofun) fun _ => rfl
  | @mark snap e hin hmore =>
    exact slot_to (view_put _) fun hk => .mark (hentry hin hk)
  | @flush snap e hin =>
    exact slot_to (view_put _) fun hk => .flush (hentry hin hk)
  | @save snap st n =>
    have hnone : (Task.slice r (if n = 0 then .finalize .take else .reply n)).role k = none := by
      split <;> exact ite_self none
    simp only [Out.task, Option.bind_some, hnone]
    exact slot_to_end (view_save st) fun _ => .saved
  | fin h => exact h.slot k
  | finOk h => exact h.slot k
  | finFailed h => exact h.slot_last rfl k
  | reply => exact slot_end (fun _ => .leave nofun) fun _ => rfl

theorem cleans_cleanup (op : CleanupOp) (todo : List CleanupOp) (next : AfterCleanup) :
    (OfferPc.cleanup (op :: todo) next).cleans k =
      (op.id == k || (OfferPc.cleanup todo next).cleans k) := by
  simp [OfferPc.cleans]

theorem cleans_stale (next : AfterCleanup) :
    (OfferPc.cleanup (cleanupOps (stale env s)) next).cleans k = decide (k ∈ stale env s) := by
  simp only [OfferPc.cleans, cleanupOps, List.any_flatMap, List.any_cons,
    List.any_nil, CleanupOp.id,
    Bool.or_false, Bool.or_self]
  by_cases hk : k ∈ stale env s
  · simp [hk]
  · simp only [hk, decide_false, List.any_eq_false, beq_iff_eq]
    rintro id hid rfl
    exact hk hid

theorem role_cleanup (o : Offered) (todo : List CleanupOp) (next : AfterCleanup) :
    (Task.offer o (.cleanup todo next)).role k =
      if (OfferPc.cleanup todo next).cleans k then some .clean else none := by
  simp [Task.role, OfferPc.role]

theorem role_answerOffer (o : Offered) (a : Answer) :
    (Task.offer o (answerOffer a)).role k = none := by
  unfold answerOffer
  split <;> exact ite_self none

theorem slot_evict {r' : Option Role} (hin : k ∈ stale env s → r' = some .clean ∨ r' = none)
    (hout : k ∉ stale env s → r' = none) :
    SlotMove env.bao alone (s.view k) none ((evict env s).view k) r' := by
  have hv := view_evict env s k
  by_cases hk : k ∈ stale env s
  · obtain ⟨e, he⟩ := stale_entry hk
    rw [hv, if_pos hk]
    exact .evict he (hin hk)
  · rw [hv, if_neg hk, hout hk]
    exact .same

theorem CleanupOp.slot {op : CleanupOp} {r' : Option Role} (hk : op.id = k)
    (hr' : r' = some .clean ∨ r' = none) :
    SlotMove env.bao alone (s.view k) (some .clean) ((s.onSpool (op.apply s.spool)).view k) r' := by
  cases op with
  | part id =>
    have hv : (s.onSpool (s.spool.removePart id)).view k = _ := view_removePart
    rw [if_pos (show k = id from hk.symm)] at hv
    rw [CleanupOp.apply, hv]
    exact .dropPart (.inl rfl) hr'
  | sidecar id =>
    have hv : (s.onSpool (s.spool.removeMeta id)).view k = _ := view_removeMeta
    rw [if_pos (show k = id from hk.symm)] at hv
    rw [CleanupOp.apply, hv]
    exact .dropMeta (.inl rfl) hr'

theorem view_cleanup {op : CleanupOp} (hk : op.id ≠ k) :
    (s.onSpool (op.apply s.spool)).view k = s.view k := by
  cases op with
  | part id => exact view_removePart.trans (if_neg (Ne.symm hk))
  | sidecar id => exact view_removeMeta.trans (if_neg (Ne.symm hk))

theorem role_first (o : Offered) : (Task.offer o .first).role k = none := ite_self none

theorem slot_found {o : Offered} {e : PushEntry} {next : AfterCleanup}
    (hin : (evict env s).pushes.lookup o.id = some e) :
    SlotMove env.bao alone (s.view k) none
      (((evict env s).put o.id (e.touch (evict env s).now)).view k)
      ((Task.offer o (.cleanup (cleanupOps (stale env s)) next)).role k) := by
  rw [view_put, role_cleanup, cleans_stale]
  simp only [decide_eq_true_eq]
  split
  · rename_i hko
    have hlive : k ∉ stale env s := by
      intro hk
      rw [evict_lookup, if_pos (hko ▸ hk)] at hin
      cases hin
    have hv := view_evict env s k
    rw [if_neg hlive] at hv
    rw [if_neg hlive, hv]
    refine .touch ?_
    rw [← hv, hko]
    exact hin
  · exact slot_evict (fun hk => .inl (if_pos hk)) fun hk => if_neg hk

theorem slot_free {o : Offered} {next : AfterCleanup} :
    SlotMove env.bao alone (s.view k) none ((evict env s).view k)
      ((Task.offer o (.cleanup (cleanupOps (stale env s)) next)).role k) := by
  rw [role_cleanup, cleans_stale]
  simp only [decide_eq_true_eq]
  exact slot_evict (fun hk => .inl (if_pos hk)) fun hk => if_neg hk

theorem slot_clean {o : Offered} {op : CleanupOp} {todo : List CleanupOp} {next : AfterCleanup} :
    SlotMove env.bao alone (s.view k) ((Task.offer o (.cleanup (op :: todo) next)).role k)
      ((s.onSpool (op.apply s.spool)).view k) ((Task.offer o (.cleanup todo next)).role k) := by
  simp only [role_cleanup, cleans_cleanup]
  by_cases hk : op.id = k
  · rw [if_pos (by simp [hk])]
    refine CleanupOp.slot hk ?_
    split
    · exact .inl rfl
    · exact .inr rfl
  · rw [view_cleanup hk]
    simp only [beq_eq_false_iff_ne.mpr hk, Bool.false_or]
    exact .same

theorem slot_cleanFailed {o : Offered} {op : CleanupOp} {todo : List CleanupOp}
    {next : AfterCleanup} :
    SlotMove env.bao alone (s.view k) ((Task.offer o (.cleanup (op :: todo) next)).role k)
      (s.view k) ((Task.offer o (.cleanup todo next)).role k) := by
  simp only [role_cleanup, cleans_cleanup]
  by_cases hc : (OfferPc.cleanup todo next).cleans k = true
  · simp only [hc, Bool.or_true, if_true]
    exact .same
  · rw [if_neg hc]
    refine .leave fun o' => ?_
    split <;> exact nofun

theorem slot_refuse {o : Offered} {pc : OfferPc} (hpc : pc ≠ .save) :
    SlotMove env.bao alone (s.view k) ((Task.offer o pc).role k) (s.view k) none := by
  refine .leave fun o' => ?_
  simp only [Task.role]
  split
  · exact nofun
  · split
    · cases pc with
      | finalize f a => exact f.role_ne_save o'
      | save => exact absurd rfl hpc
      | _ => exact nofun
    · exact nofun

/-- The steps of an offer. What it needs of the other handlers is asked for where it enters
the id and where it leaves it with the save undone. -/
theorem OfferMove.slot {o : Offered} {ok : Bool} {pc : OfferPc} {out : Out OfferPc Answer}
    (h : OfferMove env o ok s pc s' out) (hwf : s.spool.Wf) (k : String)
    (hr : ∀ j x, (Task.offer o pc).role j = some x → x.Ok env.bao (s.view j))
    (henter : pc = .probe → o.id = k → alone ∧ (s.view k).entry = none ∧ (s.view k).Trusted env.bao)
    (hsave : pc = .save → ok = false → o.id = k → (s.view k).Trusted env.bao) :
    SlotMove env.bao alone (s.view k) ((Task.offer o pc).role k) (s'.view k)
      ((out.task (.offer o)).bind (Task.role k)) := by
  have hrole : ∀ {x : Role}, pc.cleans o.id = false → pc.role o = some x →
      x.Ok env.bao (s.view o.id) := by
    intro x hc hx
    refine hr o.id x ?_
    simp [Task.role, hc, hx]
  cases h with
  | refuse hpc => exact slot_refuse hpc
  | known => exact slot_at (r := none) (fun _ => .same) fun _ => rfl
  | unknown => exact slot_at (r := none) (fun _ => .same) fun _ => rfl
  | conflict =>
    rw [role_first]
    exact slot_evict (fun _ => .inr rfl) fun _ => rfl
  | found hin hagree =>
    rw [role_first]
    exact slot_found hin
  | free hno hnext =>
    rw [role_first]
    exact slot_free
  | clean => exact slot_clean
  | cleanFailed => exact slot_cleanFailed
  | resumed =>
    simp only [Out.task, Option.bind_some, role_answerOffer]
    exact slot_end (r := none) (fun _ => .same) fun _ => rfl
  | setup => exact slot_at (r := none) (fun _ => .same) fun _ => rfl
  | @probe len hlen =>
    refine slot_at (fun hk => ?_) fun _ => rfl
    obtain ⟨ha, hno, ht⟩ := henter rfl hk
    refine .enter ha hno ht ?_
    subst hk
    refine hlen.imp_right fun h => ?_
    rw [h]
    simp [Shared.view, View.file, Spool.partFile, Function.comp_def]
  | @resume st hst hfits =>
    refine slot_at (fun hk => ?_) fun _ => rfl
    refine .resume ?_ ((ResumeState.matchesManifest_iff o.geometry).mp hfits)
    subst hk
    exact hst
  | restart => exact slot_at (fun _ => .restart) fun _ => rfl
  | create => exact slot_to (view_create hwf) fun _ => .create
  | @setLen ino =>
    obtain ⟨-, f, hp⟩ := hrole rfl rfl
    obtain ⟨hino, rfl⟩ := view_part hp
    refine slot_to (view_setData hwf hino _) fun hk => ?_
    subst hk
    exact .size hp
  | save => exact slot_to (view_save _) fun _ => .save
  | saveFailed hok => exact slot_end (fun hk => .giveUp (hsave rfl hok hk)) fun _ => rfl
  | @join st e hin =>
    simp only [Out.task, Option.bind_some, role_answerOffer]
    refine slot_end (fun hk => ?_) fun _ => rfl
    have hno := (hrole rfl rfl).1
    subst hk
    rw [show (s.view o.id).entry = some e from hin] at hno
    cases hno
  | @insert st hno =>
    simp only [Out.task, Option.bind_some, role_answerOffer]
    exact slot_to_end (view_put _) fun _ => .insert rfl rfl rfl
  | fin h => exact h.slot k
  | finOk h => exact h.slot k
  | finFailed h => exact h.slot_last rfl k
  | reply => exact slot_end (r := none) (fun _ => .same) fun _ => rfl

theorem TaskMove.slot {ok : Bool} {t : Task} {t' : Option Task} {ev : Option Event}
    (h : TaskMove env ok s t s' t' ev) (hwf : s.spool.Wf) (k : String)
    (hr : ∀ j x, t.role j = some x → x.Ok env.bao (s.view j))
    (henter : ∀ o, t = .offer o .probe → o.id = k →
      alone ∧ (s.view k).entry = none ∧ (s.view k).Trusted env.bao)
    (hsave : ∀ o, t = .offer o .save → ok = false → o.id = k → (s.view k).Trusted env.bao) :
    SlotMove env.bao alone (s.view k) (t.role k) (s'.view k) (t'.bind (Task.role k)) := by
  cases h with
  | offer h =>
    exact h.slot hwf k hr (fun hp => henter _ (by rw [hp])) fun hp => hsave _ (by rw [hp])
  | accepted h =>
    exact h.slot hwf k hr (fun hp => henter _ (by rw [hp])) fun hp => hsave _ (by rw [hp])
  | refused h =>
    exact h.slot hwf k hr (fun hp => henter _ (by rw [hp])) fun hp => hsave _ (by rw [hp])
  | slice h => exact h.slot hwf k
  | acked h => exact h.slot hwf k
  | rejected h => exact h.slot hwf k

end Slots

/-- Every entry is served by its part and its sidecar, every handler can rely on its role,
and an offer that sets an id up is alone there. -/
def spoolInv (env : Env) : Pool.Invariant Shared Task String where
  shared s := s.spool.Wf ∧ ∀ k e, (s.view k).entry = some e → (s.view k).Serves env.bao e
  task s t := ∀ k x, t.role k = some x → x.Ok env.bao (s.view k)
  pair t u := ∀ k x y, t.role k = some x → u.role k = some y → x.Beside y
  busy t k := ∃ o, t.role k = some (.save o)
  quiet s k := (s.view k).Trusted env.bao

/-- An offer starts to set up the spool of an id only while the id has no entry and no other
handler is at work there, and the save of a fresh sidecar fails only where the old one claims
nothing of the new part. -/
structure Task.Separate (s : Server) (tid : Nat) (ok : Bool) (t : Task) : Prop where
  setup : ∀ o, t = .offer o .probe → s.shared.pushes.lookup o.id = none ∧
    ∀ j u, j ≠ tid → s.tasks j = some u → u.role o.id = none
  saves : ∀ o st, t = .offer o .save → ok = false → s.shared.spool.load o.id = some st →
    st.totalLen = o.manifest.totalLen → ∀ i, st.isSet i = false

def Server.Separate (s : Server) : Action → Prop
  | .run tid ok => ∀ t, s.tasks tid = some t → t.Separate s tid ok
  | _ => True

section Step

variable {env : Env}

theorem Role.Beside.symm {x y : Role} (h : x.Beside y) : y.Beside x :=
  ⟨h.right, h.left, fun g g' h1 h2 =>
    ⟨((h.snaps g' g h2 h1).1).symm, ((h.snaps g' g h2 h1).2).symm⟩⟩

theorem trusted_unsaved {bao : Bao} {v : View} {o : Offered} (hok : (Role.save o).Ok bao v)
    (hclear : ∀ st, v.saved = some st → st.totalLen = o.manifest.totalLen →
      ∀ i, st.isSet i = false) :
    v.Trusted bao := by
  obtain ⟨-, f, hf, hlen⟩ := hok
  intro st f' m c hst hf' hfits hlen'
  obtain rfl : f = f' := Option.some.inj (hf.symm.trans hf')
  refine holds_none hlen' fun i _ => hclear st hst ?_ i
  rw [hfits.totalLen]
  exact UInt64.toNat_inj.mp (hlen'.symm.trans hlen)

theorem spool_task {s : Server} {tid : Nat} {ok : Bool} {t : Task} {s' : Shared} {t' : Option Task}
    {ev : Option Event} (laws : env.bao.Laws) (hI : (spoolInv env).Holds s)
    (ht : s.tasks tid = some t) (hsep : t.Separate s tid ok)
    (h : TaskMove env ok s.shared t s' t' ev) : (spoolInv env).Holds (s.resume tid s' t') := by
  obtain ⟨hwf, hserves⟩ := hI.shared
  have hr := hI.task tid t ht
  let alone (k : String) : Prop := ∀ j u, j ≠ tid → s.tasks j = some u → u.role k = none
  have hslot : ∀ k, SlotMove env.bao (alone k) (s.shared.view k) (t.role k) (s'.view k)
      (t'.bind (Task.role k)) := by
    intro k
    refine h.slot hwf k hr ?_ ?_
    · rintro o rfl rfl
      obtain ⟨hno, halone⟩ := hsep.setup o rfl
      refine ⟨halone, hno, hI.quiet o.id fun j u hu => ?_⟩
      rintro ⟨o', ho'⟩
      by_cases hj : j = tid
      · subst hj
        obtain rfl := Option.some.inj (ht.symm.trans hu)
        rw [show (Task.offer o .probe).role o.id = none from ite_self none] at ho'
        cases ho'
      · rw [halone j u hj hu] at ho'
        cases ho'
    · rintro o rfl hok rfl
      refine trusted_unsaved (hr o.id (.save o) ?_) fun st hst => hsep.saves o st rfl hok hst
      simp [Task.role, OfferPc.cleans, OfferPc.role]
  have hother : ∀ j u, j ≠ tid → s.tasks j = some u → ∀ k y, u.role k = some y →
      y.Ok env.bao (s'.view k) ∧ ∀ x, t'.bind (Task.role k) = some x → x.Beside y := by
    intro j u hj hu k y hy
    refine (hslot k).other laws (hr k) (hI.task j u hu k y hy) (fun x hx => ?_) fun halone => ?_
    · exact hI.pair tid j t u (Ne.symm hj) ht hu k x y hx hy
    · rw [halone j u hj hu] at hy
      cases hy
  refine hI.resume ht ⟨h.effect.wf hwf, fun k => (hslot k).serves laws (hserves k) (hr k)⟩
    ?_ ?_ ?_ ?_
  · rintro v rfl k x hx
    exact (hslot k).self laws (hserves k) (hr k) x hx
  · intro j u hj hu k y hy
    exact (hother j u hj hu k y hy).1
  · rintro j u hj hu v rfl
    have hb : ∀ k x y, v.role k = some x → u.role k = some y → x.Beside y :=
      fun k x y hx hy => (hother j u hj hu k y hy).2 x hx
    exact ⟨hb, fun k x y hx hy => (hb k y x hy hx).symm⟩
  · intro k hno _ hq
    refine (hslot k).trusted laws (hr k) hq fun o ho => ?_
    obtain ⟨v, rfl, hv⟩ := Option.bind_eq_some_iff.mp ho
    exact hno v rfl ⟨o, hv⟩

theorem spool_spawn {s : Server} {t : Task} (hI : (spoolInv env).Holds s)
    (hnone : ∀ k, t.role k = none) : (spoolInv env).Holds (s.spawn t) := by
  refine hI.spawn ?_ fun u => ⟨?_, ?_⟩
  · intro k x hx
    rw [hnone] at hx
    cases hx
  · intro k x y hx
    rw [hnone] at hx
    cases hx
  · intro k x y _ hy
    rw [hnone] at hy
    cases hy

theorem spool_step {s t : Server} {a : Action} {ev : Option Event} (laws : env.bao.Laws)
    (hI : (spoolInv env).Holds s) (hsep : s.Separate a) (h : ServerMove env s a t ev) :
    (spoolInv env).Holds t := by
  have quiet : ∀ s' : Shared, s'.spool = s.shared.spool → s'.pushes = s.shared.pushes →
      (spoolInv env).Holds (s.onShared s') := by
    intro s' hsp hp
    have hv : ∀ k, s'.view k = s.shared.view k := fun k => by simp only [Shared.view, hsp, hp]
    refine hI.onShared ⟨by rw [hsp]; exact hI.shared.1, fun k => ?_⟩
      (fun i u hu k => ?_) fun k hq => ?_
    · rw [hv]
      exact hI.shared.2 k
    · rw [hv]
      exact hI.task i u hu k
    · change (s'.view k).Trusted env.bao
      rw [hv]
      exact hq
  cases h with
  | tick => exact quiet _ rfl rfl
  | @offer keyId payload token o hid =>
    exact spool_spawn (quiet (s.shared.noteOffer keyId o.manifest) rfl rfl) fun k => ite_self none
  | refused => exact hI
  | slice hpush => exact spool_spawn hI fun k => ite_self none
  | run hu h => exact spool_task laws hI hu (hsep _ hu) h
  | register h =>
    cases h with
    | unchanged => exact hI
    | added => exact quiet _ rfl rfl
  | unregister => exact quiet _ rfl rfl

end Step

section Runs

variable [Postcard Manifest] {env : Env}

/-- The servers that runs with separate set-ups reach, over a spool directory without hard
links whose sidecars claim nothing that is not there. -/
abbrev Server.ReachedSeparate (env : Env) : Server → Prop :=
  Reachable (fun s => ∃ spool : Spool, spool.Wf ∧ s = Server.start spool ∧
      ∀ k, (s.shared.view k).Trusted env.bao) (Server.Runs env Server.Separate)

theorem reached_spool (laws : env.bao.Laws) {s : Server} (h : Server.ReachedSeparate env s) :
    (spoolInv env).Holds s := by
  apply Reachable.invariant _ _ h
  · rintro s ⟨spool, hwf, rfl, ht⟩
    refine Pool.Invariant.Holds.empty ⟨hwf, fun k e he => ?_⟩ ht
    simp [Shared.view] at he
  · rintro s a t hI ⟨hsep, ev, hstep⟩
    exact spool_step laws hI hsep (step_move hstep)

/-- The part of a push is there with the length of its blob, and every chunk it has marked
reads as verified bytes. -/
def SpoolAgrees (env : Env) (s : Shared) (id : String) (e : PushEntry) : Prop :=
  ∃ f, s.spool.partFile id = some f ∧ f.length = e.manifest.totalLen.toNat ∧
    ∀ i, e.state.isSet i = true → ChunkVerified env.bao e.manifest e.chunks i (chunkOf e.chunks i f)

/-- While no offer sets up an id that something else is using, the part of every push in
progress agrees with its bitfield. A slice about to be marked was verified against the entry
it is marked in, and the count that remains does not underflow. -/
theorem spool_agrees (env : Env) (laws : env.bao.Laws) (s : Server)
    (h : Server.ReachedSeparate env s) :
    (∀ id e, s.shared.pushes.lookup id = some e → SpoolAgrees env s.shared id e) ∧
    ∀ tid r snap e, s.tasks tid = some (.slice r (.mark snap)) →
      s.shared.pushes.lookup r.id = some e →
        e.manifest = snap.manifest ∧ e.chunks = snap.chunks ∧
        (∃ f, s.shared.spool.partFile r.id = some f ∧
          ChunkVerified env.bao e.manifest e.chunks r.index (chunkOf e.chunks r.index f)) ∧
        (e.mark r.index).state.received ≤ snap.chunks.count := by
  have hI := reached_spool laws h
  refine ⟨fun id e he => ?_, fun tid r snap e ht he => ?_⟩
  · obtain ⟨hfits, ⟨f, hf, hb⟩, -⟩ := hI.shared.2 id e he
    exact ⟨f, by rw [partFile_view]; exact hf, hb.1, fun i hi => hb.2 i (hfits.isSet_lt hi) hi⟩
  · obtain ⟨hof, -, hver⟩ :=
      hI.task tid _ ht r.id (.mark snap r.index) (by simp [Task.role, SlicePc.role])
    obtain ⟨hfits, ⟨f, hf, -⟩, -⟩ := hI.shared.2 r.id e he
    obtain ⟨hm, hc⟩ := hof.entry e he
    refine ⟨hm, hc, ⟨f, by rw [partFile_view]; exact hf, ?_⟩, ?_⟩
    · rw [hm, hc]
      exact hver f hf
    · rw [← hc]
      exact (mark_fits hfits).received_le

end Runs

def Task.separate (s : Server) (tid : Nat) (ok : Bool) : Task → Bool
  | .offer o .probe => (s.shared.pushes.lookup o.id).isNone &&
    (List.range s.nextTask).all fun j => j == tid || (s.tasks j).all fun u => (u.role o.id).isNone
  | .offer _ .save => ok
  | _ => true

theorem Task.separate_sound {s : Server} {tid : Nat} {ok : Bool} {t : Task} (hidle : s.Idle)
    (h : t.separate s tid ok = true) : t.Separate s tid ok where
  setup o ht := by
    subst ht
    simp only [Task.separate, Bool.and_eq_true, Option.isNone_iff_eq_none, List.all_eq_true,
      List.mem_range, Bool.or_eq_true, beq_iff_eq] at h
    refine ⟨h.1, fun j u hj hu => ?_⟩
    by_cases hlt : j < s.nextTask
    · have hall := (h.2 j hlt).resolve_left hj
      rw [hu] at hall
      exact Option.isNone_iff_eq_none.mp hall
    · rw [hidle j (by omega)] at hu
      cases hu
  saves o st ht hok := by
    subst ht
    rw [Task.separate, hok] at h
    cases h

def separateTest (s : Server) : Action → Bool
  | .run tid ok => (s.tasks tid).all fun t => t.separate s tid ok
  | _ => true

def pushAbc : List Action :=
  .offer "x" (some [1]) none :: List.replicate 9 (.run 0 true) ++
    .slice sliceAbc :: List.replicate 3 (.run 1 true)

/-- The chunk is marked and the part holds it. -/
theorem spool_agrees_abc :
    let _ := pushPostcard
    let s := sampleServer separateTest pushAbc
    Server.ReachedSeparate sampleEnv s ∧ ∃ e, s.shared.pushes.lookup "x" = some e ∧
      e.state.isSet 0 = true ∧ s.shared.spool.partFile "x" = some [97, 98, 99] ∧
      SpoolAgrees sampleEnv s.shared "x" e := by
  let _ := pushPostcard
  have hreach : Server.ReachedSeparate sampleEnv (sampleServer separateTest pushAbc) := by
    refine sample_reached (fun s a hs h => ?_) ⟨Spool.empty, Spool.empty_wf, rfl, nofun⟩
      (by decide +kernel)
    cases a with
    | run tid ok =>
      intro t ht
      rw [separateTest, ht] at h
      exact Task.separate_sound (reached_spool shortBao_laws hs).fresh h
    | _ => trivial
  have hentry : ((sampleServer separateTest pushAbc).shared.pushes.lookup "x").any
      (fun e => e.state.isSet 0) = true := by decide +kernel
  obtain ⟨e, he, hset⟩ := (Option.any_eq_true _ _).mp hentry
  exact ⟨hreach, e, he, hset, by decide +kernel,
    (spool_agrees sampleEnv shortBao_laws _ hreach).1 "x" e he⟩

/-- Two offers of `abc` that both find nothing to resume from. The first inserts its entry
and receives its slice; then the second creates and sizes the part. -/
def setupTwice : List Action :=
  [.offer "x" (some [1]) none, .offer "x" (some [1]) none] ++ List.replicate 5 (.run 0 true) ++
    List.replicate 5 (.run 1 true) ++ List.replicate 4 (.run 0 true) ++
    .slice sliceAbc :: List.replicate 3 (.run 2 true) ++ List.replicate 2 (.run 1 true)

/-- The marked chunk of the first push now reads as zeros, and nothing is being finalized. -/
theorem second_setup_erases_chunk :
    let _ := pushPostcard
    let s := sampleServer untested setupTwice
    Server.Reached sampleEnv s ∧ (∀ tid t, s.tasks tid = some t → t.fin = none) ∧
      ∃ e, s.shared.pushes.lookup "x" = some e ∧ ¬ SpoolAgrees sampleEnv s.shared "x" e := by
  let _ := pushPostcard
  have hreach : Server.Reached sampleEnv (sampleServer untested setupTwice) :=
    sample_untested (by decide +kernel)
  have hfins : ((List.range (sampleServer untested setupTwice).nextTask).all fun j =>
      ((sampleServer untested setupTwice).tasks j).all fun t => t.fin.isNone) = true := by
    decide +kernel
  have hentry : ((sampleServer untested setupTwice).shared.pushes.lookup "x").any
      (fun e =>
        e.state.isSet 0 && decide (e.manifest = sampleManifest 3 (shortHash [97, 98, 99]))) =
        true := by decide +kernel
  obtain ⟨e, he, hcond⟩ := (Option.any_eq_true _ _).mp hentry
  rw [Bool.and_eq_true] at hcond
  refine ⟨hreach, fun tid t ht => ?_, e, he, ?_⟩
  · by_cases hlt : tid < (sampleServer untested setupTwice).nextTask
    · have hall := List.all_eq_true.mp hfins tid (List.mem_range.mpr hlt)
      rw [ht] at hall
      exact Option.isNone_iff_eq_none.mp hall
    · rw [reached_idle hreach tid (by omega)] at ht
      cases ht
  · rintro ⟨f, hf, -, hver⟩
    obtain rfl : [0, 0, 0] = f := Option.some.inj (Eq.trans (by decide +kernel) hf)
    let m := sampleManifest 3 (shortHash [97, 98, 99])
    let c : TransferChunks := ⟨65536, 3, by decide, by decide⟩
    have hchunks : m.chunks = .ok c := TransferChunks.new_self c
    have hm : e.manifest = m := of_decide_eq_true hcond.2
    have hc : e.chunks = c := by
      have hgeo := e.geometry
      rw [hm, hchunks] at hgeo
      exact (Except.ok.inj hgeo).symm
    have hv := hver 0 hcond.1
    rw [hm, hc] at hv
    exact absurd (oneGroup_verified hchunks (by decide) hv) (by decide)

end Zblob

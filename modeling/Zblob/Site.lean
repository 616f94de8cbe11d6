import Zblob.Backing
import Zblob.Completion
import Zblob.Spooling

/-!
All that the server has at one id. Handlers that have nothing to do with the id leave it alone,
as long as they do not find its push idle.
-/

set_option autoImplicit false

namespace Zblob

open ByteFile (Leaf)

structure Site where
  view : View
  served : Option Registered
  blob : Option Bytes

def Shared.site (s : Shared) (k : String) : Site := ⟨s.view k, s.registry k, s.spool.blobFile k⟩

/-- A handler of another id, which has nothing of this one left to remove. -/
structure Task.Foreign (k : String) (t : Task) : Prop where
  id : t.id ≠ k
  role : t.role k = none

def Shared.Fresh (env : Env) (s : Shared) (k : String) : Prop :=
  ∀ e, s.pushes.lookup k = some e → s.now - e.lastActivity ≤ env.push.idleTimeout

section Frame

variable {env : Env} {s s' : Shared} {k : String}

theorem Shared.Fresh.not_stale (h : s.Fresh env k) : k ∉ stale env s := by
  intro hin
  obtain ⟨-, hstale⟩ := List.mem_filter.mp hin
  cases he : s.pushes.lookup k with
  | none => simp [he] at hstale
  | some e =>
    have hle := h e he
    simp only [he, decide_eq_true_eq] at hstale
    omega

theorem blobFile_congr {sp sp' : Spool} (hb : sp'.blob k = sp.blob k)
    (hd : ∀ n, sp.blob k = some n → sp'.data n = sp.data n) : sp'.blobFile k = sp.blobFile k := by
  unfold Spool.blobFile
  rw [hb]
  cases hn : sp.blob k with
  | none => rfl
  | some n => simp [hd n hn]

theorem site_eq {view : View} {served : Option Registered} {blob : Option Bytes}
    (hview : s.view k = view)
    (hreg : s.registry k = served) (hblob : s.spool.blobFile k = blob) :
    s.site k = ⟨view, served, blob⟩ := by
  rw [Shared.site, hview, hreg, hblob]

theorem FinMove.elsewhere {id : String} {f : Fin} {out : FinOut}
    (h : FinMove env id s f s' out) (hid : id ≠ k)
    (hfrom : f.From s id) : s'.site k = s.site k := by
  have hk : k ≠ id := Ne.symm hid
  obtain ⟨hdata, hblobs, -⟩ := h.blobs
  have hblob : s'.spool.blobFile k = s.spool.blobFile k :=
    blobFile_congr (hblobs k hk) fun n _ => by rw [hdata]
  cases h with
  | take => exact site_eq (view_erase.trans (if_neg hk)) rfl hblob
  | rename hsp => exact site_eq ((view_rename hsp).trans (if_neg hk)) rfl hblob
  | removeMeta => exact site_eq (view_removeMeta.trans (if_neg hk)) rfl hblob
  | removeBad hsp => exact site_eq (view_blob hsp) rfl hblob
  | removeSame hsp => exact site_eq (view_blob hsp) rfl hblob
  | removeOther hsp => exact site_eq (view_blob hsp) rfl hblob
  | @register e root len hno =>
    have hown : k ≠ e.manifest.id.str := by
      rw [hfrom.1.1]
      exact hk
    exact site_eq rfl (Function.update_of_ne hown _ _) hblob
  | _ => rfl

theorem SpoolOp.elsewhere {t : Task} {sp : Spool} (h : SpoolOp s.spool t sp) (hwf : s.spool.Wf)
    (ht : t.Foreign k)
    (hsize : ∀ o ino, t = .offer o (.setLen ino) → s.spool.part o.id = some ino) :
    (s.onSpool sp).site k = s.site k := by
  have hother := ht.id
  have hidle := ht.role
  obtain ⟨hblob, hdata⟩ :=
    h.blobs hwf fun o ino j ho hj => absurd hj (hwf.apart o.id j ino (hsize o ino ho))
  refine site_eq ?_ rfl (blobFile_congr (congrFun hblob k) (hdata k))
  cases h with
  | @clean o op todo next =>
    refine view_cleanup fun hop => ?_
    simp [Task.role, OfferPc.cleans, hop] at hidle
  | create => exact (view_create hwf).trans (if_neg (Ne.symm hother))
  | @setLen o ino => exact (view_setData hwf (hsize o ino rfl) _).trans (if_neg (Ne.symm hother))
  | save => exact (view_save _).trans (if_neg (Ne.symm hother))
  | write hsp =>
    obtain ⟨ino, hino, rfl⟩ := Spool.writePart_some hsp
    exact (view_setData hwf hino _).trans (if_neg (Ne.symm hother))
  | flush => exact (view_save _).trans (if_neg (Ne.symm hother))

theorem Effect.elsewhere {t : Task} (h : Effect env s t s') (hwf : s.spool.Wf) (ht : t.Foreign k)
    (hfresh : s.Fresh env k) (hfrom : ∀ id f, t.fin = some (id, f) → f.From s id)
    (hsize : ∀ o ino, t = .offer o (.setLen ino) → s.spool.part o.id = some ino) :
    s'.site k = s.site k := by
  have hother := ht.id
  have hevict : (evict env s).view k = s.view k :=
    (view_evict env s k).trans (if_neg hfresh.not_stale)
  have hput : ∀ (s : Shared) (e : PushEntry), (s.put t.id e).site k = s.site k := fun s e =>
    site_eq ((view_put e).trans (if_neg (Ne.symm hother))) rfl rfl
  cases h with
  | evicted => exact site_eq hevict (by rw [evict_registry]) (by rw [evict_spool])
  | @found o e hin =>
    rw [show (evict env s).put o.id = (evict env s).put (Task.offer o .first).id from rfl, hput]
    exact site_eq hevict (by rw [evict_registry]) (by rw [evict_spool])
  | touched => exact hput _ _
  | marked => exact hput _ _
  | opened => exact hput _ _
  | spooled h => exact h.elsewhere hwf ht hsize
  | fin hfin h =>
    have hid : _ = t.id := Task.fin_id hfin
    exact h.elsewhere (hid ▸ hother) (hfrom _ _ hfin)
  | _ => rfl

theorem evict_now (s : Shared) : (evict env s).now = s.now := by
  have hdrop : ∀ (s : Shared) (id : String), (s.drop id).now = s.now := by
    intro s id
    unfold Shared.drop
    split <;> rfl
  unfold evict
  induction stale env s generalizing s with
  | nil => rfl
  | cons id ids ih => rw [List.foldl_cons, ih, hdrop]

theorem Effect.now {t : Task} (h : Effect env s t s') : s'.now = s.now := by
  cases h with
  | evicted => exact evict_now s
  | found => exact evict_now s
  | fin _ h => cases h <;> rfl
  | _ => rfl

theorem Effect.activity {t : Task} (h : Effect env s t s') {e' : PushEntry}
    (he : s'.pushes.lookup k = some e') :
    e'.lastActivity = s.now ∨ ∃ e, s.pushes.lookup k = some e ∧
      e'.lastActivity = e.lastActivity := by
  have kept : ∀ {s₁ : Shared}, (∀ e, s₁.pushes.lookup k = some e → s.pushes.lookup k = some e) →
      s₁.pushes.lookup k = some e' → ∃ e, s.pushes.lookup k = some e ∧
      e'.lastActivity = e.lastActivity :=
    fun hsub h => ⟨e', hsub e' h, rfl⟩
  have put : ∀ {s₁ : Shared} {id : String} {e : PushEntry},
      (s₁.put id e).pushes.lookup k = some e' →
      k = id ∧ e' = e ∨ s₁.pushes.lookup k = some e' := by
    intro s₁ id e h
    rw [put_lookup] at h
    split at h
    · rename_i hk
      exact .inl ⟨hk, (Option.some.inj h).symm⟩
    · exact .inr h
  cases h with
  | evicted => exact .inr (kept (evict_sub s k) he)
  | found hin =>
    rcases put he with ⟨-, rfl⟩ | he
    · exact .inl (evict_now s)
    · exact .inr (kept (evict_sub s k) he)
  | touched hin =>
    rcases put he with ⟨-, rfl⟩ | he
    · exact .inl rfl
    · exact .inr ⟨e', he, rfl⟩
  | marked hin heq =>
    rcases put he with ⟨rfl, rfl⟩ | he
    · rcases heq with rfl | rfl <;> exact .inr ⟨_, hin, rfl⟩
    · exact .inr ⟨e', he, rfl⟩
  | opened hno =>
    rw [open_pushes] at he
    rcases put he with ⟨-, rfl⟩ | he
    · exact .inl rfl
    · exact .inr ⟨e', he, rfl⟩
  | fin ht h => exact .inr (kept (h.entries_sub k) he)
  | _ => exact .inr ⟨e', he, rfl⟩

theorem Effect.fresh {t : Task} (h : Effect env s t s') (hfresh : s.Fresh env k) :
    s'.Fresh env k := by
  intro e' he
  rw [h.now]
  rcases h.activity he with hnow | ⟨e, hin, hsame⟩
  · omega
  · rw [hsame]
    exact hfresh e hin

theorem foreign_offer {o : Offered} {pc : OfferPc} :
    (Task.offer o pc).Foreign k ↔ o.id ≠ k ∧ pc.cleans k = false := by
  constructor
  · rintro ⟨hid, hrole⟩
    refine ⟨hid, ?_⟩
    cases hc : pc.cleans k with
    | false => rfl
    | true => simp [Task.role, hc] at hrole
  · rintro ⟨hid, hc⟩
    exact ⟨hid, by simp [Task.role, hc, hid]⟩

theorem foreign_slice {r : SliceReq} {pc : SlicePc} (h : r.id ≠ k) : (Task.slice r pc).Foreign k :=
  ⟨h, if_neg h⟩

theorem TaskMove.foreign {ok : Bool} {t t' : Task} {ev : Option Event}
    (h : TaskMove env ok s t s' (some t') ev)
    (ht : t.Foreign k) (hfresh : s.Fresh env k) : t'.Foreign k := by
  cases h with
  | slice h => exact foreign_slice ht.id
  | @offer _ o pc pc' h =>
    obtain ⟨hid, hc⟩ := foreign_offer.mp ht
    refine foreign_offer.mpr ⟨hid, ?_⟩
    have answered : ∀ a, (answerOffer a).cleans k = false := by
      intro a
      unfold answerOffer
      split <;> rfl
    cases h with
    | found => rw [cleans_stale, decide_eq_false hfresh.not_stale]
    | free => rw [cleans_stale, decide_eq_false hfresh.not_stale]
    | clean =>
      rw [cleans_cleanup, Bool.or_eq_false_iff] at hc
      exact hc.2
    | cleanFailed =>
      rw [cleans_cleanup, Bool.or_eq_false_iff] at hc
      exact hc.2
    | resumed => exact answered _
    | join => exact answered _
    | insert => exact answered _
    | _ => rfl

end Frame

end Zblob

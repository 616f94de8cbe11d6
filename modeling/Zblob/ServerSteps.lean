import Zblob.Server
import Zblob.Lib.Runs

/-!
What one step of a handler can do: the code of each handler, inverted once into a relation
with one constructor per way a step can go. Every invariant of the server is proved by
cases over these relations and never from the handlers' code.
-/

set_option autoImplicit false

namespace Zblob

open ByteFile (Leaf)
open Runs (Reachable)

section Fields

variable (s : Shared) (id k : String)

@[simp] theorem setFate_registry (g : Nat) (f : Fate) : (s.setFate g f).registry = s.registry := rfl
@[simp] theorem setFate_pushes (g : Nat) (f : Fate) : (s.setFate g f).pushes = s.pushes := rfl
@[simp] theorem setFate_spool (g : Nat) (f : Fate) : (s.setFate g f).spool = s.spool := rfl
@[simp] theorem setFate_offered (g : Nat) (f : Fate) :
    (s.setFate g f).history.offered = s.history.offered := rfl
@[simp] theorem serve_pushes (r : Registered) : (s.serve id r).pushes = s.pushes := rfl
@[simp] theorem serve_spool (r : Registered) : (s.serve id r).spool = s.spool := rfl
@[simp] theorem serve_history (r : Registered) : (s.serve id r).history = s.history := rfl
@[simp] theorem unserve_pushes : (s.unserve id).pushes = s.pushes := rfl
@[simp] theorem unserve_spool : (s.unserve id).spool = s.spool := rfl
@[simp] theorem unserve_history : (s.unserve id).history = s.history := rfl
@[simp] theorem put_registry (e : PushEntry) : (s.put id e).registry = s.registry := rfl
@[simp] theorem put_spool (e : PushEntry) : (s.put id e).spool = s.spool := rfl
@[simp] theorem put_history (e : PushEntry) : (s.put id e).history = s.history := rfl
@[simp] theorem erase_registry : (s.erase id).registry = s.registry := rfl
@[simp] theorem erase_spool : (s.erase id).spool = s.spool := rfl
@[simp] theorem erase_history : (s.erase id).history = s.history := rfl
@[simp] theorem onSpool_registry (sp : Spool) : (s.onSpool sp).registry = s.registry := rfl
@[simp] theorem onSpool_pushes (sp : Spool) : (s.onSpool sp).pushes = s.pushes := rfl
@[simp] theorem onSpool_spool (sp : Spool) : (s.onSpool sp).spool = sp := rfl
@[simp] theorem onSpool_history (sp : Spool) : (s.onSpool sp).history = s.history := rfl
@[simp] theorem open_registry (e : PushEntry) : (s.open id e).registry = s.registry := rfl
@[simp] theorem open_pushes (e : PushEntry) : (s.open id e).pushes = (s.put id e).pushes := rfl
@[simp] theorem open_spool (e : PushEntry) : (s.open id e).spool = s.spool := rfl
@[simp] theorem open_offered (e : PushEntry) :
    (s.open id e).history.offered = s.history.offered := rfl
@[simp] theorem noteAccepted_registry (g : Option Nat) (m : Manifest) :
    (s.noteAccepted g m).registry = s.registry := rfl
@[simp] theorem noteAccepted_pushes (g : Option Nat) (m : Manifest) :
    (s.noteAccepted g m).pushes = s.pushes := rfl
@[simp] theorem noteAccepted_spool (g : Option Nat) (m : Manifest) :
    (s.noteAccepted g m).spool = s.spool := rfl
@[simp] theorem noteAccepted_offered (g : Option Nat) (m : Manifest) :
    (s.noteAccepted g m).history.offered = s.history.offered := rfl
@[simp] theorem noteOffer_registry (m : Manifest) : (s.noteOffer id m).registry = s.registry := rfl
@[simp] theorem noteOffer_pushes (m : Manifest) : (s.noteOffer id m).pushes = s.pushes := rfl
@[simp] theorem noteOffer_spool (m : Manifest) : (s.noteOffer id m).spool = s.spool := rfl

theorem put_lookup (e : PushEntry) :
    (s.put id e).pushes.lookup k = if k = id then some e else s.pushes.lookup k := by
  by_cases hk : k = id
  · subst hk
    simp [Shared.put]
  · simp [Shared.put, hk, AList.lookup_insert_ne hk]

theorem erase_lookup :
    (s.erase id).pushes.lookup k = if k = id then none else s.pushes.lookup k := by
  by_cases hk : k = id
  · subst hk
    simp [Shared.erase]
  · simp [Shared.erase, hk, AList.lookup_erase_ne hk]

end Fields

section Evict

variable {env : Env}

theorem drop_frame (s : Shared) (id : String) :
    (s.drop id).registry = s.registry ∧ (s.drop id).spool = s.spool ∧
      (s.drop id).history = { s.history with fate := (s.drop id).history.fate } := by
  unfold Shared.drop
  split <;> exact ⟨rfl, rfl, rfl⟩

theorem drop_lookup (s : Shared) (id k : String) :
    (s.drop id).pushes.lookup k = if k = id then none else s.pushes.lookup k := by
  unfold Shared.drop
  split
  · simp [erase_lookup]
  · rename_i hnone
    by_cases hk : k = id
    · subst hk
      simp [hnone]
    · simp [hk]

theorem foldl_drop_frame (ids : List String) (s : Shared) :
    (ids.foldl Shared.drop s).registry = s.registry ∧ (ids.foldl Shared.drop s).spool = s.spool ∧
      (ids.foldl Shared.drop s).history =
        { s.history with fate := (ids.foldl Shared.drop s).history.fate } := by
  induction ids generalizing s with
  | nil => exact ⟨rfl, rfl, rfl⟩
  | cons id ids ih =>
    obtain ⟨h1, h2, h3⟩ := drop_frame s id
    obtain ⟨h4, h5, h6⟩ := ih (s.drop id)
    refine ⟨h4.trans h1, h5.trans h2, ?_⟩
    rw [h3] at h6
    exact h6

theorem foldl_drop_lookup (ids : List String) (s : Shared) (k : String) :
    (ids.foldl Shared.drop s).pushes.lookup k = if k ∈ ids then none else s.pushes.lookup k := by
  induction ids generalizing s with
  | nil => simp
  | cons id ids ih =>
    rw [List.foldl_cons, ih, drop_lookup]
    by_cases h1 : k ∈ ids
    · simp [h1]
    · by_cases h2 : k = id
      · simp [h2]
      · simp [h1, h2]

@[simp] theorem evict_registry (s : Shared) : (evict env s).registry = s.registry :=
  (foldl_drop_frame _ s).1
@[simp] theorem evict_spool (s : Shared) : (evict env s).spool = s.spool :=
  (foldl_drop_frame _ s).2.1
theorem evict_history (s : Shared) :
    (evict env s).history = { s.history with fate := (evict env s).history.fate } :=
  (foldl_drop_frame _ s).2.2

theorem evict_lookup (s : Shared) (k : String) :
    (evict env s).pushes.lookup k = if k ∈ stale env s then none else s.pushes.lookup k :=
  foldl_drop_lookup _ s k

end Evict

section Moves

variable (env : Env)

inductive FinMove (id : String) : Shared → Fin → Shared → FinOut → Prop where
  | gone {s : Shared} (hno : s.pushes.lookup id = none) : FinMove id s .take s .ok
  | take {s : Shared} {e : PushEntry} (hin : s.pushes.lookup id = some e) :
    FinMove id s .take ((s.erase id).setFate e.gen .finalizing) (.go (.rename e))
  | rename {s : Shared} {e : PushEntry} {sp : Spool} (hsp : s.spool.renamePart id = some sp) :
    FinMove id s (.rename e) (s.onSpool sp) (.go (.removeMeta e))
  | renameFailed {s : Shared} {e : PushEntry} :
    FinMove id s (.rename e) (s.setFate e.gen .lost) (.failed .io)
  | removeMeta {s : Shared} {e : PushEntry} :
    FinMove id s (.removeMeta e) (s.onSpool (s.spool.removeMeta id)) (.go (.hash e))
  | keepMeta {s : Shared} {e : PushEntry} : FinMove id s (.removeMeta e) s (.go (.hash e))
  | hashFailed {s : Shared} {e : PushEntry} :
    FinMove id s (.hash e) (s.setFate e.gen .lost) (.failed .io)
  | mismatch {s : Shared} {e : PushEntry} {actual : Hash} :
    FinMove id s (.hash e) s (.go (.removeBad e actual))
  | hashed {s : Shared} {e : PushEntry} {content : Bytes} (hb : s.spool.blobFile id = some content)
      (hroot : env.bao.hash content = e.manifest.root)
      (hlen : content.length = e.manifest.totalLen.toNat) :
    FinMove id s (.hash e) s (.go (.register e (env.bao.hash content) content.length))
  | removeBad {s : Shared} {e : PushEntry} {actual : Hash} {sp : Spool}
      (hsp : sp = s.spool ∨ sp = s.spool.removeBlob id) :
    FinMove id s (.removeBad e actual) ((s.onSpool sp).setFate e.gen .lost)
      (.failed (.rootMismatch e.manifest.root actual))
  | dup {s : Shared} {e : PushEntry} {root : Hash} {len : Nat} {existing : Registered}
      (hin : s.registry id = some existing) :
    FinMove id s (.register e root len) s
      (.go (.removeDup e (existing.manifest.root = e.manifest.root)))
  | register {s : Shared} {e : PushEntry} {root : Hash} {len : Nat} (hno : s.registry id = none) :
    FinMove id s (.register e root len)
      ((s.serve e.manifest.id.str ⟨e.manifest, e.chunks, .spooled, root, len⟩).setFate
        e.gen .served)
      .ok
  | removeSame {s : Shared} {e : PushEntry} {sp : Spool}
      (hsp : sp = s.spool ∨ sp = s.spool.removeBlob id) :
    FinMove id s (.removeDup e true) ((s.onSpool sp).setFate e.gen .served) .ok
  | removeOther {s : Shared} {e : PushEntry} {sp : Spool} {err : BlobError}
      (hsp : sp = s.spool ∨ sp = s.spool.removeBlob id) :
    FinMove id s (.removeDup e false) ((s.onSpool sp).setFate e.gen .lost) (.failed err)

theorem finStep_move (s : Shared) (ok : Bool) (id : String) (f : Fin) :
    FinMove env id s f (finStep env s ok id f).1 (finStep env s ok id f).2 := by
  -- a removal that may be skipped
  have hkeep : ∀ sp : Spool, (if ok then s.onSpool sp else s) =
      s.onSpool (if ok then sp else s.spool) := by
    intro sp
    cases ok <;> rfl
  have hsp : ∀ sp : Spool, (if ok then sp else s.spool) = s.spool ∨
      (if ok then sp else s.spool) = sp := by
    intro sp
    cases ok
    · exact .inl rfl
    · exact .inr rfl
  cases f with
  | take =>
    simp only [finStep]
    split
    · rename_i h
      exact .gone h
    · rename_i h
      exact .take h
  | rename e =>
    simp only [finStep]
    split
    · exact .renameFailed
    · rename_i sp h
      cases ok
      · cases h
      · exact .rename h
  | removeMeta e =>
    cases ok
    · exact .keepMeta
    · exact .removeMeta
  | hash e =>
    simp only [finStep]
    split
    · exact .hashFailed
    · rename_i content h
      split
      · exact .mismatch
      · rename_i hgood
        simp only [not_or, ne_eq, not_not] at hgood
        cases ok
        · cases h
        · exact .hashed h hgood.1 hgood.2
  | removeBad e actual =>
    simp only [finStep, hkeep]
    exact .removeBad (hsp _)
  | register e root len =>
    simp only [finStep]
    split
    · rename_i h
      exact .dup h
    · rename_i h
      exact .register h
  | removeDup e same =>
    simp only [finStep, hkeep]
    cases same
    · exact .removeOther (hsp _)
    · exact .removeSame (hsp _)

def Offered.Agrees (o : Offered) (m : Manifest) : Prop :=
  m.root = o.manifest.root ∧ m.totalLen = o.manifest.totalLen ∧ m.chunkSize = o.manifest.chunkSize

inductive OfferMove (o : Offered) (ok : Bool) :
    Shared → OfferPc → Shared → Out OfferPc Answer → Prop where
  | refuse {s : Shared} {pc : OfferPc} (hpc : pc ≠ .save) : OfferMove o ok s pc s (.done none)
  | known {s : Shared} {r : Registered} (hin : s.registry o.id = some r)
      (hroot : r.manifest.root = o.manifest.root) :
    OfferMove o ok s .registry s (.go (.reply ⟨[], .registry r.manifest⟩))
  | unknown {s : Shared} (hno : s.registry o.id = none) : OfferMove o ok s .registry s (.go .first)
  | conflict {s : Shared} {e : PushEntry} (hin : (evict env s).pushes.lookup o.id = some e)
      (hne : ¬ o.Agrees e.manifest) : OfferMove o ok s .first (evict env s) (.done none)
  | found {s : Shared} {e : PushEntry} (hin : (evict env s).pushes.lookup o.id = some e)
      (hagree : o.Agrees e.manifest) :
    OfferMove o ok s .first ((evict env s).put o.id (e.touch (evict env s).now))
      (.go (.cleanup (cleanupOps (stale env s))
        (.resumed ⟨e.state.missingRanges o.chunks.count, .found e.manifest e.gen⟩)))
  | free {s : Shared} {next : AfterCleanup} (hno : (evict env s).pushes.lookup o.id = none)
      (hnext : next = .overCap ∨ next = .fresh) :
    OfferMove o ok s .first (evict env s) (.go (.cleanup (cleanupOps (stale env s)) next))
  | clean {s : Shared} {op : CleanupOp} {todo : List CleanupOp} {next : AfterCleanup} :
    OfferMove o ok s (.cleanup (op :: todo) next) (s.onSpool (op.apply s.spool))
      (.go (.cleanup todo next))
  | cleanFailed {s : Shared} {op : CleanupOp} {todo : List CleanupOp} {next : AfterCleanup} :
    OfferMove o ok s (.cleanup (op :: todo) next) s (.go (.cleanup todo next))
  | resumed {s : Shared} {a : Answer} :
    OfferMove o ok s (.cleanup [] (.resumed a)) s (.go (answerOffer a))
  | setup {s : Shared} : OfferMove o ok s (.cleanup [] .fresh) s (.go .probe)
  | probe {s : Shared} {len : Option Nat}
      (hlen : len = none ∨ len = (s.spool.partFile o.id).map List.length) :
    OfferMove o ok s .probe s (.go (.load len))
  | resume {s : Shared} {st : ResumeState} (hst : s.spool.load o.id = some st)
      (hfits : st.matchesManifest o.manifest o.chunks.count = true) :
    OfferMove o ok s (.load (some o.manifest.totalLen.toNat)) s (.go (.insert st))
  | restart {s : Shared} {len : Option Nat} : OfferMove o ok s (.load len) s (.go .create)
  | create {s : Shared} :
    OfferMove o ok s .create (s.onSpool (s.spool.createPart o.id).1)
      (.go (.setLen (s.spool.createPart o.id).2))
  | setLen {s : Shared} {ino : Nat} :
    OfferMove o ok s (.setLen ino) (s.onSpool (s.spool.setLenAt ino o.manifest.totalLen.toNat))
      (.go .save)
  | save {s : Shared} :
    OfferMove o ok s .save
      (s.onSpool (s.spool.save o.id (ResumeState.fresh o.manifest o.chunks.count)))
      (.go (.insert (ResumeState.fresh o.manifest o.chunks.count)))
  | saveFailed {s : Shared} (hok : ok = false) : OfferMove o ok s .save s (.done none)
  | join {s : Shared} {st : ResumeState} {e : PushEntry} (hin : s.pushes.lookup o.id = some e) :
    OfferMove o ok s (.insert st) s
      (.go (answerOffer ⟨e.state.missingRanges o.chunks.count, .joined e.manifest e.gen⟩))
  | insert {s : Shared} {st : ResumeState} (hno : s.pushes.lookup o.id = none) :
    OfferMove o ok s (.insert st)
      (s.open o.id ⟨o.manifest, o.chunks, st, s.now, 0, s.history.nextGen, o.geometry⟩)
      (.go (answerOffer ⟨st.missingRanges o.chunks.count, .inserted o.manifest s.history.nextGen⟩))
  | fin {s s' : Shared} {f f' : Fin} {a : Answer} (h : FinMove env o.id s f s' (.go f')) :
    OfferMove o ok s (.finalize f a) s' (.go (.finalize f' a))
  | finOk {s s' : Shared} {f : Fin} {a : Answer} (h : FinMove env o.id s f s' .ok) :
    OfferMove o ok s (.finalize f a) s' (.go (.reply a))
  | finFailed {s s' : Shared} {f : Fin} {a : Answer} {err : BlobError}
      (h : FinMove env o.id s f s' (.failed err)) :
    OfferMove o ok s (.finalize f a) s' (.done none)
  | reply {s : Shared} {a : Answer} :
    OfferMove o ok s (.reply a) (s.noteAccepted a.source.gen o.manifest) (.done (some a))

theorem offerStep_move (s : Shared) (ok : Bool) (o : Offered) (pc : OfferPc) :
    OfferMove env o ok s pc (offerStep env s ok o pc).1 (offerStep env s ok o pc).2 := by
  cases pc with
  | registry =>
    simp only [offerStep]
    split
    · rename_i r hr
      split
      · rename_i hroot
        exact .known hr hroot
      · exact .refuse nofun
    · rename_i h
      exact .unknown h
  | first =>
    simp only [offerStep]
    split
    · rename_i e he
      split
      · rename_i hne
        refine .conflict he fun hagree => ?_
        obtain ⟨h1, h2, h3⟩ := hagree
        simp [h1, h2, h3] at hne
      · rename_i hagree
        simp only [not_or, ne_eq, not_not] at hagree
        exact .found he hagree
    · rename_i hno
      refine .free hno ?_
      split
      · exact .inl rfl
      · exact .inr rfl
  | cleanup todo next =>
    cases todo with
    | cons op todo =>
      cases ok
      · exact .cleanFailed
      · exact .clean
    | nil =>
      cases next with
      | resumed a => exact .resumed
      | overCap => exact .refuse nofun
      | fresh => exact .setup
  | probe =>
    refine .probe ?_
    cases ok
    · exact .inl rfl
    · exact .inr rfl
  | load len =>
    simp only [offerStep]
    split
    · rename_i st hst
      split
      · rename_i hfits
        rw [Bool.and_eq_true, beq_iff_eq] at hfits
        obtain ⟨hfits, rfl⟩ := hfits
        cases ok
        · cases hst
        · exact .resume hst hfits
      · exact .restart
    · exact .restart
  | create =>
    cases ok
    · exact .refuse nofun
    · exact .create
  | setLen ino =>
    cases ok
    · exact .refuse nofun
    · exact .setLen
  | save =>
    cases ok
    · exact .saveFailed rfl
    · exact .save
  | insert st =>
    simp only [offerStep]
    split
    · rename_i e he
      exact .join he
    · rename_i hno
      split
      · exact .refuse nofun
      · exact .insert hno
  | finalize f a =>
    have h := finStep_move env s ok o.id f
    simp only [offerStep]
    split
    · rename_i s' f' heq
      rw [heq] at h
      exact .fin h
    · rename_i s' heq
      rw [heq] at h
      exact .finOk h
    · rename_i s' err heq
      rw [heq] at h
      exact .finFailed h
  | reply a =>
    cases ok
    · exact .refuse nofun
    · exact .reply

inductive SliceMove (r : SliceReq) : Shared → SlicePc → Shared → Out SlicePc Nat → Prop where
  | refuse {s : Shared} {pc : SlicePc} : SliceMove r s pc s (.done none)
  | absent {s : Shared} (hno : s.pushes.lookup r.id = none) :
    SliceMove r s .snapshot s (.go .registry)
  | denied {s : Shared} {e : PushEntry} (hin : s.pushes.lookup r.id = some e) :
    SliceMove r s .snapshot (s.put r.id (e.touch s.now)) (.done none)
  | already {s : Shared} {e : PushEntry} (hin : s.pushes.lookup r.id = some e)
      (hi : r.index < e.chunks.count) (hset : e.state.isSet r.index = true) :
    SliceMove r s .snapshot (s.put r.id (e.touch s.now)) (.go (.mark ⟨e.manifest, e.chunks, e.gen⟩))
  | verified {s : Shared} {e : PushEntry} {ls : List Leaf} (hin : s.pushes.lookup r.id = some e)
      (hi : r.index < e.chunks.count)
      (hd : env.bao.decodeSlice e.manifest.root e.manifest.totalLen.toNat
        (chunkRange (e.chunks.byteRange r.index)) r.payload = some ls) :
    SliceMove r s .snapshot (s.put r.id (e.touch s.now))
      (.go (.write ⟨e.manifest, e.chunks, e.gen⟩ ls))
  | served {s : Shared} {reg : Registered} (hin : s.registry r.id = some reg) :
    SliceMove r s .registry s (.go (.reply 0))
  | write {s : Shared} {snap : Snapshot} {ls : List Leaf} {sp : Spool}
      (hsp : s.spool.writePart r.id ls = some sp) :
    SliceMove r s (.write snap ls) (s.onSpool sp) (.go (.mark snap))
  | gone {s : Shared} {snap : Snapshot} (hno : s.pushes.lookup r.id = none) :
    SliceMove r s (.mark snap) s (.done (some 0))
  | mark {s : Shared} {snap : Snapshot} {e : PushEntry} (hin : s.pushes.lookup r.id = some e)
      (hmore : remainingOf snap.chunks.count (e.mark r.index).state.received ≠ 0) :
    SliceMove r s (.mark snap) (s.put r.id (e.mark r.index))
      (.go (.reply (remainingOf snap.chunks.count (e.mark r.index).state.received)))
  | flush {s : Shared} {snap : Snapshot} {e : PushEntry} (hin : s.pushes.lookup r.id = some e) :
    SliceMove r s (.mark snap) (s.put r.id (e.mark r.index).clean)
      (.go (.save snap (e.mark r.index).state
        (remainingOf snap.chunks.count (e.mark r.index).state.received)))
  | save {s : Shared} {snap : Snapshot} {st : ResumeState} {n : Nat} :
    SliceMove r s (.save snap st n) (s.onSpool (s.spool.save r.id st))
      (.go (if n = 0 then .finalize .take else .reply n))
  | fin {s s' : Shared} {f f' : Fin} (h : FinMove env r.id s f s' (.go f')) :
    SliceMove r s (.finalize f) s' (.go (.finalize f'))
  | finOk {s s' : Shared} {f : Fin} (h : FinMove env r.id s f s' .ok) :
    SliceMove r s (.finalize f) s' (.go (.reply 0))
  | finFailed {s s' : Shared} {f : Fin} {err : BlobError}
      (h : FinMove env r.id s f s' (.failed err)) :
    SliceMove r s (.finalize f) s' (.done none)
  | reply {s : Shared} {n : Nat} : SliceMove r s (.reply n) s (.done (some n))

theorem sliceStep_move (s : Shared) (ok : Bool) (r : SliceReq) (pc : SlicePc) :
    SliceMove env r s pc (sliceStep env s ok r pc).1 (sliceStep env s ok r pc).2 := by
  cases pc with
  | snapshot =>
    simp only [sliceStep]
    split
    · rename_i hno
      exact .absent hno
    · rename_i e he
      split
      · exact .denied he
      · rename_i hok
        simp only [not_or, ge_iff_le, not_le] at hok
        split
        · rename_i hset
          exact .already he hok.2 hset
        · split
          · exact .denied he
          · rename_i hd
            exact .verified he hok.2 hd
  | registry =>
    simp only [sliceStep]
    split
    · rename_i h
      obtain ⟨reg, hreg⟩ := Option.isSome_iff_exists.mp h
      exact .served hreg
    · exact .refuse
  | write snap ls =>
    simp only [sliceStep]
    split
    · exact .refuse
    · rename_i sp h
      cases ok
      · cases h
      · exact .write h
  | mark snap =>
    simp only [sliceStep]
    split
    · rename_i hno
      exact .gone hno
    · rename_i e he
      split
      · exact .flush he
      · rename_i hmore
        rw [not_or] at hmore
        exact .mark he hmore.1
  | save snap st n =>
    cases ok
    · exact .refuse
    · exact .save
  | finalize f =>
    have h := finStep_move env s ok r.id f
    simp only [sliceStep]
    split
    · rename_i s' f' heq
      rw [heq] at h
      exact .fin h
    · rename_i s' heq
      rw [heq] at h
      exact .finOk h
    · rename_i s' err heq
      rw [heq] at h
      exact .finFailed h
  | reply n =>
    cases ok
    · exact .refuse
    · exact .reply

inductive TaskMove (ok : Bool) : Shared → Task → Shared → Option Task → Option Event → Prop where
  | offer {s s' : Shared} {o : Offered} {pc pc' : OfferPc}
      (h : OfferMove env o ok s pc s' (.go pc')) :
    TaskMove ok s (.offer o pc) s' (some (.offer o pc')) none
  | accepted {s s' : Shared} {o : Offered} {pc : OfferPc} {a : Answer}
      (h : OfferMove env o ok s pc s' (.done (some a))) :
    TaskMove ok s (.offer o pc) s' none (some (.wanted o a))
  | refused {s s' : Shared} {o : Offered} {pc : OfferPc}
      (h : OfferMove env o ok s pc s' (.done none)) :
    TaskMove ok s (.offer o pc) s' none (some .refused)
  | slice {s s' : Shared} {r : SliceReq} {pc pc' : SlicePc}
      (h : SliceMove env r s pc s' (.go pc')) :
    TaskMove ok s (.slice r pc) s' (some (.slice r pc')) none
  | acked {s s' : Shared} {r : SliceReq} {pc : SlicePc} {n : Nat}
      (h : SliceMove env r s pc s' (.done (some n))) :
    TaskMove ok s (.slice r pc) s' none (some (.remaining r n))
  | rejected {s s' : Shared} {r : SliceReq} {pc : SlicePc}
      (h : SliceMove env r s pc s' (.done none)) :
    TaskMove ok s (.slice r pc) s' none (some .refused)

theorem taskStep_move (s : Shared) (ok : Bool) (t : Task) :
    TaskMove env ok s t (taskStep env s ok t).1 (taskStep env s ok t).2.1
      (taskStep env s ok t).2.2 := by
  cases t with
  | offer o pc =>
    have h := offerStep_move env s ok o pc
    simp only [taskStep]
    split
    · rename_i s' pc' heq
      rw [heq] at h
      exact .offer h
    · rename_i s' a heq
      rw [heq] at h
      exact .accepted h
    · rename_i s' heq
      rw [heq] at h
      exact .refused h
  | slice r pc =>
    have h := sliceStep_move env s ok r pc
    simp only [taskStep]
    split
    · rename_i s' pc' heq
      rw [heq] at h
      exact .slice h
    · rename_i s' n heq
      rw [heq] at h
      exact .acked h
    · rename_i s' heq
      rw [heq] at h
      exact .rejected h

def Task.fin : Task → Option (String × Fin)
  | .offer o (.finalize f _) => some (o.id, f)
  | .slice r (.finalize f) => some (r.id, f)
  | _ => none

inductive SpoolOp (sp : Spool) : Task → Spool → Prop where
  | clean {o : Offered} {op : CleanupOp} {todo : List CleanupOp} {next : AfterCleanup} :
    SpoolOp sp (.offer o (.cleanup (op :: todo) next)) (op.apply sp)
  | create {o : Offered} : SpoolOp sp (.offer o .create) (sp.createPart o.id).1
  | setLen {o : Offered} {ino : Nat} :
    SpoolOp sp (.offer o (.setLen ino)) (sp.setLenAt ino o.manifest.totalLen.toNat)
  | save {o : Offered} :
    SpoolOp sp (.offer o .save) (sp.save o.id (ResumeState.fresh o.manifest o.chunks.count))
  | write {r : SliceReq} {snap : Snapshot} {ls : List Leaf} {sp' : Spool}
      (hsp : sp.writePart r.id ls = some sp') : SpoolOp sp (.slice r (.write snap ls)) sp'
  | flush {r : SliceReq} {snap : Snapshot} {st : ResumeState} {n : Nat} :
    SpoolOp sp (.slice r (.save snap st n)) (sp.save r.id st)

inductive Effect (s : Shared) : Task → Shared → Prop where
  | same {t : Task} : Effect s t s
  | evicted {o : Offered} : Effect s (.offer o .first) (evict env s)
  | found {o : Offered} {e : PushEntry} (hin : (evict env s).pushes.lookup o.id = some e) :
    Effect s (.offer o .first) ((evict env s).put o.id (e.touch (evict env s).now))
  | touched {r : SliceReq} {e : PushEntry} (hin : s.pushes.lookup r.id = some e) :
    Effect s (.slice r .snapshot) (s.put r.id (e.touch s.now))
  | marked {r : SliceReq} {snap : Snapshot} {e e' : PushEntry} (hin : s.pushes.lookup r.id = some e)
      (he : e' = e.mark r.index ∨ e' = (e.mark r.index).clean) :
    Effect s (.slice r (.mark snap)) (s.put r.id e')
  | opened {o : Offered} {st : ResumeState} (hno : s.pushes.lookup o.id = none) :
    Effect s (.offer o (.insert st))
      (s.open o.id ⟨o.manifest, o.chunks, st, s.now, 0, s.history.nextGen, o.geometry⟩)
  | accepted {o : Offered} {a : Answer} :
    Effect s (.offer o (.reply a)) (s.noteAccepted a.source.gen o.manifest)
  | spooled {t : Task} {sp : Spool} (h : SpoolOp s.spool t sp) : Effect s t (s.onSpool sp)
  | fin {t : Task} {id : String} {f : Fin} {s' : Shared} {out : FinOut} (ht : t.fin = some (id, f))
      (h : FinMove env id s f s' out) : Effect s t s'

variable {env}

theorem OfferMove.effect {o : Offered} {ok : Bool} {s s' : Shared} {pc : OfferPc}
    {out : Out OfferPc Answer} (h : OfferMove env o ok s pc s' out) :
    Effect env s (.offer o pc) s' := by
  cases h with
  | conflict => exact .evicted
  | free => exact .evicted
  | found hin => exact .found hin
  | clean => exact .spooled .clean
  | create => exact .spooled .create
  | setLen => exact .spooled .setLen
  | save => exact .spooled .save
  | insert hno => exact .opened hno
  | fin h => exact .fin rfl h
  | finOk h => exact .fin rfl h
  | finFailed h => exact .fin rfl h
  | reply => exact .accepted
  | _ => exact .same

theorem SliceMove.effect {r : SliceReq} {s s' : Shared} {pc : SlicePc} {out : Out SlicePc Nat}
    (h : SliceMove env r s pc s' out) : Effect env s (.slice r pc) s' := by
  cases h with
  | denied hin => exact .touched hin
  | already hin => exact .touched hin
  | verified hin => exact .touched hin
  | write hsp => exact .spooled (.write hsp)
  | mark hin => exact .marked hin (.inl rfl)
  | flush hin => exact .marked hin (.inr rfl)
  | save => exact .spooled .flush
  | fin h => exact .fin rfl h
  | finOk h => exact .fin rfl h
  | finFailed h => exact .fin rfl h
  | _ => exact .same

theorem TaskMove.effect {ok : Bool} {s s' : Shared} {t : Task} {t' : Option Task}
    {ev : Option Event}
    (h : TaskMove env ok s t s' t' ev) : Effect env s t s' := by
  cases h with
  | offer h => exact h.effect
  | accepted h => exact h.effect
  | refused h => exact h.effect
  | slice h => exact h.effect
  | acked h => exact h.effect
  | rejected h => exact h.effect

end Moves

inductive Registers (s : Shared) (id : String) : Shared → Prop where
  | unchanged : Registers s id s
  | added {r : Registered} (hno : s.registry id = none) (hsource : r.source = .given) :
    Registers s id (s.serve id r)

theorem finishRegister_registers (env : Env) (s : Shared) (spec : BlobSpec) (root : Hash)
    (totalLen : UInt64) : Registers s spec.id (finishRegister env s spec root totalLen).1 := by
  unfold finishRegister
  split
  · exact .unchanged
  · exact .unchanged
  · rename_i id chunks hid _
    have hstr : id.str = spec.id := by
      unfold BlobId.new at hid
      split at hid
      · cases hid
        rfl
      · cases hid
    simp only
    split
    · exact .unchanged
    · exact .unchanged
    · split
      · split <;> exact .unchanged
      · rename_i hno
        rw [hstr]
        exact .added hno rfl

inductive ServerMove (env : Env) : Server → Action → Server → Option Event → Prop where
  | tick {s : Server} {d : Nat} : ServerMove env s (.tick d) (s.onShared (s.shared.tick d)) none
  | offer {s : Server} {keyId : String} {payload token : Option Bytes} {o : Offered}
      (hid : o.manifest.id.str = keyId) :
    ServerMove env s (.offer keyId payload token)
      ((s.onShared (s.shared.noteOffer keyId o.manifest)).spawn (.offer o .registry)) none
  | refused {s : Server} {keyId : String} {payload token : Option Bytes} :
    ServerMove env s (.offer keyId payload token) s (some .refused)
  | slice {s : Server} {r : SliceReq}
      (hpush : ∀ g m, r.push = some (g, m) → (g, m) ∈ s.shared.history.accepted ∧ m.id.str = r.id) :
    ServerMove env s (.slice r) (s.spawn (.slice r .snapshot)) none
  | run {s : Server} {tid : Nat} {ok : Bool} {t : Task} {s' : Shared} {t' : Option Task}
      {ev : Option Event} (ht : s.tasks tid = some t) (h : TaskMove env ok s.shared t s' t' ev) :
    ServerMove env s (.run tid ok) (s.resume tid s' t') ev
  | register {s : Server} {spec : BlobSpec} {root : Hash} {totalLen : UInt64} {s' : Shared}
      (h : Registers s.shared spec.id s') :
    ServerMove env s (.register spec root totalLen) (s.onShared s') none
  | unregister {s : Server} {id : String} :
    ServerMove env s (.unregister id) (s.onShared (s.shared.unserve id)) none

theorem step_move [Postcard Manifest] {env : Env} {s t : Server} {a : Action} {ev : Option Event}
    (h : s.step env a = some (t, ev)) : ServerMove env s a t ev := by
  cases a with
  | tick d =>
    cases h
    exact .tick
  | offer keyId payload token =>
    simp only [Server.step] at h
    split at h
    · rename_i o ho
      cases h
      refine .offer ?_
      simp only [admitOffer, Option.bind_eq_bind, Option.bind_eq_some_iff] at ho
      obtain ⟨p, -, m, -, ho⟩ := ho
      split at ho
      · rename_i hc
        split at ho
        · cases ho
          exact hc.2.1
        · cases ho
      · cases ho
    · cases h
      exact .refused
  | slice r =>
    simp only [Server.step] at h
    split at h
    · rename_i hnone
      cases h
      exact .slice (by simp [hnone])
    · rename_i push hsome
      split at h
      · rename_i hacc
        cases h
        refine .slice fun g m hp => ?_
        obtain rfl : push = (g, m) := Option.some.inj (hsome.symm.trans hp)
        exact hacc
      · cases h
  | run tid ok =>
    simp only [Server.step] at h
    split at h
    · cases h
    · rename_i tk htk
      cases h
      exact .run htk (taskStep_move env s.shared ok tk)
  | register spec root totalLen =>
    cases h
    exact .register (finishRegister_registers env s.shared spec root totalLen)
  | unregister id =>
    cases h
    exact .unregister

section Entries

variable {env : Env}

/-- What a step leaves of the map: every entry was there with the same manifest and number,
or is the one an offer has just inserted. -/
def EntriesFrom (s s' : Shared) (t : Task) : Prop :=
  ∀ k e', s'.pushes.lookup k = some e' →
    (∃ e, s.pushes.lookup k = some e ∧ e'.manifest = e.manifest ∧ e'.chunks = e.chunks ∧
      e'.gen = e.gen) ∨
    ∃ o st, t = .offer o (.insert st) ∧ k = o.id ∧ e'.manifest = o.manifest ∧
      e'.gen = s.history.nextGen ∧ s' = s.open k e'

theorem entriesFrom_of_sub {s s' : Shared} {t : Task}
    (h : ∀ k e, s'.pushes.lookup k = some e → s.pushes.lookup k = some e) : EntriesFrom s s' t :=
  fun k e he => .inl ⟨e, h k e he, rfl, rfl, rfl⟩

theorem entriesFrom_put {s : Shared} {id : String} {e e' : PushEntry} {t : Task}
    (hin : s.pushes.lookup id = some e)
    (hsame : e'.manifest = e.manifest ∧ e'.chunks = e.chunks ∧ e'.gen = e.gen) :
    EntriesFrom s (s.put id e') t := by
  intro k e'' he
  rw [put_lookup] at he
  split at he
  · rename_i hk
    subst hk
    cases he
    exact .inl ⟨e, hin, hsame⟩
  · exact .inl ⟨e'', he, rfl, rfl, rfl⟩

theorem evict_sub (s : Shared) (k : String) (e : PushEntry)
    (h : (evict env s).pushes.lookup k = some e) : s.pushes.lookup k = some e := by
  rw [evict_lookup] at h
  split at h
  · cases h
  · exact h

theorem FinMove.entries_sub {s s' : Shared} {id : String} {f : Fin} {out : FinOut}
    (h : FinMove env id s f s' out) (k : String) (e : PushEntry)
    (he : s'.pushes.lookup k = some e) : s.pushes.lookup k = some e := by
  cases h with
  | take =>
    rw [setFate_pushes, erase_lookup] at he
    split at he
    · cases he
    · exact he
  | _ => exact he

theorem Effect.entries {s s' : Shared} {t : Task} (h : Effect env s t s') : EntriesFrom s s' t := by
  cases h with
  | evicted => exact entriesFrom_of_sub (evict_sub s)
  | @found o e hin =>
    have hput : EntriesFrom (evict env s) ((evict env s).put o.id (e.touch (evict env s).now))
        (.offer o .first) := entriesFrom_put hin ⟨rfl, rfl, rfl⟩
    intro k e' he
    rcases hput k e' he with ⟨e1, h1, h2⟩ | ⟨o', st, ht, -⟩
    · exact .inl ⟨e1, evict_sub s k e1 h1, h2⟩
    · cases ht
  | touched hin => exact entriesFrom_put hin ⟨rfl, rfl, rfl⟩
  | marked hin he => rcases he with rfl | rfl <;> exact entriesFrom_put hin ⟨rfl, rfl, rfl⟩
  | @opened o st hno =>
    intro k e' he
    rw [open_pushes, put_lookup] at he
    split at he
    · rename_i hk
      cases he
      exact .inr ⟨o, st, rfl, hk, rfl, rfl, by rw [hk]⟩
    · exact .inl ⟨e', he, rfl, rfl, rfl⟩
  | fin ht h => exact entriesFrom_of_sub h.entries_sub
  | _ => exact entriesFrom_of_sub fun k e he => he

end Entries

section Finalizing

variable {env : Env}

theorem answerOffer_fin {o : Offered} {a : Answer} {id : String} {f : Fin}
    (h : (Task.offer o (answerOffer a)).fin = some (id, f)) : f = .take ∧ id = o.id := by
  unfold answerOffer at h
  split at h
  · cases h
    exact ⟨rfl, rfl⟩
  · cases h

theorem TaskMove.fin {ok : Bool} {s s' : Shared} {t t' : Task} {ev : Option Event}
    (h : TaskMove env ok s t s' (some t') ev) {id : String} {f' : Fin}
    (hf : t'.fin = some (id, f')) :
    f' = .take ∨ ∃ f, t.fin = some (id, f) ∧ FinMove env id s f s' (.go f') := by
  cases h with
  | offer h =>
    cases h with
    | resumed => exact .inl (answerOffer_fin hf).1
    | join => exact .inl (answerOffer_fin hf).1
    | insert => exact .inl (answerOffer_fin hf).1
    | fin h =>
      cases hf
      exact .inr ⟨_, rfl, h⟩
    | _ => cases hf
  | slice h =>
    cases h with
    | save =>
      split at hf
      · cases hf
        exact .inl rfl
      · cases hf
    | fin h =>
      cases hf
      exact .inr ⟨_, rfl, h⟩
    | _ => cases hf

def Gains (s s' : Shared) (t : Task) : Prop :=
  s'.registry = s.registry ∨ ∃ id e root len, t.fin = some (id, .register e root len) ∧
    s.registry id = none ∧ s'.registry = Function.update s.registry e.manifest.id.str
      (some ⟨e.manifest, e.chunks, .spooled, root, len⟩)

theorem Effect.gains {s s' : Shared} {t : Task} (h : Effect env s t s') : Gains s s' t := by
  cases h with
  | evicted => exact .inl (evict_registry s)
  | found => exact .inl (evict_registry s)
  | fin ht h =>
    cases h with
    | register hno => exact .inr ⟨_, _, _, _, ht, hno, rfl⟩
    | _ => exact .inl rfl
  | _ => exact .inl rfl

/-- What a step adds to the history: nothing but fates, one push inserted, or one offer
accepted. -/
inductive Records (s s' : Shared) (t : Task) : Prop where
  | fates (h : s'.history = { s.history with fate := s'.history.fate })
  | opened {o : Offered} {st : ResumeState} {e : PushEntry} (ht : t = .offer o (.insert st))
      (hm : e.manifest = o.manifest) (hgen : e.gen = s.history.nextGen) (hs : s' = s.open o.id e)
  | accepted {o : Offered} {a : Answer} (ht : t = .offer o (.reply a))
      (hs : s' = s.noteAccepted a.source.gen o.manifest)

theorem Effect.records {s s' : Shared} {t : Task} (h : Effect env s t s') : Records s s' t := by
  cases h with
  | evicted => exact .fates (evict_history s)
  | found => exact .fates (evict_history s)
  | opened => exact .opened rfl rfl rfl rfl
  | accepted => exact .accepted rfl rfl
  | fin ht h => cases h <;> exact .fates rfl
  | _ => exact .fates rfl

theorem Effect.offered {s s' : Shared} {t : Task} (h : Effect env s t s') :
    s'.history.offered = s.history.offered := by
  cases h.records with
  | fates h => rw [h]
  | opened ht hm hgen hs => rw [hs, open_offered]
  | accepted ht hs => rw [hs, noteAccepted_offered]

theorem SpoolOp.wf {sp sp' : Spool} {t : Task} (h : SpoolOp sp t sp') (hwf : sp.Wf) : sp'.Wf := by
  cases h with
  | @clean o op todo next =>
    cases op with
    | part id => exact Spool.removePart_wf hwf
    | sidecar id => exact Spool.removeMeta_wf hwf
  | create => exact (Spool.createPart_created sp _).wf hwf
  | setLen => exact Spool.setData_wf hwf _ _
  | save => exact Spool.save_wf hwf _
  | write hsp =>
    obtain ⟨ino, -, rfl⟩ := Spool.writePart_some hsp
    exact Spool.setData_wf hwf _ _
  | flush => exact Spool.save_wf hwf _

theorem Effect.wf {s s' : Shared} {t : Task} (h : Effect env s t s') (hwf : s.spool.Wf) :
    s'.spool.Wf := by
  have removed : ∀ {sp : Spool} {id : String}, sp = s.spool ∨
      sp = s.spool.removeBlob id → sp.Wf := by
    rintro sp id (rfl | rfl)
    · exact hwf
    · exact Spool.removeBlob_wf hwf
  cases h with
  | evicted => rwa [evict_spool]
  | found => rwa [put_spool, evict_spool]
  | spooled h => exact h.wf hwf
  | fin ht h =>
    cases h with
    | rename hsp => exact Spool.renamePart_wf hwf hsp
    | removeMeta => exact Spool.removeMeta_wf hwf
    | removeBad hsp => exact removed hsp
    | removeSame hsp => exact removed hsp
    | removeOther hsp => exact removed hsp
    | _ => exact hwf
  | _ => exact hwf

end Finalizing

def Server.start (spool : Spool) : Server :=
  ⟨⟨fun _ => none, ∅, spool, 0, ⟨[], 0, fun _ => none, fun _ => .opened, []⟩⟩, fun _ => none, 0⟩

def Server.Runs [Postcard Manifest] (env : Env) (allowed : Server → Action → Prop) (s : Server)
    (a : Action) (t : Server) : Prop :=
  allowed s a ∧ ∃ ev, s.step env a = some (t, ev)

def Server.exec [Postcard Manifest] (env : Env) (test : Server → Action → Bool) :
    List Action → Server × Option Event → Option (Server × Option Event)
  | [], s => some s
  | a :: as, s => if test s.1 a then (s.1.step env a).bind (Server.exec env test as) else none

theorem exec_reachable [Postcard Manifest] {env : Env} {test : Server → Action → Bool}
    {allowed : Server → Action → Prop} {init : Server → Prop}
    (htest : ∀ s a, Reachable init (Server.Runs env allowed) s → test s a = true → allowed s a)
    (as : List Action) {s t : Server × Option Event}
    (hs : Reachable init (Server.Runs env allowed) s.1)
    (h : Server.exec env test as s = some t) : Reachable init (Server.Runs env allowed) t.1 := by
  induction as generalizing s with
  | nil =>
    cases h
    exact hs
  | cons a as ih =>
    simp only [Server.exec] at h
    split at h
    · rename_i hpass
      obtain ⟨u, hu, h⟩ := Option.bind_eq_some_iff.mp h
      exact ih (.next (a := a) hs ⟨htest _ _ hs hpass, u.2, hu⟩) h
    · cases h

abbrev Server.Reached [Postcard Manifest] (env : Env) : Server → Prop :=
  Reachable (fun s => ∃ spool, s = Server.start spool) (Server.Runs env fun _ _ => True)

theorem reached_idle [Postcard Manifest] {env : Env} {s : Server} (h : Server.Reached env s) :
    s.Idle := by
  apply Reachable.invariant _ _ h
  · rintro s ⟨spool, rfl⟩ i -
    rfl
  · rintro s a t hs ⟨-, ev, hstep⟩
    cases step_move hstep with
    | offer => exact Pool.Idle.spawn hs _
    | slice => exact hs.spawn _
    | run hu => exact hs.resume hu _ _
    | _ => exact hs

theorem Server.Runs.reached [Postcard Manifest] {env : Env} {allowed : Server → Action → Prop}
    {s : Server}
    (h : Reachable (fun s => ∃ spool, s = Server.start spool) (Server.Runs env allowed) s) :
    Server.Reached env s :=
  h.mono (fun _ h => h) fun _ _ _ h => ⟨trivial, h.2⟩

def sampleEnv : Env := ⟨shortBao, ⟨fun _ _ => true, 1000, 8, 100⟩, 64⟩

def statingManifest : Manifest :=
  { sampleManifest 3 (shortHash [97, 98, 99]) with
    ext := ((Ext.new.setU32 Ext.maxChunksPerQuery 64).1.setU64 Ext.maxBlobSize 1000).1 }

abbrev pushPostcard : Postcard Manifest where
  fromBytes b :=
    if b = [0] then some (sampleManifest 0 (shortHash []))
    else if b = [1] then some (sampleManifest 3 (shortHash [97, 98, 99]))
    else if b = [2] then some (sampleManifest 3 (shortHash [120, 121, 122]))
    else if b = [3] then some { sampleManifest 0 (shortHash []) with chunkSize := 131072 }
    else if b = [4] then some statingManifest
    else none

def accepts (step : Option (Server × Option Event)) (test : Offered → Answer → Bool) : Bool :=
  match step with
  | some (_, some (.wanted o a)) => test o a
  | _ => false

theorem accepts_iff {step : Option (Server × Option Event)} {test : Offered → Answer → Bool} :
    accepts step test = true ↔ ∃ t o a, step = some (t, some (.wanted o a)) ∧ test o a = true := by
  constructor
  · intro h
    unfold accepts at h
    split at h
    · exact ⟨_, _, _, rfl, h⟩
    · cases h
  · rintro ⟨t, o, a, rfl, h⟩
    exact h

def sampleRun (test : Server → Action → Bool) (as : List Action) : Option (Server × Option Event) :=
  let _ := pushPostcard
  Server.exec sampleEnv test as (Server.start Spool.empty, none)

def sampleServer (test : Server → Action → Bool) (as : List Action) : Server :=
  ((sampleRun test as).getD (Server.start Spool.empty, none)).1

def untested : Server → Action → Bool := fun _ _ => true

theorem sample_reached {test : Server → Action → Bool} {allowed : Server → Action → Prop}
    {init : Server → Prop}
    (htest : let _ := pushPostcard
      ∀ s a, Reachable init (Server.Runs sampleEnv allowed) s → test s a = true → allowed s a)
    (hinit : init (Server.start Spool.empty)) {as : List Action}
    (h : (sampleRun test as).isSome = true) :
    let _ := pushPostcard
    Reachable init (Server.Runs sampleEnv allowed) (sampleServer test as) := by
  obtain ⟨⟨s, ev⟩, hs⟩ := Option.isSome_iff_exists.mp h
  have hserver : sampleServer test as = s := by simp [sampleServer, hs]
  let _ := pushPostcard
  rw [hserver]
  exact exec_reachable htest (s := (Server.start Spool.empty, none)) (t := (s, ev)) as
    (.start hinit) hs

theorem sample_untested {as : List Action} (h : (sampleRun untested as).isSome = true) :
    let _ := pushPostcard
    Server.Reached sampleEnv (sampleServer untested as) :=
  sample_reached (fun _ _ _ _ => trivial) ⟨Spool.empty, rfl⟩ h

def offerEmpty : List Action :=
  .offer "x" (some [0]) none :: List.replicate 13 (.run 0 true)

def sliceAbc : SliceReq := ⟨"x", 0, [97, 98, 99], none, none⟩

end Zblob

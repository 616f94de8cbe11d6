import Zblob.Site
import Zblob.Upload
import Zblob.Views

/-!
The handlers of one push, with no other handler at work on its id. Each of them has a next
step, which brings the push closer to its blob.
-/

set_option autoImplicit false

namespace Zblob

open ByteFile (Leaf)

structure Uploader where
  offered : Offered
  payload : Nat → Bytes
  token : Option Bytes

def Answer.ranges (a : Answer) : List (UInt32 × UInt32) :=
  a.wanted.map fun r => (UInt32.ofNat r.1, UInt32.ofNat r.2)

def Answer.indices (a : Answer) : List Nat := wantedIndices a.ranges

def Answer.Sound (count : Nat) (a : Answer) : Prop := WantedOk count a.ranges

namespace Uploader

variable (env : Env) (u : Uploader)

def id : String := u.offered.id

def count : Nat := u.offered.chunks.count

def slice (i : Nat) : SliceReq := ⟨u.offered.id, i, u.payload i, u.token, none⟩

def Content (f : Bytes) : Prop :=
  f.length = u.offered.manifest.totalLen.toNat ∧ env.bao.hash f = u.offered.manifest.root

structure Fitting : Prop where
  laws : env.bao.Laws
  decodes : ∀ i < u.count, ∃ ls, env.bao.decodeSlice u.offered.manifest.root
    u.offered.manifest.totalLen.toNat
    (chunkRange (u.offered.chunks.byteRange i)) (u.payload i) = some ls
  allowed : ∀ m, u.offered.Agrees m → env.push.allow m u.token = true
  empty : u.offered.manifest.totalLen = 0 → u.offered.manifest.root = env.bao.hash []

/-- The push is in progress, and `todo` lists the chunks that it misses. -/
structure Open (x : Site) (todo : List Nat) : Prop where
  free : x.served = none
  entry : ∃ e, x.view.entry = some e ∧ u.offered.Agrees e.manifest ∧
    ∀ j, j ∈ todo ↔ j < u.count ∧ e.state.isSet j = false
  once : todo.Nodup

structure Done (x : Site) : Prop where
  served : ∃ r, x.served = some r ∧ u.offered.Agrees r.manifest
  blob : ∃ f, x.blob = some f ∧ u.Content env f

def Between (x : Site) (todo : List Nat) : Prop :=
  todo = [] ∧ u.Done env x ∨ todo ≠ [] ∧ u.Open x todo

structure Taken (x : Site) (e : PushEntry) : Prop where
  free : x.served = none
  named : e.manifest.id.str = u.id
  agrees : u.offered.Agrees e.manifest

def FinAt (x : Site) : Fin → Prop
  | .take => u.Open x []
  | .rename e => u.Taken x e ∧ ∃ f, x.view.file = some f ∧ u.Content env f
  | .removeMeta e | .hash e | .register e _ _ =>
    u.Taken x e ∧ ∃ f, x.blob = some f ∧ u.Content env f
  | .removeBad _ _ | .removeDup _ _ => False

structure Vacant (x : Site) : Prop where
  free : x.served = none
  agrees : ∀ e, x.view.entry = some e → u.offered.Agrees e.manifest

def OfferAt (x : Site) : OfferPc → Prop
  | .registry | .first => u.Vacant x
  | .cleanup todo (.resumed a) => (∀ op ∈ todo, op.id ≠ u.id) ∧ a.Sound u.count ∧ u.Open x a.indices
  | .cleanup todo .fresh => (∀ op ∈ todo, op.id ≠ u.id) ∧ x.served = none ∧ x.view.entry = none
  | .cleanup _ .overCap => False
  | .probe | .load _ | .create | .setLen _ | .save | .insert _ =>
    x.served = none ∧ x.view.entry = none
  | .finalize f a => a.wanted = [] ∧ u.FinAt env x f
  | .reply a => a.Sound u.count ∧ u.Between env x a.indices

def SliceAt (x : Site) (i : Nat) (rest : List Nat) : SlicePc → Prop
  | .snapshot => u.Open x (i :: rest)
  | .registry => False
  | .write snap _ | .mark snap => snap.chunks = u.offered.chunks ∧ u.Open x (i :: rest)
  | .save _ _ remaining => (remaining = 0 ↔ rest = []) ∧ u.Open x rest
  | .finalize f => rest = [] ∧ u.FinAt env x f
  | .reply _ => u.Between env x rest

end Uploader

theorem Offered.Agrees.chunks {o : Offered} {m : Manifest} {c : TransferChunks} (h : o.Agrees m)
    (hc : m.chunks = .ok c) : c = o.chunks := by
  have hsame : m.chunks = o.manifest.chunks := by simp [Manifest.chunks, h.2.1, h.2.2]
  rw [hsame, o.geometry] at hc
  exact (Except.ok.inj hc).symm

section Missing

variable {st : ResumeState} {n : Nat}

theorem toNat_ofNat_le {a : Nat} (h : a ≤ n) (hn : n < 2 ^ 32) : (UInt32.ofNat a).toNat = a :=
  UInt32.toNat_ofNat_of_lt' (Nat.lt_of_le_of_lt h hn)

theorem Answer.mem_indices {a : Answer} (hn : n < 2 ^ 32)
    (ha : a.wanted = st.missingRanges n) {i : Nat} :
    i ∈ a.indices ↔ i < n ∧ st.isSet i = false := by
  rw [← ResumeState.missingRanges_mem_iff, Answer.indices, mem_wantedIndices, Answer.ranges, ha]
  constructor
  · rintro ⟨wire, hwire, hlow, hhigh⟩
    obtain ⟨r, hr, rfl⟩ := List.mem_map.mp hwire
    obtain ⟨-, hlt, hle, -⟩ := ResumeState.missingFrom_inside hr
    rw [toNat_ofNat_le (by omega) hn] at hlow hhigh
    exact ⟨r, hr, hlow, hhigh⟩
  · rintro ⟨r, hr, hlow, hhigh⟩
    obtain ⟨-, hlt, hle, -⟩ := ResumeState.missingFrom_inside hr
    refine ⟨_, List.mem_map.mpr ⟨r, hr, rfl⟩, ?_⟩
    rw [toNat_ofNat_le (by omega) hn, toNat_ofNat_le (by omega) hn]
    exact ⟨hlow, hhigh⟩

theorem Answer.sound {a : Answer} (hn : n < 2 ^ 32) (ha : a.wanted = st.missingRanges n) :
    a.Sound n := by
  have hspan : ∀ r ∈ st.missingRanges n, r.1 < r.2 ∧ r.2 ≤ n := fun r hr =>
    ⟨(ResumeState.missingFrom_inside hr).2.1, (ResumeState.missingFrom_inside hr).2.2.1⟩
  rw [Answer.Sound, Answer.ranges, ha]
  refine ⟨List.forall_mem_map.mpr fun r hr => ?_, List.forall_mem_map.mpr fun r hr => ?_, ?_⟩
  · obtain ⟨hlt, hle⟩ := hspan r hr
    rw [toNat_ofNat_le (by omega) hn, toNat_ofNat_le (by omega) hn]
    exact hlt
  · obtain ⟨hlt, hle⟩ := hspan r hr
    rw [toNat_ofNat_le hle hn]
    exact hle
  · rw [List.pairwise_map]
    apply ResumeState.missingRanges_apart.imp_of_mem
    intro a b ha hb hlt
    obtain ⟨-, hle⟩ := hspan a ha
    obtain ⟨hb, hle'⟩ := hspan b hb
    rw [toNat_ofNat_le hle hn, toNat_ofNat_le (by omega) hn]
    exact Nat.le_of_lt hlt

theorem Answer.indices_nil_iff {a : Answer} (h : a.Sound n) : a.indices = [] ↔ a.wanted = [] := by
  constructor
  · intro hnil
    rw [List.eq_nil_iff_forall_not_mem]
    intro r hr
    have hmem : (UInt32.ofNat r.1, UInt32.ofNat r.2) ∈ a.ranges := List.mem_map.mpr ⟨r, hr, rfl⟩
    have hfirst : (UInt32.ofNat r.1).toNat ∈ a.indices :=
      mem_wantedIndices.mpr ⟨_, hmem, Nat.le_refl _, h.nonempty _ hmem⟩
    rw [hnil] at hfirst
    cases hfirst
  · intro hnil
    simp [Answer.indices, Answer.ranges, hnil, wantedIndices]

end Missing

namespace Uploader

variable {env : Env} {u : Uploader} {s : Shared}

/-- What a handler of the push may rely on. -/
structure Relies (env : Env) (u : Uploader) (s : Shared) : Prop where
  wf : s.spool.Wf
  serves : ∀ e, (s.view u.id).entry = some e → (s.view u.id).Serves env.bao e
  named : ∀ e, s.pushes.lookup u.id = some e → e.manifest.id.str = u.id
  fresh : s.Fresh env u.id

end Uploader

def Fin.rank : Fin → Nat
  | .take => 5
  | .rename _ => 4
  | .removeMeta _ => 3
  | .hash _ => 2
  | .register _ _ _ => 1
  | .removeBad _ _ | .removeDup _ _ => 0

namespace Uploader

variable {env : Env} {u : Uploader} {s : Shared}

/-- The part of a push that misses nothing is the blob. -/
theorem Open.content (hu : u.Fitting env) (h : u.Relies env s) (hopen : u.Open (s.site u.id) []) :
    ∃ e, s.pushes.lookup u.id = some e ∧ u.offered.Agrees e.manifest ∧
      ∃ f, (s.view u.id).file = some f ∧ u.Content env f := by
  obtain ⟨e, he, hagree, htodo⟩ := hopen.entry
  obtain ⟨hfits, ⟨f, hf, hbacked⟩, -⟩ := h.serves e he
  have hchunks : e.chunks = u.offered.chunks := hagree.chunks e.geometry
  have hall : ∀ i, i < e.chunks.count → e.state.isSet i = true := by
    intro i hi
    rw [hchunks] at hi
    have hnot := mt (htodo i).mpr (List.not_mem_nil)
    simpa using fun hclear => hnot ⟨hi, hclear⟩
  have hroot := hagree.1
  have hlen := hagree.2.1
  obtain ⟨hflen, hhash⟩ :=
    Holds.content hu.laws hfits.geometry hbacked hall (by rw [hroot, hlen]; exact hu.empty)
  exact ⟨e, he, hagree, f, hf, by rw [hflen, hlen], by rw [hhash, hroot]⟩

theorem finStep_turn (hu : u.Fitting env) (h : u.Relies env s) {f : Fin}
    (hf : u.FinAt env (s.site u.id) f) :
    (∃ s' f', finStep env s true u.id f = (s', .go f') ∧ u.FinAt env (s'.site u.id) f' ∧
      f'.rank < f.rank) ∨
      ∃ s', finStep env s true u.id f = (s', .ok) ∧ u.Done env (s'.site u.id) := by
  cases f with
  | take =>
    obtain ⟨e, he, hagree, f, hfile, hcontent⟩ := hf.content hu h
    have hview : ((s.erase u.id).setFate e.gen .finalizing).view u.id = _ := view_erase
    refine .inl ⟨(s.erase u.id).setFate e.gen .finalizing, .rename e, by simp [finStep, he],
      ⟨⟨hf.free, h.named e he, hagree⟩, f, ?_, hcontent⟩, by simp [Fin.rank]⟩
    simp only [Shared.site, hview, if_true]
    exact hfile
  | rename e =>
    obtain ⟨htaken, f, hfile, hcontent⟩ := hf
    obtain ⟨⟨ino, data⟩, hpart, rfl⟩ := Option.map_eq_some_iff.mp hfile
    obtain ⟨hino, rfl⟩ := view_part hpart
    obtain ⟨sp, hsp⟩ : ∃ sp, s.spool.renamePart u.id = some sp :=
      ⟨_, by rw [Spool.renamePart, hino, Option.map_some]⟩
    refine .inl ⟨s.onSpool sp, .removeMeta e, by simp [finStep, hsp],
      ⟨⟨htaken.free, htaken.named, htaken.agrees⟩, s.spool.data ino, ?_, hcontent⟩, by
        simp [Fin.rank]⟩
    obtain ⟨n, hn, rfl⟩ := Spool.renamePart_some hsp
    obtain rfl : ino = n := Option.some.inj (hino.symm.trans hn)
    simp [Shared.site, Spool.blobFile]
  | removeMeta e =>
    obtain ⟨htaken, hblob⟩ := hf
    exact .inl ⟨_, .hash e, rfl, ⟨⟨htaken.free, htaken.named, htaken.agrees⟩, hblob⟩,
      by simp [Fin.rank]⟩
  | hash e =>
    obtain ⟨htaken, f, hblob, hlen, hhash⟩ := hf
    obtain ⟨hroot, htotal, -⟩ := htaken.agrees
    have hsame : ¬ (env.bao.hash f ≠ e.manifest.root ∨ f.length ≠ e.manifest.totalLen.toNat) := by
      rw [hroot, htotal, hhash, hlen]
      simp
    have hfile : s.spool.blobFile u.id = some f := hblob
    refine .inl ⟨s, .register e (env.bao.hash f) f.length, ?_, ⟨htaken, f, hblob, hlen, hhash⟩,
      by simp [Fin.rank]⟩
    simp only [finStep, if_true, hfile, if_neg hsame]
  | register e root len =>
    obtain ⟨htaken, hblob⟩ := hf
    have hfree : s.registry u.id = none := htaken.free
    let r : Registered := ⟨e.manifest, e.chunks, .spooled, root, len⟩
    refine .inr ⟨(s.serve e.manifest.id.str r).setFate e.gen .served, by simp [finStep, hfree, r],
      ⟨⟨r, ?_, htaken.agrees⟩, hblob⟩⟩
    simp only [Shared.site, setFate_registry, Shared.serve, htaken.named, Function.update_self]
  | removeBad e actual => exact hf.elim
  | removeDup e same => exact hf.elim

end Uploader

def OfferPc.rank (idle : Nat) : OfferPc → Nat
  | .registry => 2 * idle + 22
  | .first => 2 * idle + 21
  | .cleanup todo _ => todo.length + 20
  | .probe => 19
  | .load _ => 18
  | .create => 17
  | .setLen _ => 16
  | .save => 15
  | .insert _ => 14
  | .finalize f _ => f.rank + 2
  | .reply _ => 1

/-- The offer may still find that too many pushes are in progress. -/
def OfferPc.Unplaced : OfferPc → Prop
  | .cleanup _ (.resumed _) | .finalize _ _ | .reply _ => False
  | _ => True

def Shared.Roomy (env : Env) (s : Shared) (k : String) : Prop :=
  s.pushes.lookup k = none → s.pushes.keys.length < env.push.maxConcurrent

theorem evict_keys (env : Env) (s : Shared) :
    (evict env s).pushes.keys.length ≤ s.pushes.keys.length := by
  have hdrop : ∀ (s : Shared) (id : String), (s.drop id).pushes.keys.length ≤
      s.pushes.keys.length := by
    intro s id
    unfold Shared.drop
    split
    · simp only [setFate_pushes, Shared.erase, AList.keys_erase]
      exact List.length_erase_le
    · exact Nat.le_refl _
  unfold evict
  induction stale env s generalizing s with
  | nil => exact Nat.le_refl _
  | cons id ids ih => exact Nat.le_trans (ih _) (hdrop s id)

theorem cleanupOps_length (ids : List String) : (cleanupOps ids).length = 2 * ids.length := by
  induction ids with
  | nil => rfl
  | cons id ids ih =>
    rw [cleanupOps, List.flatMap_cons, List.length_append, ← cleanupOps, ih, List.length_cons]
    simp only [List.length_cons, List.length_nil]
    omega

theorem cleanupOps_id {ids : List String} {op : CleanupOp} (h : op ∈ cleanupOps ids) :
    op.id ∈ ids := by
  obtain ⟨id, hid, hop⟩ := List.mem_flatMap.mp h
  rcases List.mem_pair.mp hop with rfl | rfl <;> exact hid

namespace Uploader

variable {env : Env} {u : Uploader} {s : Shared}

theorem Open.elsewhere {x y : Site} {todo : List Nat} (h : u.Open x todo)
    (hserved : y.served = x.served)
    (hentry : y.view.entry = x.view.entry) : u.Open y todo :=
  ⟨hserved.trans h.free, by rw [hentry]; exact h.entry, h.once⟩

variable (env) in
theorem Open.answered {x : Site} {a : Answer} (ha : a.Sound u.count) (h : u.Open x a.indices) :
    u.OfferAt env x (answerOffer a) ∧ ¬ (answerOffer a).Unplaced ∧
      ∀ idle, (answerOffer a).rank idle ≤ 7 := by
  unfold answerOffer
  split
  · rename_i hnil
    have hwanted : a.wanted = [] := List.isEmpty_iff.mp hnil
    have hindices := (Answer.indices_nil_iff ha).mpr hwanted
    rw [hindices] at h
    exact ⟨⟨hwanted, h⟩, not_false, fun idle => by simp [OfferPc.rank, Fin.rank]⟩
  · rename_i hsome
    have hwanted : a.wanted ≠ [] := fun h => hsome (List.isEmpty_iff.mpr h)
    exact ⟨⟨ha, .inr ⟨mt (Answer.indices_nil_iff ha).mp hwanted, h⟩⟩,
      not_false, fun idle => by simp [OfferPc.rank]⟩

theorem Open.ofEntry {x : Site} {e : PushEntry} {a : Answer} (hfree : x.served = none)
    (he : x.view.entry = some e) (hagree : u.offered.Agrees e.manifest)
    (ha : a.wanted = e.state.missingRanges u.count) : a.Sound u.count ∧ u.Open x a.indices := by
  have hcount : u.count < 2 ^ 32 := u.offered.chunks.count_lt
  have hsound := Answer.sound hcount ha
  refine ⟨hsound, hfree, ⟨e, he, hagree, fun j => Answer.mem_indices hcount ha⟩, ?_⟩
  exact hsound.ascending.imp fun hlt => Nat.ne_of_lt hlt

/-- One step brings the offer on, or it replies. -/
def OfferTurn (env : Env) (u : Uploader) (s : Shared) (pc : OfferPc) : Prop :=
  (∃ s' pc', offerStep env s true u.offered pc = (s', .go pc') ∧ u.OfferAt env (s'.site u.id) pc' ∧
      pc'.rank (stale env s').length < pc.rank (stale env s).length ∧
      (pc'.Unplaced → s'.Roomy env u.id)) ∨
    ∃ s' a, offerStep env s true u.offered pc = (s', .done (some a)) ∧ a.Sound u.count ∧
      u.Between env (s'.site u.id) a.indices

theorem Relies.cleanup_ne (h : u.Relies env s) {op : CleanupOp}
    (hop : op ∈ cleanupOps (stale env s)) :
    op.id ≠ u.id := fun hid => h.fresh.not_stale (hid ▸ cleanupOps_id hop)

theorem Relies.kept (h : u.Relies env s) :
    (evict env s).pushes.lookup u.id = s.pushes.lookup u.id := by
  rw [evict_lookup, if_neg h.fresh.not_stale]

theorem offerTurn_new (h : u.Relies env s) (hfree : (s.site u.id).served = none)
    (hnone : s.pushes.lookup u.id = none) (hroom : s.Roomy env u.id) :
    u.OfferTurn env s .first := by
  have hno : (evict env s).pushes.lookup u.offered.id = none := h.kept.trans hnone
  have hless : (evict env s).pushes.keys.length < env.push.maxConcurrent :=
    Nat.lt_of_le_of_lt (evict_keys env s) (hroom hnone)
  refine .inl ⟨evict env s, .cleanup (cleanupOps (stale env s)) .fresh, ?_,
    ⟨fun _ => h.cleanup_ne, ?_, hno⟩, ?_, fun _ _ => hless⟩
  · simp only [offerStep, hno, if_neg (Nat.not_le.mpr hless)]
  · rw [Shared.site, evict_registry]
    exact hfree
  · simp only [OfferPc.rank, cleanupOps_length]
    omega

theorem offerTurn_resumed (h : u.Relies env s) (hfree : (s.site u.id).served = none) {e : PushEntry}
    (he : s.pushes.lookup u.id = some e) (hagree : u.offered.Agrees e.manifest) :
    u.OfferTurn env s .first := by
  have hin : (evict env s).pushes.lookup u.offered.id = some e := h.kept.trans he
  obtain ⟨hroot, hlen, hsize⟩ := hagree
  let a : Answer := ⟨e.state.missingRanges u.offered.chunks.count, .found e.manifest e.gen⟩
  let s' := (evict env s).put u.offered.id (e.touch (evict env s).now)
  have hsame : ¬ (e.manifest.root ≠ u.offered.manifest.root ∨
      e.manifest.totalLen ≠ u.offered.manifest.totalLen ∨
      e.manifest.chunkSize ≠ u.offered.manifest.chunkSize) := by simp [hroot, hlen, hsize]
  have hentry : (s'.site u.id).view.entry = some (e.touch (evict env s).now) :=
    (put_lookup _ _ _ _).trans (if_pos rfl)
  have hfree : (s'.site u.id).served = none := by
    simp only [Shared.site, s', put_registry, evict_registry]
    exact hfree
  refine .inl ⟨s', .cleanup (cleanupOps (stale env s)) (.resumed a), ?_,
    ⟨fun _ => h.cleanup_ne, Open.ofEntry hfree hentry ⟨hroot, hlen, hsize⟩ rfl⟩,
    ?_, fun h => h.elim⟩
  · simp only [offerStep, hin, if_neg hsame, s', a]
  · simp only [OfferPc.rank, cleanupOps_length]
    omega

theorem offerTurn_cleaned {next : AfterCleanup}
    (hpc : u.OfferAt env (s.site u.id) (.cleanup [] next))
    (hroom : (OfferPc.cleanup [] next).Unplaced → s.Roomy env u.id) :
    u.OfferTurn env s (.cleanup [] next) := by
  cases next with
  | resumed a =>
    obtain ⟨-, hsound, hopen⟩ := hpc
    obtain ⟨hat, hplaced, hrank⟩ := hopen.answered env hsound
    refine .inl ⟨s, answerOffer a, rfl, hat, Nat.lt_of_le_of_lt (hrank _) ?_,
      fun h => absurd h hplaced⟩
    simp [OfferPc.rank]
  | overCap => exact hpc.elim
  | fresh => exact .inl ⟨s, .probe, rfl, hpc.2, by simp [OfferPc.rank], fun _ => hroom trivial⟩

theorem offerTurn_cleaning {op : CleanupOp} {todo : List CleanupOp} {next : AfterCleanup}
    (hpc : u.OfferAt env (s.site u.id) (.cleanup (op :: todo) next))
    (hroom : (OfferPc.cleanup (op :: todo) next).Unplaced → s.Roomy env u.id) :
    u.OfferTurn env s (.cleanup (op :: todo) next) := by
  have hless : ∀ idle idle',
      (OfferPc.cleanup todo next).rank idle < (OfferPc.cleanup (op :: todo) next).rank idle' := by
    simp [OfferPc.rank]
  refine .inl ⟨s.onSpool (op.apply s.spool), .cleanup todo next, rfl, ?_, hless _ _, ?_⟩
  · cases next with
    | resumed a =>
      exact ⟨fun op hop => hpc.1 op (List.mem_cons_of_mem _ hop),
        hpc.2.1, hpc.2.2.elsewhere rfl rfl⟩
    | overCap => exact hpc.elim
    | fresh => exact ⟨fun op hop => hpc.1 op (List.mem_cons_of_mem _ hop), hpc.2⟩
  · cases next with
    | resumed a => exact fun h => h.elim
    | _ => exact fun _ => hroom trivial

theorem offerTurn_load {len : Option Nat} (hpc : u.OfferAt env (s.site u.id) (.load len))
    (hroom : s.Roomy env u.id) : u.OfferTurn env s (.load len) := by
  have hnext : ∃ pc', offerStep env s true u.offered (.load len) = (s, .go pc') ∧
      (pc' = .create ∨ ∃ st, pc' = .insert st) := by
    simp only [offerStep, if_true]
    split
    · split
      · exact ⟨_, rfl, .inr ⟨_, rfl⟩⟩
      · exact ⟨_, rfl, .inl rfl⟩
    · exact ⟨_, rfl, .inl rfl⟩
  obtain ⟨pc', hstep, rfl | ⟨st, rfl⟩⟩ := hnext <;>
    exact .inl ⟨s, _, hstep, hpc, by simp [OfferPc.rank], fun _ => hroom⟩

theorem offerTurn_insert {st : ResumeState} (hpc : u.OfferAt env (s.site u.id) (.insert st))
    (hroom : s.Roomy env u.id) : u.OfferTurn env s (.insert st) := by
  obtain ⟨hfree, hnone⟩ := hpc
  have hno : s.pushes.lookup u.offered.id = none := hnone
  have hless : ¬ s.pushes.keys.length ≥ env.push.maxConcurrent := Nat.not_le.mpr (hroom hno)
  let e : PushEntry :=
    ⟨u.offered.manifest, u.offered.chunks, st, s.now, 0, s.history.nextGen, u.offered.geometry⟩
  let a : Answer :=
    ⟨st.missingRanges u.offered.chunks.count, .inserted u.offered.manifest s.history.nextGen⟩
  have hentry : ((s.open u.offered.id e).site u.id).view.entry = some e :=
    (put_lookup _ _ _ _).trans (if_pos rfl)
  obtain ⟨hsound, hopen⟩ :
      a.Sound u.count ∧ u.Open ((s.open u.offered.id e).site u.id) a.indices :=
    Open.ofEntry hfree hentry ⟨rfl, rfl, rfl⟩ rfl
  obtain ⟨hat, hplaced, hrank⟩ := hopen.answered env hsound
  refine .inl ⟨s.open u.offered.id e, answerOffer a, ?_, hat, Nat.lt_of_le_of_lt (hrank _) ?_,
    fun h => absurd h hplaced⟩
  · simp only [offerStep, hno, if_neg hless, e, a]
  · simp [OfferPc.rank]

theorem offerTurn_finalize (hu : u.Fitting env) (h : u.Relies env s) {f : Fin} {a : Answer}
    (hpc : u.OfferAt env (s.site u.id) (.finalize f a)) : u.OfferTurn env s (.finalize f a) := by
  obtain ⟨hnil, hf⟩ := hpc
  have hsound : a.Sound u.count := by
    rw [Answer.Sound, Answer.ranges, hnil]
    exact ⟨by simp, by simp, .nil⟩
  rcases finStep_turn hu h hf with ⟨s', f', hstep, hf', hless⟩ | ⟨s', hstep, hdone⟩
  · refine .inl ⟨s', .finalize f' a, ?_, ⟨hnil, hf'⟩,
      by simpa [OfferPc.rank] using hless, fun h => h.elim⟩
    simp only [offerStep]
    rw [show u.offered.id = u.id from rfl, hstep]
  · refine .inl ⟨s', .reply a, ?_, ⟨hsound, .inl ⟨(Answer.indices_nil_iff hsound).mpr hnil, hdone⟩⟩,
      by simp [OfferPc.rank], fun h => h.elim⟩
    simp only [offerStep]
    rw [show u.offered.id = u.id from rfl, hstep]

theorem offerStep_turn (hu : u.Fitting env) (h : u.Relies env s) {pc : OfferPc}
    (hpc : u.OfferAt env (s.site u.id) pc) (hroom : pc.Unplaced → s.Roomy env u.id) :
    u.OfferTurn env s pc := by
  cases pc with
  | registry =>
    have hno : s.registry u.offered.id = none := hpc.free
    exact .inl ⟨s, .first, by simp [offerStep, hno], hpc, by simp [OfferPc.rank],
      fun _ => hroom trivial⟩
  | first =>
    cases he : s.pushes.lookup u.id with
    | none => exact offerTurn_new h hpc.free he (hroom trivial)
    | some e => exact offerTurn_resumed h hpc.free he (hpc.agrees e he)
  | cleanup todo next =>
    cases todo with
    | nil => exact offerTurn_cleaned hpc hroom
    | cons op todo => exact offerTurn_cleaning hpc hroom
  | probe => exact .inl ⟨s, _, rfl, hpc, by simp [OfferPc.rank], fun _ => hroom trivial⟩
  | load len => exact offerTurn_load hpc (hroom trivial)
  | create => exact .inl ⟨_, _, rfl, hpc, by simp [OfferPc.rank], fun _ => hroom trivial⟩
  | setLen ino => exact .inl ⟨_, _, rfl, hpc, by simp [OfferPc.rank], fun _ => hroom trivial⟩
  | save => exact .inl ⟨_, _, rfl, hpc, by simp [OfferPc.rank], fun _ => hroom trivial⟩
  | insert st => exact offerTurn_insert hpc (hroom trivial)
  | finalize f a => exact offerTurn_finalize hu h hpc
  | reply a => exact .inr ⟨_, a, rfl, hpc⟩

end Uploader

def SlicePc.rank : SlicePc → Nat
  | .snapshot => 11
  | .write _ _ => 10
  | .mark _ => 9
  | .save _ _ _ => 8
  | .finalize f => f.rank + 2
  | .reply _ => 1
  | .registry => 0

namespace Uploader

variable {env : Env} {u : Uploader} {s : Shared} {i : Nat} {rest : List Nat}

theorem Open.marked {x : Site} {e e' : PushEntry} {y : Site} (h : u.Open x (i :: rest))
    (he : x.view.entry = some e)
    (hfits : e.state.Fits e.manifest e.chunks) (hserved : y.served = x.served)
    (hentry : y.view.entry = some e')
    (hsame : e'.manifest = e.manifest) (hstate : e'.state = (e.mark i).state) :
    u.Open y rest ∧ (remainingOf u.count (e.mark i).state.received = 0 ↔ rest = []) := by
  obtain ⟨hfree, ⟨e₀, he₀, hagree, htodo⟩, honce⟩ := h
  obtain rfl : e = e₀ := Option.some.inj (he.symm.trans he₀)
  obtain ⟨hnot, honce⟩ := List.nodup_cons.mp honce
  have hchunks : e.chunks.count = u.count := by
    rw [hagree.chunks e.geometry]
    rfl
  have hi : i < u.count := ((htodo i).mp List.mem_cons_self).1
  have hset : ∀ j, (e.mark i).state.isSet j = (e.state.isSet j || decide (i = j)) := by
    intro j
    have hmark : (e.mark i).state.isSet j =
        (e.state.isSet j || (decide (i = j) && decide (i < e.chunks.count))) :=
      hfits.mark_isSet i j
    simpa [hchunks, hi] using hmark
  have hrest : ∀ j, j ∈ rest ↔ j < u.count ∧ (e.mark i).state.isSet j = false := by
    intro j
    have hj := htodo j
    rw [hset, Bool.or_eq_false_iff, ← and_assoc, ← hj, List.mem_cons, decide_eq_false_iff_not]
    constructor
    · intro hin
      exact ⟨.inr hin, fun hij => hnot (hij ▸ hin)⟩
    · rintro ⟨rfl | hin, hne⟩
      · exact absurd rfl hne
      · exact hin
  refine ⟨⟨hserved.trans hfree, ⟨e', hentry, hsame ▸ hagree, fun j => by rw [hrest, hstate]⟩,
    honce⟩, ?_⟩
  have hle := (mark_fits (i := i) hfits).received_le
  have hcount : u.count < 2 ^ 32 := u.offered.chunks.count_lt
  rw [hchunks] at hle
  have hzero : remainingOf u.count (e.mark i).state.received = 0 ↔
      (e.mark i).state.isComplete e.chunks.count = true := by
    rw [hchunks, ResumeState.isComplete, decide_eq_true_eq, remainingOf]
    omega
  rw [hzero]
  constructor
  · intro hdone
    rw [List.eq_nil_iff_forall_not_mem]
    intro j hj
    obtain ⟨hlt, hclear⟩ := (hrest j).mp hj
    rw [(mark_fits hfits).isSet_of_complete hdone (hchunks ▸ hlt)] at hclear
    cases hclear
  · intro hnil
    refine (mark_fits hfits).complete_of_isSet fun j hj => ?_
    by_contra hclear
    have hin := (hrest j).mpr ⟨hchunks ▸ hj, by simpa using hclear⟩
    rw [hnil] at hin
    cases hin

/-- One step brings the slice on, or it is acknowledged. -/
def SliceTurn (env : Env) (u : Uploader) (s : Shared) (i : Nat) (rest : List Nat)
    (pc : SlicePc) : Prop :=
  (∃ s' pc', sliceStep env s true (u.slice i) pc = (s', .go pc') ∧
    u.SliceAt env (s'.site u.id) i rest pc' ∧ pc'.rank < pc.rank) ∨
    ∃ s' n, sliceStep env s true (u.slice i) pc = (s', .done (some n)) ∧
      u.Between env (s'.site u.id) rest

theorem sliceTurn_snapshot (hu : u.Fitting env) (hpc : u.Open (s.site u.id) (i :: rest)) :
    u.SliceTurn env s i rest .snapshot := by
  obtain ⟨e, he, hagree, htodo⟩ := hpc.entry
  obtain ⟨hi, hclear⟩ := (htodo i).mp List.mem_cons_self
  have hin : s.pushes.lookup (u.slice i).id = some e := he
  have hchunks : e.chunks = u.offered.chunks := hagree.chunks e.geometry
  have htaken : ¬ (env.push.allow e.manifest u.token = false ∨ i ≥ e.chunks.count) := by
    rw [hu.allowed _ hagree, hchunks]
    rintro (hdenied | hbeyond)
    · cases hdenied
    · exact Nat.not_le.mpr hi hbeyond
  obtain ⟨ls, hls⟩ := hu.decodes i hi
  rw [← hagree.1, ← hagree.2.1, ← hchunks] at hls
  let s' := s.put u.id (e.touch s.now)
  have hentry : (s'.site u.id).view.entry = some (e.touch s.now) :=
    (put_lookup _ _ _ _).trans (if_pos rfl)
  refine .inl ⟨s', .write ⟨e.manifest, e.chunks, e.gen⟩ ls, ?_, ⟨hchunks, hpc.free, ?_, hpc.once⟩,
    by simp [SlicePc.rank]⟩
  · simp only [sliceStep, hin]
    simp only [slice, if_neg htaken, hclear, hls]
    rfl
  · exact ⟨_, hentry, hagree, htodo⟩

theorem sliceTurn_mark (h : u.Relies env s) {snap : Snapshot}
    (hpc : u.SliceAt env (s.site u.id) i rest (.mark snap)) :
    u.SliceTurn env s i rest (.mark snap) := by
  obtain ⟨hsnap, hopen⟩ := hpc
  obtain ⟨e, he, -⟩ := hopen.entry
  have hin : s.pushes.lookup (u.slice i).id = some e := he
  have hcount : snap.chunks.count = u.count := by
    rw [hsnap]
    rfl
  have left : ∀ e', e'.manifest = e.manifest → e'.state = (e.mark i).state →
      u.Open ((s.put u.id e').site u.id) rest ∧
      (remainingOf u.count (e.mark i).state.received = 0 ↔ rest = []) :=
    fun e' hm hst =>
      hopen.marked he (h.serves e he).fits rfl ((put_lookup _ _ _ _).trans (if_pos rfl)) hm hst
  by_cases hflush : remainingOf u.count (e.mark i).state.received = 0 ∨ (e.mark i).dirtyMarks ≥ 16
  · obtain ⟨hrest, hzero⟩ := left (e.mark i).clean rfl rfl
    refine .inl ⟨_, .save snap (e.mark i).state (remainingOf u.count (e.mark i).state.received),
      ?_, ⟨hzero, hrest⟩,
      by simp [SlicePc.rank]⟩
    simp only [sliceStep, hin, hcount]
    exact if_pos hflush
  · obtain ⟨hrest, hzero⟩ := left (e.mark i) rfl rfl
    refine .inl ⟨_, .reply (remainingOf u.count (e.mark i).state.received), ?_,
      .inr ⟨mt hzero.mpr fun hno => hflush (.inl hno), hrest⟩, by simp [SlicePc.rank]⟩
    simp only [sliceStep, hin, hcount]
    exact if_neg hflush

theorem sliceTurn_save {snap : Snapshot} {st : ResumeState} {n : Nat}
    (hpc : u.SliceAt env (s.site u.id) i rest (.save snap st n)) :
    u.SliceTurn env s i rest (.save snap st n) := by
  obtain ⟨hzero, hopen⟩ := hpc
  by_cases hn : n = 0
  · have hnil := hzero.mp hn
    refine .inl ⟨s.onSpool (s.spool.save u.id st), .finalize .take,
      ?_, ⟨hnil, ?_⟩, by simp [SlicePc.rank, Fin.rank]⟩
    · simp only [sliceStep, if_true, if_pos hn]
      rfl
    · rw [hnil] at hopen
      exact hopen.elsewhere rfl rfl
  · refine .inl ⟨s.onSpool (s.spool.save u.id st), .reply n, ?_,
      .inr ⟨mt hzero.mpr hn, hopen.elsewhere rfl rfl⟩,
      by simp [SlicePc.rank]⟩
    simp only [sliceStep, if_true, if_neg hn]
    rfl

theorem sliceStep_turn (hu : u.Fitting env) (h : u.Relies env s) {pc : SlicePc}
    (hpc : u.SliceAt env (s.site u.id) i rest pc) :
    u.SliceTurn env s i rest pc := by
  cases pc with
  | snapshot => exact sliceTurn_snapshot hu hpc
  | registry => exact hpc.elim
  | write snap ls =>
    obtain ⟨hsnap, hopen⟩ := hpc
    obtain ⟨e, he, -⟩ := hopen.entry
    obtain ⟨-, ⟨f, hf, -⟩, -⟩ := h.serves e he
    obtain ⟨⟨ino, data⟩, hpart, -⟩ := Option.map_eq_some_iff.mp hf
    have hino : s.spool.part (u.slice i).id = some ino := (view_part hpart).1
    obtain ⟨sp, hsp⟩ : ∃ sp, s.spool.writePart (u.slice i).id ls = some sp :=
      ⟨_, by rw [Spool.writePart, hino, Option.map_some]⟩
    exact .inl
      ⟨s.onSpool sp, .mark snap, by simp [sliceStep, hsp], ⟨hsnap, hopen.elsewhere rfl rfl⟩,
      by simp [SlicePc.rank]⟩
  | mark snap => exact sliceTurn_mark h hpc
  | save snap st n => exact sliceTurn_save hpc
  | finalize f =>
    obtain ⟨hnil, hf⟩ := hpc
    rcases finStep_turn hu h hf with ⟨s', f', hstep, hf', hless⟩ | ⟨s', hstep, hdone⟩
    · exact .inl
        ⟨s', .finalize f',
          by simp only [sliceStep]; rw [show (u.slice i).id = u.id from rfl, hstep],
        ⟨hnil, hf'⟩, by simpa [SlicePc.rank] using hless⟩
    · exact .inl
        ⟨s', .reply 0, by simp only [sliceStep]; rw [show (u.slice i).id = u.id from rfl, hstep],
        .inl ⟨hnil, hdone⟩, by simp [SlicePc.rank]⟩
  | reply n => exact .inr ⟨s, n, rfl, hpc⟩

end Uploader

end Zblob

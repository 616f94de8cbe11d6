import Zblob.Server

/-!
One id of the spool, as the handlers that use it see it: the entry of the push, its part
and its sidecar. A handler has at most one role at an id. While an offer sets an id up, no
other handler may have a role there; slices of one push may share it with each other, with
a finalization and with the removal of an evicted push.
-/

set_option autoImplicit false

namespace Zblob

open ByteFile (Leaf setLen writeAll)

/-- The entry of an id, the inode and content of its part, and its sidecar if that loads. -/
structure View where
  entry : Option PushEntry
  part : Option (Nat × Bytes)
  saved : Option ResumeState

namespace View

def file (v : View) : Option Bytes := v.part.map Prod.snd

/-- Whatever an offer could resume from is backed. -/
def Trusted (bao : Bao) (v : View) : Prop :=
  ∀ st f m c, v.saved = some st → v.file = some f → st.Fits m c → f.length = m.totalLen.toNat →
    Backed bao m c st f

structure Serves (bao : Bao) (v : View) (e : PushEntry) : Prop where
  fits : e.state.Fits e.manifest e.chunks
  backed : ∃ f, v.file = some f ∧ Backed bao e.manifest e.chunks e.state f
  saved : ∀ st, v.saved = some st → st.Fits e.manifest e.chunks

structure Of (v : View) (m : Manifest) (c : TransferChunks) : Prop where
  geometry : m.chunks = .ok c
  entry : ∀ e, v.entry = some e → e.manifest = m ∧ e.chunks = c
  length : ∀ f, v.file = some f → f.length = m.totalLen.toNat
  saved : ∀ st, v.saved = some st → st.Fits m c

end View

/-- What a handler is doing at an id. -/
inductive Role where
  | load (o : Offered) (len : Option Nat)
  | create (o : Offered)
  | size (o : Offered) (ino : Nat)
  | save (o : Offered)
  | insert (o : Offered) (st : ResumeState)
  | write (snap : Snapshot) (index : Nat) (ls : List Leaf)
  | mark (snap : Snapshot) (index : Nat)
  | flush (snap : Snapshot) (st : ResumeState)
  | finalize
  | clean

namespace Role

def Setup : Role → Prop
  | .load _ _ | .create _ | .size _ _ | .save _ | .insert _ _ => True
  | _ => False

def snap : Role → Option Snapshot
  | .write snap _ _ | .mark snap _ | .flush snap _ => some snap
  | _ => none

structure Beside (r r' : Role) : Prop where
  left : ¬ r.Setup
  right : ¬ r'.Setup
  snaps : ∀ g g', r.snap = some g → r'.snap = some g' → g.manifest = g'.manifest ∧
    g.chunks = g'.chunks

def Ok (bao : Bao) (v : View) : Role → Prop
  | .load _ len => v.entry = none ∧ v.Trusted bao ∧
    ∀ n, len = some n → ∃ f, v.file = some f ∧ f.length = n
  | .create _ => v.entry = none
  | .size _ ino => v.entry = none ∧ ∃ f, v.part = some (ino, f)
  | .save o => v.entry = none ∧ ∃ f, v.file = some f ∧ f.length = o.manifest.totalLen.toNat
  | .insert o st => v.entry = none ∧ st.Fits o.manifest o.chunks ∧
    (∃ f, v.file = some f ∧ Backed bao o.manifest o.chunks st f) ∧
    ∀ st', v.saved = some st' → st'.Fits o.manifest o.chunks
  | .write g i ls => v.Of g.manifest g.chunks ∧ i < g.chunks.count ∧ ∃ encoded,
    bao.decodeSlice g.manifest.root g.manifest.totalLen.toNat (chunkRange (g.chunks.byteRange i))
      encoded = some ls
  | .mark g i => v.Of g.manifest g.chunks ∧ i < g.chunks.count ∧
    ∀ f, v.file = some f → ChunkVerified bao g.manifest g.chunks i (chunkOf g.chunks i f)
  | .flush g st => v.Of g.manifest g.chunks ∧ st.Fits g.manifest g.chunks ∧
    ∀ f, v.file = some f → Backed bao g.manifest g.chunks st f
  | .finalize => v.entry = none
  | .clean => v.entry = none

theorem Ok.entry {bao : Bao} {v : View} {r : Role} (h : r.Ok bao v) (hs : r.snap = none) :
    v.entry = none := by
  cases r with
  | create o => exact h
  | finalize => exact h
  | clean => exact h
  | write g i ls => cases hs
  | mark g i => cases hs
  | flush g st => cases hs
  | _ => exact h.1

theorem Ok.of {bao : Bao} {v : View} {r : Role} {g : Snapshot} (h : r.Ok bao v)
    (hs : r.snap = some g) :
    v.Of g.manifest g.chunks := by
  cases r with
  | write g' i ls => cases hs; exact h.1
  | mark g' i => cases hs; exact h.1
  | flush g' st => cases hs; exact h.1
  | _ => cases hs

theorem Setup.snap {r : Role} (h : r.Setup) : r.snap = none := by
  cases r with
  | load | create | size | save | insert => rfl
  | _ => exact h.elim

end Role

/-- What one step of a handler can do at an id, and the role it is in before and after.
`alone` says that no other handler has a role there. -/
inductive SlotMove (bao : Bao) (alone : Prop) : View → Option Role → View → Option Role → Prop where
  | same {v : View} {r : Option Role} : SlotMove bao alone v r v r
  | leave {v : View} {r : Option Role} (hr : ∀ o, r ≠ some (.save o)) :
    SlotMove bao alone v r v none
  | giveUp {v : View} {o : Offered} (ht : v.Trusted bao) :
    SlotMove bao alone v (some (.save o)) v none
  | touch {v : View} {e : PushEntry} {now : Nat} (he : v.entry = some e) :
    SlotMove bao alone v none { v with entry := some (e.touch now) } none
  | seen {v : View} {e : PushEntry} {now i : Nat} (he : v.entry = some e) (hi : i < e.chunks.count)
      (hset : e.state.isSet i = true) :
    SlotMove bao alone v none { v with entry := some (e.touch now) }
      (some (.mark ⟨e.manifest, e.chunks, e.gen⟩ i))
  | verified {v : View} {e : PushEntry} {now i : Nat} {encoded : Bytes} {ls : List Leaf}
      (he : v.entry = some e) (hi : i < e.chunks.count)
      (hd : bao.decodeSlice e.manifest.root e.manifest.totalLen.toNat
        (chunkRange (e.chunks.byteRange i)) encoded = some ls) :
    SlotMove bao alone v none { v with entry := some (e.touch now) }
      (some (.write ⟨e.manifest, e.chunks, e.gen⟩ i ls))
  | evict {v : View} {e : PushEntry} {r' : Option Role} (he : v.entry = some e)
      (hr' : r' = some .clean ∨ r' = none) : SlotMove bao alone v none { v with entry := none } r'
  | take {v : View} {e : PushEntry} (he : v.entry = some e) :
    SlotMove bao alone v none { v with entry := none } (some .finalize)
  | dropPart {v : View} {r : Role} {r' : Option Role} (hr : r = .clean ∨ r = .finalize)
      (hr' : r' = some r ∨ r' = none) : SlotMove bao alone v (some r) { v with part := none } r'
  | dropMeta {v : View} {r : Role} {r' : Option Role} (hr : r = .clean ∨ r = .finalize)
      (hr' : r' = some r ∨ r' = none) : SlotMove bao alone v (some r) { v with saved := none } r'
  | enter {v : View} {o : Offered} {len : Option Nat} (ha : alone) (he : v.entry = none)
      (ht : v.Trusted bao) (hlen : len = none ∨ len = v.file.map List.length) :
    SlotMove bao alone v none v (some (.load o len))
  | resume {v : View} {o : Offered} {st : ResumeState} (hst : v.saved = some st)
      (hfits : st.Fits o.manifest o.chunks) :
    SlotMove bao alone v (some (.load o (some o.manifest.totalLen.toNat))) v (some (.insert o st))
  | restart {v : View} {o : Offered} {len : Option Nat} :
    SlotMove bao alone v (some (.load o len)) v (some (.create o))
  | create {v : View} {o : Offered} {ino : Nat} :
    SlotMove bao alone v (some (.create o)) { v with part := some (ino, []) } (some (.size o ino))
  | size {v : View} {o : Offered} {ino : Nat} {f : Bytes} (hp : v.part = some (ino, f)) :
    SlotMove bao alone v (some (.size o ino))
      { v with part := some (ino, setLen f o.manifest.totalLen.toNat) } (some (.save o))
  | save {v : View} {o : Offered} :
    SlotMove bao alone v (some (.save o))
      { v with saved := some (ResumeState.fresh o.manifest o.chunks.count) }
      (some (.insert o (ResumeState.fresh o.manifest o.chunks.count)))
  | insert {v : View} {o : Offered} {st : ResumeState} {e : PushEntry}
      (hm : e.manifest = o.manifest) (hc : e.chunks = o.chunks) (hst : e.state = st) :
    SlotMove bao alone v (some (.insert o st)) { v with entry := some e } none
  | write {v : View} {g : Snapshot} {i ino : Nat} {ls : List Leaf} {f : Bytes}
      (hp : v.part = some (ino, f)) :
    SlotMove bao alone v (some (.write g i ls)) { v with part := some (ino, writeAll f ls) }
      (some (.mark g i))
  | mark {v : View} {g : Snapshot} {i : Nat} {e : PushEntry} (he : v.entry = some e) :
    SlotMove bao alone v (some (.mark g i)) { v with entry := some (e.mark i) } none
  | flush {v : View} {g : Snapshot} {i : Nat} {e : PushEntry} (he : v.entry = some e) :
    SlotMove bao alone v (some (.mark g i)) { v with entry := some (e.mark i).clean }
      (some (.flush g (e.mark i).state))
  | saved {v : View} {g : Snapshot} {st : ResumeState} :
    SlotMove bao alone v (some (.flush g st)) { v with saved := some st } none

section Lemmas

variable {bao : Bao} {v v' : View}

theorem View.Serves.of {e : PushEntry} (h : v.Serves bao e) (he : v.entry = some e) :
    v.Of e.manifest e.chunks where
  geometry := e.geometry
  entry e' he' := by
    obtain rfl : e = e' := Option.some.inj (he.symm.trans he')
    exact ⟨rfl, rfl⟩
  length f hf := by
    obtain ⟨f', hf', hb⟩ := h.backed
    obtain rfl : f' = f := Option.some.inj (hf'.symm.trans hf)
    exact hb.1
  saved := h.saved

theorem View.Serves.entry {e e' : PushEntry} (h : v.Serves bao e) (hm : e'.manifest = e.manifest)
    (hc : e'.chunks = e.chunks) (hfits : e'.state.Fits e.manifest e.chunks)
    (hb : ∀ f, v.file = some f → Backed bao e.manifest e.chunks e.state f →
      Backed bao e.manifest e.chunks e'.state f) :
    View.Serves bao { v with entry := some e' } e' where
  fits := by rw [hm, hc]; exact hfits
  backed := by
    obtain ⟨f, hf, hold⟩ := h.backed
    rw [hm, hc]
    exact ⟨f, hf, hb f hf hold⟩
  saved := by rw [hm, hc]; exact h.saved

theorem View.Of.noEntry {m : Manifest} {c : TransferChunks} (h : v.Of m c) :
    View.Of { v with entry := none } m c :=
  ⟨h.geometry, fun _ he => (by cases he), h.length, h.saved⟩

theorem View.Of.entry_of {m : Manifest} {c : TransferChunks} {e e' : PushEntry} (h : v.Of m c)
    (he : v.entry = some e) (hm : e'.manifest = e.manifest) (hc : e'.chunks = e.chunks) :
    View.Of { v with entry := some e' } m c := by
  refine ⟨h.geometry, fun e'' he'' => ?_, h.length, h.saved⟩
  obtain rfl : e' = e'' := Option.some.inj he''
  obtain ⟨h1, h2⟩ := h.entry e he
  exact ⟨hm.trans h1, hc.trans h2⟩

theorem Holds.writeAll_keeps {m : Manifest} {c : TransferChunks} {has : Nat → Bool} {f : Bytes}
    {i : Nat} {encoded : Bytes} {ls : List Leaf} (laws : bao.Laws) (hc : m.chunks = .ok c)
    (hi : i < c.count)
    (hd : bao.decodeSlice m.root m.totalLen.toNat (chunkRange (c.byteRange i)) encoded = some ls)
    (h : Holds bao m c has f) : Holds bao m c has (writeAll f ls) :=
  h.write laws hc hi hd fun _ _ hj => .inl hj

theorem ResumeState.Fits.backed_empty {m : Manifest} {c : TransferChunks}
    {st : ResumeState} (hfits : st.Fits m c)
    {f : Bytes} (hlen : f.length = m.totalLen.toNat) (hnil : f = []) : Backed bao m c st f := by
  refine ⟨hlen, fun i hi _ => ?_⟩
  have hz : c.totalLen.toNat = 0 := by
    rw [(Manifest.chunks_ok hfits.geometry).2, ← hlen, hnil]
    rfl
  rw [c.count_eq_zero_iff.mpr hz] at hi
  omega

theorem mark_fits {e : PushEntry} {i : Nat} (h : e.state.Fits e.manifest e.chunks) :
    (e.mark i).state.Fits e.manifest e.chunks := h.mark_fits i

theorem mark_backed {e : PushEntry} {i : Nat} {f : Bytes} (hfits : e.state.Fits e.manifest e.chunks)
    (hb : Backed bao e.manifest e.chunks e.state f)
    (hv : ChunkVerified bao e.manifest e.chunks i (chunkOf e.chunks i f)) :
    Backed bao e.manifest e.chunks (e.mark i).state f := by
  refine ⟨hb.1, fun j hj hset => ?_⟩
  have hmark : (e.mark i).state.isSet j =
      (e.state.isSet j || (decide (i = j) && decide (i < e.chunks.count))) :=
    hfits.mark_isSet i j
  rw [hmark, Bool.or_eq_true, Bool.and_eq_true] at hset
  rcases hset with hset | hset
  · exact hb.2 j hj hset
  · obtain rfl : i = j := of_decide_eq_true hset.1
    exact hv

/-- What the entry of an id needs, through any step of a handler in its role. -/
theorem SlotMove.serves {alone : Prop} {r r' : Option Role} (laws : bao.Laws)
    (h : SlotMove bao alone v r v' r') (hv : ∀ e, v.entry = some e → v.Serves bao e)
    (hr : ∀ x, r = some x → x.Ok bao v) : ∀ e, v'.entry = some e → v'.Serves bao e := by
  -- a handler that keeps the entry out of the map
  have out : ∀ {x : Role}, r = some x → x.snap = none → v'.entry = v.entry →
      ∀ e, v'.entry = some e → v'.Serves bao e := by
    intro x hx hs hsame e he
    rw [hsame, (hr x hx).entry hs] at he
    cases he
  have touched : ∀ {e : PushEntry} {now : Nat}, v.entry = some e →
      ∀ e', some (e.touch now) = some e' →
      View.Serves bao { v with entry := some (e.touch now) } e' := by
    intro e now he e' he'
    cases he'
    exact (hv e he).entry rfl rfl (hv e he).fits fun f _ hb => hb
  cases h with
  | same => exact hv
  | leave => exact hv
  | giveUp => exact hv
  | touch he => exact touched he
  | seen he => exact touched he
  | verified he => exact touched he
  | evict => exact fun _ he => by cases he
  | take => exact fun _ he => by cases he
  | dropPart hx => rcases hx with rfl | rfl <;> exact out rfl rfl rfl
  | dropMeta hx => rcases hx with rfl | rfl <;> exact out rfl rfl rfl
  | enter => exact hv
  | resume => exact hv
  | restart => exact hv
  | create => exact out rfl rfl rfl
  | size => exact out rfl rfl rfl
  | save => exact out rfl rfl rfl
  | @insert o st e hm hc hst =>
    obtain ⟨-, hfits, hb, hsaved⟩ := hr _ rfl
    intro e' he'
    cases he'
    subst hst
    exact ⟨by rw [hm, hc]; exact hfits, by rw [hm, hc]; exact hb, by rw [hm, hc]; exact hsaved⟩
  | @write g i ino ls f hp =>
    obtain ⟨hof, hi, encoded, hd⟩ := hr _ rfl
    intro e he
    obtain ⟨hm, hc⟩ := hof.entry e he
    obtain ⟨hfits, ⟨f', hf', hb⟩, hsaved⟩ := hv e he
    obtain rfl : f = f' := by simpa [View.file, hp] using hf'
    refine ⟨hfits, ⟨_, rfl, ?_⟩, hsaved⟩
    rw [← hm, ← hc] at hd
    rw [← hc] at hi
    exact hb.writeAll_keeps laws hfits.geometry hi hd
  | @mark g i e he =>
    obtain ⟨hof, hi, hver⟩ := hr _ rfl
    obtain ⟨hm, hc⟩ := hof.entry e he
    intro e' he'
    cases he'
    refine (hv e he).entry rfl rfl (mark_fits (hv e he).fits) fun f hf hb => ?_
    exact mark_backed (hv e he).fits hb (by rw [hm, hc]; exact hver f hf)
  | @flush g i e he =>
    obtain ⟨hof, hi, hver⟩ := hr _ rfl
    obtain ⟨hm, hc⟩ := hof.entry e he
    intro e' he'
    cases he'
    refine (hv e he).entry rfl rfl (mark_fits (hv e he).fits) fun f hf hb => ?_
    exact mark_backed (hv e he).fits hb (by rw [hm, hc]; exact hver f hf)
  | @saved g st =>
    obtain ⟨hof, hfits, -⟩ := hr _ rfl
    intro e he
    obtain ⟨hm, hc⟩ := hof.entry e he
    obtain ⟨h1, h2, -⟩ := hv e he
    refine ⟨h1, h2, fun st' hst' => ?_⟩
    cases hst'
    rw [hm, hc]
    exact hfits

theorem SlotMove.self {alone : Prop} {r r' : Option Role} (laws : bao.Laws)
    (h : SlotMove bao alone v r v' r') (hv : ∀ e, v.entry = some e → v.Serves bao e)
    (hr : ∀ x, r = some x → x.Ok bao v) : ∀ x, r' = some x → x.Ok bao v' := by
  have dropped : ∀ {x : Role} {w : View}, r = some x → x = .clean ∨ x = .finalize →
      r' = some x ∨ r' = none → w.entry = v.entry → ∀ y, r' = some y → y.Ok bao w := by
    rintro x w hx hkind hr' hsame y rfl
    obtain rfl : y = x := by simpa using hr'
    have hout := hr y hx
    rcases hkind with rfl | rfl
    · exact hsame.trans hout
    · exact hsame.trans hout
  intro x hx
  cases h with
  | same => exact hr x hx
  | leave => cases hx
  | giveUp => cases hx
  | touch => cases hx
  | @seen e now i he hi hset =>
    cases hx
    have hs := hv e he
    refine ⟨(hs.of he).entry_of he rfl rfl, hi, fun f hf => ?_⟩
    obtain ⟨f', hf', hb⟩ := hs.backed
    obtain rfl : f' = f := Option.some.inj (hf'.symm.trans hf)
    exact hb.2 i hi hset
  | @verified e now i encoded ls he hi hd =>
    cases hx
    exact ⟨((hv e he).of he).entry_of he rfl rfl, hi, encoded, hd⟩
  | evict he hr' =>
    rw [hx] at hr'
    obtain rfl : x = .clean := by simpa using hr'
    rfl
  | take =>
    cases hx
    rfl
  | dropPart hkind hr' => exact dropped (w := { v with part := none }) rfl hkind hr' rfl x hx
  | dropMeta hkind hr' => exact dropped (w := { v with saved := none }) rfl hkind hr' rfl x hx
  | enter ha he ht hlen =>
    cases hx
    refine ⟨he, ht, fun n hn => ?_⟩
    rcases hlen with rfl | rfl
    · cases hn
    · exact Option.map_eq_some_iff.mp hn
  | resume hst hfits =>
    cases hx
    obtain ⟨hno, ht, hlen⟩ := hr _ rfl
    obtain ⟨f, hf, hl⟩ := hlen _ rfl
    refine ⟨hno, hfits, ⟨f, hf, ht _ f _ _ hst hf hfits hl⟩, fun st' hst' => ?_⟩
    obtain rfl := Option.some.inj (hst.symm.trans hst')
    exact hfits
  | restart =>
    cases hx
    exact (hr _ rfl).1
  | create =>
    cases hx
    exact ⟨hr _ rfl, [], rfl⟩
  | size hp =>
    cases hx
    exact ⟨(hr _ rfl).1, _, rfl, ByteFile.setLen_length _ _⟩
  | @save o =>
    cases hx
    obtain ⟨hno, f, hf, hlen⟩ := hr _ rfl
    refine ⟨hno, ResumeState.fresh_fits o.geometry, ⟨f, hf, backed_fresh o.geometry hlen⟩, ?_⟩
    intro st hst
    cases hst
    exact ResumeState.fresh_fits o.geometry
  | insert => cases hx
  | @write g i ino ls f hp =>
    cases hx
    obtain ⟨hof, hi, encoded, hd⟩ := hr _ rfl
    have hlen : f.length = g.manifest.totalLen.toNat := hof.length f (by simp [View.file, hp])
    -- nothing is claimed but the chunk just written
    have hnone : Holds bao g.manifest g.chunks (fun _ => false) f := holds_none hlen fun _ _ => rfl
    have hw : Holds bao g.manifest g.chunks (fun j => decide (j = i)) (writeAll f ls) :=
      hnone.write laws hof.geometry hi hd fun j _ hj => .inr (of_decide_eq_true hj)
    refine ⟨⟨hof.geometry, hof.entry, fun f' hf' => ?_, hof.saved⟩, hi, fun f' hf' => ?_⟩
    · cases hf'
      exact hw.1
    · cases hf'
      exact hw.2 i hi (by simp)
  | mark => cases hx
  | @flush g i e he =>
    cases hx
    obtain ⟨hof, hi, hver⟩ := hr _ rfl
    obtain ⟨hm, hc⟩ := hof.entry e he
    have hs := hv e he
    refine ⟨hof.entry_of he rfl rfl, ?_, fun f hf => ?_⟩
    · rw [← hm, ← hc]
      exact mark_fits hs.fits
    · obtain ⟨f', hf', hb⟩ := hs.backed
      obtain rfl : f' = f := Option.some.inj (hf'.symm.trans hf)
      rw [← hm, ← hc]
      exact mark_backed hs.fits hb (by rw [hm, hc]; exact hver f' hf)
  | saved => cases hx

theorem Role.Ok.carry {u : Role} {g : Snapshot} (hu : u.Ok bao v) (hs : u.snap = some g)
    (hof : v'.Of g.manifest g.chunks)
    (hfile : ∀ f', v'.file = some f' → ∃ f, v.file = some f ∧ ∀ has : Nat → Bool,
      Holds bao g.manifest g.chunks has f → Holds bao g.manifest g.chunks has f') :
      u.Ok bao v' := by
  cases u with
  | write g' i ls =>
    cases hs
    exact ⟨hof, hu.2⟩
  | mark g' i =>
    cases hs
    refine ⟨hof, hu.2.1, fun f' hf' => ?_⟩
    obtain ⟨f, hf, hcarry⟩ := hfile f' hf'
    have hone : Holds bao g.manifest g.chunks (fun j => decide (j = i)) f := by
      refine ⟨hu.1.length f hf, fun j _ hj => ?_⟩
      obtain rfl : j = i := of_decide_eq_true hj
      exact hu.2.2 f hf
    exact (hcarry _ hone).2 i hu.2.1 (by simp)
  | flush g' st =>
    cases hs
    refine ⟨hof, hu.2.1, fun f' hf' => ?_⟩
    obtain ⟨f, hf, hcarry⟩ := hfile f' hf'
    exact hcarry _ (hu.2.2 f hf)
  | _ => cases hs

theorem Role.Ok.beside_entry {u : Role} {e : PushEntry} (hu : u.Ok bao v) (he : v.entry = some e) :
    ∃ g, u.snap = some g ∧ e.manifest = g.manifest ∧ e.chunks = g.chunks := by
  cases hs : u.snap with
  | none =>
    rw [hu.entry hs] at he
    cases he
  | some g => exact ⟨g, rfl, (hu.of hs).entry e he⟩

theorem Role.Ok.outside {u : Role} (hu : u.Ok bao v) (hs : u.snap = none) (hnot : ¬ u.Setup)
    (he : v'.entry = v.entry) : u.Ok bao v' := by
  have hout := hu.entry hs
  cases u with
  | finalize => exact he.trans hout
  | clean => exact he.trans hout
  | write | mark | flush => cases hs
  | _ => exact absurd trivial hnot

theorem Role.snap_not_setup {u : Role} {g : Snapshot} (hs : u.snap = some g) : ¬ u.Setup := by
  intro h
  rw [h.snap] at hs
  cases hs

theorem Role.Ok.entered {u : Role} {e e' : PushEntry} (hu : u.Ok bao v) (he : v.entry = some e)
    (hm : e'.manifest = e.manifest) (hc : e'.chunks = e.chunks) :
    u.Ok bao { v with entry := some e' } := by
  obtain ⟨g, hs, -⟩ := hu.beside_entry he
  exact hu.carry hs ((hu.of hs).entry_of he hm hc) fun f hf => ⟨f, hf, fun _ h => h⟩

theorem Role.Ok.evicted {u : Role} {e : PushEntry} (hu : u.Ok bao v) (he : v.entry = some e) :
    u.Ok bao { v with entry := none } := by
  obtain ⟨g, hs, -⟩ := hu.beside_entry he
  exact hu.carry hs (hu.of hs).noEntry fun f hf => ⟨f, hf, fun _ h => h⟩

theorem Role.Ok.beside_slice {u x : Role} {e : PushEntry} (hu : u.Ok bao v) (he : v.entry = some e)
    (hx : x.snap = some ⟨e.manifest, e.chunks, e.gen⟩) : x.Beside u := by
  obtain ⟨g, hs, hm, hc⟩ := hu.beside_entry he
  refine ⟨Role.snap_not_setup hx, Role.snap_not_setup hs, fun g1 g2 h1 h2 => ?_⟩
  obtain rfl := Option.some.inj (hx.symm.trans h1)
  obtain rfl := Option.some.inj (hs.symm.trans h2)
  exact ⟨hm, hc⟩

theorem Role.Ok.beside_outside {u x : Role} {e : PushEntry} (hu : u.Ok bao v)
    (he : v.entry = some e)
    (hx : ¬ x.Setup) (hnone : x.snap = none) : x.Beside u := by
  obtain ⟨g, hs, -⟩ := hu.beside_entry he
  refine ⟨hx, Role.snap_not_setup hs, fun g1 g2 h1 _ => ?_⟩
  rw [hnone] at h1
  cases h1

theorem Role.Beside.keeps {u x y : Role} (h : x.Beside u) (hs : y.snap = x.snap) (hn : ¬ y.Setup) :
    y.Beside u :=
  ⟨hn, h.right, by rw [hs]; exact h.snaps⟩

theorem Role.Ok.removed {u : Role} (hu : u.Ok bao v) (hnot : ¬ u.Setup) (he : v'.entry = v.entry)
    (hfile : ∀ f, v'.file = some f → v.file = some f)
    (hsaved : ∀ st, v'.saved = some st → v.saved = some st) :
    u.Ok bao v' := by
  cases hs : u.snap with
  | some g =>
    have hof := hu.of hs
    refine hu.carry hs ⟨hof.geometry, ?_, ?_, ?_⟩ fun f hf => ⟨f, hfile f hf, fun _ h => h⟩
    · rw [he]
      exact hof.entry
    · exact fun f hf => hof.length f (hfile f hf)
    · exact fun st hst => hof.saved st (hsaved st hst)
  | none => exact hu.outside hs hnot he

theorem Role.Ok.written {u : Role} {g : Snapshot} {i ino : Nat} {ls : List Leaf}
    {f : Bytes} (laws : bao.Laws)
    (hu : u.Ok bao v) (hw : (Role.write g i ls).Ok bao v) (hb : (Role.write g i ls).Beside u)
    (hp : v.part = some (ino, f)) : u.Ok bao { v with part := some (ino, writeAll f ls) } := by
  obtain ⟨hof, hi, encoded, hd⟩ := hw
  cases hs : u.snap with
  | some g' =>
    obtain ⟨hm, hc⟩ := hb.snaps g g' rfl hs
    have hof' := hu.of hs
    rw [hm, hc] at hd hof
    rw [hc] at hi
    have hkeep : ∀ has : Nat → Bool, Holds bao g'.manifest g'.chunks has f →
        Holds bao g'.manifest g'.chunks has (writeAll f ls) :=
      fun has h => h.writeAll_keeps laws hof.geometry hi hd
    have hnone : Holds bao g'.manifest g'.chunks (fun _ => false) f :=
      holds_none (hof.length f (by simp [View.file, hp])) fun _ _ => rfl
    refine hu.carry hs ⟨hof'.geometry, hof'.entry, fun f' hf' => ?_, hof'.saved⟩ fun f' hf' => ?_
    · cases hf'
      exact (hkeep _ hnone).1
    · cases hf'
      exact ⟨f, by simp [View.file, hp], hkeep⟩
  | none => exact hu.outside hs hb.right rfl

theorem Role.Ok.saved {u : Role} {g : Snapshot} {st : ResumeState} (hu : u.Ok bao v)
    (hw : (Role.flush g st).Ok bao v) (hb : (Role.flush g st).Beside u) :
    u.Ok bao { v with saved := some st } := by
  obtain ⟨hof, hfits, -⟩ := hw
  cases hs : u.snap with
  | some g' =>
    obtain ⟨hm, hc⟩ := hb.snaps g g' rfl hs
    have hof' := hu.of hs
    refine hu.carry hs ⟨hof'.geometry, hof'.entry, hof'.length, fun st' hst' => ?_⟩
      fun f hf => ⟨f, hf, fun _ h => h⟩
    cases hst'
    rw [← hm, ← hc]
    exact hfits
  | none => exact hu.outside hs hb.right rfl

/-- Every other handler at the id may rely on its role as before. -/
theorem SlotMove.other {alone : Prop} {r r' : Option Role} (laws : bao.Laws)
    (h : SlotMove bao alone v r v' r') (hr : ∀ x, r = some x → x.Ok bao v) {u : Role}
    (hu : u.Ok bao v) (hb : ∀ x, r = some x → x.Beside u) (ha : ¬ alone) :
    u.Ok bao v' ∧ ∀ x, r' = some x → x.Beside u := by
  have setup : ∀ {x : Role}, r = some x → x.Setup → u.Ok bao v' ∧ ∀ x, r' = some x → x.Beside u :=
    fun hx hs => absurd hs (hb _ hx).left
  have dropped : ∀ {x : Role}, r = some x → r' = some x ∨ r' = none →
      ∀ y, r' = some y → y.Beside u := by
    rintro x hx hr' y rfl
    obtain rfl : y = x := by simpa using hr'
    exact hb y hx
  cases h with
  | same => exact ⟨hu, hb⟩
  | leave => exact ⟨hu, fun _ hx => by cases hx⟩
  | giveUp => exact ⟨hu, fun _ hx => by cases hx⟩
  | touch he => exact ⟨hu.entered he rfl rfl, fun _ hx => by cases hx⟩
  | seen he =>
    refine ⟨hu.entered he rfl rfl, fun _ hx => ?_⟩
    cases hx
    exact hu.beside_slice he rfl
  | verified he =>
    refine ⟨hu.entered he rfl rfl, fun _ hx => ?_⟩
    cases hx
    exact hu.beside_slice he rfl
  | evict he hr' =>
    refine ⟨hu.evicted he, fun x hx => ?_⟩
    rw [hx] at hr'
    obtain rfl : x = .clean := by simpa using hr'
    exact hu.beside_outside he id rfl
  | take he =>
    refine ⟨hu.evicted he, fun _ hx => ?_⟩
    cases hx
    exact hu.beside_outside he id rfl
  | dropPart _ hr' =>
    exact ⟨hu.removed (hb _ rfl).right rfl (fun _ h => by cases h) (fun _ h => h), dropped rfl hr'⟩
  | dropMeta _ hr' =>
    exact ⟨hu.removed (hb _ rfl).right rfl (fun _ h => h) (fun _ h => by cases h), dropped rfl hr'⟩
  | enter hal => exact absurd hal ha
  | resume => exact setup rfl trivial
  | restart => exact setup rfl trivial
  | create => exact setup rfl trivial
  | size => exact setup rfl trivial
  | save => exact setup rfl trivial
  | insert => exact setup rfl trivial
  | write hp =>
    refine ⟨hu.written laws (hr _ rfl) (hb _ rfl) hp, fun x hx => ?_⟩
    cases hx
    exact (hb _ rfl).keeps rfl id
  | mark he => exact ⟨hu.entered he rfl rfl, fun _ hx => by cases hx⟩
  | flush he =>
    refine ⟨hu.entered he rfl rfl, fun _ hx => ?_⟩
    cases hx
    exact (hb _ rfl).keeps rfl id
  | saved => exact ⟨hu.saved (hr _ rfl) (hb _ rfl), fun _ hx => by cases hx⟩

/-- What an offer could resume from stays backed, but for the moment between the sizing of
a fresh part and the save of its sidecar. -/
theorem SlotMove.trusted {alone : Prop} {r r' : Option Role} (laws : bao.Laws)
    (h : SlotMove bao alone v r v' r') (hr : ∀ x, r = some x → x.Ok bao v)
    (hq : (∃ o, r = some (.save o)) ∨ v.Trusted bao) (hno : ∀ o, r' ≠ some (.save o)) :
    v'.Trusted bao := by
  have before : (∀ o, r ≠ some (.save o)) → v.Trusted bao := by
    intro hne
    rcases hq with ⟨o, ho⟩ | ht
    · exact absurd ho (hne o)
    · exact ht
  cases h with
  | same => exact before hno
  | leave hne => exact before hne
  | giveUp ht => exact ht
  | dropPart => exact fun st f m c _ hf => by cases hf
  | dropMeta => exact fun st f m c hst => by cases hst
  | enter ha he ht => exact ht
  | create =>
    intro st f m c _ hf hfits hlen
    cases hf
    exact hfits.backed_empty hlen rfl
  | @size o => exact absurd rfl (hno o)
  | @save o =>
    intro st f m c hst hf hfits hlen
    cases hst
    refine holds_none hlen fun i _ => ?_
    exact ResumeState.fresh_isSet o.geometry i
  | @write g i ino ls f hp =>
    obtain ⟨hof, hi, encoded, hd⟩ := hr _ rfl
    intro st f' m c hst hf' hfits hlen'
    cases hf'
    have hfile : v.file = some f := by simp [View.file, hp]
    obtain ⟨hgeo, rfl⟩ := (hof.saved st hst).unique hfits
    have hold :=
      before nofun st f g.manifest g.chunks hst hfile (hof.saved st hst) (hof.length f hfile)
    exact (hold.writeAll_keeps laws hof.geometry hi hd).of_geometry hgeo
  | @saved g st =>
    obtain ⟨hof, hfits, hback⟩ := hr _ rfl
    intro st' f m c hst' hf hfits' hlen
    cases hst'
    obtain ⟨hgeo, rfl⟩ := hfits.unique hfits'
    exact (hback f hf).of_geometry hgeo
  | _ => exact before nofun

end Lemmas

end Zblob

import Zblob.Gc
import Zblob.Serving

/-!
A server whose store is swept: the snapshots it has registered are handed to the sweep as
extra roots, and their indices may be in the same store.
-/

set_option autoImplicit false

namespace Zblob

structure TaggedServer where
  server : TreeServer
  tags : TagState

inductive HoldOp where
  | register (index : TreeIndex) (fails : Nat → Bool)
  | unregister (id : String)
  | tag (op : TagOp)
  | sweep (reads : TagReads) (io : SweepIo)

section Ops

variable [Wire TagRecord] [Wire TreeIndex] (hash : Bytes → Hash)

/-- A sweep of the server's store that is given every registered index; reading the temp
tags prunes their registry. -/
def TaggedServer.sweep (reads : TagReads) (io : SweepIo) (s : TaggedServer) :
    Result GcStats × TaggedServer :=
  let swept := Zblob.sweep reads io s.server.store s.tags.dir s.tags.temps s.server.registered
  let temps := match s.tags.dir.liveSet reads with
    | .ok _ => s.tags.temps.liveSet.1
    | .error _ => s.tags.temps
  (swept.1, ⟨{ s.server with store := swept.2 }, { s.tags with temps := temps }⟩)

def TaggedServer.apply (op : HoldOp) (s : TaggedServer) : TaggedServer :=
  match op with
  | .register index fails => { s with server := (s.server.register hash fails index).2 }
  | .unregister id => { s with server := s.server.unregister id }
  | .tag op => { s with tags := s.tags.apply op }
  | .sweep reads io => (s.sweep reads io).2

end Ops

def tagOps (ops : List HoldOp) : List TagOp :=
  ops.filterMap fun
    | .tag op => some op
    | _ => none

section Needs

variable [Wire TreeIndex] [Wire IndexDescriptor]

def Sample.pieces (sample : Sample) : List Hash :=
  if sample.encoding = encIndexDesc then
    match decode IndexDescriptor sample.payload with
    | .ok desc => desc.indexChunks.map ChunkRef.hash
    | .error _ => []
  else []

/-- Everything a client needs for the registered and the tagged snapshots is in the store. -/
structure Fetchable (s : TaggedServer) (r : Roots) : Prop where
  chunks : ∀ index ∈ s.server.registered, ∀ h ∈ index.neededChunks, s.server.store.has h = true
  pieces : ∀ id sample, s.server.indexReply id = some sample → ∀ h ∈ sample.pieces,
    s.server.store.has h = true
  tagged : ∀ name index, r.tagged name = some index → ∀ h ∈ index.neededChunks,
    s.server.store.has h = true

def PiecesLive (s : TaggedServer) (r : Roots) : Prop :=
  ∀ id sample, s.server.indexReply id = some sample → ∀ h ∈ sample.pieces,
    r.Live s.server.registered h

end Needs

section Tracked

variable [Wire TagRecord]

theorem Tracked.retain {s : TagState} {r : Roots} (h : Tracked s r) :
    Tracked { s with temps := s.temps.liveSet.1 } r :=
  ⟨h.valid, h.files, h.records, h.held, h.next, h.numbered, h.distinct,
    fun _ _ hm => mem_retain h hm⟩

/-- No operation of a server comes between the tags and their roots. -/
theorem TaggedServer.tracked [Wire TreeIndex] {hash : Bytes → Hash}
    {s : TaggedServer} {r : Roots} (h : Tracked s.tags r) (ops : List HoldOp) :
    Tracked (Runs.run (TaggedServer.apply hash) ops s).tags
      (Runs.run Roots.apply (tagOps ops) r) := by
  induction ops generalizing s r with
  | nil => exact h
  | cons op ops ih =>
    cases op with
    | register index fails => exact ih h
    | unregister id => exact ih h
    | tag op => exact ih (h.run [op])
    | sweep reads io =>
      refine ih ?_
      simp only [TaggedServer.apply, TaggedServer.sweep]
      split
      · exact h.retain
      · exact h

end Tracked

section Sweep

variable [Wire TagRecord] [Wire TreeIndex] [Wire IndexDescriptor] {s : TaggedServer} {r : Roots}
  {reads : TagReads} {io : SweepIo}

omit [Wire TreeIndex] [Wire IndexDescriptor] in
/-- Whatever becomes of the sweep, a live chunk stays. -/
theorem TaggedServer.sweep_keeps (h : Tracked s.tags r) {x : Hash}
    (hx : r.Live s.server.registered x) :
    (s.sweep reads io).2.server.store x = s.server.store x := by
  simp only [TaggedServer.sweep, Zblob.sweep]
  cases htags : s.tags.dir.liveSet reads with
  | error e => rfl
  | ok tagged =>
    cases hlisting : io.listing with
    | error e => rfl
    | ok hashes => exact sweepLoop_keeps ((h.mem_markLive htags _ x).mpr hx)

omit [Wire TreeIndex] [Wire IndexDescriptor] in
theorem TaggedServer.sweep_drops (h : Tracked s.tags r)
    (hlisting : ∀ hashes, io.listing = .ok hashes → Lists s.server.store hashes) {stats : GcStats}
    (hok : (s.sweep reads io).1 = .ok stats) {x : Hash} (hx : ¬ r.Live s.server.registered x) :
    (s.sweep reads io).2.server.store.has x = false := by
  obtain ⟨tagged, hashes, htagged, hhashes, hloop⟩ :=
    sweep_ok (show Zblob.sweep reads io s.server.store s.tags.dir s.tags.temps s.server.registered =
      (.ok stats, (s.sweep reads io).2.server.store) from Prod.ext hok rfl)
  have hgone := (sweepLoop_exact (hlisting hashes hhashes) hloop).2.1
  rw [ChunkMap.has, hgone x fun hl => hx ((h.mem_markLive htagged _ x).mp hl)]
  rfl

end Sweep

/-- A sweep that is given every registered index keeps what a client needs, as long as the
pieces of the served descriptors are alive for some other reason; a sweep that goes through
keeps it for no other reason. -/
theorem sweep_keeps_fetchable [Wire TagRecord] [Wire TreeIndex] [Wire IndexDescriptor]
    (hash : Bytes → Hash)
    (start : TreeServer) (ops : List HoldOp) (reads : TagReads) (io : SweepIo) :
    let s := Runs.run (TaggedServer.apply hash) ops ⟨start, .new⟩
    let r := Runs.run Roots.apply (tagOps ops) .new
    (∀ hashes, io.listing = .ok hashes → Lists s.server.store hashes) → Fetchable s r →
      (PiecesLive s r → Fetchable (s.sweep reads io).2 r) ∧
        ∀ stats, (s.sweep reads io).1 = .ok stats →
        (Fetchable (s.sweep reads io).2 r ↔ PiecesLive s r) := by
  intro s r hlisting hbefore
  have htracked : Tracked s.tags r := TaggedServer.tracked Tracked.new ops
  have hstays : ∀ x, r.Live s.server.registered x → s.server.store.has x = true →
      (s.sweep reads io).2.server.store.has x = true := by
    intro x hlive hhas
    rw [ChunkMap.has, TaggedServer.sweep_keeps htracked hlive]
    exact hhas
  have henough : PiecesLive s r → Fetchable (s.sweep reads io).2 r := by
    intro hpieces
    refine ⟨fun index hi x hx => ?_, fun id sample hs x hx => ?_, fun name index hi x hx => ?_⟩
    · exact hstays x (.inr (.inr ⟨index, hi, hx⟩)) (hbefore.chunks index hi x hx)
    · exact hstays x (hpieces id sample hs x hx) (hbefore.pieces id sample hs x hx)
    · exact hstays x (.inl ⟨name, index, hi, hx⟩) (hbefore.tagged name index hi x hx)
  refine ⟨henough, fun stats hok => ⟨fun hafter id sample hs x hx => ?_, henough⟩⟩
  by_contra hdead
  have hgone := TaggedServer.sweep_drops htracked hlisting hok hdead
  rw [hafter.pieces id sample hs x hx] at hgone
  cases hgone

section Single

attribute [local instance] Format.indexWire Format.descriptorWire Format.tagWire

theorem singleServer_pieces {id : String} {sample : Sample}
    (h : singleServer.indexReply id = some sample) :
    sample.pieces = [singlePiece] := by
  obtain ⟨reg, hreg, rfl⟩ := Option.map_eq_some_iff.mp h
  have hid : id = "t" := by
    by_contra hne
    rw [singleServer, AList.lookup_insert_ne hne] at hreg
    cases hreg
  subst hid
  rw [singleServer, AList.lookup_insert] at hreg
  cases hreg
  simp [Sample.pieces, decode_encode, singleDesc]

theorem singleServer_fetchable (tags : TagState) {r : Roots} (hr : ∀ name, r.tagged name = none) :
    Fetchable ⟨singleServer, tags⟩ r := by
  refine ⟨fun index hi h hh => ?_, fun id sample hs h hh => ?_, fun name index hi => ?_⟩
  · have hindex : index = singleIndex := List.mem_singleton.mp hi
    subst hindex
    have hnone : singleIndex.neededChunks = [] := by decide +kernel
    rw [hnone] at hh
    cases hh
  · rw [singleServer_pieces hs, List.mem_singleton] at hh
    rw [hh]
    exact (ChunkMap.has_put _ _ _).mpr (.inr rfl)
  · rw [hr] at hi
    cases hi

theorem singleServer_lists : Lists singleServer.store [singlePiece] := by
  refine ⟨by simp, fun h => ?_⟩
  rw [List.mem_singleton, singleServer, ChunkMap.has_put]
  simp [ChunkMap.has]

/-- The piece goes, and with it the index that the descriptor describes. -/
theorem sweep_takes_index_pieces :
    let s := Runs.run (TaggedServer.apply singleHash)
      [.register singleIndex fun _ => false] ⟨emptyServer 0, .new⟩
    let r := Runs.run Roots.apply [] .new
    let io : SweepIo := ⟨.ok [singlePiece], fun _ => false⟩
    Lists s.server.store [singlePiece] ∧ Fetchable s r ∧
      (s.sweep ⟨true, fun _ => true⟩ io).1.toOption = some ⟨0, 1⟩ ∧
      ¬ Fetchable (s.sweep ⟨true, fun _ => true⟩ io).2 r := by
  intro s r io
  have hs : s = ⟨singleServer, .new⟩ := by
    simp only [s, Runs.run_cons, Runs.run_nil, TaggedServer.apply, register_single]
  rw [hs]
  refine ⟨singleServer_lists, singleServer_fetchable _ fun _ => rfl,
    by decide +kernel, fun hafter => ?_⟩
  have hgone :
      (TaggedServer.sweep ⟨true, fun _ => true⟩ io ⟨singleServer, .new⟩).2.server.store.has
        singlePiece = false := by decide +kernel
  have hreply : singleServer.indexReply "t" = some ⟨"t/t", encIndexDesc, encode singleDesc⟩ := by
    rw [TreeServer.indexReply, singleServer, AList.lookup_insert]
    rfl
  rw [hafter.pieces "t" _ hreply singlePiece (by rw [singleServer_pieces hreply]; simp)] at hgone
  cases hgone

/-- A temp tag over the piece makes the difference. -/
theorem sweep_keeps_fetchable_single :
    let ops : List HoldOp := [.register singleIndex fun _ => false, .tag (.protect [singlePiece])]
    let s := Runs.run (TaggedServer.apply singleHash) ops ⟨emptyServer 0, .new⟩
    let io : SweepIo := ⟨.ok [singlePiece], fun _ => false⟩
    Fetchable (s.sweep ⟨true, fun _ => true⟩ io).2 (Runs.run Roots.apply (tagOps ops) .new) := by
  intro ops s io
  have hs : s.server = singleServer := by
    simp only [s, ops, Runs.run_cons, Runs.run_nil, TaggedServer.apply, register_single]
  have hroots : ∀ name, (Runs.run Roots.apply (tagOps ops) .new).tagged name = none := fun _ => rfl
  have hlive : (Runs.run Roots.apply (tagOps ops) .new).Live s.server.registered singlePiece :=
    .inr (.inl ⟨0, [singlePiece], by simp [ops, tagOps, Roots.apply, Roots.new], by simp⟩)
  refine (sweep_keeps_fetchable singleHash (emptyServer 0) ops ⟨true, fun _ => true⟩ io
    (fun hashes h => ?_) ?_).1 fun id sample hreply h hh => ?_
  · cases h
    exact hs ▸ singleServer_lists
  · have hall := singleServer_fetchable s.tags hroots
    rw [← hs] at hall
    exact hall
  · have hreply : s.server.indexReply id = some sample := hreply
    rw [hs] at hreply
    rw [singleServer_pieces hreply, List.mem_singleton] at hh
    exact hh ▸ hlive

end Single

end Zblob

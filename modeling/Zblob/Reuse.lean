import Zblob.Materialize
import Zblob.Walked

/-!
A build that starts from a parent snapshot. It makes the same turns as a build that reads
everything; only the store may differ, and it ends with every chunk that the index needs.
-/

set_option autoImplicit false

namespace Zblob

section Stock

variable {th : TreeHash}

theorem has_stock (store : ChunkMap) (pieces : List Bytes) (h : Hash) :
    (stock th store pieces).has h = true ↔ store.has h = true ∨ ∃ p ∈ pieces, th.hash p = h := by
  induction pieces generalizing store with
  | nil => simp [stock]
  | cons p pieces ih =>
    have hcons : stock th store (p :: pieces) =
        stock th (if store.has (th.hash p) then store else store.put (th.hash p, p)) pieces := rfl
    rw [hcons, ih]
    by_cases hp : store.has (th.hash p) = true
    · rw [if_pos hp]
      constructor
      · rintro (hs | ⟨x, hx, rfl⟩)
        · exact .inl hs
        · exact .inr ⟨x, by simp [hx], rfl⟩
      · rintro (hs | ⟨x, hx, rfl⟩)
        · exact .inl hs
        · rcases List.mem_cons.mp hx with rfl | hx
          · exact .inl hp
          · exact .inr ⟨x, hx, rfl⟩
    · rw [if_neg hp, ChunkMap.has_put]
      constructor
      · rintro ((hs | rfl) | ⟨x, hx, rfl⟩)
        · exact .inl hs
        · exact .inr ⟨p, by simp, rfl⟩
        · exact .inr ⟨x, by simp [hx], rfl⟩
      · rintro (hs | ⟨x, hx, rfl⟩)
        · exact .inl (.inl hs)
        · rcases List.mem_cons.mp hx with rfl | hx
          · exact .inl (.inr rfl)
          · exact .inr ⟨x, hx, rfl⟩

end Stock

theorem mem_noteHash {out : List Hash} {c : ChunkRef} {h : Hash} :
    h ∈ noteHash out c ↔ h ∈ out ∨ c.hash = h := by
  unfold noteHash
  split
  · rename_i hold
    exact ⟨.inl, fun hm => hm.elim id fun he => he ▸ hold⟩
  · rw [List.mem_append, List.mem_singleton, @eq_comm _ h]

theorem mem_neededChunks {index : TreeIndex} {h : Hash} :
    h ∈ index.neededChunks ↔ ∃ e ∈ index.entries, ∃ c ∈ e.chunks, c.hash = h := by
  have hfold : ∀ (chunks : List ChunkRef) (out : List Hash), h ∈ chunks.foldl noteHash out ↔
      h ∈ out ∨ ∃ c ∈ chunks, c.hash = h := by
    intro chunks
    induction chunks with
    | nil => simp
    | cons c rest ih =>
      intro out
      rw [List.foldl_cons, ih, mem_noteHash, or_assoc, List.exists_mem_cons_iff]
  rw [TreeIndex.neededChunks, hfold]
  simp only [List.not_mem_nil, false_or, List.mem_flatMap]
  exact ⟨fun ⟨c, ⟨e, he, hc⟩, hh⟩ =>
    ⟨e, he, c, hc, hh⟩, fun ⟨e, he, c, hc, hh⟩ => ⟨c, ⟨e, he, hc⟩, hh⟩⟩

def AllPresent (s : Walk) : Prop := ∀ e ∈ s.entries, ∀ c ∈ e.chunks, s.store.has c.hash = true

/-- The two walks stand at the same place; the second one's store has all that its entries
refer to. -/
structure InStep (tree : SourceTree) (s s' : Walk) : Prop where
  stack : s'.stack = s.stack
  inodes : s'.inodes = s.inodes
  entries : s'.entries = s.entries
  inside : ∀ x ∈ pending s.stack, x ∈ tree.nodes
  present : AllPresent s'

section Lockstep

variable {th : TreeHash} {cut : CdcParams → Bytes → List Bytes} {cdc : CdcParams}
  {tree : SourceTree}
  {reusable : String → Option Entry} {s s' t : Walk}

theorem AllPresent.append {s : Walk} (h : AllPresent s) {e : Entry} {store : ChunkMap}
    (hgrow : ∀ x, s.store.has x = true → store.has x = true)
    (he : ∀ c ∈ e.chunks, store.has c.hash = true) (stack : List (RelPath × List SourceItem))
    (inodes : List ((Nat × Nat) × String)) :
    AllPresent ⟨stack, inodes, s.entries ++ [e], store⟩ := by
  intro x hx c hc
  rcases List.mem_append.mp hx with hx | hx
  · exact hgrow _ (h x hx c hc)
  · cases List.mem_singleton.mp hx
    exact he c hc

theorem reuseChunks_some {store : ChunkMap} {rel : String} {f : SourceFile} {size : UInt64}
    {chunks : List ChunkRef} (h : reuseChunks reusable store rel f = some (size, chunks)) :
    (∃ path mode, reusable rel = some (.file path mode f.mtime size chunks)) ∧
      size = UInt64.ofNat f.data.length ∧ ∀ c ∈ chunks, store.has c.hash = true := by
  unfold reuseChunks at h
  split at h
  · rename_i path mode prevMtime prevSize prevChunks hr
    split at h
    · rename_i hsame
      cases h
      obtain ⟨hsize, hmtime, hall⟩ := hsame
      refine ⟨⟨path, mode, by rw [hr, hmtime]⟩, hsize, ?_⟩
      simpa using hall
    · cases h
  · cases h

/-- The parent's references to a file that looks unchanged are those the file would get. -/
def Faithful (th : TreeHash) (cut : CdcParams → Bytes → List Bytes) (cdc : CdcParams)
    (tree : SourceTree) (reusable : String → Option Entry) : Prop :=
  ∀ q f path mode chunks, (q, .file f) ∈ tree.nodes →
    reusable (relPathOf q) = some (.file path mode f.mtime (UInt64.ofNat f.data.length) chunks) →
    UInt64.ofNat f.data.length = UInt64.ofNat (cut cdc f.data).flatten.length ∧
      chunks = chunkRefs th (cut cdc f.data)

theorem InStep.file (hfaith : Faithful th cut cdc tree reusable)
    (h : InStep tree s s') {q : RelPath}
    {f : SourceFile} (hq : (q, .file f) ∈ tree.nodes)
    (ht : walkFile th cut cdc (fun _ => none) s (relPathOf q) f = .ok t) :
    ∃ t', walkFile th cut cdc reusable s' (relPathOf q) f = .ok t' ∧ InStep tree t t' := by
  unfold walkFile at ht ⊢
  rw [h.inodes]
  cases hl : hardlinkTarget f (relPathOf q) s.inodes with
  | mk target inodes =>
    rw [hl] at ht
    cases target with
    | some first =>
      cases ht
      exact ⟨_, rfl, h.stack, rfl, by simp only [h.entries], h.inside,
        h.present.append (fun _ hx => hx) (by simp [Entry.chunks]) _ _⟩
    | none =>
      have hnone : reuseChunks (fun _ => none) s.store (relPathOf q) f = none := rfl
      simp only [hnone] at ht
      split at ht
      · rename_i hread
        rw [foldl_storePiece] at ht
        cases ht
        cases hr : reuseChunks reusable s'.store (relPathOf q) f with
        | some reused =>
          obtain ⟨size, chunks⟩ := reused
          obtain ⟨⟨path, mode, hparent⟩, rfl, hall⟩ := reuseChunks_some hr
          obtain ⟨hsize, rfl⟩ := hfaith q f path mode chunks hq hparent
          refine ⟨_, rfl, h.stack, rfl, ?_, h.inside,
            h.present.append (fun _ hx => hx) (by simpa [Entry.chunks] using hall) _ _⟩
          simp [h.entries, hsize]
        | none =>
          simp only [hread, if_true, foldl_storePiece]
          refine ⟨_, rfl, h.stack, rfl, by simp [h.entries], h.inside, ?_⟩
          refine h.present.append (fun x hx => (has_stock _ _ x).mpr (.inl hx)) (fun c hc => ?_) _ _
          rw [has_stock]
          simp only [Entry.chunks, List.nil_append, chunkRefs, List.mem_map] at hc
          obtain ⟨p, hp, rfl⟩ := hc
          exact .inr ⟨p, hp, rfl⟩
      · cases ht

theorem InStep.item (hfaith : Faithful th cut cdc tree reusable)
    (h : InStep tree s s') {dir : RelPath}
    {item : SourceItem} (hin : ∀ x ∈ nodesAt (dir ++ [item.name]) item.node, x ∈ tree.nodes)
    (ht : walkItem th cut cdc (fun _ => none) s dir item = .ok t) :
    ∃ t', walkItem th cut cdc reusable s' dir item = .ok t' ∧ InStep tree t t' := by
  unfold walkItem at ht ⊢
  cases hnode : item.node with
  | denied =>
    simp only [hnode] at ht
    cases ht
  | special =>
    simp only [hnode] at ht
    split at ht <;> cases ht
  | symlink target =>
    simp only [hnode] at ht ⊢
    split at ht
    · cases ht
    · rename_i hutf8
      rw [if_neg hutf8]
      cases target with
      | none => cases ht
      | some target =>
        cases ht
        exact ⟨_, rfl, h.stack, h.inodes, by simp only [h.entries], h.inside,
          h.present.append (fun _ hx => hx) (by simp [Entry.chunks]) _ _⟩
  | dir mode mtime readable items =>
    simp only [hnode] at ht ⊢
    split at ht
    · cases ht
    · rename_i hutf8
      rw [if_neg hutf8]
      cases readable with
      | false => cases ht
      | true =>
        cases ht
        refine ⟨_, rfl, by simp only [h.stack], h.inodes, by simp only [h.entries], fun x hx => ?_,
          h.present.append (fun _ hx => hx) (by simp [Entry.chunks]) _ _⟩
        simp only [pending_cons, List.mem_append] at hx
        rcases hx with hx | hx
        · refine hin x ?_
          rw [hnode, nodesAt]
          exact List.mem_cons_of_mem _ ((nodesIn_sorted _ items).mem_iff.mp hx)
        · exact h.inside x hx
  | file f =>
    simp only [hnode] at ht ⊢
    split at ht
    · cases ht
    · rename_i hutf8
      rw [if_neg hutf8]
      exact h.file hfaith (hin _ (by simp [hnode, nodesAt])) ht

/-- The walks stay in step to their end. -/
theorem InStep.loop (hfaith : Faithful th cut cdc tree reusable) {fuel : Nat} (h : InStep tree s s')
    (ht : walkLoop th cut cdc (fun _ => none) fuel s = .ok t) :
    ∃ t', walkLoop th cut cdc reusable fuel s' = .ok t' ∧ InStep tree t t' := by
  induction fuel generalizing s s' with
  | zero => cases ht
  | succ fuel ih =>
    have hinside := h.inside
    unfold walkLoop at ht ⊢
    simp only [h.stack]
    cases hstack : s.stack with
    | nil =>
      simp only [hstack] at ht
      cases ht
      exact ⟨s', rfl, h⟩
    | cons frame rest =>
      obtain ⟨dir, items⟩ := frame
      rw [hstack, pending_cons] at hinside
      cases items with
      | nil =>
        simp only [hstack] at ht
        exact ih (s := { s with stack := rest }) ⟨rfl, h.inodes, h.entries, fun x hx =>
          hinside x (List.mem_append_right _ hx), h.present⟩ ht
      | cons item items =>
        simp only [hstack] at ht
        rw [nodesIn_cons, List.append_assoc] at hinside
        cases hi : walkItem th cut cdc (fun _ => none) { s with stack := (dir, items) :: rest }
          dir item with
        | error e => simp [hi] at ht
        | ok u =>
          simp only [hi] at ht
          have htaken : InStep tree { s with stack := (dir, items) :: rest }
              { s' with stack := (dir, items) :: rest } :=
            ⟨rfl, h.inodes, h.entries, fun x hx =>
              hinside x (List.mem_append_right _ (by simpa using hx)),
              h.present⟩
          obtain ⟨u', hu', hstep⟩ := htaken.item hfaith
            (fun x hx => hinside x (List.mem_append_left _ hx)) hi
          simp only [hu']
          exact ih hstep ht

end Lockstep

section Builds

variable {th : TreeHash} {cut : CdcParams → Bytes → List Bytes} {tree : SourceTree} {id : String}
  {cdc : CdcParams} {store store' : ChunkMap} {parent : Option TreeIndex} {index : TreeIndex}

/-- What a build that succeeds has gone through. -/
theorem buildTreeFrom_ok
    (h : buildTreeFrom th cut tree id cdc store parent = .ok (index, store')) :
    cdc.validate = .ok () ∧ ∃ blobId walked, BlobId.new id = .ok blobId ∧
      walkTree th cut cdc (reusableEntries parent) tree store = .ok walked ∧
      index = ⟨wireVersion, blobId, .blake3, cdc, walked.entries, th.rootDigest walked.entries⟩ ∧
      index.validate th = .ok () ∧ store' = walked.store := by
  unfold buildTreeFrom at h
  simp only [bind, Except.bind] at h
  cases hc : cdc.validate with
  | error e => simp [hc] at h
  | ok u =>
    simp only [hc] at h
    cases hid : BlobId.new id with
    | error e => simp [hid] at h
    | ok blobId =>
      simp only [hid] at h
      split at h
      · cases h
      · cases hw : walkTree th cut cdc (reusableEntries parent) tree store with
        | error e => simp [hw] at h
        | ok walked =>
          simp only [hw] at h
          split at h
          · cases h
          · rename_i hv
            cases h
            exact ⟨rfl, blobId, walked, rfl, rfl, rfl, hv, rfl⟩

theorem reusableEntries_some {p : TreeIndex} {rel : String} {e : Entry}
    (h : reusableEntries (some p) rel = some e) : e ∈ p.entries ∧ e.path = rel := by
  have hmem := List.mem_of_find?_eq_some h
  have hprop := List.find?_some h
  simp only [decide_eq_true_eq] at hprop
  exact ⟨List.mem_reverse.mp hmem, hprop.1⟩

theorem buildTree_file {path : String} {mode : UInt32} {mtime : Int64} {size : UInt64}
    {chunks : List ChunkRef} (h : buildTree th cut tree id cdc store = .ok (index, store'))
    (he : .file path mode mtime size chunks ∈ index.entries) :
    ∃ q f, (q, .file f) ∈ tree.nodes ∧ path = relPathOf q ∧
      Entry.file path mode mtime size chunks = fileEntry th cut cdc (relPathOf q) f := by
  obtain ⟨-, blobId, walked, -, hw, rfl, -, -⟩ := buildTreeFrom_ok h
  obtain ⟨seen, hperm, hrec⟩ := walkTree_recorded (fun _ _ _ => rfl) hw
  obtain ⟨q, n, hm, hd⟩ := hrec.entryOf _ he
  have hpath := hd.path
  generalize hentry : Entry.file path mode mtime size chunks = e at hd hpath
  cases hd with
  | dir => cases hentry
  | symlink => cases hentry
  | hardlink => cases hentry
  | @file f => exact ⟨q, f, hperm.mem_iff.mp hm, by rw [← hpath, ← hentry]; rfl, rfl⟩

end Builds

/-- An incremental build gives the index that a full build gives, and leaves every chunk that
the index needs in the store, provided that no file changed while it kept its size and its
recorded time. -/
theorem incremental_build_equals_full {th : TreeHash} {cut : CdcParams → Bytes → List Bytes}
    {cdc : CdcParams} {before tree : SourceTree} {id₀ id : String}
    {store₀ store₁ store store' : ChunkMap} {parent index : TreeIndex}
    (hparent : buildTree th cut before id₀ cdc store₀ = .ok (parent, store₁))
    (hsame : ∀ q f mode chunks, (q, SourceNode.file f) ∈ tree.nodes →
      .file (relPathOf q) mode f.mtime (UInt64.ofNat f.data.length) chunks ∈ parent.entries →
      ∀ f₀, (q, SourceNode.file f₀) ∈ before.nodes → f.data = f₀.data)
    (hfull : buildTree th cut tree id cdc store = .ok (index, store')) :
    ∃ store'', buildTreeFrom th cut tree id cdc store (some parent) = .ok (index, store'') ∧
      ∀ h ∈ index.neededChunks, store''.has h = true := by
  have hfaith : Faithful th cut cdc tree (reusableEntries (some parent)) := by
    intro q f path mode chunks hq hr
    obtain ⟨hmem, hpath⟩ := reusableEntries_some hr
    cases hpath
    obtain ⟨q₀, f₀, hq₀, hrel, hentry⟩ := buildTree_file hparent hmem
    have hsameq : q = q₀ := relPathOf_injective (tree.ne_nil hq) (before.ne_nil hq₀)
      (tree.names q _ hq) (before.names q₀ _ hq₀) hrel
    subst hsameq
    have hdata := hsame q f mode chunks hq hmem f₀ hq₀
    simp only [fileEntry, Entry.file.injEq] at hentry
    obtain ⟨-, -, -, hsize, hchunks⟩ := hentry
    exact ⟨by rw [hsize, hdata], by rw [hchunks, hdata]⟩
  obtain ⟨hcdc, blobId, walked, hid, hw, rfl, hv, -⟩ := buildTreeFrom_ok hfull
  have hsamecdc : parent.cdc = cdc := by
    obtain ⟨-, _, _, -, -, rfl, -, -⟩ := buildTreeFrom_ok hparent
    rfl
  unfold walkTree at hw
  split at hw
  · rename_i hread
    have start : InStep tree ⟨[([], readDirSorted tree.items)], [], [], store⟩
        ⟨[([], readDirSorted tree.items)], [], [], store⟩ := by
      refine ⟨rfl, rfl, rfl, fun x hx => ?_, by simp [AllPresent]⟩
      simp only [pending_cons, pending_nil, List.append_nil] at hx
      exact (nodesIn_sorted [] tree.items).mem_iff.mp hx
    obtain ⟨walked', hw', hend⟩ := start.loop hfaith hw
    refine ⟨walked'.store, ?_, fun x hx => ?_⟩
    · unfold buildTreeFrom walkTree
      simp [bind, Except.bind, Option.filter, hcdc, hid, hsamecdc, hread, hw', hend.entries, hv]
    · obtain ⟨e, he, c, hc, rfl⟩ := mem_neededChunks.mp hx
      exact hend.present e (hend.entries ▸ he) c hc
  · cases hw

def twiceNamed : SourceFile := ⟨0o100644, 7, (1, 12), 2, true, [97, 98, 99]⟩

def homeItems : List SourceItem :=
  [.mk "s" true (.symlink (some "d")), .mk "h" true (.file twiceNamed),
    .mk "d" true (.dir 0o40755 7 true [.mk "x" true (.file twiceNamed)])]

theorem homeItems_nodes : nodesIn [] homeItems =
    [(["s"], .symlink (some "d")), (["h"], .file twiceNamed),
      (["d"], .dir 0o40755 7 true [.mk "x" true (.file twiceNamed)]),
      (["d", "x"], .file twiceNamed)] := rfl

theorem homeItems_file {q : RelPath} {f : SourceFile}
    (h : (q, SourceNode.file f) ∈ nodesIn [] homeItems) :
    f = twiceNamed := by
  rw [homeItems_nodes] at h
  simp only [List.mem_cons, Prod.mk.injEq, SourceNode.file.injEq, reduceCtorEq, and_false,
    List.not_mem_nil, or_false, false_or] at h
  rcases h with ⟨-, h⟩ | ⟨-, h⟩
  · exact h
  · exact h

def homeSource : SourceTree where
  readable := true
  items := homeItems
  distinct := by
    rw [homeItems_nodes]
    decide
  names := by
    intro q n h
    rw [homeItems_nodes] at h
    have hq : q ∈ [["s"], ["h"], ["d"], ["d", "x"]] := by
      simp only [List.mem_cons, Prod.mk.injEq, List.not_mem_nil, or_false] at h ⊢
      tauto
    clear h
    revert q
    unfold IsFileName
    decide
  shared := by
    intro q f q' f' h h' _
    rw [homeItems_file h, homeItems_file h']
    exact ⟨rfl, fun _ => by decide⟩

def homeRoot : Hash :=
  ⟨[0x22, 0x29, 0xfd, 0xcd, 0x73, 0x24, 0x54, 0x2e, 0x4f, 0xad, 0xe2, 0x61, 0x0b, 0x6b, 0xf9, 0x7a,
    0xfc, 0x03, 0x14, 0x17, 0xb5, 0x8d, 0x0c, 0xb9, 0x47, 0x7c, 0xe4, 0xcf, 0x81, 0x2b, 0xb1, 0x12],
    by decide⟩

def homeTree : TreeHash :=
  knownTree [0x03, 0x06, 0x62, 0x6c, 0x61, 0x6b, 0x65, 0x33, 0x04, 0x00, 0x01, 0x64, 0xed, 0x83,
    0x01, 0x01, 0x03, 0x64, 0x2f, 0x78, 0xa4, 0x83, 0x02, 0x03, 0x01, 0x20, 0x64, 0x37, 0xb3, 0xac,
    0x38, 0x46, 0x51, 0x33, 0xff, 0xb6, 0x3b, 0x75, 0x27, 0x3a, 0x8d, 0xb5, 0x48, 0xc5, 0x58, 0x46,
    0x5d, 0x79, 0xdb, 0x03, 0xfd, 0x35, 0x9c, 0x6c, 0xd5, 0xbd, 0x9d, 0x85, 0x03, 0x03, 0x01, 0x68,
    0x03, 0x64, 0x2f, 0x78, 0x02, 0x01, 0x73, 0x01, 0x64] homeRoot

def transferCdc : CdcParams := ⟨16384, 65536, 262144, 2, 0⟩

def shortCut (_ : CdcParams) (data : Bytes) : List Bytes := if data = [] then [] else [data]

def homeBuild : Result (TreeIndex × ChunkMap) :=
  buildTree homeTree shortCut homeSource "t" transferCdc fun _ => none

theorem homeBuild_ok : ∃ index store, homeBuild = .ok (index, store) := by
  have hok : homeBuild.toBool = true := by decide +kernel
  cases h : homeBuild with
  | error e =>
    rw [h] at hok
    cases hok
  | ok r => exact ⟨r.1, r.2, rfl⟩

theorem homeBuild_again : ∃ parent kept store, homeBuild = .ok (parent, kept) ∧
    buildTree homeTree shortCut homeSource "t" transferCdc kept = .ok (parent, store) ∧
      (reuseChunks (reusableEntries (some parent)) kept "d/x" twiceNamed).isSome = true := by
  have hok : (homeBuild.bind fun first =>
      (buildTree homeTree shortCut homeSource "t" transferCdc first.2).map fun again =>
        decide (again.1 = first.1) &&
          (reuseChunks (reusableEntries (some first.1)) first.2 "d/x" twiceNamed).isSome) =
      .ok true := by decide +kernel
  cases hfirst : homeBuild with
  | error e =>
    rw [hfirst] at hok
    cases hok
  | ok first =>
    rw [hfirst, Except.bind] at hok
    obtain ⟨again, hagain, hboth⟩ := map_ok hok
    rw [Bool.and_eq_true, decide_eq_true_eq] at hboth
    exact ⟨first.1, first.2, again.2, rfl, hboth.1 ▸ hagain, hboth.2⟩

/-- The second build takes the file from the first one's snapshot, and comes out the same. -/
theorem incremental_build_equals_full_home :
    ∃ parent kept, homeBuild = .ok (parent, kept) ∧
      (reuseChunks (reusableEntries (some parent)) kept "d/x" twiceNamed).isSome = true ∧
      ∃ store, buildTreeFrom homeTree shortCut homeSource "t" transferCdc kept (some parent) =
        .ok (parent, store) ∧ ∀ h ∈ parent.neededChunks, store.has h = true := by
  obtain ⟨parent, kept, store, hbuild, hagain, hreuse⟩ := homeBuild_again
  refine ⟨parent, kept, hbuild, hreuse,
    incremental_build_equals_full hbuild (fun q f mode chunks hf _ f₀ hf₀ => ?_) hagain⟩
  cases homeSource.unique hf hf₀
  rfl

end Zblob

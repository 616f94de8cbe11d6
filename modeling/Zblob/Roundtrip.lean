import Zblob.Rebuild
import Zblob.Reuse

/-!
There and back: a directory tree that is built into a snapshot and materialized from the
store of the build comes out as it went in. The two halves meet at `Layout`: a build makes
entry lists of that kind only, and every one of that kind can be laid out.
-/

set_option autoImplicit false

namespace Zblob

/-- What is assumed of FastCDC, on the files of the tree. -/
structure CutsWell (cut : CdcParams → Bytes → List Bytes) (cdc : CdcParams)
    (tree : SourceTree) : Prop where
  whole : ∀ q f, (q, SourceNode.file f) ∈ tree.nodes → (cut cdc f.data).flatten = f.data
  proper : ∀ q f, (q, SourceNode.file f) ∈ tree.nodes → ∀ piece ∈ cut cdc f.data,
    piece ≠ [] ∧ piece.length ≤ cdc.max.toNat

def Addressed (th : TreeHash) (m : ChunkMap) : Prop := ∀ h b, m h = some b → th.hash b = h

def IsPiece (cut : CdcParams → Bytes → List Bytes) (cdc : CdcParams)
    (tree : SourceTree) (b : Bytes) : Prop :=
  ∃ q f, (q, SourceNode.file f) ∈ tree.nodes ∧ b ∈ cut cdc f.data

/-- No chunk of the tree has the digest of another one, or of other bytes in the store. -/
def NoCollision (th : TreeHash) (cut : CdcParams → Bytes → List Bytes)
    (cdc : CdcParams) (tree : SourceTree) (store : ChunkMap) : Prop :=
  ∀ piece b, IsPiece cut cdc tree piece → (IsPiece cut cdc tree b ∨ ∃ h, store h = some b) →
    th.hash b = th.hash piece → b = piece

def Honest (th : TreeHash) (Known : Bytes → Prop) (m : ChunkMap) : Prop :=
  ∀ h b, m h = some b → th.hash b = h ∧ Known b

section Store

variable {th : TreeHash} {cut : CdcParams → Bytes → List Bytes} {cdc : CdcParams}
  {tree : SourceTree}
  {Known : Bytes → Prop} {s t : Walk}

theorem Honest.put {m : ChunkMap} (h : Honest th Known m) {piece : Bytes} (hp : Known piece) :
    Honest th Known (m.put (th.hash piece, piece)) := by
  intro x b hb
  by_cases hx : x = th.hash piece
  · simp only [ChunkMap.put, hx, Function.update_self, Option.some.injEq] at hb
    subst hb
    exact ⟨hx.symm, hp⟩
  · simp only [ChunkMap.put, Function.update_of_ne hx] at hb
    exact h x b hb

theorem Honest.stock {m : ChunkMap} (h : Honest th Known m) {pieces : List Bytes}
    (hp : ∀ p ∈ pieces, Known p) : Honest th Known (stock th m pieces) := by
  induction pieces generalizing m with
  | nil => exact h
  | cons p pieces ih =>
    refine ih ?_ fun x hx => hp x (by simp [hx])
    show Honest th Known (if m.has (th.hash p) = true then m else m.put (th.hash p, p))
    split
    · exact h
    · exact h.put (hp p (by simp))

/-- The walk's store holds what it held before and chunks of the tree, among them all that
the entries so far refer to. -/
structure Stocked (th : TreeHash) (tree : SourceTree) (Known : Bytes → Prop) (s : Walk) : Prop where
  inside : ∀ x ∈ pending s.stack, x ∈ tree.nodes
  honest : Honest th Known s.store
  present : AllPresent s

theorem Stocked.item (hknown : ∀ b, IsPiece cut cdc tree b → Known b) (h : Stocked th tree Known s)
    {dir : RelPath} {item : SourceItem} {items : List SourceItem}
    {rest : List (RelPath × List SourceItem)}
    (hstack : s.stack = (dir, item :: items) :: rest)
    (ht : walkItem th cut cdc (fun _ => none) { s with stack := (dir, items) :: rest }
      dir item = .ok t) :
    Stocked th tree Known t := by
  have hinside := h.inside
  rw [hstack, pending_cons, nodesIn_cons, List.append_assoc] at hinside
  have hrest : ∀ x ∈ pending ((dir, items) :: rest), x ∈ tree.nodes := by
    intro x hx
    exact hinside x (List.mem_append_right _ (by simpa using hx))
  rcases walkItem_cases ht with ⟨target, hnode, rfl⟩ | ⟨mode, mtime,
      inner, hnode, rfl⟩ | ⟨f, hnode, hf⟩
  · exact ⟨hrest, h.honest, h.present.append (fun _ hx => hx) (by simp [Entry.chunks]) _ _⟩
  · refine ⟨fun x hx =>
      ?_, h.honest, h.present.append (fun _ hx => hx) (by simp [Entry.chunks]) _ _⟩
    simp only [pending_cons, List.mem_append] at hx
    rcases hx with hx | hx
    · refine hinside x (List.mem_append_left _ ?_)
      rw [hnode, nodesAt]
      exact List.mem_cons_of_mem _ ((nodesIn_sorted _ inner).mem_iff.mp hx)
    · exact hrest x (by simpa using hx)
  · have hq : (dir ++ [item.name], SourceNode.file f) ∈ tree.nodes :=
      hinside _ (List.mem_append_left _ (by simp [hnode, nodesAt]))
    rcases walkFile_cases hf with ⟨first, -, -, rfl⟩ | ⟨-, ⟨size, chunks, hr, -⟩ | ⟨-, -, rfl⟩⟩
    · exact ⟨hrest, h.honest, h.present.append (fun _ hx => hx) (by simp [Entry.chunks]) _ _⟩
    · cases hr
    · refine ⟨hrest, h.honest.stock fun p hp => hknown p ⟨_, f, hq, hp⟩, ?_⟩
      refine h.present.append (fun x hx => (has_stock _ _ x).mpr (.inl hx)) (fun c hc => ?_) _ _
      simp only [Entry.chunks, fileEntry, chunkRefs, List.mem_map] at hc
      obtain ⟨p, hp, rfl⟩ := hc
      exact (has_stock _ _ _).mpr (.inr ⟨p, hp, rfl⟩)

theorem walkTree_stocked {store : ChunkMap} (hknown : ∀ b, IsPiece cut cdc tree b → Known b)
    (hstore : Honest th Known store) (h : walkTree th cut cdc (fun _ => none) tree store = .ok t) :
    Stocked th tree Known t := by
  unfold walkTree at h
  split at h
  · have start : Stocked th tree Known ⟨[([], readDirSorted tree.items)], [], [], store⟩ := by
      refine ⟨fun x hx => ?_, hstore, by simp [AllPresent]⟩
      rw [pending_cons, pending_nil, List.append_nil] at hx
      exact (nodesIn_sorted [] tree.items).mem_iff.mp hx
    refine (walkLoop_invariant (fun s dir rest hs hstack => ?_)
      (fun s u dir item items rest hs hstack hi => hs.item hknown hstack hi) start h).1
    refine ⟨fun x hx => hs.inside x ?_, hs.honest, hs.present⟩
    rw [hstack, pending_cons]
    exact List.mem_append_right _ hx
  · cases h

end Store

section Layout

variable {th : TreeHash} {cut : CdcParams → Bytes → List Bytes} {cdc : CdcParams}
  {tree : SourceTree}
  {id : String} {store store' : ChunkMap} {index : TreeIndex} {walked : Walk}
  {seen : List (RelPath × SourceNode)}

theorem Stocked.get {s : Walk} (hcoll : NoCollision th cut cdc tree store)
    (h : Stocked th tree (fun b => IsPiece cut cdc tree b ∨ ∃ x, store x = some b) s) {rel : String}
    {f : SourceFile} {q : RelPath} (hq : (q, SourceNode.file f) ∈ tree.nodes)
    (he : fileEntry th cut cdc rel f ∈ s.entries) {piece : Bytes} (hp : piece ∈ cut cdc f.data) :
    s.store (th.hash piece) = some piece := by
  have hhas : s.store.has (th.hash piece) = true := by
    refine h.present _ he ⟨th.hash piece, UInt32.ofNat piece.length⟩ ?_
    exact List.mem_map_of_mem hp
  obtain ⟨b, hb⟩ := Option.isSome_iff_exists.mp hhas
  obtain ⟨hhash, hknown⟩ := h.honest _ b hb
  rw [hb, hcoll piece b ⟨q, f, hq, hp⟩ hknown hhash]

theorem contentOf_chunkRefs {m : ChunkMap} {pieces : List Bytes}
    (h : ∀ p ∈ pieces, m (th.hash p) = some p) :
    contentOf m (chunkRefs th pieces) = pieces.flatten := by
  induction pieces with
  | nil => rfl
  | cons p pieces ih =>
    have hp := h p (by simp)
    have hrest := ih fun x hx => h x (by simp [hx])
    simp only [contentOf, chunkRefs, List.map_cons, List.flatten_cons,
      hp, Option.getD_some] at hrest ⊢
    rw [hrest]

theorem chunkSum_chunkRefs {pieces : List Bytes} {max : UInt32}
    (h : ∀ p ∈ pieces, p.length ≤ max.toNat) :
    chunkSum (chunkRefs th pieces) = pieces.flatten.length := by
  induction pieces with
  | nil => rfl
  | cons p pieces ih =>
    have hp := h p (by simp)
    have hlt := max.toNat_lt
    have hrest := ih fun x hx => h x (by simp [hx])
    simp only [chunkSum, chunkRefs, List.map_cons, List.sum_cons,
      List.flatten_cons, List.length_append,
      UInt32.toNat_ofNat'] at hrest ⊢
    rw [Nat.mod_eq_of_lt (by omega), hrest]

theorem Describes.rel {q : RelPath} {n : SourceNode} {e : Entry} (h : Describes th cut cdc q n e)
    (hq : (q, n) ∈ tree.nodes) : e.rel = q := by
  refine Entry.rel_of_ok ?_
  rw [h.path]
  exact tree.sanitize hq

theorem fileEntry_rel {q : RelPath} {f : SourceFile} (hq : (q, SourceNode.file f) ∈ tree.nodes) :
    (fileEntry th cut cdc (relPathOf q) f).rel = q :=
  Describes.rel (.file : Describes th cut cdc q (.file f) _) hq

theorem Recorded.layout (hrec : Recorded th cut cdc tree seen walked) (hperm : seen.Perm tree.nodes)
    (hcut : CutsWell cut cdc tree) (hcoll : NoCollision th cut cdc tree store)
    (hstock : Stocked th tree (fun b => IsPiece cut cdc tree b ∨ ∃ x, store x = some b) walked)
    (ok : EntriesOk cdc [] walked.entries) : Layout th walked.store cdc walked.entries := by
  have hnode : ∀ {q n}, (q, n) ∈ seen → (q, n) ∈ tree.nodes := fun h => hperm.mem_iff.mp h
  refine ⟨ok, fun e he => ?_, fun before path target after hentries => ?_, ?_⟩
  · obtain ⟨q, n, hq, hd⟩ := hrec.entryOf e he
    rw [hd.rel (hnode hq)]
    refine (tree.parent (hnode hq)).imp_right fun hparent => ?_
    obtain ⟨mode, mtime, readable, items, hp⟩ := hparent
    obtain ⟨d, hmem, hdesc⟩ := hrec.nodeOf _ _ (hperm.mem_iff.mpr hp)
    refine ⟨d, hmem, ?_, hdesc.rel hp⟩
    cases hdesc
    rfl
  · obtain ⟨q, f, q', f', -, -, hq', rfl, -, hfile⟩ := hrec.links before path target after hentries
    refine ⟨_, hfile, rfl, ?_⟩
    rw [fileEntry_rel (hnode hq')]
    exact tree.sanitize (hnode hq')
  · intro path mode mtime size chunks he
    obtain ⟨q, n, hq, hd⟩ := hrec.entryOf _ he
    obtain ⟨f, rfl, hentry⟩ : ∃ f, n = .file f ∧
        Entry.file path mode mtime size chunks = fileEntry th cut cdc (relPathOf q) f := by
      cases hd with
      | file => exact ⟨_, rfl, rfl⟩
    have hget : ∀ p ∈ cut cdc f.data, walked.store (th.hash p) = some p :=
      fun p hp => hstock.get hcoll (hnode hq) (hentry ▸ he) hp
    have hbound := fun p hp => (hcut.proper q f (hnode hq) p hp).2
    have hsize := (ok.sizes path mode mtime size chunks he).1
    simp only [fileEntry, Entry.file.injEq] at hentry
    obtain ⟨rfl, rfl, rfl, -, rfl⟩ := hentry
    refine ⟨fun c hc => ?_, ?_⟩
    · obtain ⟨p, hp, rfl⟩ := List.mem_map.mp hc
      exact ⟨p, hget p hp, rfl, rfl⟩
    · rw [← hsize, chunkSum_chunkRefs hbound, contentOf_chunkRefs hget]

end Layout

/-- Under `root` there is what the source directory has, and nothing else. -/
structure Mirrors (tree : SourceTree) (root : Path) (fs : Fs) : Prop where
  paths : ∀ q, q ≠ [] → (fs.obj (root ++ q) ≠ none ↔ ∃ n, (q, n) ∈ tree.nodes)
  dirs : ∀ q mode mtime readable items, (q, SourceNode.dir mode mtime readable items) ∈ tree.nodes →
    fs.obj (root ++ q) = some .dir
  symlinks : ∀ q target, (q, SourceNode.symlink (some target)) ∈ tree.nodes →
    fs.obj (root ++ q) = some (.symlink target)
  files : ∀ q f, (q, SourceNode.file f) ∈ tree.nodes →
    ∃ ino, fs.obj (root ++ q) = some (.file ino) ∧ fs.data ino = f.data
  inodes : ∀ q f q' f' ino ino', (q, SourceNode.file f) ∈ tree.nodes →
    (q', SourceNode.file f') ∈ tree.nodes →
    fs.obj (root ++ q) = some (.file ino) → fs.obj (root ++ q') = some (.file ino') →
    (ino = ino' ↔ f.inode = f'.inode)

/-- Nothing that the store answers has the digest of a chunk of the tree without being it. -/
def Unmistaken (th : TreeHash) (cut : CdcParams → Bytes → List Bytes)
    (cdc : CdcParams) (tree : SourceTree)
    (store : ContentStore) : Prop :=
  ∀ now h b piece, store.get now h = .ok (some b) → IsPiece cut cdc tree piece →
    th.hash b = th.hash piece →
    b = piece

section Mirror

variable {th : TreeHash} {cut : CdcParams → Bytes → List Bytes} {cdc : CdcParams}
  {tree : SourceTree}
  {store : ContentStore} {walked : Walk} {seen : List (RelPath × SourceNode)} {root : Path}

theorem Recorded.ownEntry (hrec : Recorded th cut cdc tree seen walked)
    (hperm : seen.Perm tree.nodes)
    {q q' : RelPath} {f f' : SourceFile} (hq : (q, SourceNode.file f) ∈ tree.nodes)
    (hq' : (q', SourceNode.file f') ∈ tree.nodes)
    (he : fileEntry th cut cdc (relPathOf q) f ∈ walked.entries)
    (he' : fileEntry th cut cdc (relPathOf q') f' ∈ walked.entries) (hino : f.inode = f'.inode) :
    q = q' := by
  by_contra hne
  obtain ⟨rfl, hnlink⟩ := tree.shared q f q' f' hq hq' hino
  have hfirst := hrec.own q f (hperm.mem_iff.mpr hq) he (hnlink hne)
  have hfirst' := hrec.own q' f (hperm.mem_iff.mpr hq') he' (hnlink hne)
  rw [hfirst] at hfirst'
  exact hne (tree.relPathOf_inj hq hq' (Option.some.inj hfirst'))

theorem SourceTree.dir_above {q q' : RelPath} {n : SourceNode} (hq : (q, n) ∈ tree.nodes)
    (hpre : q' <+: q)
    (hnil : q' ≠ []) (hne : q' ≠ q) :
    ∃ mode mtime readable items, (q', SourceNode.dir mode mtime readable items) ∈ tree.nodes := by
  induction hlen : q.length generalizing q n with
  | zero => exact absurd (List.length_eq_zero_iff.mp hlen) (tree.ne_nil hq)
  | succ k ih =>
    have hup := prefix_parent hpre hne
    rcases tree.parent hq with htop | ⟨mode, mtime, readable, items, hp⟩
    · rw [htop] at hup
      exact absurd (List.prefix_nil.mp hup) hnil
    · by_cases he : q' = q.dropLast
      · exact ⟨mode, mtime, readable, items, he ▸ hp⟩
      · exact ih hp hup he (by rw [List.length_dropLast, hlen]; rfl)

theorem SourceTree.above {q q' : RelPath} {n : SourceNode} (hq : (q, n) ∈ tree.nodes)
    (hpre : q' <+: q) (hne : q' ≠ []) : ∃ n', (q', n') ∈ tree.nodes := by
  by_cases he : q' = q
  · exact ⟨n, he ▸ hq⟩
  · obtain ⟨mode, mtime, readable, items, hp⟩ := tree.dir_above hq hpre hne he
    exact ⟨_, hp⟩

/-- The pieces that a store has answered for the chunks of a file are the file's. -/
theorem Unmistaken.pieces (hfree : Unmistaken th cut cdc tree store) {cuts pieces : List Bytes}
    (hcuts : ∀ p ∈ cuts, IsPiece cut cdc tree p) (h : Pieces th store (chunkRefs th cuts) pieces) :
    pieces = cuts := by
  induction cuts generalizing pieces with
  | nil =>
    cases h
    rfl
  | cons p cuts ih =>
    cases h with
    | cons hhead hrest =>
      obtain ⟨⟨now, hget⟩, -, hhash⟩ := hhead
      rw [hfree now _ _ p hget (hcuts p (by simp)) hhash,
        ih (fun x hx => hcuts x (by simp [hx])) hrest]

theorem Stocked.unmistaken {known : ChunkMap} (hcoll : NoCollision th cut cdc tree known)
    (h : Stocked th tree (fun b => IsPiece cut cdc tree b ∨ ∃ x, known x = some b) walked) :
    Unmistaken th cut cdc tree walked.store.asStore := by
  intro now x b piece hget hp hhash
  obtain ⟨-, hknown⟩ := h.honest x b (Except.ok.inj hget)
  exact hcoll piece b hp hknown hhash

theorem Laid.passed {entries : List Entry} {w : World}
    (h : Laid th store root (passOrder entries) (passOrder entries) w) :
    Laid th store root entries entries w := by
  refine ⟨h.anchored, h.traced.mono fun _ he => mem_passOrder.mp he,
    fun e he => h.outputs e (mem_passOrder.mpr he), fun e he hfile => ?_⟩
  exact (h.sole e (mem_passOrder.mpr he) hfile).mono fun _ he => mem_passOrder.mp he

variable {w : World} (hrec : Recorded th cut cdc tree seen walked) (hperm : seen.Perm tree.nodes)
  (laid : Laid th store root walked.entries walked.entries w)
include hrec hperm laid

theorem Laid.firstEntry {q : RelPath} {f : SourceFile} (hq : (q, SourceNode.file f) ∈ tree.nodes) :
    ∃ q' f' ino, (q', SourceNode.file f') ∈ tree.nodes ∧ f'.inode = f.inode ∧
      fileEntry th cut cdc (relPathOf q') f' ∈ walked.entries ∧
      w.fs.obj (root ++ q) = some (.file ino) ∧ w.fs.obj (root ++ q') = some (.file ino) := by
  obtain ⟨e, he, hd⟩ := hrec.nodeOf q _ (hperm.mem_iff.mpr hq)
  have hrel := hd.rel hq
  cases hd with
  | file =>
    obtain ⟨x, hx, hmakes⟩ := (laid.outputs _ he).obj
    rw [hrel] at hx
    cases hmakes with
    | file => exact ⟨q, f, _, hq, rfl, he, hx, hx⟩
  | hardlink =>
    obtain ⟨before, after, hsplit⟩ := List.append_of_mem he
    obtain ⟨p, g, q', f', hp, hpath, hq', rfl, hino, hfile⟩ := hrec.links _ _ _ _ hsplit
    have hp := hperm.mem_iff.mp hp
    have hq' := hperm.mem_iff.mp hq'
    cases tree.relPathOf_inj hq hp hpath
    cases tree.unique hq hp
    cases laid.outputs _ he with
    | hardlink htarget ho hthere =>
      rw [hrel] at ho
      rw [tree.sanitize hq'] at htarget
      cases htarget
      exact ⟨q', f', _, hq', hino.symm, by simp [hsplit, hfile], ho, hthere⟩

omit hrec hperm in
/-- Two file entries have one inode only when they are the same entry. -/
theorem Laid.inode_iff (ok : EntriesOk cdc [] walked.entries) {q q' : RelPath}
    {f f' : SourceFile} (hq : (q, SourceNode.file f) ∈ tree.nodes)
    (hq' : (q', SourceNode.file f') ∈ tree.nodes)
    (he : fileEntry th cut cdc (relPathOf q) f ∈ walked.entries)
    (he' : fileEntry th cut cdc (relPathOf q') f' ∈ walked.entries) {ino ino' : Nat}
    (ho : w.fs.obj (root ++ q) = some (.file ino))
    (ho' : w.fs.obj (root ++ q') = some (.file ino')) : ino = ino' ↔ q = q' := by
  constructor
  · rintro rfl
    have hsole := laid.sole _ he rfl ino (root ++ q')
    rw [fileEntry_rel hq] at hsole
    rcases hsole ho ho' with hown | ⟨path, target, hl, hrel⟩
    · exact (List.append_cancel_left hown).symm
    · have hsame : (fileEntry th cut cdc (relPathOf q') f').rel =
          (Entry.hardlink path target).rel := by
        rw [fileEntry_rel hq']
        exact List.append_cancel_left hrel
      cases ok.unique he' hl hsame
  · rintro rfl
    rw [ho] at ho'
    cases ho'
    rfl

theorem Laid.mirrors (ok : EntriesOk cdc [] walked.entries) (hcut : CutsWell cut cdc tree)
    (hfree : Unmistaken th cut cdc tree store) : Mirrors tree root w.fs := by
  have hentry : ∀ {q n}, (q, n) ∈ tree.nodes → ∃ e ∈ walked.entries, Describes th cut cdc q n e :=
    fun h => hrec.nodeOf _ _ (hperm.mem_iff.mpr h)
  have hnode : ∀ {e}, e ∈ walked.entries → ∃ n, (e.rel, n) ∈ tree.nodes := by
    intro e he
    obtain ⟨q, n, hq, hd⟩ := hrec.entryOf e he
    have hq := hperm.mem_iff.mp hq
    exact ⟨n, by rwa [hd.rel hq]⟩
  refine ⟨fun q hne => ⟨fun ho => ?_, fun hq => ?_⟩, ?_, ?_, fun q f hq => ?_, ?_⟩
  · obtain ⟨x, hx⟩ := Option.ne_none_iff_exists'.mp ho
    rcases laid.traced q x hne hx with ⟨e, he, rfl, -⟩ | ⟨-, e, he, hpre, -⟩
    · exact hnode he
    · obtain ⟨n, hn⟩ := hnode he
      exact tree.above hn hpre hne
  · obtain ⟨n, hn⟩ := hq
    obtain ⟨e, he, hd⟩ := hentry hn
    obtain ⟨x, hx, -⟩ := (laid.outputs e he).obj
    rw [hd.rel hn] at hx
    simp [hx]
  · intro q mode mtime readable items hq
    obtain ⟨e, he, hd⟩ := hentry hq
    have hrel := hd.rel hq
    cases hd with
    | dir =>
      cases laid.outputs _ he with
      | dir ho => rwa [hrel] at ho
  · intro q target hq
    obtain ⟨e, he, hd⟩ := hentry hq
    have hrel := hd.rel hq
    cases hd with
    | symlink =>
      cases laid.outputs _ he with
      | symlink ho => rwa [hrel] at ho
  · obtain ⟨q', f', ino, hq', hino, he, ho, ho'⟩ := laid.firstEntry hrec hperm hq
    have hsame : f' = f := (tree.shared q' f' q f hq' hq hino).1
    refine ⟨ino, ho, ?_⟩
    cases laid.outputs _ he with
    | file hplace hpieces hdata =>
      change w.fs.obj (root ++ (fileEntry th cut cdc (relPathOf q') f').rel) = _ at hplace
      rw [fileEntry_rel hq', ho'] at hplace
      cases hplace
      rw [hdata, hfree.pieces (fun p hp => ⟨q', f', hq', hp⟩) hpieces, hcut.whole q' f' hq', hsame]
  · intro q f q' f' ino ino' hq hq' ho ho'
    obtain ⟨p, g, i, hp, hg, he, hi, hfirst⟩ := laid.firstEntry hrec hperm hq
    obtain ⟨p', g', i', hp', hg', he', hi', hfirst'⟩ := laid.firstEntry hrec hperm hq'
    cases ho.symm.trans hi
    cases ho'.symm.trans hi'
    rw [laid.inode_iff ok hp hp' he he' hfirst hfirst', ← hg, ← hg']
    constructor
    · rintro rfl
      cases tree.unique hp hp'
      rfl
    · exact hrec.ownEntry hperm hp hp' he he'

end Mirror

/-- A directory tree that can be built into a snapshot is rebuilt from it in an empty
directory, under every policy, on a machine where no call fails. -/
theorem snapshot_round_trip {th : TreeHash} {cut : CdcParams → Bytes → List Bytes} {cdc : CdcParams}
    {tree : SourceTree} {id : String} {store store' : ChunkMap} {index : TreeIndex}
    (hcut : CutsWell cut cdc tree) (haddr : Addressed th store)
    (hcoll : NoCollision th cut cdc tree store)
    (hbuild : buildTree th cut tree id cdc store = .ok (index, store')) (policy : MaterializePolicy)
    {io : Nat → KernelReply} (hio : ∀ n, (io n).ok = true) {fs : Fs} {dest root : Path}
    (hroot : fs.canonicalize dest = some root) (hdir : fs.obj root = some .dir)
    (hempty : ∀ q, q ≠ [] → fs.obj (root ++ q) = none) :
    ∃ n w, reconstructTree th dest index.entries store'.asStore policy io 0 ⟨fs, []⟩ =
      (.ok (), n, w) ∧
      Mirrors tree root w.fs := by
  obtain ⟨-, blobId, walked, -, hwalk, rfl, hvalid, rfl⟩ := buildTreeFrom_ok hbuild
  have ok : EntriesOk cdc [] walked.entries := TreeIndex.validate_ok hvalid
  obtain ⟨seen, hperm, hrec⟩ := walkTree_recorded (fun _ _ _ => rfl) hwalk
  have hstock : Stocked th tree (fun b => IsPiece cut cdc tree b ∨ ∃ x, store x = some b) walked :=
    walkTree_stocked (fun b hb => .inl hb) (fun h b hb => ⟨haddr h b hb, .inr ⟨h, hb⟩⟩) hwalk
  have layout := hrec.layout hperm hcut hcoll hstock ok
  obtain ⟨n, w, hrun, hstand⟩ := reconstructTree_layout policy hio layout hroot hdir hempty
  have hmirrors := hstand.passed.mirrors hrec hperm ok hcut (hstock.unmistaken hcoll)
  exact ⟨n, w, hrun, hmirrors⟩

theorem homeSource_cuts : CutsWell shortCut transferCdc homeSource := by
  have hcut : shortCut transferCdc twiceNamed.data = [[97, 98, 99]] := rfl
  refine ⟨fun q f hq => ?_, fun q f hq piece hp => ?_⟩
  · rw [homeItems_file hq, hcut]
    rfl
  · rw [homeItems_file hq, hcut, List.mem_singleton] at hp
    subst hp
    decide

theorem snapshot_round_trip_home : ∃ index store n w, homeBuild = .ok (index, store) ∧
    reconstructTree homeTree ["dst"] index.entries store.asStore ⟨true, false⟩ (failing []) 0
      ⟨emptyDst, []⟩ = (.ok (), n, w) ∧ Mirrors homeSource ["dst"] w.fs := by
  obtain ⟨index, store, hbuild⟩ := homeBuild_ok
  have hcoll : NoCollision homeTree shortCut transferCdc homeSource fun _ => none := by
    rintro piece b ⟨q, f, hq, hp⟩ hb -
    have hcut : shortCut transferCdc twiceNamed.data = [[97, 98, 99]] := rfl
    rw [homeItems_file hq, hcut, List.mem_singleton] at hp
    rcases hb with ⟨q', f', hq', hb⟩ | ⟨h, hb⟩
    · rw [homeItems_file hq', hcut, List.mem_singleton] at hb
      rw [hp, hb]
    · cases hb
  have haddr : Addressed homeTree fun _ => none := by
    intro h b hb
    cases hb
  have hio : ∀ n, (failing [] n).ok = true := by simp [failing]
  have hroot : emptyDst.canonicalize ["dst"] = some ["dst"] := by decide +kernel
  obtain ⟨n, w, hrun, hm⟩ :=
    snapshot_round_trip homeSource_cuts haddr hcoll hbuild ⟨true, false⟩ hio hroot
    (by decide +kernel) emptyDst_empty
  exact ⟨index, store, n, w, hbuild, hrun, hm⟩

def rottenMap : ChunkMap :=
  fun h => if h = shortHash [97, 98, 99] then some [120, 121, 122] else none

def rottenBuild : Result (TreeIndex × ChunkMap) :=
  buildTree homeTree shortCut homeSource "t" transferCdc rottenMap

/-- A build takes a chunk that the store has as stored; reading it back finds out. -/
theorem build_keeps_rot : CutsWell shortCut transferCdc homeSource ∧ ∃ index store,
    rottenBuild = .ok (index, store) ∧ emptyDst.canonicalize ["dst"] = some ["dst"] ∧
      emptyDst.obj ["dst"] = some .dir ∧ (∀ q, q ≠ [] → emptyDst.obj (["dst"] ++ q) = none) ∧
      (reconstructTree homeTree ["dst"] index.entries store.asStore ⟨false, false⟩ (failing []) 0
        ⟨emptyDst, []⟩).1 = .error (.corruptStore (shortHash [97, 98, 99])) := by
  have hrun : (rottenBuild.toOption.map fun r =>
      (reconstructTree homeTree ["dst"] r.1.entries r.2.asStore
      ⟨false, false⟩ (failing []) 0 ⟨emptyDst, []⟩).1) =
        some (.error (.corruptStore (shortHash [97, 98, 99]))) := by decide +kernel
  refine ⟨homeSource_cuts, ?_⟩
  cases h : rottenBuild with
  | error e =>
    rw [h] at hrun
    cases hrun
  | ok r =>
    rw [h] at hrun
    exact ⟨r.1, r.2, rfl,
      by decide +kernel, by decide +kernel, emptyDst_empty, Option.some.inj hrun⟩

end Zblob

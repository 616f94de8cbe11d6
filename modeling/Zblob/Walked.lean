import Mathlib.Data.List.Induction
import Zblob.Source

/-!
What the walk of a source tree produces: an entry for each thing in the tree, hard links
behind the files they name, and a path in each entry that reads back as the names it was
made of.
-/

set_option autoImplicit false

namespace Zblob

def slashJoin : List (List Char) → List Char
  | [] => []
  | [seg] => seg
  | seg :: segs => seg ++ '/' :: slashJoin segs

theorem splitSlash_single {seg : List Char} (h : '/' ∉ seg) : splitSlash seg = [seg] := by
  induction seg with
  | nil => rfl
  | cons c cs ih =>
    simp only [List.mem_cons, not_or] at h
    simp [splitSlash, Ne.symm h.1, ih h.2]

theorem splitSlash_slashJoin {segs : List (List Char)} (hne : segs ≠ [])
    (h : ∀ seg ∈ segs, '/' ∉ seg) : splitSlash (slashJoin segs) = segs := by
  induction segs with
  | nil => exact absurd rfl hne
  | cons seg segs ih =>
    cases segs with
    | nil => exact splitSlash_single (h seg (by simp))
    | cons next segs =>
      simp only [slashJoin]
      rw [splitSlash_append, splitSlash_single (h seg (by simp)),
        ih (by simp) fun s hs => h s (by simp [hs])]
      rfl

theorem slashJoin_concat {segs : List (List Char)} (hne : segs ≠ []) (seg : List Char) :
    slashJoin (segs ++ [seg]) = slashJoin segs ++ '/' :: seg := by
  induction segs with
  | nil => exact absurd rfl hne
  | cons s segs ih =>
    cases segs with
    | nil => rfl
    | cons next segs =>
      have htail := ih (by simp)
      simp only [List.cons_append, slashJoin] at htail ⊢
      rw [htail]
      simp

theorem slashJoin_ne_nil {segs : List (List Char)} (hne : segs ≠ []) (h : ∀ seg ∈ segs, seg ≠ []) :
    slashJoin segs ≠ [] := by
  cases segs with
  | nil => exact absurd rfl hne
  | cons s segs =>
    cases segs with
    | nil => exact h s (by simp)
    | cons next segs => simp [slashJoin]

theorem IsFileName.toList_ne {name : String} (h : IsFileName name) : name.toList ≠ [] := by
  intro he
  exact h.1 (String.toList_eq_nil_iff.mp he)

theorem relPathOf_concat (rel : RelPath) (name : String) : relPathOf (rel ++ [name]) =
    (if (relPathOf rel).isEmpty then relPathOf rel else (relPathOf rel).push '/') ++ name := by
  simp [relPathOf, List.foldl_append]

theorem relPathOf_toList {rel : RelPath} (h : ∀ name ∈ rel, IsFileName name) :
    (relPathOf rel).toList = slashJoin (rel.map String.toList) := by
  induction rel using List.reverseRecOn with
  | nil => rfl
  | append_singleton rel name ih =>
    have hrel := ih fun n hn => h n (by simp [hn])
    rw [relPathOf_concat]
    cases rel with
    | nil => simp [relPathOf, slashJoin]
    | cons first rel =>
      have hne : (relPathOf (first :: rel)).isEmpty = false := by
        rw [String.isEmpty_eq_false_iff]
        intro he
        rw [he] at hrel
        exact slashJoin_ne_nil (by simp) (fun seg hs => by
          obtain ⟨n, hn, rfl⟩ := List.mem_map.mp hs
          exact (h n (List.mem_append_left _ hn)).toList_ne) hrel.symm
      rw [hne, List.map_append, List.map_singleton, slashJoin_concat (by simp)]
      simp [hrel]

theorem segment_name {name : String} (h : IsFileName name) :
    segment name.toList = some (.normal name) := by
  have hdot : name.toList ≠ ['.'] := fun he => h.2.1 (String.ext he)
  have hdots : name.toList ≠ ['.', '.'] := fun he => h.2.2.1 (String.ext he)
  simp [segment, h.toList_ne, hdot, hdots]

theorem filterMap_segment {rel : RelPath} (h : ∀ name ∈ rel, IsFileName name) :
    (rel.map String.toList).filterMap segment = rel.map .normal := by
  induction rel with
  | nil => rfl
  | cons name rel ih =>
    rw [List.map_cons, List.filterMap_cons, segment_name (h name (by simp)), List.map_cons,
      ih fun n hn => h n (by simp [hn])]

theorem components_relPathOf {rel : RelPath} (hne : rel ≠ []) (h : ∀ name ∈ rel, IsFileName name) :
    components (relPathOf rel) = rel.map .normal := by
  have hsplit : splitSlash (relPathOf rel).toList = rel.map String.toList := by
    rw [relPathOf_toList h]
    refine splitSlash_slashJoin (by simpa using hne) fun seg hs => ?_
    obtain ⟨n, hn, rfl⟩ := List.mem_map.mp hs
    exact (h n hn).2.2.2
  cases rel with
  | nil => exact absurd rfl hne
  | cons first rel =>
    have hfirst := h first (by simp)
    have hdot : first.toList ≠ ['.'] := fun he => hfirst.2.1 (String.ext he)
    unfold components
    rw [hsplit, List.map_cons]
    simp only [hfirst.toList_ne, hdot, false_and, if_false, segment_name hfirst, Option.toList_some]
    rw [filterMap_segment fun n hn => h n (by simp [hn])]
    rfl

theorem sanitizeComponents_normal (path : String) (rel : RelPath) :
    sanitizeComponents path (rel.map .normal) = .ok rel := by
  induction rel with
  | nil => rfl
  | cons name rel ih => simp [sanitizeComponents, ih, Except.map]

theorem sanitize_relPathOf {rel : RelPath} (hne : rel ≠ []) (h : ∀ name ∈ rel, IsFileName name) :
    sanitizeRelPath (relPathOf rel) = .ok rel := by
  have hpath : relPathOf rel ≠ "" := by
    intro he
    have htext := relPathOf_toList h
    rw [he] at htext
    have hsegs : ∀ seg ∈ rel.map String.toList, seg ≠ [] := by
      intro seg hs
      obtain ⟨n, hn, rfl⟩ := List.mem_map.mp hs
      exact (h n hn).toList_ne
    exact slashJoin_ne_nil (by simpa using hne) hsegs htext.symm
  unfold sanitizeRelPath
  rw [if_neg hpath, components_relPathOf hne h, sanitizeComponents_normal]
  cases rel with
  | nil => exact absurd rfl hne
  | cons first rel => rfl

theorem relPathOf_injective {a b : RelPath} (ha : a ≠ []) (hb : b ≠ [])
    (hna : ∀ name ∈ a, IsFileName name) (hnb : ∀ name ∈ b, IsFileName name)
    (h : relPathOf a = relPathOf b) : a = b := by
  have hsan := sanitize_relPathOf ha hna
  rw [h, sanitize_relPathOf hb hnb] at hsan
  exact (Except.ok.inj hsan).symm

theorem nodesIn_eq_flatMap (p : RelPath) (items : List SourceItem) :
    nodesIn p items = items.flatMap fun i => nodesAt (p ++ [i.name]) i.node := by
  induction items with
  | nil => rfl
  | cons item items ih =>
    cases item with
    | mk name utf8 node => simp [nodesIn, ih, SourceItem.name, SourceItem.node]

theorem nodesIn_cons (p : RelPath) (item : SourceItem) (items : List SourceItem) :
    nodesIn p (item :: items) = nodesAt (p ++ [item.name]) item.node ++ nodesIn p items := by
  simp [nodesIn_eq_flatMap]

/-- Sorting a directory changes the order of what is in it, and nothing else. -/
theorem nodesIn_sorted (p : RelPath) (items : List SourceItem) :
    (nodesIn p (readDirSorted items)).Perm (nodesIn p items) := by
  rw [nodesIn_eq_flatMap, nodesIn_eq_flatMap]
  exact (List.perm_insertionSort _ items).flatMap_right _

mutual

theorem parent_nodesAt (p : RelPath) (n : SourceNode) (q : RelPath) (m : SourceNode)
    (h : (q, m) ∈ nodesAt p n) : q = p ∨ ∃ mode mtime readable items,
      (q.dropLast, SourceNode.dir mode mtime readable items) ∈ nodesAt p n := by
  cases n with
  | dir mode mtime readable items =>
    simp only [nodesAt, List.mem_cons, Prod.mk.injEq] at h
    rcases h with ⟨rfl, -⟩ | h
    · exact .inl rfl
    · rcases parent_nodesIn p items q m h with hq | ⟨md, mt, r, its, hm⟩
      · exact .inr ⟨mode, mtime, readable, items, by simp [nodesAt, hq]⟩
      · exact .inr ⟨md, mt, r, its, by simp [nodesAt, hm]⟩
  | file f => simp_all [nodesAt]
  | symlink target => simp_all [nodesAt]
  | special => simp_all [nodesAt]
  | denied => simp_all [nodesAt]

theorem parent_nodesIn (p : RelPath) (items : List SourceItem) (q : RelPath) (m : SourceNode)
    (h : (q, m) ∈ nodesIn p items) : q.dropLast = p ∨ ∃ mode mtime readable its,
      (q.dropLast, SourceNode.dir mode mtime readable its) ∈ nodesIn p items := by
  match items with
  | [] => simp [nodesIn] at h
  | .mk name utf8 node :: rest =>
    simp only [nodesIn, List.mem_append] at h ⊢
    rcases h with h | h
    · rcases parent_nodesAt (p ++ [name]) node q m h with rfl | ⟨md, mt, r, its, hm⟩
      · exact .inl (by simp)
      · exact .inr ⟨md, mt, r, its, .inl hm⟩
    · rcases parent_nodesIn p rest q m h with hq | ⟨md, mt, r, its, hm⟩
      · exact .inl hq
      · exact .inr ⟨md, mt, r, its, .inr hm⟩

end

mutual

theorem ne_nil_nodesAt (p : RelPath) (hp : p ≠ []) (n : SourceNode) (q : RelPath) (m : SourceNode)
    (h : (q, m) ∈ nodesAt p n) : q ≠ [] := by
  cases n with
  | dir mode mtime readable items =>
    simp only [nodesAt, List.mem_cons, Prod.mk.injEq] at h
    rcases h with ⟨rfl, -⟩ | h
    · exact hp
    · exact ne_nil_nodesIn p items q m h
  | file f => simp_all [nodesAt]
  | symlink target => simp_all [nodesAt]
  | special => simp_all [nodesAt]
  | denied => simp_all [nodesAt]

theorem ne_nil_nodesIn (p : RelPath) (items : List SourceItem) (q : RelPath) (m : SourceNode)
    (h : (q, m) ∈ nodesIn p items) : q ≠ [] := by
  match items with
  | [] => simp [nodesIn] at h
  | .mk name utf8 node :: rest =>
    simp only [nodesIn, List.mem_append] at h
    rcases h with h | h
    · exact ne_nil_nodesAt (p ++ [name]) (by simp) node q m h
    · exact ne_nil_nodesIn p rest q m h

end

section Tree

variable {t : SourceTree} {q q' : RelPath} {n n' : SourceNode}

theorem SourceTree.ne_nil (h : (q, n) ∈ t.nodes) : q ≠ [] := ne_nil_nodesIn [] t.items q n h

theorem SourceTree.parent (h : (q, n) ∈ t.nodes) : q.dropLast = [] ∨ ∃ mode mtime readable items,
    (q.dropLast, SourceNode.dir mode mtime readable items) ∈ t.nodes :=
    parent_nodesIn [] t.items q n h

theorem SourceTree.unique (h : (q, n) ∈ t.nodes) (h' : (q, n') ∈ t.nodes) : n = n' := by
  have heq := List.inj_on_of_nodup_map t.distinct h h' rfl
  exact (Prod.mk.inj heq).2

theorem SourceTree.sanitize (h : (q, n) ∈ t.nodes) : sanitizeRelPath (relPathOf q) = .ok q :=
  sanitize_relPathOf (t.ne_nil h) (t.names q n h)

theorem SourceTree.relPathOf_inj (h : (q, n) ∈ t.nodes) (h' : (q', n') ∈ t.nodes)
    (he : relPathOf q = relPathOf q') : q = q' :=
  relPathOf_injective (t.ne_nil h) (t.ne_nil h') (t.names q n h) (t.names q' n' h') he

end Tree

def pending (stack : List (RelPath × List SourceItem)) : List (RelPath × SourceNode) :=
  stack.flatMap fun f => nodesIn f.1 f.2

@[simp] theorem pending_nil : pending [] = [] := rfl

@[simp] theorem pending_cons (p : RelPath) (items : List SourceItem)
    (stack : List (RelPath × List SourceItem)) :
    pending ((p, items) :: stack) = nodesIn p items ++ pending stack := by simp [pending]

section Turn

variable {th : TreeHash} {cut : CdcParams → Bytes → List Bytes} {cdc : CdcParams}
  {reusable : String → Option Entry} {s t : Walk}

def chunkRefs (th : TreeHash) (pieces : List Bytes) : List ChunkRef :=
  pieces.map fun p => ⟨th.hash p, UInt32.ofNat p.length⟩

def stock (th : TreeHash) (store : ChunkMap) (pieces : List Bytes) : ChunkMap :=
  pieces.foldl (fun m p => if m.has (th.hash p) then m else m.put (th.hash p, p)) store

theorem foldl_storePiece (pieces : List Bytes) (refs : List ChunkRef)
    (size : Nat) (store : ChunkMap) :
    pieces.foldl (storePiece th) (refs, size, store) =
      (refs ++ chunkRefs th pieces, size + pieces.flatten.length, stock th store pieces) := by
  induction pieces generalizing refs size store with
  | nil => simp [chunkRefs, stock]
  | cons p pieces ih =>
    rw [List.foldl_cons, storePiece, ih]
    simp [chunkRefs, stock, Nat.add_assoc]

def fileEntry (th : TreeHash) (cut : CdcParams → Bytes → List Bytes)
    (cdc : CdcParams) (rel : String)
    (f : SourceFile) : Entry :=
  .file rel f.mode f.mtime (UInt64.ofNat (cut cdc f.data).flatten.length)
    (chunkRefs th (cut cdc f.data))

def noteInode (f : SourceFile) (rel : String) (inodes : List ((Nat × Nat) × String)) :
    List ((Nat × Nat) × String) :=
  if f.nlink > 1 then (f.inode, rel) :: inodes else inodes

theorem hardlinkTarget_some {f : SourceFile} {rel first : String}
    {inodes inodes' : List ((Nat × Nat) × String)}
    (h : hardlinkTarget f rel inodes = (some first, inodes')) :
    1 < f.nlink ∧ lookupInode inodes f.inode = some first := by
  unfold hardlinkTarget at h
  split at h
  · rename_i hn
    split at h
    · rename_i path hl
      cases h
      exact ⟨hn, hl⟩
    · cases h
  · cases h

theorem hardlinkTarget_none {f : SourceFile} {rel : String}
    {inodes inodes' : List ((Nat × Nat) × String)}
    (h : hardlinkTarget f rel inodes = (none, inodes')) :
    inodes' = noteInode f rel inodes ∧ (1 < f.nlink → lookupInode inodes f.inode = none) := by
  unfold hardlinkTarget at h
  unfold noteInode
  split at h
  · rename_i hn
    split at h
    · cases h
    · rename_i hl
      cases h
      exact ⟨(if_pos hn).symm, fun _ => hl⟩
  · rename_i hn
    cases h
    exact ⟨(if_neg hn).symm, fun h => absurd h hn⟩

theorem walkFile_cases {rel : String} {f : SourceFile}
    (h : walkFile th cut cdc reusable s rel f = .ok t) :
    (∃ first, 1 < f.nlink ∧ lookupInode s.inodes f.inode = some first ∧
      t = { s with entries := s.entries ++ [.hardlink rel first] }) ∨
    (1 < f.nlink → lookupInode s.inodes f.inode = none) ∧
      ((∃ size chunks, reuseChunks reusable s.store rel f = some (size, chunks) ∧
        t = { s with
          inodes := noteInode f rel s.inodes
          entries := s.entries ++ [.file rel f.mode f.mtime size chunks] }) ∨
      reuseChunks reusable s.store rel f = none ∧ f.readable = true ∧
        t = { s with
          inodes := noteInode f rel s.inodes
          entries := s.entries ++ [fileEntry th cut cdc rel f]
          store := stock th s.store (cut cdc f.data) }) := by
  unfold walkFile at h
  split at h
  · rename_i first inodes' hl
    cases h
    obtain ⟨hn, hl⟩ := hardlinkTarget_some hl
    exact .inl ⟨first, hn, hl, rfl⟩
  · rename_i inodes' hl
    obtain ⟨rfl, hnew⟩ := hardlinkTarget_none hl
    refine .inr ⟨hnew, ?_⟩
    split at h
    · rename_i size chunks hr
      cases h
      exact .inl ⟨size, chunks, hr, rfl⟩
    · rename_i hr
      split at h
      · rename_i hread
        rw [foldl_storePiece] at h
        cases h
        exact .inr ⟨hr, hread, by simp [fileEntry]⟩
      · cases h

theorem walkItem_cases {dir : RelPath} {item : SourceItem}
    (h : walkItem th cut cdc reusable s dir item = .ok t) :
    (∃ target, item.node = .symlink (some target) ∧
      t = { s with entries := s.entries ++ [.symlink (relPathOf (dir ++ [item.name])) target] }) ∨
    (∃ mode mtime items, item.node = .dir mode mtime true items ∧
      t = { s with
        entries := s.entries ++ [.dir (relPathOf (dir ++ [item.name])) mode mtime]
        stack := (dir ++ [item.name], readDirSorted items) :: s.stack }) ∨
    ∃ f, item.node = .file f ∧
      walkFile th cut cdc reusable s (relPathOf (dir ++ [item.name])) f = .ok t := by
  unfold walkItem at h
  cases hnode : item.node with
  | denied =>
    simp only [hnode] at h
    cases h
  | special =>
    simp only [hnode] at h
    split at h <;> cases h
  | symlink target =>
    simp only [hnode] at h
    split at h
    · cases h
    · cases target with
      | none => cases h
      | some target =>
        cases h
        exact .inl ⟨target, rfl, rfl⟩
  | dir mode mtime readable items =>
    simp only [hnode] at h
    split at h
    · cases h
    · cases readable with
      | false => cases h
      | true =>
        cases h
        exact .inr (.inl ⟨mode, mtime, items, rfl, rfl⟩)
  | file f =>
    simp only [hnode] at h
    split at h
    · cases h
    · exact .inr (.inr ⟨f, rfl, h⟩)

/-- What every turn keeps holds when the walk is over. -/
theorem walkLoop_invariant {I : Walk → Prop}
    (hpop : ∀ s dir rest, I s → s.stack = (dir, []) :: rest → I { s with stack := rest })
    (hitem : ∀ s t dir item items rest, I s → s.stack = (dir, item :: items) :: rest →
      walkItem th cut cdc reusable { s with stack := (dir, items) :: rest } dir item = .ok t → I t)
    {fuel : Nat} (hs : I s) (h : walkLoop th cut cdc reusable fuel s = .ok t) : I t ∧
      t.stack = [] := by
  induction fuel generalizing s with
  | zero => cases h
  | succ fuel ih =>
    unfold walkLoop at h
    split at h
    · rename_i hstack
      cases h
      exact ⟨hs, hstack⟩
    · rename_i dir rest hstack
      exact ih (hpop s dir rest hs hstack) h
    · rename_i dir item items rest hstack
      cases hi : walkItem th cut cdc reusable { s with stack := (dir, items) :: rest } dir item with
      | error e => simp [hi] at h
      | ok u =>
        simp only [hi] at h
        exact ih (hitem s u dir item items rest hs hstack hi) h

end Turn

/-- A bound on the turns to come: two for each name, one for each open directory. -/
def turnsLeft (stack : List (RelPath × List SourceItem)) : Nat :=
  (stack.map fun f => 2 * (nodesIn f.1 f.2).length + 1).sum

theorem turnsLeft_cons (p : RelPath) (items : List SourceItem)
    (stack : List (RelPath × List SourceItem)) :
    turnsLeft ((p, items) :: stack) = 2 * (nodesIn p items).length + 1 + turnsLeft stack := by
  simp [turnsLeft]

section Fuel

variable {th : TreeHash} {cut : CdcParams → Bytes → List Bytes} {cdc : CdcParams}
  {reusable : String → Option Entry}

theorem walkItem_turnsLeft {s t : Walk} {dir : RelPath} {item : SourceItem}
    (h : walkItem th cut cdc reusable s dir item = .ok t) :
    turnsLeft t.stack <
      turnsLeft s.stack + 2 * (nodesAt (dir ++ [item.name]) item.node).length := by
  rcases walkItem_cases h with ⟨target, hn, rfl⟩ | ⟨mode, mtime, items, hn, rfl⟩ | ⟨f, hn, hf⟩
  · simp [hn, nodesAt]
  · have hlen := (nodesIn_sorted (dir ++ [item.name]) items).length_eq
    rw [hn, turnsLeft_cons, nodesAt, List.length_cons, hlen]
    omega
  · have hstack : t.stack = s.stack := by
      rcases walkFile_cases hf with ⟨first, -, -, rfl⟩ | ⟨-, ⟨size, chunks, -, rfl⟩ | ⟨-, -, rfl⟩⟩
      · rfl
      · rfl
      · rfl
    simp [hn, nodesAt, hstack]

/-- Beyond the bound the number of turns makes no difference, so a walk never ends for want
of them. -/
theorem walkLoop_enough {s : Walk} {fuel fuel' : Nat} (h : turnsLeft s.stack < fuel)
    (h' : turnsLeft s.stack < fuel') :
    walkLoop th cut cdc reusable fuel s = walkLoop th cut cdc reusable fuel' s := by
  induction fuel generalizing s fuel' with
  | zero => omega
  | succ fuel ih =>
    cases fuel' with
    | zero => omega
    | succ fuel' =>
      unfold walkLoop
      split
      · rfl
      · rename_i dir rest hstack
        rw [hstack, turnsLeft_cons] at h h'
        exact ih (by simp only; omega) (by simp only; omega)
      · rename_i dir item items rest hstack
        cases hi : walkItem th cut cdc reusable { s with stack := (dir, items) :: rest }
          dir item with
        | error e => rfl
        | ok t =>
          have hlt := walkItem_turnsLeft hi
          rw [hstack, turnsLeft_cons, nodesIn_cons, List.length_append] at h h'
          rw [turnsLeft_cons] at hlt
          exact ih (by omega) (by omega)

theorem walkTree_turns (tree : SourceTree) (store : ChunkMap) {fuel : Nat}
    (h : 2 * tree.nodes.length + 2 ≤ fuel) (hread : tree.readable = true) :
    walkTree th cut cdc reusable tree store =
      walkLoop th cut cdc reusable fuel ⟨[([], readDirSorted tree.items)], [], [], store⟩ := by
  have hlen : (nodesIn [] (readDirSorted tree.items)).length = tree.nodes.length :=
    (nodesIn_sorted [] tree.items).length_eq
  have hturns : turnsLeft [([], readDirSorted tree.items)] = 2 * tree.nodes.length + 1 := by
    rw [turnsLeft_cons, hlen]
    rfl
  unfold walkTree
  rw [if_pos hread]
  exact walkLoop_enough (by simp only [hturns]; omega) (by simp only [hturns]; omega)

end Fuel

section Recorded

variable (th : TreeHash) (cut : CdcParams → Bytes → List Bytes) (cdc : CdcParams)
  (tree : SourceTree)

inductive Describes (q : RelPath) : SourceNode → Entry → Prop
  | dir {mode : UInt32} {mtime : Int64} {readable : Bool} {items : List SourceItem} :
      Describes q (.dir mode mtime readable items) (.dir (relPathOf q) mode mtime)
  | symlink {target : String} :
      Describes q (.symlink (some target)) (.symlink (relPathOf q) target)
  | file {f : SourceFile} : Describes q (.file f) (fileEntry th cut cdc (relPathOf q) f)
  | hardlink {f : SourceFile} {first : String} :
    Describes q (.file f) (.hardlink (relPathOf q) first)

/-- The state of a walk that has got past `seen`. -/
structure Recorded (seen : List (RelPath × SourceNode)) (s : Walk) : Prop where
  cover : (seen ++ pending s.stack).Perm tree.nodes
  nodeOf : ∀ q n, (q, n) ∈ seen → ∃ e ∈ s.entries, Describes th cut cdc q n e
  entryOf : ∀ e ∈ s.entries, ∃ q n, (q, n) ∈ seen ∧ Describes th cut cdc q n e
  first : ∀ inode path, lookupInode s.inodes inode = some path → ∃ q f, (q, .file f) ∈ seen ∧
    f.inode = inode ∧ path = relPathOf q ∧ fileEntry th cut cdc (relPathOf q) f ∈ s.entries
  own : ∀ q f, (q, .file f) ∈ seen → fileEntry th cut cdc (relPathOf q) f ∈ s.entries →
    1 < f.nlink →
    lookupInode s.inodes f.inode = some (relPathOf q)
  links : ∀ before path target after, s.entries = before ++ .hardlink path target :: after →
    ∃ q f q' f', (q, .file f) ∈ seen ∧ path = relPathOf q ∧ (q', .file f') ∈ seen ∧
      target = relPathOf q' ∧ f.inode = f'.inode ∧ fileEntry th cut cdc (relPathOf q') f' ∈ before

end Recorded

section Record

variable {th : TreeHash} {cut : CdcParams → Bytes → List Bytes} {cdc : CdcParams}
  {tree : SourceTree}
  {seen : List (RelPath × SourceNode)} {s : Walk} {q₀ : RelPath} {n₀ : SourceNode} {e : Entry}
  {stack : List (RelPath × List SourceItem)} {inodes : List ((Nat × Nat) × String)}
    {store : ChunkMap}

theorem lookupInode_cons (key : Nat × Nat) (path : String) (inodes : List ((Nat × Nat) × String))
    (k : Nat × Nat) : lookupInode ((key, path) :: inodes) k =
      if key = k then some path else lookupInode inodes k := by
  unfold lookupInode
  rw [List.find?_cons]
  by_cases h : key = k
  · simp [h]
  · simp [h]

theorem Describes.path (h : Describes th cut cdc q₀ n₀ e) : e.path = relPathOf q₀ := by
  cases h <;> rfl

theorem Recorded.fresh (h : Recorded th cut cdc tree seen s)
    (hnext : (q₀, n₀) ∈ pending s.stack) : ∀ n, (q₀, n) ∉ seen := by
  intro n hn
  have hnd : ((seen ++ pending s.stack).map Prod.fst).Nodup :=
    (h.cover.map Prod.fst).nodup_iff.mpr tree.distinct
  rw [List.map_append, List.nodup_append] at hnd
  exact hnd.2.2 q₀ (List.mem_map.mpr ⟨_, hn, rfl⟩) q₀ (List.mem_map.mpr ⟨_, hnext, rfl⟩) rfl

theorem Recorded.push (h : Recorded th cut cdc tree seen s)
    (hcover : (seen ++ (q₀, n₀) :: pending stack).Perm tree.nodes)
    (hd : Describes th cut cdc q₀ n₀ e)
    (hfirst : ∀ inode path, lookupInode inodes inode = some path →
      lookupInode s.inodes inode = some path ∨ ∃ f, n₀ = .file f ∧ f.inode = inode ∧
        path = relPathOf q₀ ∧ e = fileEntry th cut cdc (relPathOf q₀) f)
    (hown : ∀ q f, (q, .file f) ∈ seen ++ [(q₀, n₀)] →
      fileEntry th cut cdc (relPathOf q) f ∈ s.entries ++ [e] → 1 < f.nlink →
      lookupInode inodes f.inode = some (relPathOf q))
    (hlink : ∀ path target, e = .hardlink path target → ∃ f, n₀ = .file f ∧
      lookupInode s.inodes f.inode = some target) :
    Recorded th cut cdc tree (seen ++ [(q₀, n₀)]) ⟨stack, inodes, s.entries ++ [e], store⟩ := by
  refine ⟨by simpa using hcover, ?_, ?_, ?_, hown, ?_⟩
  · intro q n hm
    rcases List.mem_append.mp hm with hm | hm
    · obtain ⟨x, hx, hdx⟩ := h.nodeOf q n hm
      exact ⟨x, List.mem_append_left _ hx, hdx⟩
    · cases List.mem_singleton.mp hm
      exact ⟨e, by simp, hd⟩
  · intro x hx
    rcases List.mem_append.mp hx with hx | hx
    · obtain ⟨q, n, hm, hdx⟩ := h.entryOf x hx
      exact ⟨q, n, List.mem_append_left _ hm, hdx⟩
    · cases List.mem_singleton.mp hx
      exact ⟨q₀, n₀, by simp, hd⟩
  · intro inode path hl
    rcases hfirst inode path hl with hl | ⟨f, rfl, hf, rfl, rfl⟩
    · obtain ⟨q, f, hm, hf, hp, he⟩ := h.first inode path hl
      exact ⟨q, f, List.mem_append_left _ hm, hf, hp, List.mem_append_left _ he⟩
    · exact ⟨q₀, f, by simp, hf, rfl, by simp⟩
  · intro before path target after heq
    simp only at heq
    rcases List.eq_nil_or_concat after with rfl | ⟨after, last, rfl⟩
    · obtain ⟨rfl, he⟩ := List.append_inj' heq rfl
      cases he
      obtain ⟨f, rfl, hl⟩ := hlink path target rfl
      obtain ⟨q', f', hm', hf', hp', he'⟩ := h.first _ _ hl
      cases hd with
      | hardlink => exact ⟨q₀, f, q', f', by simp, rfl, by simp [hm'], hp', hf'.symm, he'⟩
    · have hsplit : s.entries = before ++ .hardlink path target :: after := by
        have hass : s.entries ++ [e] = (before ++ .hardlink path target :: after) ++ [last] := by
          rw [heq]
          simp
        exact (List.append_inj' hass rfl).1
      obtain ⟨q, f, q', f', hm, hp, hm', hp', hf, he⟩ := h.links before path target after hsplit
      exact ⟨q, f, q', f', List.mem_append_left _ hm, hp, List.mem_append_left _ hm', hp', hf, he⟩

theorem Recorded.plain (h : Recorded th cut cdc tree seen s)
    (hcover : (seen ++ (q₀, n₀) :: pending stack).Perm tree.nodes)
    (hd : Describes th cut cdc q₀ n₀ e) (hn : ∀ f, n₀ ≠ .file f) :
    Recorded th cut cdc tree (seen ++ [(q₀, n₀)]) ⟨stack, s.inodes, s.entries ++ [e], store⟩ := by
  have he : ∀ rel f, e ≠ fileEntry th cut cdc rel f := by
    intro rel f heq
    cases hd with
    | dir => cases heq
    | symlink => cases heq
    | file => exact hn _ rfl
    | hardlink => exact hn _ rfl
  refine h.push hcover hd (fun inode path hl => .inl hl) (fun q f hm hf hlink => ?_)
    fun path target heq => ?_
  · have hm : (q, .file f) ∈ seen := by
      rcases List.mem_append.mp hm with hm | hm
      · exact hm
      · cases List.mem_singleton.mp hm
        exact absurd rfl (hn f)
    have hf : fileEntry th cut cdc (relPathOf q) f ∈ s.entries := by
      rcases List.mem_append.mp hf with hf | hf
      · exact hf
      · exact absurd (List.mem_singleton.mp hf).symm (he _ f)
    exact h.own q f hm hf hlink
  · subst heq
    cases hd with
    | hardlink => exact absurd rfl (hn _)

theorem mem_of_cover (hcover : (seen ++ (q₀, n₀) :: pending stack).Perm tree.nodes)
    {x : RelPath × SourceNode} (hx : x ∈ seen ++ [(q₀, n₀)]) : x ∈ tree.nodes := by
  refine hcover.mem_iff.mp ?_
  simp only [List.mem_append, List.mem_cons, List.not_mem_nil, or_false] at hx ⊢
  tauto

theorem Recorded.secondName {f : SourceFile} {first : String} (h : Recorded th cut cdc tree seen s)
    (hnew : ∀ n, (q₀, n) ∉ seen)
    (hcover : (seen ++ (q₀, .file f) :: pending stack).Perm tree.nodes)
    (hl : lookupInode s.inodes f.inode = some first) :
    Recorded th cut cdc tree (seen ++ [(q₀, .file f)])
      ⟨stack, s.inodes, s.entries ++ [.hardlink (relPathOf q₀) first], store⟩ := by
  refine h.push hcover .hardlink (fun inode path hl => .inl hl) (fun q g hm hf hlink => ?_)
    fun path target heq => ?_
  · have hold : fileEntry th cut cdc (relPathOf q) g ∈ s.entries := by
      rcases List.mem_append.mp hf with hf | hf
      · exact hf
      · cases List.mem_singleton.mp hf
    rcases List.mem_append.mp hm with hseen | hlast
    · exact h.own q g hseen hold hlink
    · -- an entry of this path would stand for an earlier thing
      cases List.mem_singleton.mp hlast
      obtain ⟨q, n, hseen, hd⟩ := h.entryOf _ hold
      have hpath : relPathOf q = relPathOf q₀ := hd.path.symm
      have hq := tree.relPathOf_inj (mem_of_cover hcover (List.mem_append_left _ hseen))
        (mem_of_cover hcover hm) hpath
      exact absurd (hq ▸ hseen) (hnew n)
  · cases heq
    exact ⟨f, rfl, hl⟩

theorem Recorded.firstName {f : SourceFile} (h : Recorded th cut cdc tree seen s)
    (hnew : ∀ n, (q₀, n) ∉ seen)
    (hcover : (seen ++ (q₀, .file f) :: pending stack).Perm tree.nodes)
    (hl : 1 < f.nlink → lookupInode s.inodes f.inode = none) :
    Recorded th cut cdc tree (seen ++ [(q₀, .file f)])
      ⟨stack, noteInode f (relPathOf q₀) s.inodes,
        s.entries ++ [fileEntry th cut cdc (relPathOf q₀) f], store⟩ := by
  refine h.push hcover .file (fun inode path hl' => ?_) (fun q g hm hf hlink => ?_) nofun
  · unfold noteInode at hl'
    split at hl'
    · rw [lookupInode_cons] at hl'
      split at hl'
      · rename_i hkey
        cases hl'
        exact .inr ⟨f, rfl, hkey, rfl, rfl⟩
      · exact .inl hl'
    · exact .inl hl'
  · rcases List.mem_append.mp hm with hseen | hlast
    · have hold : fileEntry th cut cdc (relPathOf q) g ∈ s.entries := by
        rcases List.mem_append.mp hf with hf | hf
        · exact hf
        · have hpath : relPathOf q = relPathOf q₀ := congrArg Entry.path (List.mem_singleton.mp hf)
          have hq := tree.relPathOf_inj (mem_of_cover hcover hm)
            (mem_of_cover hcover (List.mem_append_right _ (List.mem_singleton_self _))) hpath
          exact absurd (hq ▸ hseen) (hnew _)
      have hlookup := h.own q g hseen hold hlink
      unfold noteInode
      split
      · rename_i hn
        have hkey : f.inode ≠ g.inode := by
          intro hk
          rw [← hk, hl hn] at hlookup
          cases hlookup
        rw [lookupInode_cons, if_neg hkey]
        exact hlookup
      · exact hlookup
    · cases List.mem_singleton.mp hlast
      unfold noteInode
      rw [if_pos hlink, lookupInode_cons, if_pos rfl]

end Record

section Whole

variable {th : TreeHash} {cut : CdcParams → Bytes → List Bytes} {cdc : CdcParams}
  {tree : SourceTree}
  {reusable : String → Option Entry} {s t : Walk}

theorem Recorded.item (hread : ∀ store rel f, reuseChunks reusable store rel f = none)
    {seen : List (RelPath × SourceNode)} {dir : RelPath} {item : SourceItem}
    {items : List SourceItem}
    {rest : List (RelPath × List SourceItem)} (h : Recorded th cut cdc tree seen s)
    (hstack : s.stack = (dir, item :: items) :: rest)
    (ht : walkItem th cut cdc reusable { s with stack := (dir, items) :: rest } dir item = .ok t) :
    ∃ seen', Recorded th cut cdc tree seen' t := by
  have hcover := h.cover
  rw [hstack, pending_cons, nodesIn_cons, List.append_assoc, ← pending_cons] at hcover
  have hnew : ∀ n, (dir ++ [item.name], item.node) ∈ nodesAt (dir ++ [item.name]) item.node →
      (dir ++ [item.name], n) ∉ seen := by
    intro n hn
    have hnext : (dir ++ [item.name], item.node) ∈ pending s.stack := by
      rw [hstack, pending_cons, nodesIn_cons]
      simp [hn]
    exact h.fresh hnext n
  rcases walkItem_cases ht with ⟨target, hn, rfl⟩ | ⟨mode, mtime, its, hn, rfl⟩ | ⟨f, hn, hf⟩
  · rw [hn, nodesAt] at hcover
    exact ⟨_, h.plain hcover .symlink (by simp)⟩
  · rw [hn, nodesAt, List.cons_append] at hcover
    refine ⟨_, h.plain ?_ (@Describes.dir th cut cdc _ mode mtime true its) (by simp)⟩
    rw [pending_cons]
    refine (List.Perm.append_left seen (List.Perm.cons _ ?_)).trans hcover
    exact (nodesIn_sorted _ its).append_right _
  · rw [hn, nodesAt, List.singleton_append] at hcover
    have hnew := fun n => hnew n (by simp [hn, nodesAt])
    rcases walkFile_cases hf with ⟨first, hlink, hl, rfl⟩ |
      ⟨hl, ⟨size, chunks, hr, rfl⟩ | ⟨-, -, rfl⟩⟩
    · exact ⟨_, h.secondName hnew hcover hl⟩
    · rw [hread] at hr
      cases hr
    · exact ⟨_, h.firstName hnew hcover hl⟩

/-- When the walk is over, everything in the tree has its entry. -/
theorem walkTree_recorded (hread : ∀ store rel f, reuseChunks reusable store rel f = none)
    {store : ChunkMap} (h : walkTree th cut cdc reusable tree store = .ok t) :
    ∃ seen, seen.Perm tree.nodes ∧ Recorded th cut cdc tree seen t := by
  unfold walkTree at h
  split at h
  · have start : Recorded th cut cdc tree [] ⟨[([], readDirSorted tree.items)], [], [], store⟩ := by
      refine ⟨?_, by simp, by simp, ?_, by simp, by simp⟩
      · simpa [pending, SourceTree.nodes] using nodesIn_sorted [] tree.items
      · intro inode path hl
        cases hl
    have hpop : ∀ (s : Walk) dir rest, (∃ seen, Recorded th cut cdc tree seen s) →
        s.stack = (dir, []) :: rest → ∃ seen,
        Recorded th cut cdc tree seen { s with stack := rest } := by
      rintro s dir rest ⟨seen, hs⟩ hstack
      refine ⟨seen, ?_, hs.nodeOf, hs.entryOf, hs.first, hs.own, hs.links⟩
      have hcover := hs.cover
      rw [hstack, pending_cons] at hcover
      simpa [nodesIn] using hcover
    obtain ⟨⟨seen, hrec⟩, hstack⟩ := walkLoop_invariant hpop
      (fun s u dir item items rest ⟨seen, hs⟩ hstack hi => hs.item hread hstack hi) ⟨[], start⟩ h
    refine ⟨seen, ?_, hrec⟩
    have hcover := hrec.cover
    rwa [hstack, pending_nil, List.append_nil] at hcover
  · cases h

end Whole

end Zblob

import Mathlib.Data.List.Sort
import Zblob.Fetch

/-!
Building a snapshot: a directory tree is walked with an explicit stack, its files are cut
into chunks that go into a store, and a second name of an inode becomes a hard link. With
a parent snapshot, a file that looks unchanged is not read.
-/

set_option autoImplicit false

namespace Zblob

structure SourceFile where
  mode : UInt32
  mtime : Int64
  /-- `(dev, ino)` -/
  inode : Nat × Nat
  nlink : Nat
  readable : Bool
  data : Bytes
  deriving DecidableEq

mutual

/-- What a name in the source stands for. A target that is not UTF-8 is `none`; `denied`
is a name whose metadata cannot be had. -/
inductive SourceNode where
  | dir (mode : UInt32) (mtime : Int64) (readable : Bool) (items : List SourceItem)
  | file (f : SourceFile)
  | symlink (target : Option String)
  | special
  | denied

/-- A name in a directory. One that is not UTF-8 is given in an escaped form. -/
inductive SourceItem where
  | mk (name : String) (utf8 : Bool) (node : SourceNode)

end

def SourceItem.name : SourceItem → String
  | .mk name _ _ => name

def SourceItem.utf8 : SourceItem → Bool
  | .mk _ utf8 _ => utf8

def SourceItem.node : SourceItem → SourceNode
  | .mk _ _ node => node

mutual

def nodesAt (p : RelPath) : SourceNode → List (RelPath × SourceNode)
  | .dir mode mtime readable items => (p, .dir mode mtime readable items) :: nodesIn p items
  | .file f => [(p, .file f)]
  | .symlink target => [(p, .symlink target)]
  | .special => [(p, .special)]
  | .denied => [(p, .denied)]

def nodesIn (p : RelPath) : List SourceItem → List (RelPath × SourceNode)
  | [] => []
  | .mk name _ node :: rest => nodesAt (p ++ [name]) node ++ nodesIn p rest

end

def IsFileName (name : String) : Prop :=
  name ≠ "" ∧ name ≠ "." ∧ name ≠ ".." ∧ '/' ∉ name.toList

/-- A static source directory. Each path names one thing; two names of one inode show the
same file, and the inode counts both. -/
structure SourceTree where
  readable : Bool
  items : List SourceItem
  distinct : ((nodesIn [] items).map Prod.fst).Nodup
  names : ∀ q n, (q, n) ∈ nodesIn [] items → ∀ name ∈ q, IsFileName name
  shared : ∀ q f q' f', (q, SourceNode.file f) ∈ nodesIn [] items →
    (q', SourceNode.file f') ∈ nodesIn [] items → f.inode = f'.inode →
    f = f' ∧ (q ≠ q' → 1 < f.nlink)

def SourceTree.nodes (t : SourceTree) : List (RelPath × SourceNode) := nodesIn [] t.items

def relPathOf (rel : RelPath) : String :=
  rel.foldl (fun out s => (if out.isEmpty then out else out.push '/') ++ s) ""

def readDirSorted (items : List SourceItem) : List SourceItem :=
  items.insertionSort fun a b => a.name ≤ b.name

structure Walk where
  stack : List (RelPath × List SourceItem)
  inodes : List ((Nat × Nat) × String)
  entries : List Entry
  store : ChunkMap

def lookupInode (inodes : List ((Nat × Nat) × String)) (key : Nat × Nat) : Option String :=
  (inodes.find? fun i => i.1 = key).map Prod.snd

def hardlinkTarget (f : SourceFile) (rel : String) (inodes : List ((Nat × Nat) × String)) :
    Option String × List ((Nat × Nat) × String) :=
  if f.nlink > 1 then
    match lookupInode inodes f.inode with
    | some first => (some first, inodes)
    | none => (none, (f.inode, rel) :: inodes)
  else (none, inodes)

section Build

variable (th : TreeHash) (cut : CdcParams → Bytes → List Bytes) (cdc : CdcParams)
  (reusable : String → Option Entry)

def storePiece (acc : List ChunkRef × Nat × ChunkMap) (piece : Bytes) :
    List ChunkRef × Nat × ChunkMap :=
  (acc.1 ++ [⟨th.hash piece, UInt32.ofNat piece.length⟩], acc.2.1 + piece.length,
    if acc.2.2.has (th.hash piece) then acc.2.2 else acc.2.2.put (th.hash piece, piece))

def reuseChunks (store : ChunkMap) (rel : String) (f : SourceFile) :
    Option (UInt64 × List ChunkRef) :=
  match reusable rel with
  | some (.file _ _ prevMtime prevSize prevChunks) =>
    if prevSize = UInt64.ofNat f.data.length ∧ prevMtime = f.mtime ∧
        (prevChunks.all fun c => store.has c.hash) = true then some (prevSize, prevChunks)
    else none
  | _ => none

def walkFile (s : Walk) (rel : String) (f : SourceFile) : Result Walk :=
  match hardlinkTarget f rel s.inodes with
  | (some first, _) => .ok { s with entries := s.entries ++ [.hardlink rel first] }
  | (none, inodes) =>
    match reuseChunks reusable s.store rel f with
    | some (size, chunks) =>
      .ok { s with inodes := inodes, entries := s.entries ++
        [.file rel f.mode f.mtime size chunks] }
    | none =>
      if f.readable then
        let (refs, size, store) := (cut cdc f.data).foldl (storePiece th) ([], 0, s.store)
        .ok { s with
          inodes := inodes
          entries := s.entries ++ [.file rel f.mode f.mtime (UInt64.ofNat size) refs]
          store := store }
      else .error .io

def walkItem (s : Walk) (dir : RelPath) (item : SourceItem) : Result Walk :=
  match item.node with
  | .denied => .error .io
  | node =>
    if item.utf8 = false then
      .error (.usage ("non-UTF-8 file name in tree: " ++ debugStr (relPathOf (dir ++ [item.name]))))
    else
      let rel := relPathOf (dir ++ [item.name])
      match node with
      | .symlink none => .error (.usage ("non-UTF-8 symlink target at " ++ debugStr rel))
      | .symlink (some target) => .ok { s with entries := s.entries ++ [.symlink rel target] }
      | .dir mode mtime readable items =>
        if readable then
          .ok { s with
            entries := s.entries ++ [.dir rel mode mtime]
            stack := (dir ++ [item.name], readDirSorted items) :: s.stack }
        else .error .io
      | .file f => walkFile th cut cdc reusable s rel f
      | _ =>
        .error (.usage ("unsupported file type at " ++ debugStr rel ++ " (fifo/socket/device)"))

/-- The loop of `walk`. Each turn takes a name or leaves a directory, so twice the number
of names is enough of them. -/
def walkLoop : Nat → Walk → Result Walk
  | 0, _ => .error .io
  | fuel + 1, s =>
    match s.stack with
    | [] => .ok s
    | (_, []) :: rest => walkLoop fuel { s with stack := rest }
    | (dir, item :: items) :: rest =>
      match walkItem th cut cdc reusable { s with stack := (dir, items) :: rest } dir item with
      | .error e => .error e
      | .ok s => walkLoop fuel s

def walkTree (tree : SourceTree) (store : ChunkMap) : Result Walk :=
  if tree.readable then
    walkLoop th cut cdc reusable (2 * tree.nodes.length + 2)
      ⟨[([], readDirSorted tree.items)], [], [], store⟩
  else .error .io

end Build

def reusableEntries (parent : Option TreeIndex) (rel : String) : Option Entry :=
  match parent with
  | none => none
  | some parent =>
    parent.entries.reverse.find? fun e => e.path = rel ∧ (match e with
      | .file _ _ _ _ _ => true
      | _ => false) = true

section BuildTree

variable (th : TreeHash) (cut : CdcParams → Bytes → List Bytes)

def buildTreeFrom (tree : SourceTree) (id : String) (cdc : CdcParams) (store : ChunkMap)
    (parent : Option TreeIndex) : Result (TreeIndex × ChunkMap) := do
  cdc.validate
  let id ← BlobId.new id
  match parent.filter fun p => p.cdc ≠ cdc with
  | some p => .error (.usage ("parent snapshot was cut with different CDC parameters (" ++
      p.cdc.debug ++ " vs " ++ cdc.debug ++ "); its chunk references would not tile under these"))
  | none =>
    let walked ← walkTree th cut cdc (reusableEntries parent) tree store
    let index : TreeIndex :=
      ⟨wireVersion, id, .blake3, cdc, walked.entries, th.rootDigest walked.entries⟩
    index.validate th
    .ok (index, walked.store)

def buildTree (tree : SourceTree) (id : String) (cdc : CdcParams) (store : ChunkMap) :
    Result (TreeIndex × ChunkMap) := buildTreeFrom th cut tree id cdc store none

end BuildTree

end Zblob

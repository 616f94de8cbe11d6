import Zblob.Posix
import Zblob.Tree
import Zblob.Verify

/-!
Materialization: an index laid out under a directory that may already hold anything.
Directories first, then files and hard links, then symlinks, and at the end the times and
modes of the directories.
-/

set_option autoImplicit false

namespace Zblob

open Program

structure MaterializePolicy where
  replaceDirectories : Bool
  restoreSetid : Bool

/-- A store may answer one question differently at different moments. -/
structure ContentStore where
  get : Nat → Hash → Result (Option Bytes)

def modeMask : UInt32 := 0o0777

def MaterializePolicy.bits (policy : MaterializePolicy) (mode : UInt32) : UInt32 :=
  if policy.restoreSetid then mode &&& 0o7777 else mode &&& modeMask

namespace Kernel

variable (k : Kernel)

def createDirsFrom (rel : RelPath) : Path → List String → FsProg Path
  | cur, [] => pure cur
  | cur, name :: rest => do
    let cur := cur ++ [name]
    match ← k.ask (.look false cur) (·.lstat cur) with
    | .ok (.symlink _) =>
      .fail (.unsafePath ("refusing to traverse symlink at " ++ Path.debug cur ++
        " while materializing " ++ debugStr ("/".intercalate rel)))
    | .ok .dir => createDirsFrom rel cur rest
    | .ok (.file _) =>
      .fail (.unsafePath ("non-directory in the way at " ++ Path.debug cur ++
        " while materializing " ++ debugStr ("/".intercalate rel)))
    | .error _ => do
      k.must (.mkdir cur)
      createDirsFrom rel cur rest

def createDirConfined (root : Path) (rel : RelPath) : FsProg Path :=
  k.createDirsFrom rel root rel

def assertParentWithin (canonicalRoot path : Path) : FsProg Unit := do
  let parent := if path = [] then canonicalRoot else path.dropLast
  match ← k.ask (.look true parent) (·.canonicalize parent) with
  | .error _ => .fail .io
  | .ok canon =>
    if canonicalRoot.isPrefixOf canon then pure ()
    else .fail (.unsafePath ("entry path " ++ Path.debug path ++
      " resolves outside the destination root"))

/-- Only the refusal to delete a directory is an error; what a removal says is ignored. -/
def removeExisting (p : Path) (policy : MaterializePolicy) : FsProg Unit := do
  match ← k.ask (.look false p) (·.lstat p) with
  | .error _ => pure ()
  | .ok .dir =>
    if policy.replaceDirectories then do
      let _ ← k.sys (.removeAll p)
      pure ()
    else
      .fail (.unsafePath ("refusing to replace the existing directory " ++ Path.debug p ++
        " (and everything under it) with a non-directory entry; enable " ++
        "MaterializePolicy::replace_directories if that is intended"))
  | .ok _ => do
    let _ ← k.sys (.unlink p)
    pure ()

def setMode (p : Path) (mode : UInt32) (policy : MaterializePolicy) : FsProg Unit :=
  if policy.bits mode ≠ 0 then do
    let _ ← k.sys (.chmod p (policy.bits mode))
    pure ()
  else pure ()

def setMtime (f : Node) (mtime : Int64) : FsProg Unit :=
  if mtime > 0 then do
    let _ ← k.sys (.setTime f mtime)
    pure ()
  else pure ()

def writeChunks (th : TreeHash) (store : ContentStore) (f : Nat) :
    List ChunkRef → Nat → FsProg Nat
  | [], written => pure written
  | c :: rest, written => do
    let now ← Prog.moment
    match ← Prog.lift (store.get now c.hash) with
    | none => .fail (.notFound c.hash.toHex)
    | some bytes =>
      -- `bytes.len() as u32`
      if UInt32.ofNat bytes.length ≠ c.len then
        .fail (.chunkLengthMismatch c.len (UInt32.ofNat bytes.length))
      else if th.hash bytes ≠ c.hash then .fail (.corruptStore c.hash)
      else do
        k.must (.write f bytes)
        writeChunks th store f rest (written + bytes.length)

def makeDirectory (root : Path) : Entry → FsProg Unit
  | .dir path _ _ => do
    let rel ← Prog.lift (sanitizeRelPath path)
    let _ ← k.createDirConfined root rel
    pure ()
  | _ => pure ()

def makeContent (th : TreeHash) (store : ContentStore) (policy : MaterializePolicy)
    (root : Path) : Entry → FsProg Unit
  | .file path mode mtime size chunks => do
    let rel ← Prog.lift (sanitizeRelPath path)
    let _ ← k.createDirConfined root rel.dropLast
    let p := root ++ rel
    k.assertParentWithin root p
    k.removeExisting p policy
    let f ← k.createFile p
    let written ← k.writeChunks th store f chunks 0
    if written ≠ size.toNat then
      .fail (.malformedMessage ("file " ++ debugStr path ++
        s!": wrote {written} of declared {size.toNat} bytes"))
    else do
      k.setMode p mode policy
      k.setMtime (.file f) mtime
  | .hardlink path target => do
    let rel ← Prog.lift (sanitizeRelPath path)
    let _ ← k.createDirConfined root rel.dropLast
    let p := root ++ rel
    let t := root ++ (← Prog.lift (sanitizeRelPath target))
    k.assertParentWithin root p
    match ← k.ask (.look true t) (·.canonicalize t) with
    | .error e =>
      .fail (.unsafePath ("hardlink target " ++ debugStr target ++ " is not materialized: " ++ e))
    | .ok canonT => do
      let outside := BlobError.unsafePath ("hardlink target " ++ debugStr target ++
        " resolves outside the destination root")
      if root.isPrefixOf canonT then
        -- `canon_t.is_file()`
        match ← k.ask (.look true canonT) (·.stat canonT) with
        | .ok (.file _) => do
          k.removeExisting p policy
          k.must (.link canonT p)
        | _ => .fail outside
      else .fail outside
  | _ => pure ()

def makeSymlink (policy : MaterializePolicy) (root : Path) : Entry → FsProg Unit
  | .symlink path target => do
    let rel ← Prog.lift (sanitizeRelPath path)
    Prog.lift (sanitizeSymlinkTarget rel target)
    let _ ← k.createDirConfined root rel.dropLast
    let p := root ++ rel
    k.assertParentWithin root p
    k.removeExisting p policy
    k.must (.symlink target p)
  | _ => pure ()

def timeDirectory (p : Path) (mtime : Int64) : FsProg Unit :=
  if mtime > 0 then do
    match ← k.ask (.openDir p) fun fs => (fs.resolve true p).bind fs.node with
    | .ok f => k.setMtime f mtime
    | .error _ => pure ()
  else pure ()

def finishDirectory (policy : MaterializePolicy) (root : Path) : Entry → FsProg Unit
  | .dir path mode mtime =>
    match sanitizeRelPath path with
    | .error _ => pure ()
    | .ok rel => do
      k.timeDirectory (root ++ rel) mtime
      k.setMode (root ++ rel) mode policy
  | _ => pure ()

def materializeUnder (th : TreeHash) (store : ContentStore) (policy : MaterializePolicy)
    (root : Path) (entries : List Entry) : FsProg Unit := do
  entries.forM (k.makeDirectory root)
  entries.forM (k.makeContent th store policy root)
  entries.forM (k.makeSymlink policy root)
  entries.reverse.forM (k.finishDirectory policy root)

def makeMissing : Path → List String → FsProg Unit
  | _, [] => pure ()
  | cur, name :: rest => do
    let cur := cur ++ [name]
    match ← k.ask (.look true cur) (·.stat cur) with
    | .ok .dir => makeMissing cur rest
    | _ => do
      k.must (.mkdir cur)
      makeMissing cur rest

def createDirAll (p : Path) : FsProg Unit := do
  match ← k.ask (.look true p) fun fs => some (fs.stat p) with
  | .error _ => .fail .io
  | .ok (some .dir) => pure ()
  | .ok _ => k.makeMissing [] p

def reconstructTree (th : TreeHash) (destRoot : Path) (entries : List Entry)
    (store : ContentStore) (policy : MaterializePolicy) : FsProg Unit := do
  k.createDirAll destRoot
  match ← k.ask (.look true destRoot) (·.canonicalize destRoot) with
  | .error _ => .fail .io
  | .ok root => k.materializeUnder th store policy root entries

end Kernel

abbrev createDirsFrom := Kernel.free.createDirsFrom
abbrev createDirConfined := Kernel.free.createDirConfined
abbrev assertParentWithin := Kernel.free.assertParentWithin
abbrev removeExisting := Kernel.free.removeExisting
abbrev setMode := Kernel.free.setMode
abbrev setMtime := Kernel.free.setMtime
abbrev createFile := Kernel.free.createFile
abbrev writeChunks := Kernel.free.writeChunks
abbrev makeDirectory := Kernel.free.makeDirectory
abbrev makeContent := Kernel.free.makeContent
abbrev makeSymlink := Kernel.free.makeSymlink
abbrev timeDirectory := Kernel.free.timeDirectory
abbrev finishDirectory := Kernel.free.finishDirectory
abbrev materializeUnder := Kernel.free.materializeUnder
abbrev createDirAll := Kernel.free.createDirAll
abbrev reconstructTree := Kernel.free.reconstructTree

section Rules

variable {k : Kernel} {E : World → Prop} {root : Path}

theorem triple_createDirsFrom {I : World → Prop} {rel : RelPath} {names : List String} {cur : Path}
    (hcur : root <+: cur)
    (hmk : ∀ w q fs, I w → root <+: q → q <+: cur ++ names → Added w.fs q .dir fs →
      Change w.fs (.mkdir q) ⟨fs, true⟩ → I (w.did (.mkdir q) fs)) :
    Triple (fun w => I w ∧ w.fs.obj cur = some .dir) (k.createDirsFrom rel cur names)
      (fun _ w => I w ∧ w.fs.obj (cur ++ names) = some .dir) I := by
  induction names generalizing cur with
  | nil => exact Triple.ret fun w hw => by simpa using hw
  | cons name names ih =>
    have hnext : root <+: cur ++ [name] := hcur.trans (List.prefix_append _ _)
    have happ : cur ++ [name] ++ names = cur ++ name :: names := by simp
    have straight : ∀ {w : World} {r : Path}, w.fs.obj cur = some .dir →
        w.fs.resolve false (cur ++ [name]) = some r → r = cur ++ [name] := by
      intro w r hdir hr
      exact Fs.resolve_straight (Fs.straight_of_parent (by simpa using hdir)) (by simp) hr
    have rest := ih hnext (by rw [happ]; exact hmk)
    rw [happ] at rest
    refine Triple.bind (Q := fun found w => (I w ∧ w.fs.obj cur = some .dir) ∧
      (found = .ok .dir → w.fs.obj (cur ++ [name]) = some .dir)) ?_ fun found => ?_
    · refine triple_ask (fun w x hw hx => ⟨hw, fun he => ?_⟩) fun w text hw => ⟨hw, nofun⟩
      cases he
      obtain ⟨r, hr, ho⟩ := Option.bind_eq_some_iff.mp hx
      rwa [straight hw.2 hr] at ho
    · cases found with
      | ok x =>
        cases x with
        | symlink target => exact Triple.fail fun w hw => hw.1.1
        | file ino => exact Triple.fail fun w hw => hw.1.1
        | dir => exact rest.pre fun w hw => ⟨hw.1.1, hw.2 rfl⟩
      | error text =>
        refine Triple.bind (Q := fun _ w => I w ∧ w.fs.obj (cur ++ [name]) = some .dir) ?_
          fun _ => rest
        refine triple_must (fun w hw => hw.1.1) (fun w d hw hc _ => ?_) fun w d hw hc hok => ?_
        · cases hc with
          | mkdir hr ha =>
            cases straight hw.1.2 hr
            refine ⟨hmk w _ _ hw.1.1 hnext ?_ ha (.mkdir hr ha), by simp [World.did, ha.obj]⟩
            rw [← happ]
            exact List.prefix_append _ _
        · cases hc
          cases hok

theorem triple_createDirConfined {I : World → Prop} {rel : RelPath}
    (hmk : ∀ w q fs, I w → root <+: q → q <+: root ++ rel → Added w.fs q .dir fs →
      Change w.fs (.mkdir q) ⟨fs, true⟩ → I (w.did (.mkdir q) fs)) :
    Triple (fun w => I w ∧ w.fs.obj root = some .dir) (k.createDirConfined root rel)
      (fun _ w => I w ∧ w.fs.obj (root ++ rel) = some .dir) I :=
  triple_createDirsFrom List.prefix_rfl hmk

theorem triple_assertParentWithin {I : World → Prop} {p : Path} :
    Triple I (k.assertParentWithin root p) (fun _ => I) I := by
  refine Triple.bind (Q := fun _ => I) (triple_ask (fun _ _ h _ => h) fun _ _ h => h)
    fun found => ?_
  cases found with
  | error text => exact Triple.fail fun _ h => h
  | ok canon =>
    simp only
    split
    · exact Triple.ret fun _ h => h
    · exact Triple.fail fun _ h => h

theorem triple_removeExisting {I : World → Prop} {p : Path} {policy : MaterializePolicy}
    (hparent : ∀ w, I w → w.fs.obj p.dropLast = some .dir)
    (hun : ∀ w x, I w → w.fs.obj p = some x → x ≠ .dir →
      Change w.fs (.unlink p) ⟨w.fs.remove [p], true⟩ → I (w.did (.unlink p) (w.fs.remove [p])))
    (hall : ∀ w roots ok, I w → policy.replaceDirectories = true → w.fs.obj p = some .dir →
      (∀ x ∈ roots, p <+: x) → Change w.fs (.removeAll p) ⟨w.fs.remove roots, ok⟩ →
      I (w.did (.removeAll p) (w.fs.remove roots))) :
    Triple I (k.removeExisting p policy) (fun _ => I) I := by
  have straight : ∀ {w : World} {r : Path}, I w → w.fs.resolve false p = some r → r = p :=
    fun hw hr => Fs.resolve_straight (Fs.straight_of_parent (hparent _ hw)) (by simp) hr
  have unlinks : Triple I (do let _ ← k.sys (.unlink p); pure ()) (fun _ => I) I := by
    refine Triple.bind (Q := fun _ => I) (triple_try fun w d hw hc => ?_) fun _ =>
      Triple.ret fun _ h => h
    cases hc with
    | unlink hr ho hx =>
      cases straight hw hr
      exact hun w _ hw ho hx (.unlink hr ho hx)
  refine Triple.bind (Q := fun _ => I) (triple_ask (fun _ _ h _ => h) fun _ _ h => h)
    fun found => ?_
  cases found with
  | error text => exact Triple.ret fun _ h => h
  | ok x =>
    cases x with
    | file ino => exact unlinks
    | symlink target => exact unlinks
    | dir =>
      simp only
      split
      · rename_i hpolicy
        refine Triple.bind (Q := fun _ => I) (triple_try fun w d hw hc => ?_) fun _ =>
          Triple.ret fun _ h => h
        cases hc with
        | removeAll hr ho hroots =>
          cases straight hw hr
          exact hall w _ _ hw hpolicy ho hroots (@Change.removeAll w.fs p _ _ true hr ho hroots)
      · exact Triple.fail fun _ h => h

theorem triple_setMode {I : World → Prop} {p : Path} {policy : MaterializePolicy}
    (hch : ∀ w r n mode, I w → w.fs.resolve true p = some r → w.fs.node r = some n →
      I (w.did (.chmod p mode) (w.fs.setMode n mode))) (mode : UInt32) :
    Triple I (k.setMode p mode policy) (fun _ => I) E := by
  unfold Kernel.setMode
  split
  · refine Triple.bind (Q := fun _ => I) (triple_try fun w d hw hc => ?_) fun _ =>
      Triple.ret fun _ h => h
    cases hc with
    | chmod hr hn => exact hch w _ _ _ hw hr hn
  · exact Triple.ret fun _ h => h

theorem triple_setMtime {I : World → Prop} {f : Node}
    (ht : ∀ w mtime, I w → I (w.did (.setTime f mtime) w.fs)) (mtime : Int64) :
    Triple I (k.setMtime f mtime) (fun _ => I) E := by
  unfold Kernel.setMtime
  split
  · refine Triple.bind (Q := fun _ => I) (triple_try fun w d hw hc => ?_) fun _ =>
      Triple.ret fun _ h => h
    cases hc
    exact ht w _ hw
  · exact Triple.ret fun _ h => h

/-- The pieces written for `chunks`: each came from the store, has the declared length as
far as 32 bits show, and hashes to its address. -/
def Pieces (th : TreeHash) (store : ContentStore) : List ChunkRef → List Bytes → Prop :=
  List.Forall₂ fun c piece => (∃ now, store.get now c.hash = .ok (some piece)) ∧
    UInt32.ofNat piece.length = c.len ∧ th.hash piece = c.hash

theorem triple_writeChunks {th : TreeHash} {store : ContentStore} {f : Nat}
    {I : Bytes → World → Prop} (herr : ∀ sofar w, I sofar w → E w)
    (hwrite : ∀ sofar w piece, I sofar w →
      I (sofar ++ piece) (w.did (.write f piece) (w.fs.setData f (w.fs.data f ++ piece))))
    (hhalf : ∀ sofar w piece part, I sofar w →
      E (w.did (.write f piece) (w.fs.setData f (w.fs.data f ++ part))))
    (chunks : List ChunkRef) (written : Nat) (sofar : Bytes) :
    Triple (I sofar) (k.writeChunks th store f chunks written)
      (fun n w => ∃ pieces, Pieces th store chunks pieces ∧
        n = written + pieces.flatten.length ∧ I (sofar ++ pieces.flatten) w) E := by
  induction chunks generalizing written sofar with
  | nil => exact Triple.ret fun w hw => ⟨[], .nil, by simp, by simpa using hw⟩
  | cons c chunks ih =>
    refine Triple.bind (Q := fun _ => I sofar) (Triple.moment fun _ _ h => h) fun now => ?_
    refine Triple.bind (Q := fun found w => store.get now c.hash = .ok found ∧ I sofar w)
      (Triple.lift (fun _ _ he hw => ⟨he, hw⟩) fun _ w _ hw => herr sofar w hw) fun found => ?_
    refine Triple.of_pre fun hget => ?_
    cases found with
    | none => exact Triple.fail fun w hw => herr sofar w hw
    | some piece =>
      simp only
      split
      · exact Triple.fail fun w hw => herr sofar w hw
      rename_i hlen
      split
      · exact Triple.fail fun w hw => herr sofar w hw
      rename_i hhash
      refine Triple.bind (Q := fun _ => I (sofar ++ piece)) ?_ fun _ => ?_
      · refine triple_must (fun w hw => herr sofar w hw) (fun w d hw hc hok => ?_)
          fun w d hw hc _ => ?_
        · cases hc with
          | write hpart =>
            cases hpart hok
            exact hwrite sofar w piece hw
        · cases hc with
          | write _ => exact hhalf sofar w piece _ hw
      · refine (ih (written + piece.length) (sofar ++ piece)).post ?_
        rintro n w ⟨pieces, hp, hn, hw⟩
        refine ⟨piece :: pieces, .cons ⟨⟨now, hget⟩, not_not.mp hlen, not_not.mp hhash⟩ hp, ?_, ?_⟩
        · rw [hn, List.flatten_cons, List.length_append]
          omega
        · rwa [List.flatten_cons, ← List.append_assoc]

theorem Fs.stat_of_canonicalize {fs : Fs} {p r : Path} {x : Obj} (h : fs.canonicalize p = some r)
    (hx : fs.obj r = some x) : fs.stat p = some x := by
  obtain ⟨q, hq, hc⟩ := Option.bind_eq_some_iff.mp h
  split at hc
  · cases hc
  · cases hc
    simp [Fs.stat, hq, hx]

/-- An existing destination is found and left as it is. -/
theorem triple_destination {I : World → Prop} {E : World → Prop} {fs : Fs} {log : List Step}
    {dest root : Path} {m : Path → FsProg Unit} {Q : Unit → World → Prop}
    (hroot : fs.canonicalize dest = some root) (hdir : fs.obj root = some .dir)
    (hI : I ⟨fs, log⟩) (hE : E ⟨fs, log⟩) (hm : Triple I (m root) Q E) :
    Triple (· = ⟨fs, log⟩) (do
      k.createDirAll dest
      match ← k.ask (.look true dest) (·.canonicalize dest) with
      | .error _ => Prog.fail .io
      | .ok root => m root) Q E := by
  have hstat := Fs.stat_of_canonicalize hroot hdir
  refine Triple.bind (Q := fun _ w => w = ⟨fs, log⟩) ?_ fun _ => ?_
  · refine Triple.bind (Q := fun found w => w = ⟨fs, log⟩ ∧ ∀ x, found = .ok x → x = some .dir)
      (triple_ask (fun w x hw hx => ⟨hw, ?_⟩) fun w text hw => ⟨hw, nofun⟩) fun found => ?_
    · rintro y hy
      cases hy
      rw [hw, hstat] at hx
      exact (Option.some.inj hx).symm
    · cases found with
      | error text => exact Triple.fail fun w hw => hw.1 ▸ hE
      | ok x =>
        intro io n w hw
        cases hw.2 x rfl
        exact hw.1
  · refine Triple.bind (Q := fun found w => w = ⟨fs, log⟩ ∧ ∀ r, found = .ok r → r = root)
      (triple_ask (fun w r hw hr => ⟨hw, ?_⟩) fun w text hw => ⟨hw, nofun⟩) fun found => ?_
    · rintro y hy
      cases hy
      rw [hw, hroot] at hr
      exact (Option.some.inj hr).symm
    · cases found with
      | error text => exact Triple.fail fun w hw => hw.1 ▸ hE
      | ok r =>
        intro io n w hw
        cases hw.2 r rfl
        exact hm io n w (hw.1 ▸ hI)

end Rules

/-- BLAKE3 and postcard as far as one index needs them: the encoding of its entries and
the digest of that. -/
def knownTree (view : Bytes) (root : Hash) : TreeHash where
  hash data := if data = view then root else shortHash data
  encode _ _ _ := view

def sampleIndex (entries : List Entry) (root : Hash) : TreeIndex where
  version := wireVersion
  id := ⟨"t", by decide⟩
  algo := .blake3
  cdc := ⟨16384, 65536, 262144, 2, 0⟩
  entries := entries
  rootHash := root

def shortStore : ContentStore where
  get _ hash := .ok (if hash = shortHash [97, 98, 99] then some [97, 98, 99] else none)

def failing (calls : List Nat) (n : Nat) : KernelReply := ⟨n ∉ calls, "", [], 0⟩

end Zblob

import Zblob.Materialize

/-!
Permissions: the kernel of an owner lets through what the owner's bits of the modes grant, and
leaves to the outside only how far the removal of a tree gets.
-/

set_option autoImplicit false

namespace Zblob

open Program

def ownerSearch (mode : UInt32) : Bool := mode &&& 0o100 != 0

def ownerWrite (mode : UInt32) : Bool := mode &&& 0o200 != 0

def ownerRead (mode : UInt32) : Bool := mode &&& 0o400 != 0

def searchFrom (fs : Fs) (follow : Bool) (jump : Path → List Component → Option Path) :
    Path → List Component → Option Path
  | cur, [] => some cur
  | _, .rootDir :: rest => searchFrom fs follow jump [] rest
  | cur, .curDir :: rest =>
    if ownerSearch (fs.mode (.dir cur)) then searchFrom fs follow jump cur rest else none
  | cur, .parentDir :: rest =>
    if ownerSearch (fs.mode (.dir cur)) then searchFrom fs follow jump cur.dropLast rest else none
  | cur, .normal name :: rest =>
    if ownerSearch (fs.mode (.dir cur)) then
      match fs.obj (cur ++ [name]) with
      | some (.symlink target) =>
        if rest = [] ∧ follow = false then some (cur ++ [name])
        else jump cur (components target ++ rest)
      | some .dir => searchFrom fs follow jump (cur ++ [name]) rest
      | some (.file _) => if rest = [] then some (cur ++ [name]) else none
      | none => if rest = [] then some (cur ++ [name]) else none
    else none

def search (fs : Fs) (follow : Bool) : Nat → Path → List Component → Option Path
  | 0 => searchFrom fs follow fun _ _ => none
  | hops + 1 => searchFrom fs follow (search fs follow hops)

def Fs.reach (fs : Fs) (follow : Bool) (p : Path) : Option Path :=
  search fs follow maxLinks [] (p.map .normal)

def Fs.mayName (fs : Fs) (p : Path) : Bool :=
  match fs.reach false p with
  | some r => ownerWrite (fs.mode (.dir r.dropLast))
  | none => false

/-- What the permission bits say of a request. The caller owns what it makes, and may
change the mode of all it reaches. -/
def Fs.grants (fs : Fs) : Request → Bool
  | .look follow p => (fs.reach follow p).isSome
  | .openDir p =>
    match (fs.reach true p).bind fs.node with
    | some n => ownerRead (fs.mode n)
    | none => false
  | .call (.mkdir p) => fs.mayName p
  | .call (.create p) =>
    match fs.reach true p with
    | some r =>
      match fs.obj r with
      | some (.file ino) => ownerWrite (fs.mode (.file ino))
      | _ => ownerWrite (fs.mode (.dir r.dropLast))
    | none => false
  -- a handle keeps the permission it was opened with
  | .call (.write _ _) => true
  | .call (.link src p) => (fs.reach false src).isSome && fs.mayName p
  | .call (.symlink _ p) => fs.mayName p
  | .call (.unlink p) => fs.mayName p
  | .call (.removeAll p) => fs.mayName p
  | .call (.chmod p _) => (fs.reach true p).isSome
  | .call (.setTime _ _) => true

/-- Nothing but the permissions stands in the way. Only the removal of a tree may also fail
inside the tree, and how far it gets is left to the outside. -/
def Kernel.owner : Kernel := fun fs r o =>
  match r with
  | .call (.removeAll p) => { o with ok := o.ok && fs.grants (.call (.removeAll p)) }
  | r => { o with ok := fs.grants r }

end Zblob

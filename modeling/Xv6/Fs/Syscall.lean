import Xv6.Fs.Dir

/-!
The system calls of `kernel/sysfile.c` that change the directory tree. A path argument is
the string that `argstr` fetched. Whether `filealloc` and `fdalloc` find a free entry is
an argument of `sysOpen`, since the file table is not part of this model.
-/

namespace Xv6.Fs

open Lib.Hoare

def ndev : Nat := 10

variable (sb : Superblock)

/-- `nlink` is a `short`: one more and one less, around the ends of its range. -/
def addLink (d : Dinode) : Dinode := { d with nlink := (d.nlink + 1) % 2 ^ 16 }

def dropLink (d : Dinode) : Dinode := { d with nlink := (d.nlink + (2 ^ 16 - 1)) % 2 ^ 16 }

def belowOne (field : Nat) : Bool := field = 0 ∨ 2 ^ 15 ≤ field

def setDinode (ip : Nat) (change : Dinode → Dinode) : K Unit := do
  let node ← slot ip
  setSlot ip { node with d := change node.d }

def linkUndo (ip : Nat) : K Bool := do
  ilock sb ip
  setDinode ip dropLink
  iupdate sb ip
  iunlockput sb ip
  return false

/-- True for the return value 0, false for -1. -/
def sysLink (cwd : Nat) (old new : List UInt8) : K Bool := do
  match ← namei sb cwd old with
  | none => return false
  | some ip =>
    ilock sb ip
    let node ← slot ip
    if node.d.type = tDir then do
      iunlockput sb ip
      return false
    else do
      setDinode ip addLink
      iupdate sb ip
      iunlock ip
      match ← nameiparent sb cwd new with
      | none => linkUndo sb ip
      | some (dp, name) =>
        ilock sb dp
        let linked ← dirlink sb dp name (← slot ip).inum
        if linked then do
          iunlockput sb dp
          iput sb ip
          return true
        else do
          iunlockput sb dp
          linkUndo sb ip

def isdiremptyFrom (dp : Nat) : Nat → Nat → K Bool
  | 0, _ => pure true
  | fuel + 1, off => do
      let node ← slot dp
      if off < node.d.size then do
        let de ← readi sb dp off direntSize
        if de.length ≠ direntSize then throw (.panic .isdiremptyReadi)
        else if direntInum de ≠ 0 then return false
        else isdiremptyFrom dp fuel (off + direntSize)
      else return true

def isdirempty (dp : Nat) : K Bool := do
  let node ← slot dp
  isdiremptyFrom sb dp (node.d.size / direntSize + 1) (2 * direntSize)

def dot : Name := [46]

def dotdot : Name := [46, 46]

def unlinkEntry (dp ip off : Nat) : K Bool := do
  let written ← writei sb dp (fun k => (List.replicate direntSize (0 : UInt8))[k]?) off direntSize
  if written ≠ some direntSize then throw (.panic .unlinkWritei)
  else do
    let node ← slot ip
    if node.d.type = tDir then do
      setDinode dp dropLink
      iupdate sb dp
    else pure ()
    iunlockput sb dp
    setDinode ip dropLink
    iupdate sb ip
    iunlockput sb ip
    return true

def sysUnlink (cwd : Nat) (path : List UInt8) : K Bool := do
  match ← nameiparent sb cwd path with
  | none => return false
  | some (dp, name) =>
    ilock sb dp
    if name = dot ∨ name = dotdot then do
      iunlockput sb dp
      return false
    else do
      match ← dirlookup sb dp name with
      | none =>
        iunlockput sb dp
        return false
      | some (ip, off) =>
        ilock sb ip
        let node ← slot ip
        if belowOne node.d.nlink then throw (.panic .unlinkNlink)
        else if node.d.type = tDir then do
          let empty ← isdirempty sb ip
          if empty then unlinkEntry sb dp ip off
          else do
            iunlockput sb ip
            iunlockput sb dp
            return false
        else unlinkEntry sb dp ip off

def createUndo (dp ip : Nat) : K (Option Nat) := do
  setDinode ip fun d => { d with nlink := 0 }
  iupdate sb ip
  iunlockput sb ip
  iunlockput sb dp
  return none

def createDots (dp ip : Nat) : K Bool := do
  let self ← dirlink sb ip dot (← slot ip).inum
  if self then dirlink sb ip dotdot (← slot dp).inum else pure false

/-- The part of `create` that makes the new inode; the value is its slot, locked. -/
def createNew (dp : Nat) (name : Name) (type major minor : Nat) : K (Option Nat) := do
  match ← ialloc sb type with
  | none =>
    iunlockput sb dp
    return none
  | some ip =>
    ilock sb ip
    setDinode ip fun d => { d with major := major % 2 ^ 16, minor := minor % 2 ^ 16, nlink := 1 }
    iupdate sb ip
    let filled ← if type = tDir then createDots sb dp ip else pure true
    if filled then do
      let linked ← dirlink sb dp name (← slot ip).inum
      if linked then do
        if type = tDir then do
          setDinode dp addLink
          iupdate sb dp
        else pure ()
        iunlockput sb dp
        return some ip
      else createUndo sb dp ip
    else createUndo sb dp ip

def create (cwd : Nat) (path : List UInt8) (type major minor : Nat) : K (Option Nat) := do
  match ← nameiparent sb cwd path with
  | none => return none
  | some (dp, name) =>
    ilock sb dp
    let parent ← slot dp
    if parent.d.nlink = 0 then do
      iunlockput sb dp
      return none
    else do
      match ← dirlookup sb dp name with
      | some (ip, _) =>
        iunlockput sb dp
        ilock sb ip
        let node ← slot ip
        if type = tFile ∧ (node.d.type = tFile ∨ node.d.type = tDevice) then return some ip
        else do
          iunlockput sb ip
          return none
      | none => createNew sb dp name type major minor

def sysMkdir (cwd : Nat) (path : List UInt8) : K Bool := do
  match ← create sb cwd path tDir 0 0 with
  | none => return false
  | some ip =>
    iunlockput sb ip
    return true

def sysMknod (cwd : Nat) (path : List UInt8) (major minor : Nat) : K Bool := do
  match ← create sb cwd path tDevice major minor with
  | none => return false
  | some ip =>
    iunlockput sb ip
    return true

/-- `sys_open` with `O_CREATE` in its mode; the value is the inode that the new file holds. -/
def sysOpenCreate (cwd : Nat) (path : List UInt8) (trunc fileFree : Bool) : K (Option Nat) := do
  match ← create sb cwd path tFile 0 0 with
  | none => return none
  | some ip =>
    let node ← slot ip
    -- a negative `major` is a large one here
    if node.d.type = tDevice ∧ ndev ≤ node.d.major then do
      iunlockput sb ip
      return none
    else if fileFree = false then do
      iunlockput sb ip
      return none
    else do
      if trunc = true ∧ node.d.type = tFile then itrunc sb ip else pure ()
      iunlock ip
      return some ip

end Xv6.Fs

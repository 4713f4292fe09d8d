import Xv6.Fs.Inode

/-!
File contents, directories and path names of `kernel/fs.c`. The source of a `writei` is a
function that gives a byte or nothing where `copyin` would fault. `readi` is the one for a
kernel destination; its value is the bytes read. The names on a path and in a directory are
lists of at most `DIRSIZ` bytes, without the NUL that may follow them.
-/

namespace Xv6.Fs

open Lib.Bytes Lib.Hoare

abbrev Name := List UInt8

def dirSiz : Nat := 14

def direntSize : Nat := 16

def tDir : Nat := 1

def tFile : Nat := 2

def tDevice : Nat := 3

/-- Copy `m` bytes of the source from `pos` on; false when a byte of it is not mapped. -/
def eitherCopyin (src : Nat → Option UInt8) : Nat → Block → Nat → Nat → Block × Bool
  | 0, data, _, _ => (data, true)
  | m + 1, data, dst, pos =>
    match src pos with
    | some byte => eitherCopyin src m (Function.update data dst byte) (dst + 1) (pos + 1)
    | none => (data, false)

section Content

variable (sb : Superblock)

def readiFrom (ip : Nat) : Nat → Nat → Nat → K (List UInt8)
  | 0, _, _ => pure []
  | fuel + 1, off, n =>
    if n = 0 then pure []
    else do
      let addr ← bmap sb ip (off / bsize)
      if addr = 0 then pure []
      else do
        let data ← bread addr
        let m := min n (bsize - off % bsize)
        let rest ← readiFrom ip fuel (off + m) (n - m)
        return (List.range m).map (fun k => data (off % bsize + k)) ++ rest

def readi (ip off n : Nat) : K (List UInt8) := do
  let node ← slot ip
  if off > node.d.size ∨ (off + n) % 2 ^ 32 < off then return []
  else readiFrom sb ip n off (if off + n > node.d.size then node.d.size - off else n)

def writeiFrom (ip : Nat) (src : Nat → Option UInt8) (n : Nat) : Nat → Nat → Nat → K (Nat × Nat)
  | 0, tot, off => pure (tot, off)
  | fuel + 1, tot, off =>
    if tot < n then do
      let addr ← bmap sb ip (off / bsize)
      if addr = 0 then return (tot, off)
      else do
        let data ← bread addr
        let m := min (n - tot) (bsize - off % bsize)
        let copied := eitherCopyin src m data (off % bsize) tot
        logWrite addr copied.1
        if copied.2 then writeiFrom ip src n fuel (tot + m) (off + m)
        else return (tot, off)
    else return (tot, off)

/-- The number of bytes written, or nothing for -1. -/
def writei (ip : Nat) (src : Nat → Option UInt8) (off n : Nat) : K (Option Nat) := do
  let node ← slot ip
  if off > node.d.size ∨ (off + n) % 2 ^ 32 < off then return none
  else if (off + n) % 2 ^ 32 > maxFile * bsize then return none
  else do
    let done ← writeiFrom sb ip src n n 0 off
    let node ← slot ip
    if done.2 > node.d.size then setSize ip done.2 else pure ()
    iupdate sb ip
    return some done.1

end Content

def direntInum (de : List UInt8) : Nat := (de.getD 0 0).toNat + 256 * (de.getD 1 0).toNat

def direntName (de : List UInt8) : Name := ((de.drop 2).take dirSiz).takeWhile (· ≠ 0)

/-- The bytes of a `struct dirent`; `strncpy` fills the name up with zeros. -/
def direntBytes (inum : Nat) (name : Name) : List UInt8 :=
  [UInt8.ofNat inum, UInt8.ofNat (inum / 256)] ++ name.take dirSiz ++
    List.replicate (dirSiz - name.length) 0

section Directories

variable (sb : Superblock)

/-- The loop of `dirlookup`: the slot of the inode found and the offset of its entry. -/
def dirlookupFrom (dp : Nat) (name : Name) : Nat → Nat → K (Option (Nat × Nat))
  | 0, _ => pure none
  | fuel + 1, off => do
      let node ← slot dp
      if off < node.d.size then do
        let de ← readi sb dp off direntSize
        if de.length ≠ direntSize then throw (.panic .dirlookupRead)
        else if direntInum de ≠ 0 ∧ name = direntName de then do
          let ip ← iget (direntInum de)
          return some (ip, off)
        else dirlookupFrom dp name fuel (off + direntSize)
      else return none

def dirlookup (dp : Nat) (name : Name) : K (Option (Nat × Nat)) := do
  let node ← slot dp
  if node.d.type ≠ tDir then throw (.panic .dirlookupNotDir)
  else dirlookupFrom sb dp name (node.d.size / direntSize + 1) 0

/-- The loop of `dirlink`: the offset of the first free entry, or the size. -/
def dirlinkFrom (dp : Nat) : Nat → Nat → K Nat
  | 0, off => pure off
  | fuel + 1, off => do
      let node ← slot dp
      if off < node.d.size then do
        let de ← readi sb dp off direntSize
        if de.length ≠ direntSize then throw (.panic .dirlinkRead)
        else if direntInum de = 0 then return off
        else dirlinkFrom dp fuel (off + direntSize)
      else return off

/-- True for the return value 0, false for -1. -/
def dirlink (dp : Nat) (name : Name) (inum : Nat) : K Bool := do
  match ← dirlookup sb dp name with
  | some (ip, _) =>
    iput sb ip
    return false
  | none =>
    let node ← slot dp
    let off ← dirlinkFrom sb dp (node.d.size / direntSize + 1) 0
    let written ← writei sb dp (fun k => (direntBytes inum name)[k]?) off direntSize
    return written = some direntSize

end Directories

def slash : UInt8 := 47

/-- The next element of a path and what follows it, without slashes in front. -/
def skipelem (path : List UInt8) : Option (Name × List UInt8) :=
  let path := path.dropWhile (· = slash)
  if path = [] then none
  else some ((path.takeWhile (· ≠ slash)).take dirSiz,
    (path.dropWhile (· ≠ slash)).dropWhile (· = slash))

theorem skipelem_shorter {path rest : List UInt8} {name : Name} (found : skipelem path = some (name, rest)) :
    rest.length < path.length := by
  rw [skipelem] at found
  split at found
  · exact absurd found (by simp)
  next some =>
  obtain ⟨_, rfl⟩ := Prod.mk.inj (Option.some.inj found)
  have trimmed := (List.dropWhile_sublist (l := path) (p := fun x => decide (x = slash))).length_le
  have after := (List.dropWhile_sublist (l := (path.dropWhile (· = slash)).dropWhile (· ≠ slash))
    (p := fun x => decide (x = slash))).length_le
  have moves : ((path.dropWhile (· = slash)).dropWhile (· ≠ slash)).length <
      (path.dropWhile (· = slash)).length := by
    cases shape : path.dropWhile (· = slash) with
    | nil => exact absurd shape some
    | cons first others =>
      have head : first ≠ slash := by
        have not := List.head?_dropWhile_not (p := fun x => decide (x = slash)) (l := path)
        rw [shape] at not
        simpa using not
      rw [List.dropWhile_cons_of_pos (by simpa using head), List.length_cons]
      have shorter := (List.dropWhile_sublist (l := others) (p := fun x => decide (x ≠ slash))).length_le
      omega
  omega

section Paths

variable (sb : Superblock)

def namexFrom (parent : Bool) : Nat → Nat → List UInt8 → Name → K (Option (Nat × Name))
  | 0, _, _, _ => pure none
  | fuel + 1, ip, path, name =>
    match skipelem path with
    | none =>
      if parent then do
        iput sb ip
        return none
      else return some (ip, name)
    | some (name, path) => do
        ilock sb ip
        let node ← slot ip
        if node.d.type ≠ tDir then do
          iunlockput sb ip
          return none
        else if node.d.nlink = 0 then do
          iunlockput sb ip
          return none
        else if parent = true ∧ path = [] then do
          iunlock ip
          return some (ip, name)
        else do
          match ← dirlookup sb ip name with
          | none =>
            iunlockput sb ip
            return none
          | some (next, _) =>
            iunlockput sb ip
            namexFrom parent fuel next path name

/-- `cwd` is the slot of the current directory of the calling process. -/
def namex (cwd : Nat) (path : List UInt8) (parent : Bool) : K (Option (Nat × Name)) := do
  let ip ← if path.head? = some slash then iget rootIno else idup cwd
  namexFrom sb parent (path.length + 1) ip path []

def namei (cwd : Nat) (path : List UInt8) : K (Option Nat) := do
  return (← namex sb cwd path false).map Prod.fst

def nameiparent (cwd : Nat) (path : List UInt8) : K (Option (Nat × Name)) := namex sb cwd path true

end Paths

end Xv6.Fs

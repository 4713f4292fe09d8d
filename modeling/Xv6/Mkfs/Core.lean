import Xv6.Fs.Content
import Xv6.Log.Core

/-!
`mkfs/mkfs.c`, which writes the first image of a file system. It numbers inodes and blocks
upwards and never gives one back, keeps the free bit map for the end, and appends to a file
through a copy of its inode. `xint` and `xshort` only fix the byte order. Reading behind the
end of the image ends the program, as a failed `assert` does. What `read` returns for a host
file is a list of pieces.
-/

namespace Xv6.Mkfs

open Xv6.Fs Lib.Bytes Lib.Bitmap Lib.Hoare

def fssize : Nat := 2000

def ninodes : Nat := 200

def nbitmap : Nat := fssize / bpb + 1

def ninodeblocks : Nat := ninodes / ipb + 1

def nlog : Nat := Log.logBlocks + 1

def nmeta : Nat := 2 + nlog + ninodeblocks + nbitmap

def nblocks : Nat := fssize - nmeta

/-- The superblock that the program writes, as far as the code below the log reads it. -/
def sb : Superblock where
  size := fssize
  nblocks := nblocks
  ninodes := ninodes
  inodestart := 2 + nlog
  bmapstart := 2 + nlog + ninodeblocks
  root := by decide
  inodes := by decide
  bitmap := by decide
  small := by decide

def fsMagic : Nat := 0x10203040

/-- `struct superblock`: magic, size, nblocks, ninodes, nlog, logstart, inodestart, bmapstart. -/
def superblockWords : List Nat :=
  [fsMagic, fssize, nblocks, ninodes, nlog, 2, 2 + nlog, 2 + nlog + ninodeblocks]

inductive Abort where
  | read
  | assertion
deriving DecidableEq

structure Host where
  disk : Disk
  freeinode : Nat
  freeblock : Nat

abbrev M (α : Type) := Prog Host Abort α

def rsect (sec : Nat) : M Block := do
  let st ← get
  if sec < fssize then return st.disk sec else throw .read

def wsect (sec : Nat) (buf : Block) : M Unit :=
  modify fun st => { st with disk := Function.update st.disk sec buf }

def rinode (inum : Nat) : M Dinode := do
  let buf ← rsect (sb.iblock inum)
  return loadDinode buf (inum % ipb * dinodeSize)

def winode (inum : Nat) (din : Dinode) : M Unit := do
  let buf ← rsect (sb.iblock inum)
  wsect (sb.iblock inum) (storeDinode buf (inum % ipb * dinodeSize) din)

def emptyDinode (type : Nat) : Dinode := ⟨type, 0, 0, 1, 0, fun _ => 0⟩

def ialloc (type : Nat) : M Nat := do
  let st ← get
  set { st with freeinode := st.freeinode + 1 }
  winode st.freeinode (emptyDinode type)
  return st.freeinode

def usedBits (used : Nat) : Block := (List.range used).foldl setBit fun _ => 0

def balloc (used : Nat) : M Unit :=
  if used < bpb then wsect sb.bmapstart (usedBits used) else throw .assertion

def nextBlock : M Nat := do
  let st ← get
  set { st with freeblock := st.freeblock + 1 }
  return st.freeblock

def ensureAddr (din : Dinode) (k : Fin (ndirect + 1)) : M Dinode := do
  if din.addrs k = 0 then do
    let b ← nextBlock
    return din.withAddr k b
  else return din

/-- The block `fbn` of the file, with new blocks where there are none. -/
def iappendBlock (din : Dinode) (fbn : Nat) : M (Nat × Dinode) :=
  if direct : fbn < ndirect then do
    let din ← ensureAddr din ⟨fbn, Nat.lt_succ_of_lt direct⟩
    return (din.addrs ⟨fbn, Nat.lt_succ_of_lt direct⟩, din)
  else do
    let din ← ensureAddr din (Fin.last ndirect)
    let indirect ← rsect din.ind
    if load indirect (4 * (fbn - ndirect)) 4 = 0 then do
      let b ← nextBlock
      wsect din.ind (store indirect (4 * (fbn - ndirect)) b 4)
      return (b, din)
    else return (load indirect (4 * (fbn - ndirect)) 4, din)

def bcopy : List UInt8 → Block → Nat → Block
  | [], buf, _ => buf
  | byte :: rest, buf, dst => bcopy rest (Function.update buf dst byte) (dst + 1)

def iappendFrom : Nat → List UInt8 → Nat → Dinode → M (Nat × Dinode)
  | 0, _, off, din => pure (off, din)
  | fuel + 1, p, off, din =>
    if p = [] then pure (off, din)
    else if off / bsize < maxFile then do
      let (x, din) ← iappendBlock din (off / bsize)
      let n1 := min p.length ((off / bsize + 1) * bsize - off)
      let buf ← rsect x
      wsect x (bcopy (p.take n1) buf (off - off / bsize * bsize))
      iappendFrom fuel (p.drop n1) (off + n1) din
    else throw .assertion

def iappend (inum : Nat) (p : List UInt8) : M Unit := do
  let din ← rinode inum
  let (off, din) ← iappendFrom p.length p din.size din
  winode inum { din with size := off }

def slash : UInt8 := 47

def underscore : UInt8 := 95

def userDir : List UInt8 := [117, 115, 101, 114, 47]

/-- An argument of the program and the pieces in which `read` delivers the file. -/
structure HostFile where
  arg : List UInt8
  pieces : List (List UInt8)

namespace HostFile

variable (file : HostFile)

def base : List UInt8 := if userDir.isPrefixOf file.arg then file.arg.drop 5 else file.arg

/-- The name in the image: without the underscore that the binaries begin with. -/
def shortname : List UInt8 := if file.base.head? = some underscore then file.base.drop 1 else file.base

def contents : List UInt8 := file.pieces.flatten

end HostFile

def dot : List UInt8 := [46]

def dotdot : List UInt8 := [46, 46]

def appendAll (inum : Nat) : List (List UInt8) → M Unit
  | [] => pure ()
  | piece :: rest => do
      iappend inum piece
      appendAll inum rest

def addFile (rootino : Nat) (file : HostFile) : M Unit :=
  if slash ∈ file.base then throw .assertion
  else if dirSiz < file.shortname.length then throw .assertion
  else do
    let inum ← ialloc tFile
    iappend rootino (direntBytes inum file.shortname)
    appendAll inum file.pieces

def addFiles (rootino : Nat) : List HostFile → M Unit
  | [] => pure ()
  | file :: rest => do
      addFile rootino file
      addFiles rootino rest

def fixRoot (rootino : Nat) : M Unit := do
  let din ← rinode rootino
  winode rootino { din with size := (din.size / bsize + 1) * bsize }

def main (files : List HostFile) : M Unit := do
  wsect 1 (storeWords (fun _ => 0) 0 4 superblockWords)
  let rootino ← ialloc tDir
  if rootino ≠ rootIno then throw .assertion
  else do
    iappend rootino (direntBytes rootino dot)
    iappend rootino (direntBytes rootino dotdot)
    addFiles rootino files
    fixRoot rootino
    let st ← get
    balloc st.freeblock

def zeroed : Host := ⟨fun _ _ => 0, 1, nmeta⟩

def mkfs (files : List HostFile) : Except Abort Disk := do
  let (_, st) ← (main files).run zeroed
  return st.disk

end Xv6.Mkfs

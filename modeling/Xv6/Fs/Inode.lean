import Xv6.Fs.Disk
import Xv6.Lib.Hoare

/-!
Blocks and inodes of `kernel/fs.c`. The buffer cache and the log are transparent here:
`bread` sees the last contents written, and `logWrite` keeps which blocks were handed to the
log. An inode pointer is an index into the table; there is one disk, so `dev` is left out. A
run is sequential: taking a sleep lock that is already held stops with `blocked`.
-/

namespace Xv6.Fs

open Function
open Lib.Bytes Lib.Bitmap Lib.Hoare

inductive Panic where
  | freeingFreeBlock
  | igetNoInodes
  | ilock
  | ilockNoType
  | iunlock
  | bmapOutOfRange
  | dirlookupNotDir
  | dirlookupRead
  | dirlinkRead
  | isdiremptyReadi
  | unlinkNlink
  | unlinkWritei
deriving DecidableEq

def Panic.message : Panic → String
  | freeingFreeBlock => "freeing free block"
  | igetNoInodes => "iget: no inodes"
  | ilock => "ilock"
  | ilockNoType => "ilock: no type"
  | iunlock => "iunlock"
  | bmapOutOfRange => "bmap: out of range"
  | dirlookupNotDir => "dirlookup not DIR"
  | dirlookupRead => "dirlookup read"
  | dirlinkRead => "dirlink read"
  | isdiremptyReadi => "isdirempty: readi"
  | unlinkNlink => "unlink: nlink < 1"
  | unlinkWritei => "unlink: writei"

inductive Stop where
  | panic (reason : Panic)
  | blocked
deriving DecidableEq

structure Slot where
  inum : Nat
  ref : Nat
  valid : Bool
  locked : Bool
  d : Dinode

def ninode : Nat := 50

structure State where
  disk : Disk
  itable : Nat → Slot
  logged : List Nat

def State.put (st : State) (ip : Nat) (value : Slot) : State :=
  { st with itable := update st.itable ip value }

abbrev K (α : Type) := Prog State Stop α

def slot (ip : Nat) : K Slot := do
  return (← get).itable ip

def setSlot (ip : Nat) (value : Slot) : K Unit := modify (·.put ip value)

def bread (b : Nat) : K Block := do
  return (← get).disk b

def logWrite (b : Nat) (data : Block) : K Unit :=
  modify fun st => { st with disk := update st.disk b data, logged := b :: st.logged }

def bzero (b : Nat) : K Unit := logWrite b fun _ => 0

section Blocks

variable (sb : Superblock)

def freeBit (data : Block) (b : Nat) : Nat → Nat → Option Nat
  | 0, _ => none
  | fuel + 1, bi =>
    if b + bi < sb.size then
      if isSet data bi then freeBit data b fuel (bi + 1) else some bi
    else none

def ballocFrom : Nat → Nat → K Nat
  | 0, _ => pure 0
  | fuel + 1, b =>
    if b < sb.size then do
      let data ← bread (sb.bblock b)
      match freeBit sb data b bpb 0 with
      | some bi =>
        logWrite (sb.bblock b) (setBit data bi)
        bzero (b + bi)
        return b + bi
      | none => ballocFrom fuel (b + bpb)
    else pure 0

/-- A zeroed block, or 0 when all are in use. -/
def balloc : K Nat := ballocFrom sb (sb.size / bpb + 1) 0

def bfree (b : Nat) : K Unit := do
  let data ← bread (sb.bblock b)
  if isSet data (b % bpb) then logWrite (sb.bblock b) (clearBit data (b % bpb))
  else throw (.panic .freeingFreeBlock)

end Blocks

def iget (inum : Nat) : K Nat := do
  let st ← get
  match (List.range ninode).find? fun ip => 0 < (st.itable ip).ref ∧ (st.itable ip).inum = inum with
  | some ip =>
    setSlot ip { st.itable ip with ref := (st.itable ip).ref + 1 }
    return ip
  | none =>
    match (List.range ninode).find? fun ip => (st.itable ip).ref = 0 with
    | some ip =>
      setSlot ip { st.itable ip with inum := inum, ref := 1, valid := false }
      return ip
    | none => throw (.panic .igetNoInodes)

def idup (ip : Nat) : K Nat := do
  let node ← slot ip
  setSlot ip { node with ref := node.ref + 1 }
  return ip

def iunlock (ip : Nat) : K Unit := do
  let node ← slot ip
  if node.locked = false ∨ node.ref < 1 then throw (.panic .iunlock)
  else setSlot ip { node with locked := false }

def setAddr (ip : Nat) (k : Fin (ndirect + 1)) (addr : Nat) : K Unit := do
  let node ← slot ip
  setSlot ip { node with d := { node.d with addrs := update node.d.addrs k addr } }

section Inodes

variable (sb : Superblock)

def iallocFrom (type : Nat) : Nat → Nat → K (Option Nat)
  | 0, _ => pure none
  | fuel + 1, inum =>
    if inum < sb.ninodes then do
      let data ← bread (sb.iblock inum)
      if (loadDinode data (inum % ipb * dinodeSize)).type = 0 then do
        let zeroed : Dinode := ⟨type, 0, 0, 0, 0, fun _ => 0⟩
        logWrite (sb.iblock inum) (storeDinode data (inum % ipb * dinodeSize) zeroed)
        let ip ← iget inum
        return some ip
      else iallocFrom type fuel (inum + 1)
    else pure none

def ialloc (type : Nat) : K (Option Nat) := iallocFrom sb type sb.ninodes 1

def iupdate (ip : Nat) : K Unit := do
  let node ← slot ip
  let data ← bread (sb.iblock node.inum)
  logWrite (sb.iblock node.inum) (storeDinode data (node.inum % ipb * dinodeSize) node.d)

def ilock (ip : Nat) : K Unit := do
  let node ← slot ip
  if node.ref < 1 then throw (.panic .ilock)
  else if node.locked then throw .blocked
  else if node.valid then setSlot ip { node with locked := true }
  else do
    let data ← bread (sb.iblock node.inum)
    let d := loadDinode data (node.inum % ipb * dinodeSize)
    setSlot ip { node with locked := true, valid := true, d := d }
    if d.type = 0 then throw (.panic .ilockNoType) else pure ()

def ifree (inum : Nat) : K Unit := do
  let data ← bread (sb.iblock inum)
  logWrite (sb.iblock inum) (store data (inum % ipb * dinodeSize) 0 2)

def bmapEntry (ind bn : Nat) : K Nat := do
  let data ← bread ind
  let addr := load data (4 * bn) 4
  if addr = 0 then do
    let addr ← balloc sb
    if addr = 0 then return 0
    else do
      logWrite ind (store data (4 * bn) addr 4)
      return addr
  else return addr

/-- The disk block of block `bn` of the file, allocated if there is none; 0 if out of space. -/
def bmap (ip bn : Nat) : K Nat := do
  let node ← slot ip
  if direct : bn < ndirect then do
    let k : Fin (ndirect + 1) := ⟨bn, by omega⟩
    if node.d.addrs k = 0 then do
      let addr ← balloc sb
      if addr = 0 then return 0
      else do
        setAddr ip k addr
        return addr
    else return node.d.addrs k
  else if bn - ndirect < nindirect then do
    let k : Fin (ndirect + 1) := Fin.last ndirect
    if node.d.addrs k = 0 then do
      let addr ← balloc sb
      if addr = 0 then return 0
      else do
        setAddr ip k addr
        bmapEntry sb addr (bn - ndirect)
    else bmapEntry sb (node.d.addrs k) (bn - ndirect)
  else throw (.panic .bmapOutOfRange)

def itruncDirect (ip : Nat) : List (Fin ndirect) → K Unit
  | [] => pure ()
  | k :: rest => do
      let node ← slot ip
      if node.d.addrs k.castSucc = 0 then itruncDirect ip rest
      else do
        bfree sb (node.d.addrs k.castSucc)
        setAddr ip k.castSucc 0
        itruncDirect ip rest

def itruncEntries (data : Block) : List (Fin nindirect) → K Unit
  | [] => pure ()
  | j :: rest =>
    if load data (4 * j) 4 = 0 then itruncEntries data rest
    else do
      bfree sb (load data (4 * j) 4)
      itruncEntries data rest

def itruncIndirect (ip : Nat) : K Unit := do
  let node ← slot ip
  let ind := node.d.addrs (Fin.last ndirect)
  if ind = 0 then pure ()
  else do
    let data ← bread ind
    itruncEntries sb data (List.finRange nindirect)
    bfree sb ind
    setAddr ip (Fin.last ndirect) 0

def setSize (ip size : Nat) : K Unit := do
  let node ← slot ip
  setSlot ip { node with d := { node.d with size := size } }

def itrunc (ip : Nat) : K Unit := do
  itruncDirect sb ip (List.finRange ndirect)
  itruncIndirect sb ip
  setSize ip 0
  iupdate sb ip

/-- The sleep lock taken around `itrunc` is given back before anything looks at it. -/
def iput (ip : Nat) : K Unit := do
  let node ← slot ip
  if node.ref = 1 ∧ node.valid = true ∧ node.d.nlink = 0 then do
    if node.locked then throw .blocked
    else do
      itrunc sb ip
      let node ← slot ip
      setSlot ip { node with valid := false, ref := node.ref - 1 }
      ifree sb node.inum
  else setSlot ip { node with ref := node.ref - 1 }

def iunlockput (ip : Nat) : K Unit := do
  iunlock ip
  iput sb ip

end Inodes

end Xv6.Fs

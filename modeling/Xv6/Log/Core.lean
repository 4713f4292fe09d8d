import Xv6.Lib.Bytes
import Xv6.Lib.RedoLog
import Xv6.Lib.Transition

/-!
The log of `kernel/log.c` over a disk whose single-block writes are atomic, and the part of
the buffer cache it relies on.

The cache holds copies of blocks; a copy that the log has pinned is not evicted. The
in-memory header is the list of the block numbers logged so far. `Phase` is the position
inside `commit` or `recover_from_log`, one for each block about to be written; operations,
reads and evictions interleave with it. An operation modifies a buffer and calls `log_write`
on it in one step, since it holds the buffer's sleep lock throughout. A crash may come
between any two steps: it leaves the disk, and the machine starts again with
`recover_from_log`.

The fields from `active` on record the run: the operations running, those that ended in the
group being collected, its updates, the groups whose header has reached the disk, all
updates ever logged, and the operations whose `commit` has returned.
-/

namespace Xv6.Log

open Function
open Xv6.Lib Xv6.Lib.Bytes Xv6.Lib.RedoLog

abbrev Block := Nat → UInt8

def maxOpBlocks : Nat := 10

def logBlocks : Nat := maxOpBlocks * 3

structure Update where
  op : Nat
  blockno : Nat
  data : Block

inductive Phase
  | idle
  | writeLog (tail : Nat)
  | writeHead
  | installTrans (tail : Nat)
  | clearHead
  | finish
  | readHead
  | recoverTrans (tail : Nat)
  | recoverClear
  | panicked
deriving DecidableEq

structure World where
  disk : Nat → Block
  cache : Nat → Option Block
  pins : Nat → Nat
  outstanding : Nat
  committing : Bool
  ncommit : Nat
  lh : List Nat
  phase : Phase
  active : List Nat
  ended : List Nat
  nextOp : Nat
  current : List Update
  groups : List (List Update)
  issued : List Update
  returned : List Nat

inductive Label
  | beginOp
  | logWrite (op blockno : Nat) (data : Block)
  | endOp (op : Nat)
  | advance
  | bread (blockno : Nat)
  | evict (blockno : Nat)
  | crash

def area (start : Nat) : Area := ⟨start, logBlocks⟩

def Phase.serving : Phase → Bool
  | .readHead | .recoverTrans _ | .recoverClear | .panicked => false
  | _ => true

def World.bread (world : World) (blockno : Nat) : Block :=
  (world.cache blockno).getD (world.disk blockno)

def World.fill (world : World) (blockno : Nat) : World :=
  { world with cache := update world.cache blockno (some (world.bread blockno)) }

def World.bwrite (world : World) (blockno : Nat) (data : Block) : World :=
  { world with
    cache := update world.cache blockno (some data)
    disk := update world.disk blockno data }

def encodeHead (buf : Block) (lh : List Nat) : Block :=
  storeWords (store buf 0 lh.length 4) 4 4 lh

def decodeHead (buf : Block) : List Nat :=
  let n := load buf 0 4
  if n < 2 ^ 31 then loadWords buf 4 4 n else []

def writeHead (start : Nat) (world : World) : World :=
  world.bwrite start (encodeHead (world.bread start) world.lh)

def readHead (start : Nat) (world : World) : World :=
  { world.fill start with lh := decodeHead (world.bread start) }

def writeLogBlock (start : Nat) (world : World) (tail blockno : Nat) : World :=
  (world.fill blockno).bwrite ((area start).slot tail) (world.bread blockno)

def installBlock (start : Nat) (world : World) (tail blockno : Nat) : World :=
  (world.fill ((area start).slot tail)).bwrite blockno (world.bread ((area start).slot tail))

def bpin (world : World) (blockno : Nat) : World :=
  { world with pins := update world.pins blockno (world.pins blockno + 1) }

def bunpin (world : World) (blockno : Nat) : World :=
  { world with pins := update world.pins blockno (world.pins blockno - 1) }

def beginOp (world : World) : Option World :=
  if world.phase.serving ∧ ¬ world.committing ∧
      world.lh.length + (world.outstanding + 1) * maxOpBlocks ≤ logBlocks then
    some { world with
      outstanding := world.outstanding + 1
      active := world.nextOp :: world.active
      nextOp := world.nextOp + 1 }
  else none

def logWrite (start : Nat) (world : World) (op blockno : Nat) (data : Block) : Option World :=
  if world.phase.serving ∧ op ∈ world.active ∧ ¬ (area start).Owns blockno ∧ blockno < 2 ^ 32 then
    let modified := { world with cache := update world.cache blockno (some data) }
    if world.lh.length ≥ logBlocks ∨ world.outstanding < 1 then
      some { modified with phase := .panicked }
    else
      let recorded := { modified with
        current := world.current ++ [⟨op, blockno, data⟩]
        issued := world.issued ++ [⟨op, blockno, data⟩] }
      if blockno ∈ world.lh then some recorded
      else some { bpin recorded blockno with lh := world.lh ++ [blockno] }
  else none

def endOp (world : World) (op : Nat) : Option World :=
  if world.phase.serving ∧ op ∈ world.active then
    let left := { world with
      outstanding := world.outstanding - 1
      active := world.active.erase op
      ended := op :: world.ended }
    if world.committing then some { left with phase := .panicked }
    else if left.outstanding = 0 then
      some { left with
        committing := true
        phase := if world.lh.length > 0 then .writeLog 0 else .finish }
    else some left
  else none

def advance (start : Nat) (world : World) : Option World :=
  match world.phase with
  | .writeLog tail =>
    match world.lh[tail]? with
    | some blockno =>
      some { writeLogBlock start world tail blockno with phase := .writeLog (tail + 1) }
    | none => some { world with phase := .writeHead }
  | .writeHead =>
    some { writeHead start world with
      phase := .installTrans 0
      groups := world.groups ++ [world.current]
      current := [] }
  | .installTrans tail =>
    match world.lh[tail]? with
    | some blockno =>
      some { bunpin (installBlock start world tail blockno) blockno with
        phase := .installTrans (tail + 1) }
    | none => some { world with lh := [], phase := .clearHead }
  | .clearHead => some { writeHead start world with phase := .finish }
  | .finish =>
    some { world with
      committing := false
      ncommit := world.ncommit + 1
      phase := .idle
      ended := []
      returned := world.ended ++ world.returned }
  | .readHead => some { readHead start world with phase := .recoverTrans 0 }
  | .recoverTrans tail =>
    match world.lh[tail]? with
    | some blockno =>
      some { installBlock start world tail blockno with phase := .recoverTrans (tail + 1) }
    | none => some { world with lh := [], phase := .recoverClear }
  | .recoverClear => some { writeHead start world with phase := .idle }
  | .idle | .panicked => none

def crash (world : World) : World :=
  { world with
    cache := fun _ => none
    pins := fun _ => 0
    outstanding := 0
    committing := false
    ncommit := 0
    lh := []
    phase := .readHead
    active := []
    ended := []
    current := [] }

def step (start : Nat) (world : World) : Label → Option World
  | .beginOp => beginOp world
  | .logWrite op blockno data => logWrite start world op blockno data
  | .endOp op => endOp world op
  | .advance => advance start world
  | .bread blockno => some (world.fill blockno)
  | .evict blockno =>
    if world.pins blockno = 0 then
      some { world with cache := update world.cache blockno none }
    else none
  | .crash => some (crash world)

def World.boot (disk : Nat → Block) : World where
  disk := disk
  cache := fun _ => none
  pins := fun _ => 0
  outstanding := 0
  committing := false
  ncommit := 0
  lh := []
  phase := .readHead
  active := []
  ended := []
  nextOp := 0
  current := []
  groups := []
  issued := []
  returned := []

end Xv6.Log

import Xv6.Lib.Linked
import Xv6.Log.Core

/-!
The buffer cache of `kernel/bio.c` with the processes that use it and the log's commits.

The buffers are the nodes `0` to `NBUF - 1` of a linked list, `NBUF` is its head. A step is
one critical section under `bcache.lock`, or an access to a buffer whose sleep lock the
process holds. A handle is a use of a buffer by a process; its stage says how far `bread`
and `brelse` have come, and `dirty` that the data were changed and neither logged nor
written yet. The committing process executes `commit` command by command: `place` is the
loop it is in and `code` the rest of the commands of this turn.

The fields from `ops` on record the run: the processes in an operation, the blocks each has
logged, the blocks the log has pinned, and for each block the data of its latest
modification, by an operation or by the commit inside the log area.
-/

namespace Xv6.Bio

open Function
open Lib Lib.Linked
open Log (Block maxOpBlocks logBlocks area encodeHead)

def nbuf : Nat := maxOpBlocks * 3

def head : Nat := nbuf

def rootDev : Nat := 1

structure Buf where
  dev : Nat
  blockno : Nat
  valid : Bool
  refcnt : Nat
  lock : Option Nat
  data : Block

structure Bcache where
  links : Links Nat
  bufs : Nat → Buf

def Bcache.put (bc : Bcache) (b : Nat) (buf : Buf) : Bcache :=
  { bc with bufs := update bc.bufs b buf }

def binit : Bcache where
  links := (List.range nbuf).foldl (fun links b => links.insertFront head b) ⟨fun _ => head, fun _ => head⟩
  bufs := fun _ => ⟨0, 0, false, 0, none, fun _ => 0⟩

/-- The critical section of `bget`; `none` is its panic. -/
def bget (bc : Bcache) (dev blockno : Nat) : Option (Nat × Bcache) :=
  match seek bc.links.next head (fun b => (bc.bufs b).dev = dev ∧ (bc.bufs b).blockno = blockno)
      (nbuf + 1) (bc.links.next head) with
  | some b => some (b, bc.put b { bc.bufs b with refcnt := (bc.bufs b).refcnt + 1 })
  | none =>
    match seek bc.links.prev head (fun b => (bc.bufs b).refcnt = 0) (nbuf + 1) (bc.links.prev head) with
    | some b =>
      some (b, bc.put b { bc.bufs b with dev := dev, blockno := blockno, valid := false, refcnt := 1 })
    | none => none

def brelse (bc : Bcache) (b : Nat) : Bcache :=
  let bc := bc.put b { bc.bufs b with refcnt := (bc.bufs b).refcnt - 1 }
  if (bc.bufs b).refcnt = 0 then { bc with links := (bc.links.unlink b).insertFront head b } else bc

def bpin (bc : Bcache) (b : Nat) : Bcache :=
  bc.put b { bc.bufs b with refcnt := (bc.bufs b).refcnt + 1 }

def bunpin (bc : Bcache) (b : Nat) : Bcache :=
  bc.put b { bc.bufs b with refcnt := (bc.bufs b).refcnt - 1 }

inductive Stage
  | waiting
  | locked
  | ready
  | releasing
deriving DecidableEq

structure Handle where
  pid : Nat
  dev : Nat
  blockno : Nat
  buf : Nat
  stage : Stage
  dirty : Bool
deriving DecidableEq

inductive Cmd
  | bget (blockno : Nat)
  | acquired (blockno : Nat)
  | memmove (dst src : Nat)
  | setHead (blockno : Nat)
  | bwrite (blockno : Nat)
  | bunpin (blockno : Nat)
  | releasesleep (blockno : Nat)
  | brelse (blockno : Nat)

inductive Place
  | writeLog (tail : Nat)
  | writeHead
  | installTrans (tail : Nat)
  | clearHead
  | finish

structure Commit where
  pid : Nat
  place : Place
  code : List Cmd

inductive Panic
  | noBuffers
  | bwrite
  | brelse
  | tooBig
  | outsideTrans
  | committing
deriving DecidableEq

structure System where
  bc : Bcache
  disk : Nat → Block
  handles : List Handle
  lh : List Nat
  outstanding : Nat
  committing : Bool
  commit : Option Commit
  panic : Option Panic
  ops : List Nat
  logged : List (Nat × Nat)
  pinned : List Nat
  latest : Nat → Block

inductive Label
  | beginOp (pid : Nat)
  | bget (pid dev blockno : Nat)
  | acquiresleep (h : Handle)
  | fill (h : Handle)
  | modify (h : Handle) (data : Block)
  | logWrite (h : Handle)
  | releasesleep (h : Handle)
  | brelse (h : Handle)
  | endOp (pid : Nat)
  | commit

def breadCode (blockno : Nat) : List Cmd := [.bget blockno, .acquired blockno]

def brelseCode (blockno : Nat) : List Cmd := [.releasesleep blockno, .brelse blockno]

def writeLogCode (start tail blockno : Nat) : List Cmd :=
  breadCode ((area start).slot tail) ++ breadCode blockno ++
    [.memmove ((area start).slot tail) blockno, .bwrite ((area start).slot tail)] ++
    brelseCode blockno ++ brelseCode ((area start).slot tail)

def headCode (start : Nat) : List Cmd :=
  breadCode start ++ [.setHead start, .bwrite start] ++ brelseCode start

def installCode (start tail blockno : Nat) : List Cmd :=
  breadCode ((area start).slot tail) ++ breadCode blockno ++
    [.memmove blockno ((area start).slot tail), .bwrite blockno, .bunpin blockno] ++
    brelseCode ((area start).slot tail) ++ brelseCode blockno

def System.change (sys : System) (h h' : Handle) (buf : Buf) : System :=
  { sys with bc := sys.bc.put h.buf buf, handles := h' :: sys.handles.erase h }

def System.bget (sys : System) (pid dev blockno : Nat) : System :=
  match Bio.bget sys.bc dev blockno with
  | some (b, bc) =>
    { sys with bc := bc, handles := ⟨pid, dev, blockno, b, .waiting, false⟩ :: sys.handles }
  | none => { sys with panic := some .noBuffers }

def System.acquiresleep (sys : System) (h : Handle) : Option System :=
  if (sys.bc.bufs h.buf).lock = none then
    some (sys.change h { h with stage := .locked } { sys.bc.bufs h.buf with lock := some h.pid })
  else none

/-- The rest of `bread`, with the buffer locked. -/
def System.fill (sys : System) (h : Handle) : System :=
  let buf := sys.bc.bufs h.buf
  sys.change h { h with stage := .ready }
    (if buf.valid then buf else { buf with data := sys.disk buf.blockno, valid := true })

def System.store (sys : System) (h : Handle) (data : Block) : System :=
  sys.change h { h with dirty := true } { sys.bc.bufs h.buf with data := data }

def System.bwrite (sys : System) (h : Handle) : System :=
  let buf := sys.bc.bufs h.buf
  if buf.lock = some h.pid then
    { sys.change h { h with dirty := false } buf with
      disk := update sys.disk buf.blockno buf.data }
  else { sys with panic := some .bwrite }

def System.logWrite (sys : System) (h : Handle) : System :=
  let blockno := (sys.bc.bufs h.buf).blockno
  if sys.lh.length ≥ logBlocks then { sys with panic := some .tooBig }
  else if sys.outstanding < 1 then { sys with panic := some .outsideTrans }
  else
    let recorded := { sys with
      handles := { h with dirty := false } :: sys.handles.erase h
      logged := (h.pid, blockno) :: sys.logged }
    if blockno ∈ sys.lh then recorded
    else { recorded with
      bc := Bio.bpin sys.bc h.buf
      lh := sys.lh ++ [blockno]
      pinned := sys.pinned ++ [blockno] }

def System.bunpin (sys : System) (h : Handle) : System :=
  { sys with
    bc := Bio.bunpin sys.bc h.buf
    pinned := sys.pinned.erase (sys.bc.bufs h.buf).blockno }

def System.releasesleep (sys : System) (h : Handle) : System :=
  if (sys.bc.bufs h.buf).lock = some h.pid then
    sys.change h { h with stage := .releasing } { sys.bc.bufs h.buf with lock := none }
  else { sys with panic := some .brelse }

def System.brelse (sys : System) (h : Handle) : System :=
  { sys with bc := Bio.brelse sys.bc h.buf, handles := sys.handles.erase h }

def System.beginOp (sys : System) (pid : Nat) : Option System :=
  if sys.committing then none
  else if sys.lh.length + (sys.outstanding + 1) * maxOpBlocks > logBlocks then none
  else some { sys with outstanding := sys.outstanding + 1, ops := pid :: sys.ops }

def System.writeLog (start : Nat) (sys : System) (pid tail : Nat) : System :=
  match sys.lh[tail]? with
  | some blockno => { sys with commit := some ⟨pid, .writeLog tail, writeLogCode start tail blockno⟩ }
  | none => { sys with commit := some ⟨pid, .writeHead, headCode start⟩ }

/-- The head of the loop of `install_trans`; after the loop `commit` clears the log. -/
def System.installTrans (start : Nat) (sys : System) (pid tail : Nat) : System :=
  match sys.lh[tail]? with
  | some blockno => { sys with commit := some ⟨pid, .installTrans tail, installCode start tail blockno⟩ }
  | none => { sys with lh := [], commit := some ⟨pid, .clearHead, headCode start⟩ }

def System.endOp (start : Nat) (sys : System) (pid : Nat) : Option System :=
  if pid ∈ sys.ops then
    let left := { sys with
      outstanding := sys.outstanding - 1
      ops := sys.ops.erase pid
      logged := sys.logged.filter fun entry => entry.1 ≠ pid }
    if sys.committing then some { left with panic := some .committing }
    else if left.outstanding = 0 then
      let closed := { left with committing := true }
      if closed.lh.length > 0 then some (closed.writeLog start pid 0)
      else some { closed with commit := some ⟨pid, .finish, []⟩ }
    else some left
  else none

def System.holding (sys : System) (pid blockno : Nat) (stage : Stage) : Option Handle :=
  sys.handles.find? fun h => h.pid = pid ∧ h.blockno = blockno ∧ h.stage = stage

def System.execute (start : Nat) (sys : System) (pid : Nat) : Cmd → Option System
  | .bget blockno => some (sys.bget pid rootDev blockno)
  | .acquired blockno => (sys.holding pid blockno .ready).map fun _ => sys
  | .memmove dst src => do
      let dest ← sys.holding pid dst .ready
      let source ← sys.holding pid src .ready
      let data := (sys.bc.bufs source.buf).data
      let moved := sys.store dest data
      some (if (area start).Owns dst then { moved with latest := update sys.latest dst data }
        else moved)
  | .setHead blockno => do
      let h ← sys.holding pid blockno .ready
      let data := encodeHead (sys.bc.bufs h.buf).data sys.lh
      some { sys.store h data with latest := update sys.latest blockno data }
  | .bwrite blockno => (sys.holding pid blockno .ready).map sys.bwrite
  | .bunpin blockno => (sys.holding pid blockno .ready).map sys.bunpin
  | .releasesleep blockno => (sys.holding pid blockno .ready).map sys.releasesleep
  | .brelse blockno => (sys.holding pid blockno .releasing).map sys.brelse

def System.advance (start : Nat) (sys : System) : Option System :=
  match sys.commit with
  | none => none
  | some c =>
    match c.code with
    | cmd :: rest => { sys with commit := some { c with code := rest } }.execute start c.pid cmd
    | [] =>
      match c.place with
      | .writeLog tail => some (sys.writeLog start c.pid (tail + 1))
      | .writeHead => some (sys.installTrans start c.pid 0)
      | .installTrans tail => some (sys.installTrans start c.pid (tail + 1))
      | .clearHead => some { sys with commit := some ⟨c.pid, .finish, []⟩ }
      | .finish => some { sys with committing := false, commit := none }

def System.inCommit (sys : System) (pid : Nat) : Bool := sys.commit.any fun c => c.pid = pid

def step (start : Nat) (sys : System) (label : Label) : Option System :=
  if sys.panic.isSome then none
  else match label with
    | .beginOp pid => if sys.inCommit pid then none else sys.beginOp pid
    | .bget pid dev blockno => if sys.inCommit pid then none else some (sys.bget pid dev blockno)
    | .acquiresleep h => if h ∈ sys.handles ∧ h.stage = .waiting then sys.acquiresleep h else none
    | .fill h => if h ∈ sys.handles ∧ h.stage = .locked then some (sys.fill h) else none
    | .modify h data =>
      if h ∈ sys.handles ∧ h.stage = .ready ∧ ¬ sys.inCommit h.pid then
        some { sys.store h data with latest := update sys.latest h.blockno data }
      else none
    | .logWrite h =>
      if h ∈ sys.handles ∧ h.stage = .ready ∧ ¬ sys.inCommit h.pid then some (sys.logWrite h) else none
    | .releasesleep h =>
      if h ∈ sys.handles ∧ h.stage = .ready ∧ ¬ sys.inCommit h.pid then some (sys.releasesleep h)
      else none
    | .brelse h =>
      if h ∈ sys.handles ∧ h.stage = .releasing ∧ ¬ sys.inCommit h.pid then some (sys.brelse h) else none
    | .endOp pid => if sys.inCommit pid then none else sys.endOp start pid
    | .commit => sys.advance start

def System.boot (disk : Nat → Block) : System where
  bc := binit
  disk := disk
  handles := []
  lh := []
  outstanding := 0
  committing := false
  commit := none
  panic := none
  ops := []
  logged := []
  pinned := []
  latest := disk

end Xv6.Bio

import Xv6.Lib.Ring
import Xv6.Lib.Transition

/-!
The disk driver of `kernel/virtio_disk.c` with the device it drives. Any number of processes
call `virtio_disk_rw` with the lock of the buffer; any number of CPUs may be in
`virtio_disk_intr`. Under `disk.vdisk_lock` a process makes one step at a time; the stores
to `avail->ring` and `avail->idx`, which the device can see, are steps of their own. A
process that waits drops the lock and takes it again at any later time.

The device takes chain heads out of the `avail` ring and completes those it has taken in any
order: it does what the descriptors say, stores status 0 and puts the head into the `used`
ring.
-/

namespace Xv6.Virtio

open Function
open Xv6.Lib

def num : Nat := 8

def bsize : Nat := 1024

inductive Panic
  | freeDesc1
  | freeDesc2
  | intrStatus
  /-- `virtio_disk_intr` follows a null pointer -/
  | noBuf
  deriving DecidableEq

inductive Addr
  | none
  /-- `&disk.ops[i]` -/
  | op (i : Nat)
  /-- `b->data` -/
  | data (b : Nat)
  /-- `&disk.info[i].status` -/
  | status (i : Nat)
  deriving DecidableEq

structure Desc where
  addr : Addr
  len : Nat
  nextFlag : Bool
  writeFlag : Bool
  next : Nat
  deriving DecidableEq

structure BlkReq where
  write : Bool
  sector : Nat
  deriving DecidableEq

structure Info where
  b : Option Nat
  status : Nat
  deriving DecidableEq

/-- The parts of `struct disk` that only the driver changes, and `info[].status`. -/
structure Disk where
  desc : Nat → Desc
  free : Nat → Bool
  info : Nat → Info
  ops : Nat → BlkReq

namespace Disk

variable (disk : Disk)

def allocDesc : Option (Disk × Nat) :=
  match (List.range num).find? disk.free with
  | some i => some ({ disk with free := update disk.free i false }, i)
  | none => none

def blank : Desc := ⟨.none, 0, false, false, 0⟩

/-- `free_desc` without its `wakeup`. -/
def freeDesc (i : Nat) : Except Panic Disk :=
  if num ≤ i then .error .freeDesc1
  else if disk.free i then .error .freeDesc2
  else .ok { disk with desc := update disk.desc i blank, free := update disk.free i true }

/-- The loop of `free_chain`. A descriptor that is visited twice is free the second time, so
that there are at most `num + 1` turns. -/
def freeChain : Nat → Disk → Nat → Except Panic Disk
  | 0, disk, _ => .ok disk
  | fuel + 1, disk, i => do
      let d := disk.desc i
      let freed ← disk.freeDesc i
      if d.nextFlag then freeChain fuel freed d.next else return freed

def freeAll (disk : Disk) : List Nat → Except Panic Disk
  | [] => .ok disk
  | i :: rest => do
      let freed ← disk.freeDesc i
      freeAll freed rest

/-- The loop of `alloc3_desc`, with `left` turns to go. -/
def allocLoop : Nat → Disk → List Nat → Except Panic (Disk × Option (List Nat))
  | 0, disk, idx => .ok (disk, some idx)
  | left + 1, disk, idx =>
    match disk.allocDesc with
    | some (disk, i) => allocLoop left disk (idx ++ [i])
    | none => do
        let freed ← disk.freeAll idx
        return (freed, none)

def alloc3Desc : Except Panic (Disk × Option (List Nat)) := allocLoop 3 disk []

end Disk

/-- A call of `virtio_disk_rw`; `mark` is how much the device had done when it began. -/
structure Op where
  b : Nat
  blockno : Nat
  write : Bool
  mark : Nat
  deriving DecidableEq

/-- `b->blockno * (BSIZE / 512)`, in 32 bits. -/
def Op.sector (op : Op) : Nat := op.blockno * (bsize / 512) % 2 ^ 32

structure Request where
  op : Op
  i0 : Nat
  i1 : Nat
  i2 : Nat
  deriving DecidableEq

def Disk.format (disk : Disk) (req : Request) : Disk where
  desc := update (update (update disk.desc
    req.i0 ⟨.op req.i0, 16, true, false, req.i1⟩)
    req.i1 ⟨.data req.op.b, bsize, true, !req.op.write, req.i2⟩)
    req.i2 ⟨.status req.i0, 1, false, true, 0⟩
  free := disk.free
  info := update disk.info req.i0 ⟨some req.op.b, 0xff⟩
  ops := update disk.ops req.i0 ⟨req.op.write, req.op.sector⟩

inductive Pc
  | idle
  | acquire (op : Op)
  | alloc (op : Op)
  | format (req : Request)
  | ring (req : Request)
  | bump (req : Request)
  /-- at the test of `b->disk` -/
  | check (req : Request)
  | wait (req : Request)
  | free (req : Request)
  | unlock (op : Op)
  | intrAcquire
  | intr
  | intrUnlock
  deriving DecidableEq

/-- What the device found in the descriptors of a chain and did. -/
structure Done where
  req : Option BlkReq
  b : Option Nat
  deriving DecidableEq

/-- A call that has returned, with what the device did with its buffer since it began. -/
structure Return where
  op : Op
  done : List Done
  deriving DecidableEq

/-- `availIdx` and `availRing` are `disk.avail->idx` and `->ring`, `usedIdx` is `disk.used->idx`
and `seenUsed` is `disk.used_idx`. The device has read the `avail` ring up to `seenAvail`. -/
structure State where
  disk : Disk
  availRing : Nat → Nat
  availIdx : BitVec 16
  usedRing : Nat → Nat
  usedIdx : BitVec 16
  seenUsed : BitVec 16
  /-- `b->disk` -/
  busy : Nat → Bool
  /-- the process that holds the lock of a buffer -/
  owner : Nat → Option Nat
  lock : Option Nat
  pcs : Nat → Pc
  panic : Option Panic
  seenAvail : BitVec 16
  taken : List Nat
  /-- history: chain heads that were offered and accepted through the `avail` ring, returned
  and consumed through the `used` ring, what the device did, and the calls that are over -/
  offered : List Nat
  accepted : List Nat
  returned : List Nat
  consumed : List Nat
  performed : List Done
  returns : List Return

inductive Label
  | acquiresleep (p b : Nat)
  | releasesleep (p b : Nat)
  | rw (p b blockno : Nat) (write : Bool)
  | intr (p : Nat)
  | exec (p : Nat)
  | take
  | complete (head : Nat)

namespace State

variable (s : State)

def goto (p : Nat) (pc : Pc) : State := { s with pcs := update s.pcs p pc }

def stop (reason : Panic) : State := { s with panic := some reason }

def doneSince (op : Op) : List Done := (s.performed.drop op.mark).filter fun d => d.b = some op.b

def exec (p : Nat) : Option State :=
  match s.pcs p with
  | .idle => none
  | .acquire op => if s.lock = none then some { s.goto p (.alloc op) with lock := some p } else none
  | .alloc op =>
    match s.disk.alloc3Desc with
    | .error reason => some (s.stop reason)
    | .ok (disk, some [i0, i1, i2]) => some { s.goto p (.format ⟨op, i0, i1, i2⟩) with disk := disk }
    | .ok (disk, _) => some { s.goto p (.acquire op) with disk := disk, lock := none }
  | .format req => some { s.goto p (.ring req) with
      disk := s.disk.format req, busy := update s.busy req.op.b true }
  | .ring req => some { s.goto p (.bump req) with
      availRing := update s.availRing (Ring.index num s.availIdx) req.i0 }
  | .bump req => some { s.goto p (.check req) with
      availIdx := s.availIdx + 1#16, offered := s.offered ++ [req.i0] }
  | .check req =>
    if s.busy req.op.b then some { s.goto p (.wait req) with lock := none }
    else some (s.goto p (.free req))
  | .wait req => if s.lock = none then some { s.goto p (.check req) with lock := some p } else none
  | .free req =>
    let info := update s.disk.info req.i0 { s.disk.info req.i0 with b := none }
    match Disk.freeChain (num + 1) { s.disk with info := info } req.i0 with
    | .error reason => some (s.stop reason)
    | .ok disk => some { s.goto p (.unlock req.op) with disk := disk }
  | .unlock op => some { s.goto p .idle with lock := none, returns := s.returns ++ [⟨op, s.doneSince op⟩] }
  | .intrAcquire => if s.lock = none then some { s.goto p .intr with lock := some p } else none
  | .intr =>
    if s.seenUsed = s.usedIdx then some (s.goto p .intrUnlock)
    else
      let id := s.usedRing (Ring.index num s.seenUsed)
      if (s.disk.info id).status ≠ 0 then some (s.stop .intrStatus)
      else
        match (s.disk.info id).b with
        | none => some (s.stop .noBuf)
        | some b => some { s with
            busy := update s.busy b false, seenUsed := s.seenUsed + 1#16, consumed := s.consumed ++ [id] }
  | .intrUnlock => some { s.goto p .idle with lock := none }

def take : Option State :=
  if s.seenAvail = s.availIdx then none
  else
    let head := s.availRing (Ring.index num s.seenAvail)
    some { s with
      taken := s.taken ++ [head], seenAvail := s.seenAvail + 1#16, accepted := s.accepted ++ [head] }

def reqAt : Addr → Option BlkReq
  | .op i => some (s.disk.ops i)
  | .none | .data _ | .status _ => none

def bufAt : Addr → Option Nat
  | .data b => some b
  | .none | .op _ | .status _ => none

def setStatus : Addr → Nat → Info
  | .status i => update s.disk.info i { s.disk.info i with status := 0 }
  | .none | .op _ | .data _ => s.disk.info

/-- The device follows the chain that begins at `head`, does what it says and returns it. -/
def complete (head : Nat) : Option State :=
  if head ∈ s.taken then
    let header := s.disk.desc head
    let data := s.disk.desc header.next
    let status := s.disk.desc data.next
    some { s with
      disk := { s.disk with info := s.setStatus status.addr }
      taken := s.taken.erase head
      usedRing := update s.usedRing (Ring.index num s.usedIdx) head
      usedIdx := s.usedIdx + 1#16
      returned := s.returned ++ [head]
      performed := s.performed ++ [⟨s.reqAt header.addr, bufAt data.addr⟩] }
  else none

end State

def step (s : State) (label : Label) : Option State :=
  if s.panic.isSome then none
  else
    match label with
    | .acquiresleep p b => if s.owner b = none then some { s with owner := update s.owner b (some p) } else none
    | .releasesleep p b =>
      if s.owner b = some p ∧ s.pcs p = .idle then some { s with owner := update s.owner b none } else none
    | .rw p b blockno write =>
      if s.pcs p = .idle ∧ s.owner b = some p then
        some (s.goto p (.acquire ⟨b, blockno, write, s.performed.length⟩))
      else none
    | .intr p => if s.pcs p = .idle then some (s.goto p .intrAcquire) else none
    | .exec p => s.exec p
    | .take => s.take
    | .complete head => s.complete head

def boot : State where
  disk := ⟨fun _ => Disk.blank, fun i => i < num, fun _ => ⟨none, 0⟩, fun _ => ⟨false, 0⟩⟩
  availRing _ := 0
  availIdx := 0#16
  usedRing _ := 0
  usedIdx := 0#16
  seenUsed := 0#16
  busy _ := false
  owner _ := none
  lock := none
  pcs _ := .idle
  panic := none
  seenAvail := 0#16
  taken := []
  offered := []
  accepted := []
  returned := []
  consumed := []
  performed := []
  returns := []

end Xv6.Virtio

import Xv6.Lib.Ring
import Xv6.Lib.Transition

/-!
The console input of `kernel/console.c`: `consoleintr` for every character that arrives, and
`consoleread` by any number of processes. `consoleintr` is one step; between taking and
dropping `cons.lock` a reader makes one turn of its loop at a time. A reader that finds
nothing to read takes the lock again at any later time, woken or not. `Driver` has the four
operations on the buffer as parameters, so that the same code runs on the ring buffer and on
two plain queues.
-/

namespace Xv6.Console

open Function
open Xv6.Lib

def inputBufSize : Nat := 128

/-! `C('D')`, `C('P')`, `C('U')`, `C('H')` and the other characters the code knows. -/

def ctrlD : UInt8 := 4
def ctrlH : UInt8 := 8
def newline : UInt8 := 10
def carriageReturn : UInt8 := 13
def ctrlP : UInt8 := 16
def ctrlU : UInt8 := 21
def delete : UInt8 := 127

structure Cons where
  buf : Nat → UInt8
  r : BitVec 32
  w : BitVec 32
  e : BitVec 32

namespace Cons

variable (cons : Cons)

def erase : Cons := { cons with e := cons.e - 1#32 }

/-- The loop for `C('U')`; the edit line bounds its turns. -/
def killLine : Nat → Cons → Cons
  | 0, cons => cons
  | fuel + 1, cons =>
    if cons.e ≠ cons.w ∧ cons.buf (Ring.index inputBufSize (cons.e - 1#32)) ≠ newline then killLine fuel cons.erase
    else cons

def put (c : UInt8) : Cons :=
  { cons with buf := update cons.buf (Ring.index inputBufSize cons.e) c, e := cons.e + 1#32 }

def consoleintr (c : UInt8) : Cons :=
  if c = ctrlP then cons
  else if c = ctrlU then killLine (Ring.count cons.w cons.e) cons
  else if c = ctrlH ∨ c = delete then
    if cons.e ≠ cons.w then cons.erase else cons
  else if c ≠ 0 ∧ cons.e - cons.r < BitVec.ofNat 32 inputBufSize then
    let c := if c = carriageReturn then newline else c
    let cons := cons.put c
    if c = newline ∨ c = ctrlD ∨ cons.e - cons.r = BitVec.ofNat 32 inputBufSize then { cons with w := cons.e }
    else cons
  else cons

end Cons

/-- What `consoleread` does with the buffer: `cons.r == cons.w`, `cons.buf[cons.r++]` and
`cons.r--`. -/
structure Driver (D : Type) where
  intr : D → UInt8 → D
  empty : D → Bool
  next : D → UInt8 × D
  back : D → UInt8 → D

def ring : Driver Cons where
  intr := Cons.consoleintr
  empty cons := cons.r == cons.w
  next cons := (cons.buf (Ring.index inputBufSize cons.r), { cons with r := cons.r + 1#32 })
  back cons _ := { cons with r := cons.r - 1#32 }

/-- Why a call is over: nothing more was asked for, a line is complete, a `^D` was met and
taken or left, a copy failed, or the process is killed. -/
inductive Ended
  | enough
  | line
  | eof (taken : Bool)
  | fault
  | killed
  deriving DecidableEq

/-- The arguments and locals of `consoleread`, with the bytes it has delivered. -/
structure Call where
  n : Int
  target : Int
  bytes : List UInt8
  deriving DecidableEq

inductive Pc
  | idle
  | acquire (call : Call)
  | loop (call : Call)
  /-- out of the loop, before the last `release` -/
  | leave (call : Call) (ended : Ended)
  deriving DecidableEq

structure Return where
  pid : Nat
  call : Call
  ended : Ended
  value : Int
  deriving DecidableEq

/-- The console and its readers. `taken` has the bytes that readers took out of the buffer and
`returns` the calls that are over. -/
structure World (D : Type) where
  dev : D
  lock : Option Nat
  pcs : Nat → Pc
  killed : Nat → Bool
  taken : List (Nat × UInt8)
  returns : List Return

inductive Label
  | intr (c : UInt8)
  | consoleread (pid : Nat) (n : Int)
  /-- `copied` tells whether a call of `either_copyout` succeeds -/
  | exec (pid : Nat) (copied : Bool)
  | kkill (pid : Nat)

section Reader

variable {D : Type} (driver : Driver D) (world : World D) (pid : Nat)

def World.goto (pc : Pc) : World D := { world with pcs := update world.pcs pid pc }

def World.take (dev : D) (c : UInt8) (pc : Pc) : World D :=
  { world.goto pid pc with dev := dev, taken := world.taken ++ [(pid, c)] }

def World.done (call : Call) (ended : Ended) (value : Int) : World D :=
  { world.goto pid .idle with lock := none, returns := world.returns ++ [⟨pid, call, ended, value⟩] }

def turn (call : Call) (copied : Bool) : World D :=
  if call.n ≤ 0 then world.goto pid (.leave call .enough)
  else if driver.empty world.dev then
    if world.killed pid then world.done pid call .killed (-1)
    else { world.goto pid (.acquire call) with lock := none }
  else
    let c := (driver.next world.dev).1
    let dev := (driver.next world.dev).2
    if c = ctrlD then
      -- saved for the next call, which returns nothing then
      if call.n < call.target then
        { world.goto pid (.leave call (.eof false)) with dev := driver.back dev c }
      else world.take pid dev c (.leave call (.eof true))
    else if copied = false then world.take pid dev c (.leave call .fault)
    else
      let call := { call with n := call.n - 1, bytes := call.bytes ++ [c] }
      world.take pid dev c (if c = newline then .leave call .line else .loop call)

def exec (copied : Bool) : Option (World D) :=
  match world.pcs pid with
  | .idle => none
  | .acquire call => if world.lock = none then some { world.goto pid (.loop call) with lock := some pid } else none
  | .loop call => some (turn driver world pid call copied)
  | .leave call ended => some (world.done pid call ended (call.target - call.n))

end Reader

def step {D : Type} (driver : Driver D) (world : World D) : Label → Option (World D)
  | .intr c => if world.lock = none then some { world with dev := driver.intr world.dev c } else none
  | .consoleread pid n => if world.pcs pid = .idle then some (world.goto pid (.acquire ⟨n, n, []⟩)) else none
  | .exec pid copied => exec driver world pid copied
  | .kkill pid => some { world with killed := update world.killed pid true }

def boot {D : Type} (dev : D) : World D where
  dev := dev
  lock := none
  pcs _ := .idle
  killed _ := false
  taken := []
  returns := []

def empty : Cons := ⟨fun _ => 0, 0#32, 0#32, 0#32⟩

end Xv6.Console

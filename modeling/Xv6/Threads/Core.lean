import Xv6.Lib.Bytes
import Xv6.Lib.Transition

/-!
The user-level thread library of `user/threads.c` and the context switch of
`user/thread_switch.S`.

`thread_pool` is an array of `MAX_THREADS` structures in the process's memory, laid out as
RV64 lays them out: the four-byte `estado_thread`, the stack array, padding to a multiple of
eight, then the `uint64` fields `s0` to `s11`, `ra` and `sp`. `switch_context` is the
instruction sequence of the assembly file, run one instruction after the other.

`World` adds which slot's thread owns the processor, and for each slot the registers its
thread is to be resumed with. `thread_schedule` is entered with arbitrary registers, since
what the compiled body leaves in them is not written in the source.
-/

namespace Xv6.Threads

open Function
open Xv6.Lib.Bytes

abbrev maxThreads : Nat := 4

inductive EstadoThread
  | libre
  | listaParaCorrer
  | corriendo
deriving DecidableEq, Repr

def EstadoThread.code : EstadoThread → Nat
  | .libre => 0
  | .listaParaCorrer => 1
  | .corriendo => 2

def stackSize : Nat := 4096

def stackOffset : Nat := 4

def contextOffset : Nat := (stackOffset + stackSize + 7) / 8 * 8

def raOffset : Nat := contextOffset + 12 * 8

def spOffset : Nat := contextOffset + 13 * 8

def threadSize : Nat := contextOffset + 14 * 8

/-- The array `thread_pool`: where it lies in the process's address space. -/
structure ThreadPool where
  base : Nat
  aligned : base % 8 = 0
  fits : base + maxThreads * threadSize ≤ 2 ^ 64

abbrev Slot := Fin maxThreads

instance : NeZero maxThreads := ⟨by decide⟩

inductive Reg
  | s (k : Fin 12)
  | ra
  | sp
  | a0
  | a1
  | other (k : Fin 15)
deriving DecidableEq

abbrev Registers := Reg → BitVec 64

structure Machine where
  regs : Registers
  mem : Nat → UInt8
  pc : BitVec 64

inductive Instr
  | sd (source : Reg) (offset : Nat) (pointer : Reg)
  | ld (target : Reg) (offset : Nat) (pointer : Reg)
  | ret
deriving DecidableEq

def address (regs : Registers) (offset : Nat) (pointer : Reg) : Nat :=
  (regs pointer + BitVec.ofNat 64 offset).toNat

def Instr.exec (machine : Machine) : Instr → Machine
  | .sd source offset pointer =>
    { machine with
      mem := store machine.mem (address machine.regs offset pointer)
        (machine.regs source).toNat 8 }
  | .ld target offset pointer =>
    { machine with
      regs := update machine.regs target
        (BitVec.ofNat 64 (load machine.mem (address machine.regs offset pointer) 8)) }
  | .ret => { machine with pc := machine.regs .ra }

def switchContext : List Instr :=
  [.sd (.s 0) 0 .a0, .sd (.s 1) 8 .a0, .sd (.s 2) 16 .a0, .sd (.s 3) 24 .a0,
   .sd (.s 4) 32 .a0, .sd (.s 5) 40 .a0, .sd (.s 6) 48 .a0, .sd (.s 7) 56 .a0,
   .sd (.s 8) 64 .a0, .sd (.s 9) 72 .a0, .sd (.s 10) 80 .a0, .sd (.s 11) 88 .a0,
   .sd .ra 96 .a0, .sd .sp 104 .a0,
   .ld (.s 0) 0 .a1, .ld (.s 1) 8 .a1, .ld (.s 2) 16 .a1, .ld (.s 3) 24 .a1,
   .ld (.s 4) 32 .a1, .ld (.s 5) 40 .a1, .ld (.s 6) 48 .a1, .ld (.s 7) 56 .a1,
   .ld (.s 8) 64 .a1, .ld (.s 9) 72 .a1, .ld (.s 10) 80 .a1, .ld (.s 11) 88 .a1,
   .ld .ra 96 .a1, .ld .sp 104 .a1,
   .ret]

def contextRegs : List Reg :=
  [.s 0, .s 1, .s 2, .s 3, .s 4, .s 5, .s 6, .s 7, .s 8, .s 9, .s 10, .s 11, .ra, .sp]

def execAll (machine : Machine) (code : List Instr) : Machine :=
  code.foldl Instr.exec machine

namespace ThreadPool

variable (pool : ThreadPool)

def slotAddress (slot : Slot) : Nat := pool.base + slot * threadSize

def contextAddress (slot : Slot) : Nat := pool.slotAddress slot + contextOffset

def stackTop (slot : Slot) : Nat := pool.slotAddress slot + stackOffset + stackSize

def estadoThread (mem : Nat → UInt8) (slot : Slot) : Nat :=
  load mem (pool.slotAddress slot) 4

def setEstado (mem : Nat → UInt8) (slot : Slot) (estado : EstadoThread) : Nat → UInt8 :=
  store mem (pool.slotAddress slot) estado.code 4

def threadInit (mem : Nat → UInt8) : Nat → UInt8 :=
  pool.setEstado mem 0 .corriendo

def slots : List Slot := List.finRange maxThreads

def firstInState (mem : Nat → UInt8) (estado : EstadoThread) : Option Slot :=
  slots.find? fun slot => pool.estadoThread mem slot = estado.code

def fillSlot (mem : Nat → UInt8) (slot : Slot) (funcion : BitVec 64) : Nat → UInt8 :=
  let withRa := store mem (pool.slotAddress slot + raOffset) funcion.toNat 8
  let withSp := store withRa (pool.slotAddress slot + spOffset) (pool.stackTop slot) 8
  pool.setEstado withSp slot .listaParaCorrer

def threadCreate (mem : Nat → UInt8) (funcion : BitVec 64) : Nat → UInt8 :=
  match pool.firstInState mem .libre with
  | some slot => pool.fillSlot mem slot funcion
  | none => mem

/-- The slots `i` and `x` at which the nested loops of `thread_schedule` reach the switch. -/
def pickThreads (mem : Nat → UInt8) : Option (Slot × Slot) :=
  slots.findSome? fun i =>
    if pool.estadoThread mem i = EstadoThread.listaParaCorrer.code then
      (pool.firstInState mem .corriendo).map fun x => (i, x)
    else none

def callSwitchContext (machine : Machine) (x i : Slot) : Machine :=
  let regs := update (update machine.regs
    .a0 (BitVec.ofNat 64 (pool.contextAddress x))) .a1 (BitVec.ofNat 64 (pool.contextAddress i))
  execAll { machine with regs := regs } switchContext

def switchTo (machine : Machine) (i x : Slot) : Machine :=
  let mem := pool.setEstado (pool.setEstado machine.mem i .corriendo) x .listaParaCorrer
  pool.callSwitchContext { machine with mem := mem } x i

def threadSchedule (machine : Machine) : Machine :=
  match pool.pickThreads machine.mem with
  | some (i, x) => pool.switchTo machine i x
  | none => machine

end ThreadPool

inductive Resume
  | start (funcion : BitVec 64)
  | yielded (regs : Registers)

structure World where
  machine : Machine
  owner : Slot
  resume : Slot → Option Resume

inductive Label
  | compute (regs : Registers) (pc : BitVec 64) (writes : List (Nat × UInt8))
  | threadCreate (funcion : BitVec 64)
  | threadSchedule (regs : Registers)

def writeBytes (mem : Nat → UInt8) (writes : List (Nat × UInt8)) : Nat → UInt8 :=
  writes.foldl (fun mem write => update mem write.1 write.2) mem

/-- A thread writes its own stack array and whatever lies outside the pool. -/
def ThreadPool.mayWrite (pool : ThreadPool) (owner : Slot) (addr : Nat) : Bool :=
  (pool.slotAddress owner + stackOffset ≤ addr && addr < pool.stackTop owner) ||
  addr < pool.base || pool.base + maxThreads * threadSize ≤ addr

def step (pool : ThreadPool) (world : World) : Label → Option World
  | .compute regs pc writes =>
    if writes.all fun write => pool.mayWrite world.owner write.1 then
      some { world with machine := ⟨regs, writeBytes world.machine.mem writes, pc⟩ }
    else none
  | .threadCreate funcion =>
    some { world with
      machine := { world.machine with mem := pool.threadCreate world.machine.mem funcion }
      resume := match pool.firstInState world.machine.mem .libre with
        | some slot => update world.resume slot (some (.start funcion))
        | none => world.resume }
  | .threadSchedule regs =>
    let entered := { world.machine with regs := regs }
    match pool.pickThreads world.machine.mem with
    | some (i, x) =>
      some ⟨pool.threadSchedule entered, i,
        update world.resume x (some (.yielded regs))⟩
    | none => some { world with machine := pool.threadSchedule entered }

/-- The process just after `thread_init`, its zeroed `thread_pool` untouched before. -/
structure World.Initial (pool : ThreadPool) (world : World) : Prop where
  zeroed : ∃ mem : Nat → UInt8, world.machine.mem = pool.threadInit mem ∧
    ∀ addr, pool.base ≤ addr → addr < pool.base + maxThreads * threadSize → mem addr = 0
  owner : world.owner = 0

end Xv6.Threads

import Xv6.Threads.Switch

/-!
The thread library over whole runs. One slot is running at any time, that of the thread that
owns the processor, and every slot that waits to run holds in memory what its thread is to
be resumed with.
-/

namespace Xv6.Threads

open Function
open Xv6.Lib Xv6.Lib.Bytes

variable {writes : List (Nat × UInt8)} {addr : Nat} {funcion : BitVec 64} {regs : Registers}

theorem contextOffset_eq : contextOffset = 4104 := rfl

theorem threadSize_eq : threadSize = 4216 := rfl

theorem EstadoThread.code_lt (estado : EstadoThread) : estado.code < 256 ^ 4 := by
  cases estado <;> decide

theorem writeBytes_outside {mem : Nat → UInt8} (absent : ∀ write ∈ writes, write.1 ≠ addr) :
    writeBytes mem writes addr = mem addr := by
  induction writes generalizing mem with
  | nil => rfl
  | cons write writes ih =>
    refine Eq.trans (ih fun other found => absent other (List.mem_cons_of_mem _ found)) ?_
    exact update_of_ne (absent write (by simp)).symm _ _

namespace ThreadPool

variable {pool : ThreadPool} {mem other : Nat → UInt8} {slot i x : Slot}

theorem slotAddress_fits (pool : ThreadPool) (slot : Slot) :
    pool.slotAddress slot + threadSize ≤ 2 ^ 64 := by
  have fits := pool.fits
  simp only [slotAddress, threadSize_eq, maxThreads] at fits ⊢
  omega

theorem slotAddress_apart (pool : ThreadPool) (different : i ≠ x) :
    pool.slotAddress i + threadSize ≤ pool.slotAddress x ∨
    pool.slotAddress x + threadSize ≤ pool.slotAddress i := by
  have apart : i.val ≠ x.val := fun same => different (Fin.ext same)
  simp only [slotAddress, threadSize_eq]
  omega

theorem mayWrite_apart (allowed : pool.mayWrite i addr = true) (slot : Slot) :
    (addr < pool.slotAddress slot ∨ pool.slotAddress slot + 4 ≤ addr) ∧
    (addr < pool.contextAddress slot ∨ pool.contextAddress slot + 112 ≤ addr) := by
  simp only [mayWrite, Bool.or_eq_true, Bool.and_eq_true, decide_eq_true_eq] at allowed
  simp only [stackTop, slotAddress, stackOffset, stackSize, threadSize_eq, maxThreads] at allowed
  have bound : slot.val < 4 := slot.isLt
  simp only [contextAddress, slotAddress, threadSize_eq, contextOffset_eq]
  obtain rfl | same := eq_or_ne i slot
  · omega
  · have apart : i.val ≠ slot.val := fun equal => same (Fin.ext equal)
    omega

theorem estadoThread_congr
    (same : ∀ addr, pool.slotAddress slot ≤ addr → addr < pool.slotAddress slot + 4 →
      mem addr = other addr) :
    pool.estadoThread mem slot = pool.estadoThread other slot :=
  load_congr same

theorem setEstado_outside {estado : EstadoThread}
    (out : addr < pool.slotAddress slot ∨ pool.slotAddress slot + 4 ≤ addr) :
    pool.setEstado mem slot estado addr = mem addr :=
  store_outside out

theorem estadoThread_setEstado (estado : EstadoThread) :
    pool.estadoThread (pool.setEstado mem i estado) slot =
      if slot = i then estado.code else pool.estadoThread mem slot := by
  split
  · rename_i same
    subst same
    exact load_store_of_lt estado.code_lt
  rename_i different
  have apart := pool.slotAddress_apart different
  rw [threadSize_eq] at apart
  exact load_store_disjoint (by omega)

theorem estadoThread_writeBytes (allowed : ∀ write ∈ writes, pool.mayWrite i write.1 = true) (mem : Nat → UInt8)
    (slot : Slot) : pool.estadoThread (writeBytes mem writes) slot = pool.estadoThread mem slot := by
  refine estadoThread_congr fun addr low high => writeBytes_outside fun write found same => ?_
  have out := (mayWrite_apart (allowed write found) slot).1
  omega

theorem firstInState_some {estado : EstadoThread} (found : pool.firstInState mem estado = some slot) :
    pool.estadoThread mem slot = estado.code := by
  simpa using List.find?_some found

theorem pickThreads_some (found : pool.pickThreads mem = some (i, x)) :
    pool.estadoThread mem i = EstadoThread.listaParaCorrer.code ∧
    pool.estadoThread mem x = EstadoThread.corriendo.code := by
  obtain ⟨_, visited, _, _, here, _⟩ := List.findSome?_eq_some_iff.mp found
  obtain ⟨waiting, here⟩ := Option.ite_none_right_eq_some.mp here
  obtain ⟨running, first, same⟩ := Option.map_eq_some_iff.mp here
  obtain ⟨rfl, rfl⟩ := Prod.mk.inj same
  exact ⟨waiting, firstInState_some first⟩

theorem pickThreads_ne (found : pool.pickThreads mem = some (i, x)) : i ≠ x := by
  obtain ⟨waiting, current⟩ := pickThreads_some found
  rintro rfl
  rw [waiting] at current
  simp [EstadoThread.code] at current

theorem fillSlot_outside (out : addr < pool.slotAddress slot ∨ pool.slotAddress slot + threadSize ≤ addr) :
    pool.fillSlot mem slot funcion addr = mem addr := by
  simp only [threadSize_eq] at out
  simp only [fillSlot]
  rw [setEstado_outside (by omega), store_outside (by simp only [spOffset, contextOffset_eq]; omega),
    store_outside (by simp only [raOffset, contextOffset_eq]; omega)]

theorem threadCreate_slot (occupied : pool.estadoThread mem slot ≠ EstadoThread.libre.code)
    (low : pool.slotAddress slot ≤ addr) (high : addr < pool.slotAddress slot + threadSize) :
    pool.threadCreate mem funcion addr = mem addr := by
  unfold threadCreate
  cases first : pool.firstInState mem .libre with
  | none => rfl
  | some free =>
    have different : slot ≠ free := by
      rintro rfl
      exact occupied (firstInState_some first)
    have apart := pool.slotAddress_apart different
    exact fillSlot_outside (by omega)

end ThreadPool

def Resume.Held (pool : ThreadPool) (mem : Nat → UInt8) (slot : Slot) : Resume → Prop
  | .start funcion =>
    load mem (pool.slotAddress slot + raOffset) 8 = funcion.toNat ∧
    load mem (pool.slotAddress slot + spOffset) 8 = pool.stackTop slot
  | .yielded regs =>
    loadWords mem (pool.contextAddress slot) 8 contextRegs.length = values regs contextRegs

def Resume.Restored (pool : ThreadPool) (slot : Slot) (regs : Registers) : Resume → Prop
  | .start funcion => regs .ra = funcion ∧ regs .sp = BitVec.ofNat 64 (pool.stackTop slot)
  | .yielded saved => ∀ reg ∈ contextRegs, regs reg = saved reg

theorem Resume.Held.congr {pool : ThreadPool} {mem other : Nat → UInt8} {slot : Slot}
    {resume : Resume} (held : resume.Held pool mem slot)
    (same : ∀ addr, pool.contextAddress slot ≤ addr → addr < pool.contextAddress slot + 112 →
      mem addr = other addr) : resume.Held pool other slot := by
  simp only [ThreadPool.contextAddress] at same
  cases resume with
  | start funcion =>
    refine ⟨Eq.trans ?_ held.1, Eq.trans ?_ held.2⟩
    · refine load_congr fun addr low high => (same addr ?_ ?_).symm
      all_goals simp only [raOffset] at low high; omega
    · refine load_congr fun addr low high => (same addr ?_ ?_).symm
      all_goals simp only [spOffset] at low high; omega
  | yielded regs =>
    exact (loadWords_congr fun addr low high => (same addr low high).symm).trans held

theorem Resume.Held.restored {pool : ThreadPool} {mem : Nat → UInt8} {slot : Slot} {resume : Resume}
    (held : resume.Held pool mem slot)
    (loaded : values regs contextRegs = loadWords mem (pool.contextAddress slot) 8 contextRegs.length) :
    resume.Restored pool slot regs := by
  cases resume with
  | start funcion =>
    have ra := congrArg (·[12]?) loaded
    have sp := congrArg (·[13]?) loaded
    rw [loadWords_getElem? (by decide)] at ra sp
    simp only [values, contextRegs, List.map_cons, List.getElem?_cons_succ,
      List.getElem?_cons_zero, Option.some.injEq] at ra sp
    refine ⟨BitVec.eq_of_toNat_eq (ra.trans held.1), BitVec.eq_of_toNat_eq ?_⟩
    refine (sp.trans held.2).trans ?_
    have fits := pool.slotAddress_fits slot
    rw [BitVec.toNat_ofNat, Nat.mod_eq_of_lt]
    simp only [ThreadPool.stackTop, stackOffset, stackSize, threadSize_eq] at fits ⊢
    omega
  | yielded saved =>
    intro reg found
    exact BitVec.eq_of_toNat_eq (List.map_inj_left.mp (loaded.trans held) reg found)

structure Inv (pool : ThreadPool) (world : World) : Prop where
  running : ∀ slot, pool.estadoThread world.machine.mem slot = EstadoThread.corriendo.code ↔
    slot = world.owner
  ready : ∀ slot, pool.estadoThread world.machine.mem slot = EstadoThread.listaParaCorrer.code →
    ∃ resume, world.resume slot = some resume ∧ resume.Held pool world.machine.mem slot

variable {pool : ThreadPool} {world next : World}

theorem estados_initial (initial : World.Initial pool world) (slot : Slot) :
    pool.estadoThread world.machine.mem slot = if slot = 0 then EstadoThread.corriendo.code else 0 := by
  obtain ⟨⟨mem, init, zero⟩, _⟩ := initial
  have bound : slot.val < 4 := slot.isLt
  have blank : pool.estadoThread mem slot = pool.estadoThread (fun _ => 0) slot := by
    refine ThreadPool.estadoThread_congr fun addr low high => ?_
    simp only [ThreadPool.slotAddress, threadSize_eq] at low high
    exact zero addr (by omega) (by simp only [threadSize_eq]; omega)
  have fresh : pool.estadoThread mem slot = 0 := blank
  rw [init, ThreadPool.threadInit, ThreadPool.estadoThread_setEstado, fresh]

theorem inv_initial (initial : World.Initial pool world) : Inv pool world := by
  have estados := estados_initial initial
  have owner := initial.owner
  constructor
  · intro slot
    rw [estados, owner]
    split <;> simp_all [EstadoThread.code]
  · intro slot waiting
    rw [estados] at waiting
    split at waiting <;> simp [EstadoThread.code] at waiting

theorem inv_compute {pc : BitVec 64} (inv : Inv pool world)
    (allowed : ∀ write ∈ writes, pool.mayWrite world.owner write.1 = true) :
    Inv pool { world with machine := ⟨regs, writeBytes world.machine.mem writes, pc⟩ } := by
  have apart : ∀ slot addr,
      (pool.slotAddress slot ≤ addr ∧ addr < pool.slotAddress slot + 4) ∨
      (pool.contextAddress slot ≤ addr ∧ addr < pool.contextAddress slot + 112) →
      writeBytes world.machine.mem writes addr = world.machine.mem addr := by
    intro slot addr place
    refine writeBytes_outside fun write found same => ?_
    have out := ThreadPool.mayWrite_apart (allowed write found) slot
    omega
  have estados := ThreadPool.estadoThread_writeBytes allowed
  constructor
  · intro slot
    exact (estados world.machine.mem slot).symm ▸ inv.running slot
  intro slot waiting
  obtain ⟨resume, known, held⟩ := inv.ready slot ((estados world.machine.mem slot).symm.trans waiting)
  exact ⟨resume, known, held.congr fun addr low high =>
    (apart slot addr (.inr ⟨low, high⟩)).symm⟩

theorem held_fillSlot (mem : Nat → UInt8) (slot : Slot) (funcion : BitVec 64) :
    (Resume.start funcion).Held pool (pool.fillSlot mem slot funcion) slot := by
  have fits := pool.slotAddress_fits slot
  simp only [threadSize_eq] at fits
  simp only [ThreadPool.fillSlot, ThreadPool.setEstado]
  constructor
  · rw [load_store_disjoint (.inr (by simp only [raOffset, contextOffset_eq]; omega)),
      load_store_disjoint (.inl (by simp only [raOffset, spOffset]; omega)),
      load_store_of_lt funcion.isLt]
  rw [load_store_disjoint (.inr (by simp only [spOffset, contextOffset_eq]; omega)),
    load_store_of_lt]
  simp only [ThreadPool.stackTop, stackOffset, stackSize]
  omega

/-- Where a stack that grows down from `sp` lies: the bytes below `sp` are those of the
slot's own stack array and of no other field of the pool. -/
def ThreadPool.StackPlaced (pool : ThreadPool) (slot : Slot) (sp : Nat) : Prop :=
  ∀ addr, sp ≤ addr + stackSize → addr < sp →
    (pool.slotAddress slot + stackOffset ≤ addr ∧ addr < pool.slotAddress slot + stackOffset + stackSize) ∧
    ∀ other, (addr < pool.slotAddress other ∨ pool.slotAddress other + 4 ≤ addr) ∧
      (addr < pool.contextAddress other ∨ pool.contextAddress other + 112 ≤ addr) ∧
      (other ≠ slot → addr < pool.slotAddress other + stackOffset ∨ pool.stackTop other ≤ addr)

theorem stackPlaced_stackTop (pool : ThreadPool) (slot : Slot) :
    pool.StackPlaced slot (pool.stackTop slot) := by
  intro addr low high
  simp only [ThreadPool.stackTop, stackOffset, stackSize] at low high ⊢
  refine ⟨by omega, fun other => ?_⟩
  simp only [ThreadPool.contextAddress, contextOffset_eq]
  obtain rfl | different := eq_or_ne other slot
  · refine ⟨by omega, by omega, fun apart => absurd rfl apart⟩
  · have apart := pool.slotAddress_apart different
    simp only [threadSize_eq] at apart
    omega

theorem stackTop_misaligned (aligned : pool.base % 16 = 0) (slot : Slot) :
    pool.stackTop slot % 16 = 4 + 8 * (slot.val % 2) := by
  simp only [ThreadPool.stackTop, ThreadPool.slotAddress, stackOffset, stackSize, threadSize_eq]
  omega

theorem threadCreate_sp {mem : Nat → UInt8} {slot : Slot} (free : pool.firstInState mem .libre = some slot)
    (funcion : BitVec 64) :
    load (pool.threadCreate mem funcion) (pool.slotAddress slot + spOffset) 8 = pool.stackTop slot := by
  rw [ThreadPool.threadCreate, free]
  exact (held_fillSlot mem slot funcion).2

/-- Every stack `thread_create` hands out lies in its own array, and none of them starts
where the calling convention wants it. -/
theorem stack_of_threadCreate (aligned : pool.base % 16 = 0) (mem : Nat → UInt8) (funcion : BitVec 64)
    (slot : Slot) (free : pool.firstInState mem .libre = some slot) :
    let sp := load (pool.threadCreate mem funcion) (pool.slotAddress slot + spOffset) 8
    pool.StackPlaced slot sp ∧ sp % 16 = 4 + 8 * (slot.val % 2) ∧ ¬ sp % 16 = 0 := by
  intro sp
  have top : sp = pool.stackTop slot := threadCreate_sp free funcion
  have residue := stackTop_misaligned aligned slot
  rw [top]
  refine ⟨stackPlaced_stackTop pool slot, residue, ?_⟩
  omega

theorem estadoThread_fillSlot (mem : Nat → UInt8) (free slot : Slot) (funcion : BitVec 64) :
    pool.estadoThread (pool.fillSlot mem free funcion) slot =
      if slot = free then EstadoThread.listaParaCorrer.code else pool.estadoThread mem slot := by
  obtain rfl | same := eq_or_ne slot free
  · simp only [ThreadPool.fillSlot, ThreadPool.estadoThread_setEstado, if_true]
  rw [if_neg same]
  have apart := pool.slotAddress_apart same
  rw [threadSize_eq] at apart
  refine ThreadPool.estadoThread_congr fun addr low high => ?_
  exact ThreadPool.fillSlot_outside (by rw [threadSize_eq]; omega)

theorem inv_threadCreate (inv : Inv pool world) (stepped : step pool world (.threadCreate funcion) = some next) :
    Inv pool next := by
  simp only [step] at stepped
  cases stepped
  unfold ThreadPool.threadCreate
  cases first : pool.firstInState world.machine.mem .libre with
  | none => exact inv
  | some free =>
    have idle := ThreadPool.firstInState_some first
    constructor
    · intro slot
      refine Iff.trans ?_ (inv.running slot)
      simp only [estadoThread_fillSlot]
      split
      · rename_i same
        simp [same, idle, EstadoThread.code]
      · rfl
    · intro slot waiting
      obtain rfl | same := eq_or_ne slot free
      · exact ⟨.start funcion, update_self _ _ _, held_fillSlot _ slot funcion⟩
      simp only [estadoThread_fillSlot, if_neg same] at waiting
      obtain ⟨resume, known, held⟩ := inv.ready slot waiting
      have apart := pool.slotAddress_apart same
      refine ⟨resume, (update_of_ne same _ _).trans known, held.congr ?_⟩
      intro addr low high
      simp only [ThreadPool.contextAddress, contextOffset_eq] at low high
      exact (ThreadPool.fillSlot_outside (by simp only [threadSize_eq] at apart ⊢; omega)).symm

theorem values_update {list : List Reg} {reg : Reg} (absent : reg ∉ list) (word : BitVec 64) :
    values (update regs reg word) list = values regs list := by
  refine List.map_congr_left fun other found => ?_
  have different : other ≠ reg := by
    rintro rfl
    exact absent found
  rw [update_of_ne different]

theorem switched_callSwitchContext (pool : ThreadPool) (machine : Machine) (x i : Slot) :
    Switched (pool.contextAddress x) (pool.contextAddress i) machine
      (pool.callSwitchContext machine x i) := by
  have sourceFits := pool.slotAddress_fits x
  have targetFits := pool.slotAddress_fits i
  simp only [threadSize_eq] at sourceFits targetFits
  let entered : Machine := { machine with
    regs := update (update machine.regs .a0
      (BitVec.ofNat 64 (pool.contextAddress x))) .a1 (BitVec.ofNat 64 (pool.contextAddress i)) }
  have switched : Switched (pool.contextAddress x) (pool.contextAddress i) entered
      (pool.callSwitchContext machine x i) := by
    refine execAll_switchContext rfl rfl ?_ ?_
    all_goals simp only [ThreadPool.contextAddress, contextOffset_eq]; omega
  refine ⟨switched.mem.trans ?_, switched.values, switched.pc⟩
  rw [values_update (by decide), values_update (by decide)]

structure HandedOver (pool : ThreadPool) (i x : Slot) (before after : Machine) : Prop where
  estados : ∀ slot, pool.estadoThread after.mem slot =
    if slot = x then EstadoThread.listaParaCorrer.code
    else if slot = i then EstadoThread.corriendo.code
    else pool.estadoThread before.mem slot
  saved : (Resume.yielded before.regs).Held pool after.mem x
  kept : ∀ slot, slot ≠ x → ∀ addr, pool.contextAddress slot ≤ addr →
    addr < pool.contextAddress slot + 112 → after.mem addr = before.mem addr
  loaded : values after.regs contextRegs =
    loadWords after.mem (pool.contextAddress i) 8 contextRegs.length
  pc : after.pc = after.regs .ra

theorem handedOver_switchTo (pool : ThreadPool) (machine : Machine) (i x : Slot) :
    HandedOver pool i x machine (pool.switchTo machine i x) := by
  let mem := pool.setEstado (pool.setEstado machine.mem i .corriendo) x .listaParaCorrer
  have switched : Switched (pool.contextAddress x) (pool.contextAddress i) { machine with mem := mem }
      (pool.switchTo machine i x) := switched_callSwitchContext pool _ x i
  have outside : ∀ addr, addr < pool.contextAddress x ∨ pool.contextAddress x + 112 ≤ addr →
      (pool.switchTo machine i x).mem addr = mem addr := by
    intro addr out
    rw [switched.mem]
    exact storeWords_outside out
  refine ⟨fun slot => ?_, ?_, fun slot different addr low high => ?_, switched.values, switched.pc⟩
  · have frame : pool.estadoThread (pool.switchTo machine i x).mem slot =
        pool.estadoThread mem slot := by
      refine ThreadPool.estadoThread_congr fun addr low high => outside addr ?_
      simp only [ThreadPool.contextAddress, ThreadPool.slotAddress, threadSize_eq,
        contextOffset_eq] at low high ⊢
      by_cases same : slot.val = x.val <;> omega
    rw [frame, ThreadPool.estadoThread_setEstado, ThreadPool.estadoThread_setEstado]
  · rw [Resume.Held, switched.mem]
    exact loadWords_storeWords (values_lt machine.regs contextRegs)
  · have apart := pool.slotAddress_apart different
    simp only [ThreadPool.contextAddress, contextOffset_eq] at low high
    rw [outside addr (by
      simp only [ThreadPool.contextAddress, contextOffset_eq, threadSize_eq] at apart ⊢; omega)]
    have estadoApart : ∀ other : Slot,
        addr < pool.slotAddress other ∨ pool.slotAddress other + 4 ≤ addr := by
      intro other
      simp only [ThreadPool.slotAddress, threadSize_eq] at low high ⊢
      by_cases same : slot.val = other.val <;> omega
    exact (ThreadPool.setEstado_outside (estadoApart x)).trans
      (ThreadPool.setEstado_outside (estadoApart i))

theorem step_threadSchedule {i x : Slot} (picked : pool.pickThreads world.machine.mem = some (i, x)) :
    step pool world (.threadSchedule regs) =
      some ⟨pool.switchTo { world.machine with regs := regs } i x, i,
        update world.resume x (some (.yielded regs))⟩ := by
  simp only [step, ThreadPool.threadSchedule, picked]

theorem inv_threadSchedule (inv : Inv pool world) (stepped : step pool world (.threadSchedule regs) = some next) :
    Inv pool next := by
  cases picked : pool.pickThreads world.machine.mem with
  | none =>
    simp only [step, ThreadPool.threadSchedule, picked] at stepped
    cases stepped
    exact ⟨inv.running, inv.ready⟩
  | some pair =>
    obtain ⟨i, x⟩ := pair
    rw [step_threadSchedule picked] at stepped
    cases stepped
    have owner := (inv.running x).mp (ThreadPool.pickThreads_some picked).2
    have different := ThreadPool.pickThreads_ne picked
    have handed := handedOver_switchTo pool { world.machine with regs := regs } i x
    constructor
    · intro slot
      simp only [handed.estados slot]
      split
      · rename_i same
        simp [same, different.symm, EstadoThread.code]
      rename_i other
      split
      · rename_i same
        simp [same]
      · rename_i idle
        rw [inv.running slot, ← owner]
        exact ⟨fun same => (other same).elim, fun same => (idle same).elim⟩
    · intro slot ready
      obtain rfl | same := eq_or_ne slot x
      · exact ⟨.yielded regs, update_self _ _ _, handed.saved⟩
      simp only [handed.estados slot, if_neg same] at ready
      split at ready
      · simp [EstadoThread.code] at ready
      · obtain ⟨resume, known, held⟩ := inv.ready slot ready
        exact ⟨resume, (update_of_ne same _ _).trans known,
          held.congr fun addr low high => (handed.kept slot same addr low high).symm⟩

theorem inv_step {label : Label} (inv : Inv pool world)
    (stepped : step pool world label = some next) : Inv pool next := by
  cases label with
  | compute regs pc writes =>
    obtain ⟨allowed, stepped⟩ := Option.ite_none_right_eq_some.mp stepped
    cases stepped
    exact inv_compute inv fun write found => List.all_eq_true.mp allowed write found
  | threadCreate funcion => exact inv_threadCreate inv stepped
  | threadSchedule regs => exact inv_threadSchedule inv stepped

theorem restored_of_inv {i x : Slot} (inv : Inv pool world) (picked : pool.pickThreads world.machine.mem = some (i, x)) :
    ∃ next resume, step pool world (.threadSchedule regs) = some next ∧ next.owner = i ∧
      world.resume i = some resume ∧ resume.Restored pool i next.machine.regs ∧
      next.machine.pc = next.machine.regs .ra := by
  obtain ⟨resume, known, held⟩ := inv.ready i (ThreadPool.pickThreads_some picked).1
  have different := ThreadPool.pickThreads_ne picked
  have handed := handedOver_switchTo pool { world.machine with regs := regs } i x
  have still : resume.Held pool (pool.switchTo { world.machine with regs := regs } i x).mem i :=
    held.congr fun addr low high => (handed.kept i different addr low high).symm
  exact ⟨_, resume, step_threadSchedule picked, rfl, known, still.restored handed.loaded, handed.pc⟩

/-- In every state the process reaches after `thread_init`, the one running slot is the
owner's, a dispatch restores what the dispatched thread gave up or starts it at its
function and the top of its stack, and `thread_create` leaves occupied slots alone. -/
theorem threads_keep_their_context {start : World} (initial : World.Initial pool start)
    (reached : Reaches (step pool) (fun _ _ => True) start world) :
    (∀ slot, pool.estadoThread world.machine.mem slot = EstadoThread.corriendo.code ↔
      slot = world.owner) ∧
    (∀ regs i x, pool.pickThreads world.machine.mem = some (i, x) →
      ∃ next resume, step pool world (.threadSchedule regs) = some next ∧ next.owner = i ∧
        world.resume i = some resume ∧ resume.Restored pool i next.machine.regs ∧
        next.machine.pc = next.machine.regs .ra) ∧
    (∀ funcion slot, pool.estadoThread world.machine.mem slot ≠ EstadoThread.libre.code →
      ∀ addr, pool.slotAddress slot ≤ addr → addr < pool.slotAddress slot + threadSize →
        pool.threadCreate world.machine.mem funcion addr = world.machine.mem addr) := by
  have inv : Inv pool world := by
    refine reached.invariant (Inv pool) (inv_initial initial) ?_
    intro state label next holds _ stepped
    exact inv_step holds stepped
  refine ⟨inv.running, fun regs i x picked => restored_of_inv inv picked, ?_⟩
  intro funcion slot occupied addr low high
  exact ThreadPool.threadCreate_slot occupied low high

def lowPool : ThreadPool := ⟨4096, by decide, by decide⟩

def initialWorld : World :=
  ⟨⟨fun _ => 0, lowPool.threadInit fun _ => 0, 0⟩, 0, fun _ => none⟩

theorem stack_of_threadCreate_first :
    lowPool.StackPlaced 1 (load (lowPool.threadCreate initialWorld.machine.mem 256)
      (lowPool.slotAddress 1 + spOffset) 8) := by
  have free : lowPool.firstInState initialWorld.machine.mem .libre = some 1 := by decide +kernel
  exact (stack_of_threadCreate (by decide) initialWorld.machine.mem 256 1 free).1

theorem threadCreate_misaligned :
    lowPool.base % 16 = 0 ∧ lowPool.firstInState initialWorld.machine.mem .libre = some 1 ∧
      load (lowPool.threadCreate initialWorld.machine.mem 256) (lowPool.slotAddress 1 + spOffset) 8 =
        16 * 775 + 12 := by
  decide +kernel

theorem threads_keep_their_context_first_switch :
    ∃ world, Reaches (step lowPool) (fun _ _ => True) initialWorld world ∧
      world.owner = 1 ∧ world.machine.pc = 256 ∧
      lowPool.estadoThread world.machine.mem 1 = EstadoThread.corriendo.code := by
  obtain ⟨world, reached, seen⟩ := reaches_seen (show
    (runLabels (step lowPool) initialWorld [.threadCreate 256, .threadSchedule fun _ => 7]).map
        (fun world => (world.owner, world.machine.pc)) = some (1, 256) by decide +kernel)
  obtain ⟨owner, pc⟩ := Prod.mk.inj seen
  have initial : World.Initial lowPool initialWorld := ⟨⟨fun _ => 0, rfl, fun _ _ _ => rfl⟩, rfl⟩
  have kept := threads_keep_their_context initial reached
  exact ⟨world, reached, owner, pc, (kept.1 1).mpr owner.symm⟩

end Xv6.Threads

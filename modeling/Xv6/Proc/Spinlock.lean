import Xv6.Lib.Transition

/-!
The spinlocks of `kernel/spinlock.c` on any number of CPUs. Each access to a lock is a step of its own,
so the two reads of `holding` are not one.
-/

namespace Xv6.Spin

open Function Lib

structure Spinlock where
  locked : Bool
  cpu : Option Nat

inductive Place
  | out
  | acquireLocked (k : Nat)
  | acquireCpu (k : Nat)
  | exchange (k : Nat)
  | setCpu (k : Nat)
  | releaseLocked (k : Nat)
  | releaseCpu (k : Nat)
  | clearCpu (k : Nat)
  | clearLocked (k : Nat)
  | panicAcquire (k : Nat)
  | panicRelease (k : Nat)
  | panicPop

/-- The last three fields are history: the locks whose `locked` this CPU has set, the calls of `push_off`
it has not undone, and what it last made of its interrupts itself. -/
structure Cpu where
  intr : Bool
  noff : Nat
  intena : Bool
  place : Place
  held : List Nat
  pushes : Nat
  wanted : Bool

structure Machine where
  locks : Nat → Spinlock
  cpus : Nat → Cpu

def Cpu.pushOff (cpu : Cpu) : Cpu :=
  { cpu with intr := false, intena := if cpu.noff = 0 then cpu.intr else cpu.intena, noff := cpu.noff + 1 }

def Cpu.popOff (cpu : Cpu) : Cpu :=
  if cpu.intr ∨ cpu.noff < 1 then { cpu with place := .panicPop }
  else { cpu with noff := cpu.noff - 1, intr := cpu.noff - 1 == 0 && cpu.intena }

inductive Call
  | acquire (k : Nat)
  | release (k : Nat)
  | pushOff
  | popOff
  | intr (value : Bool)
  | go

def Machine.set (m : Machine) (c : Nat) (cpu : Cpu) (k : Nat) (lk : Spinlock) : Machine :=
  ⟨update m.locks k lk, update m.cpus c cpu⟩

def step (m : Machine) (label : Nat × Call) : Option Machine :=
  let c := label.1
  let cpu := m.cpus c
  let put := fun cpu => some { m with cpus := update m.cpus c cpu }
  match cpu.place, label.2 with
  | .out, .acquire k => put { cpu.pushOff with place := .acquireLocked k }
  | .out, .release k => put { cpu with place := .releaseLocked k }
  | .out, .pushOff => put { cpu.pushOff with pushes := cpu.pushes + 1 }
  | .out, .popOff => put { cpu.popOff with pushes := cpu.pushes - 1 }
  | .out, .intr value => put { cpu with intr := value, wanted := value }
  | .acquireLocked k, .go => put { cpu with place := if (m.locks k).locked then .acquireCpu k else .exchange k }
  | .acquireCpu k, .go => put { cpu with place := if (m.locks k).cpu = some c then .panicAcquire k else .exchange k }
  | .exchange k, .go =>
    -- the exchange that finds 1 leaves 1: the loop goes on
    if (m.locks k).locked then some m
    else some (m.set c { cpu with place := .setCpu k, held := k :: cpu.held } k { m.locks k with locked := true })
  | .setCpu k, .go => some (m.set c { cpu with place := .out } k { m.locks k with cpu := some c })
  | .releaseLocked k, .go => put { cpu with place := if (m.locks k).locked then .releaseCpu k else .panicRelease k }
  | .releaseCpu k, .go => put { cpu with place := if (m.locks k).cpu = some c then .clearCpu k else .panicRelease k }
  | .clearCpu k, .go => some (m.set c { cpu with place := .clearLocked k } k { m.locks k with cpu := none })
  | .clearLocked k, .go =>
    some (m.set c { cpu with place := .out, held := cpu.held.erase k }.popOff k { m.locks k with locked := false })
  | _, _ => none

/-- A CPU undoes only its own `push_off`s, and turns interrupts on or off, or takes one, only outside of them. -/
def Admits (m : Machine) (label : Nat × Call) : Prop :=
  match label.2 with
  | .popOff => 0 < (m.cpus label.1).pushes
  | .intr _ => (m.cpus label.1).noff = 0
  | _ => True

def boot (intr : Nat → Bool) : Machine :=
  ⟨fun _ => ⟨false, none⟩, fun c => ⟨intr c, 0, false, .out, [], 0, intr c⟩⟩

def Place.entering : Place → Nat
  | .acquireLocked _ | .acquireCpu _ | .exchange _ | .panicAcquire _ => 1
  | _ => 0

/-- What `holding` has answered at this place is right. -/
def Place.Fair (held : List Nat) : Place → Prop
  | .exchange k | .panicRelease k => k ∉ held
  | .setCpu k | .clearCpu k | .clearLocked k | .panicAcquire k => k ∈ held
  | .panicPop => False
  | _ => True

structure Cpu.Nested (cpu : Cpu) : Prop where
  count : cpu.noff = cpu.held.length + cpu.pushes + cpu.place.entering
  intr : cpu.intr = (cpu.noff == 0 && cpu.wanted)
  intena : 0 < cpu.noff → cpu.intena = cpu.wanted
  fair : cpu.place.Fair cpu.held
  distinct : cpu.held.Nodup

def Cpu.Named (cpu : Cpu) (k : Nat) : Prop :=
  k ∈ cpu.held ∧ cpu.place ≠ .setCpu k ∧ cpu.place ≠ .clearLocked k

structure Inv (m : Machine) : Prop where
  nested : ∀ c, (m.cpus c).Nested
  locked : ∀ k, (m.locks k).locked = true ↔ ∃ c, k ∈ (m.cpus c).held
  only : ∀ k c d, k ∈ (m.cpus c).held → k ∈ (m.cpus d).held → d = c
  named : ∀ k c, (m.locks k).cpu = some c ↔ (m.cpus c).Named k

variable {m next : Machine} {cpu : Cpu} {c k : Nat} {lk : Spinlock}

theorem popOff_eq (off : cpu.intr = false) (some : 0 < cpu.noff) :
    cpu.popOff = { cpu with noff := cpu.noff - 1, intr := cpu.noff - 1 == 0 && cpu.intena } := by
  rw [Cpu.popOff, if_neg]
  grind

theorem Inv.set (inv : Inv m) (nested : cpu.Nested)
    (held : ∀ j, j ≠ k → (j ∈ cpu.held ↔ j ∈ (m.cpus c).held))
    (settled : ∀ j, j ≠ k → (cpu.Named j ↔ (m.cpus c).Named j))
    (others : k ∈ cpu.held → ∀ d, d ≠ c → k ∉ (m.cpus d).held)
    (locked : lk.locked = true ↔ k ∈ cpu.held ∨ ∃ d, d ≠ c ∧ k ∈ (m.cpus d).held)
    (mine : lk.cpu = some c ↔ cpu.Named k) (theirs : ∀ d, d ≠ c → (lk.cpu = some d ↔ (m.cpus d).Named k)) :
    Inv (m.set c cpu k lk) := by
  obtain ⟨_, before, _, _⟩ := inv
  have := fun j => (before j).mp
  refine ⟨fun d => ?_, fun j => ⟨fun is => ?_, fun ⟨d, has⟩ => ?_⟩, fun j d e mine theirs => ?_, fun j d => ?_⟩ <;>
    simp only [Machine.set, update_apply] at * <;> grind

theorem Inv.put (inv : Inv m) (nested : cpu.Nested) (held : cpu.held = (m.cpus c).held)
    (named : ∀ k, cpu.Named k ↔ (m.cpus c).Named k) : Inv { m with cpus := update m.cpus c cpu } := by
  -- storing what the lock has already changes nothing
  have kept : m.set c cpu 0 (m.locks 0) = { m with cpus := update m.cpus c cpu } := by simp [Machine.set]
  have ⟨_, locked, only, written⟩ := inv
  rw [← kept]
  refine inv.set nested ?_ ?_ ?_ ?_ ?_ ?_ <;> grind

attribute [local grind] Place.entering Place.Fair Cpu.Named Cpu.pushOff Admits

theorem Inv.step (inv : Inv m) {label : Nat × Call} (admitted : Admits m label)
    (stepped : step m label = some next) : Inv next := by
  obtain ⟨c, call⟩ := label
  obtain ⟨count, intr, intena, fair, distinct⟩ := inv.nested c
  have ⟨_, locked, only, named⟩ := inv
  cases call <;> cases place : (m.cpus c).place <;>
    simp only [Spin.step, place, reduceCtorEq, Option.some.injEq] at stepped
  case go.exchange k =>
    split at stepped
    · grind
    -- the lock was free, so nobody holds it and this CPU is alone
    rw [Option.some.injEq] at stepped
    subst stepped
    refine inv.set ⟨?_, ?_, ?_, ?_, ?_⟩ ?_ ?_ ?_ ?_ ?_ ?_ <;> grind
  case go.clearLocked k =>
    subst stepped
    -- the lock itself counts in `noff`, so `pop_off` finds interrupts off and does not panic
    rw [popOff_eq]
    refine inv.set ⟨?_, ?_, ?_, ?_, ?_⟩ ?_ ?_ ?_ ?_ ?_ ?_ <;> grind
    all_goals grind
  case go.setCpu k | go.clearCpu k =>
    subst stepped
    refine inv.set ⟨?_, ?_, ?_, ?_, ?_⟩ ?_ ?_ ?_ ?_ ?_ ?_ <;> grind
  all_goals
    subst stepped
    refine inv.put ⟨?_, ?_, ?_, ?_, ?_⟩ ?_ ?_ <;> grind [Cpu.popOff]

/-- A lock is locked exactly while one CPU holds it. A CPU has interrupts off from its first `push_off` to
the `pop_off` that undoes it and then has back what it wanted; no test of `holding` is misled by a race. -/
theorem spinlocks_exclude {intr : Nat → Bool} (reached : Reaches step Admits (boot intr) m) :
    (∀ k c d, k ∈ (m.cpus c).held → k ∈ (m.cpus d).held → d = c) ∧
      (∀ k, (m.locks k).locked = true ↔ ∃ c, k ∈ (m.cpus c).held) ∧ ∀ c, (m.cpus c).Nested := by
  have inv := reached.invariant Inv ?_ fun _ _ _ inv => inv.step
  · exact ⟨inv.only, inv.locked, inv.nested⟩
  · constructor <;> simp [boot, Cpu.Named]
    exact fun c => ⟨rfl, rfl, nofun, trivial, List.nodup_nil⟩

theorem spinlocks_exclude_taken : ∃ m, Reaches step Admits (boot fun _ => true) m ∧
    3 ∈ (m.cpus 0).held ∧ (m.cpus 0).intr = false ∧ 3 ∉ (m.cpus 1).held := by
  have reached : Reaches step Admits (boot fun _ => true) _ :=
    ((Reaches.refl.tail (0, .acquire 3) trivial rfl).tail (0, .go) trivial rfl).tail (0, .go) trivial rfl
  obtain ⟨only, _, nested⟩ := spinlocks_exclude reached
  have mine := List.mem_singleton_self 3
  exact ⟨_, reached, mine, (nested 0).intr, fun theirs => absurd (only 3 0 1 mine theirs) (by decide)⟩

end Xv6.Spin

import Xv6.Threads.Core

/-!
What `switch_context` does to the machine: it lays the callee-saved registers out at the
address in `a0` and takes new ones from the address in `a1`, one run of `sd` followed by one
run of `ld` over the same list of registers.
-/

namespace Xv6.Threads

open Function List BitVec
open Xv6.Lib.Bytes

def saveCode (offset : Nat) : List Reg → List Instr
  | [] => []
  | reg :: regs => .sd reg offset .a0 :: saveCode (offset + 8) regs

def loadCode (offset : Nat) : List Reg → List Instr
  | [] => []
  | reg :: regs => .ld reg offset .a1 :: loadCode (offset + 8) regs

def values (regs : Registers) (list : List Reg) : List Nat := list.map fun reg => (regs reg).toNat

theorem switchContext_eq :
    switchContext = saveCode 0 contextRegs ++ (loadCode 0 contextRegs ++ [.ret]) := rfl

theorem execAll_append (machine : Machine) (first second : List Instr) :
    execAll machine (first ++ second) = execAll (execAll machine first) second :=
  foldl_append

theorem execAll_ret (machine : Machine) :
    execAll machine [.ret] = { machine with pc := machine.regs .ra } := rfl

theorem address_eq {regs : Registers} {offset : Nat} {pointer : Reg}
    (fits : (regs pointer).toNat + offset < 2 ^ 64) :
    address regs offset pointer = (regs pointer).toNat + offset := by
  rw [address, toNat_add, toNat_ofNat, Nat.add_mod_mod, Nat.mod_eq_of_lt fits]

theorem values_lt (regs : Registers) (list : List Reg) :
    ∀ value ∈ values regs list, value < 256 ^ 8 := by
  intro value found
  obtain ⟨reg, _, rfl⟩ := mem_map.mp found
  exact (regs reg).isLt

theorem execAll_saveCode (list : List Reg) (machine : Machine) (offset : Nat)
    (fits : (machine.regs .a0).toNat + offset + 8 * list.length ≤ 2 ^ 64) :
    execAll machine (saveCode offset list) = { machine with
      mem := storeWords machine.mem ((machine.regs .a0).toNat + offset) 8
        (values machine.regs list) } := by
  induction list generalizing machine offset with
  | nil => rfl
  | cons reg list ih =>
    rw [length_cons] at fits
    have place := address_eq (show (machine.regs .a0).toNat + offset < 2 ^ 64 by omega)
    have rest := ih (Instr.exec machine (.sd reg offset .a0)) (offset + 8)
      (by simp only [Instr.exec]; omega)
    simp only [execAll, saveCode, foldl_cons] at rest ⊢
    rw [rest]
    simp only [Instr.exec, values, map_cons, storeWords, place, add_assoc]

structure Loaded (list : List Reg) (addr : Nat) (before after : Machine) : Prop where
  mem : after.mem = before.mem
  pc : after.pc = before.pc
  others : ∀ reg, reg ∉ list → after.regs reg = before.regs reg
  values : values after.regs list = loadWords before.mem addr 8 list.length

theorem execAll_loadCode (list : List Reg) (machine : Machine) (offset : Nat)
    (distinct : list.Nodup) (kept : Reg.a1 ∉ list)
    (fits : (machine.regs .a1).toNat + offset + 8 * list.length ≤ 2 ^ 64) :
    Loaded list ((machine.regs .a1).toNat + offset) machine
      (execAll machine (loadCode offset list)) := by
  induction list generalizing machine offset with
  | nil => exact ⟨rfl, rfl, fun _ _ => rfl, rfl⟩
  | cons reg list ih =>
    rw [length_cons] at fits
    obtain ⟨fresh, distinct⟩ := nodup_cons.mp distinct
    obtain ⟨pointer, kept⟩ := not_or.mp (mem_cons.not.mp kept)
    have place := address_eq (show (machine.regs .a1).toNat + offset < 2 ^ 64 by omega)
    have same : (Instr.exec machine (.ld reg offset .a1)).regs .a1 = machine.regs .a1 :=
      update_of_ne pointer _ _
    have rest := ih (Instr.exec machine (.ld reg offset .a1)) (offset + 8) distinct kept
      (by rw [same]; omega)
    rw [same, ← add_assoc] at rest
    refine ⟨rest.mem, rest.pc, fun other absent => ?_, ?_⟩
    · obtain ⟨here, absent⟩ := not_or.mp (mem_cons.not.mp absent)
      exact (rest.others other absent).trans (update_of_ne here _ _)
    have loaded : load machine.mem ((machine.regs .a1).toNat + offset) 8 < 2 ^ 64 := load_lt
    have head : (execAll machine (loadCode offset (reg :: list))).regs reg =
        BitVec.ofNat 64 (load machine.mem ((machine.regs .a1).toNat + offset) 8) := by
      refine (rest.others reg fresh).trans ?_
      simp only [Instr.exec, update_self, place]
    have headValue := congrArg BitVec.toNat head
    rw [toNat_ofNat, Nat.mod_eq_of_lt loaded] at headValue
    have tail := rest.values
    simp only [values, map_cons, length_cons, loadWords] at tail ⊢
    exact congrArg₂ List.cons headValue tail

structure Switched (source target : Nat) (before after : Machine) : Prop where
  mem : after.mem = storeWords before.mem source 8 (values before.regs contextRegs)
  values : values after.regs contextRegs = loadWords after.mem target 8 contextRegs.length
  pc : after.pc = after.regs .ra

theorem execAll_switchContext {machine : Machine} {source target : Nat}
    (sourcePointer : machine.regs .a0 = BitVec.ofNat 64 source)
    (targetPointer : machine.regs .a1 = BitVec.ofNat 64 target)
    (sourceFits : source + 112 ≤ 2 ^ 64) (targetFits : target + 112 ≤ 2 ^ 64) :
    Switched source target machine (execAll machine switchContext) := by
  have sourceNat : (machine.regs .a0).toNat = source := by
    rw [sourcePointer, toNat_ofNat, Nat.mod_eq_of_lt (by omega)]
  have targetNat : (machine.regs .a1).toNat = target := by
    rw [targetPointer, toNat_ofNat, Nat.mod_eq_of_lt (by omega)]
  have saved := execAll_saveCode contextRegs machine 0 (by rw [sourceNat]; exact sourceFits)
  have loaded := execAll_loadCode contextRegs (execAll machine (saveCode 0 contextRegs)) 0
    (by decide) (by decide) (by rw [saved, targetNat]; exact targetFits)
  rw [sourceNat, add_zero] at saved
  rw [add_zero, show ((execAll machine (saveCode 0 contextRegs)).regs .a1).toNat = target by
    rw [saved, targetNat]] at loaded
  rw [switchContext_eq, execAll_append, execAll_append, execAll_ret, saved]
  rw [saved] at loaded
  refine ⟨loaded.mem, ?_, rfl⟩
  simp only [loaded.values, loaded.mem]

end Xv6.Threads

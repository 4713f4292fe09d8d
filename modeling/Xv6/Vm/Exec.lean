import Xv6.Vm.CopyIn

/-!
The user stack that `kexec` builds: the argument strings from the top down, each rounded down
to 16, then the array of their addresses with a null pointer at its end.
-/

namespace Xv6.Vm

open Lib.Bytes Lib.Hoare Lib.Radix List
open Function

def userstack : Nat := 1

def maxarg : Nat := 32

/-- `sp -= n; sp -= sp % 16`. -/
def lowered (sp n : Nat) : Nat :=
  let sp := (sp + 2 ^ 64 - n) % 2 ^ 64
  sp - sp % 16

section

variable [Symbols]

/-- The loop of `kexec` over the arguments, each given by the bytes before its NUL: the stack
pointer and the addresses of the strings. -/
def pushStrings (pagetable sz stackbase : Nat) : Nat → Nat → List (List UInt8) → K (Option (Nat × List Nat))
  | argc, sp, [] => if argc < maxarg then return some (sp, []) else throw .ustack
  | argc, sp, arg :: rest =>
    let sp := lowered sp (arg.length + 1)
    if sp < stackbase then return none
    else do
      if ← copyout pagetable sz sp (arg ++ [0]) then
        if argc < maxarg then do
          match ← pushStrings pagetable sz stackbase (argc + 1) sp rest with
          | none => return none
          | some (last, ustack) => return some (last, sp :: ustack)
        else throw .ustack
      else return none

/-- The end of `kexec`, once the stack pages are mapped: `argc` and the stack pointer, which is
also stored in `a1`, or none for the return value -1. -/
def pushArgs (pagetable sz : Nat) (argv : List (List UInt8)) : K (Option (Nat × Nat)) := do
  let stackbase := sz - userstack * pgsize
  match ← pushStrings pagetable sz stackbase 0 sz argv with
  | none => return none
  | some (sp, ustack) =>
    let sp := lowered sp ((argv.length + 1) * 8)
    if sp < stackbase then return none
    else do
      if ← copyout pagetable sz sp ((ustack ++ [0]).flatMap fun word => digits word 8) then return some (argv.length, sp)
      else return none

end

def round16 (n : Nat) : Nat := (n + 15) / 16 * 16

def places (sp : Nat) : List (List UInt8) → List Nat
  | [] => []
  | arg :: rest => (sp - round16 (arg.length + 1)) :: places (sp - round16 (arg.length + 1)) rest

def taken (argv : List (List UInt8)) : Nat := (argv.map fun arg => round16 (arg.length + 1)).sum

theorem lowered_eq {sp n : Nat} (aligned : sp % 16 = 0) (enough : n ≤ sp) (narrow : sp < 2 ^ 64) : lowered sp n = sp - round16 n := by
  simp only [lowered, round16]
  omega

variable {st st' last : State} {root va v page sz sp : Nat} {leaf : Leaf} {stop : Stop → Prop} {argv : List (List UInt8)}

theorem overwrite_above {f : Nat → UInt8} {a : Nat} {bytes : List UInt8} (above : a + bytes.length ≤ va) : overwrite f a bytes va = f va := by
  rw [overwrite, if_pos (by omega), List.getElem?_eq_none (by omega), Option.getD_none]

theorem round16_le (n : Nat) : n ≤ round16 n := by
  simp only [round16]
  omega

theorem round16_mod (n : Nat) : round16 n % 16 = 0 := Nat.mul_mod_left _ _

def regions (sp : Nat) (argv : List (List UInt8)) : List (Nat × Nat) := (places sp argv).zip (argv.map fun arg => arg.length + 1)

theorem regions_within (fits : taken argv ≤ sp) : ∀ region ∈ regions sp argv, sp - taken argv ≤ region.1 ∧ region.1 + region.2 ≤ sp := by
  induction argv generalizing sp with
  | nil => exact fun region member => absurd member not_mem_nil
  | cons arg rest ih =>
    have total : taken (arg :: rest) = round16 (arg.length + 1) + taken rest := sum_cons
    have up := round16_le (arg.length + 1)
    rw [total] at fits ⊢
    intro region member
    rcases mem_cons.mp (show region ∈ (sp - round16 (arg.length + 1), arg.length + 1) :: regions (sp - round16 (arg.length + 1)) rest
      from member) with rfl | later
    · dsimp only
      omega
    · have inside := ih (by omega) region later
      omega

theorem taken_mod (argv : List (List UInt8)) : taken argv % 16 = 0 := by
  induction argv with
  | nil => rfl
  | cons arg rest ih =>
    have total : taken (arg :: rest) = round16 (arg.length + 1) + taken rest := sum_cons
    have mod := round16_mod (arg.length + 1)
    omega

theorem places_length (sp : Nat) (argv : List (List UInt8)) : (places sp argv).length = argv.length := by
  induction argv generalizing sp with
  | nil => rfl
  | cons arg rest ih => rw [places, length_cons, ih, length_cons]

theorem places_le {place : Nat} (member : place ∈ places sp argv) : place ≤ sp := by
  induction argv generalizing sp with
  | nil => exact absurd member not_mem_nil
  | cons arg rest ih =>
    rcases mem_cons.mp member with rfl | later
    · exact Nat.sub_le ..
    · exact (ih later).trans (Nat.sub_le ..)

theorem strings_kept (fits : taken argv ≤ sp) (same : ∀ va, sp - taken argv ≤ va → va < sp → byteAt st' root va = byteAt st root va)
    (strings : List.Forall₂ (fun addr arg => bytesAt st root addr (arg.length + 1) = arg ++ [0]) (places sp argv) argv) :
    List.Forall₂ (fun addr arg => bytesAt st' root addr (arg.length + 1) = arg ++ [0]) (places sp argv) argv := by
  obtain ⟨lengths, each⟩ := forall₂_iff_zip.mp strings
  refine forall₂_iff_zip.mpr ⟨lengths, fun {addr arg} member => ?_⟩
  have region : (addr, arg.length + 1) ∈ regions sp argv := by
    rw [regions, zip_map_right]
    exact mem_map.mpr ⟨(addr, arg), member, rfl⟩
  have inside := regions_within fits _ region
  rw [← each member]
  refine bytesAt_congr fun k low => same _ ?_ ?_
  · exact Nat.le_trans inside.1 (Nat.le_add_right addr k)
  · exact Nat.lt_of_lt_of_le (Nat.add_lt_add_left low addr) inside.2

theorem regions_apart (fits : taken argv ≤ sp) : (regions sp argv).Pairwise fun upper lower => lower.1 + lower.2 ≤ upper.1 := by
  induction argv generalizing sp with
  | nil => exact .nil
  | cons arg rest ih =>
    have total : taken (arg :: rest) = round16 (arg.length + 1) + taken rest := sum_cons
    rw [total] at fits
    refine .cons (fun region member => ?_) (ih (by omega))
    exact (regions_within (by omega) region member).2

section

variable [Symbols]

/-- The program is loaded, and the pages of the stack are mapped. -/
structure Stack (st : State) (root sz : Nat) : Prop where
  user : UserSpace st root sz
  aligned : sz % pgsize = 0
  guard : (userstack + 1) * pgsize ≤ sz
  mapped : ∀ v, (sz - userstack * pgsize) / pgsize ≤ v → v < sz / pgsize → ∃ leaf, pageMap st.mem root v = some leaf ∧ writable leaf

theorem Stack.push {a : Nat} {bytes : List UInt8} (stack : Stack st root sz) (low : sz - userstack * pgsize ≤ a) (high : a + bytes.length ≤ sz) :
    Ends (copyout root sz a bytes) st stop fun ok st' => ok = true ∧ Stack st' root sz ∧
      ∀ va < sz, byteAt st' root va = overwrite (byteAt st root) a bytes va := by
  have granted : Granted writable st root sz (pagesOf a bytes.length) := by
    refine granted_of_mapped fun v member => ?_
    obtain ⟨k, below, rfl⟩ := mem_pagesOf.mp member
    have aligned := stack.aligned
    refine stack.mapped _ ?_ ?_
    · exact Nat.div_le_div_right (by omega)
    · simp only [pgsize] at aligned ⊢
      omega
  refine (copyoutFrom_ends bytes.length a bytes le_rfl stack.user).mono fun ok st' facts => ?_
  obtain ⟨⟨n, copied, whole⟩, success⟩ := facts
  have yes := success.mpr granted
  obtain rfl := whole yes
  refine ⟨yes, ⟨copied.touched.user, stack.aligned, stack.guard, fun v from_v to_v => ?_⟩, fun va below => ?_⟩
  · obtain ⟨leaf, found, open_⟩ := stack.mapped v from_v to_v
    exact ⟨leaf, copied.touched.kept v leaf found, open_⟩
  have user : va / pgsize < userPages := by
    have bound := stack.user.bound
    have count : userPages = 2 ^ 26 - 2 := by decide
    simp only [trapframe, trampoline, maxva, pgsize] at bound ⊢
    omega
  rw [copied.touched.bytes va user, take_length]

structure Pushed (st : State) (root sz sp : Nat) (argv : List (List UInt8)) (st' : State) : Prop where
  stack : Stack st' root sz
  above : ∀ va, sp ≤ va → va < sz → byteAt st' root va = byteAt st root va
  strings : List.Forall₂ (fun addr arg => bytesAt st' root addr (arg.length + 1) = arg ++ [0]) (places sp argv) argv

theorem pushStrings_ends {base : Nat} (argc : Nat) (stack : Stack st root sz) (aligned : sp % 16 = 0) (start : sz - userstack * pgsize = base) (low : base ≤ sp)
    (high : sp ≤ sz) (few : argc + argv.length < maxarg) (short : ∀ arg ∈ argv, arg.length ≤ pgsize - 1) :
    Ends (pushStrings root sz base argc sp argv) st stop fun result st' =>
      (result = none ∧ sp < base + taken argv) ∨
      result = some (sp - taken argv, places sp argv) ∧ base + taken argv ≤ sp ∧ Pushed st root sz sp argv st' := by
  induction argv generalizing st argc sp with
  | nil =>
    have room : argc < maxarg := few
    rw [pushStrings, if_pos room, ends_pure]
    have none : taken [] = 0 := rfl
    rw [none, Nat.sub_zero, add_zero]
    exact .inr ⟨rfl, low, stack, fun _ _ _ => rfl, .nil⟩
  | cons arg rest ih =>
    have size := short arg mem_cons_self
    have guard := stack.guard
    have bound := stack.user.bound
    have positive : pgsize ≤ base := by
      rw [← start]
      simp only [userstack, pgsize] at guard ⊢
      omega
    have total : taken (arg :: rest) = round16 (arg.length + 1) + taken rest := sum_cons
    have lower : lowered sp (arg.length + 1) = sp - round16 (arg.length + 1) := by
      refine lowered_eq aligned ?_ ?_
      · simp only [pgsize] at positive size
        omega
      · simp only [trapframe, trampoline, maxva, pgsize] at bound
        omega
    have above : 0 < base := Nat.lt_of_lt_of_le (by decide) positive
    have up := round16_le (arg.length + 1)
    have mod := round16_mod (arg.length + 1)
    rw [pushStrings, lower]
    by_cases full : sp - round16 (arg.length + 1) < base
    · rw [if_pos full, ends_pure]
      refine .inl ⟨rfl, ?_⟩
      omega
    rw [if_neg full, ends_bind]
    have length : (arg ++ [0]).length = arg.length + 1 := by rw [length_append, length_singleton]
    have inside : sp - round16 (arg.length + 1) + (arg ++ [0]).length ≤ sp := by omega
    refine (stack.push (by rw [start]; exact not_lt.mp full) (inside.trans high)).mono fun ok mid facts => ?_
    obtain ⟨rfl, stack', bytes⟩ := facts
    rw [if_pos rfl, if_pos (by rw [length_cons] at few; omega), ends_bind]
    refine (ih (argc + 1) stack' ?_ (not_lt.mp full) ?_ ?_ fun other member => short other (mem_cons_of_mem arg member)).mono
      fun result st' facts => ?_
    · omega
    · omega
    · rw [length_cons] at few
      omega
    rcases facts with ⟨rfl, over_⟩ | ⟨rfl, fits, pushed⟩
    · rw [ends_pure]
      exact .inl ⟨rfl, by omega⟩
    dsimp only
    rw [ends_pure]
    refine .inr ⟨?_, by omega, pushed.stack, fun va from_va to_va => ?_, .cons ?_ pushed.strings⟩
    · rw [total, Nat.sub_sub]
      rfl
    · rw [pushed.above va (by omega) to_va, bytes va to_va, overwrite_above (Nat.le_trans inside from_va)]
    · rw [← overwrite_at (byteAt st root) (sp - round16 (arg.length + 1)) (arg ++ [0]), length]
      refine map_congr_left fun k member => ?_
      have early := mem_range.mp member
      rw [pushed.above _ (Nat.le_add_right _ k) (by omega), bytes _ (by omega)]

def Apart (a b : Nat × Nat) : Prop := a.1 + a.2 ≤ b.1 ∨ b.1 + b.2 ≤ a.1

/-- The stack that a program starts with: `argc` and the stack pointer as `main` finds them. -/
structure Argued (st : State) (root sz : Nat) (argv : List (List UInt8)) (argc sp : Nat) : Prop where
  count : argc = argv.length
  aligned : sp % 16 = 0
  words : loadWords (byteAt st root) sp 8 (argc + 1) = places sz argv ++ [0]
  strings : List.Forall₂ (fun addr arg => bytesAt st root addr (arg.length + 1) = arg ++ [0]) (places sz argv) argv
  within : ∀ region ∈ (sp, (argc + 1) * 8) :: regions sz argv, sz - userstack * pgsize ≤ region.1 ∧ region.1 + region.2 ≤ sz
  apart : ((sp, (argc + 1) * 8) :: regions sz argv).Pairwise Apart

/-- `kexec` succeeds exactly when the strings and the array of pointers fit in the stack. The
top of the stack is a multiple of 16, so that rounding a start down is rounding a size up. -/
theorem exec_arguments (stack : Stack st root sz) (few : argv.length ≤ maxarg - 1) (short : ∀ arg ∈ argv, arg.length ≤ pgsize - 1) :
    Ends (pushArgs root sz argv) st (fun _ => False) fun result st' =>
      ((∃ argc sp, result = some (argc, sp)) ↔ taken argv + round16 ((argv.length + 1) * 8) ≤ userstack * pgsize) ∧
      ∀ argc sp, result = some (argc, sp) → Argued st' root sz argv argc sp := by
  have guard := stack.guard
  have bound := stack.user.bound
  have aligned : sz % 16 = 0 := by
    have whole := stack.aligned
    simp only [pgsize] at whole
    omega
  rw [pushArgs]
  generalize start : sz - userstack * pgsize = base
  have positive : pgsize ≤ base := by
    rw [← start]
    simp only [userstack, pgsize] at guard ⊢
    omega
  have top : base + userstack * pgsize = sz := by
    rw [← start]
    simp only [userstack, pgsize] at guard ⊢
    omega
  rw [ends_bind]
  refine (pushStrings_ends 0 stack aligned start (by omega) (Nat.le_refl sz) (by simp only [maxarg] at few ⊢; omega) short).mono
    fun result mid facts => ?_
  rcases facts with ⟨rfl, full⟩ | ⟨rfl, fits, pushed⟩
  · rw [ends_pure]
    refine ⟨iff_of_false ?_ (by omega), by rintro _ _ ⟨⟩⟩
    rintro ⟨_, _, no⟩
    cases no
  have array : (argv.length + 1) * 8 ≤ 256 := by
    simp only [maxarg] at few
    omega
  have up := round16_le ((argv.length + 1) * 8)
  have mod := round16_mod ((argv.length + 1) * 8)
  have strings := taken_mod argv
  have lower : lowered (sz - taken argv) ((argv.length + 1) * 8) = sz - taken argv - round16 ((argv.length + 1) * 8) := by
    refine lowered_eq (by omega) ?_ ?_
    · simp only [pgsize] at positive
      omega
    · simp only [trapframe, trampoline, maxva, pgsize] at bound
      omega
  dsimp only
  rw [lower]
  generalize at_sp : sz - taken argv - round16 ((argv.length + 1) * 8) = sp
  by_cases full : sp < base
  · rw [if_pos full, ends_pure]
    refine ⟨iff_of_false ?_ (by omega), by rintro _ _ ⟨⟩⟩
    rintro ⟨_, _, no⟩
    cases no
  have above : 0 < base := Nat.lt_of_lt_of_le (by decide) positive
  have words : ((places sz argv ++ [0]).flatMap fun word => digits word 8).length = (argv.length + 1) * 8 := by
    rw [flatMap_digits_length, length_append, length_singleton, places_length, mul_comm]
  rw [if_neg full, ends_bind]
  refine (pushed.stack.push (by rw [start]; exact Nat.not_lt.mp full) (by omega)).mono fun ok st' facts => ?_
  obtain ⟨rfl, _, bytes⟩ := facts
  rw [if_pos rfl, ends_pure]
  refine ⟨⟨fun _ => by omega, fun _ => ⟨_, _, rfl⟩⟩, fun argc sp' same => ?_⟩
  cases same
  have within : ∀ region ∈ regions sz argv, sz - taken argv ≤ region.1 ∧ region.1 + region.2 ≤ sz := regions_within (by omega)
  have below : sp + (argv.length + 1) * 8 ≤ sz - taken argv := by omega
  refine ⟨rfl, by omega, ?_, ?_, ?_, ?_⟩
  · have length : (places sz argv ++ [0]).length = argv.length + 1 := by
      rw [length_append, length_singleton, places_length]
    rw [← length]
    refine loadWords_digits (fun word member => ?_) fun k low => ?_
    · have small : word ≤ sz := by
        rcases mem_append.mp member with place | last
        · exact places_le place
        · rw [mem_singleton.mp last]
          exact Nat.zero_le sz
      simp only [trapframe, trampoline, maxva, pgsize] at bound
      omega
    · rw [length] at low
      rw [bytes _ (by omega), overwrite, if_pos (Nat.le_add_right sp k), Nat.add_sub_cancel_left,
        List.getElem?_eq_getElem (by omega), Option.getD_some]
  · refine strings_kept (by omega) (fun va from_va to_va => ?_) pushed.strings
    rw [bytes va to_va, overwrite_above]
    omega
  · intro region member
    rcases mem_cons.mp member with rfl | string
    · dsimp only
      omega
    · have inside := within region string
      omega
  · refine .cons (fun region member => .inl ?_) ((regions_apart (by omega)).imp fun lower => .inr lower)
    have inside := within region member
    dsimp only
    omega

end

theorem stack_of_fault : ∃ st, @Stack smallKernel st (kernbase + pgsize) (2 * pgsize) := by
  let := smallKernel
  have user := emptyTable_user
  have fault : Ends (vmfault (kernbase + pgsize) (2 * pgsize) (1 * pgsize)) emptyTable (fun _ => False) _ :=
    vmfault_ends user.space user.bound
  obtain ⟨pa, st, _, facts⟩ := fault.gives
  rcases facts with ⟨_, below, faulted⟩ | ⟨_, _, refused⟩
  · have touched := Touched.of_faulted user below faulted
    refine ⟨st, touched.user, by decide, le_rfl, fun v from_v to_v => ⟨⟨pa, lazyFlags⟩, ?_, (by decide : writable ⟨0, lazyFlags⟩)⟩⟩
    have here : v = 1 := by
      simp only [userstack, pgsize] at from_v to_v
      omega
    rw [here, faulted.steady.map, update_self]
  have supply : emptyTable.Supply (1 + missing emptyTable.mem (1 * pgsize) 2 (kernbase + pgsize)) := by
    rw [State.Supply]
    decide
  exact absurd supply (refused (by decide) (empty_map rfl 1))

def lsRoot : List (List UInt8) := [[108, 115], [47]]

theorem exec_arguments_ls : ∃ st argv, argv = lsRoot ∧ @Stack smallKernel st (kernbase + pgsize) (2 * pgsize) ∧
    Ends (@pushArgs smallKernel (kernbase + pgsize) (2 * pgsize) argv) st (fun _ => False) fun result st' =>
      ((∃ argc sp, result = some (argc, sp)) ↔ taken argv + round16 ((argv.length + 1) * 8) ≤ userstack * pgsize) ∧
      ∀ argc sp, result = some (argc, sp) → Argued st' (kernbase + pgsize) (2 * pgsize) argv argc sp := by
  obtain ⟨st, stack⟩ := stack_of_fault
  obtain ⟨argv, same⟩ : ∃ argv, argv = lsRoot := ⟨_, rfl⟩
  have few : argv.length ≤ maxarg - 1 := by
    rw [same]
    decide
  have short : ∀ arg ∈ argv, arg.length ≤ pgsize - 1 := by
    rw [same]
    decide
  exact ⟨st, argv, same, stack, @exec_arguments st (kernbase + pgsize) (2 * pgsize) argv smallKernel stack few short⟩

end Xv6.Vm

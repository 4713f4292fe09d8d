import Mathlib

/-!
The two `memmove` functions, of `kernel/string.c` and of `user/ulib.c`. Memory is a function
from 64-bit addresses to bytes and pointers wrap. The two differ in the test that picks the
direction and in the type of the length, unsigned in the kernel and signed in user space.
-/

namespace Xv6.Text

open Function

abbrev Ptr := BitVec 64

abbrev Memory := Ptr → UInt8

/-- `while (n-- > 0) *d++ = *s++;` -/
def copyUp (mem : Memory) (d s : Ptr) : Nat → Memory
  | 0 => mem
  | n + 1 => copyUp (update mem d (mem s)) (d + 1) (s + 1) n

/-- `while (n-- > 0) *--d = *--s;` -/
def copyDown (mem : Memory) (d s : Ptr) : Nat → Memory
  | 0 => mem
  | n + 1 => copyDown (update mem (d - 1) (mem (s - 1))) (d - 1) (s - 1) n

def Kernel.memmove (mem : Memory) (dst src : Ptr) (n : BitVec 32) : Memory :=
  if n = 0 then mem
  else if src < dst ∧ src + n.setWidth 64 > dst then
    copyDown mem (dst + n.setWidth 64) (src + n.setWidth 64) n.toNat
  else copyUp mem dst src n.toNat

def User.memmove (mem : Memory) (dst src : Ptr) (n : BitVec 32) : Memory :=
  if src > dst then copyUp mem dst src n.toInt.toNat
  else copyDown mem (dst + n.signExtend 64) (src + n.signExtend 64) n.toInt.toNat

/-- The `n` bytes from `d` on are what the `n` bytes from `s` on were; nothing else changed. -/
structure Moved (before after : Memory) (d s : Ptr) (n : Nat) : Prop where
  copied : ∀ i < n, after (d + BitVec.ofNat 64 i) = before (s + BitVec.ofNat 64 i)
  frame : ∀ a, (∀ i < n, a ≠ d + BitVec.ofNat 64 i) → after a = before a

variable {mem after other : Memory} {d s : Ptr} {n : Nat}

theorem Moved.unique (first : Moved mem after d s n) (second : Moved mem other d s n) : after = other := by
  funext a
  by_cases inside : ∃ i < n, a = d + BitVec.ofNat 64 i
  · obtain ⟨i, low, rfl⟩ := inside
    rw [first.copied i low, second.copied i low]
  · have outside : ∀ i < n, a ≠ d + BitVec.ofNat 64 i := fun i low here => inside ⟨i, low, here⟩
    rw [first.frame a outside, second.frame a outside]

theorem copyUp_moved (mem : Memory) (source : s.toNat + n ≤ 2 ^ 64) (target : d.toNat + n ≤ 2 ^ 64)
    (safe : d.toNat ≤ s.toNat ∨ s.toNat + n ≤ d.toNat) : Moved mem (copyUp mem d s n) d s n := by
  induction n generalizing mem d s with
  | zero => exact ⟨nofun, fun _ _ => rfl⟩
  | succ n ih =>
    have rest := ih (d := d + 1) (s := s + 1) (update mem d (mem s)) (by bv_omega) (by bv_omega)
      (by bv_omega)
    rw [copyUp]
    constructor
    · intro i low
      cases i with
      | zero =>
        have here : d + BitVec.ofNat 64 0 = d := by bv_omega
        have first := rest.frame d fun j high => by bv_omega
        rw [here, first, update_self]
        congr 1
        bv_omega
      | succ i =>
        have later := rest.copied i (by omega)
        rw [show d + 1 + BitVec.ofNat 64 i = d + BitVec.ofNat 64 (i + 1) by bv_omega,
          show s + 1 + BitVec.ofNat 64 i = s + BitVec.ofNat 64 (i + 1) by bv_omega,
          update_of_ne (by bv_omega)] at later
        exact later
    · intro a outside
      have first := outside 0 (by omega)
      rw [rest.frame a fun i low here => ?_, update_of_ne (by bv_omega)]
      refine outside (i + 1) (by omega) ?_
      bv_omega

theorem copyDown_moved (mem : Memory) (source : s.toNat + n ≤ 2 ^ 64) (target : d.toNat + n ≤ 2 ^ 64)
    (safe : s.toNat ≤ d.toNat ∨ d.toNat + n ≤ s.toNat) :
    Moved mem (copyDown mem (d + BitVec.ofNat 64 n) (s + BitVec.ofNat 64 n) n) d s n := by
  induction n generalizing mem with
  | zero => exact ⟨nofun, fun _ _ => rfl⟩
  | succ n ih =>
    have rest := ih (update mem (d + BitVec.ofNat 64 n) (mem (s + BitVec.ofNat 64 n))) (by omega)
      (by omega) (by omega)
    rw [copyDown, show d + BitVec.ofNat 64 (n + 1) - 1 = d + BitVec.ofNat 64 n by bv_omega,
      show s + BitVec.ofNat 64 (n + 1) - 1 = s + BitVec.ofNat 64 n by bv_omega]
    constructor
    · intro i low
      obtain rfl | earlier := eq_or_ne i n
      · rw [rest.frame _ fun j high => by bv_omega, update_self]
      · rw [rest.copied i (by omega), update_of_ne (by bv_omega)]
    · intro a outside
      have last := outside n (by omega)
      rw [rest.frame a fun i low => outside i (by omega), update_of_ne last]

/-- Each `memmove` moves the bytes however the ranges overlap, and the two agree on every
length that both can take. -/
theorem memmove_moved (mem : Memory) (dst src : Ptr) (n : BitVec 32)
    (source : src.toNat + n.toNat ≤ 2 ^ 64) (target : dst.toNat + n.toNat ≤ 2 ^ 64) :
    Moved mem (Kernel.memmove mem dst src n) dst src n.toNat ∧
    (0 ≤ n.toInt → Moved mem (User.memmove mem dst src n) dst src n.toNat ∧
      User.memmove mem dst src n = Kernel.memmove mem dst src n) := by
  have wide : n.setWidth 64 = BitVec.ofNat 64 n.toNat := by bv_omega
  have kernel : Moved mem (Kernel.memmove mem dst src n) dst src n.toNat := by
    rw [Kernel.memmove]
    split
    · next none =>
      rw [none]
      exact ⟨nofun, fun _ _ => rfl⟩
    split
    · next overlap =>
      rw [wide]
      exact copyDown_moved mem source target (.inl (by bv_omega))
    · next apart => exact copyUp_moved mem source target (by bv_omega)
  refine ⟨kernel, fun positive => ?_⟩
  have value : n.toInt = n.toNat := by
    have := BitVec.toInt_eq_toNat_cond n
    omega
  have signed : n.signExtend 64 = BitVec.ofNat 64 n.toNat := by
    rw [BitVec.signExtend, value, BitVec.ofInt_natCast]
  have user : Moved mem (User.memmove mem dst src n) dst src n.toNat := by
    rw [User.memmove, value, Int.toNat_natCast]
    split
    · next above => exact copyUp_moved mem source target (.inl (by bv_omega))
    · next below =>
      rw [signed]
      exact copyDown_moved mem source target (.inl (by bv_omega))
  exact ⟨user, user.unique kernel⟩

theorem memmove_moved_overlap :
    let mem : Memory := fun a => UInt8.ofNat a.toNat
    Moved mem (Kernel.memmove mem 102 100 5) 102 100 5 ∧
      User.memmove mem 102 100 5 = Kernel.memmove mem 102 100 5 := by
  intro mem
  have moved := memmove_moved mem 102 100 5 (by decide) (by decide)
  exact ⟨moved.1, (moved.2 (by decide)).2⟩

end Xv6.Text

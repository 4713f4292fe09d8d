import Mathlib

/-!
Bits in a byte buffer. Bit `n` is bit `n % 8` of byte `n / 8`, tested, set and cleared
with a mask, as in C.
-/

namespace Xv6.Lib.Bitmap

open Function

def mask (n : Nat) : UInt8 := 1 <<< UInt8.ofNat (n % 8)

def isSet (mem : Nat → UInt8) (n : Nat) : Bool := mem (n / 8) &&& mask n != 0

def setBit (mem : Nat → UInt8) (n : Nat) : Nat → UInt8 :=
  update mem (n / 8) (mem (n / 8) ||| mask n)

def clearBit (mem : Nat → UInt8) (n : Nat) : Nat → UInt8 :=
  update mem (n / 8) (mem (n / 8) &&& ~~~mask n)

variable {mem : Nat → UInt8} {n k : Nat}

theorem and_mask (byte : UInt8) (i : Fin 8) :
    (byte &&& 1 <<< UInt8.ofNat i != 0) = byte.toBitVec.getLsbD i := by
  cases byte with
  | ofBitVec byte =>
    cases byte with
    | ofFin byte =>
      revert byte i
      decide +kernel

theorem mask_getLsbD (i j : Fin 8) :
    (1 <<< UInt8.ofNat i : UInt8).toBitVec.getLsbD j = decide (i = j) := by
  revert i j
  decide

theorem isSet_eq : isSet mem n = (mem (n / 8)).toBitVec.getLsbD (n % 8) :=
  and_mask (mem (n / 8)) ⟨n % 8, Nat.mod_lt _ (by omega)⟩

theorem mask_bit : (mask n).toBitVec.getLsbD (k % 8) = decide (n % 8 = k % 8) := by
  have low := Nat.mod_lt n (show 0 < 8 by omega)
  have high := Nat.mod_lt k (show 0 < 8 by omega)
  have both := mask_getLsbD ⟨n % 8, low⟩ ⟨k % 8, high⟩
  simpa [mask, Fin.ext_iff] using both

theorem isSet_setBit : isSet (setBit mem n) k = (decide (k = n) || isSet mem k) := by
  rw [isSet_eq, isSet_eq, setBit]
  by_cases byte : k / 8 = n / 8
  · rw [byte, update_self, UInt8.toBitVec_or, BitVec.getLsbD_or, mask_bit, Bool.or_comm]
    congr 1
    exact decide_eq_decide.mpr (by omega)
  · rw [update_of_ne byte, decide_eq_false (by omega), Bool.false_or]

theorem isSet_clearBit : isSet (clearBit mem n) k = (decide (k ≠ n) && isSet mem k) := by
  rw [isSet_eq, isSet_eq, clearBit]
  by_cases byte : k / 8 = n / 8
  · have small := Nat.mod_lt k (show 0 < 8 by omega)
    rw [byte, update_self, UInt8.toBitVec_and, UInt8.toBitVec_not, BitVec.getLsbD_and,
      BitVec.getLsbD_not, mask_bit, Bool.and_comm, decide_eq_true small, Bool.true_and,
      ← decide_not]
    congr 1
    exact decide_eq_decide.mpr (by omega)
  · rw [update_of_ne byte, decide_eq_true (by omega), Bool.true_and]

theorem or_and_not_mask (byte : UInt8) (i : Fin 8) (clear : (byte &&& 1 <<< UInt8.ofNat i != 0) = false) :
    (byte ||| 1 <<< UInt8.ofNat i) &&& ~~~(1 <<< UInt8.ofNat i) = byte := by
  cases byte with
  | ofBitVec byte =>
    cases byte with
    | ofFin byte =>
      revert byte i
      decide +kernel

theorem clearBit_setBit (clear : isSet mem n = false) : clearBit (setBit mem n) n = mem := by
  have byte := or_and_not_mask (mem (n / 8)) ⟨n % 8, Nat.mod_lt _ (by omega)⟩ clear
  rw [clearBit, setBit, update_self, update_idem]
  exact (congrArg (update mem (n / 8)) byte).trans (update_eq_self _ _)

end Xv6.Lib.Bitmap

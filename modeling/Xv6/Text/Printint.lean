import Mathlib

/-!
The `printint` functions of `user/printf.c` and `kernel/printk.c`. Each stores the digits of
a 64-bit value in its buffer, the last one first, then the sign, and emits the buffer
backwards. `numeral` is what is to be printed.
-/

namespace Xv6.Text

open List

inductive Base
  | ten
  | sixteen

def Base.radix : Base → Nat
  | .ten => 10
  | .sixteen => 16

def User.digits : List Char := "0123456789ABCDEF".toList

def Kernel.digits : List Char := "0123456789abcdef".toList

def digit (digits : List Char) (k : Nat) : Char := digits.getD k ' '

theorem Base.radix_bounds (base : Base) : 1 < base.radix ∧ base.radix ≤ 16 := by
  cases base <;> decide

/-- `do { buf[i++] = digits[x % base]; } while ((x /= base) != 0);` -/
def storeDigits (digits : List Char) (base : Base) (x : Nat) : List Char :=
  digit digits (x % base.radix) ::
    if x / base.radix = 0 then [] else storeDigits digits base (x / base.radix)
termination_by x
decreasing_by
  have := base.radix_bounds
  exact Nat.div_lt_self (pos_of_ne_zero fun zero => by simp_all) this.1

def User.buf (xx : BitVec 64) (base : Base) (sgn : Bool) : List Char :=
  let neg := sgn && xx.slt 0
  let x := if neg then -xx else xx
  let stored := storeDigits User.digits base x.toNat
  if neg then stored ++ ['-'] else stored

def User.printint (xx : BitVec 64) (base : Base) (sgn : Bool) : List Char :=
  (User.buf xx base sgn).reverse

/-- The kernel assigns to `sign` in the test; it then says whether the value is negative. -/
def Kernel.buf (xx : BitVec 64) (base : Base) (sign : Bool) : List Char :=
  let sign := if sign then xx.slt 0 else sign
  let x := if sign then -xx else xx
  let stored := storeDigits Kernel.digits base x.toNat
  if sign then stored ++ ['-'] else stored

def Kernel.printint (xx : BitVec 64) (base : Base) (sign : Bool) : List Char :=
  (Kernel.buf xx base sign).reverse

/-- The digits of `x` with no leading zero, lowest first; those of zero are one zero. -/
def lowestFirst (base : Base) (x : Nat) : List Nat := if x = 0 then [0] else base.radix.digits x

def numeral (digits : List Char) (base : Base) (value : Int) : List Char :=
  (if value < 0 then ['-'] else []) ++ ((lowestFirst base value.natAbs).map (digit digits)).reverse

def readDigits (digits : List Char) (base : Base) (letters : List Char) : Nat :=
  letters.foldl (fun value letter => digits.idxOf letter + base.radix * value) 0

def readNumeral (digits : List Char) (base : Base) (letters : List Char) : Int :=
  match letters with
  | '-' :: letters => -(readDigits digits base letters : Int)
  | letters => readDigits digits base letters

/-- The sixteen digits are different, and none is the sign. -/
def Readable (digits : List Char) : Prop :=
  ∀ k < 16, digits.idxOf (digit digits k) = k ∧ digit digits k ≠ '-'

variable {digits : List Char} {base : Base}

theorem user_readable : Readable User.digits := by
  unfold Readable
  decide

theorem kernel_readable : Readable Kernel.digits := by
  unfold Readable
  decide

theorem storeDigits_eq (x : Nat) :
    storeDigits digits base x = (lowestFirst base x).map (digit digits) := by
  have ⟨radix, _⟩ := base.radix_bounds
  induction x using Nat.strong_induction_on with
  | _ x ih =>
    rw [storeDigits, lowestFirst]
    by_cases last : x / base.radix = 0
    · have small : x < base.radix := Nat.lt_of_div_eq_zero (by omega) last
      rw [if_pos last, Nat.mod_eq_of_lt small]
      split
      · next zero => rw [zero]; rfl
      · next some => rw [Nat.digits_of_lt _ _ some small]; rfl
    have some : x ≠ 0 := fun zero => last (by rw [zero, Nat.zero_div])
    have rest := ih _ (Nat.div_lt_self (pos_of_ne_zero some) radix)
    rw [lowestFirst, if_neg last] at rest
    rw [if_neg last, if_neg some, rest, Nat.digits_def' radix (pos_of_ne_zero some)]
    rfl

theorem lowestFirst_lt (x : Nat) : ∀ k ∈ lowestFirst base x, k < 16 := by
  have ⟨radix, bound⟩ := base.radix_bounds
  intro k found
  rw [lowestFirst] at found
  split at found
  · simp only [mem_singleton] at found
    omega
  · exact (Nat.digits_lt_base radix found).trans_le bound

theorem lowestFirst_length {x n : Nat} (small : x < 10 ^ (n + 1)) : (lowestFirst base x).length ≤ n + 1 := by
  rw [lowestFirst]
  split
  · simp
  · have radix : 10 ≤ base.radix := by cases base <;> decide
    refine (Nat.digits_length_le_iff (by omega) x).mpr ?_
    exact small.trans_le (Nat.pow_le_pow_left radix _)

theorem readDigits_reverse (readable : Readable digits) {list : List Nat} (small : ∀ k ∈ list, k < 16) :
    readDigits digits base (list.map (digit digits)).reverse = Nat.ofDigits base.radix list := by
  induction list with
  | nil => rfl
  | cons k list ih =>
    have rest := ih fun j found => small j (mem_cons_of_mem _ found)
    rw [readDigits] at rest
    rw [readDigits, map_cons, reverse_cons, foldl_append, rest, Nat.ofDigits_cons]
    simp [readable k (small k mem_cons_self)]

theorem readNumeral_numeral (readable : Readable digits) (value : Int) :
    readNumeral digits base (numeral digits base value) = value := by
  have small := @lowestFirst_lt base value.natAbs
  have whole : Nat.ofDigits base.radix (lowestFirst base value.natAbs) = value.natAbs := by
    rw [lowestFirst]
    split
    · next zero => simp [zero]
    · exact Nat.ofDigits_digits _ _
  have back := @readDigits_reverse _ base readable _ small
  rw [numeral]
  split
  · rw [singleton_append, readNumeral, back, whole]
    omega
  rw [nil_append, readNumeral, back, whole]
  · omega
  intro letters here
  obtain ⟨k, found, sign⟩ : ∃ k ∈ lowestFirst base value.natAbs, digit digits k = '-' := by
    rw [← mem_map, ← mem_reverse, here]
    exact mem_cons_self
  exact (readable k (small k found)).2 sign

def printed (xx : BitVec 64) (sgn : Bool) : Int := if sgn then xx.toInt else xx.toNat

theorem printed_negative (xx : BitVec 64) (sgn : Bool) :
    (sgn && xx.slt 0) = decide (printed xx sgn < 0) := by
  cases sgn <;> simp [printed, BitVec.slt]

theorem printed_natAbs (xx : BitVec 64) (sgn : Bool) :
    (if sgn && xx.slt 0 then -xx else xx).toNat = (printed xx sgn).natAbs := by
  have signed := BitVec.toInt_eq_toNat_cond xx
  cases sgn with
  | false => rfl
  | true =>
    simp only [printed_negative, printed, if_true, decide_eq_true_eq]
    split
    · rw [BitVec.toNat_neg]
      omega
    · omega

structure Prints (digits : List Char) (base : Base) (value : Int) (buf emitted : List Char) : Prop where
  fits : buf.length ≤ 20
  canonical : emitted = numeral digits base value
  reads : readNumeral digits base emitted = value

theorem prints_printed (readable : Readable digits) (xx : BitVec 64) (sgn : Bool) {buf : List Char}
    (stored : buf = if printed xx sgn < 0 then storeDigits digits base (printed xx sgn).natAbs ++ ['-']
      else storeDigits digits base (printed xx sgn).natAbs) :
    Prints digits base (printed xx sgn) buf buf.reverse := by
  have canonical : buf.reverse = numeral digits base (printed xx sgn) := by
    rw [stored, storeDigits_eq, numeral]
    split
    · rw [reverse_append]
      rfl
    · rfl
  refine ⟨?_, canonical, canonical ▸ readNumeral_numeral readable _⟩
  have bounds : -2 ^ 63 ≤ printed xx sgn ∧ printed xx sgn < 2 ^ 64 := by
    have signed := BitVec.toInt_eq_toNat_cond xx
    rw [printed]
    split <;> omega
  rw [stored, storeDigits_eq]
  split
  · rw [length_append, length_map]
    exact Nat.succ_le_succ (lowestFirst_length (show (printed xx sgn).natAbs < 10 ^ (18 + 1) by omega))
  · rw [length_map]
    exact lowestFirst_length (show (printed xx sgn).natAbs < 10 ^ (19 + 1) by omega)

/-- Both functions print the numeral of every value and stay within their twenty bytes. -/
theorem printint_canonical (xx : BitVec 64) (base : Base) (sgn : Bool) :
    Prints User.digits base (printed xx sgn) (User.buf xx base sgn) (User.printint xx base sgn) ∧
    Prints Kernel.digits base (printed xx sgn) (Kernel.buf xx base sgn) (Kernel.printint xx base sgn) := by
  constructor
  · refine prints_printed user_readable xx sgn ?_
    simp only [User.buf, printed_natAbs]
    simp only [printed_negative, decide_eq_true_eq]
  refine prints_printed kernel_readable xx sgn ?_
  have same : (if sgn then xx.slt 0 else sgn) = (sgn && xx.slt 0) := by cases sgn <;> rfl
  simp only [Kernel.buf, same, printed_natAbs]
  simp only [printed_negative, decide_eq_true_eq]

end Xv6.Text

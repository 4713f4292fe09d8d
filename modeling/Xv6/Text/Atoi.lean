import Xv6.Text.Printint

/-! `atoi` of `user/ulib.c` reads back what `printf` prints. -/

namespace Xv6.Text

open List

def atoiFrom (n : BitVec 32) : List Char → BitVec 32
  | [] => n
  | c :: s => if '0' ≤ c ∧ c ≤ '9' then atoiFrom (n * 10 + BitVec.ofNat 32 c.toNat - 48) s else n

def atoi (s : List Char) : BitVec 32 := atoiFrom 0 s

theorem digit_decimal {k : Nat} (small : k < 10) :
    '0' ≤ digit User.digits k ∧ digit User.digits k ≤ '9' ∧ (digit User.digits k).toNat = k + 48 := by
  decide +revert

theorem atoiFrom_append {s : List Char} (decimal : ∀ c ∈ s, '0' ≤ c ∧ c ≤ '9') (n : BitVec 32) (more : List Char) :
    atoiFrom n (s ++ more) = atoiFrom (atoiFrom n s) more := by
  induction s generalizing n with
  | nil => rfl
  | cons c s ih =>
    have ⟨here, rest⟩ := forall_mem_cons.mp decimal
    rw [cons_append, atoiFrom, atoiFrom, if_pos here, if_pos here, ih rest]

theorem atoi_digits {list : List Nat} (small : ∀ k ∈ list, k < 10) :
    atoi (list.map (digit User.digits)).reverse = BitVec.ofNat 32 (Nat.ofDigits 10 list) := by
  induction list with
  | nil => rfl
  | cons k list ih =>
    have ⟨here, rest⟩ := forall_mem_cons.mp small
    have ⟨low, high, code⟩ := digit_decimal here
    rw [map_cons, reverse_cons, atoi, atoiFrom_append, ← atoi, ih rest, atoiFrom, if_pos ⟨low, high⟩, atoiFrom,
      code, Nat.ofDigits_cons]
    · apply BitVec.eq_of_toNat_eq
      simp
      omega
    · intro c found
      obtain ⟨j, member, rfl⟩ := mem_map.mp (mem_reverse.mp found)
      have := digit_decimal (rest j member)
      exact ⟨this.1, this.2.1⟩

theorem atoi_stored (x : Nat) : atoi (storeDigits User.digits .ten x).reverse = BitVec.ofNat 32 x := by
  rw [storeDigits_eq, lowestFirst, Base.radix]
  split
  · next zero =>
    rw [zero]
    decide
  · rw [atoi_digits fun k => Nat.digits_lt_base (by decide)]
    exact congrArg _ (Nat.ofDigits_digits 10 x)

theorem atoi_printint (xx : BitVec 64) (sgn : Bool) :
    atoi (User.printint xx .ten sgn) = if sgn && xx.slt 0 then 0 else xx.setWidth 32 := by
  rw [User.printint, User.buf]
  split
  · simp [atoi, atoiFrom]
  · rw [atoi_stored, BitVec.ofNat_toNat]

end Xv6.Text

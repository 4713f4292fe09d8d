import Mathlib

/-!
Little-endian numbers in a byte-addressed store, a function from addresses to bytes. `load`
reads the number held by `size` consecutive bytes and `store` writes one, lowest byte first.
-/

namespace Xv6.Lib.Bytes

open Function List

def load (mem : Nat → UInt8) (addr : Nat) : Nat → Nat
  | 0 => 0
  | size + 1 => (mem addr).toNat + 256 * load mem (addr + 1) size

def store (mem : Nat → UInt8) (addr value : Nat) : Nat → Nat → UInt8
  | 0 => mem
  | size + 1 =>
    store (update mem addr (UInt8.ofNat value)) (addr + 1) (value / 256) size

def storeWords (mem : Nat → UInt8) (addr size : Nat) : List Nat → Nat → UInt8
  | [] => mem
  | value :: values => storeWords (store mem addr value size) (addr + size) size values

def loadWords (mem : Nat → UInt8) (addr size : Nat) : Nat → List Nat
  | 0 => []
  | count + 1 => load mem addr size :: loadWords mem (addr + size) size count

variable {mem other : Nat → UInt8} {addr place value size width : Nat}

theorem load_congr (same : ∀ x, addr ≤ x → x < addr + size → mem x = other x) :
    load mem addr size = load other addr size := by
  induction size generalizing addr with
  | zero => rfl
  | succ size ih =>
    have tail : load mem (addr + 1) size = load other (addr + 1) size :=
      ih fun x low high => same x (by omega) (by omega)
    simp only [load, tail, same addr (by omega) (by omega)]

theorem load_lt : load mem addr size < 256 ^ size := by
  induction size generalizing addr with
  | zero => simp [load]
  | succ size ih =>
    have tail : load mem (addr + 1) size < 256 ^ size := ih
    have byte := (mem addr).toNat_lt
    rw [load, pow_succ]
    omega

theorem load_zero : load (fun _ => 0) addr size = 0 := by
  induction size generalizing addr with
  | zero => rfl
  | succ size ih => simp [load, ih]

theorem store_outside {x : Nat} (out : x < addr ∨ addr + size ≤ x) :
    store mem addr value size x = mem x := by
  induction size generalizing mem addr value with
  | zero => rfl
  | succ size ih =>
    rw [store, ih (by omega), update_of_ne (by omega)]

theorem load_store_same : load (store mem addr value size) addr size = value % 256 ^ size := by
  induction size generalizing mem addr value with
  | zero => simp [load, Nat.mod_one]
  | succ size ih =>
    have head : store mem addr value (size + 1) addr = UInt8.ofNat value := by
      rw [store, store_outside (by omega), update_self]
    have tail : load (store mem addr value (size + 1)) (addr + 1) size
        = value / 256 % 256 ^ size := by
      rw [store, ih]
    rw [load, head, tail, pow_succ, mul_comm (256 ^ size), Nat.mod_mul]
    simp

theorem load_store_of_lt (bound : value < 256 ^ size) :
    load (store mem addr value size) addr size = value := by
  rw [load_store_same, Nat.mod_eq_of_lt bound]

theorem load_store_disjoint (apart : place + width ≤ addr ∨ addr + size ≤ place) :
    load (store mem addr value size) place width = load mem place width :=
  load_congr fun _ low high => store_outside (by omega)

variable {values : List Nat}

theorem storeWords_outside {x : Nat} (out : x < addr ∨ addr + size * values.length ≤ x) :
    storeWords mem addr size values x = mem x := by
  induction values generalizing mem addr with
  | nil => rfl
  | cons value values ih =>
    have split : size * (value :: values).length = size + size * values.length := by
      rw [length_cons, Nat.mul_succ, add_comm]
    rw [split] at out
    rw [storeWords, ih (by omega), store_outside (by omega)]

theorem load_storeWords_disjoint (apart : place + width ≤ addr ∨ addr + size * values.length ≤ place) :
    load (storeWords mem addr size values) place width = load mem place width :=
  load_congr fun _ low high => storeWords_outside (by omega)

theorem loadWords_congr {count : Nat}
    (same : ∀ x, addr ≤ x → x < addr + size * count → mem x = other x) :
    loadWords mem addr size count = loadWords other addr size count := by
  induction count generalizing addr with
  | zero => rfl
  | succ count ih =>
    rw [Nat.mul_succ] at same
    have head : load mem addr size = load other addr size :=
      load_congr fun x low high => same x low (by omega)
    have tail : loadWords mem (addr + size) size count
        = loadWords other (addr + size) size count :=
      ih fun x low high => same x (by omega) (by omega)
    simp only [loadWords, head, tail]

theorem loadWords_getElem? {count index : Nat} (bound : index < count) :
    (loadWords mem addr size count)[index]? = some (load mem (addr + size * index) size) := by
  induction count generalizing addr index with
  | zero => omega
  | succ count ih =>
    cases index with
    | zero => simp [loadWords]
    | succ index =>
      have place : addr + size * (index + 1) = addr + size + size * index := by ring
      rw [loadWords, List.getElem?_cons_succ, ih (by omega), place]

theorem loadWords_storeWords (bounds : ∀ value ∈ values, value < 256 ^ size) :
    loadWords (storeWords mem addr size values) addr size values.length = values := by
  induction values generalizing mem addr with
  | nil => rfl
  | cons value values ih =>
    have head : load (storeWords mem addr size (value :: values)) addr size = value := by
      rw [storeWords]
      refine Eq.trans (load_congr fun x low high => storeWords_outside (.inl (by omega))) ?_
      exact load_store_of_lt (bounds value (by simp))
    have tail : loadWords (storeWords mem addr size (value :: values)) (addr + size) size
        values.length = values :=
      ih fun value found => bounds value (by simp [found])
    simp only [length_cons, loadWords, head, tail]

theorem load_storeWords {index : Nat} (found : values[index]? = some value)
    (bounds : ∀ value ∈ values, value < 256 ^ size) :
    load (storeWords mem addr size values) (addr + size * index) size = value := by
  obtain ⟨bound, _⟩ := List.getElem?_eq_some_iff.mp found
  have whole : (loadWords (storeWords mem addr size values) addr size values.length)[index]? =
      some (load (storeWords mem addr size values) (addr + size * index) size) :=
    loadWords_getElem? bound
  rw [loadWords_storeWords bounds, found] at whole
  exact (Option.some.inj whole).symm

def digits (value : Nat) : Nat → List UInt8
  | 0 => []
  | size + 1 => UInt8.ofNat value :: digits (value / 256) size

theorem digits_length : (digits value size).length = size := by
  induction size generalizing value with
  | zero => rfl
  | succ size ih => rw [digits, length_cons, ih]

theorem flatMap_digits_length (values : List Nat) : (values.flatMap fun value => digits value size).length = size * values.length := by
  induction values with
  | nil => rfl
  | cons value values ih => rw [flatMap_cons, length_append, digits_length, ih, length_cons, Nat.mul_succ, add_comm]

theorem load_digits (bytes : ∀ k < size, (digits value size)[k]? = some (mem (addr + k))) :
    load mem addr size = value % 256 ^ size := by
  induction size generalizing addr value with
  | zero => rw [load, pow_zero, Nat.mod_one]
  | succ size ih =>
    have first : UInt8.ofNat value = mem addr := Option.some.inj (bytes 0 (Nat.succ_pos size))
    have rest : load mem (addr + 1) size = value / 256 % 256 ^ size := by
      refine ih fun k low => ?_
      rw [add_assoc, add_comm 1 k]
      exact bytes (k + 1) (Nat.succ_lt_succ low)
    rw [load, ← first, rest, pow_succ, mul_comm (256 ^ size), Nat.mod_mul]
    simp

theorem loadWords_digits (small : ∀ value ∈ values, value < 256 ^ size)
    (bytes : ∀ k < size * values.length, (values.flatMap fun value => digits value size)[k]? = some (mem (addr + k))) :
    loadWords mem addr size values.length = values := by
  induction values generalizing addr with
  | nil => rfl
  | cons value values ih =>
    have split : ((value :: values).flatMap fun value => digits value size) =
        digits value size ++ values.flatMap fun value => digits value size := flatMap_cons ..
    rw [split, length_cons, Nat.mul_succ] at bytes
    rw [length_cons, loadWords]
    congr 1
    · rw [load_digits fun k low => ?_, Nat.mod_eq_of_lt (small value mem_cons_self)]
      rw [← bytes k (by omega), List.getElem?_append_left (by rw [digits_length]; exact low)]
    · refine ih (fun other member => small other (mem_cons_of_mem value member)) fun k low => ?_
      rw [add_assoc, ← bytes (size + k) (by omega), List.getElem?_append_right (by rw [digits_length]; omega), digits_length,
        Nat.add_sub_cancel_left]

end Xv6.Lib.Bytes

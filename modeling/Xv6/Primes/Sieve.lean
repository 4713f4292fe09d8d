import Mathlib

/-!
The list that a chain of filtering stages prints: the head of its input, then the list
printed for the elements not divisible by it. On the numbers from two to `n` it gives the
primes.
-/

namespace Xv6.Primes

open Function List

def survivors : List Nat → List Nat
  | [] => []
  | primo :: rest => rest.filter fun numero => numero % primo ≠ 0

theorem length_survivors (primo : Nat) (rest : List Nat) :
    (survivors (primo :: rest)).length < (primo :: rest).length :=
  Nat.lt_succ_of_le (length_filter_le _ _)

def sieve : List Nat → List Nat
  | [] => []
  | primo :: rest => primo :: sieve (survivors (primo :: rest))
termination_by numeros => numeros.length
decreasing_by exact length_survivors primo rest

theorem sieve_nil : sieve [] = [] := by simp [sieve]

theorem sieve_cons (primo : Nat) (rest : List Nat) :
    sieve (primo :: rest) = primo :: sieve (survivors (primo :: rest)) := by
  rw [sieve]

theorem survivors_append_singleton (primo numero : Nat) (rest : List Nat) :
    survivors (primo :: rest ++ [numero]) =
      survivors (primo :: rest) ++ if numero % primo ≠ 0 then [numero] else [] := by
  simp only [cons_append, survivors, filter_append, filter_cons, filter_nil,
    decide_eq_true_eq]

variable {numeros out : List Nat} {numero : Nat}

theorem survivors_mono {longer : List Nat} (shorter : numeros <+: longer) :
    survivors numeros <+: survivors longer := by
  obtain ⟨rest, rfl⟩ := shorter
  cases numeros with
  | nil => exact nil_prefix
  | cons primo numeros =>
    simp only [cons_append, survivors, filter_append]
    exact prefix_append _ _

theorem head_of_stream (heads : ∀ k < (numero :: out).length,
      (numero :: out)[k]? = (survivors^[k] numeros).head?) :
    ∃ rest, numeros = numero :: rest ∧
      ∀ k < out.length, out[k]? = (survivors^[k] (survivors numeros)).head? := by
  have first := heads 0 (by simp)
  rw [List.getElem?_cons_zero, iterate_zero, id] at first
  cases numeros with
  | nil => simp at first
  | cons head rest =>
    simp only [List.head?_cons] at first
    cases first
    refine ⟨rest, rfl, fun k bound => ?_⟩
    have next := heads (k + 1) (by simpa using bound)
    rwa [List.getElem?_cons_succ, iterate_succ_apply] at next

theorem prefix_sieve (heads : ∀ k < out.length, out[k]? = (survivors^[k] numeros).head?) :
    out <+: sieve numeros := by
  induction out generalizing numeros with
  | nil => exact nil_prefix
  | cons numero out ih =>
    obtain ⟨rest, rfl, heads⟩ := head_of_stream heads
    rw [sieve_cons]
    exact cons_prefix_cons.mpr ⟨rfl, ih heads⟩

theorem eq_sieve (heads : ∀ k < out.length, out[k]? = (survivors^[k] numeros).head?)
    (exhausted : survivors^[out.length] numeros = []) : out = sieve numeros := by
  induction out generalizing numeros with
  | nil =>
    rw [length_nil, iterate_zero, id] at exhausted
    rw [exhausted, sieve_nil]
  | cons numero out ih =>
    obtain ⟨rest, rfl, heads⟩ := head_of_stream heads
    rw [length_cons, iterate_succ_apply] at exhausted
    rw [sieve_cons, ← ih heads exhausted]

def Rough (bound numero : Nat) : Prop := ∀ q < bound, q.Prime → ¬ q ∣ numero

instance (bound numero : Nat) : Decidable (Rough bound numero) :=
  inferInstanceAs (Decidable (∀ q < bound, q.Prime → ¬ q ∣ numero))

theorem rough_self_iff (large : 2 ≤ numero) : Rough numero numero ↔ numero.Prime := by
  constructor
  · intro rough
    by_contra composite
    have factor := Nat.minFac_prime (n := numero) (by omega)
    have small : numero.minFac < numero :=
      (Nat.not_prime_iff_minFac_lt large).mp composite
    exact rough _ small factor (Nat.minFac_dvd numero)
  intro prime q small factor divides
  rcases (Nat.dvd_prime prime).mp divides with one | same
  · exact factor.one_lt.ne' one
  · omega

theorem rough_succ {bound : Nat} :
    Rough (bound + 1) numero ↔ Rough bound numero ∧ (bound.Prime → ¬ bound ∣ numero) := by
  constructor
  · intro rough
    exact ⟨fun q small => rough q (by omega), rough bound (by omega)⟩
  rintro ⟨rough, last⟩ q small
  by_cases same : q = bound
  · exact same ▸ last
  · exact rough q (by omega)

theorem sieve_rough (count bound : Nat) (large : 2 ≤ bound) :
    sieve ((List.range' bound count).filter (Rough bound ·)) =
      (List.range' bound count).filter (Nat.Prime ·) := by
  induction count generalizing bound with
  | zero => simp [sieve_nil]
  | succ count ih =>
    rw [range'_succ, filter_cons, filter_cons]
    by_cases prime : bound.Prime
    · have rest : ((List.range' (bound + 1) count).filter (Rough bound ·)).filter
          (fun numero => numero % bound ≠ 0) =
          (List.range' (bound + 1) count).filter (Rough (bound + 1) ·) := by
        rw [filter_filter]
        refine filter_congr fun numero _ => ?_
        simp only [rough_succ, prime, true_implies, Nat.dvd_iff_mod_eq_zero, ne_eq,
          ← Bool.decide_and, and_comm]
      rw [if_pos (by simpa using (rough_self_iff large).mpr prime), if_pos (by simpa using prime),
        sieve_cons, survivors, rest, ih (bound + 1) (by omega)]
    · have rest : (List.range' (bound + 1) count).filter (Rough bound ·) =
          (List.range' (bound + 1) count).filter (Rough (bound + 1) ·) := by
        refine filter_congr fun numero _ => ?_
        simp only [rough_succ, prime, false_implies, and_true]
      rw [if_neg (by simpa using (rough_self_iff large).not.mpr prime),
        if_neg (by simpa using prime), rest, ih (bound + 1) (by omega)]

theorem sieve_range {n : Nat} (large : 2 ≤ n) :
    sieve (List.range' 2 (n - 1)) = (List.range (n + 1)).filter (Nat.Prime ·) := by
  have all : (List.range' 2 (n - 1)).filter (Rough 2 ·) = List.range' 2 (n - 1) := by
    refine filter_eq_self.mpr fun numero _ => ?_
    simp only [decide_eq_true_eq]
    intro q small factor
    exact absurd factor.two_le (by omega)
  have split : List.range (n + 1) = 0 :: 1 :: List.range' 2 (n - 1) := by
    obtain ⟨k, rfl⟩ := Nat.exists_eq_add_of_le large
    rw [range_eq_range', show 2 + k + 1 = k + 1 + 2 by omega, range'_succ,
      range'_succ, show 2 + k - 1 = k + 1 by omega]
  have found := sieve_rough (n - 1) 2 le_rfl
  rw [all] at found
  rw [found, split]
  simp [Nat.not_prime_zero, Nat.not_prime_one]

end Xv6.Primes

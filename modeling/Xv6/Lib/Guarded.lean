import Mathlib

/-!
Locks and the processes between taking and dropping them. `inside` gives the lock whose
critical section a process is in, as a function of where the process is in its program;
`lock` gives the process that the lock is held by.
-/

namespace Xv6.Lib

open Function

variable {K : Type*} {lock lock' : K → Option Nat} {inside inside' : Nat → Option K} {pid other : Nat} {k : K}

structure Guarded (lock : K → Option Nat) (inside : Nat → Option K) : Prop where
  owner : ∀ pid k, inside pid = some k ↔ lock k = some pid

namespace Guarded

variable (guarded : Guarded lock inside)
include guarded

theorem only (here : inside pid = some k) (also : inside other = some k) : other = pid := by
  have mine := (guarded.owner pid k).mp here
  have theirs := (guarded.owner other k).mp also
  rw [mine] at theirs
  exact (Option.some.inj theirs).symm

theorem none_inside (free : lock k = none) (pid : Nat) : inside pid ≠ some k := by
  intro here
  rw [(guarded.owner pid k).mp here] at free
  cases free

theorem keep (locks : ∀ k, lock' k = lock k) (places : ∀ pid, inside' pid = inside pid) : Guarded lock' inside' := by
  refine ⟨fun pid k => ?_⟩
  rw [locks, places]
  exact guarded.owner pid k

variable [DecidableEq K]

theorem take (free : lock k = none) (outside : inside pid = none) (locks : lock' = update lock k (some pid))
    (places : inside' = update inside pid (some k)) : Guarded lock' inside' := by
  subst locks places
  refine ⟨fun other l => ?_⟩
  obtain rfl | same := eq_or_ne other pid
  · by_cases this : l = k
    · rw [this, update_self, update_self]
      exact ⟨fun _ => rfl, fun _ => rfl⟩
    · rw [update_self, update_of_ne this, ← guarded.owner other l, outside]
      exact ⟨fun is => absurd (Option.some.inj is).symm this, nofun⟩
  rw [update_of_ne same, guarded.owner other l]
  by_cases this : l = k
  · rw [this, update_self, free]
    exact ⟨nofun, fun is => absurd (Option.some.inj is).symm same⟩
  · rw [update_of_ne this]

theorem drop (here : inside pid = some k) (locks : lock' = update lock k none)
    (places : inside' = update inside pid none) : Guarded lock' inside' := by
  have held := (guarded.owner pid k).mp here
  subst locks places
  refine ⟨fun other l => ?_⟩
  obtain rfl | same := eq_or_ne other pid
  · by_cases this : l = k
    · rw [this, update_self, update_self]
      exact ⟨nofun, nofun⟩
    · rw [update_self, update_of_ne this, ← guarded.owner other l, here]
      exact ⟨nofun, fun is => absurd (Option.some.inj is).symm this⟩
  rw [update_of_ne same, guarded.owner other l]
  by_cases this : l = k
  · rw [this, update_self, held]
    exact ⟨fun is => absurd (Option.some.inj is).symm same, nofun⟩
  · rw [update_of_ne this]

end Guarded

end Xv6.Lib

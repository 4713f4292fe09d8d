import Mathlib

/-!
Programs that change a state and may stop. `Ends program state stop post` says what a run
from `state` ends in: a value and a state that satisfy `post`, or a reason that satisfies
`stop`.
-/

namespace Xv6.Lib.Hoare

abbrev Prog (σ ε α : Type) := StateT σ (Except ε) α

def Ends {σ ε α : Type} (program : Prog σ ε α) (state : σ) (stop : ε → Prop)
    (post : α → σ → Prop) : Prop :=
  match program.run state with
  | .ok (value, after) => post value after
  | .error reason => stop reason

variable {σ ε α β : Type} {state : σ} {stop : ε → Prop} {post : α → σ → Prop}

@[simp] theorem ends_pure {value : α} :
    Ends (pure value : Prog σ ε α) state stop post ↔ post value state := Iff.rfl

@[simp] theorem ends_get {post : σ → σ → Prop} :
    Ends (get : Prog σ ε σ) state stop post ↔ post state state := Iff.rfl

@[simp] theorem ends_set {value : σ} {post : PUnit → σ → Prop} :
    Ends (set value : Prog σ ε PUnit) state stop post ↔ post ⟨⟩ value := Iff.rfl

@[simp] theorem ends_modify {change : σ → σ} {post : PUnit → σ → Prop} :
    Ends (modify change : Prog σ ε PUnit) state stop post ↔ post ⟨⟩ (change state) := Iff.rfl

@[simp] theorem ends_throw {reason : ε} :
    Ends (throw reason : Prog σ ε α) state stop post ↔ stop reason := Iff.rfl

variable {first : Prog σ ε β} {rest : β → Prog σ ε α} {program : Prog σ ε α} {weaker : α → σ → Prop}
variable {middle : β → σ → Prop}

@[simp] theorem ends_bind : Ends (first >>= rest) state stop post ↔
      Ends first state stop fun value after => Ends (rest value) after stop post := by
  simp only [Ends, StateT.run_bind]
  cases first.run state with
  | error _ | ok _ => exact Iff.rfl

@[simp] theorem ends_map {change : β → α} : Ends (change <$> first) state stop post ↔
      Ends first state stop fun value after => post (change value) after := by
  simp only [Ends, StateT.run_map]
  cases first.run state with
  | error _ | ok _ => exact Iff.rfl

theorem Ends.mono_run (ends : Ends program state stop post)
    (implies : ∀ value after, program.run state = .ok (value, after) → post value after → weaker value after) :
    Ends program state stop weaker := by
  simp only [Ends] at ends ⊢
  cases outcome : program.run state with
  | error reason => simpa only [outcome] using ends
  | ok result =>
    rw [outcome] at ends
    exact implies _ _ outcome ends

theorem Ends.mono
    (ends : Ends program state stop post) (implies : ∀ value after, post value after → weaker value after) :
    Ends program state stop weaker :=
  ends.mono_run fun value after _ holds => implies value after holds

theorem Ends.mono_stop {other : ε → Prop}
    (ends : Ends program state stop post) (stops : ∀ reason, stop reason → other reason)
    (implies : ∀ value after, post value after → weaker value after) : Ends program state other weaker := by
  simp only [Ends] at ends ⊢
  cases outcome : program.run state with
  | error reason =>
    rw [outcome] at ends
    exact stops reason ends
  | ok result =>
    rw [outcome] at ends
    exact implies _ _ ends

theorem Ends.seq (ends : Ends first state stop middle)
    (continues : ∀ value after, middle value after → Ends (rest value) after stop post) :
    Ends (first >>= rest) state stop post :=
  ends_bind.mpr (ends.mono continues)

theorem Ends.seqPair {γ : Type} {first : Prog σ ε γ} {second : Prog σ ε β}
    (ends : Ends (first >>= fun _ => second) state stop middle)
    (continues : ∀ value after, middle value after → Ends (rest value) after stop post) :
    Ends (first >>= fun _ => second >>= rest) state stop post := by
  rw [ends_bind] at ends ⊢
  exact ends.mono fun _ _ later => later.seq continues

theorem Ends.seqIf {choice : Prop} [Decidable choice] {other : Prog σ ε β}
    (ends : Ends (if choice then first else other) state stop middle)
    (continues : ∀ value after, middle value after → Ends (rest value) after stop post) :
    Ends (if choice then first >>= rest else other >>= rest) state stop post := by
  split at ends
  · next yes =>
    rw [if_pos yes]
    exact ends.seq continues
  · next no =>
    rw [if_neg no]
    exact ends.seq continues

theorem ends_any : Ends program state (fun _ => True) fun _ _ => True := by
  rw [Ends]
  split <;> trivial

theorem Ends.of_run {value : α} {after : σ}
    (ends : Ends program state stop post) (ran : program.run state = .ok (value, after)) :
    post value after := by
  rwa [Ends, ran] at ends

theorem Ends.of_stop {reason : ε} (ends : Ends program state stop post)
    (ran : program.run state = .error reason) : stop reason := by
  rwa [Ends, ran] at ends

theorem Ends.gives (ends : Ends program state (fun _ => False) post) :
    ∃ value after, program.run state = .ok (value, after) ∧ post value after := by
  rw [Ends] at ends
  split at ends
  · next value after ran => exact ⟨value, after, ran, ends⟩
  · exact absurd ends not_false

theorem Ends.returns {program : Prog σ ε PUnit} {post : PUnit → σ → Prop}
    (ends : Ends program state (fun _ => False) post) :
    ∃ after, program.run state = .ok (⟨⟩, after) ∧ post ⟨⟩ after := by
  obtain ⟨_, after, ran, holds⟩ := ends.gives
  exact ⟨after, ran, holds⟩

theorem Ends.run_eq {value : α} {after : σ} (ends : Ends program state (fun _ => False) post)
    (unique : ∀ other later, post other later → other = value ∧ later = after) :
    program.run state = .ok (value, after) := by
  rw [Ends] at ends
  split at ends
  · next other later ran =>
    obtain ⟨rfl, rfl⟩ := unique _ _ ends
    exact ran
  · exact absurd ends not_false

end Xv6.Lib.Hoare

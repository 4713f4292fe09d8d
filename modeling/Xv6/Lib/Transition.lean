import Mathlib

/-!
Labelled transition systems whose step is a partial function of the label, the
states reachable through the labels a guard admits, and the invariant rule.
-/

namespace Xv6.Lib

variable {State Label : Type*}

def runLabels (step : State → Label → Option State) : State → List Label → Option State
  | state, [] => some state
  | state, label :: rest => (step state label).bind fun next => runLabels step next rest

/-- `target` is reached from `source` by enabled labels that the guard admits. -/
inductive Reaches (step : State → Label → Option State) (admits : State → Label → Prop)
    (source : State) : State → Prop
  | refl : Reaches step admits source source
  | tail {state next : State} (label : Label) : Reaches step admits source state →
      admits state label → step state label = some next → Reaches step admits source next

variable {step : State → Label → Option State} {admits : State → Label → Prop} {source target : State}

theorem Reaches.invariant (holds : State → Prop)
    (reached : Reaches step admits source target) (initial : holds source)
    (preserved : ∀ state label next, holds state → admits state label →
      step state label = some next → holds next) : holds target := by
  induction reached with
  | refl => exact initial
  | tail label _ admitted stepped ih => exact preserved _ label _ ih admitted stepped

theorem Reaches.weaken {loose : State → Label → Prop} (reached : Reaches step admits source target)
    (weaker : ∀ state label, admits state label → loose state label) :
    Reaches step loose source target := by
  induction reached with
  | refl => exact Reaches.refl
  | tail label _ admitted stepped ih => exact ih.tail label (weaker _ _ admitted) stepped

theorem Reaches.trans {middle : State} (first : Reaches step admits source middle)
    (second : Reaches step admits middle target) : Reaches step admits source target := by
  induction second with
  | refl => exact first
  | tail label _ admitted stepped ih => exact ih.tail label admitted stepped

section Runs

variable [∀ state label, Decidable (admits state label)] {labels : List Label} {View : Type*} {view : State → View} {seen : View}

/-- The run through given labels, as far as the guard admits them. -/
def runWithin (admits : State → Label → Prop) [∀ state label, Decidable (admits state label)]
    (step : State → Label → Option State) : State → List Label → Option State :=
  runLabels fun state label => if admits state label then step state label else none

theorem reaches_of_runWithin (ran : runWithin admits step source labels = some target) :
    Reaches step admits source target := by
  induction labels generalizing source with
  | nil =>
    cases ran
    exact Reaches.refl
  | cons label rest ih =>
    obtain ⟨next, stepped, ran⟩ := Option.bind_eq_some_iff.mp ran
    dsimp only at stepped
    split at stepped
    · rename_i admitted
      exact (Reaches.refl.tail label admitted stepped).trans (ih ran)
    · cases stepped

theorem reaches_within (ran : (runWithin admits step source labels).map view = some seen) :
    ∃ target, Reaches step admits source target ∧ view target = seen := by
  obtain ⟨target, ran, is⟩ := Option.map_eq_some_iff.mp ran
  exact ⟨target, reaches_of_runWithin ran, is⟩

theorem reaches_seen (ran : (runLabels step source labels).map view = some seen) :
    ∃ target, Reaches step (fun _ _ => True) source target ∧ view target = seen := by
  have same : runWithin (fun _ _ => True) step source labels = runLabels step source labels := by
    simp [runWithin]
  exact reaches_within (same ▸ ran)

end Runs

end Xv6.Lib

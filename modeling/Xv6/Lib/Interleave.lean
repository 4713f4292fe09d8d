import Xv6.Lib.Transition

/-!
Processes that share a state and take turns, one action of a program at a time. A program is
a tree of actions in which each reply chooses what comes next. `Holds` is a logic for one
process among others: every action keeps an invariant of the shared state, and what a
process knows besides is its ghost state, which the others leave alone.
-/

namespace Xv6.Lib.Interleave

open Function

inductive Prog {Act : Type} (Reply : Act → Type) (α : Type) where
  | ret (value : α)
  | act (action : Act) (next : Reply action → Prog Reply α)

/-- An action waits, stops the whole system, or is done. -/
inductive Outcome (State R : Type) where
  | blocked
  | halted (state : State)
  | done (state : State) (reply : R)

variable {Act State World Ghost Choice Call Value : Type} {Reply : Act → Type} {α β : Type}

def Prog.bind : Prog Reply α → (α → Prog Reply β) → Prog Reply β
  | .ret value, rest => rest value
  | .act action next, rest => .act action fun reply => (next reply).bind rest

instance : Monad (Prog Reply) where
  pure := .ret
  bind := .bind

def perform (action : Act) : Prog Reply (Reply action) := .act action .ret

def Prog.returned : Prog Reply α → Option α
  | .ret value => some value
  | .act _ _ => none

structure Conf (State : Type) {Act : Type} (Reply : Act → Type) (Call Value : Type) where
  shared : State
  progs : Nat → Prog Reply Value
  calls : Nat → Option Call

inductive Label (Call Choice : Type) where
  | call (pid : Nat) (c : Call)
  | run (pid : Nat) (choice : Choice)

def Label.pid : Label Call Choice → Nat
  | .call pid _ => pid
  | .run pid _ => pid

structure Machine (State : Type) {Act : Type} (Reply : Act → Type) (Choice Call Value : Type) where
  exec : Nat → (action : Act) → Choice → State → Outcome State (Reply action)
  stopped : State → Bool
  may : State → Nat → Call → Bool
  body : Nat → Call → Prog Reply Value

variable (machine : Machine State Reply Choice Call Value)

def Machine.step (conf : Conf State Reply Call Value) : Label Call Choice → Option (Conf State Reply Call Value)
  | .call pid c =>
    if machine.stopped conf.shared then none
    else if machine.may conf.shared pid c then
      match conf.progs pid with
      | .ret _ => some { conf with
          progs := update conf.progs pid (machine.body pid c)
          calls := update conf.calls pid (some c) }
      | .act _ _ => none
    else none
  | .run pid choice =>
    if machine.stopped conf.shared then none
    else
      match conf.progs pid with
      | .ret _ => none
      | .act action next =>
        match machine.exec pid action choice conf.shared with
        | .blocked => none
        | .halted state => some { conf with shared := state }
        | .done state reply => some { conf with
            shared := state, progs := update conf.progs pid (next reply) }

variable {machine} in
theorem Machine.step_other {conf after : Conf State Reply Call Value} {label : Label Call Choice} {other : Nat}
    (stepped : machine.step conf label = some after) (different : other ≠ label.pid) :
    after.progs other = conf.progs other := by
  cases label with
  | call pid c =>
    simp only [Machine.step] at stepped
    split at stepped
    · cases stepped
    split at stepped
    · split at stepped
      · cases stepped
        exact update_of_ne different _ _
      · cases stepped
    · cases stepped
  | run pid choice =>
    simp only [Machine.step] at stepped
    split at stepped
    · cases stepped
    split at stepped
    · cases stepped
    split at stepped
    · cases stepped
    · cases stepped
      rfl
    · cases stepped
      exact update_of_ne different _ _

variable {machine} in
theorem reaches_alone {start conf : Conf State Reply Call Value} {pid other : Nat}
    (reached : Reaches machine.step (fun _ label => label.pid = pid) start conf) (different : other ≠ pid) :
    conf.progs other = start.progs other := by
  induction reached with
  | refl => rfl
  | tail label _ own stepped ih => rw [Machine.step_other stepped (own ▸ different), ih]

/-- What a proof about programs is made with: the invariant, ghost states, what an action may
rely on, what must be so whenever it runs, and the states in which the system may stop. -/
structure Logic (State : Type) {Act : Type} (Reply : Act → Type) (Choice World Ghost : Type) where
  exec : Nat → (action : Act) → Choice → State → Outcome State (Reply action)
  inv : State → World → Prop
  ghost : State → World → Nat → Ghost
  rely : State → World → Nat → Act → Prop
  safe : State → World → Nat → Act → Prop
  halt : State → Prop

variable (logic : Logic State Reply Choice World Ghost)

/-- How an action of one process may end: the invariant holds and the others know what they
knew. -/
def Logic.Ends (pid : Nat) (state : State) (world : World) {R : Type} (post : R → Ghost → Prop) :
    Outcome State R → Prop
  | .blocked => True
  | .halted after => logic.halt after
  | .done after reply => ∃ world', logic.inv after world' ∧
      (∀ other, other ≠ pid → logic.ghost after world' other = logic.ghost state world other) ∧
      post reply (logic.ghost after world' pid)

def Holds (pid : Nat) : Prog Reply α → Ghost → (α → Ghost → Prop) → Prop
  | .ret value, ghost, post => post value ghost
  | .act action next, ghost, post => ∀ state world, logic.inv state world →
      logic.ghost state world pid = ghost → logic.rely state world pid action →
      logic.safe state world pid action ∧ ∀ choice, logic.Ends pid state world
        (fun reply after => Holds pid (next reply) after post) (logic.exec pid action choice state)

variable {logic} {pid : Nat} {ghost : Ghost}

theorem Logic.Ends.mono {state : State} {world : World} {R : Type} {post weaker : R → Ghost → Prop}
    {outcome : Outcome State R} (ends : logic.Ends pid state world post outcome)
    (implies : ∀ reply after, post reply after → weaker reply after) :
    logic.Ends pid state world weaker outcome := by
  cases outcome with
  | blocked => trivial
  | halted after => exact ends
  | done after reply =>
    obtain ⟨world', inv, frame, rest⟩ := ends
    exact ⟨world', inv, frame, implies _ _ rest⟩

theorem Holds.mono {program : Prog Reply α} {post weaker : α → Ghost → Prop}
    (holds : Holds logic pid program ghost post) (implies : ∀ value after, post value after → weaker value after) :
    Holds logic pid program ghost weaker := by
  induction program generalizing ghost with
  | ret value => exact implies _ _ holds
  | act action next ih =>
    intro state world inv here rely
    obtain ⟨safe, ends⟩ := holds state world inv here rely
    exact ⟨safe, fun choice => (ends choice).mono fun reply after => ih reply⟩

theorem Holds.bind {first : Prog Reply β} {rest : β → Prog Reply α} {middle : β → Ghost → Prop}
    {post : α → Ghost → Prop} (holds : Holds logic pid first ghost middle)
    (continues : ∀ value after, middle value after → Holds logic pid (rest value) after post) :
    Holds logic pid (first >>= rest) ghost post := by
  induction first generalizing ghost with
  | ret value => exact continues _ _ holds
  | act action next ih =>
    intro state world inv here rely
    obtain ⟨safe, ends⟩ := holds state world inv here rely
    exact ⟨safe, fun choice => (ends choice).mono fun reply after => ih reply⟩

def Does (logic : Logic State Reply Choice World Ghost) (pid : Nat) (action : Act) (ghost : Ghost)
    (post : Reply action → Ghost → Prop) : Prop :=
  ∀ state world, logic.inv state world → logic.ghost state world pid = ghost →
    logic.rely state world pid action →
    logic.safe state world pid action ∧
      ∀ choice, logic.Ends pid state world post (logic.exec pid action choice state)

theorem Does.holds {action : Act} {post : Reply action → Ghost → Prop}
    (does : Does logic pid action ghost post) : Holds logic pid (perform action) ghost post := does

theorem Does.then {action : Act} {rest : Reply action → Prog Reply α} {middle : Reply action → Ghost → Prop}
    {post : α → Ghost → Prop} (does : Does logic pid action ghost middle)
    (continues : ∀ reply after, middle reply after → Holds logic pid (rest reply) after post) :
    Holds logic pid (perform action >>= rest) ghost post :=
  does.holds.bind continues

section Adequacy

variable {machine} {Idle : Ghost → Prop} {Post : Option Call → Value → Ghost → Prop}
variable {admits : Conf State Reply Call Value → Label Call Choice → Prop}
variable {start conf : Conf State Reply Call Value}

structure Going (logic : Logic State Reply Choice World Ghost) (Idle : Ghost → Prop)
    (Post : Option Call → Value → Ghost → Prop) (conf : Conf State Reply Call Value) (world : World) : Prop where
  inv : logic.inv conf.shared world
  holds : ∀ pid, Holds logic pid (conf.progs pid) (logic.ghost conf.shared world pid)
    fun value ghost => Idle ghost ∧ Post (conf.calls pid) value ghost

theorem Going.idle {world : World} (going : Going logic Idle Post conf world) {value : Value}
    (returned : conf.progs pid = .ret value) :
    Idle (logic.ghost conf.shared world pid) ∧ Post (conf.calls pid) value (logic.ghost conf.shared world pid) := by
  have holds := going.holds pid
  rwa [returned] at holds

theorem Going.safe {world : World} {action : Act} {next : Reply action → Prog Reply Value}
    (going : Going logic Idle Post conf world) (running : conf.progs pid = .act action next)
    (relied : logic.rely conf.shared world pid action) : logic.safe conf.shared world pid action := by
  have holds := going.holds pid
  rw [running] at holds
  exact (holds _ _ going.inv rfl relied).1

variable (same : logic.exec = machine.exec)
variable (halts : ∀ state, logic.halt state → machine.stopped state = true)
variable (bodies : ∀ state world pid c, logic.inv state world → machine.may state pid c = true →
  Idle (logic.ghost state world pid) → Holds logic pid (machine.body pid c) (logic.ghost state world pid)
    fun value ghost => Idle ghost ∧ Post (some c) value ghost)
variable (guards : ∀ conf world pid choice action next, admits conf (.run pid choice) →
  conf.progs pid = .act action next → Going logic Idle Post conf world →
  logic.rely conf.shared world pid action)
include same halts bodies guards

/-- In a run that the guard admits, every process goes on or one of them stopped the system. -/
theorem reaches_holds (reached : Reaches machine.step admits start conf)
    (initial : ∃ world, Going logic Idle Post start world) :
    (∃ world, Going logic Idle Post conf world) ∨
      logic.halt conf.shared ∧ ∃ pid action next, conf.progs pid = .act action next := by
  refine reached.invariant (fun conf => (∃ world, Going logic Idle Post conf world) ∨
    logic.halt conf.shared ∧ ∃ pid action next, conf.progs pid = .act action next) (.inl initial)
    fun before label after before_ok admitted stepped => ?_
  rcases before_ok with ⟨world, going⟩ | halted
  · cases label with
    | call pid c =>
      simp only [Machine.step] at stepped
      split at stepped
      · cases stepped
      obtain ⟨allowed, stepped⟩ := Option.ite_none_right_eq_some.mp stepped
      split at stepped
      · rename_i value returned
        cases stepped
        refine .inl ⟨world, going.inv, fun other => ?_⟩
        obtain rfl | own := eq_or_ne other pid
        · simp only [update_self]
          exact bodies _ _ _ c going.inv allowed (going.idle returned).1
        · simp only [update_of_ne own]
          exact going.holds other
      · cases stepped
    | run pid choice =>
      simp only [Machine.step] at stepped
      split at stepped
      · cases stepped
      split at stepped
      · cases stepped
      rename_i action next running
      have holds := going.holds pid
      rw [running] at holds
      have relied := guards before world pid choice action next admitted running going
      have outcome := (holds _ _ going.inv rfl relied).2 choice
      rw [same] at outcome
      split at stepped
      · cases stepped
      · rename_i ran
        cases stepped
        rw [ran] at outcome
        exact .inr ⟨outcome, pid, action, next, running⟩
      · rename_i ran
        cases stepped
        rw [ran] at outcome
        obtain ⟨world', inv, frame, rest⟩ := outcome
        refine .inl ⟨world', inv, fun other => ?_⟩
        obtain rfl | own := eq_or_ne other pid
        · simp only [update_self]
          exact rest
        · simp only [update_of_ne own, frame other own]
          exact going.holds other
  · have stopped := halts _ halted.1
    cases label with
    | call _ _ | run _ _ => simp [Machine.step, stopped] at stepped

end Adequacy

end Xv6.Lib.Interleave

import Xv6.Proc.Switch

/-!
The protocol of `sleep_prepare`, `sleep` and `wakeup`, over every interleaving of the
machine of the scheduler. `Change` says once what a step can do to the lock-protected
fields of one process; what holds between two calls of `sleep_prepare` follows from it.
-/

namespace Xv6.Sched

open Function
open Xv6.Lib
open Xv6.Procs

variable {Chan : Type} [DecidableEq Chan]

inductive Change (s : State Chan) (p : Nat) : Label Chan → Proc Chan → Prop
  | keep (label : Label Chan) : Change s p label (s.procs p)
  | pick (c : Nat) : (s.procs p).state = .runnable →
      Change s p (c, .pick p) { s.procs p with state := .running }
  | yield (c : Nat) : (s.cpus c).mode = .runs p →
      Change s p (c, .yield) { s.procs p with state := .runnable }
  | kexit (c : Nat) : (s.cpus c).mode = .runs p →
      Change s p (c, .kexit) { s.procs p with state := .zombie }
  | prepare (c : Nat) (chan : Chan) : (s.cpus c).mode = .runs p →
      Change s p (c, .sleepPrepare chan) ((s.procs p).sleepPrepare chan)
  | sleep (c : Nat) : (s.cpus c).mode = .runs p → (s.procs p).chan.isSome →
      Change s p (c, .sleep) { s.procs p with state := .sleeping }
  | wakeup (c : Nat) (chan : Chan) : Change s p (c, .wakeup chan p) ((s.procs p).wakeup chan)
  | kkill (c : Nat) : Change s p (c, .kkill p) (s.procs p).kkill
  | allocproc (c : Nat) (context : Context) : (s.procs p).state = .unused →
      Change s p (c, .allocproc p context) { s.procs p with state := .used }
  | allocFails (c : Nat) : (s.procs p).state = .unused →
      Change s p (c, .allocFails p) (freeproc (s.procs p))
  | start (c q : Nat) : (s.threads q).forking = some p →
      Change s p (c, .start) { s.procs p with state := .runnable }
  | reap (c : Nat) : (s.procs p).state = .zombie →
      Change s p (c, .reap p) (freeproc (s.procs p))

variable {s next : State Chan} {p c q : Nat} {label : Label Chan} {proc : Proc Chan} {action : Action Chan}
variable {chan : Chan}

theorem Change.setProc {target : Nat} (here : p = target → Change s p label proc) :
    Change s p label ((s.setProc target proc).procs p) := by
  by_cases same : p = target
  · simpa [State.setProc, same] using here same
  · simpa [State.setProc, same] using Change.keep label

theorem Change.sched {parked : Parked}
    {state : ProcState} (here : p = q → Change s p label { s.procs q with state := state }) :
    Change s p label ((sched s c q parked state).procs p) := by
  by_cases same : p = q
  · simpa [Sched.sched, same] using here same
  · simpa [Sched.sched, same] using Change.keep label

theorem threadStep_change (p : Nat)
    (runs : (s.cpus c).mode = .runs q) (stepped : threadStep s c q action = some next) :
    Change s p (c, action) (next.procs p) := by
  cases action with
  | pick _ | swtch | release | unlock => simp [threadStep] at stepped
  | compute regs =>
    cases stepped
    exact Change.keep _
  | yield =>
    obtain ⟨_, rfl⟩ := by simpa [threadStep] using stepped
    apply Change.sched
    rintro rfl
    exact Change.yield c runs
  | sleepPrepare chan =>
    obtain ⟨_, rfl⟩ := by simpa [threadStep] using stepped
    apply Change.setProc
    rintro rfl
    exact Change.prepare c chan runs
  | sleep =>
    obtain ⟨_, rfl⟩ := by simpa [threadStep] using stepped
    unfold Sched.sleep
    split
    · rename_i registered
      apply Change.sched
      rintro rfl
      exact Change.sleep c runs registered
    · exact Change.keep _
  | kexit =>
    obtain ⟨_, rfl⟩ := by simpa [threadStep] using stepped
    apply Change.sched
    rintro rfl
    exact Change.kexit c runs
  | wakeup chan target =>
    obtain ⟨_, rfl⟩ := by simpa [threadStep] using stepped
    apply Change.setProc
    rintro rfl
    exact Change.wakeup c chan
  | kkill target =>
    obtain ⟨_, rfl⟩ := by simpa [threadStep] using stepped
    apply Change.setProc
    rintro rfl
    exact Change.kkill c
  | allocproc target context =>
    obtain ⟨⟨_, unused, _⟩, rfl⟩ := by simpa [threadStep] using stepped
    apply Change.setProc
    rintro rfl
    exact Change.allocproc c context unused
  | allocFails target =>
    obtain ⟨⟨_, unused⟩, rfl⟩ := by simpa [threadStep] using stepped
    apply Change.setProc
    rintro rfl
    exact Change.allocFails c unused
  | start =>
    simp only [threadStep] at stepped
    split at stepped
    · rename_i target forking
      obtain ⟨_, rfl⟩ := by simpa using stepped
      apply Change.setProc
      rintro rfl
      exact Change.start c q forking
    · simp at stepped
  | reap target =>
    obtain ⟨⟨_, zombie⟩, rfl⟩ := by simpa [threadStep] using stepped
    apply Change.setProc
    rintro rfl
    exact Change.reap c zombie

theorem step_change (p : Nat) (stepped : step s label = some next) : Change s p label (next.procs p) := by
  obtain ⟨c, action⟩ := label
  obtain ⟨target, rfl, picked⟩ | ⟨rfl, switched⟩ | ⟨rfl, released⟩ | ⟨rfl, unlocked⟩ |
    ⟨q, runs, stepped⟩ | ⟨chan, target, rfl, _, _, rfl⟩ := step_cases stepped
  · unfold Sched.pick at picked
    obtain ⟨⟨_, _, runnable⟩, rfl⟩ := by simpa using picked
    obtain rfl | same := eq_or_ne p target
    · simpa using Change.pick c runnable
    · simpa [same] using Change.keep (s := s) (p := p) (c, .pick target)
  · unfold swtch at switched
    simp only at switched
    split at switched <;> simp only [reduceCtorEq, Option.some.injEq] at switched <;>
      subst switched
    all_goals exact Change.keep _
  · unfold release at released
    split at released
    · obtain ⟨_, rfl⟩ := by simpa using released
      exact Change.keep _
    · simp at released
  · unfold unlock at unlocked
    split at unlocked
    · cases unlocked
      exact Change.keep _
    · simp at unlocked
  · exact threadStep_change p runs stepped
  · apply Change.setProc
    rintro rfl
    exact Change.wakeup c chan

def Prepares (p : Nat) (s : State Chan) (label : Label Chan) : Prop :=
  (s.cpus label.1).mode = .runs p ∧ ∃ chan, label.2 = .sleepPrepare chan

/-- The steps between two calls of `sleep_prepare` by `p` that bring it no wakeup on
`chan` and no kill, while it keeps its slot. -/
def Undisturbed (p : Nat) (chan : Chan) (s : State Chan) (label : Label Chan) : Prop :=
  ¬ Prepares p s label ∧ label.2 ≠ .wakeup chan p ∧ label.2 ≠ .kkill p ∧ label.2 ≠ .reap p

def Woken (proc : Proc Chan) : Prop := proc.chan = none ∧ proc.state ≠ .sleeping

theorem Change.woken (change : Change s p label proc) (quiet : ¬ Prepares p s label)
    (woken : Woken (s.procs p)) : Woken proc := by
  obtain ⟨unregistered, awake⟩ := woken
  cases change with
  | keep => exact ⟨unregistered, awake⟩
  | pick _ _ | yield _ _ | kexit _ _ | allocproc _ _ _ | start _ _ _ =>
    exact ⟨unregistered, by simp⟩
  | prepare c chan runs => exact absurd ⟨runs, chan, rfl⟩ quiet
  | sleep c _ registered => simp [unregistered] at registered
  | wakeup c chan =>
    rw [Proc.wakeup, if_neg (by simp [unregistered])]
    exact ⟨unregistered, awake⟩
  | kkill c => exact ⟨unregistered, by simp [Proc.kkill]⟩
  | allocFails _ _ | reap _ _ => exact ⟨rfl, by simp [freeproc]⟩

theorem Change.registered (change : Change s p label proc) (quiet : ¬ Prepares p s label)
    (registered : (s.procs p).chan = some chan) : proc.chan = some chan ∨ Woken proc := by
  cases change with
  | keep | pick _ _ | yield _ _ | kexit _ _ | sleep _ _ _ | kkill _ | allocproc _ _ _
  | start _ _ _ => exact .inl registered
  | prepare c other runs => exact absurd ⟨runs, other, rfl⟩ quiet
  | wakeup c other =>
    by_cases same : chan = other
    · rw [Proc.wakeup, if_pos (by rw [registered, same])]
      exact .inr ⟨rfl, by simp⟩
    · rw [Proc.wakeup, if_neg (by simpa [registered] using same)]
      exact .inl registered
  | allocFails _ _ | reap _ _ => exact .inr ⟨rfl, by simp [freeproc]⟩

inductive Parks (s next : State Chan) (c p : Nat) : Prop
  | keep : (next.threads p).parked = (s.threads p).parked →
      (∀ d, (next.cpus d).mode = .runs p → (s.cpus d).mode = .runs p) → Parks s next c p
  | resume : (s.cpus c).mode = .entered p → (next.threads p).parked = .no → Parks s next c p
  | leave : (s.cpus c).mode = .runs p → (next.cpus c).mode = .leaveSave p 0 →
      (∀ d, d ≠ c → next.cpus d = s.cpus d) →
      ((next.threads p).parked = .sleep → (next.procs p).state = .sleeping) → Parks s next c p
  | make : (s.procs p).state = .unused → s.lock p = none → next.cpus = s.cpus →
      (next.threads p).parked = .forkret → Parks s next c p

omit [DecidableEq Chan] in
theorem Parks.sched {parked : Parked} {state : ProcState}
    (runs : (s.cpus c).mode = .runs q) (sleeps : parked = .sleep → state = .sleeping) :
    Parks s (sched s c q parked state) c p := by
  obtain rfl | same := eq_or_ne p q
  · refine Parks.leave runs ?_ ?_ ?_
    · simp [Sched.sched, State.setMode]
    · intro d different
      simp [Sched.sched, State.setMode, different]
    · simpa [Sched.sched] using sleeps
  refine Parks.keep ?_ ?_
  · simp [Sched.sched, same]
  · intro d
    by_cases this : d = c
    all_goals simp [Sched.sched, State.setMode, this]

theorem threadStep_parks (p : Nat)
    (runs : (s.cpus c).mode = .runs q) (stepped : threadStep s c q action = some next) :
    Parks s next c p := by
  cases action with
  | pick _ | swtch | release | unlock => simp [threadStep] at stepped
  | compute regs =>
    cases stepped
    refine Parks.keep rfl fun d => ?_
    by_cases this : d = c
    · subst this; simp
    · simp [this]
  | yield | kexit =>
    obtain ⟨_, rfl⟩ := by simpa [threadStep] using stepped
    exact Parks.sched runs (by simp)
  | sleepPrepare _ | wakeup _ _ | kkill _ | allocFails _ | reap _ =>
    obtain ⟨_, rfl⟩ := by simpa [threadStep] using stepped
    exact Parks.keep rfl fun _ => id
  | sleep =>
    obtain ⟨_, rfl⟩ := by simpa [threadStep] using stepped
    unfold Sched.sleep
    split
    · exact Parks.sched runs (by simp)
    · exact Parks.keep rfl fun _ => id
  | allocproc target context =>
    obtain ⟨⟨free, unused, _⟩, rfl⟩ := by simpa [threadStep] using stepped
    obtain rfl | self := eq_or_ne p q
    · exact Parks.keep (by simp) fun _ => id
    · obtain rfl | made := eq_or_ne p target
      · exact Parks.make unused free rfl (by simp [self])
      · exact Parks.keep (by simp [self, made]) fun _ => id
  | start =>
    simp only [threadStep] at stepped
    split at stepped
    · obtain ⟨_, rfl⟩ := by simpa using stepped
      refine Parks.keep ?_ fun _ => id
      by_cases self : p = q
      · subst self; simp
      · simp [self]
    · simp at stepped

theorem step_parks (p : Nat) (stepped : step s (c, action) = some next) : Parks s next c p := by
  obtain ⟨target, rfl, picked⟩ | ⟨rfl, switched⟩ | ⟨rfl, released⟩ | ⟨rfl, unlocked⟩ |
    ⟨q, runs, stepped⟩ | ⟨chan, target, rfl, _, _, rfl⟩ := step_cases stepped
  · unfold Sched.pick at picked
    obtain ⟨_, rfl⟩ := by simpa using picked
    refine Parks.keep rfl fun d => ?_
    by_cases this : d = c
    · simp [this]
    · simp [this]
  · unfold swtch at switched
    simp only at switched
    split at switched <;> simp only [reduceCtorEq, Option.some.injEq] at switched <;>
      subst switched
    all_goals
      rename_i mode
      refine Parks.keep rfl fun d => ?_
      by_cases this : d = c
      · simp only [this, update_self, mode, Mode.next]
        split <;> simp
      · simp [this]
  · unfold release at released
    split at released
    · rename_i q entered
      obtain ⟨_, rfl⟩ := by simpa using released
      obtain rfl | self := eq_or_ne p q
      · exact Parks.resume entered (by simp)
      refine Parks.keep (by simp [self]) fun d => ?_
      by_cases this : d = c
      · simpa [State.setMode, this] using fun same => absurd same.symm self
      · simp [State.setMode, this]
    · simp at released
  · unfold unlock at unlocked
    split at unlocked
    · cases unlocked
      refine Parks.keep rfl fun d => ?_
      by_cases this : d = c
      · simp [this]
      · simp [this]
    · simp at unlocked
  · exact threadStep_parks p runs stepped
  · exact Parks.keep rfl fun _ => id

def Unparked (s : State Chan) : Prop :=
  ∀ d p, (s.cpus d).mode = .runs p → (s.threads p).parked = .no

theorem Unparked.step (unparked : Unparked s)
    (ok : Ok s) (stepped : step s label = some next) : Unparked next := by
  intro d p running
  have okNext := ok.step stepped
  cases step_parks p stepped with
  | keep same before => rw [same, unparked d p (before d running)]
  | resume _ no => exact no
  | leave runs leaves others _ =>
    obtain rfl := okNext.alone d label.1 p (running ▸ rfl) (leaves ▸ rfl)
    simp [leaves] at running
  | make unused free cpus _ =>
    rw [cpus] at running
    have := ok.inside d p (running ▸ rfl)
    simp [unused] at this

def Waiting (p : Nat) (chan : Chan) (s : State Chan) : Prop :=
  (s.procs p).chan = some chan ∧ (s.procs p).state ≠ .unused ∧
    ((s.threads p).parked = .sleep → (s.procs p).state = .sleeping)

theorem Change.waiting (change : Change s p label proc) (ok : Ok s)
    (undisturbed : Undisturbed p chan s label) (registered : (s.procs p).chan = some chan)
    (made : (s.procs p).state ≠ .unused) :
    proc.chan = some chan ∧ proc.state ≠ .unused ∧
      ((s.procs p).state = .sleeping → proc.state = .sleeping) := by
  obtain ⟨quiet, noWakeup, noKill, noReap⟩ := undisturbed
  cases change with
  | keep => exact ⟨registered, made, id⟩
  | pick c runnable => exact ⟨registered, by simp, by simp [runnable]⟩
  | yield c runs | kexit c runs =>
    exact ⟨registered, by simp, by simp [ok.inside c p (runs ▸ rfl)]⟩
  | prepare c other runs => exact absurd ⟨runs, other, rfl⟩ quiet
  | sleep c _ _ => exact ⟨registered, by simp, fun _ => rfl⟩
  | wakeup c other =>
    have different : ¬ (s.procs p).chan = some other := by
      rw [registered]
      rintro same
      cases same
      exact noWakeup rfl
    rw [Proc.wakeup, if_neg different]
    exact ⟨registered, made, id⟩
  | kkill c => exact absurd rfl noKill
  | allocproc _ _ unused | allocFails _ unused => exact absurd unused made
  | start c q forking => exact ⟨registered, by simp, by simp [ok.child q p forking]⟩
  | reap c _ => exact absurd rfl noReap

theorem Waiting.step (waiting : Waiting p chan s) (ok : Ok s) (undisturbed : Undisturbed p chan s label)
    (stepped : step s label = some next) : Waiting p chan next := by
  obtain ⟨registered, made, asleep⟩ := waiting
  obtain ⟨still, exists', sleeps⟩ :=
    (step_change p stepped).waiting ok undisturbed registered made
  refine ⟨still, exists', fun parked => ?_⟩
  cases step_parks p stepped with
  | keep same _ => exact sleeps (asleep (same ▸ parked))
  | resume _ no => simp [no] at parked
  | leave _ _ _ sleeping => exact sleeping parked
  | make unused _ _ _ => exact absurd unused made

end Xv6.Sched

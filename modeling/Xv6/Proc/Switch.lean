import Xv6.Proc.Sched

/-!
A process is on at most one CPU. `Ok` ties the place of each CPU to the lock and the state
of the process it works for: a process that no lock protects is either running, on one CPU,
or on none. `Saved` then says what `p->context` holds at each moment.
-/

namespace Xv6.Sched

open Function Mode
open Xv6.Lib
open Xv6.Procs

variable {Chan : Type}

def Off (state : ProcState) : Prop := state ≠ .running ∧ state ≠ .unused ∧ state ≠ .used

def Idle (state : ProcState) : Prop := state = .unused ∨ state = .used ∨ state = .zombie

structure Ok (s : State Chan) : Prop where
  holder : ∀ c p, s.lock p = some c ↔ (s.cpus c).mode.locked = some p
  proc : ∀ c, (s.cpus c).proc = (s.cpus c).mode.slot
  inside : ∀ c p, (s.cpus c).mode.inside = some p → (s.procs p).state = .running
  outside : ∀ c p, (s.cpus c).mode.slot = some p → (s.cpus c).mode.inside = none →
    Off (s.procs p).state
  alone : ∀ c d p, (s.cpus c).mode.slot = some p → (s.cpus d).mode.slot = some p → c = d
  child : ∀ p t, (s.threads p).forking = some t → (s.procs t).state = .used
  parent : ∀ p q t, (s.threads p).forking = some t → (s.threads q).forking = some t → p = q
  born : ∀ t, Idle (s.procs t).state → (s.threads t).forking = none

variable {mode : Mode} {p : Nat}

theorem Mode.slot_of_locked (held : mode.locked = some p) : mode.slot = some p := by
  cases mode <;> simp_all [Mode.locked, slot]

theorem Mode.slot_of_inside (inside : mode.inside = some p) : mode.slot = some p := by
  cases mode <;> simp_all [Mode.inside, slot]

theorem Mode.slot_cases (has : mode.slot = some p) : mode = .runs p ∨ mode.locked = some p := by
  cases mode <;> simp_all [Mode.locked, slot]

theorem Mode.inside_cases (has : mode.slot = some p) : mode.inside = some p ∨ mode.inside = none := by
  cases mode <;> simp_all [Mode.inside, slot]

@[simp] theorem Mode.next_slot (mode : Mode) : mode.next.slot = mode.slot := by
  cases mode <;> simp only [Mode.next] <;> (try split) <;> rfl

@[simp] theorem Mode.next_locked (mode : Mode) : mode.next.locked = mode.locked := by
  cases mode <;> simp only [Mode.next] <;> (try split) <;> rfl

@[simp] theorem Mode.next_inside (mode : Mode) : mode.next.inside = mode.inside := by
  cases mode <;> simp only [Mode.next] <;> (try split) <;> rfl

theorem boot_ok (regs : Nat → Context) (first : Context) : Ok (boot regs first : State Chan) where
  holder c p := by simp [boot, Mode.locked]
  proc c := rfl
  inside c p := by simp [boot, Mode.inside]
  outside c p := by simp [boot, slot]
  alone c d p := by simp [boot, slot]
  child p t := by simp [boot]
  parent p q t := by simp [boot]
  born t _ := rfl

section Frames

variable {s : State Chan} (ok : Ok s)
include ok

variable {p c : Nat} {proc : Proc Chan} {next : State Chan}

theorem Ok.idle (free : s.lock p = none) (still : (s.procs p).state ≠ .running) (c : Nat) :
    (s.cpus c).mode.slot ≠ some p := by
  intro has
  obtain runs | held := slot_cases has
  · exact still (ok.inside c p (runs ▸ rfl))
  · rw [← ok.holder, free] at held
    simp at held

theorem Ok.setProc (idle : ∀ c, (s.cpus c).mode.slot ≠ some p)
    (forked : ∀ q, (s.threads q).forking = some p → proc.state = .used)
    (born : Idle proc.state → (s.threads p).forking = none) :
    Ok (s.setProc p proc) := by
  have other : ∀ c q, (s.cpus c).mode.slot = some q → (s.setProc p proc).procs q = s.procs q := by
    intro c q has
    have different : q ≠ p := by
      rintro rfl
      exact idle c has
    simp [State.setProc, different]
  refine ⟨ok.holder, ok.proc, ?_, ?_, ok.alone, ?_, ok.parent, ?_⟩
  · intro c q inside
    rw [other c q (slot_of_inside inside)]
    exact ok.inside c q inside
  · intro c q has outside
    rw [other c q has]
    exact ok.outside c q has outside
  · intro q t forking
    obtain rfl | same := eq_or_ne t p
    · simpa [State.setProc] using forked q forking
    · simpa [State.setProc, same] using ok.child q t forking
  · intro t early
    obtain rfl | same := eq_or_ne t p
    · exact born (by simpa [State.setProc] using early)
    · exact ok.born t (by simpa [State.setProc, same] using early)

theorem Ok.visit (free : s.lock p = none) (roused : proc.state = (s.procs p).state ∨
      (s.procs p).state = .sleeping ∧ proc.state = .runnable) : Ok (s.setProc p proc) := by
  obtain kept | ⟨asleep, woken⟩ := roused
  · have same : ∀ q, ((s.setProc p proc).procs q).state = (s.procs q).state := by
      intro q
      obtain rfl | this := eq_or_ne q p
      · simp [State.setProc, kept]
      · simp [State.setProc, this]
    refine ⟨ok.holder, ok.proc, ?_, ?_, ok.alone, ?_, ok.parent, ?_⟩
    · intro c q inside
      rw [same]
      exact ok.inside c q inside
    · intro c q has outside
      rw [same]
      exact ok.outside c q has outside
    · intro q t forking
      rw [same]
      exact ok.child q t forking
    · intro t early
      exact ok.born t (by rwa [same] at early)
  · apply ok.setProc (ok.idle free (by simp [asleep]))
    · intro q forking
      have := ok.child q p forking
      simp [asleep] at this
    · simp [Idle, woken]

theorem Ok.kkill (free : s.lock p = none) : Ok (s.setProc p (s.procs p).kkill) := by
  apply ok.visit free
  unfold Proc.kkill
  cases state : (s.procs p).state <;> simp [ProcState.rouse]

structure Move (s next : State Chan) (c p : Nat) (cpu : Cpu) (proc : Proc Chan) : Prop where
  cpus : next.cpus = update s.cpus c cpu
  procs : next.procs = update s.procs p proc
  lock : next.lock = update s.lock p (if cpu.mode.locked = none then none else some c)
  forking : ∀ q, (next.threads q).forking = (s.threads q).forking
  others : ∀ d, d ≠ c → (s.cpus d).mode.slot ≠ some p
  before : (s.cpus c).mode.locked = none ∨ (s.cpus c).mode.locked = some p
  after : cpu.mode.slot = none ∨ cpu.mode.slot = some p
  field : cpu.proc = cpu.mode.slot
  made : (s.procs p).state ≠ .unused ∧ (s.procs p).state ≠ .used
  inside : cpu.mode.inside = some p → proc.state = .running
  outside : cpu.mode.inside = none → Off proc.state
  exits : proc.state = .zombie → (s.threads p).forking = none

theorem Ok.move {cpu : Cpu} (moved : Move s next c p cpu proc) : Ok next := by
  have others : ∀ d q, d ≠ c → (s.cpus d).mode.slot = some q → q ≠ p := by
    rintro d q different has rfl
    exact moved.others d different has
  have locked : ∀ q, cpu.mode.locked = some q → q = p := by
    intro q held
    have has := slot_of_locked held
    obtain none | this := moved.after
    · simp [none] at has
    · exact Option.some.inj (has.symm.trans this)
  have made : proc.state ≠ .unused ∧ proc.state ≠ .used := by
    by_cases inside : cpu.mode.inside = none
    · exact (moved.outside inside).2
    obtain ⟨q, within⟩ := Option.ne_none_iff_exists'.mp inside
    have has := slot_of_inside within
    obtain none | this := moved.after
    · simp [none] at has
    · obtain rfl := Option.some.inj (has.symm.trans this)
      simp [moved.inside within]
  refine ⟨?_, ?_, ?_, ?_, ?_, ?_, ?_, ?_⟩
  · intro d q
    rw [moved.lock, moved.cpus]
    have old := ok.holder d q
    by_cases sameCpu : d = c <;> by_cases sameProc : q = p
    · subst sameCpu sameProc
      simp only [update_self]
      cases held : cpu.mode.locked with
      | none => simp
      | some r => simp [locked r held]
    · subst sameCpu
      have early : (s.cpus d).mode.locked ≠ some q := by
        obtain none | this := moved.before
        · simp [none]
        · simpa [this] using fun same => sameProc same.symm
      simp only [update_of_ne sameProc, update_self, old, iff_of_false early
        (fun held => sameProc (locked q held))]
    · subst sameProc
      have early : (s.cpus d).mode.locked ≠ some q :=
        fun held => moved.others d sameCpu (slot_of_locked held)
      simp only [update_self, update_of_ne sameCpu, iff_false_right early]
      split <;> simp [Ne.symm sameCpu]
    · simpa [sameCpu, sameProc] using old
  · intro d
    rw [moved.cpus]
    by_cases same : d = c
    · simp [same, moved.field]
    · simpa [same] using ok.proc d
  · intro d q inside
    rw [moved.cpus] at inside
    rw [moved.procs]
    by_cases same : d = c
    · simp only [same, update_self] at inside
      have has := slot_of_inside inside
      obtain none | this := moved.after
      · simp [none] at has
      · obtain rfl := Option.some.inj (has.symm.trans this)
        simpa using moved.inside inside
    · simp only [update_of_ne same] at inside
      simpa [others d q same (slot_of_inside inside)] using ok.inside d q inside
  · intro d q has outside
    rw [moved.cpus] at has outside
    rw [moved.procs]
    by_cases same : d = c
    · simp only [same, update_self] at has outside
      obtain none | this := moved.after
      · simp [none] at has
      · obtain rfl := Option.some.inj (has.symm.trans this)
        simpa using moved.outside outside
    · simp only [update_of_ne same] at has outside
      simpa [others d q same has] using ok.outside d q has outside
  · intro d e q first second
    rw [moved.cpus] at first second
    by_cases sameFirst : d = c <;> by_cases sameSecond : e = c
    · rw [sameFirst, sameSecond]
    · simp only [sameFirst, update_self, update_of_ne sameSecond] at first second
      obtain none | this := moved.after
      · simp [none] at first
      · exact absurd (Option.some.inj (first.symm.trans this)) (others e q sameSecond second)
    · simp only [sameSecond, update_self, update_of_ne sameFirst] at first second
      obtain none | this := moved.after
      · simp [none] at second
      · exact absurd (Option.some.inj (second.symm.trans this)) (others d q sameFirst first)
    · simp only [update_of_ne sameFirst, update_of_ne sameSecond] at first second
      exact ok.alone d e q first second
  · intro q t forking
    rw [moved.forking] at forking
    rw [moved.procs]
    have used := ok.child q t forking
    have different : t ≠ p := by
      rintro rfl
      exact moved.made.2 used
    simpa [different] using used
  · intro q r t first second
    rw [moved.forking] at first second
    exact ok.parent q r t first second
  · intro t early
    rw [moved.procs] at early
    rw [moved.forking]
    obtain rfl | same := eq_or_ne t p
    · simp only [update_self] at early
      obtain unused | used | zombie := early
      · exact absurd unused made.1
      · exact absurd used made.2
      · exact moved.exits zombie
    · exact ok.born t (by simpa [same] using early)

theorem Ok.pick (picked : pick s c p = some next) : Ok next := by
  unfold Sched.pick at picked
  split at picked
  · rename_i found
    obtain ⟨scan, free, runnable⟩ := found
    cases picked
    exact ok.move (c := c) (p := p)
      { cpus := rfl
        procs := rfl
        lock := rfl
        forking := fun _ => rfl
        others := fun d _ => ok.idle free (by simp [runnable]) d
        before := by simp [scan, Mode.locked]
        after := .inr rfl
        field := rfl
        made := by simp [runnable]
        inside := fun _ => rfl
        outside := by simp [Mode.inside]
        exits := by simp }
  · simp at picked

theorem Ok.others (has : (s.cpus c).mode.slot = some p) (d : Nat) (different : d ≠ c) :
    (s.cpus d).mode.slot ≠ some p :=
  fun also => different (ok.alone d c p also has)

theorem Ok.sched {parked : Parked} {state : ProcState} (runs : (s.cpus c).mode = .runs p) (off : Off state)
    (exits : state = .zombie → (s.threads p).forking = none) : Ok (sched s c p parked state) := by
  have running := ok.inside c p (runs ▸ rfl)
  exact ok.move (c := c) (p := p)
    { cpus := rfl
      procs := rfl
      lock := rfl
      forking := by
        intro q
        by_cases same : q = p
        · subst same; simp [Sched.sched]
        · simp [Sched.sched, same]
      others := ok.others (runs ▸ rfl)
      before := by simp [runs, Mode.locked]
      after := .inr rfl
      field := by simp [ok.proc c, runs, slot]
      made := by simp [running]
      inside := by simp [Mode.inside]
      outside := fun _ => off
      exits := exits }

theorem Ok.made (has : (s.cpus c).mode.slot = some p) :
    (s.procs p).state ≠ .unused ∧ (s.procs p).state ≠ .used := by
  obtain inside | outside := inside_cases has
  · simp [ok.inside c p inside]
  · exact (ok.outside c p has outside).2

theorem Ok.release (released : release s c = some next) : Ok next := by
  unfold Sched.release at released
  split at released
  · rename_i p entered
    split at released
    · simp at released
    cases released
    have has : (s.cpus c).mode.slot = some p := by rw [entered]; rfl
    exact ok.move (c := c) (p := p)
      { cpus := rfl
        procs := (update_eq_self p s.procs).symm
        lock := rfl
        forking := by
          intro q
          by_cases same : q = p
          · subst same; simp
          · simp [same]
        others := ok.others has
        before := by simp [entered, Mode.locked]
        after := .inr rfl
        field := by simp [ok.proc c, entered, slot]
        made := ok.made has
        inside := fun _ => ok.inside c p (entered ▸ rfl)
        outside := by simp [Mode.inside]
        exits := fun zombie => ok.born p (.inr (.inr zombie)) }
  · simp at released

theorem Ok.unlock (unlocked : unlock s c = some next) : Ok next := by
  unfold Sched.unlock at unlocked
  split at unlocked
  · rename_i p back
    cases unlocked
    have has : (s.cpus c).mode.slot = some p := by rw [back]; rfl
    exact ok.move (c := c) (p := p)
      { cpus := rfl
        procs := (update_eq_self p s.procs).symm
        lock := rfl
        forking := fun _ => rfl
        others := ok.others has
        before := by simp [back, Mode.locked]
        after := .inl rfl
        field := rfl
        made := ok.made has
        inside := by simp [Mode.inside]
        outside := fun _ => ok.outside c p has (back ▸ rfl)
        exits := fun zombie => ok.born p (.inr (.inr zombie)) }
  · simp at unlocked

theorem Ok.setCpu {cpu : Cpu} (cpus : next.cpus = update s.cpus c cpu) (mode : cpu.mode = (s.cpus c).mode.next)
    (proc : cpu.proc = (s.cpus c).proc) (procs : next.procs = s.procs) (lock : next.lock = s.lock) (threads : next.threads = s.threads) :
    Ok next := by
  have place : ∀ d, (next.cpus d).mode = (s.cpus d).mode ∨
      d = c ∧ (next.cpus d).mode = (s.cpus d).mode.next := by
    intro d
    rw [cpus]
    obtain rfl | same := eq_or_ne d c
    · exact .inr ⟨rfl, by simp [mode]⟩
    · simp [same]
  have slots : ∀ d, (next.cpus d).mode.slot = (s.cpus d).mode.slot := by
    intro d
    obtain this | ⟨_, this⟩ := place d <;> simp [this]
  have locks : ∀ d, (next.cpus d).mode.locked = (s.cpus d).mode.locked := by
    intro d
    obtain this | ⟨_, this⟩ := place d <;> simp [this]
  have insides : ∀ d, (next.cpus d).mode.inside = (s.cpus d).mode.inside := by
    intro d
    obtain this | ⟨_, this⟩ := place d <;> simp [this]
  refine ⟨?_, ?_, ?_, ?_, ?_, ?_, ?_, ?_⟩
  · intro d p
    rw [locks, lock]
    exact ok.holder d p
  · intro d
    rw [slots, ← ok.proc d, cpus]
    by_cases same : d = c
    · subst same; simp [proc]
    · simp [same]
  · intro d p
    rw [insides, procs]
    exact ok.inside d p
  · intro d p
    rw [slots, insides, procs]
    exact ok.outside d p
  · intro d e p
    rw [slots, slots]
    exact ok.alone d e p
  · intro p t
    rw [threads, procs]
    exact ok.child p t
  · intro p q t
    rw [threads]
    exact ok.parent p q t
  · intro t
    rw [threads, procs]
    exact ok.born t

theorem Ok.swtch (switched : swtch s c = some next) : Ok next := by
  unfold Sched.swtch at switched
  simp only at switched
  split at switched <;> simp only [reduceCtorEq, Option.some.injEq] at switched <;> subst switched
  all_goals exact ok.setCpu (c := c) rfl rfl rfl rfl rfl rfl

theorem Ok.allocproc {target : Nat} {context : Context} (free : s.lock target = none)
    (unused : (s.procs target).state = .unused) (single : (s.threads p).forking = none)
    (running : (s.procs p).state = .running) :
    Ok { s.setProc target { s.procs target with state := .used } with
      context := update s.context target context
      threads := update (update s.threads target
          { parked := .forkret, forking := none, image := context })
        p { s.threads p with forking := some target } } := by
  have different : p ≠ target := by
    rintro rfl
    simp [unused] at running
  have fresh : ∀ q, (s.threads q).forking ≠ some target := by
    intro q forking
    have := ok.child q target forking
    simp [unused] at this
  have base : Ok (s.setProc target { s.procs target with state := .used }) := by
    apply ok.setProc (ok.idle free (by simp [unused]))
    · intro q forking
      exact absurd forking (fresh q)
    · intro _
      exact ok.born target (.inl unused)
  have forkings : ∀ q, ((update (update s.threads target
      { parked := .forkret, forking := none, image := context })
      p { s.threads p with forking := some target }) q).forking =
      if q = p then some target else (s.threads q).forking := by
    intro q
    by_cases here : q = p
    · simp [here]
    · obtain rfl | new := eq_or_ne q target
      · simp [here, ok.born q (.inl unused)]
      · simp [here, new]
  refine ⟨base.holder, base.proc, base.inside, base.outside, base.alone, ?_, ?_, ?_⟩
  · intro q t forking
    rw [forkings] at forking
    split at forking
    · cases forking
      simp [State.setProc]
    · exact base.child q t forking
  · intro q r t first second
    rw [forkings] at first second
    split at first <;> split at second
    · rename_i here there
      rw [here, there]
    · cases first
      exact absurd second (fresh r)
    · cases second
      exact absurd first (fresh q)
    · exact ok.parent q r t first second
  · intro t early
    have old := base.born t early
    have other : t ≠ p := by
      rintro rfl
      simp [State.setProc, different, running, Idle] at early
    rw [forkings, if_neg other]
    exact old

theorem Ok.start {target : Nat} (forking : (s.threads p).forking = some target) (free : s.lock target = none) :
    Ok { s.setProc target { s.procs target with state := .runnable } with
      threads := update s.threads p { s.threads p with forking := none } } := by
  have used := ok.child p target forking
  have idle := ok.idle free (by simp [used])
  have forkings : ∀ q, ((update s.threads p { s.threads p with forking := none }) q).forking =
      if q = p then none else (s.threads q).forking := by
    intro q
    by_cases here : q = p
    · simp [here]
    · simp [here]
  have other : ∀ c q, (s.cpus c).mode.slot = some q → q ≠ target := by
    rintro c q has rfl
    exact idle c has
  refine ⟨ok.holder, ok.proc, ?_, ?_, ok.alone, ?_, ?_, ?_⟩
  · intro c q inside
    simpa [State.setProc, other c q (slot_of_inside inside)] using ok.inside c q inside
  · intro c q has outside
    simpa [State.setProc, other c q has] using ok.outside c q has outside
  · intro q t also
    rw [forkings] at also
    split at also
    · simp at also
    rename_i elsewhere
    have different : t ≠ target := by
      rintro rfl
      exact elsewhere (ok.parent q p t also forking)
    simpa [State.setProc, different] using ok.child q t also
  · intro q r t first second
    rw [forkings] at first second
    split at first <;> split at second <;> simp_all
    exact ok.parent q r t first second
  · intro t early
    rw [forkings]
    split
    · rfl
    · by_cases same : t = target
      · simp [State.setProc, same, Idle] at early
      · exact ok.born t (by simpa [State.setProc, same] using early)

variable [DecidableEq Chan]

theorem Ok.wakeup (chan : Chan) (free : s.lock p = none) : Ok (s.setProc p ((s.procs p).wakeup chan)) := by
  apply ok.visit free
  unfold Proc.wakeup
  split
  · cases state : (s.procs p).state <;> simp [ProcState.rouse]
  · exact .inl rfl

theorem Ok.threadStep {action : Action Chan}
    (runs : (s.cpus c).mode = .runs p) (stepped : threadStep s c p action = some next) :
    Ok next := by
  have running := ok.inside c p (runs ▸ rfl)
  cases action with
  | pick _ | swtch | release | unlock => simp [Sched.threadStep] at stepped
  | compute regs =>
    cases stepped
    exact ok.setCpu (c := c) rfl (runs ▸ rfl) rfl rfl rfl rfl
  | yield =>
    obtain ⟨_, rfl⟩ := by simpa [Sched.threadStep] using stepped
    exact ok.sched runs (by simp [Off]) (by simp)
  | sleepPrepare chan =>
    obtain ⟨free, rfl⟩ := by simpa [Sched.threadStep] using stepped
    exact ok.visit free (.inl rfl)
  | sleep =>
    obtain ⟨_, rfl⟩ := by simpa [Sched.threadStep] using stepped
    unfold Sched.sleep
    split
    · exact ok.sched runs (by simp [Off]) (by simp)
    · exact ok
  | kexit =>
    obtain ⟨⟨_, single⟩, rfl⟩ := by simpa [Sched.threadStep] using stepped
    exact ok.sched runs (by simp [Off]) (fun _ => single)
  | wakeup chan target =>
    obtain ⟨free, rfl⟩ := by simpa [Sched.threadStep] using stepped
    exact ok.wakeup chan free
  | kkill target =>
    obtain ⟨free, rfl⟩ := by simpa [Sched.threadStep] using stepped
    exact ok.kkill free
  | allocproc target context =>
    obtain ⟨⟨free, unused, single⟩, rfl⟩ := by simpa [Sched.threadStep] using stepped
    exact ok.allocproc free unused single running
  | allocFails target =>
    obtain ⟨⟨free, unused⟩, rfl⟩ := by simpa [Sched.threadStep] using stepped
    apply ok.setProc (ok.idle free (by simp [unused]))
    · intro q forking
      have := ok.child q target forking
      simp [unused] at this
    · intro _
      exact ok.born target (.inl unused)
  | start =>
    simp only [Sched.threadStep] at stepped
    split at stepped
    · rename_i target forking
      split at stepped
      · rename_i free
        cases stepped
        exact ok.start forking free
      · simp at stepped
    · simp at stepped
  | reap target =>
    obtain ⟨⟨free, zombie⟩, rfl⟩ := by simpa [Sched.threadStep] using stepped
    apply ok.setProc (ok.idle free (by simp [zombie]))
    · intro q forking
      have := ok.child q target forking
      simp [zombie] at this
    · intro _
      exact ok.born target (.inr (.inr zombie))

theorem Ok.step {label : Label Chan} (stepped : step s label = some next) : Ok next := by
  obtain ⟨c, action⟩ := label
  obtain ⟨p, rfl, picked⟩ | ⟨rfl, switched⟩ | ⟨rfl, released⟩ | ⟨rfl, unlocked⟩ |
    ⟨p, runs, stepped⟩ | ⟨chan, target, rfl, _, free, rfl⟩ := step_cases stepped
  · exact ok.pick picked
  · exact ok.swtch switched
  · exact ok.release released
  · exact ok.unlock unlocked
  · exact ok.threadStep runs stepped
  · exact ok.wakeup chan free

end Frames

section Registers

def State.image (s : State Chan) (p : Nat) : Context := (s.threads p).image

/-- How far a CPU is in `swtch`, against the registers that the thread of the process
had when it last called `swtch`. -/
def Fits (cpu : Cpu) (context image : Nat → Context) : Prop :=
  match cpu.mode with
  | .leaveSave p reg => cpu.regs = image p ∧ ∀ r < reg, context p r = image p r
  | .enterLoad p reg => ∀ r < reg, cpu.regs r = image p r
  | .entered p => ∀ r < contextSize, cpu.regs r = image p r
  | _ => True

structure Saved (s : State Chan) : Prop where
  fits : ∀ c, Fits (s.cpus c) s.context s.image
  whole : ∀ p, (∀ c reg, (s.cpus c).mode ≠ .leaveSave p reg) →
    ∀ r < contextSize, s.context p r = s.image p r

theorem boot_saved (regs : Nat → Context) (first : Context) :
    Saved (boot regs first : State Chan) where
  fits _ := trivial
  whole _ _ _ _ := rfl

theorem Fits.congr {cpu : Cpu} {context image newContext newImage : Nat → Context}
    (fits : Fits cpu context image)
    (same : ∀ p, cpu.mode.slot = some p → newContext p = context p ∧ newImage p = image p) :
    Fits cpu newContext newImage := by
  unfold Fits at fits ⊢
  split
  · rename_i p reg mode
    obtain ⟨contexts, images⟩ := same p (mode ▸ rfl)
    rw [contexts, images]
    simpa only [mode] using fits
  · rename_i p reg mode
    rw [(same p (mode ▸ rfl)).2]
    simpa only [mode] using fits
  · rename_i p mode
    rw [(same p (mode ▸ rfl)).2]
    simpa only [mode] using fits
  · trivial

variable {s : State Chan} (saved : Saved s)
include saved

variable {next : State Chan} {c : Nat}

theorem Saved.move {p : Nat} (cpus : ∀ d, d ≠ c → next.cpus d = s.cpus d)
    (others : ∀ d, d ≠ c → (s.cpus d).mode.slot ≠ some p)
    (rest : ∀ q, q ≠ p → next.context q = s.context q ∧ next.image q = s.image q)
    (here : ∀ q reg, (s.cpus c).mode = .leaveSave q reg → q = p)
    (fits : Fits (next.cpus c) next.context next.image)
    (whole : (∀ reg, (next.cpus c).mode ≠ .leaveSave p reg) →
      ∀ r < contextSize, next.context p r = next.image p r) : Saved next := by
  constructor
  · intro d
    by_cases same : d = c
    · rw [same]
      exact fits
    rw [cpus d same]
    refine (saved.fits d).congr fun q has => rest q ?_
    rintro rfl
    exact others d same has
  · intro q nobody
    obtain rfl | same := eq_or_ne q p
    · exact whole (nobody c)
    rw [(rest q same).1, (rest q same).2]
    refine saved.whole q fun d reg mode => ?_
    obtain rfl | this := eq_or_ne d c
    · exact same (here q reg mode)
    · exact nobody d reg (by rw [cpus d this, mode])

theorem Saved.keep (cpus : ∀ d, d ≠ c → next.cpus d = s.cpus d)
    (contexts : next.context = s.context) (images : next.image = s.image)
    (away : ∀ q reg, (s.cpus c).mode ≠ .leaveSave q reg)
    (fits : Fits (next.cpus c) next.context next.image) : Saved next := by
  constructor
  · intro d
    by_cases same : d = c
    · rw [same]
      exact fits
    · rw [cpus d same, contexts, images]
      exact saved.fits d
  intro q nobody
  rw [contexts, images]
  refine saved.whole q fun d reg mode => ?_
  obtain rfl | this := eq_or_ne d c
  · exact away q reg mode
  · exact nobody d reg (by rw [cpus d this, mode])

theorem Saved.sched {p : Nat} {parked : Parked} {state : ProcState} (ok : Ok s)
    (runs : (s.cpus c).mode = .runs p) : Saved (sched s c p parked state) := by
  apply saved.move (c := c) (p := p)
  · intro d different
    simp [Sched.sched, State.setMode, different]
  · exact ok.others (runs ▸ rfl)
  · intro q different
    simp [Sched.sched, State.setMode, State.image, different]
  · intro q reg mode
    simp [runs] at mode
  · simp [Fits, Sched.sched, State.setMode, State.image]
  · intro away
    exact absurd (by simp [Sched.sched, State.setMode]) (away 0)

theorem Saved.swtch (ok : Ok s) (switched : swtch s c = some next) : Saved next := by
  have fits := saved.fits c
  unfold Sched.swtch at switched
  simp only at switched
  split at switched <;> simp only [reduceCtorEq, Option.some.injEq] at switched <;> subst switched
  · rename_i p reg mode
    refine saved.keep (c := c) (fun d different => by simp [different]) rfl rfl (by simp [mode]) ?_
    simp only [update_self, mode, Mode.next]
    split <;> simp [Fits]
  · rename_i p reg mode
    simp only [Fits, mode] at fits
    refine saved.keep (c := c) (fun d different => by simp [different]) rfl rfl (by simp [mode]) ?_
    have whole := saved.whole p fun d r leaving => by
      obtain rfl := ok.alone d c p (leaving ▸ rfl) (mode ▸ rfl)
      simp [mode] at leaving
    have further : ∀ r < reg + 1, r < contextSize →
        update (s.cpus c).regs reg (s.context p reg) r = s.image p r := by
      intro r below within
      obtain rfl | same := eq_or_ne r reg
      · simpa using whole r within
      · simpa [same] using fits r (by omega)
    simp only [update_self, mode, Mode.next]
    split
    · exact fun r below => further r below (by omega)
    · exact fun r below => further r (by omega) below
  · rename_i p reg mode
    simp only [Fits, mode] at fits
    obtain ⟨registers, done⟩ := fits
    have further : ∀ r < reg + 1,
        update (s.context p) reg ((s.cpus c).regs reg) r = s.image p r := by
      intro r below
      obtain rfl | same := eq_or_ne r reg
      · simp [registers]
      · simpa [same] using done r (by omega)
    apply saved.move (c := c) (p := p)
    · intro d different
      simp [different]
    · exact ok.others (mode ▸ rfl)
    · intro q different
      simp [different, State.image]
    · intro q r leaving
      rw [mode] at leaving
      simp_all
    · simp only [update_self, mode, Mode.next]
      split
      · exact ⟨registers, by simpa [State.image] using further⟩
      · trivial
    · intro away r below
      simp only [update_self, mode, Mode.next] at away ⊢
      split at away
      · exact absurd rfl (away (reg + 1))
      · exact further r (by omega)
  · rename_i p reg mode
    refine saved.keep (c := c) (fun d different => by simp [different]) rfl rfl (by simp [mode]) ?_
    simp only [update_self, mode, Mode.next]
    split <;> simp [Fits]

variable [DecidableEq Chan]

theorem Saved.threadStep {p : Nat} {action : Action Chan} (ok : Ok s)
    (runs : (s.cpus c).mode = .runs p) (stepped : threadStep s c p action = some next) :
    Saved next := by
  have away : ∀ q reg, (s.cpus c).mode ≠ .leaveSave q reg := by simp [runs]
  have still : Fits (s.cpus c) s.context s.image := saved.fits c
  cases action with
  | pick _ | swtch | release | unlock => simp [Sched.threadStep] at stepped
  | compute regs =>
    cases stepped
    exact saved.keep (c := c) (fun d different => by simp [different]) rfl rfl away
      (by simp [Fits, runs])
  | yield | kexit =>
    obtain ⟨_, rfl⟩ := by simpa [Sched.threadStep] using stepped
    exact saved.sched ok runs
  | sleepPrepare _ | wakeup _ _ | kkill _ | allocFails _ | reap _ =>
    obtain ⟨_, rfl⟩ := by simpa [Sched.threadStep] using stepped
    exact ⟨saved.fits, saved.whole⟩
  | sleep =>
    obtain ⟨_, rfl⟩ := by simpa [Sched.threadStep] using stepped
    unfold Sched.sleep
    split
    · exact saved.sched ok runs
    · exact saved
  | allocproc target context =>
    obtain ⟨⟨free, unused, single⟩, rfl⟩ := by simpa [Sched.threadStep] using stepped
    have running := ok.inside c p (runs ▸ rfl)
    have different : target ≠ p := by
      rintro rfl
      simp [unused] at running
    have idle := ok.idle free (by simp [unused])
    refine saved.move (c := c) (p := target) (fun d _ => rfl) (fun d _ => idle d) ?_ ?_ ?_ ?_
    · intro q other
      obtain rfl | self := eq_or_ne q p
      · simp [State.image, other]
      · simp [State.image, other, self]
    · intro q reg mode
      exact absurd mode (away q reg)
    · simp [Fits, State.setProc, runs]
    · intro _ r _
      simp [State.image, different]
  | start =>
    simp only [Sched.threadStep] at stepped
    split at stepped
    · split at stepped
      · cases stepped
        have images : ∀ q, ((update s.threads p { s.threads p with forking := none }) q).image =
            (s.threads q).image := by
          intro q
          by_cases same : q = p
          · subst same; simp
          · simp [same]
        exact saved.keep (c := c) (fun _ _ => rfl) rfl (funext images) away
          (by simp [Fits, State.setProc, runs])
      · simp at stepped
    · simp at stepped

theorem Saved.step {label : Label Chan} (ok : Ok s) (stepped : step s label = some next) : Saved next := by
  obtain ⟨c, action⟩ := label
  obtain ⟨p, rfl, picked⟩ | ⟨rfl, switched⟩ | ⟨rfl, released⟩ | ⟨rfl, unlocked⟩ |
    ⟨p, runs, stepped⟩ | ⟨chan, target, rfl, _, _, rfl⟩ := step_cases stepped
  · unfold pick at picked
    obtain ⟨⟨scan, _, _⟩, rfl⟩ := by simpa using picked
    exact saved.keep (c := c) (fun d different => by simp [different]) rfl rfl (by simp [scan])
      (by simp [Fits])
  · exact saved.swtch ok switched
  · unfold release at released
    split at released
    · rename_i p entered
      obtain ⟨_, rfl⟩ := by simpa using released
      have images : ∀ q, ((update s.threads p { s.threads p with parked := .no }) q).image =
          (s.threads q).image := by
        intro q
        by_cases same : q = p
        · subst same; simp
        · simp [same]
      exact saved.keep (c := c) (fun d different => by simp [State.setMode, different]) rfl
        (funext images) (by simp [entered]) (by simp [Fits, State.setMode])
    · simp at released
  · unfold unlock at unlocked
    split at unlocked
    · rename_i p back
      cases unlocked
      exact saved.keep (c := c) (fun d different => by simp [different]) rfl rfl (by simp [back])
        (by simp [Fits])
    · simp at unlocked
  · exact saved.threadStep ok runs stepped
  · exact ⟨saved.fits, saved.whole⟩

end Registers

variable [DecidableEq Chan]

theorem reaches_ok {regs : Nat → Context} {first : Context} {admits : State Chan → Label Chan → Prop}
    {s : State Chan} (reached : Reaches step admits (boot regs first) s) : Ok s ∧ Saved s := by
  apply reached.invariant (fun s => Ok s ∧ Saved s) ⟨boot_ok regs first, boot_saved regs first⟩
  intro s label next held _ stepped
  exact ⟨held.1.step stepped, held.2.step held.1 stepped⟩

/-- No two CPUs have the same process in `c->proc`; while a CPU is in `swtch` on its way
into a process no CPU is storing into `p->context`, and what it loads from there is what
the thread's last call of `swtch` stored, all of it. -/
theorem proc_on_one_cpu {regs : Nat → Context} {first : Context} {s : State Chan}
    (reached : Reaches step (fun _ _ => True) (boot regs first) s) :
    (∀ c d p, (s.cpus c).proc = some p → (s.cpus d).proc = some p → c = d) ∧
    (∀ c p reg, (s.cpus c).mode = .enterSave p reg ∨ (s.cpus c).mode = .enterLoad p reg →
      (∀ d done, (s.cpus d).mode ≠ .leaveSave p done) ∧
      ∀ r < contextSize, s.context p r = (s.threads p).image r) := by
  obtain ⟨ok, saved⟩ := reaches_ok reached
  constructor
  · intro c d p first second
    rw [ok.proc] at first second
    exact ok.alone c d p first second
  intro c p reg entering
  have has : (s.cpus c).mode.slot = some p := by
    obtain mode | mode := entering <;> rw [mode] <;> rfl
  have nobody : ∀ d done, (s.cpus d).mode ≠ .leaveSave p done := by
    intro d done leaving
    obtain rfl := ok.alone d c p (leaving ▸ rfl) has
    simp [leaving] at entering
  exact ⟨nobody, saved.whole p nobody⟩

theorem proc_on_one_cpu_moved : ∃ s : State Unit,
    Reaches step (fun _ _ => True) (boot (fun _ _ => 0) fun _ => 0) s ∧
    (s.cpus 1).mode = .enterSave 0 0 ∧ (∀ d done, (s.cpus d).mode ≠ .leaveSave 0 done) ∧
    ∀ r < contextSize, s.context 0 r = (s.threads 0).image r := by
  let moves : List (Label Unit) := List.replicate 28 (0, .swtch)
  obtain ⟨s, reached, entering⟩ := reaches_seen (show
    (runLabels step (boot (fun _ _ => 0) fun _ => 0 : State Unit)
      ((0, .pick 0) :: moves ++ (0, .release) :: (0, .yield) :: moves ++
        [(0, .unlock), (1, .pick 0)])).map (fun s => (s.cpus 1).mode) =
      some (.enterSave 0 0) by decide +kernel)
  exact ⟨s, reached, entering, (proc_on_one_cpu reached).2 1 0 0 (.inl entering)⟩

end Xv6.Sched

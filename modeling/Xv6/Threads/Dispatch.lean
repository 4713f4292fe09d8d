import Xv6.Threads.Safety

/-!
Which thread `thread_schedule` takes. Every call starts its scan at slot 0, and slots are
filled from below, so the threads in slots 0 and 1 take turns and every other thread waits
for ever.
-/

namespace Xv6.Threads

open Xv6.Lib List ThreadPool Option

variable {i k : Nat} {j slot : Slot}

variable {pool : ThreadPool} {mem : Nat → UInt8} {world next : World} {label : Label}

def World.waits (pool : ThreadPool) (world : World) (slot : Slot) : Prop :=
  pool.estadoThread world.machine.mem slot = EstadoThread.listaParaCorrer.code

instance (slot : Slot) : Decidable (world.waits pool slot) := inferInstanceAs (Decidable (_ = _))

def dispatch (pool : ThreadPool) (world : World) : Label → Option Slot
  | .threadSchedule _ => (pool.pickThreads world.machine.mem).map Prod.fst
  | .compute _ _ _ | .threadCreate _ => none

def Label.schedules : Label → Bool
  | .threadSchedule _ => true
  | .compute _ _ _ | .threadCreate _ => false

theorem mem_visited {i : Slot} {visited rest : List Slot} (split : ThreadPool.slots = visited ++ i :: rest)
    (below : j < i) : j ∈ visited := by
  have sorted : (visited ++ i :: rest).Pairwise (· < ·) := split ▸ pairwise_lt_finRange maxThreads
  have member : j ∈ visited ++ i :: rest := split ▸ mem_finRange j
  rcases mem_append.mp member with early | late
  · exact early
  rcases mem_cons.mp late with same | after
  · exact absurd same (ne_of_lt below)
  · have later := rel_of_pairwise_cons (pairwise_append.mp sorted).2.1 after
    exact absurd later (asymm below)

theorem firstInState_first {estado : EstadoThread} {i : Slot} (found : pool.firstInState mem estado = some i)
    (below : j < i) : pool.estadoThread mem j ≠ estado.code := by
  obtain ⟨_, visited, rest, split, skipped⟩ := List.find?_eq_some_iff_append.mp found
  simpa using skipped j (mem_visited split below)

theorem pickThreads_first {i x : Slot} (picked : pool.pickThreads mem = some (i, x)) (below : j < i) :
    pool.estadoThread mem j ≠ EstadoThread.listaParaCorrer.code := by
  intro waiting
  obtain ⟨visited, found, rest, split, here, skipped⟩ := List.findSome?_eq_some_iff.mp picked
  have current := (pickThreads_some picked).2
  have same : found = i := by
    split at here
    · obtain ⟨_, _, same⟩ := map_eq_some_iff.mp here
      exact congrArg Prod.fst same
    · cases here
  subst same
  have none := skipped j (mem_visited split below)
  rw [if_pos waiting, map_eq_none_iff, firstInState, List.find?_eq_none] at none
  exact none x (mem_finRange x) (by simpa using current)

theorem pickThreads_isSome {i x : Slot} (waiting : pool.estadoThread mem i = EstadoThread.listaParaCorrer.code)
    (running : pool.estadoThread mem x = EstadoThread.corriendo.code) : (pool.pickThreads mem).isSome := by
  rw [pickThreads, List.findSome?_isSome_iff]
  refine ⟨i, mem_finRange i, ?_⟩
  rw [if_pos waiting, isSome_map, firstInState, List.find?_isSome]
  exact ⟨x, mem_finRange x, by simpa using running⟩

structure Order (pool : ThreadPool) (world : World) : Prop where
  running : ∀ slot, pool.estadoThread world.machine.mem slot = EstadoThread.corriendo.code ↔ slot = world.owner
  owner : world.owner < 2
  states : ∀ slot, slot ≠ world.owner → pool.estadoThread world.machine.mem slot = EstadoThread.libre.code ∨
    world.waits pool slot
  filled : ∀ i j, i ≤ j → pool.estadoThread world.machine.mem i = EstadoThread.libre.code →
    pool.estadoThread world.machine.mem j = EstadoThread.libre.code

def turn (slot : Slot) : Slot := if slot = 0 then 1 else 0

theorem turn_lt (slot : Slot) : turn slot < 2 := by
  revert slot
  decide

theorem turn_of_lt {other : Slot} (low : slot < 2) (also : other < 2) (different : other ≠ slot) :
    other = turn slot := by
  revert slot other
  decide

section Order

variable (order : Order pool world)
include order

theorem Order.waits_turn (waiting : world.waits pool slot) : world.waits pool (turn world.owner) := by
  have other : turn world.owner ≠ world.owner := by
    have low := order.owner
    generalize world.owner = owner at low
    revert owner
    decide
  rcases order.states _ other with free | waits
  · -- a free slot is not below the owner, and then the waiting slot is free as well
    have first : world.owner = 0 := by
      by_contra second
      have below : turn world.owner ≤ world.owner := by
        rw [turn, if_neg second]
        exact Fin.zero_le _
      have owned := (order.running world.owner).mpr rfl
      rw [order.filled _ _ below free] at owned
      cases owned
    have self : slot ≠ 0 := by
      rintro rfl
      have owned := (order.running 0).mpr first.symm
      rw [World.waits, owned] at waiting
      cases waiting
    have above : turn world.owner ≤ slot := by
      rw [turn, if_pos first]
      exact Fin.one_le_of_ne_zero self
    have empty := order.filled _ _ above free
    rw [World.waits, empty] at waiting
    cases waiting
  · exact waits

theorem Order.dispatch_turn (dispatched : dispatch pool world label = some slot) : slot = turn world.owner := by
  cases label with
  | compute | threadCreate => cases dispatched
  | threadSchedule regs =>
    obtain ⟨⟨i, x⟩, picked, rfl⟩ := map_eq_some_iff.mp dispatched
    have waiting := (pickThreads_some picked).1
    have least : ¬ turn world.owner < i := fun below =>
      pickThreads_first picked below (order.waits_turn waiting)
    have other : i ≠ world.owner := by
      rintro rfl
      rw [(order.running world.owner).mpr rfl] at waiting
      cases waiting
    have low : i < 2 := lt_of_le_of_lt (not_lt.mp least) (turn_lt _)
    exact turn_of_lt order.owner low other

theorem Order.dispatches (waiting : world.waits pool slot) (schedules : label.schedules = true) :
    dispatch pool world label = some (turn world.owner) := by
  cases label with
  | compute | threadCreate => cases schedules
  | threadSchedule regs =>
    obtain ⟨pair, picked⟩ := isSome_iff_exists.mp
      (pickThreads_isSome waiting ((order.running world.owner).mpr rfl))
    have dispatched : dispatch pool world (.threadSchedule regs) = some pair.1 := by
      rw [dispatch, picked, map_some]
    rw [dispatched, order.dispatch_turn dispatched]

theorem Order.third_waits (high : 2 ≤ slot) (waiting : world.waits pool slot) : world.waits pool 2 := by
  rcases order.states 2 (ne_of_gt order.owner) with free | waits
  · rw [World.waits, order.filled 2 slot high free] at waiting
    cases waiting
  · exact waits

end Order

theorem schedules_of_dispatch (dispatched : dispatch pool world label = some slot) : label.schedules = true := by
  cases label with
  | compute | threadCreate => cases dispatched
  | threadSchedule regs => rfl

inductive Changed (pool : ThreadPool) (world : World) (label : Label) (next : World) : Prop
  | kept (none : dispatch pool world label = none) (owner : next.owner = world.owner)
      (estados : ∀ slot, pool.estadoThread next.machine.mem slot = pool.estadoThread world.machine.mem slot)
  | made (free : Slot) (none : dispatch pool world label = none) (creates : label.schedules = false)
      (first : pool.firstInState world.machine.mem .libre = some free) (owner : next.owner = world.owner)
      (estados : ∀ slot, pool.estadoThread next.machine.mem slot =
        if slot = free then EstadoThread.listaParaCorrer.code else pool.estadoThread world.machine.mem slot)
  | switched (i : Slot) (some : dispatch pool world label = some i) (owner : next.owner = i)
      (waiting : world.waits pool i)
      (estados : ∀ slot, pool.estadoThread next.machine.mem slot =
        if slot = world.owner then EstadoThread.listaParaCorrer.code
        else if slot = i then EstadoThread.corriendo.code else pool.estadoThread world.machine.mem slot)

theorem step_changed (order : Order pool world) (stepped : step pool world label = some next) :
    Changed pool world label next := by
  cases label with
  | compute regs pc writes =>
    obtain ⟨allowed, stepped⟩ := ite_none_right_eq_some.mp stepped
    cases stepped
    exact .kept rfl rfl (estadoThread_writeBytes
      (fun write found => all_eq_true.mp allowed write found) world.machine.mem)
  | threadCreate funcion =>
    rw [step] at stepped
    cases stepped
    cases first : pool.firstInState world.machine.mem .libre with
    | none =>
      refine .kept rfl rfl fun slot => ?_
      simp only [ThreadPool.threadCreate, first]
    | some free =>
      refine .made free rfl rfl first rfl fun slot => ?_
      simp only [ThreadPool.threadCreate, first]
      exact estadoThread_fillSlot _ free slot funcion
  | threadSchedule regs =>
    cases picked : pool.pickThreads world.machine.mem with
    | none =>
      simp only [step, ThreadPool.threadSchedule, picked] at stepped
      cases stepped
      exact .kept (by rw [dispatch, picked, map_none]) rfl fun _ => rfl
    | some pair =>
      obtain ⟨i, x⟩ := pair
      rw [step_threadSchedule picked] at stepped
      cases stepped
      have states := pickThreads_some picked
      have owner := (order.running x).mp states.2
      subst owner
      exact .switched i (by rw [dispatch, picked, map_some]) rfl states.1
        (handedOver_switchTo pool { world.machine with regs := regs } i world.owner).estados

theorem order_initial (initial : World.Initial pool world) : Order pool world := by
  have estados := estados_initial initial
  have owner := initial.owner
  refine ⟨fun slot => ?_, ?_, fun slot other => ?_, fun i j below empty => ?_⟩
  · rw [estados, owner]
    split
    · rename_i same
      exact ⟨fun _ => same, fun _ => rfl⟩
    · rename_i different
      exact ⟨nofun, fun same => absurd same different⟩
  · rw [owner]
    decide
  · rw [owner] at other
    rw [estados, if_neg other]
    exact .inl rfl
  · rw [estados] at empty ⊢
    split at empty
    · cases empty
    rename_i different
    have above : j ≠ 0 := ne_of_gt (lt_of_lt_of_le (Fin.pos_of_ne_zero different) below)
    rw [if_neg above]
    rfl

theorem order_step (order : Order pool world) (stepped : step pool world label = some next) : Order pool next := by
  cases step_changed order stepped with
  | kept none owner estados =>
    refine ⟨fun slot => ?_, owner ▸ order.owner, fun slot => ?_, fun i j => ?_⟩
    · rw [estados, owner]
      exact order.running slot
    · rw [World.waits, estados, owner]
      exact order.states slot
    · rw [estados, estados]
      exact order.filled i j
  | made free none creates first owner estados =>
    have idle := firstInState_some first
    refine ⟨fun slot => ?_, owner ▸ order.owner, fun slot other => ?_, fun i j below => ?_⟩
    · rw [estados, owner, ← order.running slot]
      split
      · rename_i same
        rw [same, idle]
        decide
      · rfl
    · rw [World.waits, estados]
      rw [owner] at other
      split
      · exact .inr rfl
      · exact order.states slot other
    · rw [estados, estados]
      intro empty
      split at empty
      · cases empty
      rename_i different
      rw [if_neg ?_]
      · exact order.filled i j below empty
      · rintro rfl
        exact firstInState_first first (lt_of_le_of_ne below different) empty
  | switched i some owner waiting estados =>
    have turns := order.dispatch_turn some
    have other : i ≠ world.owner := by
      rintro rfl
      rw [World.waits, (order.running world.owner).mpr rfl] at waiting
      cases waiting
    refine ⟨fun slot => ?_, ?_, fun slot different => ?_, fun a b below => ?_⟩
    · rw [estados, owner]
      split
      · rename_i same
        rw [same]
        exact ⟨nofun, fun same => absurd same.symm other⟩
      split
      · rename_i same
        exact ⟨fun _ => same, fun _ => rfl⟩
      · rename_i old new
        rw [order.running]
        exact ⟨fun same => absurd same old, fun same => absurd same new⟩
    · rw [owner, turns]
      exact turn_lt _
    · rw [World.waits, estados]
      split
      · exact .inr rfl
      rename_i old
      rw [owner] at different
      rw [if_neg different]
      exact order.states slot old
    · rw [estados, estados]
      intro empty
      split at empty
      · cases empty
      split at empty
      · cases empty
      have free := order.filled a b below empty
      rw [if_neg ?_, if_neg ?_]
      · exact free
      · rintro rfl
        rw [World.waits, free] at waiting
        cases waiting
      · intro same
        rw [same, (order.running world.owner).mpr rfl] at free
        cases free

theorem owner_step (order : Order pool world) (stepped : step pool world label = some next) :
    next.owner = (dispatch pool world label).getD world.owner := by
  cases step_changed order stepped with
  | kept none owner _ | made _ none _ _ owner _ => rw [none, owner, getD_none]
  | switched i some owner waiting estados => rw [some, owner, getD_some]

theorem Order.dispatch_ne_owner (order : Order pool world) (dispatched : dispatch pool world label = some slot) :
    slot ≠ world.owner := by
  have turns := order.dispatch_turn dispatched
  have low := order.owner
  subst turns
  generalize world.owner = owner at low
  revert owner
  decide

theorem waits_dispatch (order : Order pool world) (stepped : step pool world label = some next) {i : Slot}
    (dispatched : dispatch pool world label = some i) (high : 2 ≤ slot) :
    next.waits pool slot ↔ world.waits pool slot := by
  cases step_changed order stepped with
  | kept none | made _ none => rw [none] at dispatched; cases dispatched
  | switched j some owner waiting estados =>
    have low := turn_lt world.owner
    rw [← order.dispatch_turn some] at low
    have old : slot ≠ world.owner := ne_of_gt (lt_of_lt_of_le order.owner high)
    have new : slot ≠ j := ne_of_gt (lt_of_lt_of_le low high)
    rw [World.waits, World.waits, estados, if_neg old, if_neg new]

theorem waits_step (order : Order pool world) (stepped : step pool world label = some next) (high : 2 ≤ slot)
    (waiting : world.waits pool slot) : next.waits pool slot := by
  cases step_changed order stepped with
  | kept none owner estados => rwa [World.waits, estados]
  | made free none creates first owner estados =>
    rw [World.waits, estados]
    split
    · rfl
    · exact waiting
  | switched i some => exact (waits_dispatch order stepped some high).mpr waiting

structure Run (pool : ThreadPool) (n : Nat) where
  world : Nat → World
  label : Nat → Label
  initial : World.Initial pool (world 0)
  steps : ∀ i < n, step pool (world i) (label i) = some (world (i + 1))

namespace Run

variable {n : Nat} (run : Run pool n)

def dispatched (i : Nat) : Option Slot := dispatch pool (run.world i) (run.label i)

/-- Between two dispatches of a thread, every thread that waited all the time was dispatched. -/
def NonePassedOver : Prop :=
  ∀ i k slot, i < k → k < n → run.dispatched i = some slot → run.dispatched k = some slot →
    (∀ j, i < j → j < k → run.dispatched j ≠ some slot) →
    ∀ other, (∀ j, i < j → j ≤ k → (run.world j).waits pool other) → ∃ j, i < j ∧ j < k ∧ run.dispatched j = some other

def crowded : Finset Nat :=
  (Finset.range n).filter fun i => (run.label i).schedules = true ∧ (run.world i).waits pool 2

variable {run}

theorem order (inside : i ≤ n) : Order pool (run.world i) := by
  induction i with
  | zero => exact order_initial run.initial
  | succ i ih => exact order_step (ih (Nat.le_of_succ_le inside)) (run.steps i inside)

theorem waits_later (before : i ≤ k) (inside : k ≤ n) (high : 2 ≤ slot) (waiting : (run.world i).waits pool slot) :
    (run.world k).waits pool slot := by
  induction k, before using Nat.le_induction with
  | base => exact waiting
  | succ k _ ih =>
    have earlier := ih (Nat.le_of_succ_le inside)
    exact waits_step (order (Nat.le_of_succ_le inside)) (run.steps k inside) high earlier

theorem dispatched_turn (inside : i < n) (dispatched : run.dispatched i = some slot) :
    slot = turn (run.world i).owner :=
  (order inside.le).dispatch_turn dispatched

theorem owner_succ (inside : i < n) : (run.world (i + 1)).owner = (run.dispatched i).getD (run.world i).owner :=
  owner_step (order inside.le) (run.steps i inside)

theorem owner_kept (before : i ≤ k) (inside : k ≤ n)
    (quiet : ∀ j, i ≤ j → j < k → run.dispatched j ≠ some (turn (run.world i).owner)) :
    (run.world k).owner = (run.world i).owner := by
  induction k, before using Nat.le_induction with
  | base => rfl
  | succ k first ih =>
    have same := ih (Nat.le_of_succ_le inside) fun j low high => quiet j low (Nat.lt_succ_of_lt high)
    rw [owner_succ inside]
    cases dispatched : run.dispatched k with
    | none => exact same
    | some slot =>
      have turns := dispatched_turn inside dispatched
      rw [same] at turns
      exact absurd (turns ▸ dispatched) (quiet k first (Nat.lt_succ_self k))

theorem turn_between (before : i < k) (inside : k < n) (first : run.dispatched i = some slot)
    (second : run.dispatched k = some slot) : ∃ j, i < j ∧ j < k ∧ run.dispatched j = some (turn slot) := by
  by_contra none
  have owner : (run.world (i + 1)).owner = slot := by
    rw [owner_succ (before.trans inside), first, getD_some]
  have kept : (run.world k).owner = (run.world (i + 1)).owner := by
    refine owner_kept before inside.le fun j low high dispatched => ?_
    rw [owner] at dispatched
    exact none ⟨j, low, high, dispatched⟩
  refine (order inside.le).dispatch_ne_owner second ?_
  rw [kept, owner]

theorem crowded_dispatched (member : i ∈ run.crowded) :
    i < n ∧ run.dispatched i = some (turn (run.world i).owner) ∧ (run.world i).waits pool 2 := by
  obtain ⟨inside, schedules, waiting⟩ := Finset.mem_filter.mp member
  have low := Finset.mem_range.mp inside
  exact ⟨low, (order low.le).dispatches waiting schedules, waiting⟩

theorem exists_three {s : Finset Nat} (many : 2 < s.card) : ∃ i j k, i ∈ s ∧ j ∈ s ∧ k ∈ s ∧ i < j ∧ j < k := by
  have some : s.Nonempty := Finset.card_pos.mp (by omega)
  obtain ⟨j, member, low, high⟩ : ∃ j ∈ s, j ≠ s.min' some ∧ j ≠ s.max' some := by
    have ends : ({s.min' some, s.max' some} : Finset Nat).card < s.card :=
      lt_of_le_of_lt Finset.card_le_two many
    obtain ⟨j, member, out⟩ := Finset.exists_mem_notMem_of_card_lt_card ends
    simp only [Finset.mem_insert, Finset.mem_singleton, not_or] at out
    exact ⟨j, member, out⟩
  exact ⟨s.min' some, j, s.max' some, s.min'_mem some, member, s.max'_mem some,
    lt_of_le_of_ne (s.min'_le j member) low.symm, lt_of_le_of_ne (s.le_max' j member) high⟩

theorem dispatched_again {j : Nat} (one : i ∈ run.crowded) (two : j ∈ run.crowded) (three : k ∈ run.crowded)
    (before : i < j) (after : j < k) : ∃ l, i < l ∧ l ≤ k ∧ run.dispatched l = some (turn (run.world i).owner) := by
  obtain ⟨low, first, _⟩ := crowded_dispatched one
  obtain ⟨middle, second, _⟩ := crowded_dispatched two
  obtain ⟨high, third, _⟩ := crowded_dispatched three
  by_contra none
  have owner : (run.world (i + 1)).owner = turn (run.world i).owner := by rw [owner_succ low, first, getD_some]
  have different : turn (run.world j).owner ≠ turn (run.world i).owner := by
    intro same
    rw [same] at second
    exact none ⟨j, before, after.le, second⟩
  have back : turn (turn (run.world j).owner) = turn (run.world i).owner :=
    (turn_of_lt (turn_lt _) (turn_lt _) different.symm).symm
  have taken : (run.world (j + 1)).owner = turn (run.world j).owner := by
    rw [owner_succ middle, second, getD_some]
  have kept : (run.world k).owner = (run.world (j + 1)).owner := by
    refine owner_kept after high.le fun l first last dispatched => ?_
    rw [taken, back] at dispatched
    exact none ⟨l, by omega, last.le, dispatched⟩
  rw [kept, taken, back] at third
  exact none ⟨k, by omega, Nat.le_refl k, third⟩

/-- No thread is passed over twice exactly if there are at most two calls of `thread_schedule`
with a third thread in the pool. -/
theorem nonePassedOver_iff (run : Run pool n) : run.NonePassedOver ↔ run.crowded.card ≤ 2 := by
  constructor
  · intro fair
    by_contra many
    obtain ⟨i, j, k, one, two, three, before, after⟩ := exists_three (not_le.mp many)
    obtain ⟨low, first, waiting⟩ := crowded_dispatched one
    have again := dispatched_again one two three before after
    obtain ⟨later, bound, second⟩ := Nat.find_spec again
    have inside : Nat.find again < n := lt_of_le_of_lt bound (crowded_dispatched three).1
    obtain ⟨l, _, small, dispatched⟩ := fair i (Nat.find again) _ later inside first second
      (fun l small large same => Nat.find_min again large ⟨small, by omega, same⟩)
      2 fun l small large => waits_later small.le (by omega) (le_refl _) waiting
    have turns := dispatched_turn (small.trans inside) dispatched
    have low := turn_lt (run.world l).owner
    rw [← turns] at low
    exact absurd low (lt_irrefl _)
  · intro few i k slot before inside first second _ other waiting
    obtain ⟨j, small, large, between⟩ := turn_between before inside first second
    refine ⟨j, small, large, between.trans (congrArg some ?_)⟩
    have low := before.trans inside
    have owner : (run.world (i + 1)).owner = slot := by rw [owner_succ low, first, getD_some]
    have waits := waiting (i + 1) (Nat.lt_succ_self i) before
    by_cases high : 2 ≤ other
    · -- then the three dispatches are made with a third thread in the pool
      have third := (order low.le).third_waits high
        ((waits_dispatch (order low.le) (run.steps i low) first high).mp waits)
      have crowd : ∀ l slot, i ≤ l → l ≤ k → run.dispatched l = some slot → l ∈ run.crowded := by
        intro l slot from_i to_k dispatched
        refine Finset.mem_filter.mpr ⟨Finset.mem_range.mpr (by omega), schedules_of_dispatch dispatched, ?_⟩
        exact waits_later from_i (by omega) (le_refl _) third
      have three := Finset.two_lt_card_iff.mpr ⟨i, j, k, crowd i _ (le_refl i) before.le first,
        crowd j _ small.le large.le between, crowd k _ before.le (le_refl k) second,
        small.ne, before.ne, large.ne⟩
      omega
    · have different : other ≠ slot := by
        rintro rfl
        rw [World.waits, ((order low).running other).mpr owner.symm] at waits
        cases waits
      have turns := dispatched_turn low first
      exact (turn_of_lt (turns ▸ turn_lt _) (not_le.mp high) different).symm

def starving (i : Nat) : Label := if i < 2 then .threadCreate 256 else .threadSchedule fun _ => 7

def starvingWorld : Nat → World
  | 0 => initialWorld
  | i + 1 => (step lowPool (starvingWorld i) (starving i)).getD initialWorld

theorem starvingWorld_step (i : Nat) (inside : i < 5) :
    step lowPool (starvingWorld i) (starving i) = some (starvingWorld (i + 1)) := by
  have enabled : (step lowPool (starvingWorld i) (starving i)).isSome := by
    revert i
    decide +kernel
  obtain ⟨next, stepped⟩ := isSome_iff_exists.mp enabled
  rw [starvingWorld, stepped, getD_some]

def starvingRun : Run lowPool 5 where
  world := starvingWorld
  label := starving
  initial := ⟨⟨fun _ => 0, rfl, fun _ _ _ => rfl⟩, rfl⟩
  steps := starvingWorld_step

theorem third_passed_over : ¬ starvingRun.NonePassedOver := by
  intro fair
  obtain ⟨j, after, before, dispatched⟩ := fair 2 4 1 (by decide) (by decide) (by decide +kernel) (by decide +kernel)
    (fun j after before => by
      obtain rfl : j = 3 := by omega
      decide +kernel)
    2 (fun j after before => by
      obtain rfl | rfl : j = 3 ∨ j = 4 := by omega
      · decide +kernel
      · decide +kernel)
  obtain rfl : j = 3 := by omega
  revert dispatched
  decide +kernel

/-- A thread in a slot above 1 is never dispatched, and once it waits it waits for ever. -/
theorem high_slots_starve (run : Run pool n) (high : 2 ≤ slot) : (∀ j < n, run.dispatched j ≠ some slot) ∧
    ∀ i k, i ≤ k → k ≤ n → (run.world i).waits pool slot → (run.world k).waits pool slot := by
  refine ⟨fun j inside dispatched => ?_, fun i k before inside => waits_later before inside high⟩
  have turns := dispatched_turn inside dispatched
  exact absurd (turns ▸ turn_lt _) (not_lt.mpr high)

theorem high_slots_starve_run : (starvingRun.world 5).waits lowPool 2 :=
  (high_slots_starve starvingRun le_rfl).2 2 5 (by decide) le_rfl (by decide +kernel)

end Run

end Xv6.Threads

import Xv6.Log.Atomic

/-!
The space that `begin_op` reserves. Each running operation may still log as many new blocks
as its share leaves, and the log has room for all of them together. The test for a full log
comes before the search for the block, though, and refuses a block that is in the log
already.
-/

namespace Xv6.Log

open Xv6.Lib Xv6.Lib.RedoLog List Option

def blocksOf (op : Nat) (updates : List Update) : Finset Nat :=
  ((updatesBy op updates).map Update.blockno).toFinset

/-- Every operation logs at most `MAXOPBLOCKS` different blocks. -/
def Within (world : World) : Label → Prop
  | .logWrite op blockno _ => (insert blockno (blocksOf op world.issued)).card ≤ maxOpBlocks
  | _ => True

instance (world : World) (label : Label) : Decidable (Within world label) :=
  match label with
  | .logWrite op blockno _ =>
    inferInstanceAs (Decidable ((insert blockno (blocksOf op world.issued)).card ≤ maxOpBlocks))
  | .beginOp | .endOp _ | .advance | .bread _ | .evict _ | .crash => inferInstanceAs (Decidable True)

def slack (updates : List Update) (op : Nat) : Nat := maxOpBlocks - (blocksOf op updates).card

structure Budget (world : World) : Prop where
  room : world.lh.length ≤ logBlocks
  reserve : world.phase = .idle →
    world.lh.length + (world.active.map (slack world.current)).sum ≤ logBlocks

variable {start : Nat} {init : Nat → Block} {world next : World}

variable {op blockno : Nat} {data : Block}

theorem mem_blocksOf {updates : List Update} :
    blockno ∈ blocksOf op updates ↔ ∃ update ∈ updates, update.op = op ∧ update.blockno = blockno := by
  simp [blocksOf, updatesBy, and_assoc]

theorem blocksOf_append (updates : List Update) (update : Update) :
    blocksOf update.op (updates ++ [update]) = insert update.blockno (blocksOf update.op updates) := by
  ext blockno
  simp only [mem_blocksOf, Finset.mem_insert, mem_append, mem_singleton]
  constructor
  · rintro ⟨logged, old | rfl, same, here⟩
    · exact .inr ⟨logged, old, same, here⟩
    · exact .inl here.symm
  · rintro (rfl | ⟨logged, old, same, here⟩)
    · exact ⟨update, .inr rfl, rfl, rfl⟩
    · exact ⟨logged, .inl old, same, here⟩

theorem slack_append_le (updates : List Update) (update : Update) (op : Nat) :
    slack (updates ++ [update]) op ≤ slack updates op := by
  apply Nat.sub_le_sub_left
  apply Finset.card_le_card
  intro blockno found
  obtain ⟨logged, old, same, here⟩ := mem_blocksOf.mp found
  exact mem_blocksOf.mpr ⟨logged, mem_append_left _ old, same, here⟩

theorem slack_append_lt {updates : List Update} (update : Update)
    (fresh : update.blockno ∉ blocksOf update.op updates)
    (within : (insert update.blockno (blocksOf update.op updates)).card ≤ maxOpBlocks) :
    slack (updates ++ [update]) update.op < slack updates update.op := by
  rw [Finset.card_insert_of_notMem fresh] at within
  rw [slack, slack, blocksOf_append, Finset.card_insert_of_notMem fresh]
  omega

theorem slack_sum_le (updates : List Update) (ops : List Nat) :
    (ops.map (slack updates)).sum ≤ ops.length * maxOpBlocks := by
  have share : ∀ part ∈ ops.map (slack updates), part ≤ maxOpBlocks := by
    intro part found
    obtain ⟨op, _, rfl⟩ := mem_map.mp found
    exact Nat.sub_le _ _
  simpa using sum_le_card_nsmul _ _ share

theorem budget_beginOp (inv : Inv start init world) (budget : Budget world)
    (stepped : beginOp world = some next) : Budget next := by
  obtain ⟨⟨serving, free, fits⟩, stepped⟩ := ite_none_right_eq_some.mp stepped
  cases stepped
  have idle := inv.idle_of_open serving (by simpa using free)
  have phase := inv.phase
  rw [idle] at phase
  refine ⟨budget.room, fun _ => ?_⟩
  have shares := slack_sum_le world.current (world.nextOp :: world.active)
  rw [length_cons, ← phase.2.2] at shares
  dsimp only
  omega

theorem budget_endOp (budget : Budget world) (inv : Inv start init world)
    (stepped : endOp world op = some next) : Budget next := by
  simp only [endOp] at stepped
  obtain ⟨⟨serving, running⟩, stepped⟩ := ite_none_right_eq_some.mp stepped
  have reserve := budget.reserve (inv.idle_of_active serving running)
  have shares := sum_map_erase (slack world.current) running
  split at stepped
  · cases stepped
    exact ⟨budget.room, fun idle => by cases idle⟩
  split at stepped
  all_goals
    cases stepped
    refine ⟨budget.room, fun _ => ?_⟩
    dsimp only
    omega

theorem Budget.fresh (inv : Inv start init world)
    (accounted : Accounted world) (budget : Budget world) (idle : world.phase = .idle)
    (running : op ∈ world.active) (within : Within world (.logWrite op blockno data))
    (fresh : blockno ∉ world.lh) :
    world.lh.length + (world.active.map (slack (world.current ++ [⟨op, blockno, data⟩]))).sum < logBlocks := by
  have reserve := budget.reserve idle
  have phase := inv.phase
  have group := accounted.group
  rw [idle] at phase group
  have unlogged : blockno ∉ blocksOf op world.current := by
    intro found
    obtain ⟨update, old, _, rfl⟩ := mem_blocksOf.mp found
    exact fresh (phase.1.noted update old)
  have allowed : (insert blockno (blocksOf op world.current)).card ≤ maxOpBlocks := by
    rw [blocksOf, ← (group.1 op (.inl running)).2]
    exact within
  have less : slack (world.current ++ [⟨op, blockno, data⟩]) op < slack world.current op :=
    slack_append_lt ⟨op, blockno, data⟩ unlogged allowed
  have shares := sum_lt_sum (l := world.active) _ _
    (fun other _ => slack_append_le world.current ⟨op, blockno, data⟩ other) ⟨op, running, less⟩
  omega

theorem budget_logWrite (inv : Inv start init world) (accounted : Accounted world) (budget : Budget world)
    (within : Within world (.logWrite op blockno data))
    (stepped : logWrite start world op blockno data = some next) : Budget next := by
  obtain ⟨⟨serving, running, home, small⟩, stepped⟩ := ite_none_right_eq_some.mp stepped
  have idle := inv.idle_of_active serving running
  have reserve := budget.reserve idle
  split at stepped
  · cases stepped
    exact ⟨budget.room, fun other => by cases other⟩
  split at stepped
  · cases stepped
    refine ⟨budget.room, fun _ => ?_⟩
    have shares := sum_le_sum (l := world.active)
      fun other _ => slack_append_le world.current ⟨op, blockno, data⟩ other
    dsimp only
    omega
  rename_i fresh
  cases stepped
  have paid := budget.fresh inv accounted idle running within fresh
  refine ⟨?_, fun _ => ?_⟩
  · dsimp only
    rw [length_append, length_singleton]
    omega
  · dsimp only [bpin]
    rw [length_append, length_singleton]
    omega

theorem Inv.room (inv : Inv start init world) (started : world.phase ≠ .readHead)
    (running : world.phase ≠ .panicked) : world.lh.length ≤ logBlocks := by
  have phase := inv.phase
  have fits := inv.recoverable.fits
  cases here : world.phase with
  | idle | writeLog _ | writeHead | finish =>
    rw [here] at phase
    exact phase.1.room
  | installTrans tail =>
    rw [here] at phase
    exact phase.1.head ▸ fits
  | clearHead =>
    rw [here] at phase
    rw [phase.1.lh]
    exact Nat.zero_le _
  | recoverTrans tail =>
    rw [here] at phase
    rw [phase.2.1]
    exact fits
  | recoverClear =>
    rw [here] at phase
    rw [phase.2.1]
    exact Nat.zero_le _
  | readHead => exact absurd here started
  | panicked => exact absurd here running

theorem advance_phase (stepped : advance start world = some next) :
    next.phase ≠ .readHead ∧ next.phase ≠ .panicked ∧ (next.phase = .idle →
      (world.phase = .finish ∨ world.phase = .recoverClear) ∧ next.lh = world.lh ∧
        next.active = world.active) := by
  simp only [advance] at stepped
  split at stepped
  case h_5 here =>
      cases stepped
      exact ⟨by simp, by simp, fun _ => ⟨.inl here, rfl, rfl⟩⟩
  case h_8 here =>
      cases stepped
      exact ⟨by simp, by simp, fun _ => ⟨.inr here, rfl, rfl⟩⟩
  -- the other positions lead to the next one of the same commit or recovery
  all_goals
    first
    | cases stepped
      done
    | cases stepped
      exact ⟨by simp, by simp, by simp⟩
    | split at stepped <;> obtain rfl := Option.some.inj stepped <;> exact ⟨by simp, by simp, by simp⟩

theorem budget_advance (inv : Inv start init world) (stepped : advance start world = some next) :
    Budget next := by
  obtain ⟨started, running, quiet⟩ := advance_phase stepped
  refine ⟨(inv_advance inv stepped).room started running, fun idle => ?_⟩
  have phase := inv.phase
  obtain ⟨finish | clear, lh, active⟩ := quiet idle
  · rw [finish] at phase
    rw [lh, active, phase.2.1, phase.2.2.active]
    exact Nat.zero_le _
  · rw [clear] at phase
    rw [lh, active, phase.2.1, phase.1.active]
    exact Nat.zero_le _

theorem budget_step {label : Label} (inv : Inv start init world) (accounted : Accounted world)
    (budget : Budget world) (within : Within world label) (stepped : step start world label = some next) :
    Budget next := by
  cases label with
  | beginOp => exact budget_beginOp inv budget stepped
  | logWrite op blockno data => exact budget_logWrite inv accounted budget within stepped
  | endOp op => exact budget_endOp budget inv stepped
  | advance => exact budget_advance inv stepped
  | bread blockno =>
    cases stepped
    exact ⟨budget.room, budget.reserve⟩
  | evict blockno =>
    simp only [step] at stepped
    split at stepped
    · cases stepped
      exact ⟨budget.room, budget.reserve⟩
    · cases stepped
  | crash =>
    cases stepped
    exact ⟨Nat.zero_le _, fun idle => by cases idle⟩

theorem reached_budget {disk : Nat → Block} (empty : decodeHead (disk start) = [])
    (reached : Reaches (step start) Within (World.boot disk) world) :
    Inv start disk world ∧ Accounted world ∧ Budget world := by
  refine reached.invariant (fun world => Inv start disk world ∧ Accounted world ∧ Budget world)
    ⟨inv_boot empty, accounted_boot disk, Nat.zero_le _, fun idle => by cases idle⟩ ?_
  rintro state label next ⟨inv, accounted, budget⟩ within stepped
  exact ⟨inv_step inv stepped, accounted_step inv accounted stepped,
    budget_step inv accounted budget within stepped⟩

theorem logWrite_full (inv : Inv start init world) (accounted : Accounted world) (budget : Budget world)
    (within : Within world (.logWrite op blockno data))
    (stepped : logWrite start world op blockno data = some next) :
    (next.phase = .panicked ↔ world.lh.length = logBlocks) ∧ 1 ≤ world.outstanding ∧
      (world.lh.length = logBlocks → blockno ∈ world.lh) := by
  obtain ⟨⟨serving, running, home, small⟩, stepped⟩ := ite_none_right_eq_some.mp stepped
  have idle := inv.idle_of_active serving running
  have phase := inv.phase
  rw [idle] at phase
  have counted : 1 ≤ world.outstanding := by
    rw [phase.2.2]
    exact length_pos_of_mem running
  have known : world.lh.length = logBlocks → blockno ∈ world.lh := by
    intro full
    by_contra fresh
    have paid := budget.fresh inv accounted idle running within fresh
    omega
  refine ⟨⟨fun panics => ?_, fun full => ?_⟩, counted, known⟩
  · by_contra notFull
    have room := budget.room
    rw [if_neg (by omega)] at stepped
    split at stepped
    all_goals
      cases stepped
      exact absurd (idle.symm.trans panics) (by simp)
  · rw [if_pos (by omega)] at stepped
    cases stepped
    rfl

theorem step_running {label : Label} (inv : Inv start init world) (running : world.phase ≠ .panicked)
    (other : ∀ op blockno data, label ≠ .logWrite op blockno data)
    (stepped : step start world label = some next) : next.phase ≠ .panicked := by
  cases label with
  | beginOp =>
    simp only [step, beginOp] at stepped
    split at stepped
    · cases stepped
      exact running
    · cases stepped
  | logWrite op blockno data => exact absurd rfl (other op blockno data)
  | endOp op =>
    obtain ⟨admitted, stepped⟩ := ite_none_right_eq_some.mp stepped
    have idle := inv.idle_of_active admitted.1 admitted.2
    have phase := inv.phase
    rw [idle] at phase
    rw [if_neg (by simp [phase.2.1])] at stepped
    split at stepped
    · cases stepped
      dsimp only
      split <;> simp
    · cases stepped
      exact running
  | advance => exact (advance_phase stepped).2.1
  | bread blockno =>
    cases stepped
    exact running
  | evict blockno =>
    simp only [step] at stepped
    split at stepped
    · cases stepped
      exact running
    · cases stepped
  | crash =>
    cases stepped
    simp [crash]

/-- The log never outgrows its blocks, and the only step that panics is a `log_write` that
finds the log exactly full; it is of a block that the log has already. -/
theorem log_reservation {disk : Nat → Block} (empty : decodeHead (disk start) = [])
    (reached : Reaches (step start) Within (World.boot disk) world) :
    world.lh.length ≤ logBlocks ∧
    ∀ label next, world.phase ≠ .panicked → Within world label → step start world label = some next →
      (next.phase = .panicked ↔
        ∃ op blockno data, label = .logWrite op blockno data ∧ world.lh.length = logBlocks) ∧
      ∀ op blockno data, label = .logWrite op blockno data →
        1 ≤ world.outstanding ∧ (world.lh.length = logBlocks → blockno ∈ world.lh) := by
  obtain ⟨inv, accounted, budget⟩ := reached_budget empty reached
  refine ⟨budget.room, fun label next running within stepped => ⟨⟨fun panics => ?_, ?_⟩, ?_⟩⟩
  · by_contra none
    cases label with
    | logWrite op blockno data =>
      have full := (logWrite_full inv accounted budget within stepped).1.mp panics
      exact none ⟨op, blockno, data, rfl, full⟩
    | _ => exact step_running inv running (by simp) stepped panics
  · rintro ⟨op, blockno, data, rfl, full⟩
    exact (logWrite_full inv accounted budget within stepped).1.mpr full
  · rintro op blockno data rfl
    exact (logWrite_full inv accounted budget within stepped).2

def oneWrite : List Label :=
  [.advance, .advance, .advance, .beginOp, .logWrite 0 100 fun _ => 7]

theorem log_reservation_one_write :
    ∃ world next, Reaches (step 2) Within (World.boot fun _ _ => 0) world ∧ world.lh = [100] ∧
      step 2 world (.logWrite 0 100 fun _ => 8) = some next ∧ next.phase ≠ .panicked := by
  obtain ⟨world, reached, seen⟩ := reaches_within
    (show (runWithin Within (step 2) (World.boot fun _ _ => 0) oneWrite).map (fun world => (world.phase, world.lh,
        (step 2 world (.logWrite 0 100 fun _ => 8)).isSome,
        decide (Within world (.logWrite 0 100 fun _ => 8)))) =
        some (.idle, [100], true, true) by decide +kernel)
  simp only [Prod.mk.injEq, decide_eq_true_eq] at seen
  obtain ⟨idle, lh, enabled, within⟩ := seen
  obtain ⟨next, stepped⟩ := isSome_iff_exists.mp enabled
  refine ⟨world, next, reached, lh, stepped, fun panics => ?_⟩
  have outcome := (log_reservation (by decide) reached).2 _ next (by simp [idle]) within stepped
  obtain ⟨_, _, _, _, full⟩ := outcome.1.mp panics
  rw [lh] at full
  exact absurd full (by decide)

def fullLog : List Label :=
  [Label.advance, .advance, .advance, .beginOp, .beginOp, .beginOp] ++
    (List.range 30).map fun k => Label.logWrite (k / 10) (100 + k) fun _ => 7

theorem full_log_panics :
    ∃ world next, Reaches (step 2) Within (World.boot fun _ _ => 0) world ∧
      Within world (.logWrite 0 100 fun _ => 8) ∧
      step 2 world (.logWrite 0 100 fun _ => 8) = some next ∧
      world.lh.length = logBlocks ∧ 100 ∈ world.lh ∧ next.phase = .panicked := by
  obtain ⟨world, reached, seen⟩ := reaches_within
    (show (runWithin Within (step 2) (World.boot fun _ _ => 0) fullLog).map (fun world => (world.lh.length, decide (100 ∈ world.lh),
        decide (Within world (.logWrite 0 100 fun _ => 8)),
        (step 2 world (.logWrite 0 100 fun _ => 8)).map World.phase)) =
        some (logBlocks, true, true, some .panicked) by decide +kernel)
  simp only [Prod.mk.injEq, decide_eq_true_eq, map_eq_some_iff] at seen
  obtain ⟨full, known, within, next, stepped, panics⟩ := seen
  exact ⟨world, next, reached, within, stepped, full, known, panics⟩

end Xv6.Log

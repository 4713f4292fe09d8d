import Xv6.Log.Crash

/-!
Which operation's updates are in which group. An operation's updates all fall into the
group that is open while it runs, because a group is committed only when no operation
is running; so a commit takes all of them or none.
-/

namespace Xv6.Log

open Xv6.Lib Xv6.Lib.RedoLog List

def updatesBy (op : Nat) (updates : List Update) : List Update :=
  updates.filter fun update => update.op = op

theorem updatesBy_append (op : Nat) (first second : List Update) :
    updatesBy op (first ++ second) = updatesBy op first ++ updatesBy op second :=
  filter_append _ _

theorem updatesBy_eq_nil {op : Nat} {updates : List Update}
    (absent : ∀ update ∈ updates, update.op ≠ op) : updatesBy op updates = [] := by
  refine filter_eq_nil_iff.mpr fun update found => ?_
  simpa using absent update found

theorem updatesBy_append_other {op : Nat} {update : Update} (updates : List Update)
    (different : update.op ≠ op) : updatesBy op (updates ++ [update]) = updatesBy op updates := by
  have alone : updatesBy op [update] = [] := updatesBy_eq_nil (by simpa using different)
  rw [updatesBy_append, alone, append_nil]

def GroupInv (world : World) : Phase → Prop
  | .idle | .writeLog _ | .writeHead =>
    (∀ op, op ∈ world.active ∨ op ∈ world.ended →
      updatesBy op world.groups.flatten = [] ∧
        updatesBy op world.issued = updatesBy op world.current) ∧
    ∀ update ∈ world.current, update.op ∈ world.active ∨ update.op ∈ world.ended
  | .installTrans _ | .clearHead | .finish =>
    ∀ op ∈ world.ended, updatesBy op world.groups.flatten = updatesBy op world.issued
  | .readHead | .recoverTrans _ | .recoverClear => world.ended = []
  | .panicked => True

structure Accounted (world : World) : Prop where
  issued : ∀ update ∈ world.issued, update.op < world.nextOp
  begun : ∀ op, op ∈ world.active ∨ op ∈ world.ended → op < world.nextOp
  committed : ∀ update ∈ world.groups.flatten, update ∈ world.issued
  whole : ∀ op, updatesBy op world.groups.flatten = [] ∨
    updatesBy op world.groups.flatten = updatesBy op world.issued
  returned : ∀ op ∈ world.returned, op < world.nextOp ∧ op ∉ world.active ∧
    updatesBy op world.groups.flatten = updatesBy op world.issued
  group : GroupInv world world.phase

variable {start : Nat} {init : Nat → Block} {world next : World}

theorem Accounted.of_phase {phase : Phase} (issued : ∀ update ∈ world.issued, update.op < world.nextOp)
    (begun : ∀ op, op ∈ world.active ∨ op ∈ world.ended → op < world.nextOp)
    (committed : ∀ update ∈ world.groups.flatten, update ∈ world.issued)
    (whole : ∀ op, updatesBy op world.groups.flatten = [] ∨
      updatesBy op world.groups.flatten = updatesBy op world.issued)
    (returned : ∀ op ∈ world.returned, op < world.nextOp ∧ op ∉ world.active ∧
      updatesBy op world.groups.flatten = updatesBy op world.issued)
    (here : world.phase = phase) (group : GroupInv world phase) : Accounted world :=
  ⟨issued, begun, committed, whole, returned, here ▸ group⟩

theorem accounted_beginOp (inv : Inv start init world) (accounted : Accounted world)
    (stepped : beginOp world = some next) : Accounted next := by
  obtain ⟨⟨serving, free, _⟩, stepped⟩ := Option.ite_none_right_eq_some.mp stepped
  cases stepped
  have idle := inv.idle_of_open serving (by simpa using free)
  have group := accounted.group
  rw [idle] at group
  have unused : updatesBy world.nextOp world.issued = [] := by
    refine updatesBy_eq_nil fun update found => ?_
    have bound := accounted.issued update found
    omega
  have uncommitted : updatesBy world.nextOp world.groups.flatten = [] := by
    refine updatesBy_eq_nil fun update found => ?_
    have bound := accounted.issued update (accounted.committed update found)
    omega
  have unopened : updatesBy world.nextOp world.current = [] := by
    refine updatesBy_eq_nil fun update found => ?_
    have bound := accounted.begun update.op (group.2 update found)
    omega
  refine Accounted.of_phase ?_ ?_ accounted.committed accounted.whole ?_ idle ⟨?_, ?_⟩
  · intro update found
    exact Nat.lt_succ_of_lt (accounted.issued update found)
  · rintro op (running | finished)
    · rcases mem_cons.mp running with rfl | old
      · exact Nat.lt_succ_self _
      · exact Nat.lt_succ_of_lt (accounted.begun op (.inl old))
    · exact Nat.lt_succ_of_lt (accounted.begun op (.inr finished))
  · intro op done
    obtain ⟨bound, absent, all⟩ := accounted.returned op done
    refine ⟨Nat.lt_succ_of_lt bound, ?_, all⟩
    dsimp only
    rw [mem_cons]
    rintro (rfl | old)
    · omega
    · exact absent old
  · rintro op (running | finished)
    · rcases mem_cons.mp running with rfl | old
      · exact ⟨uncommitted, unused.trans unopened.symm⟩
      · exact group.1 op (.inl old)
    · exact group.1 op (.inr finished)
  · intro update found
    exact (group.2 update found).imp_left (mem_cons_of_mem _)

theorem Accounted.logged (update : Update) (accounted : Accounted world) (idle : world.phase = .idle)
    (running : update.op ∈ world.active) (phase : next.phase = world.phase)
    (active : next.active = world.active) (ended : next.ended = world.ended)
    (nextOp : next.nextOp = world.nextOp) (groups : next.groups = world.groups)
    (returned : next.returned = world.returned) (current : next.current = world.current ++ [update])
    (issued : next.issued = world.issued ++ [update]) : Accounted next := by
  have group := accounted.group
  rw [idle] at group
  have begun := accounted.begun
  refine Accounted.of_phase ?_ ?_ ?_ ?_ ?_ (phase.trans idle) ⟨?_, ?_⟩
  · intro other found
    rw [issued, mem_append, mem_singleton] at found
    rw [nextOp]
    rcases found with old | rfl
    · exact accounted.issued other old
    · exact begun _ (.inl running)
  · rw [active, ended, nextOp]
    exact begun
  · intro other found
    rw [groups] at found
    rw [issued]
    exact mem_append_left _ (accounted.committed other found)
  · intro op
    rw [groups, issued]
    by_cases same : update.op = op
    · exact .inl (same ▸ (group.1 update.op (.inl running)).1)
    · rw [updatesBy_append_other _ same]
      exact accounted.whole op
  · intro op done
    rw [returned] at done
    obtain ⟨bound, absent, all⟩ := accounted.returned op done
    have different : update.op ≠ op := by
      rintro rfl
      exact absent running
    rw [nextOp, active, groups, issued, updatesBy_append_other _ different]
    exact ⟨bound, absent, all⟩
  · intro op member
    rw [active, ended] at member
    obtain ⟨none, same⟩ := group.1 op member
    rw [groups, issued, current, updatesBy_append, updatesBy_append, same]
    exact ⟨none, rfl⟩
  · intro other found
    rw [current, mem_append, mem_singleton] at found
    rw [active, ended]
    rcases found with old | rfl
    · exact group.2 other old
    · exact .inl running

theorem accounted_logWrite {op blockno : Nat} {data : Block} (inv : Inv start init world)
    (accounted : Accounted world) (stepped : logWrite start world op blockno data = some next) :
    Accounted next := by
  obtain ⟨⟨serving, running, _, _⟩, stepped⟩ := Option.ite_none_right_eq_some.mp stepped
  have idle := inv.idle_of_active serving running
  split at stepped
  · cases stepped
    exact ⟨accounted.issued, accounted.begun, accounted.committed, accounted.whole,
      accounted.returned, trivial⟩
  split at stepped
  all_goals
    cases stepped
    exact accounted.logged ⟨op, blockno, data⟩ idle running rfl rfl rfl rfl rfl rfl rfl rfl

theorem accounted_endOp {op : Nat} (inv : Inv start init world) (accounted : Accounted world)
    (stepped : endOp world op = some next) : Accounted next := by
  obtain ⟨⟨serving, running⟩, stepped⟩ := Option.ite_none_right_eq_some.mp stepped
  have idle := inv.idle_of_active serving running
  have phase := inv.phase
  have group := accounted.group
  rw [idle] at phase group
  obtain ⟨collecting, free, count⟩ := phase
  have member : ∀ other, other ∈ world.active.erase op ∨ other ∈ op :: world.ended →
      other ∈ world.active ∨ other ∈ world.ended := by
    rintro other (old | new)
    · exact .inl (mem_of_mem_erase old)
    · rcases mem_cons.mp new with rfl | old
      · exact .inl running
      · exact .inr old
  have stays : ∀ other, other ∈ world.active ∨ other ∈ world.ended →
      other ∈ world.active.erase op ∨ other ∈ op :: world.ended := by
    intro other old
    by_cases same : other = op
    · exact .inr (same ▸ mem_cons_self)
    · exact old.imp (mem_erase_of_ne same).mpr (mem_cons_of_mem _)
  have begun : ∀ other, other ∈ world.active.erase op ∨ other ∈ op :: world.ended →
      other < world.nextOp := fun other old => accounted.begun other (member other old)
  have returned : ∀ other ∈ world.returned, other < world.nextOp ∧
      other ∉ world.active.erase op ∧
      updatesBy other world.groups.flatten = updatesBy other world.issued := by
    intro other done
    obtain ⟨bound, absent, all⟩ := accounted.returned other done
    exact ⟨bound, fun old => absent (mem_of_mem_erase old), all⟩
  rw [if_neg (by simp [free])] at stepped
  split at stepped
  · cases stepped
    by_cases logged : world.lh.length > 0
    · exact Accounted.of_phase accounted.issued begun accounted.committed accounted.whole returned
        (if_pos logged) ⟨fun other old => group.1 other (member other old), fun update found =>
          stays _ (group.2 update found)⟩
    refine Accounted.of_phase accounted.issued begun accounted.committed accounted.whole returned
      (if_neg logged) fun other finished => ?_
    have empty : world.lh = [] := eq_nil_of_length_eq_zero (by omega)
    have nothing : updatesBy other world.current = [] := by
      refine updatesBy_eq_nil fun update found => ?_
      have noted := collecting.noted update found
      simp [empty] at noted
    obtain ⟨none, same⟩ := group.1 other (member other (.inr finished))
    exact none.trans (same.trans nothing).symm
  · cases stepped
    exact Accounted.of_phase accounted.issued begun accounted.committed accounted.whole returned
      idle ⟨fun other old => group.1 other (member other old), fun update found =>
        stays _ (group.2 update found)⟩

theorem Accounted.advanced {phase : Phase} (accounted : Accounted world)
    (nextOp : next.nextOp = world.nextOp) (active : next.active = world.active)
    (ended : next.ended = world.ended) (groups : next.groups = world.groups)
    (issued : next.issued = world.issued) (returned : next.returned = world.returned)
    (here : next.phase = phase) (group : GroupInv next phase) : Accounted next := by
  refine Accounted.of_phase ?_ ?_ ?_ ?_ ?_ here group
  · rw [issued, nextOp]
    exact accounted.issued
  · rw [active, ended, nextOp]
    exact accounted.begun
  · rw [groups, issued]
    exact accounted.committed
  · rw [groups, issued]
    exact accounted.whole
  · rw [returned, nextOp, active, groups, issued]
    exact accounted.returned

theorem accounted_writeHead (accounted : Accounted world) (closed : Closed world)
    (here : world.phase = .writeHead) :
    Accounted { writeHead start world with
      phase := .installTrans 0
      groups := world.groups ++ [world.current]
      current := [] } := by
  have group := accounted.group
  rw [here] at group
  have flat : (world.groups ++ [world.current]).flatten =
      world.groups.flatten ++ world.current := by simp
  have own : ∀ op ∈ world.ended, updatesBy op (world.groups.flatten ++ world.current) =
      updatesBy op world.issued := by
    intro op finished
    obtain ⟨none, same⟩ := group.1 op (.inr finished)
    rw [updatesBy_append, none, nil_append, same]
  have other : ∀ op ∉ world.ended, updatesBy op (world.groups.flatten ++ world.current) =
      updatesBy op world.groups.flatten := by
    intro op absent
    have nothing : updatesBy op world.current = [] := by
      refine updatesBy_eq_nil ?_
      rintro update found rfl
      have member := group.2 update found
      rw [closed.active] at member
      exact absent (member.resolve_left (by simp))
    rw [updatesBy_append, nothing, append_nil]
  refine Accounted.of_phase accounted.issued accounted.begun ?_ ?_ ?_ rfl ?_
  all_goals dsimp only [writeHead, World.bwrite]
  · intro update found
    rw [flat, mem_append] at found
    rcases found with old | new
    · exact accounted.committed update old
    have issuedBy : update ∈ updatesBy update.op world.issued := by
      rw [(group.1 update.op (group.2 update new)).2]
      exact mem_filter.mpr ⟨new, by simp⟩
    exact (mem_filter.mp issuedBy).1
  · intro op
    rw [flat]
    by_cases finished : op ∈ world.ended
    · exact .inr (own op finished)
    · rw [other op finished]
      exact accounted.whole op
  · intro op done
    obtain ⟨bound, absent, all⟩ := accounted.returned op done
    refine ⟨bound, absent, ?_⟩
    rw [flat]
    by_cases finished : op ∈ world.ended
    · exact own op finished
    · rw [other op finished]
      exact all
  · intro op finished
    rw [flat]
    exact own op finished

theorem accounted_advance (inv : Inv start init world) (accounted : Accounted world)
    (stepped : advance start world = some next) : Accounted next := by
  have phase := inv.phase
  have group := accounted.group
  unfold advance at stepped
  cases here : world.phase with
  | idle | panicked => simp [here] at stepped
  | writeLog _ | installTrans _ | recoverTrans _ =>
    simp only [here] at stepped group
    split at stepped
    all_goals
      cases stepped
      exact accounted.advanced rfl rfl rfl rfl rfl rfl rfl group
  | writeHead =>
    simp only [here, Option.some.injEq] at stepped phase
    exact stepped ▸ accounted_writeHead accounted phase.2.2 here
  | clearHead | readHead =>
    simp only [here, Option.some.injEq] at stepped group
    subst stepped
    exact accounted.advanced rfl rfl rfl rfl rfl rfl rfl group
  | finish =>
    simp only [here, Option.some.injEq] at stepped phase group
    obtain ⟨collecting, empty, closed⟩ := phase
    subst stepped
    refine Accounted.of_phase accounted.issued ?_ accounted.committed accounted.whole ?_ rfl
      ⟨?_, ?_⟩
    · rintro op (running | finished)
      · exact accounted.begun op (.inl running)
      · simp at finished
    · intro op done
      rcases mem_append.mp done with new | old
      · refine ⟨accounted.begun op (.inr new), ?_, group op new⟩
        simp [closed.active]
      · exact accounted.returned op old
    · rintro op (running | finished)
      · simp [closed.active] at running
      · simp at finished
    · intro update found
      have noted := collecting.noted update found
      simp [empty] at noted
  | recoverClear =>
    simp only [here, Option.some.injEq] at stepped phase group
    obtain ⟨booting, _, _⟩ := phase
    subst stepped
    refine accounted.advanced rfl rfl rfl rfl rfl rfl rfl ⟨?_, ?_⟩
    · rintro op (running | finished)
      · change op ∈ world.active at running
        simp [booting.active] at running
      · change op ∈ world.ended at finished
        rw [show world.ended = [] from group] at finished
        simp at finished
    · intro update found
      change update ∈ world.current at found
      simp [booting.current] at found

theorem accounted_crash (accounted : Accounted world) : Accounted (crash world) := by
  refine Accounted.of_phase accounted.issued ?_ accounted.committed accounted.whole ?_ rfl rfl
  · rintro op (running | finished)
    · cases running
    · cases finished
  · intro op done
    obtain ⟨bound, _, all⟩ := accounted.returned op done
    exact ⟨bound, by simp [crash], all⟩

theorem accounted_step {label : Label} (inv : Inv start init world) (accounted : Accounted world)
    (stepped : step start world label = some next) : Accounted next := by
  cases label with
  | beginOp => exact accounted_beginOp inv accounted stepped
  | logWrite op blockno data => exact accounted_logWrite inv accounted stepped
  | endOp op => exact accounted_endOp inv accounted stepped
  | advance => exact accounted_advance inv accounted stepped
  | bread blockno =>
    cases stepped
    exact accounted.advanced rfl rfl rfl rfl rfl rfl rfl accounted.group
  | evict blockno =>
    simp only [step] at stepped
    split at stepped
    · cases stepped
      exact accounted.advanced rfl rfl rfl rfl rfl rfl rfl accounted.group
    · cases stepped
  | crash => exact Option.some.inj stepped ▸ accounted_crash accounted

theorem accounted_boot (disk : Nat → Block) : Accounted (World.boot disk) := by
  refine Accounted.of_phase (by simp [World.boot]) ?_ (by simp [World.boot]) (fun _ => .inl rfl)
    (by simp [World.boot]) rfl rfl
  rintro op (running | finished)
  · cases running
  · cases finished

theorem reached_inv {disk : Nat → Block} (empty : decodeHead (disk start) = [])
    (reached : Reaches (step start) (fun _ _ => True) (World.boot disk) world) :
    Inv start disk world ∧ Accounted world := by
  refine reached.invariant (fun world => Inv start disk world ∧ Accounted world)
    ⟨inv_boot empty, accounted_boot disk⟩ ?_
  rintro state label next ⟨inv, accounted⟩ _ stepped
  exact ⟨inv_step inv stepped, accounted_step inv accounted stepped⟩

/-- When `recover_from_log` completes, after any run with any number of crashes, the home
locations hold the updates of exactly the committed groups, each operation is there with
all its updates or with none, and those whose commit had returned are there. -/
theorem recovery_atomic {disk : Nat → Block} (empty : decodeHead (disk start) = [])
    (reached : Reaches (step start) (fun _ _ => True) (World.boot disk) world)
    (recovering : world.phase = .recoverClear)
    (completed : step start world .advance = some next) :
    (∀ blockno, ¬ (area start).Owns blockno →
      next.disk blockno = applyUpdates (writes next.groups.flatten) disk blockno) ∧
    (∀ op, updatesBy op next.groups.flatten = [] ∨
      updatesBy op next.groups.flatten = updatesBy op next.issued) ∧
    (∀ op ∈ next.returned, updatesBy op next.groups.flatten = updatesBy op next.issued) := by
  have after := reached_inv empty (reached.tail .advance trivial completed)
  have idle : next.phase = .idle := by
    simp only [step, advance, recovering, Option.some.injEq] at completed
    rw [← completed]
  have recoverable := after.1.recoverable
  have phase := after.1.phase
  rw [idle] at phase
  rw [phase.1.head] at recoverable
  refine ⟨fun blockno outside => recoverable.home_eq outside, after.2.whole, ?_⟩
  intro op done
  exact (after.2.returned op done).2.2

def crashedCommit : List Label :=
  [.advance, .advance, .advance, .beginOp, .logWrite 0 50 (fun _ => 7), .endOp 0,
    .advance, .advance, .advance, .crash, .advance, .advance, .advance]

theorem recovery_atomic_crashed_commit :
    ∃ world next, Reaches (step 2) (fun _ _ => True) (World.boot fun _ _ => 0) world ∧
      step 2 world .advance = some next ∧ next.groups.length = 1 ∧
      next.disk 50 = applyUpdates (writes next.groups.flatten) (fun _ _ => 0) 50 := by
  obtain ⟨world, reached, seen⟩ := reaches_seen (show
    (runLabels (step 2) (World.boot fun _ _ => 0) crashedCommit).map (fun world =>
        (world.phase, world.groups.length, (step 2 world .advance).isSome)) =
        some (.recoverClear, 1, true) by decide +kernel)
  simp only [Prod.mk.injEq] at seen
  obtain ⟨recovering, count, enabled⟩ := seen
  obtain ⟨next, completed⟩ := Option.isSome_iff_exists.mp enabled
  have groups : next.groups = world.groups := by
    simp only [step, advance, recovering, Option.some.injEq] at completed
    rw [← completed]
    rfl
  have atomic := recovery_atomic (by decide) reached recovering completed
  exact ⟨world, next, reached, completed, groups ▸ count, atomic.1 50 (by decide)⟩

end Xv6.Log

import Xv6.Bio.Transparent

/-!
When `bget` finds no buffer. The blocks that the log has pinned and those that processes use
are in different buffers. `LOGBLOCKS` equals `NBUF`: a full transaction pins every buffer,
and the commit that should write it has none left for the log's own blocks.
-/

namespace Xv6.Bio

open Lib System Option Finset
open Log (Block maxOpBlocks)

/-- An operation uses one buffer at a time and logs at most `MAXOPBLOCKS` blocks, each once. -/
def Modest (sys : System) : Label → Prop
  | .bget pid _ _ => ∀ h ∈ sys.handles, h.pid ≠ pid
  | .logWrite h => (h.pid, h.blockno) ∉ sys.logged ∧
      (sys.logged.countP fun entry => entry.1 = h.pid) < maxOpBlocks
  | _ => True

instance (sys : System) (label : Label) : Decidable (Modest sys label) :=
  match label with
  | .bget pid _ _ => inferInstanceAs (Decidable (∀ h ∈ sys.handles, h.pid ≠ pid))
  | .logWrite _ => inferInstanceAs (Decidable (_ ∧ _))
  | .beginOp _ | .acquiresleep _ | .fill _ | .modify _ _ | .releasesleep _ | .brelse _ | .endOp _
  | .commit => inferInstanceAs (Decidable True)

def System.wanted (sys : System) : Label → Option Nat
  | .bget _ _ blockno => some blockno
  | .commit =>
    match sys.commit with
    | some ⟨_, _, .bget blockno :: _⟩ => some blockno
    | _ => none
  | _ => none

def System.inUse (sys : System) : Finset Nat :=
  (sys.handles.map Handle.blockno ++ sys.pinned).toFinset

variable {start blockno : Nat} {sys next : System}

theorem mem_inUse : blockno ∈ sys.inUse ↔ (∃ h ∈ sys.handles, h.blockno = blockno) ∨ blockno ∈ sys.pinned := by
  simp [inUse]

theorem Whole.used_iff (whole : Whole start sys) {i : Nat} (inside : i < nbuf) :
    (sys.bc.bufs i).refcnt ≠ 0 ↔ (sys.bc.bufs i).dev = rootDev ∧ (sys.bc.bufs i).blockno ∈ sys.inUse := by
  have counted := whole.inv.shape.counted i inside
  constructor
  · intro used
    by_cases none : useCount sys.handles i = 0
    · have pinned : pinCount sys.pinned (sys.bc.bufs i) ≠ 0 := by omega
      rw [pinCount] at pinned
      split at pinned
      · rename_i both
        exact ⟨both.1, mem_inUse.mpr (.inr both.2)⟩
      · exact absurd rfl pinned
    obtain ⟨h, found, here⟩ := List.countP_pos_iff.mp (pos_of_ne_zero none)
    obtain rfl : h.buf = i := by simpa using here
    obtain ⟨_, dev, block⟩ := whole.inv.shape.placed h found
    exact ⟨dev.trans (whole.flat.root h found), mem_inUse.mpr (.inl ⟨h, found, block.symm⟩)⟩
  · rintro ⟨root, use⟩
    rcases mem_inUse.mp use with ⟨h, found, block⟩ | pinned
    · have here := whole.inv.buffer_unique whole.flat found inside root block.symm
      have positive : 0 < useCount sys.handles i :=
        List.countP_pos_iff.mpr ⟨h, found, by simpa using here.symm⟩
      omega
    · rw [pinCount, if_pos ⟨root, pinned⟩] at counted
      omega

theorem Whole.inUse_eq (whole : Whole start sys) :
    sys.inUse = ((Finset.range nbuf).filter fun i => (sys.bc.bufs i).refcnt ≠ 0).image
      fun i => (sys.bc.bufs i).blockno := by
  ext blockno
  simp only [mem_image, mem_filter, mem_range]
  constructor
  · intro use
    have cached : ∃ i < nbuf, (sys.bc.bufs i).dev = rootDev ∧ (sys.bc.bufs i).blockno = blockno := by
      rcases mem_inUse.mp use with ⟨h, found, rfl⟩ | pinned
      · obtain ⟨inside, dev, block⟩ := whole.inv.shape.placed h found
        exact ⟨h.buf, inside, dev.trans (whole.flat.root h found), block⟩
      · exact whole.inv.shape.cached blockno pinned
    obtain ⟨i, inside, root, rfl⟩ := cached
    exact ⟨i, ⟨inside, (whole.used_iff inside).mpr ⟨root, use⟩⟩, rfl⟩
  · rintro ⟨i, ⟨inside, used⟩, rfl⟩
    exact ((whole.used_iff inside).mp used).2

theorem Whole.inUse_card (whole : Whole start sys) :
    sys.inUse.card = ((Finset.range nbuf).filter fun i => (sys.bc.bufs i).refcnt ≠ 0).card := by
  rw [whole.inUse_eq]
  apply card_image_of_injOn
  intro i iUsed j jUsed same
  simp only [coe_filter, mem_range, Set.mem_setOf_eq] at iUsed jUsed
  have first := (whole.used_iff iUsed.1).mp iUsed.2
  have second := (whole.used_iff jUsed.1).mp jUsed.2
  refine whole.inv.shape.unique i iUsed.1 j jUsed.1 ?_ (first.1.trans second.1.symm) same
  rw [first.1]
  decide

theorem Whole.full_iff (whole : Whole start sys) :
    sys.inUse.card = nbuf ↔ ∀ i < nbuf, (sys.bc.bufs i).refcnt ≠ 0 := by
  rw [whole.inUse_card]
  constructor
  · intro full i inside
    have all : (Finset.range nbuf).filter (fun i => (sys.bc.bufs i).refcnt ≠ 0) = Finset.range nbuf := by
      apply eq_of_subset_of_card_le (filter_subset _ _)
      rw [full, card_range]
    have member : i ∈ (Finset.range nbuf).filter fun i => (sys.bc.bufs i).refcnt ≠ 0 := by
      rw [all]
      exact mem_range.mpr inside
    exact (mem_filter.mp member).2
  · intro all
    rw [filter_true_of_mem fun i member => all i (mem_range.mp member), card_range]

theorem Whole.bget_none_iff (whole : Whole start sys) :
    bget sys.bc rootDev blockno = none ↔ blockno ∉ sys.inUse ∧ sys.inUse.card = nbuf := by
  rw [whole.full_iff]
  rcases bget_cases whole.inv.shape rootDev blockno with ⟨b, inside, root, block, got⟩ |
    ⟨absent, ⟨b, inside, unused, got⟩ | ⟨all, got⟩⟩
  · rw [got]
    refine ⟨(fun none => by cases none), fun ⟨free, all⟩ => ?_⟩
    have use := ((whole.used_iff inside).mp (all b inside)).2
    exact absurd (block ▸ use) free
  · rw [got]
    exact ⟨(fun none => by cases none), fun ⟨_, all⟩ => absurd unused (all b inside)⟩
  · rw [got]
    refine ⟨fun _ => ⟨fun use => ?_, all⟩, fun _ => rfl⟩
    rw [whole.inUse_eq, mem_image] at use
    obtain ⟨i, member, block⟩ := use
    obtain ⟨inside, used⟩ := mem_filter.mp member
    have bound := mem_range.mp inside
    exact absent i bound ⟨((whole.used_iff bound).mp used).1, block⟩

theorem bget_panic {pid : Nat} (running : sys.panic = none) :
    (sys.bget pid rootDev blockno).panic = some .noBuffers ↔ bget sys.bc rootDev blockno = none := by
  rw [System.bget]
  split
  · rename_i got
    simp [got, running]
  · rename_i got
    simp [got]

theorem bget_of_panic {pid : Nat} {cmd : Cmd} (running : sys.panic = none)
    (ran : sys.execute start pid cmd = some next) (panicked : next.panic = some .noBuffers) :
    ∃ blockno, cmd = .bget blockno := by
  cases cmd with
  | bget blockno => exact ⟨blockno, rfl⟩
  | acquired blockno =>
    obtain ⟨_, _, rfl⟩ := map_eq_some_iff.mp ran
    rw [running] at panicked
    cases panicked
  | memmove dst src =>
    obtain ⟨dest, _, ran⟩ := bind_eq_some_iff.mp ran
    obtain ⟨source, _, ran⟩ := bind_eq_some_iff.mp ran
    cases ran
    split at panicked <;> simp [store, change, running] at panicked
  | setHead blockno =>
    obtain ⟨h, _, ran⟩ := bind_eq_some_iff.mp ran
    cases ran
    simp [store, change, running] at panicked
  | bwrite blockno =>
    obtain ⟨h, _, rfl⟩ := map_eq_some_iff.mp ran
    simp only [System.bwrite] at panicked
    split at panicked <;> simp [change, running] at panicked
  | bunpin blockno =>
    obtain ⟨h, _, rfl⟩ := map_eq_some_iff.mp ran
    simp [System.bunpin, running] at panicked
  | releasesleep blockno =>
    obtain ⟨h, _, rfl⟩ := map_eq_some_iff.mp ran
    simp only [System.releasesleep] at panicked
    split at panicked <;> simp [change, running] at panicked
  | brelse blockno =>
    obtain ⟨h, _, rfl⟩ := map_eq_some_iff.mp ran
    simp [System.brelse, running] at panicked

theorem wanted_of_panic {label : Label} (running : sys.panic = none)
    (stepped : step start sys label = some next) (panicked : next.panic = some .noBuffers) :
    ∃ blockno, sys.wanted label = some blockno := by
  simp only [step, running, isSome_none, Bool.false_eq_true, if_false] at stepped
  cases label with
  | bget pid dev blockno => exact ⟨blockno, rfl⟩
  | beginOp pid =>
    simp only [System.beginOp] at stepped
    grind
  | acquiresleep h =>
    simp only [System.acquiresleep, change] at stepped
    grind
  | fill h =>
    simp only [System.fill, change] at stepped
    grind
  | modify h data =>
    simp only [store, change] at stepped
    grind
  | logWrite h =>
    simp only [System.logWrite] at stepped
    grind
  | releasesleep h =>
    simp only [System.releasesleep, change] at stepped
    grind
  | brelse h =>
    simp only [System.brelse] at stepped
    grind
  | endOp pid =>
    simp only [System.endOp, writeLog] at stepped
    grind
  | commit =>
    simp only [advance] at stepped
    split at stepped
    · cases stepped
    rename_i c here
    split at stepped
    · rename_i cmd rest code
      have alive : { sys with commit := some { c with code := rest } }.panic = none := running
      obtain ⟨blockno, rfl⟩ := bget_of_panic alive stepped panicked
      obtain ⟨pid, place, code'⟩ := c
      simp only at code
      exact ⟨blockno, by simp only [System.wanted, here, code]⟩
    · simp only [writeLog, installTrans] at stepped
      grind

theorem panic_of_wanted {label : Label} (running : sys.panic = none) (follows : Follows start sys label)
    (stepped : step start sys label = some next) (wants : sys.wanted label = some blockno) :
    next.panic = some .noBuffers ↔ bget sys.bc rootDev blockno = none := by
  simp only [step, running, isSome_none, Bool.false_eq_true, if_false] at stepped
  cases label with
  | bget pid dev wanted =>
    obtain rfl : wanted = blockno := Option.some.inj wants
    obtain rfl : dev = rootDev := follows
    simp only at stepped
    split at stepped
    · cases stepped
    · cases stepped
      exact bget_panic running
  | commit =>
    simp only [System.wanted] at wants
    split at wants
    · rename_i pid place wanted rest here
      obtain rfl : wanted = blockno := Option.some.inj wants
      simp only [advance, here, execute, Option.some.injEq] at stepped
      rw [← stepped]
      exact bget_panic running
    · cases wants
  | _ => cases wants

/-- Within every run of operations that use one buffer at a time and log at most
`MAXOPBLOCKS` blocks, `bget` finds no buffer exactly when blocks in use fill the cache and
the one it looks for is not among them. -/
theorem bget_no_buffers_iff {disk : Nat → Block} (reached : Reaches (step start)
    (fun sys label => Follows start sys label ∧ Modest sys label) (System.boot disk) sys)
    {label : Label} (follows : Follows start sys label ∧ Modest sys label)
    (stepped : step start sys label = some next) :
    next.panic = some .noBuffers ↔
      ∃ blockno, sys.wanted label = some blockno ∧ blockno ∉ sys.inUse ∧ sys.inUse.card = nbuf := by
  have whole := reached_whole (reached.weaken fun _ _ both => both.1)
  have running : sys.panic = none := by
    by_contra halted
    have stopped : sys.panic.isSome = true := isSome_iff_ne_none.mpr halted
    simp [step, stopped] at stepped
  constructor
  · intro panicked
    obtain ⟨blockno, wants⟩ := wanted_of_panic running stepped panicked
    refine ⟨blockno, wants, ?_⟩
    apply whole.bget_none_iff.mp
    exact (panic_of_wanted running follows.1 stepped wants).mp panicked
  · rintro ⟨blockno, wants, full⟩
    apply (panic_of_wanted running follows.1 stepped wants).mpr
    exact whole.bget_none_iff.mpr full

def logged (pid blockno b : Nat) : List Label :=
  [.bget pid rootDev blockno, .acquiresleep ⟨pid, rootDev, blockno, b, .waiting, false⟩,
    .fill ⟨pid, rootDev, blockno, b, .locked, false⟩,
    .modify ⟨pid, rootDev, blockno, b, .ready, false⟩ (fun _ => 7),
    .logWrite ⟨pid, rootDev, blockno, b, .ready, true⟩,
    .releasesleep ⟨pid, rootDev, blockno, b, .ready, false⟩,
    .brelse ⟨pid, rootDev, blockno, b, .releasing, false⟩]

theorem bget_no_buffers_iff_one : ∃ sys next, ¬ next.panic = some .noBuffers ∧
    step 2 sys (.bget 0 rootDev 101) = some next := by
  obtain ⟨sys, reached, seen⟩ := reaches_within
    (show (runWithin (fun sys label => Follows 2 sys label ∧ Modest sys label) (step 2) (boot fun _ _ => 0) (.beginOp 0 :: logged 0 100 0)).map
      (fun sys => (sys.inUse.card, decide (Follows 2 sys (.bget 0 rootDev 101) ∧ Modest sys (.bget 0 rootDev 101)),
        (step 2 sys (.bget 0 rootDev 101)).isSome)) = some (1, true, true) by decide +kernel)
  simp only [Prod.mk.injEq, decide_eq_true_eq] at seen
  obtain ⟨card, follows, goes⟩ := seen
  obtain ⟨next, stepped⟩ := isSome_iff_exists.mp goes
  refine ⟨sys, next, fun panicked => ?_, stepped⟩
  obtain ⟨_, _, _, full⟩ := (bget_no_buffers_iff reached follows stepped).mp panicked
  rw [card] at full
  cases full

/-- Three operations fill the log with `LOGBLOCKS` blocks, and the commit panics. -/
theorem commit_no_buffers : ∃ sys next, Reaches (step 2)
      (fun sys label => Follows 2 sys label ∧ Modest sys label) (System.boot fun _ _ => 0) sys ∧
    step 2 sys .commit = some next ∧ next.panic = some .noBuffers := by
  obtain ⟨sys, reached, seen⟩ := reaches_within
    (show (runWithin (fun sys label => Follows 2 sys label ∧ Modest sys label) (step 2) (boot fun _ _ => 0)
        ([.beginOp 0, .beginOp 1, .beginOp 2] ++
          (List.range 30).flatMap (fun k => logged (k / 10) (100 + k) k) ++
          [.endOp 0, .endOp 1, .endOp 2])).map
      (fun sys => (step 2 sys .commit).map panic) = some (some (some .noBuffers)) by decide +kernel)
  obtain ⟨next, stepped, panicked⟩ := map_eq_some_iff.mp seen
  exact ⟨sys, next, reached, stepped, panicked⟩

end Xv6.Bio

import Xv6.Proc.Exit

/-!
What the history of exits and waits says. Every process ever made has its own number; a
zombie's slot holds what its exit recorded until one `kwait` of its parent takes it.
-/

namespace Xv6.Wait

open Function List State
open Xv6.Lib
open Xv6.Procs

variable {s next : State} {t k p n : Nat} {status : BitVec 32} {fails : Bool}

def State.reapedIds (s : State) : List Nat := s.waits.filterMap fun w => w.reaped.map Reaped.id

/-- The exited process still has its slot, with what it left there. -/
def Exit.Kept (s : State) (e : Exit) : Prop :=
  (s.slots e.slot).proc.state = .zombie ∧ (s.slots e.slot).id = e.id ∧
    (s.slots e.slot).pid = e.pid ∧ (s.slots e.slot).xstate = e.status

/-- A return of `kwait` either reports -1 and took nothing, or took a child of the caller that
had exited, and reports its pid and status. -/
def Return.Sound (exits : List Exit) (w : Return) : Prop :=
  match w.reaped with
  | none => w.value = -1#32
  | some r => r.parent = some w.caller ∧ ∃ status, ⟨r.slot, r.id, w.value, status⟩ ∈ exits ∧
      r.status = if w.addr = 0 then none else some status

structure Hist (s : State) : Prop where
  ids : ∀ q, s.table.state q ≠ .unused → (s.slots q).id < s.born
  distinct : ∀ p q, s.table.state p ≠ .unused → s.table.state q ≠ .unused →
    (s.slots p).id = (s.slots q).id → p = q
  exited : ∀ e ∈ s.exits, e.id ∈ s.reapedIds ∨ e.Kept s
  zombies : ∀ q, s.table.state q = .zombie →
    ⟨q, (s.slots q).id, (s.slots q).pid, (s.slots q).xstate⟩ ∈ s.exits
  fresh : ∀ q, s.table.state q ≠ .unused → (s.slots q).id ∉ s.reapedIds
  once : s.reapedIds.Nodup
  small : ∀ id ∈ s.reapedIds, id < s.born
  returns : ∀ w ∈ s.waits, w.Sound s.exits

theorem boot_hist : Hist boot where
  ids q := by simp [boot]
  distinct p q first second _ := by
    by_cases here : p = initproc <;> by_cases there : q = initproc
    · rw [here, there]
    · simp [Table.state, State.table, boot, there] at second
    · simp [Table.state, State.table, boot, here] at first
    · simp [Table.state, State.table, boot, here] at first
  exited e := by simp [boot]
  zombies q := by by_cases first : q = initproc <;> simp [Table.state, State.table, boot, first]
  fresh q := by simp [reapedIds, boot]
  once := by simp [reapedIds, boot]
  small id := by simp [reapedIds, boot]
  returns w := by simp [boot]

structure Same (s next : State) : Prop where
  born : next.born = s.born
  exits : next.exits = s.exits
  waits : next.waits = s.waits
  unused : ∀ q, next.table.state q = .unused ↔ s.table.state q = .unused
  zombie : ∀ q, next.table.state q = .zombie ↔ s.table.state q = .zombie
  slots : ∀ q, s.table.state q ≠ .unused → (next.slots q).id = (s.slots q).id ∧
    (next.slots q).pid = (s.slots q).pid ∧ (next.slots q).xstate = (s.slots q).xstate

theorem Same.refl (s : State) : Same s s :=
  ⟨rfl, rfl, rfl, fun _ => Iff.rfl, fun _ => Iff.rfl, fun _ _ => ⟨rfl, rfl, rfl⟩⟩

theorem Same.setPc (same : Same s next) (p : Nat) (pc : Pc) : Same s (next.setPc p pc) :=
  ⟨same.born, same.exits, same.waits, same.unused, same.zombie, same.slots⟩

theorem Same.setSlot {slot : Slot} (unused : slot.proc.state = .unused ↔ s.table.state t = .unused)
    (zombie : slot.proc.state = .zombie ↔ s.table.state t = .zombie)
    (kept : s.table.state t ≠ .unused → slot.id = (s.slots t).id ∧ slot.pid = (s.slots t).pid ∧ slot.xstate = (s.slots t).xstate)
    : Same s (s.setSlot t slot) := by
  refine ⟨rfl, rfl, rfl, fun q => ?_, fun q => ?_, fun q => ?_⟩
  all_goals
    obtain rfl | same := eq_or_ne q t
    · simpa [Table.state, State.table, setSlot] using by assumption
    · simp [Table.state, State.table, State.setSlot, same]

theorem Visit.dead_iff {before after : Proc Nat} {state : ProcState} (visit : Visit before after) (dead : ¬ Alive state) :
    after.state = state ↔ before.state = state := by
  by_cases alive : Alive before.state
  · exact iff_of_false (fun is => dead (is ▸ visit.alive alive)) (fun is => dead (is ▸ alive))
  · rw [visit.kept alive]

theorem Same.setProc {proc : Proc Nat} (visit : Visit (s.slots t).proc proc) : Same s (s.setProc t proc) :=
  Same.setSlot (visit.dead_iff (by simp [Alive])) (visit.dead_iff (by simp [Alive])) fun _ => ⟨rfl, rfl, rfl⟩

theorem Same.reapedIds (same : Same s next) : next.reapedIds = s.reapedIds := by
  rw [State.reapedIds, State.reapedIds, same.waits]

theorem Same.hist (same : Same s next) (hist : Hist s) : Hist next := by
  have used : ∀ q, next.table.state q ≠ .unused → s.table.state q ≠ .unused :=
    fun q made unused => made ((same.unused q).mpr unused)
  refine ⟨?_, ?_, ?_, ?_, ?_, ?_, ?_, ?_⟩
  · intro q made
    rw [(same.slots q (used q made)).1, same.born]
    exact hist.ids q (used q made)
  · intro p q first second
    rw [(same.slots p (used p first)).1, (same.slots q (used q second)).1]
    exact hist.distinct p q (used p first) (used q second)
  · intro e listed
    rw [same.exits] at listed
    rw [same.reapedIds]
    obtain reaped | ⟨state, rest⟩ := hist.exited e listed
    · exact .inl reaped
    have state : s.table.state e.slot = .zombie := state
    obtain ⟨ids, pids, statuses⟩ := same.slots e.slot (by simp [state])
    refine .inr ⟨(same.zombie e.slot).mpr state, ?_⟩
    rw [ids, pids, statuses]
    exact rest
  · intro q dead
    have dead := (same.zombie q).mp dead
    obtain ⟨ids, pids, statuses⟩ := same.slots q (by simp [dead])
    rw [ids, pids, statuses, same.exits]
    exact hist.zombies q dead
  · intro q made
    rw [(same.slots q (used q made)).1, same.reapedIds]
    exact hist.fresh q (used q made)
  · rw [same.reapedIds]
    exact hist.once
  · rw [same.reapedIds, same.born]
    exact hist.small
  · rw [same.waits, same.exits]
    exact hist.returns

theorem Hist.change {taken : List Nat} (hist : Hist s) (slots : ∀ q, q ≠ k → next.slots q = s.slots q) (born : s.born ≤ next.born)
    (exits : s.exits ⊆ next.exits) (reaped : next.reapedIds = taken ++ s.reapedIds)
    (own : next.table.state k ≠ .unused → (next.slots k).id < next.born ∧ (next.slots k).id ∉ next.reapedIds ∧
      ∀ q, q ≠ k → s.table.state q ≠ .unused → (s.slots q).id ≠ (next.slots k).id)
    (others : ∀ q, q ≠ k → s.table.state q ≠ .unused → (s.slots q).id ∉ taken)
    (exited : ∀ e ∈ next.exits, e ∈ s.exits ∧ (e.Kept s → e.slot = k → e.id ∈ taken) ∨ e.Kept next)
    (zombie : next.table.state k = .zombie → ⟨k, (next.slots k).id, (next.slots k).pid, (next.slots k).xstate⟩ ∈ next.exits)
    (once : taken.Nodup ∧ ∀ id ∈ taken, id ∉ s.reapedIds ∧ id < next.born) (returns : ∀ w ∈ next.waits, w.Sound next.exits) :
    Hist next := by
  have states : ∀ q, q ≠ k → next.table.state q = s.table.state q := by
    intro q different
    simp [Table.state, State.table, slots q different]
  refine ⟨?_, ?_, ?_, ?_, ?_, ?_, ?_, returns⟩
  · intro q made
    by_cases same : q = k
    · rw [same] at made ⊢
      exact (own made).1
    · rw [states q same] at made
      rw [slots q same]
      exact (hist.ids q made).trans_le born
  · intro p q first second equal
    by_cases here : p = k <;> by_cases there : q = k
    · rw [here, there]
    · rw [here] at first equal
      rw [states q there] at second
      rw [slots q there] at equal
      exact absurd equal.symm ((own first).2.2 q there second)
    · rw [there] at second equal
      rw [states p here] at first
      rw [slots p here] at equal
      exact absurd equal ((own second).2.2 p here first)
    · rw [states p here] at first
      rw [states q there] at second
      rw [slots p here, slots q there] at equal
      exact hist.distinct p q first second equal
  · intro e listed
    rw [reaped, mem_append]
    obtain ⟨older, gone⟩ | kept := exited e listed
    · obtain before | kept := hist.exited e older
      · exact .inl (.inr before)
      by_cases same : e.slot = k
      · exact .inl (.inl (gone kept same))
      · rw [Exit.Kept, slots e.slot same]
        exact .inr kept
    · exact .inr kept
  · intro q dead
    by_cases same : q = k
    · rw [same] at dead ⊢
      exact zombie dead
    · rw [states q same] at dead
      rw [slots q same]
      exact exits (hist.zombies q dead)
  · intro q made
    by_cases same : q = k
    · rw [same] at made ⊢
      exact (own made).2.1
    · rw [states q same] at made
      rw [slots q same, reaped, mem_append, not_or]
      exact ⟨others q same made, hist.fresh q made⟩
  · rw [reaped, nodup_append']
    exact ⟨once.1, hist.once, fun id listed => (once.2 id listed).1⟩
  · intro id listed
    rw [reaped, mem_append] at listed
    obtain new | old := listed
    · exact (once.2 id new).2
    · exact (hist.small id old).trans_le born

theorem Hist.alloc (hist : Hist s) (unused : s.table.state k = .unused) (slots : ∀ q, q ≠ k → next.slots q = s.slots q)
    (state : (next.slots k).proc.state = .used) (id : (next.slots k).id = s.born) (born : next.born = s.born + 1)
    (exits : next.exits = s.exits) (waits : next.waits = s.waits) : Hist next := by
  have reaped : next.reapedIds = [] ++ s.reapedIds := by rw [reapedIds, waits]; rfl
  have made : next.table.state k = .used := state
  refine hist.change slots (by omega) (by rw [exits]; exact List.Subset.refl _) reaped (fun _ => ⟨by omega, fun listed => ?_, fun q _ used => ?_⟩)
    (fun _ _ _ => not_mem_nil) (fun e listed => .inl ⟨exits ▸ listed, fun kept here => ?_⟩) (fun dead => ?_)
    ⟨nodup_nil, nofun⟩ (by rw [waits, exits]; exact hist.returns)
  · rw [reaped, id] at listed
    exact absurd (hist.small _ listed) (lt_irrefl _)
  · have := hist.ids q used
    omega
  · have dead : s.table.state k = .zombie := here ▸ kept.1
    simp [unused] at dead
  · simp [made] at dead

theorem Return.Sound.mono {exits more : List Exit} {w : Return} (sound : w.Sound exits)
    (subset : exits ⊆ more) : w.Sound more := by
  unfold Return.Sound at sound ⊢
  split
  · simpa [*] using sound
  rename_i r taken
  simp only [taken] at sound
  obtain ⟨parent, status, listed, delivered⟩ := sound
  exact ⟨parent, status, subset listed, delivered⟩

theorem Hist.zombie (hist : Hist s) (alive : Alive (s.table.state p)) (slots : ∀ q, q ≠ p → next.slots q = s.slots q)
    (state : (next.slots p).proc.state = .zombie) (id : (next.slots p).id = (s.slots p).id)
    (pid : (next.slots p).pid = (s.slots p).pid) (xstate : (next.slots p).xstate = status) (born : next.born = s.born)
    (waits : next.waits = s.waits) (exits : next.exits = ⟨p, (s.slots p).id, (s.slots p).pid, status⟩ :: s.exits) :
    Hist next := by
  have reaped : next.reapedIds = [] ++ s.reapedIds := by rw [reapedIds, waits]; rfl
  have used : s.table.state p ≠ .unused := fun unused => by simp [unused, Alive] at alive
  have subset : s.exits ⊆ next.exits := by
    rw [exits]
    exact subset_cons_self _ _
  refine hist.change slots born.ge subset reaped (fun _ => ⟨?_, ?_, fun q different made => ?_⟩) (fun _ _ _ => not_mem_nil)
    (fun e listed => ?_) (fun _ => ?_) ⟨nodup_nil, by rintro _ ⟨⟩⟩ (fun w listed => ?_)
  · rw [id, born]
    exact hist.ids p used
  · rw [id, reaped]
    exact hist.fresh p used
  · rw [id]
    exact fun equal => different (hist.distinct q p made used equal)
  · rw [exits] at listed
    obtain rfl | older := mem_cons.mp listed
    · exact .inr ⟨state, id, pid, xstate⟩
    · refine .inl ⟨older, fun kept here => ?_⟩
      have dead : s.table.state p = .zombie := here ▸ kept.1
      simp [dead, Alive] at alive
  · rw [id, pid, xstate, exits]
    exact mem_cons_self
  · rw [waits] at listed
    exact (hist.returns w listed).mono subset

theorem Hist.empty {addr : Nat} (hist : Hist s) : Hist (s.back p addr (-1#32) none) := by
  refine ⟨hist.ids, hist.distinct, hist.exited, hist.zombies, hist.fresh, hist.once, hist.small, ?_⟩
  intro w listed
  obtain rfl | older := mem_cons.mp listed
  · rfl
  · exact hist.returns w older

theorem Hist.reap {addr : Nat} (hist : Hist s) (dead : s.table.state k = .zombie) (child : (s.slots k).parent = some p) :
    Hist ((s.setSlot k (freeproc { s.slots k with parent := none })).back p addr (s.slots k).pid
      (some ⟨k, (s.slots k).id, (s.slots k).parent, if addr = 0 then none else some (s.slots k).xstate⟩)) := by
  have used : s.table.state k ≠ .unused := by simp [dead]
  have freed : (s.setSlot k (freeproc { s.slots k with parent := none })).table.state k = .unused := by
    simp [Table.state, State.table, setSlot, freeproc]
  refine hist.change (k := k) (fun q different => update_of_ne different ..) le_rfl (List.Subset.refl _)
    rfl (fun made => absurd freed made) (fun q different made => ?_) (fun e listed => .inl ⟨listed, fun kept here => ?_⟩)
    (fun zombie => ?_) ⟨nodup_singleton _, fun id listed => ?_⟩ (fun w listed => ?_)
  · rw [mem_singleton]
    exact fun equal => different (hist.distinct q k made used equal)
  · rw [← kept.2.1, here]
    exact mem_singleton_self _
  · exact absurd (freed.symm.trans zombie) (by decide)
  · rw [mem_singleton.mp listed]
    exact ⟨hist.fresh k used, hist.ids k used⟩
  · obtain rfl | older := mem_cons.mp listed
    · exact ⟨child, _, hist.zombies k dead, rfl⟩
    · exact hist.returns w older

inductive Turn (s : State) (p : Nat) : State → Prop
  | move (pc : Pc) (lock : Option Nat) : Turn s p { s.setPc p pc with waitLock := lock }
  | proc (t : Nat) (proc : Proc Nat) (pc : Pc) (unused : proc.state = .unused ↔ s.table.state t = .unused)
      (zombie : proc.state = .zombie ↔ s.table.state t = .zombie) : Turn s p ((s.setProc t proc).setPc p pc)
  | parent (t q : Nat) (pc : Pc)
      (why : s.table.parent t = none ∧ s.table.state t = .used ∨ ∃ status, s.pcs p = .reparent status t) :
      Turn s p ((s.setSlot t { s.slots t with parent := some q }).setPc p pc)
  | exit (status : BitVec 32) (place : s.pcs p = .exit status) (free : s.waitLock = none) :
      Turn s p { s.setPc p (.reparent status 0) with
        waitLock := some p
        slots := fun q => { s.slots q with orphan := (s.slots q).orphan || decide ((s.slots q).parent = some p) } }
  | fail (k : Nat) (unused : s.table.state k = .unused) :
      Turn s p { (s.setSlot k (freeproc (s.slots k))).setPc p .user with nextpid := s.nextpid + 1#32 }
  | alloc (k : Nat) (unused : s.table.state k = .unused) :
      Turn s p { ((s.setSlot k { s.slots k with
          proc := { (s.slots k).proc with state := .used }
          pid := s.nextpid
          maker := some p
          id := s.born
          orphan := false }).setPc k .user).setPc p (.forkParent k) with
        nextpid := s.nextpid + 1#32
        born := s.born + 1 }
  | die (status : BitVec 32) :
      Turn s p { (s.setSlot p { s.slots p with
          proc := { (s.slots p).proc with state := .zombie }
          xstate := status }).setPc p .gone with
        waitLock := none
        exits := ⟨p, (s.slots p).id, (s.slots p).pid, status⟩ :: s.exits }
  | nothing (addr : Nat) : Turn s p (s.back p addr (-1#32) none)
  | reap (addr k : Nat) (dead : s.table.state k = .zombie) (child : (s.slots k).parent = some p) :
      Turn s p ((s.setSlot k (freeproc { s.slots k with parent := none })).back p addr (s.slots k).pid
        (some ⟨k, (s.slots k).id, (s.slots k).parent, if addr = 0 then none else some (s.slots k).xstate⟩))

theorem Turn.visit {proc : Proc Nat} (visit : Visit (s.slots t).proc proc) (pc : Pc) : Turn s p ((s.setProc t proc).setPc p pc) :=
  .proc t proc pc (visit.dead_iff (by simp [Alive])) (visit.dead_iff (by simp [Alive]))

theorem run_turn (inv : Inv n s) (running : (s.slots p).proc.state = .running) (ran : run n s p fails = some next) :
    Turn s p next := by
  have stay : ∀ pc, Turn s p (s.setPc p pc) := fun pc => .move pc s.waitLock
  cases place : s.pcs p with
  | user | gone => simp [run, place] at ran
  | fork k =>
    simp only [run, place] at ran
    split at ran
    · cases ran
      exact stay _
    split at ran
    · rename_i unused
      split at ran
      · cases ran
        exact .fail k unused
      · cases ran
        exact .alloc k unused
    · cases ran
      exact stay _
  | forkParent child =>
    obtain ⟨used, _, lone⟩ : Facts s.table p (.forkParent child) := place ▸ inv.facts p
    simp only [run, place] at ran
    obtain ⟨_, rfl⟩ := by simpa using ran
    exact .parent child p _ (.inl ⟨lone, used⟩)
  | forkStart child =>
    obtain ⟨used, _⟩ : Facts s.table p (.forkStart child) := place ▸ inv.facts p
    simp only [run, place] at ran
    cases ran
    exact .proc child _ _ (by simp [used]) (by simp [used])
  | exit status =>
    simp only [run, place] at ran
    obtain ⟨free, rfl⟩ := by simpa using ran
    exact .exit status place free
  | reparent status k =>
    simp only [run, place] at ran
    split at ran
    · cases ran
      exact stay _
    split at ran
    · cases ran
      exact .parent k initproc _ (.inr ⟨status, place⟩)
    · cases ran
      exact stay _
  | wakeInit _ _ _ | wakeParent _ _ _ =>
    simp only [run, place] at ran
    split at ran
    · cases ran
      exact stay _
    · cases ran
      exact .visit (visit_visits _ _) _
  | zombie status =>
    simp only [run, place] at ran
    cases ran
    exact .die status
  | wait addr =>
    simp only [run, place] at ran
    obtain ⟨_, rfl⟩ := by simpa using ran
    exact .move _ (some p)
  | scan addr k havekids =>
    simp only [run, place] at ran
    split at ran
    · cases ran
      exact stay _
    split at ran
    · rename_i child
      split at ran
      · rename_i dead
        split at ran
        · cases ran
          exact .nothing addr
        · cases ran
          exact .reap addr k dead child
      · cases ran
        exact stay _
    · cases ran
      exact stay _
  | scanned addr havekids =>
    simp only [run, place] at ran
    split at ran
    · cases ran
      exact .nothing addr
    · cases ran
      exact stay _
  | prepare addr =>
    simp only [run, place] at ran
    cases ran
    exact .proc p _ _ Iff.rfl Iff.rfl
  | release addr =>
    simp only [run, place] at ran
    cases ran
    exact .move _ none
  | sleep addr =>
    simp only [run, place] at ran
    split at ran
    · rename_i registered
      cases ran
      exact .proc p _ _ (by simp [Proc.sleep, registered, Table.state, State.table, running])
        (by simp [Proc.sleep, registered, Table.state, State.table, running])
    · cases ran
      exact stay _
  | asleep addr =>
    simp only [run, place] at ran
    cases ran
    exact stay _
  | kill pid k =>
    simp only [run, place] at ran
    split at ran
    · cases ran
      exact stay _
    split at ran
    · cases ran
      exact .visit (kkill_visits _) _
    · cases ran
      exact stay _

theorem Turn.hist (turn : Turn s p next) (hist : Hist s) (running : s.table.state p = .running) : Hist next := by
  cases turn with
  | move pc lock => exact Same.hist (s := s) ⟨rfl, rfl, rfl, fun _ => Iff.rfl, fun _ => Iff.rfl, fun _ _ => ⟨rfl, rfl, rfl⟩⟩ hist
  | proc t proc pc unused zombie =>
    refine Same.hist (Same.setPc ?_ p pc) hist
    exact Same.setSlot unused zombie fun _ => ⟨rfl, rfl, rfl⟩
  | parent t q pc why =>
    refine Same.hist (Same.setPc ?_ p pc) hist
    exact Same.setSlot Iff.rfl Iff.rfl fun _ => ⟨rfl, rfl, rfl⟩
  | exit status place free =>
    exact Same.hist (s := s) ⟨rfl, rfl, rfl, fun _ => Iff.rfl, fun _ => Iff.rfl, fun _ _ => ⟨rfl, rfl, rfl⟩⟩ hist
  | fail k unused =>
    have same : Same s (s.setSlot k (freeproc (s.slots k))) :=
      Same.setSlot (by simp [freeproc, unused]) (by simp [freeproc, unused]) fun used => absurd unused used
    exact Same.hist ⟨same.born, same.exits, same.waits, same.unused, same.zombie, same.slots⟩ hist
  | alloc k unused =>
    refine hist.alloc unused (fun q different => update_of_ne different ..) ?_ ?_ rfl rfl rfl
    all_goals simp [setPc, setSlot]
  | die status =>
    refine hist.zombie (.inl running) (fun q different => update_of_ne different ..) ?_ ?_ ?_ ?_ rfl rfl rfl
    all_goals simp [setPc, setSlot]
  | nothing addr => exact hist.empty
  | reap addr k dead child => exact hist.reap dead child

theorem step_hist {label : Label} (inv : Inv n s) (hist : Hist s) (stepped : step n s label = some next) :
    Hist next := by
  cases label with
  | call p call =>
    obtain ⟨_, rfl⟩ := by simpa [step] using stepped
    exact ((Same.refl s).setPc _ _).hist hist
  | schedule p =>
    obtain ⟨runnable, rfl⟩ := by simpa [step] using stepped
    exact (Same.setProc (switch_visits (.inr (.inl runnable)) (.inl rfl))).hist hist
  | yield p =>
    obtain ⟨⟨running, _⟩, rfl⟩ := by simpa [step] using stepped
    exact (Same.setProc (switch_visits (.inl running) (.inr rfl))).hist hist
  | run p fails =>
    obtain ⟨running, ran⟩ := by simpa [step] using stepped
    exact (run_turn inv running ran).hist hist running

def Handed (s : State) (q : Nat) : Prop :=
  ∃ p status k, s.table.parent q = some p ∧
    (s.pcs p = .reparent status k ∧ k ≤ q ∨ ∃ j, s.pcs p = .wakeInit status k j ∧ k < q)

structure Orphans (s : State) : Prop where
  given : ∀ q, (s.slots q).orphan = true → s.table.state q ≠ .unused →
    s.table.parent q = some initproc ∨ Handed s q
  single : ∀ q, s.table.parent q = none → s.table.state q ≠ .unused → (s.slots q).orphan = false

theorem boot_orphans : Orphans boot where
  given q := by simp [boot]
  single q := by simp [boot]

def Lasting (s next : State) : Prop := ∀ q, next.table.state q ≠ .unused → (next.slots q).orphan = false ∨
  next.table.parent q = s.table.parent q ∧ (next.slots q).orphan = (s.slots q).orphan ∧ s.table.state q ≠ .unused

theorem Orphans.keep (orphans : Orphans s)
    (slots : Lasting s next)
    (handing : ∀ r status k, (s.pcs r = .reparent status k → next.pcs r = .reparent status k) ∧ ∀ j, s.pcs r = .wakeInit status k j → next.pcs r = .wakeInit status k j)
    : Orphans next := by
  constructor
  · intro q orphan made
    obtain none | ⟨parent, kept, used⟩ := slots q made
    · simp [none] at orphan
    rw [parent]
    rw [kept] at orphan
    obtain first | ⟨p, status, k, is, place⟩ := orphans.given q orphan used
    · exact .inl first
    refine .inr ⟨p, status, k, parent.trans is, ?_⟩
    obtain ⟨here, below⟩ | ⟨j, here, below⟩ := place
    · exact .inl ⟨(handing p status k).1 here, below⟩
    · exact .inr ⟨j, (handing p status k).2 j here, below⟩
  · intro q lone made
    obtain none | ⟨parent, kept, used⟩ := slots q made
    · exact none
    · rw [kept]
      exact orphans.single q (parent.symm.trans lone) used

theorem Orphans.hand (orphans : Orphans s) (inv : Inv n s) (held : s.waitLock = some p)
    (slots : ∀ q, (next.slots q).orphan = (s.slots q).orphan ∧ (next.table.state q = .unused ↔ s.table.state q = .unused))
    (parents : ∀ q, next.table.parent q = s.table.parent q ∨ next.table.parent q = some initproc)
    (moves : ∀ q status k, s.table.parent q = some p → (s.pcs p = .reparent status k ∧ k ≤ q ∨ ∃ j, s.pcs p = .wakeInit status k j ∧ k < q) → next.table.parent q = some initproc ∨ Handed next q)
    : Orphans next := by
  constructor
  · intro q orphan made
    rw [(slots q).1] at orphan
    obtain first | ⟨r, status, k, is, place⟩ :=
      orphans.given q orphan fun unused => made ((slots q).2.mpr unused)
    · obtain kept | given := parents q
      · exact .inl (kept.trans first)
      · exact .inl given
    have owner : s.waitLock = some r := by
      refine (inv.holder r).mpr ?_
      obtain ⟨here, _⟩ | ⟨j, here, _⟩ := place <;> rw [here] <;> rfl
    obtain rfl : p = r := Option.some.inj (held.symm.trans owner)
    exact moves q status k is place
  · intro q lone made
    rw [(slots q).1]
    refine orphans.single q ?_ fun unused => made ((slots q).2.mpr unused)
    obtain kept | given := parents q
    · exact kept.symm.trans lone
    · simp [given] at lone

theorem exit_orphans (inv : Inv n s) (orphans : Orphans s) (free : s.waitLock = none) :
    Orphans { s.setPc p (.reparent status 0) with
      waitLock := some p
      slots := fun q => { s.slots q with
        orphan := (s.slots q).orphan || decide ((s.slots q).parent = some p) } } := by
  constructor
  · intro q orphan made
    obtain before | left := by simpa using orphan
    · obtain first | ⟨r, other, k, _, place⟩ := orphans.given q before made
      · exact .inl first
      have owner : s.waitLock = some r := by
        refine (inv.holder r).mpr ?_
        obtain ⟨here, _⟩ | ⟨j, here, _⟩ := place <;> rw [here] <;> rfl
      simp [free] at owner
    · exact .inr ⟨p, status, 0, left, .inl ⟨by simp [setPc], Nat.zero_le _⟩⟩
  · intro q lone made
    have lone : (s.slots q).parent = none := lone
    simpa [lone] using orphans.single q lone made

theorem reparent_orphans (inv : Inv n s) (orphans : Orphans s) (ran : run n s p fails = some next)
    (place : s.pcs p = .reparent status k) : Orphans next := by
  have held : s.waitLock = some p := (inv.holder p).mpr (place ▸ rfl)
  have only : ∀ q other j, (s.pcs p = .reparent other j ∧ j ≤ q ∨
      ∃ i, s.pcs p = .wakeInit other j i ∧ j < q) → k ≤ q := by
    intro q other j here
    rw [place] at here
    simp only [Pc.reparent.injEq, reduceCtorEq, false_and, exists_false, or_false] at here
    omega
  simp only [run, place] at ran
  split at ran
  · rename_i past
    cases ran
    refine orphans.hand inv held (fun _ => ⟨rfl, Iff.rfl⟩) (fun _ => .inl rfl) ?_
    intro q other j is here
    have := only q other j here
    have := inv.small q (inv.parents q p is).2.2
    omega
  · split at ran
    · cases ran
      have elsewhere : ∀ q, q ≠ k →
          ((s.setSlot k { s.slots k with parent := some initproc }).setPc p
            (.wakeInit status k 0)).slots q = s.slots q := by
        intro q different
        simp [setPc, setSlot, different]
      have here : ((s.setSlot k { s.slots k with parent := some initproc }).setPc p
          (.wakeInit status k 0)).slots k = { s.slots k with parent := some initproc } := by
        simp [setPc, setSlot]
      refine orphans.hand inv held (fun q => ?_) (fun q => ?_) fun q other j is from' => ?_
      · obtain rfl | same := eq_or_ne q k
        · simp [Table.state, State.table, here]
        · simp [Table.state, State.table, elsewhere q same]
      · obtain rfl | same := eq_or_ne q k
        · exact .inr (by simp [Table.parent, State.table, here])
        · exact .inl (by simp [Table.parent, State.table, elsewhere q same])
      · obtain rfl | same := eq_or_ne q k
        · exact .inl (by simp [Table.parent, State.table, here])
        refine .inr ⟨p, status, k, ?_, .inr ⟨0, by simp [setPc], ?_⟩⟩
        · simpa [Table.parent, State.table, elsewhere q same] using is
        · have := only q other j from'
          omega
    · rename_i child
      cases ran
      refine orphans.hand inv held (fun _ => ⟨rfl, Iff.rfl⟩) (fun _ => .inl rfl) ?_
      intro q other j is here
      refine .inr ⟨p, status, k + 1, is, .inl ⟨by simp [setPc], ?_⟩⟩
      have := only q other j here
      have different : q ≠ k := by
        rintro rfl
        exact child is
      omega

theorem wakeInit_orphans {j : Nat} (inv : Inv n s) (orphans : Orphans s) (ran : run n s p fails = some next)
    (place : s.pcs p = .wakeInit status k j) : Orphans next := by
  have held : s.waitLock = some p := (inv.holder p).mpr (place ▸ rfl)
  have only : ∀ q other i, (s.pcs p = .reparent other i ∧ i ≤ q ∨
      ∃ v, s.pcs p = .wakeInit other i v ∧ i < q) → k < q := by
    rintro q other i (⟨here, _⟩ | ⟨v, here, below⟩)
    · simp [place] at here
    · rw [place] at here
      simp only [Pc.wakeInit.injEq] at here
      omega
  simp only [run, place] at ran
  split at ran
  · cases ran
    refine orphans.hand inv held (fun _ => ⟨rfl, Iff.rfl⟩) (fun _ => .inl rfl) ?_
    intro q other i is here
    exact .inr ⟨p, status, k + 1, is, .inl ⟨by simp [setPc], only q other i here⟩⟩
  cases ran
  have same := Same.setProc (s := s) (visit_visits (some initproc) (s.slots j).proc)
  refine orphans.hand inv held (fun q => ⟨?_, same.unused q⟩) (fun q => .inl ?_) ?_
  · obtain rfl | here := eq_or_ne q j
    · simp [setPc, setProc, setSlot]
    · simp [setPc, setProc, setSlot, here]
  · exact setProc_parent s j q _
  · intro q other i is here
    refine .inr ⟨p, status, k, ?_, .inr ⟨j + 1, by simp [setPc], only q other i here⟩⟩
    exact (setProc_parent s j q _).trans is

theorem Lasting.setSlot {slot : Slot} (kept : slot.proc.state ≠ .unused → slot.orphan = false ∨
    slot.parent = s.table.parent t ∧ slot.orphan = (s.slots t).orphan ∧ s.table.state t ≠ .unused) :
    Lasting s (s.setSlot t slot) := by
  intro q made
  obtain rfl | same := eq_or_ne q t
  · simpa [Table.parent, State.table, State.setSlot] using
      kept (by simpa [Table.state, State.table, State.setSlot] using made)
  · exact .inr ⟨by simp [Table.parent, State.table, State.setSlot, same],
      by simp [State.setSlot, same],
      by simpa [Table.state, State.table, State.setSlot, same] using made⟩

theorem Lasting.setProc {proc : Proc Nat} (unused : proc.state = .unused ↔ s.table.state t = .unused) :
    Lasting s (s.setProc t proc) :=
  .setSlot fun used => .inr ⟨rfl, rfl, fun free => used (unused.mpr free)⟩

theorem Orphans.other (orphans : Orphans s)
    (away : ∀ status k, s.pcs p ≠ .reparent status k ∧ ∀ j, s.pcs p ≠ .wakeInit status k j)
    (pcs : ∀ r, r ≠ p → (s.pcs r).idle = false → next.pcs r = s.pcs r)
    (slots : Lasting s next)
    : Orphans next := by
  refine orphans.keep slots fun r status k => ?_
  obtain rfl | same := eq_or_ne r p
  · exact ⟨fun here => absurd here (away status k).1, fun j here => absurd here ((away status k).2 j)⟩
  constructor
  · intro here
    rw [pcs r same (here ▸ rfl), here]
  · intro j here
    rw [pcs r same (here ▸ rfl), here]

theorem Turn.orphans (turn : Turn s p next) (inv : Inv n s) (orphans : Orphans s) (running : s.table.state p = .running)
    (away : ∀ status k, s.pcs p ≠ .reparent status k ∧ ∀ j, s.pcs p ≠ .wakeInit status k j) : Orphans next := by
  have moved : ∀ pc r, r ≠ p → (s.pcs r).idle = false → update s.pcs p pc r = s.pcs r := fun pc r different _ => update_of_ne different ..
  have still : Lasting s s := fun _ made => .inr ⟨rfl, rfl, made⟩
  cases turn with
  | move pc lock => exact orphans.other away (moved pc) still
  | proc t proc pc unused zombie =>
    exact orphans.other away (moved pc) (.setProc unused)
  | parent t q pc why =>
    obtain ⟨lone, used⟩ | ⟨status, place⟩ := why
    · exact orphans.other away (moved pc) (.setSlot fun _ => .inl (orphans.single t lone (by simp [used])))
    · exact absurd place (away status t).1
  | exit status place free => exact exit_orphans inv orphans free
  | fail k _ | reap _ k _ _ =>
    exact orphans.other away (moved .user) (Lasting.setSlot (t := k) (by simp [freeproc]))
  | alloc k unused =>
    refine orphans.other away (fun r different active => ?_) (Lasting.setSlot (t := k) fun _ => .inl rfl)
    have elsewhere : r ≠ k := by
      rintro rfl
      have := inv.busy r active
      simp [unused, Alive] at this
    simp [setPc, setSlot, different, elsewhere]
  | die status =>
    exact orphans.other away (moved .gone) (Lasting.setSlot (t := p) fun _ => .inr ⟨rfl, rfl, by simp [running]⟩)
  | nothing addr => exact orphans.other away (moved .user) still

theorem step_orphans {label : Label} (inv : Inv n s) (orphans : Orphans s) (stepped : step n s label = some next) :
    Orphans next := by
  cases label with
  | call p call =>
    obtain ⟨⟨_, place, _⟩, rfl⟩ := by simpa [step] using stepped
    refine orphans.other (p := p) (by simp [place]) ?_ fun _ made => .inr ⟨rfl, rfl, made⟩
    intro r different _
    simp [setPc, different]
  | schedule p =>
    obtain ⟨runnable, rfl⟩ := by simpa [step] using stepped
    exact orphans.keep (.setProc (Visit.dead_iff (switch_visits (.inr (.inl runnable)) (.inl rfl)) (by simp [Alive])))
      fun _ _ _ => ⟨id, fun _ => id⟩
  | yield p =>
    obtain ⟨⟨running, _⟩, rfl⟩ := by simpa [step] using stepped
    exact orphans.keep (.setProc (Visit.dead_iff (switch_visits (.inl running) (.inr rfl)) (by simp [Alive])))
      fun _ _ _ => ⟨id, fun _ => id⟩
  | run p fails =>
    obtain ⟨running, ran⟩ := by simpa [step] using stepped
    by_cases away : ∀ status k, s.pcs p ≠ .reparent status k ∧ ∀ j, s.pcs p ≠ .wakeInit status k j
    · exact (run_turn inv running ran).orphans inv orphans running away
    push Not at away
    obtain ⟨status, k, handing⟩ := away
    by_cases place : s.pcs p = .reparent status k
    · exact reparent_orphans inv orphans ran place
    · obtain ⟨j, place⟩ := handing place
      exact wakeInit_orphans inv orphans ran place

/-- A return of `kwait` with a pid has taken an exited child of the caller and reports its
pid and status; no process is taken twice or before it has exited; a `kwait` whose copy
fails takes nothing; the children that an exiting process left are the first process's. -/
theorem exit_wait {n : Nat} (table : 0 < n) {s : State}
    (reached : Reaches (step n) (fun _ _ => True) boot s) :
    (∀ w ∈ s.waits, 0 < w.value.toInt → ∃ r status, w.reaped = some r ∧
      r.parent = some w.caller ∧ ⟨r.slot, r.id, w.value, status⟩ ∈ s.exits ∧
      r.status = if w.addr = 0 then none else some status) ∧
    s.reapedIds.Nodup ∧
    (∀ e ∈ s.exits, e.id ∈ s.reapedIds ∨ e.Kept s) ∧
    (∀ p addr k havekids next, s.pcs p = .scan addr k havekids → k < n → addr ≠ 0 →
      (s.slots k).parent = some p → (s.slots k).proc.state = .zombie →
      step n s (.run p true) = some next →
      next.slots = s.slots ∧ next.waits = ⟨p, addr, -1#32, none⟩ :: s.waits) ∧
    (s.waitLock = none → ∀ q, (s.slots q).orphan = true → (s.slots q).proc.state ≠ .unused →
      (s.slots q).parent = some initproc) ∧
    (s.waitLock = none → ∀ q p, (s.slots q).parent = some p →
      (s.slots p).proc.state ≠ .unused ∧ (s.slots p).proc.state ≠ .zombie) := by
  obtain ⟨inv, hist, orphans⟩ := reached.invariant (fun s => Inv n s ∧ Hist s ∧ Orphans s)
    ⟨boot_inv table, boot_hist, boot_orphans⟩ fun s label next held _ stepped =>
      ⟨step_inv table held.1 stepped, step_hist held.1 held.2.1 stepped,
        step_orphans held.1 held.2.2 stepped⟩
  refine ⟨?_, hist.once, hist.exited, ?_, ?_, ?_⟩
  · intro w listed positive
    have sound := hist.returns w listed
    unfold Return.Sound at sound
    split at sound
    · rw [sound] at positive
      exact absurd positive (by decide)
    · rename_i r taken
      obtain ⟨parent, status, exited, delivered⟩ := sound
      exact ⟨r, status, taken, parent, exited, delivered⟩
  · intro p addr k havekids next place below asked child dead stepped
    obtain ⟨_, ran⟩ := by simpa [step] using stepped
    simp only [run, place] at ran
    rw [if_neg (by omega), if_pos child, if_pos dead, if_pos ⟨asked, trivial⟩] at ran
    cases ran
    exact ⟨rfl, rfl⟩
  · intro free q orphan made
    obtain first | ⟨r, status, k, _, place⟩ := orphans.given q orphan made
    · exact first
    have owner : s.waitLock = some r := by
      refine (inv.holder r).mpr ?_
      obtain ⟨here, _⟩ | ⟨j, here, _⟩ := place <;> rw [here] <;> rfl
    simp [free] at owner
  · intro _ q p child
    have alive := (inv.parents q p child).2.1
    constructor
    · intro unused
      simp [show s.table.state p = .unused from unused, Alive] at alive
    · intro zombie
      simp [show s.table.state p = .zombie from zombie, Alive] at alive

theorem exit_wait_once : ∃ s : State, Reaches (step 2) (fun _ _ => True) boot s ∧
    ∃ w ∈ s.waits, w.value = 2#32 ∧ ∃ r status, w.reaped = some r ∧ r.parent = some w.caller ∧
      ⟨r.slot, r.id, w.value, status⟩ ∈ s.exits ∧
      r.status = if w.addr = 0 then none else some status := by
  let runs (p k : Nat) : List Label := List.replicate k (.run p false)
  obtain ⟨s, reached, seen⟩ := reaches_seen (show
    (runLabels (step 2) boot
      ([.schedule 0, .call 0 .fork] ++ runs 0 4 ++ [.schedule 1, .call 1 (.exit 7#32)] ++ runs 1 8 ++
        [.call 0 (.wait 5)] ++ runs 0 3)).map (fun s => s.waits.map Return.value) =
      some [2#32] by decide +kernel)
  obtain ⟨w, listed, value⟩ : ∃ w ∈ s.waits, w.value = 2#32 := by
    rw [← mem_map, seen]
    exact mem_singleton_self _
  exact ⟨s, reached, w, listed, value,
    (exit_wait (by decide) reached).1 w listed (by rw [value]; decide)⟩

end Xv6.Wait

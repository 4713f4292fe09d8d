import Xv6.Proc.Wait

/-!
The invariant of exit and wait. `Facts` says what a process knows at its place in the code.
`Inv` adds what always holds of the table: a parent is alive, and a process registered for
the exit of a child has no zombie child, but for the first process while a child is being
handed to it.
-/

namespace Xv6.Wait

open Function State
open Xv6.Lib
open Xv6.Procs

variable {r t k child addr j : Nat} {pc : Pc} {slot : Slot} {status : BitVec 32}

def Alive (state : ProcState) : Prop := state = .running ∨ state = .runnable ∨ state = .sleeping

instance (state : ProcState) : Decidable (Alive state) := by
  unfold Alive
  infer_instance

abbrev Table := Nat → Slot

def Table.state (table : Table) (p : Nat) : ProcState := (table p).proc.state

def Table.chan (table : Table) (p : Nat) : Option Nat := (table p).proc.chan

def Table.parent (table : Table) (p : Nat) : Option Nat := (table p).parent

def State.table (s : State) : Table := s.slots

def Facts (table : Table) (p : Nat) : Pc → Prop
  | .forkParent child =>
    table.state child = .used ∧ (table child).maker = some p ∧ table.parent child = none
  | .forkStart child => table.state child = .used ∧ (table child).maker = some p
  | .exit _ => p ≠ initproc
  | .reparent _ k => p ≠ initproc ∧ ∀ q < k, table.parent q ≠ some p
  | .wakeInit _ k j => p ≠ initproc ∧ (∀ q < k + 1, table.parent q ≠ some p) ∧
      (0 < j → table.chan initproc = none)
  | .wakeParent _ parent j => p ≠ initproc ∧ (∀ q, table.parent q ≠ some p) ∧
      parent = table.parent p ∧ ∀ t < j, table.parent p = some t → table.chan t = none
  | .zombie _ => p ≠ initproc ∧ (∀ q, table.parent q ≠ some p) ∧
      ∀ t, table.parent p = some t → table.chan t = none
  | .scan _ k _ => ∀ q < k, table.parent q = some p → table.state q ≠ .zombie
  | .scanned _ _ | .prepare _ => ∀ q, table.parent q = some p → table.state q ≠ .zombie
  | _ => True

structure Rest (n : Nat) (s : State) : Prop where
  holder : ∀ p, s.waitLock = some p ↔ (s.pcs p).locked = true
  busy : ∀ p, (s.pcs p).idle = false → Alive (s.table.state p)
  small : ∀ p, s.table.state p ≠ .unused → p < n
  asleep : ∀ p, s.table.state p = .sleeping →
    s.table.chan p = some p ∧ ∃ addr, s.pcs p = .asleep addr
  chans : ∀ t c, s.table.chan t = some c → c = t
  parents : ∀ q p, s.table.parent q = some p →
    p ≠ q ∧ Alive (s.table.state p) ∧ s.table.state q ≠ .unused
  init : Alive (s.table.state initproc) ∧ s.table.parent initproc = none
  fresh : ∀ p, s.table.chan p = some p →
    (∀ q, s.table.parent q = some p → s.table.state q ≠ .zombie) ∨
    p = initproc ∧ ∃ r status k, s.pcs r = .wakeInit status k 0

structure Inv (n : Nat) (s : State) : Prop extends Rest n s where
  facts : ∀ p, Facts s.table p (s.pcs p)

theorem boot_inv {n : Nat} (some : 0 < n) : Inv n boot where
  facts _ := trivial
  holder p := by simp [boot, Pc.locked]
  busy p := by simp [boot, Pc.idle]
  small p used := by
    by_cases first : p = initproc
    · rw [first]
      exact some
    · simp [Table.state, State.table, boot, first] at used
  asleep p := by
    by_cases first : p = initproc <;> simp [Table.state, State.table, boot, first]
  chans t c := by simp [Table.chan, State.table, boot]
  parents q p := by simp [Table.parent, State.table, boot]
  init := by simp [Alive, Table.state, Table.parent, State.table, boot]
  fresh p := by simp [Table.chan, State.table, boot]

def KeepsChild (table next : Table) (r : Nat) (pc : Pc) : Prop :=
  ∀ child, pc = .forkParent child ∨ pc = .forkStart child →
    table.state child = .used → (table child).maker = some r →
    next.state child = .used ∧ (next child).maker = some r ∧
      (pc = .forkParent child → next.parent child = table.parent child)

theorem Facts.unlocked {table next : Table} (facts : Facts table r pc) (unlocked : pc.locked = false)
    (child : KeepsChild table next r pc) : Facts next r pc := by
  cases pc with
  | forkParent made =>
    obtain ⟨state, maker, parent⟩ := child made (.inl rfl) facts.1 facts.2.1
    exact ⟨state, maker, (parent rfl).trans facts.2.2⟩
  | forkStart made =>
    obtain ⟨state, maker, _⟩ := child made (.inr rfl) facts.1 facts.2
    exact ⟨state, maker⟩
  | exit status => exact facts
  | _ => trivial

structure Frame (table next : Table) (r : Nat) (pc : Pc) : Prop where
  parents : ∀ q, next.parent q = table.parent q
  zombies : ∀ q, next.state q = .zombie → table.state q = .zombie
  chans : ∀ t, table.chan t = none → next.chan t = none
  child : KeepsChild table next r pc

theorem Facts.frame {table next : Table} (facts : Facts table r pc) (frame : Frame table next r pc) :
    Facts next r pc := by
  cases pc with
  | user | fork _ | gone | wait _ | release _ | sleep _ | asleep _ | kill _ _ => trivial
  | forkParent child | forkStart child => exact facts.unlocked rfl frame.child
  | exit status => exact facts
  | reparent status k =>
    refine ⟨facts.1, fun q below => ?_⟩
    rw [frame.parents]
    exact facts.2 q below
  | wakeInit status k j =>
    refine ⟨facts.1, fun q below => ?_, fun later => frame.chans _ (facts.2.2 later)⟩
    rw [frame.parents]
    exact facts.2.1 q below
  | wakeParent status parent j =>
    refine ⟨facts.1, fun q => ?_, ?_, fun t below is => ?_⟩
    · rw [frame.parents]
      exact facts.2.1 q
    · rw [frame.parents]
      exact facts.2.2.1
    · rw [frame.parents] at is
      exact frame.chans t (facts.2.2.2 t below is)
  | zombie status =>
    refine ⟨facts.1, fun q => ?_, fun t is => ?_⟩
    · rw [frame.parents]
      exact facts.2.1 q
    · rw [frame.parents] at is
      exact frame.chans t (facts.2.2 t is)
  | scan addr k havekids =>
    intro q below is dead
    rw [frame.parents] at is
    exact facts q below is (frame.zombies q dead)
  | scanned _ _ | prepare _ =>
    intro q is dead
    rw [frame.parents] at is
    exact facts q is (frame.zombies q dead)

section Steps

variable {n : Nat} {s : State}

theorem Rest.congr {next : State} (rest : Rest n s) (pcs : next.pcs = s.pcs)
    (lock : next.waitLock = s.waitLock)
    (same : ∀ q, (next.slots q).proc = (s.slots q).proc ∧
      (next.slots q).parent = (s.slots q).parent) : Rest n next := by
  have states : ∀ q, next.table.state q = s.table.state q := fun q => congrArg Proc.state (same q).1
  have chans : ∀ q, next.table.chan q = s.table.chan q := fun q => congrArg Proc.chan (same q).1
  have parents : ∀ q, next.table.parent q = s.table.parent q := fun q => (same q).2
  constructor
  all_goals simp only [states, chans, parents, pcs, lock]
  exacts [rest.holder, rest.busy, rest.small, rest.asleep, rest.chans, rest.parents, rest.init,
    rest.fresh]

theorem Rest.move {next : State} {p : Nat} (rest : Rest n s) (table : next.table = s.table)
    (pcs : next.pcs = update s.pcs p pc) (active : pc.idle = false → Alive (s.table.state p))
    (awake : s.table.state p ≠ .sleeping)
    (lock : next.waitLock = s.waitLock ∧ pc.locked = (s.pcs p).locked ∨ s.waitLock = none ∧ next.waitLock = some p ∧ pc.locked = true ∨ s.waitLock = some p ∧ next.waitLock = none ∧ pc.locked = false)
    (visited : (∀ status k, s.pcs p ≠ .wakeInit status k 0) ∨ s.table.chan initproc = none) : Rest n next := by
  constructor
  all_goals try simp only [table, pcs]
  · refine (forall_update_iff s.pcs fun r pc => next.waitLock = some r ↔ pc.locked = true).mpr
      ⟨?_, fun r other => ?_⟩
    · obtain ⟨kept, locked⟩ | ⟨_, taken, locked⟩ | ⟨_, freed, locked⟩ := lock
      · rw [kept, locked]
        exact rest.holder p
      · simp [taken, locked]
      · simp [freed, locked]
    rw [← rest.holder r]
    obtain ⟨kept, _⟩ | ⟨free, taken, _⟩ | ⟨owner, freed, _⟩ := lock
    · rw [kept]
    · simp [free, taken, Ne.symm other]
    · simp [owner, freed, Ne.symm other]
  · exact (forall_update_iff s.pcs fun r pc => pc.idle = false → Alive (s.table.state r)).mpr
      ⟨active, fun r _ => rest.busy r⟩
  · exact rest.small
  · intro r sleeping
    obtain ⟨registered, addr, place⟩ := rest.asleep r sleeping
    have other : r ≠ p := fun same => awake (same ▸ sleeping)
    exact ⟨registered, addr, by rw [update_of_ne other, place]⟩
  · exact rest.chans
  · exact rest.parents
  · exact rest.init
  · intro t registered
    obtain clean | ⟨first, r, status, k, place⟩ := rest.fresh t registered
    · exact .inl clean
    obtain rfl | same := eq_or_ne r p
    · obtain other | cleared := visited
      · exact absurd place (other status k)
      · simp [first, cleared] at registered
    · exact .inr ⟨first, r, status, k, by rw [update_of_ne same, place]⟩

theorem Rest.setSlot (rest : Rest n s) (busy : (s.pcs t).idle = false → Alive slot.proc.state)
    (small : slot.proc.state ≠ .unused → t < n)
    (asleep : slot.proc.state = .sleeping → slot.proc.chan = some t ∧ ∃ addr, s.pcs t = .asleep addr)
    (chan : ∀ c, slot.proc.chan = some c → c = t)
    (kids : ∀ q, q ≠ t → s.table.parent q = some t → Alive slot.proc.state)
    (parent : ∀ p, slot.parent = some p → p ≠ t ∧ Alive (s.table.state p) ∧ slot.proc.state ≠ .unused ∧ (slot.proc.state = .zombie → s.table.chan p = none ∨ s.table.parent t = some p ∧ s.table.state t = .zombie ∨ p = initproc ∧ ∃ r status k, s.pcs r = .wakeInit status k 0))
    (init : t = initproc → Alive slot.proc.state ∧ slot.parent = none)
    (waiter : slot.proc.chan = some t → s.table.chan t = some t ∨ ∀ q, q ≠ t → s.table.parent q = some t → s.table.state q ≠ .zombie) :
    Rest n (s.setSlot t slot) := by
  have others : ∀ q, q ≠ t → update s.table t slot q = s.table q := fun q other =>
    update_of_ne other _ _
  have here : update s.table t slot t = slot := update_self _ _ _
  refine ⟨rest.holder, ?_, ?_, ?_, ?_, ?_, ?_, ?_⟩
  · exact (forall_update_iff s.table fun q (slot : Slot) => (s.pcs q).idle = false →
      Alive slot.proc.state).mpr ⟨busy, fun q _ => rest.busy q⟩
  · exact (forall_update_iff s.table fun q (slot : Slot) => slot.proc.state ≠ .unused → q < n).mpr
      ⟨small, fun q _ => rest.small q⟩
  · exact (forall_update_iff s.table fun q (slot : Slot) => slot.proc.state = .sleeping →
      slot.proc.chan = some q ∧ ∃ addr, s.pcs q = .asleep addr).mpr
        ⟨asleep, fun q _ => rest.asleep q⟩
  · exact (forall_update_iff s.table fun q (slot : Slot) => ∀ c, slot.proc.chan = some c → c = q).mpr
      ⟨chan, fun q _ => rest.chans q⟩
  · refine (forall_update_iff s.table fun q (slot' : Slot) => ∀ p, slot'.parent = some p →
      p ≠ q ∧ Alive (update s.table t slot p).proc.state ∧ slot'.proc.state ≠ .unused).mpr
        ⟨fun p is => ?_, fun q same p is => ?_⟩
    · obtain ⟨different, lives, made, _⟩ := parent p is
      rw [others p different]
      exact ⟨different, lives, made⟩
    obtain ⟨other, lives, made⟩ := rest.parents q p is
    refine ⟨other, ?_, made⟩
    obtain rfl | self := eq_or_ne p t
    · rw [here]
      exact kids q same is
    · rw [others p self]
      exact lives
  · by_cases same : initproc = t
    · simpa [Table.state, Table.parent, State.table, State.setSlot, same] using init same.symm
    · simpa [Table.state, Table.parent, State.table, State.setSlot, same] using rest.init
  · intro p registered
    have registered : (update s.table t slot p).proc.chan = some p := registered
    obtain rfl | self := eq_or_ne p t
    · rw [here] at registered
      have child : (∀ q, q ≠ p → s.table.parent q = some p → s.table.state q ≠ .zombie) →
          ∀ q, (s.setSlot p slot).table.parent q = some p →
            (s.setSlot p slot).table.state q ≠ .zombie := fun clean =>
        (forall_update_iff s.table fun _ (slot : Slot) => slot.parent = some p →
          slot.proc.state ≠ .zombie).mpr ⟨fun is => absurd rfl (parent p is).1, clean⟩
      obtain before | clean := waiter registered
      · exact (rest.fresh p before).imp_left fun clean => child fun q _ => clean q
      · exact .inl (child clean)
    · rw [others p self] at registered
      obtain clean | exception := rest.fresh p registered
      · by_cases excused : p = initproc ∧ ∃ r status k, s.pcs r = .wakeInit status k 0
        · exact .inr excused
        refine .inl ((forall_update_iff s.table fun q (slot : Slot) => slot.parent = some p →
          slot.proc.state ≠ .zombie).mpr ⟨fun is dead => ?_, fun q _ => clean q⟩)
        obtain cleared | ⟨before, dead⟩ | exception := (parent p is).2.2.2 dead
        · exact absurd (cleared.symm.trans registered) (by simp)
        · exact clean t before dead
        · exact excused exception
      · exact .inr exception

structure Visit (proc after : Proc Nat) : Prop where
  alive : Alive proc.state → Alive after.state
  kept : ¬ Alive proc.state → after.state = proc.state
  chan : after.chan = proc.chan ∨ after.chan = none
  asleep : after.state = .sleeping → proc.state = .sleeping ∧ after.chan = proc.chan

theorem Visit.of_dead {proc after : Proc Nat} (visit : Visit proc after) {state : ProcState}
    (dead : ¬ Alive state) (is : after.state = state) : proc.state = state := by
  by_cases lives : Alive proc.state
  · exact absurd (is ▸ visit.alive lives) dead
  · rw [← visit.kept lives, is]

variable (inv : Inv n s)
include inv

theorem Inv.move {next : State} {p : Nat} (table : next.table = s.table) (pcs : next.pcs = update s.pcs p pc)
    (running : s.table.state p = .running)
    (lock : next.waitLock = s.waitLock ∧ pc.locked = (s.pcs p).locked ∨ s.waitLock = none ∧ next.waitLock = some p ∧ pc.locked = true ∨ s.waitLock = some p ∧ next.waitLock = none ∧ pc.locked = false)
    (facts : Facts s.table p pc) (visited : (∀ status k, s.pcs p ≠ .wakeInit status k 0) ∨ s.table.chan initproc = none) :
    Inv n next := by
  refine ⟨inv.toRest.move table pcs (fun _ => .inl running) (by simp [running]) lock visited, ?_⟩
  rw [table, pcs]
  exact (forall_update_iff s.pcs (Facts s.table)).mpr ⟨facts, fun r _ => inv.facts r⟩

theorem Inv.idle {q : Nat} (dead : ¬ Alive (s.table.state q)) : (s.pcs q).idle = true := by
  cases idle : (s.pcs q).idle
  · exact absurd (inv.busy q idle) dead
  · rfl

theorem Inv.orphaned (unused : s.table.state k = .unused) : s.table.parent k = none := by
  cases is : s.table.parent k with
  | none => rfl
  | some p => exact absurd unused (inv.parents k p is).2.2

theorem Inv.unlocked {p : Nat} (held : s.waitLock = some p) (other : r ≠ p) : (s.pcs r).locked = false := by
  cases locked : (s.pcs r).locked
  · rfl
  · have := (inv.holder r).mpr locked
    rw [held] at this
    exact absurd (Option.some.inj this).symm other

theorem Inv.free (free : s.waitLock = none) : (s.pcs r).locked = false := by
  cases locked : (s.pcs r).locked
  · rfl
  · have := (inv.holder r).mpr locked
    simp [free] at this

theorem Inv.facts_free (free : s.waitLock = none)
    (made : s.table.state t ≠ .used ∨ slot.proc.state = .used ∧ slot.maker = (s.slots t).maker ∧ ∀ r, s.pcs r ≠ .forkParent t)
    (r : Nat) : Facts (update s.table t slot) r (s.pcs r) := by
  refine (inv.facts r).unlocked (inv.free free) fun child _ used maker => ?_
  obtain rfl | same := eq_or_ne child t
  · obtain other | ⟨state, kept, given⟩ := made
    · exact absurd used other
    · simp only [Table.state, update_self]
      exact ⟨state, kept.trans maker, fun making => absurd making (given r)⟩
  · simpa [Table.state, Table.parent, same] using ⟨used, maker⟩

theorem Inv.facts_frame
    (alone : (∀ r, s.pcs r ≠ .forkParent t ∧ s.pcs r ≠ .forkStart t) ∨ slot.proc.state = .used ∧ slot.maker = (s.slots t).maker)
    (parent : slot.parent = s.table.parent t) (alive : slot.proc.state = .zombie → s.table.state t = .zombie)
    (chan : slot.proc.chan = s.table.chan t ∨ slot.proc.chan = none) (r : Nat) :
    Facts (update s.table t slot) r (s.pcs r) := by
  have parents : ∀ q, Table.parent (update s.table t slot) q = s.table.parent q :=
    (forall_update_iff s.table fun q (slot : Slot) => slot.parent = s.table.parent q).mpr
      ⟨parent, fun _ _ => rfl⟩
  refine (inv.facts r).frame ⟨parents, ?_, ?_, fun child making used maker => ?_⟩
  · exact (forall_update_iff s.table fun q (slot : Slot) => slot.proc.state = .zombie →
      s.table.state q = .zombie).mpr ⟨alive, fun _ _ => id⟩
  · refine (forall_update_iff s.table fun q (slot : Slot) => s.table.chan q = none →
      slot.proc.chan = none).mpr ⟨fun none => ?_, fun _ _ => id⟩
    exact chan.elim (fun kept => kept.trans none) id
  · rw [parents]
    obtain rfl | same := eq_or_ne child t
    · obtain alone | ⟨state, kept⟩ := alone
      · exact absurd making (not_or.mpr (alone r))
      · simpa [Table.state, kept] using ⟨state, maker⟩
    · simpa [Table.state, same] using ⟨used, maker⟩

theorem Inv.unmade (unused : s.table.state t ≠ .used) (r : Nat) : s.pcs r ≠ .forkParent t ∧ s.pcs r ≠ .forkStart t := by
  have facts := inv.facts r
  constructor
  all_goals
    intro place
    rw [place] at facts
    exact unused facts.1

theorem Inv.visited {after : Proc Nat} (visit : Visit (s.slots t).proc after) : Inv n (s.setProc t after) := by
  refine ⟨inv.toRest.setSlot ?_ ?_ ?_ ?_ ?_ ?_ ?_ ?_, ?_⟩
  · exact fun active => visit.alive (inv.busy t active)
  · refine fun made => inv.small t fun unused => made ?_
    exact (visit.kept (by simp [show (s.slots t).proc.state = _ from unused, Alive])).trans unused
  · intro sleeping
    obtain ⟨before, kept⟩ := visit.asleep sleeping
    exact kept ▸ inv.asleep t before
  · intro c registered
    obtain same | cleared := visit.chan
    · exact inv.chans t c (same.symm.trans registered)
    · simp [cleared] at registered
  · exact fun q _ is => visit.alive (inv.parents q t is).2.1
  · intro p is
    obtain ⟨other, lives, made⟩ := inv.parents t p is
    exact ⟨other, lives, fun unused => made (visit.of_dead (by simp [Alive]) unused),
      fun dead => .inr (.inl ⟨is, visit.of_dead (by simp [Alive]) dead⟩)⟩
  · rintro rfl
    exact ⟨visit.alive inv.init.1, inv.init.2⟩
  · intro registered
    obtain same | cleared := visit.chan
    · exact .inl (same.symm.trans registered)
    · simp [cleared] at registered
  · refine inv.facts_frame ?_ rfl (visit.of_dead (by simp [Alive])) visit.chan
    by_cases used : s.table.state t = .used
    · have used : (s.slots t).proc.state = .used := used
      exact .inr ⟨(visit.kept (by simp [used, Alive])).trans used, rfl⟩
    · exact .inl (inv.unmade used)

theorem Inv.adopt {p : Nat} (free : s.waitLock = none) (used : s.table.state child = .used)
    (running : s.table.state p = .running) (given : ∀ r, s.pcs r ≠ .forkParent child) :
    Inv n (s.setSlot child { s.slots child with parent := some p }) := by
  have different : p ≠ child := by
    rintro rfl
    simp [used] at running
  have state : (s.slots child).proc.state = .used := used
  refine ⟨inv.setSlot (inv.busy child) (inv.small child) (by simp [state]) (inv.chans child)
    (fun q _ is => (inv.parents q child is).2.1) ?_ ?_ .inl,
    inv.facts_free free (.inr ⟨used, rfl, given⟩)⟩
  · intro q is
    cases is
    exact ⟨different, .inl running, by simp [state], by simp [state]⟩
  · rintro rfl
    have := inv.init.1
    simp [used, Alive] at this

theorem Inv.start (used : s.table.state child = .used)
    (alone : ∀ r, s.pcs r ≠ .forkParent child ∧ s.pcs r ≠ .forkStart child) :
    Inv n (s.setProc child { (s.slots child).proc with state := .runnable }) := by
  have alive : Alive .runnable := .inr (.inl rfl)
  refine ⟨inv.setSlot (fun _ => alive) (fun _ => inv.small child (by simp [used])) (by simp)
    (inv.chans child) (fun _ _ _ => alive) ?_ ?_ .inl,
    inv.facts_frame (.inl alone) rfl (by simp) (.inl rfl)⟩
  · intro p is
    obtain ⟨other, lives, _⟩ := inv.parents child p is
    exact ⟨other, lives, by simp, by simp⟩
  · rintro rfl
    exact ⟨alive, inv.init.2⟩

theorem Inv.die {p : Nat} (free : s.waitLock = none) (gone : (s.pcs p).idle = true) (alive : Alive (s.table.state p))
    (other : p ≠ initproc) (childless : ∀ q, s.table.parent q ≠ some p)
    (visited : ∀ t, s.table.parent p = some t → s.table.chan t = none) (state : slot.proc.state = .zombie)
    (chan : slot.proc.chan = s.table.chan p) (parent : slot.parent = s.table.parent p) : Inv n (s.setSlot p slot) := by
  refine ⟨inv.setSlot (by simp [gone]) ?_ (by simp [state]) (chan ▸ inv.chans p)
    (fun q _ is => absurd is (childless q)) ?_ (fun same => absurd same other)
    (fun is => .inl (chan ▸ is)), inv.facts_free free (.inl ?_)⟩
  · refine fun _ => inv.small p fun unused => ?_
    simp [unused, Alive] at alive
  · intro t is
    rw [parent] at is
    obtain ⟨different, lives, _⟩ := inv.parents p t is
    exact ⟨different, lives, by simp [state], fun _ => .inl (visited t is)⟩
  · intro used
    simp [used, Alive] at alive

theorem Inv.freed (facts : ∀ r, Facts (update s.table t slot) r (s.pcs r)) (dead : ¬ Alive (s.table.state t))
    (state : slot.proc.state = .unused) (chan : slot.proc.chan = none) (parent : slot.parent = none) :
    Inv n (s.setSlot t slot) := by
  refine ⟨inv.setSlot (by simp [inv.idle dead]) (by simp [state]) (by simp [state]) (by simp [chan])
    (fun q _ is => absurd (inv.parents q t is).2.1 dead) (by simp [parent]) ?_ (by simp [chan]),
    facts⟩
  rintro rfl
  exact absurd inv.init.1 dead

theorem Inv.alloc (unused : s.table.state k = .unused) (small : k < n) (state : slot.proc.state = .used)
    (chan : slot.proc.chan = s.table.chan k) (parent : slot.parent = s.table.parent k) : Inv n (s.setSlot k slot) := by
  have dead : ¬ Alive (s.table.state k) := by simp [unused, Alive]
  refine ⟨inv.setSlot (by simp [inv.idle dead]) (fun _ => small) (by simp [state])
    (chan ▸ inv.chans k) (fun q _ is => absurd (inv.parents q k is).2.1 dead)
    (by simp [parent, inv.orphaned unused]) ?_ (fun is => .inl (chan ▸ is)),
    inv.facts_frame (.inl (inv.unmade (by simp [unused]))) parent (by simp [state]) (.inl chan)⟩
  rintro rfl
  exact absurd inv.init.1 dead

theorem Inv.give {p : Nat} (running : s.table.state p = .running) (place : s.pcs p = .reparent status k)
    (child : s.table.parent k = some p) :
    Inv n ((s.setSlot k { s.slots k with parent := some initproc }).setPc p
      (.wakeInit status k 0)) := by
  obtain ⟨other, earlier⟩ : Facts s.table p (.reparent status k) := place ▸ inv.facts p
  obtain ⟨_, _, made⟩ := inv.parents k p child
  have held : s.waitLock = some p := (inv.holder p).mpr (place ▸ rfl)
  have later : k ≠ initproc := by
    rintro rfl
    simp [inv.init.2] at child
  have moved : Rest n (s.setPc p (.wakeInit status k 0)) :=
    inv.toRest.move rfl rfl (fun _ => .inl running) (by simp [running])
      (.inl ⟨rfl, by rw [place]; rfl⟩) (.inl (by simp [place]))
  refine ⟨moved.setSlot (moved.busy k) (moved.small k) (moved.asleep k) (moved.chans k)
    (fun q _ is => (moved.parents q k is).2.1) ?_ (fun same => absurd same later) .inl,
    (forall_update_iff s.pcs (Facts _)).mpr ⟨⟨other, ?_, by simp⟩, fun r same => ?_⟩⟩
  · intro q is
    cases is
    exact ⟨later.symm, inv.init.1, made,
      fun _ => .inr (.inr ⟨rfl, p, status, k, by simp [setPc]⟩)⟩
  · refine (forall_update_iff s.table fun q (slot : Slot) => q < k + 1 →
      slot.parent ≠ some p).mpr ⟨fun _ is => ?_, fun q elsewhere below => earlier q (by omega)⟩
    exact other (Option.some.inj is).symm
  · refine (inv.facts r).unlocked (inv.unlocked held same) fun made _ used maker => ?_
    obtain rfl | this := eq_or_ne made k
    · simp only [Table.state, setPc, setSlot, State.table, update_self]
      refine ⟨used, maker, fun making => ?_⟩
      have facts := inv.facts r
      rw [making] at facts
      simp [facts.2.2] at child
    · simpa [Table.state, Table.parent, setPc, setSlot, State.table, this] using
        ⟨used, maker⟩

theorem Inv.prepare {p : Nat} (place : s.pcs p = .release addr) (alive : Alive (s.table.state p))
    (awake : s.table.state p ≠ .sleeping) (clean : ∀ q, s.table.parent q = some p → s.table.state q ≠ .zombie) :
    Inv n (s.setProc p ((s.slots p).proc.sleepPrepare p)) := by
  have held : s.waitLock = some p := (inv.holder p).mpr (place ▸ rfl)
  refine ⟨inv.setSlot (fun _ => alive) (inv.small p) (fun sleeping => absurd sleeping awake)
    (fun c registered => (Option.some.inj registered).symm) (fun _ _ _ => alive) ?_ ?_
    (fun _ => .inr fun q _ => clean q), fun r => ?_⟩
  · intro t is
    obtain ⟨different, lives, made⟩ := inv.parents p t is
    refine ⟨different, lives, made, fun dead => ?_⟩
    have dead : s.table.state p = .zombie := dead
    simp [dead, Alive] at alive
  · rintro rfl
    exact inv.init
  · obtain rfl | same := eq_or_ne r p
    · change Facts _ r (s.pcs r)
      rw [place]
      trivial
    refine (inv.facts r).unlocked (inv.unlocked held same) fun child _ used maker => ?_
    have different : child ≠ p := by
      rintro rfl
      simp [used, Alive] at alive
    simpa [Table.state, Table.parent, setProc, setSlot, State.table, different] using
      ⟨used, maker⟩

theorem Inv.sleep {p : Nat} (place : s.pcs p = .asleep addr) (alive : Alive (s.table.state p))
    (registered : (s.slots p).proc.chan.isSome) : Inv n (s.setProc p (s.slots p).proc.sleep) := by
  obtain ⟨c, is⟩ := Option.isSome_iff_exists.mp registered
  obtain rfl := inv.chans p c is
  have sleeps : Alive .sleeping := .inr (.inr rfl)
  have shape : (s.slots c).proc.sleep = { (s.slots c).proc with state := .sleeping } := by
    simp [Proc.sleep, registered]
  rw [shape]
  refine ⟨inv.setSlot (fun _ => sleeps) ?_ (fun _ => ⟨is, addr, place⟩) (inv.chans c)
    (fun _ _ _ => sleeps) ?_ ?_ .inl,
    inv.facts_frame (.inl (inv.unmade ?_)) rfl (by simp) (.inl rfl)⟩
  · refine fun _ => inv.small c fun unused => ?_
    simp [unused, Alive] at alive
  · intro t parent
    obtain ⟨different, lives, _⟩ := inv.parents c t parent
    exact ⟨different, lives, by simp, by simp⟩
  · rintro rfl
    exact ⟨sleeps, inv.init.2⟩
  · intro used
    simp [used, Alive] at alive

theorem Inv.congr {next : State} (pcs : next.pcs = s.pcs) (lock : next.waitLock = s.waitLock)
    (same : ∀ q, (next.slots q).proc = (s.slots q).proc ∧
      (next.slots q).parent = (s.slots q).parent ∧ (next.slots q).maker = (s.slots q).maker) :
    Inv n next := by
  have states : ∀ q, next.table.state q = s.table.state q := fun q => congrArg Proc.state (same q).1
  have chans : ∀ q, next.table.chan q = s.table.chan q := fun q => congrArg Proc.chan (same q).1
  refine ⟨inv.toRest.congr pcs lock fun q => ⟨(same q).1, (same q).2.1⟩, fun r => ?_⟩
  rw [pcs]
  exact (inv.facts r).frame ⟨fun q => (same q).2.1, fun q dead => states q ▸ dead,
    fun t none => (chans t).trans none, fun child _ used maker =>
      ⟨(states child).trans used, (same child).2.2.trans maker, fun _ => (same child).2.1⟩⟩

theorem Inv.goto {p : Nat} {old : Pc} (running : s.table.state p = .running) (place : s.pcs p = old)
    (locked : pc.locked = old.locked) (facts : Facts s.table p pc)
    (visited : ∀ status k, old ≠ .wakeInit status k 0) : Inv n (s.setPc p pc) := by
  subst place
  exact inv.move rfl rfl running (.inl ⟨rfl, locked⟩) facts (.inl visited)

theorem Inv.reset (idle : (s.pcs k).idle = true) : Inv n (s.setPc k .user) := by
  have awake : s.table.state k ≠ .sleeping := by
    intro sleeping
    obtain ⟨_, addr, place⟩ := inv.asleep k sleeping
    simp [place, Pc.idle] at idle
  have unlocked : Pc.user.locked = (s.pcs k).locked := by
    cases place : s.pcs k <;> simp_all [Pc.locked, Pc.idle]
  refine ⟨inv.toRest.move rfl rfl (by simp [Pc.idle]) awake (.inl ⟨rfl, unlocked⟩) (.inl ?_),
    (forall_update_iff s.pcs (Facts s.table)).mpr ⟨trivial, fun r _ => inv.facts r⟩⟩
  intro status j place
  simp [place, Pc.idle] at idle

end Steps

theorem Alive.rouse {state : ProcState} (alive : Alive state) : Alive state.rouse := by
  obtain rfl | rfl | rfl := alive
  · exact .inl rfl
  · exact .inr (.inl rfl)
  · exact .inr (.inl rfl)

theorem rouse_of_dead {state : ProcState} (dead : ¬ Alive state) : state.rouse = state := by
  cases state <;> simp_all [Alive, ProcState.rouse]

theorem visit_visits (chan : Option Nat) (proc : Proc Nat) : Visit proc (visit chan proc) := by
  unfold visit
  split
  · exact ⟨Alive.rouse, rouse_of_dead, .inr rfl, by simp⟩
  · exact ⟨id, fun _ => rfl, .inl rfl, fun asleep => ⟨asleep, rfl⟩⟩

theorem kkill_visits (proc : Proc Nat) : Visit proc proc.kkill :=
  ⟨Alive.rouse, rouse_of_dead, .inl rfl, by simp [Proc.kkill]⟩

theorem setProc_parent (s : State) (j q : Nat) (proc : Proc Nat) :
    (s.setProc j proc).table.parent q = s.table.parent q := by
  obtain rfl | same := eq_or_ne q j
  · simp [Table.parent, State.table, setProc, setSlot]
  · simp [Table.parent, State.table, setProc, setSlot, same]

theorem visit_running {s : State} {p : Nat} {chan : Option Nat} (running : s.table.state p = .running) :
    (s.setProc j (visit chan (s.slots j).proc)).table.state p = .running := by
  obtain rfl | same := eq_or_ne p j
  · have running : (s.slots p).proc.state = .running := running
    simp only [Table.state, State.table, setProc, setSlot, update_self, visit]
    split <;> simp [running, ProcState.rouse]
  · simpa [Table.state, State.table, setProc, setSlot, same] using running

theorem visit_chan {s : State} {chan : Option Nat} (cleared : s.table.chan t = none) :
    (s.setProc j (visit chan (s.slots j).proc)).table.chan t = none := by
  obtain rfl | same := eq_or_ne t j
  · have cleared : (s.slots t).proc.chan = none := cleared
    simp only [Table.chan, State.table, setProc, setSlot, update_self, visit]
    split <;> simp [cleared]
  · simpa [Table.chan, State.table, setProc, setSlot, same] using cleared

theorem Inv.visit_clears {n : Nat} {s : State} (inv : Inv n s) (t : Nat) :
    (s.setProc t (visit (some t) (s.slots t).proc)).table.chan t = none := by
  simp only [Table.chan, State.table, setProc, setSlot, update_self, visit]
  split
  · rfl
  rename_i other
  cases is : (s.slots t).proc.chan with
  | none => rfl
  | some c =>
    obtain rfl := inv.chans t c is
    exact absurd is other

theorem switch_visits {proc : Proc Nat} {state : ProcState} (alive : Alive proc.state)
    (awake : state = .running ∨ state = .runnable) : Visit proc { proc with state := state } := by
  refine ⟨fun _ => ?_, fun dead => absurd alive dead, .inl rfl, fun asleep => ?_⟩
  · exact awake.elim .inl fun is => .inr (.inl is)
  · obtain rfl | rfl := awake <;> simp at asleep

section Calls

variable {n : Nat} {s next : State} {p : Nat} {fails : Bool} (inv : Inv n s)
  (running : s.table.state p = .running) (ran : run n s p fails = some next)
include inv running ran

theorem Inv.fork (place : s.pcs p = .fork k) : Inv n next := by
  simp only [run, place] at ran
  split at ran
  · cases ran
    exact inv.goto running place rfl trivial nofun
  rename_i small
  split at ran
  · rename_i unused
    have unused : s.table.state k = .unused := unused
    have dead : ¬ Alive (s.table.state k) := by simp [unused, Alive]
    have different : p ≠ k := by
      rintro rfl
      simp [unused] at running
    split at ran
    · cases ran
      have freed : Inv n (s.setSlot k (freeproc (s.slots k))) :=
        inv.freed (inv.facts_frame (.inl (inv.unmade (by simp [unused]))) rfl
          (by simp [freeproc]) (.inr rfl)) dead rfl rfl (inv.orphaned unused)
      have moved : Inv n ((s.setSlot k (freeproc (s.slots k))).setPc p .user) := by
        refine freed.goto ?_ place rfl trivial nofun
        simpa [Table.state, State.table, setSlot, different] using running
      exact moved.congr rfl rfl fun _ => ⟨rfl, rfl, rfl⟩
    · cases ran
      let slot : Slot := { s.slots k with
        proc := { (s.slots k).proc with state := .used }
        pid := s.nextpid
        maker := some p
        id := s.born
        orphan := false }
      have made : Inv n (s.setSlot k slot) := inv.alloc unused (by omega) rfl rfl rfl
      have moved : Inv n (((s.setSlot k slot).setPc k .user).setPc p (.forkParent k)) := by
        refine (made.reset (inv.idle dead)).goto ?_ ((update_of_ne different _ _).trans place) rfl ?_ nofun
        · simpa [Table.state, State.table, setSlot, setPc, different] using running
        · have orphaned : (s.slots k).parent = none := inv.orphaned unused
          simp [Facts, Table.state, Table.parent, State.table, setSlot, setPc, slot, orphaned]
      exact moved.congr rfl rfl fun _ => ⟨rfl, rfl, rfl⟩
  · cases ran
    exact inv.goto running place rfl trivial nofun

theorem Inv.forkParent (place : s.pcs p = .forkParent child) : Inv n next := by
  obtain ⟨used, maker, _⟩ : Facts s.table p (.forkParent child) := place ▸ inv.facts p
  simp only [run, place] at ran
  obtain ⟨free, rfl⟩ := by simpa using ran
  have moved : Inv n (s.setPc p (.forkStart child)) :=
    inv.goto running place rfl ⟨used, maker⟩ nofun
  refine moved.adopt free used running fun r making => ?_
  have facts := moved.facts r
  rw [making] at facts
  obtain rfl : p = r := Option.some.inj (maker.symm.trans facts.2.1)
  simp [setPc] at making

theorem Inv.forkStart (place : s.pcs p = .forkStart child) : Inv n next := by
  obtain ⟨used, maker⟩ : Facts s.table p (.forkStart child) := place ▸ inv.facts p
  simp only [run, place] at ran
  cases ran
  have moved : Inv n (s.setPc p .user) :=
    inv.goto running place rfl trivial nofun
  -- the parent is past its call, and nobody else is making this child
  refine moved.start used fun r => ?_
  obtain rfl | same := eq_or_ne r p
  · simp [setPc]
  have facts := moved.facts r
  constructor
  · intro here
    rw [here] at facts
    exact same (Option.some.inj (facts.2.1.symm.trans maker))
  · intro here
    rw [here] at facts
    exact same (Option.some.inj (facts.2.symm.trans maker))

theorem Inv.exit (place : s.pcs p = .exit status) : Inv n next := by
  have other : Facts s.table p (.exit status) := place ▸ inv.facts p
  simp only [run, place] at ran
  obtain ⟨free, rfl⟩ := by simpa using ran
  have moved : Inv n { s.setPc p (.reparent status 0) with waitLock := some p } :=
    inv.move rfl rfl running (.inr (.inl ⟨free, rfl, rfl⟩)) ⟨other, by simp⟩
      (.inl (by simp [place]))
  exact moved.congr rfl rfl fun _ => ⟨rfl, rfl, rfl⟩

theorem Inv.reparent (place : s.pcs p = .reparent status k) : Inv n next := by
  obtain ⟨other, earlier⟩ : Facts s.table p (.reparent status k) := place ▸ inv.facts p
  simp only [run, place] at ran
  split at ran
  · rename_i past
    cases ran
    refine inv.goto running place rfl ⟨other, fun q is => ?_, rfl, by simp⟩ nofun
    exact earlier q (by have := inv.small q (inv.parents q p is).2.2; omega) is
  split at ran
  · rename_i child
    cases ran
    exact inv.give running place child
  rename_i child
  cases ran
  refine inv.goto running place rfl ⟨other, fun q below is => ?_⟩ nofun
  obtain rfl | same := eq_or_ne q k
  · exact child is
  · exact earlier q (by omega) is

theorem Inv.wakeInit (place : s.pcs p = .wakeInit status k j) (table : 0 < n) : Inv n next := by
  obtain ⟨other, childless, cleared⟩ : Facts s.table p (.wakeInit status k j) := place ▸ inv.facts p
  simp only [run, place] at ran
  split at ran
  · cases ran
    refine inv.goto running place rfl ⟨other, childless⟩ fun _ _ here => ?_
    simp only [Pc.wakeInit.injEq] at here
    omega
  cases ran
  have first : (s.setProc j (visit (some initproc) (s.slots j).proc)).table.chan initproc = none := by
    obtain rfl | same := eq_or_ne j initproc
    · exact inv.visit_clears initproc
    · exact visit_chan (cleared (Nat.pos_of_ne_zero same))
  refine (inv.visited (visit_visits _ _)).move (p := p) rfl rfl (visit_running running)
    (.inl ⟨rfl, ?_⟩) ⟨other, fun q below => ?_, fun _ => first⟩ (.inr first)
  · simp [setProc, setSlot, place, Pc.locked]
  · rw [setProc_parent]
    exact childless q below

theorem Inv.wakeParent {parent : Option Nat} (place : s.pcs p = .wakeParent status parent j) : Inv n next := by
  obtain ⟨other, childless, same, cleared⟩ : Facts s.table p (.wakeParent status parent j) :=
    place ▸ inv.facts p
  simp only [run, place] at ran
  split at ran
  · cases ran
    refine inv.goto running place rfl ⟨other, childless, fun t is => ?_⟩ nofun
    refine cleared t ?_ is
    have := inv.small t fun unused => by
      have := (inv.parents p t is).2.1
      simp [unused, Alive] at this
    omega
  · cases ran
    refine (inv.visited (visit_visits _ _)).move (p := p) rfl rfl (visit_running running)
      (.inl ⟨rfl, ?_⟩) ⟨other, fun q => ?_, ?_, fun t below is => ?_⟩ (.inl ?_)
    · simp [setProc, setSlot, place, Pc.locked]
    · rw [setProc_parent]
      exact childless q
    · rw [setProc_parent]
      exact same
    · rw [setProc_parent] at is
      obtain rfl | here := eq_or_ne t j
      · rw [same, is]
        exact inv.visit_clears t
      · exact visit_chan (cleared t (by omega) is)
    · simp [setProc, setSlot, place]

theorem Inv.zombie (place : s.pcs p = .zombie status) : Inv n next := by
  obtain ⟨other, childless, cleared⟩ : Facts s.table p (.zombie status) := place ▸ inv.facts p
  have held : s.waitLock = some p := (inv.holder p).mpr (place ▸ rfl)
  simp only [run, place] at ran
  cases ran
  have moved : Inv n { s.setPc p .gone with waitLock := none } :=
    inv.move rfl rfl running (.inr (.inr ⟨held, rfl, rfl⟩)) trivial (.inl (by simp [place]))
  let slot : Slot := { s.slots p with
    proc := { (s.slots p).proc with state := .zombie }
    xstate := status }
  have died : Inv n (setSlot { s.setPc p .gone with waitLock := none } p slot) :=
    moved.die rfl (by simp [setPc, Pc.idle]) (.inl running) other childless cleared rfl rfl
      rfl
  exact died.congr rfl rfl fun _ => ⟨rfl, rfl, rfl⟩

theorem Inv.wait (place : s.pcs p = .wait addr) : Inv n next := by
  simp only [run, place] at ran
  obtain ⟨free, rfl⟩ := by simpa using ran
  exact inv.move rfl rfl running (.inr (.inl ⟨free, rfl, rfl⟩)) (by simp [Facts])
    (.inl (by simp [place]))

theorem Inv.scan {havekids : Bool} (place : s.pcs p = .scan addr k havekids) : Inv n next := by
  have earlier : Facts s.table p (.scan addr k havekids) := place ▸ inv.facts p
  have held : s.waitLock = some p := (inv.holder p).mpr (place ▸ rfl)
  have back : ∀ value reaped, Inv n (s.back p addr value reaped) := fun value reaped =>
    inv.move rfl rfl running (.inr (.inr ⟨held, rfl, rfl⟩)) trivial (.inl (by simp [place]))
  simp only [run, place] at ran
  split at ran
  · cases ran
    refine inv.goto running place rfl (fun q is => ?_) nofun
    exact earlier q (by have := inv.small q (inv.parents q p is).2.2; omega) is
  split at ran
  · split at ran
    · rename_i dead
      have dead : s.table.state k = .zombie := dead
      split at ran
      · cases ran
        exact back _ _
      cases ran
      have lifeless : ¬ Alive (s.table.state k) := by simp [dead, Alive]
      have unmade : s.table.state k ≠ .used := by simp [dead]
      exact (back _ _).freed ((back _ _).facts_free rfl (.inl unmade)) lifeless rfl rfl rfl
    · rename_i alive
      cases ran
      refine inv.goto running place rfl (fun q below is => ?_) nofun
      obtain rfl | same := eq_or_ne q k
      · exact alive
      · exact earlier q (by omega) is
  · rename_i child
    cases ran
    refine inv.goto running place rfl (fun q below is => ?_) nofun
    obtain rfl | same := eq_or_ne q k
    · exact absurd is child
    · exact earlier q (by omega) is

theorem Inv.scanned {havekids : Bool} (place : s.pcs p = .scanned addr havekids) : Inv n next := by
  have clean : Facts s.table p (.scanned addr havekids) := place ▸ inv.facts p
  have held : s.waitLock = some p := (inv.holder p).mpr (place ▸ rfl)
  simp only [run, place] at ran
  split at ran
  · cases ran
    exact inv.move rfl rfl running (.inr (.inr ⟨held, rfl, rfl⟩)) trivial
      (.inl (by simp [place]))
  · cases ran
    exact inv.goto running place rfl clean nofun

theorem Inv.prepares (place : s.pcs p = .prepare addr) : Inv n next := by
  have clean : Facts s.table p (.prepare addr) := place ▸ inv.facts p
  simp only [run, place] at ran
  cases ran
  have moved : Inv n (s.setPc p (.release addr)) :=
    inv.goto running place rfl trivial nofun
  have here : (s.setPc p (.release addr)).pcs p = .release addr := by simp [setPc]
  have awake : s.table.state p ≠ .sleeping := by simp [running]
  exact moved.prepare here (.inl running) awake clean

theorem Inv.releases (place : s.pcs p = .release addr) : Inv n next := by
  have held : s.waitLock = some p := (inv.holder p).mpr (place ▸ rfl)
  simp only [run, place] at ran
  cases ran
  exact inv.move rfl rfl running (.inr (.inr ⟨held, rfl, rfl⟩)) trivial
    (.inl (by simp [place]))

theorem Inv.sleeps (place : s.pcs p = .sleep addr) : Inv n next := by
  simp only [run, place] at ran
  split at ran
  · rename_i registered
    cases ran
    have moved : Inv n (s.setPc p (.asleep addr)) :=
      inv.goto running place rfl trivial nofun
    have here : (s.setPc p (.asleep addr)).pcs p = .asleep addr := by simp [setPc]
    exact moved.sleep here (.inl running) registered
  · cases ran
    exact inv.goto running place rfl trivial nofun

theorem Inv.kills {pid : BitVec 32} (place : s.pcs p = .kill pid k) : Inv n next := by
  simp only [run, place] at ran
  split at ran
  · cases ran
    exact inv.goto running place rfl trivial nofun
  split at ran
  · cases ran
    have moved : Inv n (s.setPc p .user) :=
      inv.goto running place rfl trivial nofun
    exact moved.visited (kkill_visits _)
  · cases ran
    exact inv.goto running place rfl trivial nofun

theorem run_inv (table : 0 < n) : Inv n next := by
  cases place : s.pcs p with
  | user | gone => simp [run, place] at ran
  | fork k => exact inv.fork running ran place
  | forkParent child => exact inv.forkParent running ran place
  | forkStart child => exact inv.forkStart running ran place
  | exit status => exact inv.exit running ran place
  | reparent status k => exact inv.reparent running ran place
  | wakeInit status k j => exact inv.wakeInit running ran place table
  | wakeParent status parent j => exact inv.wakeParent running ran place
  | zombie status => exact inv.zombie running ran place
  | wait addr => exact inv.wait running ran place
  | scan addr k havekids => exact inv.scan running ran place
  | scanned addr havekids => exact inv.scanned running ran place
  | prepare addr => exact inv.prepares running ran place
  | release addr => exact inv.releases running ran place
  | sleep addr => exact inv.sleeps running ran place
  | asleep addr =>
    simp only [run, place] at ran
    cases ran
    exact inv.goto running place rfl trivial nofun
  | kill pid k => exact inv.kills running ran place

end Calls

theorem step_inv {n : Nat} {s next : State} {label : Label} (table : 0 < n) (inv : Inv n s)
    (stepped : step n s label = some next) : Inv n next := by
  cases label with
  | call p call =>
    obtain ⟨⟨running, place, first⟩, rfl⟩ := by simpa [step] using stepped
    refine inv.goto running place ?_ ?_ nofun
    · cases call <;> rfl
    · cases call with
      | fork | wait _ | kill _ => trivial
      | exit status => exact fun same => by simp [Call.isExit, same] at first
  | run p fails =>
    obtain ⟨running, ran⟩ := by simpa [step] using stepped
    exact run_inv inv running ran table
  | schedule p =>
    obtain ⟨runnable, rfl⟩ := by simpa [step] using stepped
    exact inv.visited (switch_visits (.inr (.inl runnable)) (.inl rfl))
  | yield p =>
    obtain ⟨⟨running, _⟩, rfl⟩ := by simpa [step] using stepped
    exact inv.visited (switch_visits (.inl running) (.inr rfl))

theorem reaches_inv {n : Nat} {s : State} (table : 0 < n)
    (reached : Reaches (step n) (fun _ _ => True) boot s) : Inv n s :=
  reached.invariant (Inv n) (boot_inv table) fun _ _ _ inv _ stepped => step_inv table inv stepped

/-- While `wait_lock` is free, no child of a process asleep in `kwait` is a zombie. -/
theorem no_zombie_of_asleep {n : Nat} (table : 0 < n) {s : State}
    (reached : Reaches (step n) (fun _ _ => True) boot s) (free : s.waitLock = none)
    {p addr : Nat} (inside : s.pcs p = .asleep addr) (asleep : (s.slots p).proc.state = .sleeping)
    (q : Nat) (child : (s.slots q).parent = some p) : (s.slots q).proc.state ≠ .zombie := by
  have inv := reaches_inv table reached
  obtain clean | ⟨_, r, status, k, waking⟩ := inv.fresh p (inv.asleep p asleep).1
  · exact clean q child
  · have := (inv.holder r).mpr (waking ▸ rfl)
    simp [free] at this

theorem no_zombie_of_asleep_forked : ∃ s : State, Reaches (step 2) (fun _ _ => True) boot s ∧
    s.waitLock = none ∧ s.pcs 0 = .asleep 0 ∧ (s.slots 0).proc.state = .sleeping ∧
    (s.slots 1).parent = some 0 ∧ (s.slots 1).proc.state ≠ .zombie := by
  let runs (k : Nat) : List Label := List.replicate k (.run 0 false)
  obtain ⟨s, reached, seen⟩ := reaches_seen (show
    (runLabels (step 2) boot
      ([.schedule 0, .call 0 .fork] ++ runs 4 ++ [.call 0 (.wait 0)] ++ runs 8)).map (fun s =>
        (s.waitLock, s.pcs 0, (s.slots 0).proc.state, (s.slots 1).parent)) =
      some (none, .asleep 0, .sleeping, some 0) by decide +kernel)
  simp only [Prod.mk.injEq] at seen
  obtain ⟨free, inside, asleep, child⟩ := seen
  exact ⟨s, reached, free, inside, asleep, child,
    no_zombie_of_asleep (by decide) reached free inside asleep 1 child⟩

end Xv6.Wait

import Xv6.Proc.Wait

/-!
Whom `kkill` finds. A slot that `freeproc` has left has the pid 0, and `kkill` looks at pids
only: a call with 0 marks the first free slot as killed and reports success. `allocproc`
does not clear the mark, so that the next process made in that slot is born killed.
-/

namespace Xv6.Wait

open Function
open Xv6.Lib
open Xv6.Procs

/-- The loop of `kkill` from slot `k` on: the return value and the table. -/
def kkillFrom (slots : Nat → Slot) (pid : BitVec 32) : Nat → Nat → Int × (Nat → Slot)
  | 0, _ => (-1, slots)
  | fuel + 1, k =>
    if (slots k).pid = pid then (0, update slots k { slots k with proc := (slots k).proc.kkill })
    else kkillFrom slots pid fuel (k + 1)

def kkill (n : Nat) (slots : Nat → Slot) (pid : BitVec 32) : Int × (Nat → Slot) := kkillFrom slots pid n 0

variable {n : Nat} {s next : State} {slots : Nat → Slot} {pid : BitVec 32}

/-- The system with `setkilled`, which a trap calls for the running process. -/
inductive Act
  | sys (label : Label)
  | setkilled (p : Nat)

def act (n : Nat) (s : State) : Act → Option State
  | .sys label => step n s label
  | .setkilled p =>
    if (s.slots p).proc.state = .running then some (s.setProc p { (s.slots p).proc with killed := true }) else none

def Kept (before after : Slot) : Prop := after.proc.state = .unused →
  before.proc.state = .unused ∧ after.pid = before.pid ∧ after.proc.killed = before.proc.killed ∨
    after.pid = 0#32 ∧ after.proc.killed = false

structure Quiet (s next : State) : Prop where
  slots : ∀ q, Kept (s.slots q) (next.slots q)
  pcs : ∀ r pid k, next.pcs r = .kill pid k → ∃ k', s.pcs r = .kill pid k'

theorem Kept.refl (slot : Slot) : Kept slot slot := fun unused => .inl ⟨unused, rfl, rfl⟩

theorem Quiet.refl (s : State) : Quiet s s := ⟨fun _ => Kept.refl _, fun _ _ k place => ⟨k, place⟩⟩

theorem setPc_here (s : State) (p : Nat) (pc : Pc) : (s.setPc p pc).pcs p = pc := update_self ..

theorem setPc_other {p r : Nat} (other : r ≠ p) (pc : Pc) : (s.setPc p pc).pcs r = s.pcs r := update_of_ne other ..

theorem Quiet.setPc (quiet : Quiet s next) (p : Nat) {pc : Pc} (outside : ∀ pid k, pc ≠ .kill pid k) : Quiet s (next.setPc p pc) := by
  refine ⟨quiet.slots, fun r pid k place => ?_⟩
  by_cases same : r = p
  · rw [same, setPc_here] at place
    exact absurd place (outside pid k)
  · rw [setPc_other same] at place
    exact quiet.pcs r pid k place

theorem Quiet.congr {last : State} (quiet : Quiet s next) (slots : last.slots = next.slots) (pcs : last.pcs = next.pcs) : Quiet s last :=
  ⟨fun q => by rw [slots]; exact quiet.slots q, fun r pid k place => quiet.pcs r pid k (by rw [← pcs]; exact place)⟩

theorem Quiet.setSlot {t : Nat} {slot : Slot} (kept : Kept (s.slots t) slot) : Quiet s (s.setSlot t slot) := by
  refine ⟨fun q => ?_, fun _ _ k place => ⟨k, place⟩⟩
  by_cases same : q = t
  · have here : (s.setSlot t slot).slots t = slot := update_self ..
    rw [same, here]
    exact kept
  · have there : (s.setSlot t slot).slots q = s.slots q := update_of_ne same ..
    rw [there]
    exact Kept.refl _

theorem Quiet.setProc {t : Nat} {proc : Proc Nat}
    (kept : proc.state = .unused → (s.slots t).proc.state = .unused ∧ proc.killed = (s.slots t).proc.killed) :
    Quiet s (s.setProc t proc) :=
  .setSlot fun unused => .inl ⟨(kept unused).1, rfl, (kept unused).2⟩

theorem rouse_unused {state : ProcState} (unused : state.rouse = .unused) : state = .unused := by
  cases state <;> first | rfl | cases unused

theorem visit_kept (chan : Option Nat) (proc : Proc Nat) (unused : (visit chan proc).state = .unused) :
    proc.state = .unused ∧ (visit chan proc).killed = proc.killed := by
  unfold visit at *
  split at unused
  · next here =>
    rw [if_pos here]
    exact ⟨rouse_unused unused, rfl⟩
  · next other =>
    rw [if_neg other]
    exact ⟨unused, rfl⟩

theorem run_quiet {p : Nat} {fails : Bool} (ran : run n s p fails = some next) :
    Quiet s next ∨ ∃ pid k, s.pcs p = .kill pid k ∧ (s.slots k).pid = pid ∧
      next = (s.setProc k (s.slots k).proc.kkill).setPc p .user := by
  have still : ∀ {slot : Slot}, Kept slot slot := Kept.refl _
  have moved : ∀ {pc : Pc}, (∀ pid k, pc ≠ .kill pid k) → Quiet s (s.setPc p pc) := fun outside => (Quiet.refl s).setPc p outside
  unfold run at ran
  split at ran
  · cases ran
  · cases ran
  · refine .inl ?_
    split at ran
    · cases ran
      exact moved (by nofun)
    split at ran
    · split at ran
      · cases ran
        exact ((Quiet.setSlot (by exact fun _ => .inr ⟨rfl, rfl⟩)).setPc p (by nofun)).congr rfl rfl
      · cases ran
        exact (((Quiet.setSlot (by nofun)).setPc _ (by nofun)).setPc p (by nofun)).congr rfl rfl
    · cases ran
      exact moved (by nofun)
  · refine .inl ?_
    split at ran
    · cases ran
      exact (Quiet.setSlot (by exact fun unused => .inl ⟨unused, rfl, rfl⟩)).setPc p (by nofun)
    · cases ran
  · cases ran
    exact .inl ((Quiet.setProc (by nofun)).setPc p (by nofun))
  · refine .inl ?_
    split at ran
    · cases ran
      exact ⟨fun q unused => .inl ⟨unused, rfl, rfl⟩, (moved (by nofun)).pcs⟩
    · cases ran
  · refine .inl ?_
    split at ran
    · cases ran
      exact moved (by nofun)
    split at ran
    · cases ran
      exact (Quiet.setSlot (by exact fun unused => .inl ⟨unused, rfl, rfl⟩)).setPc p (by nofun)
    · cases ran
      exact moved (by nofun)
  · refine .inl ?_
    split at ran
    · cases ran
      exact moved (by nofun)
    · cases ran
      exact (Quiet.setProc (visit_kept _ _)).setPc p (by nofun)
  · refine .inl ?_
    split at ran
    · cases ran
      exact moved (by nofun)
    · cases ran
      exact (Quiet.setProc (visit_kept _ _)).setPc p (by nofun)
  · cases ran
    exact .inl (((Quiet.setSlot (by nofun)).setPc p (by nofun)).congr rfl rfl)
  · refine .inl ?_
    split at ran
    · cases ran
      exact (moved (by nofun)).congr rfl rfl
    · cases ran
  · refine .inl ?_
    split at ran
    · cases ran
      exact moved (by nofun)
    split at ran
    · split at ran
      · split at ran
        · cases ran
          exact (moved (by nofun)).congr rfl rfl
        · cases ran
          exact ((Quiet.setSlot (by exact fun _ => .inr ⟨rfl, rfl⟩)).setPc p (by nofun)).congr rfl rfl
      · cases ran
        exact moved (by nofun)
    · cases ran
      exact moved (by nofun)
  · refine .inl ?_
    split at ran
    · cases ran
      exact (moved (by nofun)).congr rfl rfl
    · cases ran
      exact moved (by nofun)
  · cases ran
    exact .inl ((Quiet.setProc (by exact fun unused => ⟨unused, rfl⟩)).setPc p (by nofun))
  · cases ran
    exact .inl ((moved (by nofun)).congr rfl rfl)
  · refine .inl ?_
    split at ran
    · next chan =>
      cases ran
      refine (Quiet.setProc fun unused => ?_).setPc p (by nofun)
      rw [Proc.sleep, if_pos chan] at unused
      cases unused
    · cases ran
      exact moved (by nofun)
  · cases ran
    exact .inl (moved (by nofun))
  · next pid k place =>
    split at ran
    · cases ran
      exact .inl (moved (by nofun))
    split at ran
    · next same =>
      cases ran
      exact .inr ⟨pid, k, place, same, rfl⟩
    cases ran
    refine .inl ⟨fun _ => still, fun r other j now => ?_⟩
    by_cases mine : r = p
    · rw [mine, setPc_here] at now
      cases now
      exact ⟨k, mine ▸ place⟩
    · rw [setPc_other mine] at now
      exact ⟨j, now⟩

theorem act_effect {a : Act} (stepped : act n s a = some next) :
    Quiet s next ∨
    (∃ p pid k, s.pcs p = .kill pid k ∧ (s.slots k).pid = pid ∧ next = (s.setProc k (s.slots k).proc.kkill).setPc p .user) ∨
    ∃ p pid, a = .sys (.call p (.kill pid)) ∧ next = s.setPc p (.kill pid 0) := by
  cases a with
  | sys label =>
    rw [act] at stepped
    cases label with
    | call p call =>
      rw [step] at stepped
      split at stepped
      · cases stepped
        cases call with
        | kill pid => exact .inr (.inr ⟨p, pid, rfl, rfl⟩)
        | fork | exit _ | wait _ => exact .inl ((Quiet.refl s).setPc p (by nofun))
      · cases stepped
    | run p fails =>
      rw [step] at stepped
      split at stepped
      · rcases run_quiet stepped with quiet | visit
        · exact .inl quiet
        · exact .inr (.inl ⟨p, visit⟩)
      · cases stepped
    | schedule _ | yield _ =>
      rw [step] at stepped
      split at stepped
      · cases stepped
        exact .inl (Quiet.setProc (by nofun))
      · cases stepped
  | setkilled p =>
    rw [act] at stepped
    split at stepped
    · next running =>
      cases stepped
      refine .inl (Quiet.setProc fun unused => ?_)
      rw [running] at unused
      cases unused
    · cases stepped

def Unnamed (s : State) : Prop := ∀ q, (s.slots q).proc.state = .unused → (s.slots q).pid = 0#32

structure Clean (s : State) : Prop where
  unmarked : ∀ q, (s.slots q).proc.state = .unused → (s.slots q).proc.killed = false
  named : ∀ p pid k, s.pcs p = .kill pid k → pid ≠ 0#32

theorem visited_slots {p k q : Nat} : ((s.setProc k (s.slots k).proc.kkill).setPc p .user).slots q =
    if q = k then { s.slots k with proc := (s.slots k).proc.kkill } else s.slots q := by
  by_cases same : q = k
  · rw [same, if_pos rfl]
    exact update_self ..
  · rw [if_neg same]
    exact update_of_ne same ..

theorem Unnamed.act {a : Act} (unnamed : Unnamed s) (stepped : act n s a = some next) : Unnamed next := by
  intro q unused
  rcases act_effect stepped with quiet | ⟨p, pid, k, _, _, rfl⟩ | ⟨p, pid, _, rfl⟩
  · rcases quiet.slots q unused with ⟨before, same, _⟩ | ⟨zero, _⟩
    · rw [same]
      exact unnamed q before
    · exact zero
  · rw [visited_slots] at unused ⊢
    split at unused
    · next here =>
      rw [if_pos here]
      exact unnamed k (rouse_unused unused)
    · next other =>
      rw [if_neg other]
      exact unnamed q unused
  · exact unnamed q unused

theorem Clean.act {a : Act} (clean : Clean s) (unnamed : Unnamed s) (other : ∀ p, a ≠ .sys (.call p (.kill 0#32)))
    (stepped : act n s a = some next) : Clean next := by
  rcases act_effect stepped with quiet | ⟨p, pid, k, place, same, rfl⟩ | ⟨p, pid, is, rfl⟩
  · refine ⟨fun q unused => ?_, fun p pid k place => ?_⟩
    · rcases quiet.slots q unused with ⟨before, _, same⟩ | ⟨_, unmarked⟩
      · rw [same]
        exact clean.unmarked q before
      · exact unmarked
    · obtain ⟨k', before⟩ := quiet.pcs p pid k place
      exact clean.named p pid k' before
  · -- the victim has a pid, so its slot is in use
    refine ⟨fun q unused => ?_, fun r other j now => ?_⟩
    · rw [visited_slots] at unused ⊢
      split at unused
      · exact absurd (same.symm.trans (unnamed k (rouse_unused unused))) (clean.named p pid k place)
      · next away =>
        rw [if_neg away]
        exact clean.unmarked q unused
    by_cases mine : r = p
    · rw [mine, setPc_here] at now
      cases now
    · rw [setPc_other mine] at now
      exact clean.named r other j now
  · refine ⟨clean.unmarked, fun r other' j now => ?_⟩
    by_cases mine : r = p
    · rw [mine, setPc_here] at now
      cases now
      rintro rfl
      exact other p is
    · rw [setPc_other mine] at now
      exact clean.named r other' j now

/-- The condition under which `kkill` finds only live processes: it is not asked for the pid
0, or there is no free slot, or a process has come to have that pid. -/
def Named (n : Nat) (slots : Nat → Slot) (pid : BitVec 32) : Prop :=
  pid = 0#32 → (∀ k < n, (slots k).proc.state ≠ .unused) ∨ ∃ k < n, (slots k).proc.state ≠ .unused ∧ (slots k).pid = 0#32

def nproc : Nat := 64

end Xv6.Wait

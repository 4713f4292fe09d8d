import Xv6.Console.Reads

/-!
What a call of `consoleread` takes out of the buffer when the copies to user memory may
fail: `cons.r` is advanced before the copy and is set back for a `^D` only.
-/

namespace Xv6.Console

open Function List
open Xv6.Lib

/-- The committed input that the calls of a process have consumed, a `^D` apart. -/
def World.input {D : Type} (world : World D) (pid : Nat) : List UInt8 :=
  (world.taken.filter fun t => t.1 == pid && t.2 != ctrlD).map Prod.snd

def World.returnsOf {D : Type} (world : World D) (pid : Nat) : List Return :=
  world.returns.filter fun ret => ret.pid == pid

section Losses

variable {D : Type} {driver : Driver D} {world now next : World D} {pid other : Nat} {call : Call} {consumed : List UInt8}

def Pc.Consumed (consumed : List UInt8) : Pc → Prop
  | .idle | .leave _ .killed => False
  | .leave call .fault => call.Counted ∧ ∃ c, consumed = call.bytes ++ [c]
  | .acquire call | .loop call | .leave call _ => call.Counted ∧ consumed = call.bytes

/-- The bytes that were consumed are those that were stored, and the result counts them; `-1`
counts none. -/
def Return.Exact (ret : Return) (consumed : List UInt8) : Prop :=
  consumed = ret.call.bytes ∧ ret.value.toNat = consumed.length

structure Under (world now : World D) (pid : Nat) (consumed : List UInt8) : Prop where
  place : (now.pcs pid).Consumed consumed
  returned : now.returnsOf pid = world.returnsOf pid
  input : now.input pid = world.input pid ++ consumed

structure Returned (world now : World D) (pid : Nat) (ret : Return) (consumed : List UInt8) : Prop where
  place : now.pcs pid = .idle
  returned : now.returnsOf pid = world.returnsOf pid ++ [ret]
  input : now.input pid = world.input pid ++ consumed
  exact_iff : ret.Exact consumed ↔ ret.ended ≠ .fault ∧ (ret.ended = .killed → ret.call.bytes = [])

structure Apart (now next : World D) (pid : Nat) : Prop where
  place : next.pcs pid = now.pcs pid
  returned : next.returnsOf pid = now.returnsOf pid
  input : next.input pid = now.input pid

theorem Under.apart (under : Under world now pid consumed) (apart : Apart now next pid) : Under world next pid consumed :=
  ⟨by rw [apart.place]; exact under.place, apart.returned.trans under.returned, apart.input.trans under.input⟩

theorem Apart.goto (differs : pid ≠ other) (pc : Pc) (lock : Option Nat) (dev : D) :
    Apart now { now.goto other pc with lock := lock, dev := dev } pid :=
  ⟨update_of_ne differs .., rfl, rfl⟩

theorem Apart.take (differs : pid ≠ other) (dev : D) (c : UInt8) (pc : Pc) : Apart now (now.take other dev c pc) pid := by
  refine ⟨update_of_ne differs .., rfl, ?_⟩
  simp [World.input, World.take, differs.symm]

theorem Apart.done (differs : pid ≠ other) (ended : Ended) (value : Int) : Apart now (now.done other call ended value) pid := by
  refine ⟨update_of_ne differs .., ?_, rfl⟩
  simp [World.returnsOf, World.done, differs.symm]

theorem Apart.turn (differs : pid ≠ other) (copied : Bool) : Apart now (turn driver now other call copied) pid := by
  unfold Console.turn
  split
  · exact .goto differs _ now.lock now.dev
  split
  · split
    · exact .done differs _ _
    · exact .goto differs _ none now.dev
  dsimp only
  split
  · split
    · exact .goto differs _ now.lock _
    · exact .take differs _ _ _
  · split
    · exact .take differs _ _ _
    · exact .take differs _ _ _

theorem Apart.exec {copied : Bool} (differs : pid ≠ other) (ran : exec driver now other copied = some next) :
    Apart now next pid := by
  unfold Console.exec at ran
  split at ran
  · cases ran
  · split at ran
    · cases ran
      exact .goto differs _ (some other) now.dev
    · cases ran
  · cases ran
    exact .turn differs copied
  · cases ran
    exact .done differs _ _

theorem Under.goto (under : Under world now pid consumed) (pc : Pc) (place : pc.Consumed consumed) (lock : Option Nat) (dev : D) :
    Under world { now.goto pid pc with lock := lock, dev := dev } pid consumed := by
  refine ⟨?_, under.returned, under.input⟩
  change (update now.pcs pid pc pid).Consumed consumed
  rw [update_self]
  exact place

theorem World.input_take (dev : D) (c : UInt8) (pc : Pc) :
    (now.take pid dev c pc).input pid = now.input pid ++ if c = ctrlD then [] else [c] := by
  by_cases eof : c = ctrlD
  all_goals simp [World.input, World.take, eof]

theorem Under.take {dev : D} {c : UInt8} {pc : Pc} (under : Under world now pid consumed)
    (place : pc.Consumed (consumed ++ if c = ctrlD then [] else [c])) :
    Under world (now.take pid dev c pc) pid (consumed ++ if c = ctrlD then [] else [c]) := by
  refine ⟨?_, under.returned, ?_⟩
  · change (update now.pcs pid pc pid).Consumed _
    rw [update_self]
    exact place
  · rw [World.input_take, under.input, append_assoc]

theorem Under.done {ended : Ended} {value : Int} (under : Under world now pid consumed)
    (exact_iff : Return.Exact ⟨pid, call, ended, value⟩ consumed ↔ ended ≠ .fault ∧ (ended = .killed → call.bytes = [])) :
    Returned world (now.done pid call ended value) pid ⟨pid, call, ended, value⟩ consumed := by
  refine ⟨update_self .., ?_, under.input, exact_iff⟩
  rw [← under.returned]
  simp [World.returnsOf, World.done]

theorem Return.exact_leave {ended : Ended} (place : (Pc.leave call ended).Consumed consumed) :
    Return.Exact ⟨pid, call, ended, call.target - call.n⟩ consumed ↔ ended ≠ .fault ∧ (ended = .killed → call.bytes = []) := by
  obtain rfl | fault := eq_or_ne ended .fault
  · obtain ⟨_, c, rfl⟩ := place
    refine ⟨fun same => absurd (congrArg List.length same.1) ?_, fun no => absurd rfl no.1⟩
    simp
  have stored : call.Counted ∧ consumed = call.bytes := by
    cases ended with
    | fault => exact absurd rfl fault
    | enough | line | eof _ => exact place
    | killed => exact place.elim
  have alive : ended ≠ .killed := by
    rintro rfl
    exact place
  obtain ⟨counted, rfl⟩ := stored
  have sum := counted.counted
  refine ⟨fun _ => ⟨fault, fun killed => absurd killed alive⟩, fun _ => ⟨rfl, ?_⟩⟩
  dsimp only
  omega

theorem Return.exact_killed (call : Call) : Return.Exact ⟨pid, call, .killed, -1⟩ call.bytes ↔
    Ended.killed ≠ .fault ∧ (Ended.killed = .killed → call.bytes = []) := by
  refine ⟨fun same => ⟨nofun, fun _ => length_eq_zero_iff.mp same.2.symm⟩, fun none => ⟨rfl, ?_⟩⟩
  rw [none.2 rfl]
  rfl

theorem Under.turn {copied : Bool} (under : Under world now pid consumed) (place : now.pcs pid = .loop call) :
    (∃ consumed, Under world (turn driver now pid call copied) pid consumed) ∨
      ∃ ret, Returned world (turn driver now pid call copied) pid ret consumed := by
  have here := under.place
  rw [place] at here
  obtain ⟨counted, rfl⟩ := here
  unfold Console.turn
  split
  · exact .inl ⟨_, under.goto (.leave call .enough) ⟨counted, rfl⟩ now.lock now.dev⟩
  next wanted =>
  split
  · split
    · exact .inr ⟨_, under.done (Return.exact_killed call)⟩
    · exact .inl ⟨_, under.goto (.acquire call) ⟨counted, rfl⟩ none now.dev⟩
  dsimp only
  split
  · next eof =>
    split
    · exact .inl ⟨_, under.goto (.leave call (.eof false)) ⟨counted, rfl⟩ now.lock _⟩
    · exact .inl ⟨_, under.take ⟨counted, by rw [if_pos eof, append_nil]⟩⟩
  next plain =>
  split
  · exact .inl ⟨_, under.take ⟨counted, _, by rw [if_neg plain]⟩⟩
  have more := counted.more (driver.next now.dev).1 (Int.not_le.mp wanted)
  refine .inl ⟨_, under.take ?_⟩
  rw [if_neg plain]
  split
  · exact ⟨more, rfl⟩
  · exact ⟨more, rfl⟩

theorem Under.exec {copied : Bool} (under : Under world now pid consumed)
    (ran : exec driver now pid copied = some next) :
    (∃ consumed, Under world next pid consumed) ∨ ∃ ret, Returned world next pid ret consumed := by
  have here := under.place
  unfold Console.exec at ran
  split at ran
  · cases ran
  · next place =>
    split at ran
    · cases ran
      rw [place] at here
      exact .inl ⟨_, under.goto (.loop _) here (some pid) now.dev⟩
    · cases ran
  · next place =>
    cases ran
    exact under.turn place
  · next call ended place =>
    cases ran
    rw [place] at here
    exact .inr ⟨_, under.done (Return.exact_leave here)⟩

theorem Under.step {label : Label} (under : Under world now pid consumed) (stepped : step driver now label = some next) :
    (∃ consumed, Under world next pid consumed) ∨ ∃ ret consumed, Returned world next pid ret consumed := by
  cases label with
  | intr c =>
    obtain ⟨_, rfl⟩ := by simpa [Console.step] using stepped
    exact .inl ⟨_, under.apart ⟨rfl, rfl, rfl⟩⟩
  | consoleread other n =>
    obtain ⟨idle, rfl⟩ := by simpa [Console.step] using stepped
    have differs : pid ≠ other := fun same => by
      have here := under.place
      rw [same, idle] at here
      exact here
    exact .inl ⟨_, under.apart (.goto differs _ now.lock now.dev)⟩
  | exec other copied =>
    obtain rfl | same := eq_or_ne pid other
    · rcases under.exec stepped with going | ⟨ret, ended⟩
      · exact .inl going
      · exact .inr ⟨ret, _, ended⟩
    · exact .inl ⟨_, under.apart (.exec same stepped)⟩
  | kkill other =>
    cases stepped
    exact .inl ⟨_, under.apart ⟨rfl, rfl, rfl⟩⟩

end Losses

theorem killLine_r (fuel : Nat) (cons : Cons) : (Cons.killLine fuel cons).r = cons.r := by
  induction fuel generalizing cons with
  | zero => rfl
  | succ fuel ih =>
    rw [Cons.killLine]
    split
    · exact ih cons.erase
    · rfl

theorem consoleintr_r (cons : Cons) (c : UInt8) : (cons.consoleintr c).r = cons.r := by
  unfold Cons.consoleintr
  split
  · rfl
  split
  · exact killLine_r _ _
  split
  · split <;> rfl
  split
  · dsimp only
    generalize (if c = carriageReturn then newline else c) = put
    split <;> rfl
  · rfl

def Advanced (world now : World Cons) : Prop :=
  ∃ more, now.taken = world.taken ++ more ∧ now.dev.r = world.dev.r + BitVec.ofNat 32 more.length

theorem Advanced.keep {world now next : World Cons} (advanced : Advanced world now) (taken : next.taken = now.taken)
    (r : next.dev.r = now.dev.r) : Advanced world next := by
  rw [Advanced, taken, r]
  exact advanced

theorem Advanced.take {world now : World Cons} (advanced : Advanced world now) (pid : Nat) (c : UInt8) (pc : Pc) :
    Advanced world (now.take pid (ring.next now.dev).2 c pc) := by
  obtain ⟨more, taken, r⟩ := advanced
  refine ⟨more ++ [(pid, c)], ?_, ?_⟩
  · rw [← append_assoc, ← taken]
    rfl
  · change now.dev.r + 1#32 = _
    rw [r, length_append, BitVec.ofNat_add, BitVec.add_assoc]
    rfl

theorem Advanced.turn {world now : World Cons} (advanced : Advanced world now) (pid : Nat) (call : Call) (copied : Bool) :
    Advanced world (turn ring now pid call copied) := by
  unfold Console.turn
  split
  · exact advanced.keep rfl rfl
  split
  · split <;> exact advanced.keep rfl rfl
  dsimp only
  split
  · split
    · exact advanced.keep rfl (BitVec.add_sub_cancel now.dev.r 1#32)
    · exact advanced.take pid _ _
  · split <;> exact advanced.take pid _ _

theorem Advanced.step {world now next : World Cons} {label : Label} (advanced : Advanced world now)
    (stepped : step ring now label = some next) : Advanced world next := by
  cases label with
  | intr c =>
    obtain ⟨_, rfl⟩ := by simpa [Console.step] using stepped
    exact advanced.keep rfl (consoleintr_r now.dev c)
  | consoleread other n =>
    obtain ⟨_, rfl⟩ := by simpa [Console.step] using stepped
    exact advanced.keep rfl rfl
  | exec pid copied =>
    rw [Console.step, exec] at stepped
    split at stepped
    · cases stepped
    · split at stepped
      · cases stepped
        exact advanced.keep rfl rfl
      · cases stepped
    · cases stepped
      exact advanced.turn pid _ copied
    · cases stepped
      exact advanced.keep rfl rfl
  | kkill other =>
    cases stepped
    exact advanced.keep rfl rfl

def typed : World Cons := boot (((empty.consoleintr 104).consoleintr 105).consoleintr carriageReturn)

def asked : World Cons := typed.goto 0 (.acquire ⟨10, 10, []⟩)

def answered (copies : List Bool) : Option (World Cons) :=
  runWithin (fun now _ => now.pcs 0 ≠ .idle) (step ring) asked (copies.map (Label.exec 0))

end Xv6.Console

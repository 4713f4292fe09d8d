import Xv6.Console.Line

/-!
What the readers of the console get, in every run in which the copies to user memory
succeed: the bytes of the committed queue in order, each of them once, a line at a time.
-/

namespace Xv6.Console

open Function List
open Xv6.Lib

def Ended.extra : Ended → List UInt8
  | .eof true => [ctrlD]
  | .eof false | .enough | .line | .fault | .killed => []

def Pc.took : Pc → List UInt8
  | .idle => []
  | .acquire call | .loop call => call.bytes
  | .leave call ended => call.bytes ++ ended.extra

def Return.took (ret : Return) : List UInt8 := ret.call.bytes ++ ret.ended.extra

structure Call.Going (call : Call) : Prop where
  counted : call.n + call.bytes.length = call.target
  wanted : call.bytes ≠ [] → 0 ≤ call.n
  plain : ∀ b ∈ call.bytes, b ≠ ctrlD ∧ b ≠ newline

def Call.Stops (call : Call) : Ended → Prop
  | .enough => call.n ≤ 0
  | .line => call.bytes.getLast? = some newline
  | .eof true => call.bytes = []
  | .eof false => call.bytes ≠ []
  | .fault => False
  | .killed => True

/-- A call that is over: at most `target` bytes, all of one line, none of them a `^D`, and why
there are not more of them. -/
structure Call.Over (call : Call) (ended : Ended) : Prop where
  counted : call.n + call.bytes.length = call.target
  wanted : call.bytes ≠ [] → 0 ≤ call.n
  plain : ctrlD ∉ call.bytes
  oneLine : newline ∉ call.bytes.dropLast
  reason : call.Stops ended

def Pc.Ok : Pc → Prop
  | .idle => True
  | .acquire call | .loop call => call.Going
  | .leave call ended => call.Over ended ∧ ended ≠ .killed

structure Return.Ok (ret : Return) : Prop where
  call : ret.call.Over ret.ended
  value : ret.value = if ret.ended = .killed then -1 else (ret.call.bytes.length : Int)

theorem Call.Going.stops {call : Call} {ended : Ended} (going : call.Going)
    (reason : call.Stops ended) : call.Over ended :=
  ⟨going.counted, going.wanted, fun member => (going.plain _ member).1 rfl,
    fun member => (going.plain _ (mem_of_mem_dropLast member)).2 rfl, reason⟩

theorem Call.Going.more {call : Call} {c : UInt8} (going : call.Going) (wanted : 0 < call.n) (plain : c ≠ ctrlD) :
    (c = newline → Call.Over ⟨call.n - 1, call.target, call.bytes ++ [c]⟩ .line) ∧
      (c ≠ newline → Call.Going ⟨call.n - 1, call.target, call.bytes ++ [c]⟩) := by
  have counted : call.n - 1 + ((call.bytes ++ [c]).length : Int) = call.target := by
    have before := going.counted
    simp only [length_append, length_singleton, Nat.cast_add, Nat.cast_one]
    omega
  refine ⟨fun ends => ⟨counted, fun _ => Int.le_sub_one_of_lt wanted, fun member => ?_, fun member => ?_, ?_⟩,
    fun other => ⟨counted, fun _ => Int.le_sub_one_of_lt wanted, fun b member => ?_⟩⟩
  · rcases mem_append.mp member with old | new
    · exact (going.plain _ old).1 rfl
    · exact plain (mem_singleton.mp new).symm
  · rw [dropLast_concat] at member
    exact (going.plain _ member).2 rfl
  · rw [Call.Stops, List.getLast?_concat, ends]
  · rcases mem_append.mp member with old | new
    · exact going.plain b old
    · rw [mem_singleton.mp new]
      exact ⟨plain, other⟩

structure Served (world : World Line) : Prop where
  stream : world.dev.sent = world.taken.map Prod.snd ++ world.dev.committed
  each : ∀ pid, (world.taken.filter fun t => t.1 == pid).map Prod.snd =
    (world.returns.filter fun ret => ret.pid == pid).flatMap Return.took ++ (world.pcs pid).took
  places : ∀ pid, (world.pcs pid).Ok
  returns : ∀ ret ∈ world.returns, ret.Ok

def Label.copies : Label → Bool
  | .exec _ copied => copied
  | .intr _ | .consoleread _ _ | .kkill _ => true

def Grows (line after : Line) : Prop :=
  ∃ more, after.sent = line.sent ++ more ∧ after.committed = line.committed ++ more

theorem Grows.same {line after : Line} (sent : after.sent = line.sent) (committed : after.committed = line.committed) :
    Grows line after :=
  ⟨[], by rw [sent, append_nil], by rw [committed, append_nil]⟩

theorem append_grows (line : Line) (c : UInt8) : Grows line (line.append c) := by
  unfold Line.append
  simp only
  split
  · exact ⟨_, rfl, rfl⟩
  · exact .same rfl rfl

theorem type_grows (line : Line) (c : UInt8) : Grows line (line.type c) := by
  unfold Line.type
  split
  · exact .same rfl rfl
  split
  · exact .same rfl rfl
  split
  · exact .same rfl rfl
  · split
    · exact append_grows line _
    · exact .same rfl rfl

section Served

variable {world : World Line} {pid : Nat} {call : Call} (served : Served world)
include served

theorem Served.goto (pc : Pc) (took : pc.took = (world.pcs pid).took) (ok : pc.Ok) (lock : Option Nat) :
    Served { world.goto pid pc with lock := lock } := by
  refine ⟨served.stream, fun q => ?_, fun q => ?_, served.returns⟩
  · obtain rfl | same := eq_or_ne q pid
    · simpa [World.goto, took] using served.each q
    · simpa [World.goto, same] using served.each q
  · obtain rfl | same := eq_or_ne q pid
    · simpa [World.goto] using ok
    · simpa [World.goto, same] using served.places q

theorem Served.take {c : UInt8} {rest : List UInt8} (pc : Pc) (queue : world.dev.committed = c :: rest)
    (took : pc.took = (world.pcs pid).took ++ [c]) (ok : pc.Ok) :
    Served (world.take pid { world.dev with committed := rest } c pc) := by
  refine ⟨?_, fun q => ?_, fun q => ?_, served.returns⟩
  · simpa [World.take, queue] using served.stream
  · obtain rfl | same := eq_or_ne q pid
    · have before := served.each q
      simp [World.take, World.goto, took]
      rw [before, append_assoc]
    · have other : ¬ pid = q := fun is => same is.symm
      simpa [World.take, World.goto, same, other] using served.each q
  · obtain rfl | same := eq_or_ne q pid
    · simpa [World.take, World.goto] using ok
    · simpa [World.take, World.goto, same] using served.places q

theorem Served.done {ended : Ended} {value : Int} (took : (world.pcs pid).took = call.bytes ++ ended.extra)
    (isOver : call.Over ended) (result : value = if ended = .killed then -1 else (call.bytes.length : Int)) :
    Served (world.done pid call ended value) := by
  refine ⟨served.stream, fun q => ?_, fun q => ?_, fun ret member => ?_⟩
  · obtain rfl | same := eq_or_ne q pid
    · have before := served.each q
      rw [took] at before
      simpa [World.done, World.goto, Pc.took, Return.took] using before
    · have other : ¬ pid = q := fun is => same is.symm
      simpa [World.done, World.goto, same, other] using served.each q
  · obtain rfl | same := eq_or_ne q pid
    · simp [World.done, World.goto, Pc.Ok]
    · simpa [World.done, World.goto, same] using served.places q
  · rcases mem_append.mp member with old | new
    · exact served.returns ret old
    · obtain rfl := mem_singleton.mp new
      exact ⟨isOver, result⟩

theorem Served.turn (place : world.pcs pid = .loop call) : Served (turn queues world pid call true) := by
  have going : call.Going := by
    have ok := served.places pid
    rwa [place] at ok
  have took : (world.pcs pid).took = call.bytes := by rw [place]; rfl
  simp only [Console.turn]
  by_cases enough : call.n ≤ 0
  · rw [if_pos enough]
    exact served.goto (.leave call .enough) (took ▸ append_nil _) ⟨going.stops enough, by rintro ⟨⟩⟩ world.lock
  rw [if_neg enough]
  cases queue : world.dev.committed with
  | nil =>
    have none : queues.empty world.dev = true := by simp [queues, queue]
    rw [if_pos none]
    split
    · exact served.done (took.trans (append_nil _).symm) (going.stops trivial) rfl
    · exact served.goto (.acquire call) took.symm going Option.none
  | cons c rest =>
    have some : ¬ queues.empty world.dev = true := by simp [queues, queue]
    have popped : queues.next world.dev = (c, { world.dev with committed := rest }) := by
      simp [queues, queue]
    rw [if_neg some, popped]
    simp only
    by_cases eof : c = ctrlD
    · rw [if_pos eof]
      have first : call.n < call.target ↔ call.bytes ≠ [] := by
        have counted := going.counted
        rw [← length_pos_iff]
        omega
      by_cases later : call.n < call.target
      · rw [if_pos later]
        have same : queues.back { world.dev with committed := rest } c = world.dev := by
          simp only [queues, ← queue]
        rw [same]
        exact served.goto (.leave call (.eof false)) (took ▸ append_nil _)
          ⟨going.stops (first.mp later), by rintro ⟨⟩⟩ world.lock
      rw [if_neg later]
      have empty : call.bytes = [] := not_not.mp fun more => later (first.mpr more)
      refine served.take (.leave call (.eof true)) queue ?_ ⟨going.stops empty, by rintro ⟨⟩⟩
      rw [took, eof]
      rfl
    · rw [if_neg eof, if_neg (by rintro ⟨⟩)]
      have more := going.more (Int.not_le.mp enough) eof
      by_cases end_ : c = newline
      · rw [if_pos end_]
        refine served.take (.leave _ .line) queue ?_ ⟨more.1 end_, by rintro ⟨⟩⟩
        rw [took]
        exact append_nil _
      rw [if_neg end_]
      refine served.take (.loop _) queue ?_ (more.2 end_)
      rw [took]
      rfl

theorem Served.step {next : World Line} {label : Label} (copies : label.copies = true)
    (stepped : step queues world label = some next) : Served next := by
  cases label with
  | intr c =>
    obtain ⟨_, rfl⟩ := by simpa [Console.step] using stepped
    obtain ⟨more, sent, committed⟩ := type_grows world.dev c
    refine ⟨?_, served.each, served.places, served.returns⟩
    change (world.dev.type c).sent = _ ++ (world.dev.type c).committed
    rw [sent, committed, served.stream, append_assoc]
  | consoleread pid n =>
    obtain ⟨idle, rfl⟩ := by simpa [Console.step] using stepped
    refine served.goto (.acquire ⟨n, n, []⟩) (idle ▸ rfl) ⟨?_, by simp, by simp⟩ world.lock
    exact Int.add_zero n
  | exec pid copied =>
    simp only [Console.step, exec] at stepped
    cases place : world.pcs pid with
    | idle =>
      rw [place] at stepped
      cases stepped
    | acquire call =>
      rw [place] at stepped
      obtain ⟨_, rfl⟩ := by simpa using stepped
      have going : call.Going := by
        have ok := served.places pid
        rwa [place] at ok
      exact served.goto (.loop call) (place ▸ rfl) going (some pid)
    | loop call =>
      rw [place] at stepped
      cases stepped
      obtain rfl : copied = true := copies
      exact served.turn place
    | leave call ended =>
      rw [place] at stepped
      cases stepped
      have ok := served.places pid
      rw [place] at ok
      obtain ⟨isOver, notKilled⟩ := ok
      refine served.done (place ▸ rfl) isOver ?_
      rw [if_neg notKilled]
      have counted := isOver.counted
      omega
  | kkill pid =>
    cases stepped
    exact ⟨served.stream, served.each, served.places, served.returns⟩

end Served

structure Call.Counted (call : Call) : Prop where
  counted : call.n + call.bytes.length = call.target
  wanted : call.bytes ≠ [] → 0 ≤ call.n

theorem Call.Counted.bytes_le {call : Call} (counted : call.Counted) : (call.bytes.length : Int) ≤ max call.target 0 := by
  have sum := counted.counted
  by_cases none : call.bytes = []
  · rw [none]
    exact Int.le_max_right ..
  · have left := counted.wanted none
    omega

theorem Call.Counted.value_le {call : Call} (counted : call.Counted) : call.target - call.n ≤ max call.target 0 := by
  have sum := counted.counted
  have most := counted.bytes_le
  omega

theorem Call.Counted.more {call : Call} (counted : call.Counted) (c : UInt8) (wanted : 0 < call.n) :
    Call.Counted { call with n := call.n - 1, bytes := call.bytes ++ [c] } := by
  have sum := counted.counted
  refine ⟨?_, fun _ => Int.le_sub_one_of_lt wanted⟩
  simp only [length_append, length_singleton, Int.natCast_add, Int.natCast_one]
  omega

def Pc.Counted : Pc → Prop
  | .idle => True
  | .acquire call | .loop call | .leave call _ => call.Counted

structure Counts {D : Type} (world : World D) : Prop where
  calls : ∀ pid, (world.pcs pid).Counted
  returned : ∀ ret ∈ world.returns, ret.call.Counted ∧ ret.value ≤ max ret.call.target 0

section

variable {D : Type} {driver : Driver D} {world next : World D} {pid : Nat} {call : Call}

theorem Counts.goto {pc : Pc} (counts : Counts world) (pcs : next.pcs = update world.pcs pid pc)
    (returns : next.returns = world.returns) (fresh : pc.Counted) : Counts next := by
  refine ⟨fun other => ?_, returns ▸ counts.returned⟩
  rw [pcs]
  by_cases same : other = pid
  · rw [same, Function.update_self]
    exact fresh
  · rw [Function.update_of_ne same]
    exact counts.calls other

theorem Counts.done {ended : Ended} {value : Int} (counts : Counts world) (fresh : call.Counted) (result : value ≤ max call.target 0) :
    Counts (world.done pid call ended value) := by
  have idle : Counts (world.goto pid .idle) := counts.goto rfl rfl trivial
  refine ⟨idle.calls, fun ret member => ?_⟩
  rcases mem_append.mp member with old | new
  · exact counts.returned ret old
  · rw [mem_singleton.mp new]
    exact ⟨fresh, result⟩

theorem Counts.turn {copied : Bool} (counts : Counts world) (fresh : call.Counted) : Counts (turn driver world pid call copied) := by
  unfold Console.turn
  split
  · exact counts.goto rfl rfl fresh
  next wanted =>
  split
  · split
    · exact counts.done fresh (by omega)
    · exact counts.goto rfl rfl fresh
  dsimp only
  split
  · split
    all_goals exact counts.goto rfl rfl fresh
  split
  · exact counts.goto rfl rfl fresh
  · have more := fresh.more (driver.next world.dev).1 (Int.not_le.mp wanted)
    split
    all_goals exact counts.goto rfl rfl more

theorem counts_step {label : Label} (counts : Counts world) (stepped : step driver world label = some next) : Counts next := by
  cases label with
  | intr c =>
    rw [step] at stepped
    split at stepped
    · cases stepped
      exact ⟨counts.calls, counts.returned⟩
    · cases stepped
  | consoleread pid n =>
    rw [step] at stepped
    split at stepped
    · cases stepped
      exact counts.goto rfl rfl ⟨Int.add_zero n, fun some => absurd rfl some⟩
    · cases stepped
  | kkill pid =>
    cases stepped
    exact ⟨counts.calls, counts.returned⟩
  | exec pid copied =>
    rw [step, exec] at stepped
    have here := counts.calls pid
    split at stepped
    · cases stepped
    · next call place =>
      rw [place] at here
      split at stepped
      · cases stepped
        exact counts.goto rfl rfl here
      · cases stepped
    · next call place =>
      rw [place] at here
      cases stepped
      exact counts.turn here
    · next call ended place =>
      rw [place] at here
      cases stepped
      exact counts.done here here.value_le

theorem console_counts {dev : D} (reached : Reaches (step driver) (fun _ _ => True) (boot dev) world) : Counts world :=
  reached.invariant Counts ⟨fun _ => trivial, fun _ member => absurd member not_mem_nil⟩
    fun _ _ _ counts _ stepped => counts_step counts stepped

end

end Xv6.Console

import Xv6.Primes.Core
import Xv6.Primes.Sieve

/-!
While every `pipe` and `fork` succeeds, process `k + 1` reads pipe `k` and writes pipe `k +
1`, and process zero writes pipe zero. `Live` says so and ties neighbouring pipes together.
-/

namespace Xv6.Primes

open Function Proc List
open Xv6.Lib

variable {numero primo : Nat} {pipeX hijo : Fd} {fds : List End} {child : Option Nat} {ok : Bool}

def Pc.pending : Pc → List Nat
  | .mainCloseRead numeros => numeros
  | .mainWrite numeros => numeros
  | .filter _ primo _ numero => if numero % primo ≠ 0 then [numero] else []
  | _ => []

def Pc.primo? : Pc → Option Nat
  | .print _ primo | .pipe _ primo | .fork _ primo _ | .closeHijoRead _ primo _
  | .readRest _ primo _ | .filter _ primo _ _ => some primo
  | _ => none

def Pc.unread (isLast : Bool) : Pc → Bool
  | .mainChildClose | .childCloseX _ _ | .childCloseWrite _ | .readFirst _ => true
  | .exit | .exited => isLast
  | _ => false

def Pc.ended : Pc → Bool
  | .closeHijoWrite _ _ | .closeX _ | .wait | .exit | .exited => true
  | _ => false

def Pc.sealed : Pc → Bool
  | .closeX _ | .wait | .exit | .exited | .mainWait => true
  | _ => false

def Pc.printed : Pc → Bool
  | .pipe _ _ | .fork _ _ _ => true
  | _ => false

def Pc.forking : Pc → Bool
  | .fork _ _ _ => true
  | _ => false

def SenderShape (proc : Proc) : Prop :=
  match proc.pc with
  | .mainCloseRead _ => proc.fds = [.read 0, .write 0]
  | .mainWrite _ | .mainCloseWrite => proc.fds = [.write 0]
  | .mainWait | .exit | .exited => proc.fds = []
  | _ => False

def StageShape (last k : Nat) (proc : Proc) : Prop :=
  match proc.pc with
  | .mainChildClose => k = last ∧ k = 0 ∧ proc.fds = [.read k, .write k]
  | .childCloseX pipeX hijo => k = last ∧ 0 < k ∧ pipeX = some (k - 1) ∧ hijo = some k ∧
      proc.fds = [.read (k - 1), .read k, .write k]
  | .childCloseWrite hijo => k = last ∧ hijo = some k ∧ proc.fds = [.read k, .write k]
  | .readFirst pipeX | .print pipeX _ | .pipe pipeX _ =>
    k = last ∧ pipeX = some k ∧ proc.fds = [.read k]
  | .fork pipeX _ hijo => k = last ∧ pipeX = some k ∧ hijo = some (k + 1) ∧
      proc.fds = [.read k, .read (k + 1), .write (k + 1)]
  | .closeHijoRead pipeX _ hijo => k < last ∧ pipeX = some k ∧ hijo = some (k + 1) ∧
      proc.fds = [.read k, .read (k + 1), .write (k + 1)]
  | .readRest pipeX _ hijo | .filter pipeX _ hijo _ | .closeHijoWrite pipeX hijo =>
    k < last ∧ pipeX = some k ∧ hijo = some (k + 1) ∧ proc.fds = [.read k, .write (k + 1)]
  | .closeX pipeX => k < last ∧ pipeX = some k ∧ proc.fds = [.read k]
  | .wait => k < last ∧ proc.fds = []
  | .exit => proc.fds = [] ∨ k = last ∧ proc.fds = [.read k]
  | .exited => proc.fds = []
  | _ => False

structure Live (numeros : List Nat) (last : Nat) (world : World) : Prop where
  count : world.nprocs = last + 2
  succeeded : world.failed = false
  sender : SenderShape (world.procs 0)
  stage : ∀ k ≤ last, StageShape last k (world.procs (k + 1))
  npipes : world.npipes = last + 1 + (world.procs (last + 1)).pc.forking.toNat
  blank : ∀ pipe, last < pipe → world.pipes pipe = ⟨[], []⟩
  sent : (world.pipes 0).written ++ (world.procs 0).pc.pending = numeros
  flow : ∀ k ≤ last, (world.pipes (k + 1)).written ++ (world.procs (k + 1)).pc.pending =
    survivors (world.pipes k).taken
  primo : ∀ k ≤ last, ∀ primo, (world.procs (k + 1)).pc.primo? = some primo →
    (world.pipes k).taken.head? = some primo
  unread : ∀ k ≤ last, (world.procs (k + 1)).pc.unread (k = last) → (world.pipes k).taken = []
  ended : ∀ k ≤ last, (world.procs (k + 1)).pc.ended →
    (world.pipes k).queue = [] ∧ (world.procs k).pc.sealed
  length : world.out.length = last + (world.procs (last + 1)).pc.printed.toNat
  heads : ∀ k < world.out.length, world.out[k]? = (world.pipes k).taken.head?

theorem live_start (numeros : List Nat) : Live numeros 0 (World.start numeros) := by
  have only : ∀ {k : Nat}, k ≤ 0 → k = 0 := fun bound => Nat.le_zero.mp bound
  refine ⟨rfl, rfl, rfl, ?_, rfl, fun _ _ => rfl, rfl, ?_, ?_, ?_, ?_, rfl, ?_⟩
  · intro k bound
    rw [only bound]
    exact ⟨rfl, rfl, rfl⟩
  · intro k bound
    rw [only bound]
    rfl
  · intro k bound primo found
    rw [only bound] at found
    cases found
  · intro k _ _
    rfl
  · intro k bound ended
    rw [only bound] at ended
    cases ended
  · intro k bound
    cases bound

structure StageMove (last k : Nat) (proc : Proc) (world next : World) : Prop where
  procs : next.procs = update world.procs (k + 1) proc
  nprocs : next.nprocs = world.nprocs
  failed : next.failed = world.failed
  shape : StageShape last k proc
  others : ∀ pipe, pipe ≠ k → pipe ≠ k + 1 → next.pipes pipe = world.pipes pipe
  written : (next.pipes k).written = (world.pipes k).written
  taken : (next.pipes (k + 1)).taken = (world.pipes (k + 1)).taken
  npipes : next.npipes = last + 1 + (next.procs (last + 1)).pc.forking.toNat
  blank : ∀ pipe, last < pipe → next.pipes pipe = ⟨[], []⟩
  flow : (next.pipes (k + 1)).written ++ proc.pc.pending = survivors (next.pipes k).taken
  primo : ∀ primo, proc.pc.primo? = some primo → (next.pipes k).taken.head? = some primo
  unread : proc.pc.unread (k = last) → (next.pipes k).taken = []
  ended : proc.pc.ended → (next.pipes k).queue = [] ∧ (world.procs k).pc.sealed
  reader : k + 1 ≤ last → (world.procs (k + 2)).pc.ended →
    (next.pipes (k + 1)).queue = [] ∧ proc.pc.sealed
  length : next.out.length = last + (next.procs (last + 1)).pc.printed.toNat
  heads : ∀ j < next.out.length, next.out[j]? = (next.pipes j).taken.head?

variable {numeros : List Nat} {last k : Nat} {world next : World} {proc old : Proc}
  {pipes : Nat → Pipe}

theorem Live.stage_moved (live : Live numeros last world) (bound : k ≤ last)
    (move : StageMove last k proc world next) : Live numeros last next := by
  have here : next.procs (k + 1) = proc := by rw [move.procs, update_self]
  have other : ∀ pid, pid ≠ k + 1 → next.procs pid = world.procs pid := by
    intro pid different
    rw [move.procs, update_of_ne different]
  refine ⟨move.nprocs.trans live.count, move.failed.trans live.succeeded, ?_, ?_, move.npipes,
    move.blank, ?_, ?_, ?_, ?_, ?_, move.length, move.heads⟩
  · rw [other 0 (by omega)]
    exact live.sender
  · intro j limit
    obtain rfl | same := eq_or_ne j k
    · exact here ▸ move.shape
    · rw [other (j + 1) (by omega)]
      exact live.stage j limit
  · refine Eq.trans ?_ live.sent
    rw [other 0 (by omega)]
    obtain rfl | same := eq_or_ne k 0
    · rw [move.written]
    · rw [move.others 0 (by omega) (by omega)]
  · intro j limit
    obtain rfl | same := eq_or_ne j k
    · exact here ▸ move.flow
    rw [other (j + 1) (by omega)]
    have before := live.flow j limit
    obtain rfl | above := eq_or_ne j (k + 1)
    · rw [move.others _ (by omega) (by omega), move.taken]
      exact before
    rw [move.others j (by omega) above]
    by_cases below : j + 1 = k
    · rw [below, move.written, ← below]
      exact before
    · rw [move.others _ below (by omega)]
      exact before
  · intro j limit primo found
    obtain rfl | same := eq_or_ne j k
    · exact move.primo primo (here ▸ found)
    rw [other (j + 1) (by omega)] at found
    have before := live.primo j limit primo found
    obtain rfl | above := eq_or_ne j (k + 1)
    · rw [move.taken]
      exact before
    · rw [move.others j (by omega) above]
      exact before
  · intro j limit untouched
    obtain rfl | same := eq_or_ne j k
    · exact move.unread (here ▸ untouched)
    rw [other (j + 1) (by omega)] at untouched
    have before := live.unread j limit untouched
    obtain rfl | above := eq_or_ne j (k + 1)
    · rw [move.taken]
      exact before
    · rw [move.others j (by omega) above]
      exact before
  · intro j limit finished
    obtain rfl | same := eq_or_ne j k
    · rw [other j (by omega)]
      exact move.ended (here ▸ finished)
    rw [other (j + 1) (by omega)] at finished
    obtain rfl | above := eq_or_ne j (k + 1)
    · rw [here]
      exact move.reader limit finished
    · rw [move.others j (by omega) above, other j (by omega)]
      exact live.ended j limit finished

theorem last_kept {α : Type} (view : Pc → α) (same : world.procs (k + 1) = old)
    (kept : view proc.pc = view old.pc) :
    view (update world.procs (k + 1) proc (last + 1)).pc =
      view (world.procs (last + 1)).pc := by
  obtain rfl | here := eq_or_ne last k
  · rw [update_self, same, kept]
  · rw [update_of_ne (by omega)]

theorem Live.npipes_kept (live : Live numeros last world) (same : world.procs (k + 1) = old)
    (forking : proc.pc.forking = old.pc.forking) : world.npipes =
      last + 1 + (update world.procs (k + 1) proc (last + 1)).pc.forking.toNat := by
  rw [last_kept Pc.forking same forking]
  exact live.npipes

theorem Live.length_kept (live : Live numeros last world) (same : world.procs (k + 1) = old)
    (printed : proc.pc.printed = old.pc.printed) : world.out.length =
      last + (update world.procs (k + 1) proc (last + 1)).pc.printed.toNat := by
  rw [last_kept Pc.printed same printed]
  exact live.length

structure SenderMove (numeros : List Nat) (world : World) (proc : Proc) (pipes : Nat → Pipe) :
    Prop where
  shape : SenderShape proc
  others : ∀ pipe, pipe ≠ 0 → pipes pipe = world.pipes pipe
  taken : (pipes 0).taken = (world.pipes 0).taken
  sent : (pipes 0).written ++ proc.pc.pending = numeros
  reader : (world.procs 1).pc.ended → (pipes 0).queue = [] ∧ proc.pc.sealed

theorem Live.sender_moved (live : Live numeros last world)
    (move : SenderMove numeros world proc pipes) :
    Live numeros last { world.set 0 proc with pipes := pipes } := by
  have other : ∀ pid, update world.procs 0 proc (pid + 1) = world.procs (pid + 1) :=
    fun pid => update_of_ne (by omega) _ _
  have taken : ∀ pipe, (pipes pipe).taken = (world.pipes pipe).taken := by
    intro pipe
    by_cases same : pipe = 0
    · rw [same, move.taken]
    · rw [move.others pipe same]
  have beyond : ∀ pipe, pipes (pipe + 1) = world.pipes (pipe + 1) := fun pipe =>
    move.others _ (by omega)
  refine ⟨live.count, live.succeeded, ?_, ?_, ?_, ?_, move.sent, ?_, ?_, ?_, ?_, ?_, ?_⟩
  · simpa only [World.set, update_self] using move.shape
  · simpa only [World.set, other] using live.stage
  · simpa only [World.set, other] using live.npipes
  · intro pipe beyond
    exact (move.others pipe (by omega)).trans (live.blank pipe beyond)
  · simpa only [World.set, other, beyond, taken] using live.flow
  · simpa only [World.set, other, taken] using live.primo
  · simpa only [World.set, other, taken] using live.unread
  · intro j limit finished
    simp only [World.set, other] at finished ⊢
    cases j with
    | zero =>
      rw [update_self]
      exact move.reader finished
    | succ j =>
      rw [other, beyond]
      exact live.ended (j + 1) limit finished
  · simpa only [World.set, other] using live.length
  · simpa only [World.set, taken] using live.heads

theorem holds_iff {side : End} :
    world.holds side = true ↔ ∃ pid < world.nprocs, side ∈ (world.procs pid).fds := by
  simp [World.holds]

theorem StageShape.reads (shape : StageShape last k proc) :
    End.read k ∈ proc.fds ∨ proc.pc.ended = true := by
  obtain ⟨pc, fds, child⟩ := proc
  cases pc <;> simp only [StageShape] at shape <;> grind [Pc.ended]

theorem StageShape.writes (shape : StageShape last k proc) (parent : k < last) :
    End.write (k + 1) ∈ proc.fds ∨ proc.pc.sealed = true := by
  obtain ⟨pc, fds, child⟩ := proc
  cases pc <;> simp only [StageShape] at shape <;> grind [Pc.sealed]

theorem SenderShape.writes (shape : SenderShape proc) :
    End.write 0 ∈ proc.fds ∨ proc.pc.sealed = true := by
  obtain ⟨pc, fds, child⟩ := proc
  cases pc <;> simp only [SenderShape] at shape <;> grind [Pc.sealed]

theorem Live.sealed_of_no_writer (live : Live numeros last world) (bound : k ≤ last)
    (closed : world.holds (.write k) = false) : (world.procs k).pc.sealed = true := by
  have held : End.write k ∈ (world.procs k).fds ∨ (world.procs k).pc.sealed = true := by
    cases k with
    | zero => exact live.sender.writes
    | succ k => exact (live.stage k (by omega)).writes (by omega)
  refine held.resolve_left fun found => ?_
  have writer : world.holds (.write k) = true :=
    holds_iff.mpr ⟨k, by rw [live.count]; omega, found⟩
  simp [closed] at writer

theorem Live.reader_of_not_sealed (live : Live numeros last world) (bound : k ≤ last)
    (sending : (world.procs k).pc.sealed = false) : world.holds (.read k) = true := by
  have held := (live.stage k bound).reads
  have running : (world.procs (k + 1)).pc.ended ≠ true := by
    intro finished
    simp [(live.ended k bound finished).2] at sending
  exact holds_iff.mpr ⟨k + 1, by rw [live.count]; omega, held.resolve_right running⟩

theorem read_cases {pipe : Nat} {result : Option Nat × (Nat → Pipe)}
    (held : End.read pipe ∈ proc.fds) (got : world.read proc (some pipe) = some result) :
    (∃ numero rest, (world.pipes pipe).queue = numero :: rest ∧ result = (some numero,
      update world.pipes pipe ⟨(world.pipes pipe).taken ++ [numero], rest⟩)) ∨
    ((world.pipes pipe).queue = [] ∧ world.holds (.write pipe) = false ∧
      result = (none, world.pipes)) := by
  simp only [World.read, if_pos held] at got
  cases queue : (world.pipes pipe).queue with
  | nil =>
    simp only [queue] at got
    split at got
    · cases got
    · rename_i closed
      exact .inr ⟨rfl, by simpa using closed, (Option.some.inj got).symm⟩
  | cons numero rest =>
    simp only [queue, Option.some.injEq] at got
    exact .inl ⟨numero, rest, rfl, got.symm⟩

theorem write_cases {pipe : Nat} (held : End.write pipe ∈ proc.fds) (reader : world.holds (.read pipe) = true)
    (put : world.write proc numero (some pipe) = some pipes) :
    pipes = update world.pipes pipe
      ⟨(world.pipes pipe).taken, (world.pipes pipe).queue ++ [numero]⟩ := by
  simp only [World.write, held, reader, and_self, if_true] at put
  split at put
  · exact (Option.some.inj put).symm
  · cases put

theorem Live.stage_silent (live : Live numeros last world) (bound : k ≤ last)
    (same : world.procs (k + 1) = old) (shape : StageShape last k proc)
    (pending : proc.pc.pending = old.pc.pending)
    (primo : ∀ primo, proc.pc.primo? = some primo → old.pc.primo? = some primo)
    (unread : proc.pc.unread (k = last) → old.pc.unread (k = last))
    (ended : proc.pc.ended → old.pc.ended ∨
      (world.pipes k).queue = [] ∧ (world.procs k).pc.sealed)
    (closed : old.pc.sealed → proc.pc.sealed) (forking : proc.pc.forking = old.pc.forking)
    (printed : proc.pc.printed = old.pc.printed) :
    Live numeros last (world.set (k + 1) proc) := by
  refine live.stage_moved bound ⟨rfl, rfl, rfl, shape, fun _ _ _ => rfl, rfl, rfl,
    live.npipes_kept same forking, live.blank, ?_, ?_, ?_, ?_, ?_, live.length_kept same printed,
    live.heads⟩
  all_goals subst old
  · rw [pending]
    exact live.flow k bound
  · intro value found
    exact live.primo k bound value (primo value found)
  · intro untouched
    exact live.unread k bound (unread untouched)
  · intro finished
    exact (ended finished).elim (live.ended k bound) id
  · intro limit finished
    obtain ⟨empty, upstream⟩ := live.ended (k + 1) limit finished
    exact ⟨empty, closed upstream⟩

theorem Live.stage_takes (live : Live numeros last world) (bound : k ≤ last) (same : world.procs (k + 1) = old)
    {rest : List Nat} (queue : (world.pipes k).queue = numero :: rest) (shape : StageShape last k proc)
    (idle : old.pc.pending = [])
    (pending : survivors ((world.pipes k).taken ++ [numero]) = survivors (world.pipes k).taken ++ proc.pc.pending)
    (primo : ∀ primo, proc.pc.primo? = some primo → ((world.pipes k).taken ++ [numero]).head? = some primo)
    (touched : proc.pc.unread (k = last) = false) (running : proc.pc.ended = false) (sending : old.pc.sealed = false)
    (head : (world.pipes k).taken = [] → world.out.length ≤ k) (forking : proc.pc.forking = old.pc.forking)
    (printed : proc.pc.printed = old.pc.printed) :
    Live numeros last { world.set (k + 1) proc with
      pipes := update world.pipes k ⟨(world.pipes k).taken ++ [numero], rest⟩ } := by
  refine live.stage_moved bound ⟨rfl, rfl, rfl, shape, fun _ different _ => update_of_ne different _ _,
    ?_, ?_, live.npipes_kept same forking, ?_, ?_, ?_, ?_, ?_, ?_, live.length_kept same printed, ?_⟩
  all_goals subst old
  all_goals dsimp only [World.set]
  · rw [update_self, Pipe.written, Pipe.written, queue, append_assoc, singleton_append]
  · rw [update_of_ne (by omega)]
  · intro j beyond
    exact (update_of_ne (by omega) _ _).trans (live.blank j beyond)
  · rw [update_of_ne (by omega), update_self, pending, ← live.flow k bound, idle, append_nil]
  · intro value found
    rw [update_self]
    exact primo value found
  · rw [touched]
    intro untouched
    cases untouched
  · rw [running]
    intro finished
    cases finished
  · intro limit finished
    have upstream := (live.ended (k + 1) limit finished).2
    rw [sending] at upstream
    cases upstream
  · intro j limit
    refine (live.heads j limit).trans ?_
    obtain rfl | same := eq_or_ne j k
    · rw [update_self]
      cases taken : (world.pipes j).taken with
      | nil => exact absurd (head taken) (by omega)
      | cons first others => rfl
    · rw [update_of_ne same]

theorem Live.stage_puts (live : Live numeros last world) (parent : k < last) (same : world.procs (k + 1) = old)
    (shape : StageShape last k proc) (pending : old.pc.pending = numero :: proc.pc.pending)
    (primo : ∀ primo, proc.pc.primo? = some primo → old.pc.primo? = some primo)
    (touched : proc.pc.unread (k = last) = false) (running : proc.pc.ended = false) (sending : old.pc.sealed = false)
    (forking : proc.pc.forking = old.pc.forking) (printed : proc.pc.printed = old.pc.printed) :
    Live numeros last { world.set (k + 1) proc with
      pipes := update world.pipes (k + 1) ⟨(world.pipes (k + 1)).taken,
        (world.pipes (k + 1)).queue ++ [numero]⟩ } := by
  refine live.stage_moved parent.le ⟨rfl, rfl, rfl, shape, fun _ _ different => update_of_ne different _ _,
    ?_, ?_, live.npipes_kept same forking, ?_, ?_, ?_, ?_, ?_, ?_, live.length_kept same printed, ?_⟩
  all_goals subst old
  all_goals dsimp only [World.set]
  · rw [update_of_ne (by omega)]
  · rw [update_self]
  · intro j beyond
    exact (update_of_ne (by omega) _ _).trans (live.blank j beyond)
  · have flow := live.flow k parent.le
    rw [pending] at flow
    rw [update_self, update_of_ne (by omega), ← flow]
    simp [Pipe.written]
  · intro value found
    rw [update_of_ne (by omega)]
    exact live.primo k parent.le value (primo value found)
  · rw [touched]
    intro untouched
    cases untouched
  · rw [running]
    intro finished
    cases finished
  · intro limit finished
    have upstream := (live.ended (k + 1) limit finished).2
    rw [sending] at upstream
    cases upstream
  · intro j limit
    refine (live.heads j limit).trans ?_
    obtain rfl | same := eq_or_ne j (k + 1)
    · rw [update_self]
    · rw [update_of_ne same]

theorem StageShape.grow (shape : StageShape last k proc) (parent : k < last) :
    StageShape (last + 1) k proc := by
  obtain ⟨pc, fds, child⟩ := proc
  cases pc <;> simp only [StageShape] at shape ⊢ <;> grind

section Stage

variable (live : Live numeros last world) (bound : k ≤ last)
include live bound

theorem Live.exec_readFirst (same : world.procs (k + 1) = ⟨.readFirst pipeX, fds, child⟩)
    (stepped : exec world (k + 1) ⟨.readFirst pipeX, fds, child⟩ ok = some next) : Live numeros last next := by
  have shape := live.stage k bound
  rw [same] at shape
  obtain ⟨rfl, rfl, rfl⟩ := shape
  have untouched : (world.pipes k).taken = [] := live.unread k bound (same ▸ rfl)
  have length := live.length
  rw [same] at length
  simp only [exec, Option.map_eq_some_iff] at stepped
  obtain ⟨result, got, rfl⟩ := stepped
  obtain ⟨numero, rest, queue, rfl⟩ | ⟨empty, closed, rfl⟩ := read_cases (by simp) got
  · refine live.stage_takes bound same queue ⟨rfl, rfl, rfl⟩ rfl ?_ ?_ rfl rfl rfl ?_ rfl rfl
    · simp [untouched, survivors, goto, Pc.pending]
    · simp [untouched, goto, Pc.primo?]
    · intro _
      simp only [Pc.printed] at length
      simp [length]
  · refine live.stage_silent bound same (.inr ⟨rfl, rfl⟩) rfl (by simp [goto, Pc.primo?])
      (fun _ => rfl) (fun _ => .inr ⟨empty, live.sealed_of_no_writer bound closed⟩) ?_ rfl rfl
    exact fun _ => rfl

theorem Live.exec_readRest (same : world.procs (k + 1) = ⟨.readRest pipeX primo hijo, fds, child⟩)
    (stepped : exec world (k + 1) ⟨.readRest pipeX primo hijo, fds, child⟩ ok = some next) :
    Live numeros last next := by
  have shape := live.stage k bound
  rw [same] at shape
  obtain ⟨parent, rfl, rfl, rfl⟩ := shape
  have first : (world.pipes k).taken.head? = some primo := live.primo k bound primo (same ▸ rfl)
  obtain ⟨others, taken⟩ : ∃ others, (world.pipes k).taken = primo :: others := by
    cases list : (world.pipes k).taken with
    | nil => simp [list] at first
    | cons head others =>
      simp only [list, List.head?_cons, Option.some.injEq] at first
      exact ⟨others, by rw [first]⟩
  simp only [exec, Option.map_eq_some_iff] at stepped
  obtain ⟨result, got, rfl⟩ := stepped
  obtain ⟨numero, rest, queue, rfl⟩ | ⟨empty, closed, rfl⟩ := read_cases (by simp) got
  · refine live.stage_takes bound same queue ⟨parent, rfl, rfl, rfl⟩ rfl ?_ ?_ rfl rfl rfl ?_
      rfl rfl
    · rw [taken, survivors_append_singleton]
      rfl
    · simp [taken, goto, Pc.primo?]
    · simp [taken]
  refine live.stage_silent bound same ⟨parent, rfl, rfl, rfl⟩ rfl (by simp [goto, Pc.primo?])
    (by simp [goto, Pc.unread])
    (fun _ => .inr ⟨empty, live.sealed_of_no_writer bound closed⟩) ?_ rfl rfl
  simp [Pc.sealed]

theorem Live.exec_filter (same : world.procs (k + 1) = ⟨.filter pipeX primo hijo numero, fds, child⟩)
    (stepped : exec world (k + 1) ⟨.filter pipeX primo hijo numero, fds, child⟩ ok = some next) :
    Live numeros last next := by
  have shape := live.stage k bound
  rw [same] at shape
  obtain ⟨parent, rfl, rfl, rfl⟩ := shape
  have reader := live.reader_of_not_sealed (show k + 1 ≤ last from parent) (same ▸ rfl)
  simp only [exec] at stepped
  split at stepped
  · rename_i passes
    obtain ⟨pipes, put, rfl⟩ := Option.map_eq_some_iff.mp stepped
    obtain rfl := write_cases (by simp) reader put
    refine live.stage_puts parent same ⟨parent, rfl, rfl, rfl⟩ ?_ (fun _ found => found) rfl rfl
      rfl rfl rfl
    simp [Pc.pending, goto, passes]
  rename_i divisible
  cases stepped
  refine live.stage_silent bound same ⟨parent, rfl, rfl, rfl⟩ ?_ (fun _ found => found)
    (fun untouched => untouched) (fun finished => .inl finished) (fun closed => closed) rfl rfl
  simp only [Pc.pending, goto, if_neg divisible]

theorem Live.exec_print (same : world.procs (k + 1) = ⟨.print pipeX primo, fds, child⟩)
    (stepped : exec world (k + 1) ⟨.print pipeX primo, fds, child⟩ ok = some next) : Live numeros last next := by
  have shape := live.stage k bound
  rw [same] at shape
  obtain ⟨rfl, rfl, rfl⟩ := shape
  have first : (world.pipes k).taken.head? = some primo := live.primo k bound primo (same ▸ rfl)
  have flow := live.flow k bound
  have length := live.length
  rw [same] at flow length
  simp only [Pc.printed, Bool.toNat_false, add_zero] at length
  simp only [exec] at stepped
  cases stepped
  refine live.stage_moved bound ⟨rfl, rfl, rfl, ⟨rfl, rfl, rfl⟩, fun _ _ _ => rfl, rfl, rfl,
    live.npipes_kept same rfl, live.blank, flow, ?_, ?_, ?_, ?_, ?_, ?_⟩
  all_goals dsimp only [World.set]
  · rintro value found
    rw [first]
    exact found
  · rintro ⟨⟩
  · rintro ⟨⟩
  · intro beyond
    omega
  · rw [length_append, length, update_self]
    rfl
  · intro j limit
    rw [length_append, length_singleton, length] at limit
    by_cases here : j = k
    · rw [here, first, List.getElem?_append_right (by omega), length, Nat.sub_self]
      rfl
    · rw [List.getElem?_append_left (by omega)]
      exact live.heads j (by omega)

theorem Live.exec_pipe (same : world.procs (k + 1) = ⟨.pipe pipeX primo, fds, child⟩)
    (stepped : exec world (k + 1) ⟨.pipe pipeX primo, fds, child⟩ true = some next) : Live numeros last next := by
  have shape := live.stage k bound
  rw [same] at shape
  obtain ⟨rfl, rfl, rfl⟩ := shape
  have flow := live.flow k bound
  have count := live.npipes
  rw [same] at flow count
  simp only [Pc.forking, Bool.toNat_false, add_zero] at count
  have unchanged : update world.pipes world.npipes ⟨[], []⟩ = world.pipes := by
    rw [← live.blank world.npipes (by omega), update_eq_self]
  simp only [exec, if_true, Option.some.injEq, unchanged] at stepped
  subst next
  have forks : StageShape k k ⟨.fork (some k) primo (some world.npipes),
      [.read k] ++ [.read world.npipes, .write world.npipes], child⟩ :=
    ⟨rfl, rfl, by rw [count], by rw [count]; rfl⟩
  refine live.stage_moved bound ⟨rfl, rfl, rfl, forks, fun _ _ _ => rfl, rfl, rfl,
    ?_, live.blank, flow, ?_, ?_, ?_, ?_, live.length_kept same rfl, live.heads⟩
  all_goals dsimp only [World.set]
  · rw [update_self, count]
    rfl
  · rintro value found
    exact live.primo k bound value (by rw [same]; exact found)
  · rintro ⟨⟩
  · rintro ⟨⟩
  · intro beyond
    omega

theorem Live.exec_fork (same : world.procs (k + 1) = ⟨.fork pipeX primo hijo, fds, child⟩)
    (stepped : exec world (k + 1) ⟨.fork pipeX primo hijo, fds, child⟩ true = some next) :
    Live numeros (last + 1) next := by
  have shape := live.stage k bound
  rw [same] at shape
  obtain ⟨rfl, rfl, rfl, rfl⟩ := shape
  have count := live.npipes
  have length := live.length
  have flow := live.flow k bound
  rw [same] at count length flow
  simp only [exec, if_true] at stepped
  cases stepped
  have procs : ∀ parent child : Proc, ∀ j, j ≤ k →
      update (update world.procs (k + 1) parent) world.nprocs child j =
        world.procs j := by
    intro parent child j below
    rw [update_of_ne (by rw [live.count]; omega), update_of_ne (by omega)]
  have parentProc : ∀ parent child : Proc,
      update (update world.procs (k + 1) parent) world.nprocs child (k + 1) =
        parent := by
    intro parent child
    rw [update_of_ne (by rw [live.count]; omega), update_self]
  have childProc : ∀ parent child : Proc,
      update (update world.procs (k + 1) parent) world.nprocs child (k + 2) =
        child := by
    intro parent child
    rw [live.count, update_self]
  refine ⟨?_, live.succeeded, ?_, ?_, ?_, ?_, ?_, ?_, ?_, ?_, ?_, ?_, live.heads⟩
  all_goals dsimp only [World.fork]
  · rw [live.count]
  · rw [procs _ _ 0 (by omega)]
    exact live.sender
  · intro j limit
    obtain below | rfl | rfl : j < k ∨ j = k ∨ j = k + 1 := by omega
    · rw [procs _ _ (j + 1) (by omega)]
      exact (live.stage j (by omega)).grow below
    · rw [parentProc]
      exact ⟨by omega, rfl, rfl, rfl⟩
    · rw [childProc]
      exact ⟨rfl, by omega, rfl, rfl, rfl⟩
  · rw [childProc, count]
    rfl
  · intro pipe beyond
    exact live.blank pipe (by omega)
  · rw [procs _ _ 0 (by omega)]
    exact live.sent
  · intro j limit
    obtain below | rfl | rfl : j < k ∨ j = k ∨ j = k + 1 := by omega
    · rw [procs _ _ (j + 1) (by omega)]
      exact live.flow j (by omega)
    · rw [parentProc]
      exact flow
    · rw [childProc, live.blank (k + 1) (by omega), live.blank (k + 2) (by omega)]
      rfl
  · intro j limit value found
    obtain below | rfl | rfl : j < k ∨ j = k ∨ j = k + 1 := by omega
    · rw [procs _ _ (j + 1) (by omega)] at found
      exact live.primo j (by omega) value found
    · rw [parentProc] at found
      exact live.primo j bound value (by rw [same]; exact found)
    · rw [childProc] at found
      cases found
  · intro j limit untouched
    obtain below | rfl | rfl : j < k ∨ j = k ∨ j = k + 1 := by omega
    · rw [procs _ _ (j + 1) (by omega)] at untouched
      refine live.unread j (by omega) ?_
      rw [← untouched]
      congr 1
      simp only [decide_eq_decide]
      omega
    · rw [parentProc] at untouched
      cases untouched
    · rw [live.blank (k + 1) (by omega)]
  · intro j limit finished
    obtain below | rfl | rfl : j < k ∨ j = k ∨ j = k + 1 := by omega
    · rw [procs _ _ (j + 1) (by omega)] at finished
      rw [procs _ _ j (by omega)]
      exact live.ended j (by omega) finished
    · rw [parentProc] at finished
      cases finished
    · rw [childProc] at finished
      cases finished
  · rw [childProc, length]
    rfl

end Stage

end Xv6.Primes

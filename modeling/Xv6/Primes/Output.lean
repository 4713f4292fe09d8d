import Xv6.Primes.Pipeline

/-!
What the chain of processes prints. Every step of a run in which no `pipe` or `fork`
has failed keeps `Live`; the first failure leads to `Quiet`, where nothing is printed
any more, and every step keeps `Quiet`.
-/

namespace Xv6.Primes

open Function Proc Option
open Xv6.Lib

def Pc.Quiet (dead : Nat) : Pc → Prop
  | .mainChildClose | .print _ _ | .pipe _ _ => False
  | .mainCloseRead _ | .mainWrite _ => dead ≠ 0
  | .readFirst pipeX => pipeX = none ∨ pipeX = some dead
  | .fork _ _ hijo => hijo = none
  | .childCloseX _ hijo | .childCloseWrite hijo => hijo = none ∨ hijo = some dead
  | .closeHijoRead _ _ hijo | .readRest _ _ hijo | .filter _ _ hijo _ => hijo ≠ some dead
  | .mainCloseWrite | .mainWait | .closeHijoWrite _ _ | .closeX _ | .wait | .exit | .exited => True

structure Quiet (dead : Nat) (world : World) : Prop where
  empty : (world.pipes dead).queue = []
  silent : ∀ pid < world.nprocs, (world.procs pid).pc.Quiet dead

variable {numeros : List Nat} {last k dead pid : Nat} {world next : World} {proc old : Proc}
  {pipes : Nat → Pipe} {ok : Bool}

theorem Quiet.set (quiet : Quiet dead world) {proc : Proc} (silent : proc.pc.Quiet dead)
    (empty : (pipes dead).queue = []) :
    Quiet dead { world.set pid proc with pipes := pipes } := by
  refine ⟨empty, fun other bound => ?_⟩
  dsimp only [World.set]
  by_cases same : other = pid
  · rw [same, update_self]
    exact silent
  · rw [update_of_ne same]
    exact quiet.silent other bound

theorem Quiet.read {result : Option Nat × (Nat → Pipe)} {fd : Fd} (quiet : Quiet dead world)
    (got : world.read proc fd = some result) :
    (result.2 dead).queue = [] ∧ (fd = none ∨ fd = some dead → result.1 = none) := by
  cases fd with
  | none =>
    cases got
    exact ⟨quiet.empty, fun _ => rfl⟩
  | some pipe =>
    by_cases held : End.read pipe ∈ proc.fds
    · obtain ⟨numero, rest, queue, rfl⟩ | ⟨_, _, rfl⟩ := read_cases held got
      · have different : dead ≠ pipe := by
          rintro rfl
          simp [quiet.empty] at queue
        constructor
        · dsimp only
          rw [update_of_ne different]
          exact quiet.empty
        · rintro (absent | same)
          · cases absent
          · exact absurd (Option.some.inj same).symm different
      · exact ⟨quiet.empty, fun _ => rfl⟩
    · simp only [World.read, if_neg held, Option.some.injEq] at got
      subst result
      exact ⟨quiet.empty, fun _ => rfl⟩

theorem Quiet.write {numero : Nat} {fd : Fd} (quiet : Quiet dead world) (alive : fd ≠ some dead)
    (put : world.write proc numero fd = some pipes) : (pipes dead).queue = [] := by
  cases fd with
  | none =>
    cases put
    exact quiet.empty
  | some pipe =>
    simp only [World.write] at put
    split at put
    · split at put
      · cases put
        rw [update_of_ne fun same => alive (by rw [same])]
        exact quiet.empty
      · cases put
    · cases put
      exact quiet.empty

theorem Quiet.fork (quiet : Quiet dead world) {parent child : Proc}
    (parentSilent : parent.pc.Quiet dead) (childSilent : child.pc.Quiet dead) :
    Quiet dead (world.fork pid parent child) := by
  refine ⟨quiet.empty, fun other bound => ?_⟩
  dsimp only [World.fork] at bound ⊢
  by_cases new : other = world.nprocs
  · rw [new, update_self]
    exact childSilent
  rw [update_of_ne new]
  by_cases same : other = pid
  · rw [same, update_self]
    exact parentSilent
  · rw [update_of_ne same]
    exact quiet.silent other (by omega)

structure StaysQuiet (dead : Nat) (world next : World) : Prop where
  quiet : Quiet dead next
  out : next.out = world.out
  failed : world.failed = true → next.failed = true

theorem Quiet.stays (quiet : Quiet dead world) (silent : proc.pc.Quiet dead) :
    StaysQuiet dead world (world.set pid proc) :=
  ⟨quiet.set silent quiet.empty, rfl, id⟩

theorem quiet_waitChild (quiet : Quiet dead world)
    (stepped : exec.waitChild world pid proc = some next) : StaysQuiet dead world next := by
  simp only [exec.waitChild] at stepped
  split at stepped
  · split at stepped
    · cases stepped
      exact quiet.stays trivial
    · cases stepped
  · cases stepped
    exact quiet.stays trivial

theorem quiet_exec (quiet : Quiet dead world) (silent : proc.pc.Quiet dead)
    (stepped : exec world pid proc ok = some next) : StaysQuiet dead world next := by
  obtain ⟨pc, fds, child⟩ := proc
  cases pc with
  | mainChildClose | print _ _ | pipe _ _ => exact silent.elim
  | exited => cases stepped
  | mainWait | wait => exact quiet_waitChild quiet stepped
  | mainWrite numeros =>
    cases numeros with
    | nil =>
      cases stepped
      exact quiet.stays trivial
    | cons numero numeros =>
      obtain ⟨pipes, put, rfl⟩ := map_eq_some_iff.mp stepped
      have empty := quiet.write (fun same => silent (Option.some.inj same).symm) put
      exact ⟨quiet.set silent empty, rfl, id⟩
  | readFirst pipeX =>
    obtain ⟨result, got, rfl⟩ := map_eq_some_iff.mp stepped
    obtain ⟨empty, nothing⟩ := quiet.read got
    rw [nothing silent]
    exact ⟨quiet.set trivial empty, rfl, id⟩
  | fork pipeX primo hijo =>
    obtain rfl : hijo = none := silent
    simp only [exec] at stepped
    split at stepped
    · cases stepped
      exact ⟨quiet.fork (by simp [Pc.Quiet]) (.inl rfl), rfl, id⟩
    cases stepped
    have absent : (Pc.childCloseX pipeX none).Quiet dead := .inl rfl
    have moved : StaysQuiet dead world (world.set pid ⟨.childCloseX pipeX none, fds, child⟩) :=
      quiet.stays absent
    exact ⟨⟨moved.quiet.empty, moved.quiet.silent⟩, rfl, fun _ => rfl⟩
  | readRest pipeX primo hijo =>
    obtain ⟨result, got, rfl⟩ := map_eq_some_iff.mp stepped
    obtain ⟨empty, _⟩ := quiet.read got
    refine ⟨quiet.set ?_ empty, rfl, id⟩
    cases result.1 with
    | none => trivial
    | some numero => exact silent
  | filter pipeX primo hijo numero =>
    simp only [exec] at stepped
    split at stepped
    · obtain ⟨pipes, put, rfl⟩ := map_eq_some_iff.mp stepped
      exact ⟨quiet.set silent (quiet.write silent put), rfl, id⟩
    · cases stepped
      exact quiet.stays silent
  | exit =>
    cases fds with
    | nil | cons _ _ =>
      cases stepped
      exact quiet.stays trivial
  | _ =>
    cases stepped
    exact quiet.stays silent

theorem StageShape.quiet (shape : StageShape last k proc) (parent : k < last) :
    proc.pc.Quiet (last + 1) := by
  obtain ⟨pc, fds, child⟩ := proc
  cases pc <;> simp only [StageShape, Pc.Quiet] at shape ⊢ <;> grind

theorem SenderShape.quiet (shape : SenderShape proc) : proc.pc.Quiet (last + 1) := by
  obtain ⟨pc, fds, child⟩ := proc
  cases pc <;> simp only [SenderShape, Pc.Quiet] at shape ⊢ <;> grind

theorem Live.quiet_of_failure (live : Live numeros last world) (silent : proc.pc.Quiet (last + 1)) :
    Quiet (last + 1) { world.set (last + 1) proc with failed := true } := by
  refine ⟨?_, fun pid bound => ?_⟩
  · exact congrArg Pipe.queue (live.blank (last + 1) (by omega))
  dsimp only [World.set] at bound ⊢
  rw [live.count] at bound
  by_cases here : pid = last + 1
  · rw [here, update_self]
    exact silent
  rw [update_of_ne here]
  cases pid with
  | zero => exact live.sender.quiet
  | succ k => exact (live.stage k (by omega)).quiet (by omega)

variable {child : Option Nat} {fds : List End}

theorem Live.exec_waitChild {pc : Pc} (live : Live numeros last world) (bound : k ≤ last)
    (same : world.procs (k + 1) = ⟨pc, fds, child⟩) (waiting : pc = .wait)
    (stepped : exec.waitChild world (k + 1) ⟨pc, fds, child⟩ = some next) :
    Live numeros last next := by
  subst waiting
  have shape := live.stage k bound
  rw [same] at shape
  obtain ⟨parent, rfl⟩ := shape
  have exits : Live numeros last (world.set (k + 1) ⟨.exit, [], child⟩) :=
    live.stage_silent bound same (.inl rfl) rfl (by simp [Pc.primo?])
      (by simp [Pc.unread, parent.ne]) (fun _ => .inl rfl) (fun _ => rfl) rfl rfl
  simp only [exec.waitChild] at stepped
  split at stepped
  · split at stepped
    · exact Option.some.inj stepped ▸ exits
    · cases stepped
  · exact Option.some.inj stepped ▸ exits

theorem Live.exec_exit (live : Live numeros last world)
    (bound : k ≤ last) (same : world.procs (k + 1) = ⟨.exit, fds, child⟩)
    (stepped : exec world (k + 1) ⟨.exit, fds, child⟩ ok = some next) : Live numeros last next := by
  have shape := live.stage k bound
  rw [same] at shape
  cases fds with
  | nil =>
    cases stepped
    exact live.stage_silent bound same (show StageShape last k ⟨.exited, [], child⟩ from rfl) rfl
      (fun _ found => found) (fun untouched => untouched) (fun _ => .inl rfl) (fun _ => rfl) rfl
      rfl
  | cons side fds =>
    cases stepped
    obtain none | ⟨rfl, only⟩ := shape
    · cases none
    · obtain ⟨rfl, rfl⟩ := List.cons.inj only
      exact live.stage_silent bound same (.inl rfl) rfl (fun _ found => found)
        (fun untouched => untouched) (fun _ => .inl rfl) (fun _ => rfl) rfl rfl

theorem Live.exec_stage (live : Live numeros last world) (bound : k ≤ last)
    (same : world.procs (k + 1) = proc) (stepped : exec world (k + 1) proc ok = some next) :
    (∃ last, Live numeros last next) ∨
      (Quiet (last + 1) next ∧ next.out = world.out ∧ next.failed = true) := by
  obtain ⟨pc, fds, child⟩ := proc
  have shape := live.stage k bound
  rw [same] at shape
  cases pc with
  | readFirst pipeX => exact .inl ⟨last, live.exec_readFirst bound same stepped⟩
  | readRest pipeX primo hijo => exact .inl ⟨last, live.exec_readRest bound same stepped⟩
  | filter pipeX primo hijo numero => exact .inl ⟨last, live.exec_filter bound same stepped⟩
  | print pipeX primo => exact .inl ⟨last, live.exec_print bound same stepped⟩
  | wait => exact .inl ⟨last, live.exec_waitChild bound same rfl stepped⟩
  | exit => exact .inl ⟨last, live.exec_exit bound same stepped⟩
  | exited => cases stepped
  | pipe pipeX primo =>
    cases ok with
    | true => exact .inl ⟨last, live.exec_pipe bound same stepped⟩
    | false =>
      obtain ⟨rfl, rfl, rfl⟩ := shape
      cases stepped
      have silent : (Pc.fork (some k) primo none).Quiet (k + 1) := rfl
      exact .inr ⟨live.quiet_of_failure silent, rfl, rfl⟩
  | fork pipeX primo hijo =>
    cases ok with
    | true => exact .inl ⟨last + 1, live.exec_fork bound same stepped⟩
    | false =>
      obtain ⟨rfl, rfl, rfl, rfl⟩ := shape
      cases stepped
      have silent : (Pc.childCloseX (some k) (some (k + 1))).Quiet (k + 1) := .inr rfl
      exact .inr ⟨live.quiet_of_failure silent, rfl, rfl⟩
  | mainChildClose =>
    obtain ⟨rfl, rfl, rfl⟩ := shape
    cases stepped
    exact .inl ⟨0, live.stage_silent bound same ⟨rfl, rfl, rfl⟩ rfl (fun _ found => found)
      (fun _ => rfl) (fun finished => .inl finished) (fun closed => closed) rfl rfl⟩
  | childCloseX pipeX hijo =>
    obtain ⟨rfl, positive, rfl, rfl, rfl⟩ := shape
    cases stepped
    refine .inl ⟨k, live.stage_silent bound same ⟨rfl, rfl, ?_⟩ rfl (fun _ found => found)
      (fun _ => rfl) (fun finished => .inl finished) (fun closed => closed) rfl rfl⟩
    simp [goto, closeRead]
  | childCloseWrite hijo =>
    obtain ⟨rfl, rfl, rfl⟩ := shape
    cases stepped
    refine .inl ⟨k, live.stage_silent bound same ⟨rfl, rfl, ?_⟩ rfl (fun _ found => found)
      (fun _ => rfl) (fun finished => .inl finished) (fun closed => closed) rfl rfl⟩
    simp [goto, closeWrite]
  | closeHijoRead pipeX primo hijo =>
    obtain ⟨parent, rfl, rfl, rfl⟩ := shape
    cases stepped
    refine .inl ⟨last, live.stage_silent bound same ⟨parent, rfl, rfl, ?_⟩ rfl
      (fun _ found => found) (fun untouched => untouched) (fun finished => .inl finished)
      (fun closed => closed) rfl rfl⟩
    simp [goto, closeRead]
  | closeHijoWrite pipeX hijo =>
    obtain ⟨parent, rfl, rfl, rfl⟩ := shape
    cases stepped
    refine .inl ⟨last, live.stage_silent bound same ⟨parent, rfl, ?_⟩ rfl (fun _ found => found)
      (fun untouched => untouched) (fun finished => .inl finished) (fun _ => rfl) rfl rfl⟩
    simp [goto, closeWrite]
  | closeX pipeX =>
    obtain ⟨parent, rfl, rfl⟩ := shape
    cases stepped
    refine .inl ⟨last, live.stage_silent bound same ⟨parent, ?_⟩ rfl (fun _ found => found)
      (fun untouched => untouched) (fun finished => .inl finished) (fun closed => closed) rfl rfl⟩
    simp [goto, closeRead]
  | _ => exact shape.elim

theorem Live.sender_silent (live : Live numeros last world) (same : world.procs 0 = old)
    (shape : SenderShape proc) (pending : proc.pc.pending = old.pc.pending)
    (closed : old.pc.sealed → proc.pc.sealed) : Live numeros last (world.set 0 proc) := by
  subst old
  have move : SenderMove numeros world proc world.pipes := by
    refine ⟨shape, fun _ _ => rfl, rfl, ?_, ?_⟩
    · rw [pending]
      exact live.sent
    · intro finished
      obtain ⟨empty, upstream⟩ := live.ended 0 (by omega) finished
      exact ⟨empty, closed upstream⟩
  exact live.sender_moved move

theorem Live.exec_sender_write {numero : Nat} {rest : List Nat} (live : Live numeros last world)
    (same : world.procs 0 = ⟨.mainWrite (numero :: rest), fds, child⟩)
    (stepped : exec world 0 ⟨.mainWrite (numero :: rest), fds, child⟩ ok = some next) :
    Live numeros last next := by
  have shape := live.sender
  have sent := live.sent
  have reader := live.reader_of_not_sealed (Nat.zero_le last) (same ▸ rfl)
  rw [same] at shape sent
  obtain rfl : fds = [.write 0] := shape
  obtain ⟨pipes, put, rfl⟩ := map_eq_some_iff.mp stepped
  obtain rfl := write_cases (by simp) reader put
  refine live.sender_moved ⟨rfl, fun pipe different => update_of_ne different _ _, ?_, ?_, ?_⟩
  · rw [update_self]
  · rw [update_self, ← sent]
    simp [Pipe.written, Pc.pending, goto]
  · intro finished
    have upstream := (live.ended 0 (by omega) finished).2
    rw [same] at upstream
    cases upstream

theorem Live.exec_sender (live : Live numeros last world) (same : world.procs 0 = proc)
    (stepped : exec world 0 proc ok = some next) : Live numeros last next := by
  obtain ⟨pc, fds, child⟩ := proc
  have shape := live.sender
  rw [same] at shape
  cases pc with
  | mainCloseRead rest =>
    obtain rfl : fds = [.read 0, .write 0] := shape
    cases stepped
    exact live.sender_silent same rfl rfl (fun closed => closed)
  | mainWrite rest =>
    cases rest with
    | nil =>
      cases stepped
      exact live.sender_silent same shape rfl (fun closed => closed)
    | cons numero rest => exact live.exec_sender_write same stepped
  | mainCloseWrite =>
    obtain rfl : fds = [.write 0] := shape
    cases stepped
    exact live.sender_silent same rfl rfl (fun _ => rfl)
  | mainWait =>
    have exits : Live numeros last (world.set 0 ⟨.exit, fds, child⟩) :=
      live.sender_silent same shape rfl (fun _ => rfl)
    simp only [exec, exec.waitChild] at stepped
    split at stepped
    · split at stepped
      · exact Option.some.inj stepped ▸ exits
      · cases stepped
    · exact Option.some.inj stepped ▸ exits
  | exit =>
    obtain rfl : fds = [] := shape
    cases stepped
    exact live.sender_silent same rfl rfl (fun _ => rfl)
  | exited => cases stepped
  | _ => exact shape.elim

def Inv (numeros : List Nat) (world : World) : Prop :=
  (∃ last, Live numeros last world) ∨
    ∃ dead, Quiet dead world ∧ world.out <+: sieve numeros ∧ world.failed = true

theorem Live.taken_prefix (live : Live numeros last world) (bound : k ≤ last) :
    (world.pipes k).written <+: survivors^[k] numeros := by
  induction k with
  | zero => exact ⟨_, live.sent⟩
  | succ k ih =>
    rw [iterate_succ_apply']
    have own : (world.pipes (k + 1)).written <+: survivors (world.pipes k).taken :=
      ⟨_, live.flow k (by omega)⟩
    have input : (world.pipes k).taken <+: survivors^[k] numeros :=
      (List.prefix_append _ _).trans (ih (by omega))
    exact own.trans (survivors_mono input)

theorem Live.out_heads (live : Live numeros last world) :
    ∀ k < world.out.length, world.out[k]? = (survivors^[k] numeros).head? := by
  intro k bound
  have length := live.length
  have printed := Bool.toNat_le (world.procs (last + 1)).pc.printed
  obtain ⟨rest, whole⟩ := live.taken_prefix (show k ≤ last by omega)
  have head := live.heads k bound
  rw [head, ← whole, Pipe.written]
  cases taken : (world.pipes k).taken with
  | nil =>
    rw [taken, List.head?_nil, List.getElem?_eq_none_iff] at head
    omega
  | cons primo taken => rfl

theorem Pc.pending_of_sealed {pc : Pc} (closed : pc.sealed = true) : pc.pending = [] := by
  cases pc <;> first | rfl | cases closed

theorem Live.taken_of_exited (live : Live numeros last world)
    (exited : ∀ k ≤ last, (world.procs (k + 1)).pc = .exited) (bound : k ≤ last) :
    (world.pipes k).taken = survivors^[k] numeros := by
  have drained : (world.pipes k).written = (world.pipes k).taken ∧
      (world.procs k).pc.pending = [] := by
    obtain ⟨empty, closed⟩ := live.ended k bound (by rw [exited k bound]; rfl)
    exact ⟨by rw [Pipe.written, empty, List.append_nil], Pc.pending_of_sealed closed⟩
  induction k with
  | zero =>
    have sent := live.sent
    rw [drained.1, drained.2, List.append_nil] at sent
    exact sent
  | succ k ih =>
    obtain ⟨empty, closed⟩ := live.ended k (by omega) (by rw [exited k (by omega)]; rfl)
    have before := ih (by omega)
      ⟨by rw [Pipe.written, empty, List.append_nil], Pc.pending_of_sealed closed⟩
    have flow := live.flow k (by omega)
    rw [drained.1, drained.2, List.append_nil] at flow
    rw [flow, before, iterate_succ_apply']

theorem Live.out_complete (live : Live numeros last world)
    (exited : ∀ k ≤ last, (world.procs (k + 1)).pc = .exited) : world.out = sieve numeros := by
  have final := exited last le_rfl
  have length := live.length
  rw [final] at length
  have exhausted : (world.pipes last).taken = [] :=
    live.unread last le_rfl (by rw [final]; simp [Pc.unread])
  refine eq_sieve live.out_heads ?_
  rw [length]
  exact (live.taken_of_exited exited le_rfl).symm.trans exhausted

theorem inv_step {label : Nat × Bool} (inv : Inv numeros world)
    (stepped : step world label = some next) : Inv numeros next := by
  obtain ⟨pid, ok⟩ := label
  obtain ⟨bound, stepped⟩ := ite_none_right_eq_some.mp stepped
  obtain ⟨last, live⟩ | ⟨dead, quiet, printed, failed⟩ := inv
  · cases pid with
    | zero => exact .inl ⟨last, live.exec_sender rfl stepped⟩
    | succ k =>
      rw [live.count] at bound
      obtain moved | ⟨quiet, out, failed⟩ := live.exec_stage (by omega) rfl stepped
      · exact .inl moved
      · exact .inr ⟨last + 1, quiet, out ▸ prefix_sieve live.out_heads, failed⟩
  · have stays := quiet_exec quiet (quiet.silent pid bound) stepped
    exact .inr ⟨dead, stays.quiet, stays.out ▸ printed, stays.failed failed⟩

/-- In every run the numbers printed so far begin the sieve list of the numbers sent; when
no call has failed and all stages are done they are the whole list; and from two to `n`
the list consists of the primes. -/
theorem primes_pipeline
    (reached : Reaches step (fun _ _ => True) (World.start numeros) world) :
    world.out <+: sieve numeros ∧
    (world.failed = false →
      (∀ pid, 0 < pid → pid < world.nprocs → (world.procs pid).pc = .exited) →
        world.out = sieve numeros) ∧
    ∀ n, 2 ≤ n → sieve (List.range' 2 (n - 1)) = (List.range (n + 1)).filter (Nat.Prime ·) := by
  have inv : Inv numeros world := by
    refine reached.invariant (Inv numeros) (.inl ⟨0, live_start numeros⟩) ?_
    intro state label next holds _ stepped
    exact inv_step holds stepped
  refine ⟨?_, ?_, fun n large => sieve_range large⟩
  · obtain ⟨last, live⟩ | ⟨dead, _, printed, _⟩ := inv
    · exact prefix_sieve live.out_heads
    · exact printed
  intro succeeded exited
  obtain ⟨last, live⟩ | ⟨dead, _, _, failed⟩ := inv
  · refine live.out_complete fun k bound => exited (k + 1) (by omega) ?_
    rw [live.count]
    omega
  · rw [succeeded] at failed
    cases failed

def wholeRun : List (Nat × Bool) :=
  (List.replicate 6 0 ++ List.replicate 13 1 ++ List.replicate 10 2 ++ List.replicate 5 3 ++
    List.replicate 2 2 ++ List.replicate 2 1).map fun pid => (pid, true)

theorem primes_pipeline_whole_run :
    ∃ world, Reaches step (fun _ _ => True) (World.start [2, 3, 4]) world ∧
      world.out = [2, 3] ∧ world.out = sieve [2, 3, 4] := by
  obtain ⟨world, reached, seen⟩ := reaches_seen (show
    (runLabels step (World.start [2, 3, 4]) wholeRun).map (fun world => (world.out, world.failed, world.nprocs,
        (world.procs 1).pc, (world.procs 2).pc, (world.procs 3).pc)) =
        some ([2, 3], false, 4, .exited, .exited, .exited) by decide +kernel)
  simp only [Prod.mk.injEq] at seen
  obtain ⟨out, succeeded, count, first, second, third⟩ := seen
  refine ⟨world, reached, out, (primes_pipeline reached).2.1 succeeded fun pid low high => ?_⟩
  rw [count] at high
  obtain rfl | rfl | rfl : pid = 1 ∨ pid = 2 ∨ pid = 3 := by omega
  · exact first
  · exact second
  · exact third

end Xv6.Primes

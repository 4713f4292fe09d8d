import Xv6.Pipe.Wakeup

/-!
When every read and write is of `k` bytes and `k` divides the ring size, the pipe
carries whole messages. Between two tenures of the lock the ring holds a multiple of
`k` bytes, so a call that moved one byte finds room, or data, for all of its bytes.
-/

namespace Xv6.Pipes

open Function List World
open Xv6.Lib Xv6.Procs

variable {pc : Pc} {k nproc pid : Nat} {world next : World} {op : Op} {call : Call}

/-- Nobody is killed, and every call asks for `k` bytes that can all be copied. -/
def exchanges (k : Nat) : Label → Bool
  | .pipewrite _ n addr | .piperead _ n addr =>
    decide (n = k) && (List.range k).all fun j => (addr j).isSome
  | .pipeclose _ _ | .exec _ => true
  | .kkill _ => false

def Call.payload (call : Call) (k : Nat) : List UInt8 :=
  (List.range k).map fun j => (call.user j).getD 0

structure Call.Sized (k : Nat) (call : Call) : Prop where
  n : call.n = k
  user : ∀ j < k, (call.user j).isSome = true
  within : call.moved.length ≤ k
  payload : call.op = .write → call.moved = call.payload call.moved.length

def Pc.Framed (k : Nat) (pipe : Pipe) : Pc → Prop
  | .acquire call | .sleep call | .sched call | .wakeFull call _ | .prepare call
  | .release call => call.Sized k ∧ call.moved = []
  | .loop call => call.Sized k ∧ call.fresh = call.moved.length ∧
      (call.op = .read → call.moved = [])
  | .copy call => call.Sized k ∧ call.op = .read ∧
      (call.moved = [] → pipe.empty = false ∨ pipe.writeopen = false)
  | .wake call _ | .unlock call => call.Sized k ∧ call.i = call.moved.length ∧
      (call.moved.length = k ∨
        call.op = .read ∧ call.moved = [] ∧ pipe.empty = true ∧ pipe.writeopen = false)
  | .idle | .closeAcquire _ | .closeWake _ _ | .closeUnlock => True

def Return.Whole (k : Nat) (record : Return) : Prop :=
  match record.call.op with
  | .write => record.value = k ∧ record.call.moved = record.call.payload k ∨
      record.value = -1 ∧ record.call.moved = []
  | .read => record.value = k ∧ record.call.moved.length = k ∨
      record.value = 0 ∧ record.call.moved = [] ∧ record.eof = true

/-- The messages of the calls that returned a positive count, in the order of returning. -/
def messages (op : Op) (returns : List Return) : List (List UInt8) :=
  (returns.filter fun record => decide (record.call.op = op) && decide (0 < record.value)).map
    fun record => record.call.moved

def Pc.begun (op : Op) : Pc → List UInt8
  | .loop call | .copy call | .wake call _ | .unlock call =>
    if call.op = op then call.moved else []
  | _ => []

def World.begun (world : World) (op : Op) : List UInt8 :=
  match world.lock with
  | some holder => (world.pcs holder).begun op
  | none => []

structure Carried (k : Nat) (world : World) : Prop where
  spared : ∀ pid, (world.procs pid).killed = false
  calls : ∀ pid, (world.pcs pid).Framed k world.pipe
  whole : ∀ record ∈ world.returns, record.Whole k
  accepted : world.accepted = (messages .write world.returns).flatten ++ world.begun .write
  delivered : world.delivered = (messages .read world.returns).flatten ++ world.begun .read
  inOrder : messages .read world.returns <+: messages .write world.returns

structure Framed (k nproc : Nat) (world : World) : Prop where
  fifo : Fifo world
  counted : Counted world
  justified : Justified nproc world
  carried : Carried k world

theorem Pc.framed_of_not_holds {pipe other : Pipe} (outside : pc.holds = false) (framed : pc.Framed k pipe) :
    pc.Framed k other := by
  cases pc <;> simp_all [Pc.holds, Pc.Framed]

theorem World.begun_of_holds (justified : Justified nproc world) (held : (world.pcs pid).holds = true) (op : Op) :
    world.begun op = (world.pcs pid).begun op := by
  simp [World.begun, (justified.locked.owner pid).mp held]

theorem messages_lengths {returns : List Return} (whole : ∀ record ∈ returns, record.Whole k) (op : Op) :
    ∀ message ∈ messages op returns, message.length = k := by
  intro message member
  simp only [messages, mem_map, mem_filter, Bool.and_eq_true, decide_eq_true_eq] at member
  obtain ⟨record, ⟨listed, sameOp, counted⟩, rfl⟩ := member
  have shape := whole record listed
  unfold Return.Whole at shape
  split at shape
  · rcases shape with ⟨-, payload⟩ | ⟨failed, -⟩
    · simp [payload, Call.payload]
    · omega
  · rcases shape with ⟨-, length⟩ | ⟨zero, -⟩
    · exact length
    · omega

theorem flatten_length {chunks : List (List UInt8)} (lengths : ∀ chunk ∈ chunks, chunk.length = k) :
    chunks.flatten.length = k * chunks.length := by
  induction chunks with
  | nil => simp
  | cons chunk rest ih =>
    have head := lengths chunk (by simp)
    have tail := ih fun other member => lengths other (by simp [member])
    simp only [flatten_cons, length_append, length_cons, head, tail, mul_add]
    omega

theorem prefix_of_flatten (positive : 0 < k) {left right : List (List UInt8)}
    (leftLengths : ∀ chunk ∈ left, chunk.length = k) (rightLengths : ∀ chunk ∈ right, chunk.length = k)
    (starts : left.flatten <+: right.flatten) : left <+: right := by
  induction left generalizing right with
  | nil => simp
  | cons chunk rest ih =>
    have head := leftLengths chunk (by simp)
    cases right with
    | nil =>
      have empty : chunk ++ rest.flatten = [] := by simpa using starts
      have none := congrArg List.length empty
      simp only [length_append, length_nil] at none
      omega
    | cons other others =>
      have otherHead := rightLengths other (by simp)
      obtain ⟨suffix, equal⟩ := starts
      simp only [flatten_cons, append_assoc] at equal
      obtain ⟨same, remainder⟩ := append_inj equal (head.trans otherHead.symm)
      subst same
      have tail := ih (fun chunk member => leftLengths chunk (by simp [member]))
        (fun chunk member => rightLengths chunk (by simp [member])) ⟨suffix, remainder⟩
      exact (prefix_cons_inj chunk).mpr tail

theorem begun_keep (pcs : next.pcs = update world.pcs pid pc) (lock : next.lock = world.lock)
    (same : pc.begun op = (world.pcs pid).begun op) : next.begun op = world.begun op := by
  unfold World.begun
  rw [lock, pcs]
  cases world.lock with
  | none => rfl
  | some holder =>
    by_cases here : holder = pid
    · subst holder
      simpa using same
    · simp [here]

theorem begun_take {pcs : Nat → Pc} (op : Op) (update : next.pcs = update pcs pid pc) (lock : next.lock = some pid) :
    next.begun op = pc.begun op := by
  simp [World.begun, lock, update]

theorem begun_free (op : Op) (lock : world.lock = none) : world.begun op = [] := by
  simp [World.begun, lock]

theorem framed_update (calls : ∀ other, (world.pcs other).Framed k world.pipe)
    (pcs : next.pcs = update world.pcs pid pc)
    (others : next.pipe = world.pipe ∨ ∀ other, other ≠ pid → (world.pcs other).holds = false)
    (here : pc.Framed k next.pipe) : ∀ other, (next.pcs other).Framed k next.pipe := by
  intro other
  rw [pcs]
  by_cases same : other = pid
  · subst other
    simpa using here
  rw [update_of_ne same]
  rcases others with pipe | outside
  · rw [pipe]
    exact calls other
  · exact Pc.framed_of_not_holds (outside other same) (calls other)

theorem Carried.quiet (carried : Carried k world) (spared : ∀ other, (next.procs other).killed = false)
    (pcs : next.pcs = update world.pcs pid pc) (here : pc.Framed k next.pipe)
    (others : next.pipe = world.pipe ∨ ∀ other, other ≠ pid → (world.pcs other).holds = false)
    (returns : next.returns = world.returns) (accepted : next.accepted = world.accepted)
    (delivered : next.delivered = world.delivered) (begun : ∀ op, next.begun op = world.begun op) : Carried k next where
  spared := spared
  calls := framed_update carried.calls pcs others here
  whole := returns ▸ carried.whole
  accepted := by rw [accepted, returns, begun, carried.accepted]
  delivered := by rw [delivered, returns, begun, carried.delivered]
  inOrder := returns ▸ carried.inOrder

theorem Carried.leaveEmpty {value : Int} (carried : Carried k world) (nothing : ∀ op, world.begun op = [])
    (unsuccessful : value ≤ 0)
    (whole : Return.Whole k { pid, call, value, eof := world.pipe.empty && !world.pipe.writeopen }) :
    Carried k (world.leave pid call value) := by
  have same : ∀ op, messages op (world.leave pid call value).returns =
      messages op world.returns := by
    intro op
    simp only [messages, leave, filter_append]
    rw [filter_cons_of_neg (by simp [unsuccessful])]
    simp
  have begun : ∀ op, (world.leave pid call value).begun op = [] := fun op => begun_free op rfl
  constructor
  · exact carried.spared
  · exact framed_update carried.calls rfl (.inl rfl) trivial
  · intro record member
    simp only [leave, mem_append, mem_singleton] at member
    rcases member with old | new
    · exact carried.whole record old
    · exact new ▸ whole
  · rw [same, begun, ← nothing .write]
    exact carried.accepted
  · rw [same, begun, ← nothing .read]
    exact carried.delivered
  · rw [same, same]
    exact carried.inOrder

theorem messages_leave {value : Int} (op : Op) (successful : 0 < value) :
    messages op (world.leave pid call value).returns =
      messages op world.returns ++ if call.op = op then [call.moved] else [] := by
  simp only [messages, leave, filter_append, map_append]
  congr 1
  by_cases same : call.op = op
  · simp [same, successful]
  · simp [same]

theorem Framed.leaveWhole (framed : Framed k nproc world) (positive : 0 < k) (place : world.pcs pid = .unlock call)
    (length : call.moved.length = k) (sized : call.Sized k) : Carried k (world.leave pid call k) := by
  have carried := framed.carried
  have held : (world.pcs pid).holds = true := by rw [place]; rfl
  have begun : ∀ op, world.begun op = if call.op = op then call.moved else [] := by
    intro op
    rw [begun_of_holds framed.justified held, place]
    rfl
  have successful : (0 : Int) < k := by omega
  have whole : Return.Whole k
      { pid, call, value := k, eof := world.pipe.empty && !world.pipe.writeopen } := by
    unfold Return.Whole
    cases kind : call.op with
    | write =>
      refine .inl ⟨rfl, ?_⟩
      have payload := sized.payload kind
      rwa [length] at payload
    | read => exact .inl ⟨rfl, length⟩
  have appended : ∀ op, (messages op (world.leave pid call k).returns).flatten ++
      (world.leave pid call k).begun op =
        (messages op world.returns).flatten ++ world.begun op := by
    intro op
    rw [messages_leave op successful, begun, begun_free op rfl]
    by_cases same : call.op = op
    · simp [same]
    · simp [same]
  have wholes : ∀ record ∈ (world.leave pid call k).returns, record.Whole k := by
    intro record member
    simp only [leave, mem_append, mem_singleton] at member
    rcases member with old | new
    · exact carried.whole record old
    · exact new ▸ whole
  refine ⟨carried.spared, framed_update carried.calls rfl (.inl rfl) trivial, wholes,
    carried.accepted.trans (appended .write).symm,
    carried.delivered.trans (appended .read).symm, ?_⟩
  cases kind : call.op with
  | write =>
    rw [messages_leave .read successful, messages_leave .write successful]
    simpa [kind] using carried.inOrder.trans (prefix_append _ _)
  | read =>
    -- no write is under way while this reader holds the lock
    have stream := framed.fifo.stream
    rw [carried.accepted, carried.delivered, begun, begun, kind] at stream
    simp only [↓reduceIte, reduceCtorEq, append_nil] at stream
    refine prefix_of_flatten positive (messages_lengths wholes .read)
      (messages_lengths wholes .write) ?_
    rw [messages_leave .read successful, messages_leave .write successful, kind]
    simp only [↓reduceIte, reduceCtorEq, append_nil, flatten_append,
      flatten_singleton, ← stream]
    exact prefix_append _ _

theorem Framed.lengths (framed : Framed k nproc world) :
    k * (messages .read world.returns).length + (world.begun .read).length +
        Ring.count world.pipe.nread world.pipe.nwrite =
      k * (messages .write world.returns).length + (world.begun .write).length := by
  have whole := framed.carried.whole
  have stream := congrArg List.length framed.fifo.stream
  rw [framed.carried.accepted, framed.carried.delivered] at stream
  simpa [-length_flatten, flatten_length (messages_lengths whole _), add_assoc]
    using stream

theorem eq_zero_of_dvd_offset {left right offset total : Nat} (below : offset < k) (divides : k ∣ total)
    (sum : k * left + total = k * right + offset) : offset = 0 := by
  obtain ⟨quotient, rfl⟩ := divides
  have divides : k ∣ offset := by
    refine (Nat.dvd_add_right (Dvd.intro right rfl)).mp ?_
    exact ⟨left + quotient, by rw [← sum, mul_add]⟩
  exact Nat.eq_zero_of_dvd_of_lt divides below

theorem Framed.full_first (framed : Framed k nproc world) (divides : k ∣ pipesize) (place : world.pcs pid = .loop call)
    (writing : call.op = .write) (more : call.i < call.n) (full : world.pipe.full = true) : call.moved = [] := by
  have held : (world.pcs pid).holds = true := by rw [place]; rfl
  have calls := framed.carried.calls pid
  have counted := framed.counted.calls pid
  have lengths := framed.lengths
  rw [place] at calls counted
  rw [begun_of_holds framed.justified held, begun_of_holds framed.justified held,
    place, (Pipe.full_iff _).mp full] at lengths
  simp only [Pc.begun, writing, ↓reduceIte, reduceCtorEq, length_nil, add_zero] at lengths
  have size := calls.1.n
  have index : call.i = call.moved.length := counted
  exact length_eq_zero_iff.mp (eq_zero_of_dvd_offset (by omega) divides lengths)

theorem Framed.empty_first (framed : Framed k nproc world) (place : world.pcs pid = .copy call) (more : call.i < call.n)
    (empty : world.pipe.empty = true) : call.moved = [] := by
  have held : (world.pcs pid).holds = true := by rw [place]; rfl
  have calls := framed.carried.calls pid
  have counted := framed.counted.calls pid
  have lengths := framed.lengths
  rw [place] at calls counted
  rw [begun_of_holds framed.justified held, begun_of_holds framed.justified held,
    place, (Pipe.empty_iff _).mp empty] at lengths
  simp only [Pc.begun, calls.2.1, ↓reduceIte, reduceCtorEq, length_nil,
    add_zero] at lengths
  have size := calls.1.n
  have index : call.i = call.moved.length := counted
  have sum : k * (messages .write world.returns).length + 0 =
      k * (messages .read world.returns).length + call.moved.length := by omega
  exact length_eq_zero_iff.mp (eq_zero_of_dvd_offset (by omega) (Nat.dvd_zero k) sum)

theorem Call.Sized.move {ch : UInt8} (sized : call.Sized k) (counted : call.i = call.moved.length)
    (more : call.i < call.n) (next : call.op = .write → call.user call.i.toNat = some ch) : (call.move ch).Sized k := by
  have size := sized.n
  have index : call.i.toNat = call.moved.length := by omega
  refine ⟨size, sized.user, ?_, fun writing => ?_⟩
  · simp only [Call.move, length_append, length_singleton]
    omega
  have before := sized.payload writing
  have found := next writing
  rw [index] at found
  simp only [Call.move, length_append, length_singleton]
  rw [before]
  simp [Call.payload, range_succ, found]

theorem spared_visit (spared : ∀ other, (world.procs other).killed = false) (chan : Chan) (slot : Nat) :
    ∀ other, ((world.visit chan slot).procs other).killed = false := by
  intro other
  unfold World.visit setProc
  by_cases here : other = slot
  · subst other
    simpa using spared slot
  · simpa [here] using spared other

theorem spared_setProc (spared : ∀ other, (world.procs other).killed = false) {proc : Proc Chan}
    (same : proc.killed = (world.procs pid).killed) :
    ∀ other, ((world.setProc pid proc).procs other).killed = false := by
  intro other
  unfold setProc
  by_cases here : other = pid
  · subst other
    simpa [same] using spared pid
  · simpa [here] using spared other

theorem Carried.transfer {sent received : List UInt8} (carried : Carried k world)
    (others : ∀ other, other ≠ pid → (world.pcs other).holds = false) (pcs : next.pcs = update world.pcs pid pc)
    (procs : next.procs = world.procs) (here : pc.Framed k next.pipe) (returns : next.returns = world.returns)
    (accepted : next.accepted = world.accepted ++ sent) (delivered : next.delivered = world.delivered ++ received)
    (writing : next.begun .write = world.begun .write ++ sent)
    (reading : next.begun .read = world.begun .read ++ received) : Carried k next where
  spared := procs ▸ carried.spared
  calls := framed_update carried.calls pcs (.inr others) here
  whole := returns ▸ carried.whole
  accepted := by rw [accepted, returns, writing, carried.accepted, append_assoc]
  delivered := by rw [delivered, returns, reading, carried.delivered, append_assoc]
  inOrder := returns ▸ carried.inOrder

theorem Framed.carried_put {ch : UInt8} (framed : Framed k nproc world) (place : world.pcs pid = .loop call)
    (writing : call.op = .write) (more : call.i < call.n) (found : call.user call.i.toNat = some ch) :
    Carried k { world.goto pid (.loop (call.move ch)) with
      pipe := world.pipe.put ch, accepted := world.accepted ++ [ch] } := by
  have held : (world.pcs pid).holds = true := by rw [place]; rfl
  have lock := (framed.justified.locked.owner pid).mp held
  have here := framed.carried.calls pid
  have counted := framed.counted.calls pid
  have begun := begun_of_holds framed.justified held
  rw [place] at here counted begun
  obtain ⟨sized, fresh, -⟩ := here
  refine framed.carried.transfer (fun _ => framed.justified.locked.only held) rfl rfl
    ⟨sized.move counted more fun _ => found, ?_, ?_⟩ rfl rfl (append_nil _).symm ?_ ?_
  · simp [Call.move, fresh]
  · simp [Call.move, writing]
  · refine Eq.trans (begun_take .write rfl lock) ?_
    rw [begun]
    simp [Pc.begun, Call.move, writing]
  · refine Eq.trans (begun_take .read rfl lock) ?_
    rw [begun]
    simp [Pc.begun, Call.move, writing]

theorem Framed.carried_get (framed : Framed k nproc world) (place : world.pcs pid = .copy call) (more : call.i < call.n) :
    Carried k { world.goto pid (.copy (call.move world.pipe.front)) with
      pipe := world.pipe.advance, delivered := world.delivered ++ [world.pipe.front] } := by
  have held : (world.pcs pid).holds = true := by rw [place]; rfl
  have lock := (framed.justified.locked.owner pid).mp held
  have here := framed.carried.calls pid
  have counted := framed.counted.calls pid
  have begun := begun_of_holds framed.justified held
  rw [place] at here counted begun
  obtain ⟨sized, reading, -⟩ := here
  refine framed.carried.transfer (fun _ => framed.justified.locked.only held) rfl rfl
    ⟨sized.move counted more (by simp [reading]), reading, ?_⟩ rfl
    (append_nil _).symm rfl ?_ ?_
  · simp [Call.move]
  · refine Eq.trans (begun_take .write rfl lock) ?_
    rw [begun]
    simp [Pc.begun, Call.move, reading]
  · refine Eq.trans (begun_take .read rfl lock) ?_
    rw [begun]
    simp [Pc.begun, Call.move, reading]

theorem Call.Sized.not_fault (sized : call.Sized k) (counted : call.i = call.moved.length) (more : call.i < call.n)
    (fault : call.user call.i.toNat = none) : False := by
  have size := sized.n
  have present := sized.user call.i.toNat (by omega)
  simp [fault] at present

theorem Framed.action (framed : Framed k nproc world) (positive : 0 < k) (divides : k ∣ pipesize)
    (act : Action nproc world pid next) : Carried k next := by
  have carried := framed.carried
  have spared := carried.spared
  have locked := framed.justified.locked
  have here := carried.calls pid
  have counted := framed.counted.calls pid
  have shape := framed.justified.shape pid
  cases act with
  | acquire place free =>
    rw [place] at here
    obtain ⟨sized, nothing⟩ := here
    refine carried.quiet spared rfl ⟨⟨sized.n, sized.user, sized.within, sized.payload⟩, ?_, ?_⟩
      (.inl rfl) rfl rfl rfl fun op => ?_
    · simp [nothing]
    · exact fun _ => nothing
    · rw [begun_take op rfl rfl, begun_free op free]
      simp [Pc.begun, nothing]
  | @refuse call place writing more refused =>
    rw [place] at here shape
    have closed : world.pipe.readopen = false := by simpa [spared pid] using refused
    have early : ¬ 0 < call.fresh := fun fresh => by simp [(shape fresh).2] at closed
    have nothing : call.moved = [] := length_eq_zero_iff.mp (by rw [← here.2.1]; omega)
    refine carried.leaveEmpty (fun op => ?_) (by omega) ?_
    · rw [begun_of_holds framed.justified (by rw [place]; rfl), place]
      simp [Pc.begun, nothing]
    · simp [Return.Whole, writing, nothing]
  | blockFull place writing more _ full =>
    have nothing := framed.full_first divides place writing more full
    rw [place] at here
    exact carried.quiet spared rfl ⟨here.1, nothing⟩ (.inl rfl) rfl rfl rfl
      fun op => begun_keep rfl rfl (by simp [place, Pc.begun, nothing])
  | faultIn place _ more _ _ fault | faultOut place more _ fault =>
    rw [place] at here counted
    exact (here.1.not_fault counted more fault).elim
  | put place writing more _ _ found => exact framed.carried_put place writing more found
  | @written call place _ _ | @filled call place _ =>
    rw [place] at here counted
    have size := here.1.n
    have within := here.1.within
    have index : call.i = call.moved.length := counted
    exact carried.quiet spared rfl ⟨here.1, counted, .inl (by omega)⟩ (.inl rfl) rfl rfl rfl
      fun op => begun_keep rfl rfl (place ▸ rfl)
  | giveUp place _ _ _ killed => simp [spared pid] at killed
  | blockEmpty place reading =>
    rw [place] at here
    have nothing := here.2.2 reading
    exact carried.quiet spared rfl ⟨here.1, nothing⟩ (.inl rfl) rfl rfl rfl
      fun op => begun_keep rfl rfl (by simp [place, Pc.begun, nothing])
  | ready place reading available =>
    rw [place] at here
    exact carried.quiet spared rfl ⟨here.1, reading, fun _ => available⟩ (.inl rfl) rfl rfl rfl
      fun op => begun_keep rfl rfl (place ▸ rfl)
  | drained place more empty =>
    have nothing := framed.empty_first place more empty
    rw [place] at here counted
    have closed : world.pipe.writeopen = false := by simpa [empty] using here.2.2 nothing
    exact carried.quiet spared rfl
      ⟨here.1, counted, .inr ⟨here.2.1, nothing, empty, closed⟩⟩ (.inl rfl) rfl rfl rfl
      fun op => begun_keep rfl rfl (place ▸ rfl)
  | get place more => exact framed.carried_get place more
  | visitFull place | visit place | visitClose place =>
    rw [place] at here
    exact carried.quiet (spared_visit spared _ _) rfl here (.inl rfl) rfl rfl rfl
      fun op => begun_keep rfl rfl (place ▸ rfl)
  | wokenFull place | woken place | stayAwake place =>
    rw [place] at here
    exact carried.quiet spared rfl here (.inl rfl) rfl rfl rfl
      fun op => begun_keep rfl rfl (place ▸ rfl)
  | wokenClose place =>
    exact carried.quiet spared rfl trivial (.inl rfl) rfl rfl rfl
      fun op => begun_keep rfl rfl (place ▸ rfl)
  | prepare place | fallAsleep place | resume place =>
    rw [place] at here
    exact carried.quiet (spared_setProc spared rfl) rfl here (.inl rfl) rfl rfl rfl
      fun op => begun_keep rfl rfl (place ▸ rfl)
  | release place =>
    have held : (world.pcs pid).holds = true := by rw [place]; rfl
    rw [place] at here
    refine carried.quiet spared rfl here (.inl rfl) rfl rfl rfl fun op => ?_
    rw [begun_of_holds framed.justified held, place]
    exact begun_free op rfl
  | unlock place =>
    rw [place] at here
    obtain ⟨sized, index, length | ⟨reading, nothing, empty, closed⟩⟩ := here
    · rw [index, length]
      exact framed.leaveWhole positive place length sized
    refine carried.leaveEmpty (fun op => ?_) (by simp [index, nothing]) ?_
    · rw [begun_of_holds framed.justified (by rw [place]; rfl), place]
      simp [Pc.begun, nothing]
    · simp [Return.Whole, reading, index, nothing, empty, closed]
  | close place free =>
    refine carried.quiet spared rfl trivial (.inr fun other _ => locked.none_holds free other)
      rfl rfl rfl fun op => ?_
    exact Eq.trans (begun_take op rfl rfl) (begun_free op free).symm
  | closed place =>
    have held : (world.pcs pid).holds = true := by rw [place]; rfl
    refine carried.quiet spared rfl trivial (.inl rfl) rfl rfl rfl fun op => ?_
    rw [begun_of_holds framed.justified held, place]
    exact begun_free op rfl

theorem Framed.initial (start : world.Initial) (spared : ∀ pid, (world.procs pid).killed = false) :
    Framed k nproc world where
  fifo := Fifo.initial start
  counted := Counted.initial start
  justified := Justified.initial start
  carried := {
    spared := spared
    calls := fun pid => by rw [start.idle]; trivial
    whole := by simp [start.returns]
    accepted := by simp [start.accepted, start.returns, messages, World.begun, start.lock]
    delivered := by simp [start.delivered, start.returns, messages, World.begun, start.lock]
    inOrder := by simp [start.returns, messages] }

theorem Framed.announced (framed : Framed k nproc world) (label : Label) : losesWakeup world label = false := by
  unfold losesWakeup
  split
  · split
    · simp [framed.carried.spared]
    · rfl
  · rfl

theorem Call.Sized.start {n : Int} {user : Nat → Option UInt8} (size : n = k) (copied : ∀ j < k, (user j).isSome = true)
    : (Call.start op n user).Sized k where
  n := size
  user := copied
  within := Nat.zero_le k
  payload := fun _ => rfl

theorem Carried.enter (carried : Carried k world) (entered : world.enter nproc pid pc = some next)
    (framed : pc.Framed k world.pipe) (empty : ∀ op, pc.begun op = []) : Carried k next := by
  obtain ⟨idle, -, rfl⟩ := enter_cases entered
  exact carried.quiet carried.spared rfl framed (.inl rfl) rfl rfl rfl
    fun op => begun_keep rfl rfl (by rw [idle, empty]; rfl)

theorem Framed.step {label : Label} (framed : Framed k nproc world) (positive : 0 < k) (divides : k ∣ pipesize)
    (admitted : exchanges k label = true) (stepped : step nproc world label = some next) : Framed k nproc next := by
  have invariant := fifo_step ⟨framed.fifo, framed.counted⟩ stepped
  refine ⟨invariant.1, invariant.2, framed.justified.step (framed.announced label) stepped, ?_⟩
  cases label with
  | pipewrite _ _ _ | piperead _ _ _ =>
    simp only [exchanges, Bool.and_eq_true, decide_eq_true_eq, all_eq_true,
      mem_range] at admitted
    exact framed.carried.enter stepped ⟨.start admitted.1 admitted.2, rfl⟩ fun _ => rfl
  | pipeclose pid writable => exact framed.carried.enter stepped trivial fun _ => rfl
  | exec pid => exact framed.action positive divides (action_of_exec stepped)
  | kkill pid => simp [exchanges] at admitted

theorem mem_messages {returns : List Return} {message : List UInt8} :
    message ∈ messages op returns ↔
      ∃ record ∈ returns, record.call.op = op ∧ 0 < record.value ∧
        record.call.moved = message := by
  simp [messages, and_assoc]

/-- With messages of `k` bytes, `k` dividing `PIPESIZE`, each `piperead` returns the bytes
of exactly one `pipewrite`, or 0 at end of file; the messages received are the first of
the messages sent, in order; and each `pipewrite` sends its `k` bytes or none. -/
theorem message_integrity (k nproc : Nat) (divides : k ∣ pipesize) (initial world : World)
    (start : initial.Initial) (spared : ∀ pid, (initial.procs pid).killed = false)
    (reached : Reaches (step nproc) (fun _ label => exchanges k label = true) initial world) :
    (∀ record ∈ world.returns, record.call.op = .read →
      (record.value = k ∧ ∃ sent ∈ world.returns, sent.call.op = .write ∧ sent.value = k ∧
        record.call.moved = sent.call.payload k) ∨
      (record.value = 0 ∧ record.call.moved = [] ∧ record.eof = true)) ∧
    (∀ sent ∈ world.returns, sent.call.op = .write →
      (sent.value = k ∧ sent.call.moved = sent.call.payload k) ∨
      (sent.value = -1 ∧ sent.call.moved = [])) ∧
    messages .read world.returns <+: messages .write world.returns := by
  have positive : 0 < k := Nat.pos_of_dvd_of_pos divides (by decide)
  have framed := reached.invariant (Framed k nproc) (Framed.initial start spared)
    (fun _ _ _ holds admitted stepped => holds.step positive divides admitted stepped)
  have whole := framed.carried.whole
  have sends : ∀ sent ∈ world.returns, sent.call.op = .write →
      (sent.value = k ∧ sent.call.moved = sent.call.payload k) ∨
      (sent.value = -1 ∧ sent.call.moved = []) := by
    intro sent member writing
    simpa [Return.Whole, writing] using whole sent member
  refine ⟨?_, sends, framed.carried.inOrder⟩
  intro record member reading
  have shape := whole record member
  simp only [Return.Whole, reading] at shape
  rcases shape with ⟨value, -⟩ | eof
  · have received : record.call.moved ∈ messages .read world.returns :=
      mem_messages.mpr ⟨record, member, reading, by omega, rfl⟩
    obtain ⟨sent, listed, writing, counted, same⟩ :=
      mem_messages.mp (framed.carried.inOrder.subset received)
    rcases sends sent listed writing with ⟨sentAll, payload⟩ | ⟨failed, -⟩
    · exact .inl ⟨value, sent, listed, writing, sentAll, by rw [← payload, same]⟩
    · omega
  · exact .inr eof

def twoMessagesRun : List Label :=
  [Label.pipewrite 0 2 fun j => some (UInt8.ofNat j)] ++ List.replicate 8 (Label.exec 0) ++
    [Label.pipewrite 0 2 fun _ => some 9] ++ List.replicate 8 (Label.exec 0) ++
    [Label.pipeclose 0 true] ++ List.replicate 5 (Label.exec 0) ++
    (List.replicate 2 ([Label.piperead 1 2 fun _ => some 0] ++ List.replicate 9 (Label.exec 1))).flatten ++
    [Label.piperead 1 2 fun _ => some 0] ++ List.replicate 7 (Label.exec 1)

theorem message_integrity_two_messages :
    ∃ world, Reaches (step 2) (fun _ label => exchanges 2 label = true) World.fresh world ∧
      messages .read world.returns = [[0, 1], [9, 9]] ∧
      messages .read world.returns <+: messages .write world.returns := by
  obtain ⟨world, reached, received⟩ := reaches_within
    (show (runWithin (fun _ label => exchanges 2 label = true) (step 2) World.fresh twoMessagesRun).map (fun world => messages .read world.returns) =
        some [[0, 1], [9, 9]] by decide +kernel)
  exact ⟨world, reached, received,
    (message_integrity 2 2 (by decide) World.fresh world fresh_initial (fun _ => rfl)
      reached).2.2⟩

end Xv6.Pipes

import Xv6.Lib.Transition

/-!
The processes of `user/primes.c`: `main`, which sends numbers into a pipe, and the chain
that `hijos_recursivos` forks, each reading one pipe and writing the next.

A pipe carries whole four-byte messages in order and holds at most `PIPESIZE / 4` of them. A
read of an empty pipe blocks while some process holds the write end and reports end of file
otherwise; a write fails when no process holds the read end and blocks while the pipe is
full. A descriptor variable is the number of its pipe, or `none` when it names no open file,
as `pipe_hijo` does after a failed `pipe`.

`Pc` has one constructor for each system call a process can be about to make. A label names
the process that moves and whether its `pipe` or `fork` succeeds. `Pipe.taken` and
`World.failed` record the run.
-/

namespace Xv6.Primes

open Function

abbrev Fd := Option Nat

inductive End
  | read (pipe : Nat)
  | write (pipe : Nat)
deriving DecidableEq

structure Pipe where
  taken : List Nat
  queue : List Nat

def Pipe.written (pipe : Pipe) : List Nat := pipe.taken ++ pipe.queue

inductive Pc
  | mainCloseRead (numeros : List Nat)
  | mainWrite (numeros : List Nat)
  | mainCloseWrite
  | mainWait
  | mainChildClose
  | readFirst (pipeX : Fd)
  | print (pipeX : Fd) (primo : Nat)
  | pipe (pipeX : Fd) (primo : Nat)
  | fork (pipeX : Fd) (primo : Nat) (hijo : Fd)
  | closeHijoRead (pipeX : Fd) (primo : Nat) (hijo : Fd)
  | readRest (pipeX : Fd) (primo : Nat) (hijo : Fd)
  | filter (pipeX : Fd) (primo : Nat) (hijo : Fd) (numero : Nat)
  | closeHijoWrite (pipeX hijo : Fd)
  | closeX (pipeX : Fd)
  | wait
  | childCloseX (pipeX hijo : Fd)
  | childCloseWrite (hijo : Fd)
  | exit
  | exited
deriving DecidableEq

structure Proc where
  pc : Pc
  fds : List End
  child : Option Nat

structure World where
  procs : Nat → Proc
  nprocs : Nat
  pipes : Nat → Pipe
  npipes : Nat
  out : List Nat
  failed : Bool

def pipeMessages : Nat := 512 / 4

def World.holds (world : World) (side : End) : Bool :=
  (List.range world.nprocs).any fun pid => (world.procs pid).fds.contains side

/-- `none` while the read blocks; otherwise the message, or no message when `read` returns
zero or an error, and the pipes afterwards. -/
def World.read (world : World) (proc : Proc) : Fd → Option (Option Nat × (Nat → Pipe))
  | none => some (none, world.pipes)
  | some pipe =>
    if End.read pipe ∈ proc.fds then
      match (world.pipes pipe).queue with
      | numero :: rest => some (some numero,
          update world.pipes pipe ⟨(world.pipes pipe).taken ++ [numero], rest⟩)
      | [] => if world.holds (.write pipe) then none else some (none, world.pipes)
    else some (none, world.pipes)

def World.write (world : World) (proc : Proc) (numero : Nat) : Fd → Option (Nat → Pipe)
  | none => some world.pipes
  | some pipe =>
    if End.write pipe ∈ proc.fds ∧ world.holds (.read pipe) then
      if (world.pipes pipe).queue.length < pipeMessages then
        some (update world.pipes pipe
          ⟨(world.pipes pipe).taken, (world.pipes pipe).queue ++ [numero]⟩)
      else none
    else some world.pipes

def Proc.goto (proc : Proc) (pc : Pc) : Proc := { proc with pc := pc }

def Proc.closeRead (proc : Proc) (fd : Fd) : Proc :=
  { proc with fds := fd.elim proc.fds fun pipe => proc.fds.erase (.read pipe) }

def Proc.closeWrite (proc : Proc) (fd : Fd) : Proc :=
  { proc with fds := fd.elim proc.fds fun pipe => proc.fds.erase (.write pipe) }

def World.set (world : World) (pid : Nat) (proc : Proc) : World :=
  { world with procs := update world.procs pid proc }

def World.fork (world : World) (pid : Nat) (parent child : Proc) : World :=
  { world with
    procs := update (update world.procs pid parent) world.nprocs child
    nprocs := world.nprocs + 1 }

def exec (world : World) (pid : Nat) (proc : Proc) (succeeds : Bool) : Option World :=
  match proc.pc with
  | .mainCloseRead numeros =>
    some (world.set pid ((proc.closeRead (some 0)).goto (.mainWrite numeros)))
  | .mainWrite [] => some (world.set pid (proc.goto .mainCloseWrite))
  | .mainWrite (numero :: numeros) =>
    (world.write proc numero (some 0)).map fun pipes =>
      { world.set pid (proc.goto (.mainWrite numeros)) with pipes := pipes }
  | .mainCloseWrite => some (world.set pid ((proc.closeWrite (some 0)).goto .mainWait))
  | .mainWait => waitChild
  | .mainChildClose =>
    some (world.set pid ((proc.closeWrite (some 0)).goto (.readFirst (some 0))))
  | .readFirst pipeX =>
    (world.read proc pipeX).map fun result =>
      { world.set pid (proc.goto (match result.1 with
          | some primo => .print pipeX primo
          | none => .exit)) with pipes := result.2 }
  | .print pipeX primo =>
    some { world.set pid (proc.goto (.pipe pipeX primo)) with out := world.out ++ [primo] }
  | .pipe pipeX primo =>
    if succeeds then
      some { world.set pid { proc with
          pc := .fork pipeX primo (some world.npipes)
          fds := proc.fds ++ [.read world.npipes, .write world.npipes] } with
        pipes := update world.pipes world.npipes ⟨[], []⟩
        npipes := world.npipes + 1 }
    else some { world.set pid (proc.goto (.fork pipeX primo none)) with failed := true }
  | .fork pipeX primo hijo =>
    if succeeds then
      some (world.fork pid
        { proc with pc := .closeHijoRead pipeX primo hijo, child := some world.nprocs }
        ⟨.childCloseX pipeX hijo, proc.fds, none⟩)
    else some { world.set pid (proc.goto (.childCloseX pipeX hijo)) with failed := true }
  | .closeHijoRead pipeX primo hijo =>
    some (world.set pid ((proc.closeRead hijo).goto (.readRest pipeX primo hijo)))
  | .readRest pipeX primo hijo =>
    (world.read proc pipeX).map fun result =>
      { world.set pid (proc.goto (match result.1 with
          | some numero => .filter pipeX primo hijo numero
          | none => .closeHijoWrite pipeX hijo)) with pipes := result.2 }
  | .filter pipeX primo hijo numero =>
    if numero % primo ≠ 0 then
      (world.write proc numero hijo).map fun pipes =>
        { world.set pid (proc.goto (.readRest pipeX primo hijo)) with pipes := pipes }
    else some (world.set pid (proc.goto (.readRest pipeX primo hijo)))
  | .closeHijoWrite pipeX hijo =>
    some (world.set pid ((proc.closeWrite hijo).goto (.closeX pipeX)))
  | .closeX pipeX => some (world.set pid ((proc.closeRead pipeX).goto .wait))
  | .wait => waitChild
  | .childCloseX pipeX hijo =>
    some (world.set pid ((proc.closeRead pipeX).goto (.childCloseWrite hijo)))
  | .childCloseWrite hijo =>
    some (world.set pid ((proc.closeWrite hijo).goto (.readFirst hijo)))
  | .exit =>
    match proc.fds with
    | [] => some (world.set pid (proc.goto .exited))
    | _ :: fds => some (world.set pid { proc with fds := fds })
  | .exited => none
where
  waitChild : Option World :=
    match proc.child with
    | some child =>
      if (world.procs child).pc = .exited then some (world.set pid (proc.goto .exit)) else none
    | none => some (world.set pid (proc.goto .exit))

def step (world : World) (label : Nat × Bool) : Option World :=
  if label.1 < world.nprocs then exec world label.1 (world.procs label.1) label.2 else none

/-- Just after the `fork` of `main`: both processes have both ends of the first pipe. -/
def World.start (numeros : List Nat) : World where
  procs
    | 0 => ⟨.mainCloseRead numeros, [.read 0, .write 0], some 1⟩
    | 1 => ⟨.mainChildClose, [.read 0, .write 0], none⟩
    | _ => ⟨.exited, [], none⟩
  nprocs := 2
  pipes := fun _ => ⟨[], []⟩
  npipes := 1
  out := []
  failed := false

end Xv6.Primes

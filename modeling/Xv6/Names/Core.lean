import Xv6.Fs.Syscall
import Xv6.Lib.Interleave

/-!
The inode table, the inodes on the disk and the directories, as the processes of the system
share them. An action is what `kernel/fs.c` and `kernel/sysfile.c` do while they hold one
lock. The blocks of a file are not modelled: of a regular file there are `size` and `addrs`,
of a directory also its entries, `size / 16` of them. There is one disk, so `dev` is left
out.

The file table of `kernel/file.c` is shared too. Of a pipe there are the two flags for its
ends, and how often its page was allocated and freed. Of a process there are the open files,
the current directory and the steps from `allocproc` to `wait`.

The references that a call holds, the last entry it `wrote` into a directory and the counts
of a page are there for the statements about them and are never read.
-/

namespace Xv6.Names

open Function
open Lib.Interleave
open Fs (Name Dinode Panic tDir tFile tDevice addLink dropLink belowOne dot dotdot rootIno
  direntSize bsize maxFile ninode)

def nofile : Nat := 16

def nfile : Nat := 100

inductive Reason where
  | fs (panic : Panic)
  | filedup
  | fileclose
  | fileread
  | filewrite
  | initExiting
deriving DecidableEq

def Reason.message : Reason → String
  | fs panic => panic.message
  | filedup => "filedup"
  | fileclose => "fileclose"
  | fileread => "fileread"
  | filewrite => "filewrite"
  | initExiting => "init exiting"

structure Dirent where
  inum : Nat
  name : Name
deriving DecidableEq

structure Inode where
  inum : Nat
  ref : Nat
  valid : Bool
  lock : Option Nat
  d : Dinode

inductive FdType where
  | none
  | pipe
  | inode
  | device
deriving DecidableEq

/-- `struct file` without the offset and the device number. -/
structure File where
  type : FdType
  ref : Nat
  readable : Bool
  writable : Bool
  pipe : Nat
  ip : Nat
deriving DecidableEq

def File.node (f : File) : Option Nat :=
  match f.type with
  | .inode | .device => some f.ip
  | .pipe | .none => Option.none

structure Pipe where
  readopen : Bool
  writeopen : Bool
  used : Bool
  allocs : Nat
  frees : Nat
deriving DecidableEq

/-- The states of a process, as far as its files are concerned. -/
inductive Stage where
  | unused
  | used
  | live
  | zombie
deriving DecidableEq

/-- An entry written into directory `dir`, which was linked or not. -/
structure Insert where
  dir : Nat
  entry : Dirent
  linked : Bool
deriving DecidableEq

/-- What a process has of the file system: its current directory, its descriptors, and the
references that its call has taken, with the inode numbers they are for. -/
structure Own where
  stage : Stage
  cwd : Option Nat
  ofile : Nat → Option Nat
  held : List (Nat × Nat)

structure State where
  disk : Nat → Dinode
  dirs : Nat → List Dirent
  itable : Nat → Inode
  ftable : Nat → File
  pipes : Nat → Pipe
  procs : Nat → Own
  wrote : Nat → Option Insert
  panic : Option Reason

/-- The changes that callers make to an inode in memory. -/
inductive Change where
  | addLink
  | dropLink
  | noLinks
  | created (major minor : Nat)

def Change.apply : Change → Dinode → Dinode
  | .addLink => Fs.addLink
  | .dropLink => Fs.dropLink
  | .noLinks => fun d => { d with nlink := 0 }
  | .created major minor => fun d => { d with major := major % 2 ^ 16, minor := minor % 2 ^ 16, nlink := 1 }

inductive Act where
  | beginOp
  | iget (inum : Nat) (fresh : Bool)
  | idupCwd
  | takeCwd
  | setCwd (ip : Nat)
  | argfd (fd : Nat)
  | file (f : Nat)
  | filealloc
  | fdalloc (f : Nat)
  | clearFd (fd : Nat)
  | filedup (f : Nat)
  | fileclose (f : Nat)
  | openFile (f ip : Nat) (device readable writable : Bool)
  | pipealloc (rf wf : Nat)
  | pipeclose (pipe : Nat) (writable : Bool)
  | copyout
  | allocproc (nproc : Nat)
  | uvmcopy
  | freeproc (child : Nat)
  | forkFile (child fd : Nat)
  | forkCwd (child : Nat)
  | start (child : Nat)
  | exited
  | reap
  | acquiresleep (ip : Nat)
  | load (ip : Nat)
  | iunlock (ip : Nat)
  | node (ip : Nat)
  | inum (ip : Nat)
  | change (ip : Nat) (what : Change)
  | iupdate (ip : Nat)
  | lookup (dp : Nat) (name : Name) (insert : Bool)
  | space (dp : Nat)
  | isdirempty (dp : Nat)
  | writeEntry (dp index : Nat) (entry : Dirent)
  | writeData (ip : Nat)
  | mark (inum type : Nat)
  | lastRef (ip : Nat)
  | itrunc (ip : Nat) (final : Bool)
  | invalidate (ip : Nat)
  | drop (ip : Nat)
  | ifree (inum : Nat)
  | panic (reason : Reason)

abbrev Act.Reply : Act → Type
  | .iget _ _ | .idupCwd | .takeCwd | .inum _ | .space _ => Nat
  | .argfd _ | .filealloc | .fdalloc _ | .allocproc _ => Option Nat
  | .file _ => File
  | .fileclose _ => Option File
  | .pipealloc _ _ | .copyout | .uvmcopy | .isdirempty _ | .writeData _ | .mark _ _ => Bool
  | .node _ => Dinode
  | .lookup _ _ _ => Option (Nat × Nat)
  | .writeEntry _ _ _ => Option Bool
  | .lastRef _ => Option Nat
  | _ => Unit

/-- What the model leaves open: whether memory or a block was found, which page or slot of the
process table, and what a write makes of a file. -/
structure Choice where
  room : Bool
  slot : Nat
  addrs : Fin (Fs.ndirect + 1) → Nat
  size : Nat
  entries : List Dirent

def State.put (st : State) (ip : Nat) (node : Inode) : State :=
  { st with itable := update st.itable ip node }

def State.own (st : State) (pid : Nat) (own : Own) : State :=
  { st with procs := update st.procs pid own }

def State.setFile (st : State) (f : Nat) (file : File) : State :=
  { st with ftable := update st.ftable f file }

def State.setPipe (st : State) (p : Nat) (pipe : Pipe) : State :=
  { st with pipes := update st.pipes p pipe }

def State.hold (st : State) (pid ip inum : Nat) : State :=
  st.own pid { st.procs pid with held := (ip, inum) :: (st.procs pid).held }

def State.release (st : State) (pid ip inum : Nat) : State :=
  st.own pid { st.procs pid with held := (st.procs pid).held.erase (ip, inum) }

def State.halt {R : Type} (st : State) (reason : Reason) : Outcome State R :=
  .halted { st with panic := some reason }

def State.stop {R : Type} (st : State) (panic : Panic) : Outcome State R := st.halt (.fs panic)

section Actions

variable (pid : Nat) (st : State)

def iget (inum : Nat) : Outcome State Nat :=
  match (List.range ninode).find? fun ip => 0 < (st.itable ip).ref ∧ (st.itable ip).inum = inum with
  | some ip =>
    let node := st.itable ip
    .done ((st.put ip { node with ref := node.ref + 1 }).hold pid ip inum) ip
  | none =>
    match (List.range ninode).find? fun ip => (st.itable ip).ref = 0 with
    | some ip =>
      let node := st.itable ip
      .done ((st.put ip { node with inum := inum, ref := 1, valid := false }).hold pid ip inum) ip
    | none => st.stop .igetNoInodes

def idupCwd : Outcome State Nat :=
  match (st.procs pid).cwd with
  | some ip =>
    let node := st.itable ip
    .done ((st.put ip { node with ref := node.ref + 1 }).hold pid ip node.inum) ip
  | none => .blocked

/-- The reference of the current directory becomes one that the call has to put. -/
def takeCwd : Outcome State Nat :=
  let own := st.procs pid
  match own.cwd with
  | some ip => .done (st.own pid { own with cwd := none, held := (ip, (st.itable ip).inum) :: own.held }) ip
  | none => .blocked

def setCwd (ip : Nat) : Outcome State Unit :=
  let own := st.procs pid
  .done (st.own pid { own with cwd := some ip, held := own.held.erase (ip, (st.itable ip).inum) }) ()

def argfd (fd : Nat) : Outcome State (Option Nat) :=
  .done st (if fd < nofile then (st.procs pid).ofile fd else none)

def filealloc : Outcome State (Option Nat) :=
  match (List.range nfile).find? fun f => (st.ftable f).ref = 0 with
  | some f => .done (st.setFile f { st.ftable f with ref := 1 }) (some f)
  | none => .done st none

def fdalloc (f : Nat) : Outcome State (Option Nat) :=
  let own := st.procs pid
  match (List.range nofile).find? fun fd => own.ofile fd = none with
  | some fd => .done (st.own pid { own with ofile := update own.ofile fd (some f) }) (some fd)
  | none => .done st none

def clearFd (fd : Nat) : Outcome State Unit :=
  let own := st.procs pid
  .done (st.own pid { own with ofile := update own.ofile fd none }) ()

def filedup (f : Nat) : Outcome State Unit :=
  let file := st.ftable f
  if file.ref < 1 then st.halt .filedup
  else .done (st.setFile f { file with ref := file.ref + 1 }) ()

/-- `fileclose` up to `release`: the file as it was, when this was the last reference. Its
reference to an inode becomes one that the call has to put. -/
def unrefFile (f : Nat) : Outcome State (Option File) :=
  let file := st.ftable f
  if file.ref < 1 then st.halt .fileclose
  else if 0 < file.ref - 1 then .done (st.setFile f { file with ref := file.ref - 1 }) none
  else
    let closed := st.setFile f { file with ref := 0, type := .none }
    match file.node with
    | some ip => .done (closed.hold pid ip (st.itable ip).inum) (some file)
    | none => .done closed (some file)

def openFile (f ip : Nat) (device readable writable : Bool) : Outcome State Unit :=
  let file := { st.ftable f with
    type := if device then .device else .inode, ip := ip, readable := readable, writable := writable }
  .done ((st.setFile f file).release pid ip (st.itable ip).inum) ()

/-- `pipealloc` from its call of `kalloc` on. -/
def makePipe (rf wf : Nat) (choice : Choice) : Outcome State Bool :=
  if choice.room then
    let pipe := st.pipes choice.slot
    if pipe.used then .blocked
    else
      let reading := { st.ftable rf with type := .pipe, readable := true, writable := false, pipe := choice.slot }
      let writing := { st.ftable wf with type := .pipe, readable := false, writable := true, pipe := choice.slot }
      .done (((st.setFile rf reading).setFile wf writing).setPipe choice.slot
        { pipe with readopen := true, writeopen := true, used := true, allocs := pipe.allocs + 1 }) true
  else .done st false

def pipeclose (p : Nat) (writable : Bool) : Outcome State Unit :=
  let pipe := st.pipes p
  let pipe := if writable then { pipe with writeopen := false } else { pipe with readopen := false }
  if pipe.readopen = false ∧ pipe.writeopen = false then
    .done (st.setPipe p { pipe with used := false, frees := pipe.frees + 1 }) ()
  else .done (st.setPipe p pipe) ()

def allocproc (nproc : Nat) (choice : Choice) : Outcome State (Option Nat) :=
  if choice.room then
    if choice.slot < nproc ∧ (st.procs choice.slot).stage = .unused then
      .done (st.own choice.slot { st.procs choice.slot with stage := .used }) (some choice.slot)
    else .blocked
  else .done st none

def stage (child : Nat) (stage : Stage) : Outcome State Unit :=
  .done (st.own child { st.procs child with stage := stage }) ()

def forkFile (child fd : Nat) : Outcome State Unit :=
  match (st.procs pid).ofile fd with
  | some f =>
    let file := st.ftable f
    let own := st.procs child
    if file.ref < 1 then st.halt .filedup
    else .done ((st.setFile f { file with ref := file.ref + 1 }).own child
      { own with ofile := update own.ofile fd (some f) }) ()
  | none => .done st ()

def forkCwd (child : Nat) : Outcome State Unit :=
  match (st.procs pid).cwd with
  | some ip =>
    let node := st.itable ip
    .done ((st.put ip { node with ref := node.ref + 1 }).own child { st.procs child with cwd := some ip }) ()
  | none => .blocked

/-- `freeproc` on a child that `kwait` found. -/
def reap (choice : Choice) : Outcome State Unit :=
  if (st.procs choice.slot).stage = .zombie then
    .done (st.own choice.slot { st.procs choice.slot with stage := .unused }) ()
  else .done st ()

def acquiresleep (ip : Nat) : Outcome State Unit :=
  let node := st.itable ip
  if node.ref < 1 then st.stop .ilock
  else if node.lock = none then .done (st.put ip { node with lock := some pid }) ()
  else .blocked

def load (ip : Nat) : Outcome State Unit :=
  let node := st.itable ip
  if node.valid then .done st ()
  else if (st.disk node.inum).type = 0 then st.stop .ilockNoType
  else .done (st.put ip { node with valid := true, d := st.disk node.inum }) ()

def iunlock (ip : Nat) : Outcome State Unit :=
  let node := st.itable ip
  if node.lock ≠ some pid ∨ node.ref < 1 then st.stop .iunlock
  else .done (st.put ip { node with lock := none }) ()

def change (ip : Nat) (what : Change) : Outcome State Unit :=
  let node := st.itable ip
  .done (st.put ip { node with d := what.apply node.d }) ()

def iupdate (ip : Nat) : Outcome State Unit :=
  let node := st.itable ip
  .done { st with disk := update st.disk node.inum node.d } ()

def find (name : Name) (entries : List Dirent) : Option Nat :=
  entries.findIdx? fun de => de.inum ≠ 0 ∧ name = de.name

/-- The loop of `dirlookup`: the inode number of the entry and where it is. -/
def lookup (dp : Nat) (name : Name) : Outcome State (Option (Nat × Nat)) :=
  let node := st.itable dp
  if node.d.type ≠ tDir then st.stop .dirlookupNotDir
  else
    let entries := st.dirs node.inum
    .done st ((find name entries).bind fun index => entries[index]?.map fun de => (de.inum, index))

/-- The loop of `dirlink`: the first free entry, or the end. -/
def space (dp : Nat) : Outcome State Nat :=
  .done st ((st.dirs (st.itable dp).inum).findIdx fun de => de.inum = 0)

def isdirempty (dp : Nat) : Outcome State Bool :=
  .done st (((st.dirs (st.itable dp).inum).drop 2).all fun de => de.inum = 0)

/-- The bytes of an entry, up to the `iupdate` of `writei`. Nothing stands for -1. -/
def writeEntry (dp index : Nat) (entry : Dirent) (choice : Choice) : Outcome State (Option Bool) :=
  let node := st.itable dp
  let off := index * direntSize
  -- only the first entry of a block needs a block
  let grows := node.d.size ≤ off ∧ off % bsize = 0
  if off + direntSize > maxFile * bsize then .done st none
  else if grows ∧ choice.room = false then
    .done (st.put dp { node with d := { node.d with addrs := choice.addrs } }) (some false)
  else
    let entries := st.dirs node.inum
    let addrs := if grows then choice.addrs else node.d.addrs
    let d := { node.d with size := max node.d.size (off + direntSize), addrs := addrs }
    .done { st.put dp { node with d := d } with
      dirs := update st.dirs node.inum
        (if index < entries.length then entries.set index entry else entries ++ [entry])
      wrote := update st.wrote pid (some ⟨node.inum, entry, node.d.nlink ≠ 0⟩) } (some true)

/-- `writei` for an open file, up to its `iupdate`; whether all of it was written. -/
def writeData (ip : Nat) (choice : Choice) : Outcome State Bool :=
  let node := st.itable ip
  .done { st.put ip { node with d := { node.d with size := choice.size, addrs := choice.addrs } } with
    dirs := if node.d.type = tDir then update st.dirs node.inum choice.entries else st.dirs } choice.room

def mark (inum type : Nat) : Outcome State Bool :=
  if (st.disk inum).type = 0 then
    .done { st with
      disk := update st.disk inum ⟨type, 0, 0, 0, 0, fun _ => 0⟩
      dirs := update st.dirs inum [] } true
  else .done st false

/-- `iput` up to its first `release`: the number of an inode that has to be freed, else
the reference is gone. -/
def lastRef (ip : Nat) : Outcome State (Option Nat) :=
  let node := st.itable ip
  if node.ref = 1 ∧ node.valid = true ∧ node.d.nlink = 0 then
    if node.lock = none then .done (st.put ip { node with lock := some pid }) (some node.inum)
    else .blocked
  else .done ((st.put ip { node with ref := node.ref - 1 }).release pid ip node.inum) none

def itrunc (ip : Nat) : Outcome State Unit :=
  let node := st.itable ip
  .done { st.put ip { node with d := { node.d with size := 0, addrs := fun _ => 0 } } with
    dirs := update st.dirs node.inum [] } ()

def invalidate (ip : Nat) : Outcome State Unit :=
  .done (st.put ip { st.itable ip with valid := false }) ()

def drop (ip : Nat) : Outcome State Unit :=
  let node := st.itable ip
  .done ((st.put ip { node with ref := node.ref - 1 }).release pid ip node.inum) ()

def ifree (inum : Nat) : Outcome State Unit :=
  .done { st with disk := update st.disk inum { st.disk inum with type := 0 } } ()

end Actions

def run (pid : Nat) (action : Act) (choice : Choice) (st : State) : Outcome State action.Reply :=
  match action with
  | .beginOp => .done { st with wrote := update st.wrote pid none } ()
  | .iget inum _ => iget pid st inum
  | .idupCwd => idupCwd pid st
  | .takeCwd => takeCwd pid st
  | .setCwd ip => setCwd pid st ip
  | .argfd fd => argfd pid st fd
  | .file f => .done st (st.ftable f)
  | .filealloc => filealloc st
  | .fdalloc f => fdalloc pid st f
  | .clearFd fd => clearFd pid st fd
  | .filedup f => filedup st f
  | .fileclose f => unrefFile pid st f
  | .openFile f ip device readable writable => openFile pid st f ip device readable writable
  | .pipealloc rf wf => makePipe st rf wf choice
  | .pipeclose p writable => pipeclose st p writable
  | .copyout | .uvmcopy => .done st choice.room
  | .allocproc nproc => allocproc st nproc choice
  | .freeproc child => stage st child .unused
  | .forkFile child fd => forkFile pid st child fd
  | .forkCwd child => forkCwd pid st child
  | .start child => stage st child .live
  | .exited => stage st pid .zombie
  | .reap => reap st choice
  | .acquiresleep ip => acquiresleep pid st ip
  | .load ip => load st ip
  | .iunlock ip => iunlock pid st ip
  | .node ip => .done st (st.itable ip).d
  | .inum ip => .done st (st.itable ip).inum
  | .change ip what => change st ip what
  | .iupdate ip => iupdate st ip
  | .lookup dp name _ => lookup st dp name
  | .space dp => space st dp
  | .isdirempty dp => isdirempty st dp
  | .writeEntry dp index entry => writeEntry pid st dp index entry choice
  | .writeData ip => writeData st ip choice
  | .mark inum type => mark st inum type
  | .lastRef ip => lastRef pid st ip
  | .itrunc ip _ => itrunc st ip
  | .invalidate ip => invalidate st ip
  | .drop ip => drop pid st ip
  | .ifree inum => ifree st inum
  | .panic reason => st.halt reason

def exec (pid : Nat) (action : Act) (choice : Choice) (st : State) : Outcome State action.Reply :=
  if (st.procs pid).stage = .live then run pid action choice st else .blocked

end Xv6.Names

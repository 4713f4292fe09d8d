import Xv6.Names.Core

/-!
The functions of `kernel/fs.c` and the system calls of `kernel/sysfile.c` as programs of
actions. A path argument is the string that `argstr` fetched. `begin_op` and `end_op` only
wait for room in the log, so nothing is left of them but where a call starts.
-/

namespace Xv6.Names

open Lib.Interleave
open Fs (Name Dinode tDir tFile tDevice belowOne dot dotdot rootIno skipelem slash ndev)

abbrev P (α : Type) := Prog Act.Reply α

abbrev act (action : Act) : P action.Reply := perform action

def ilock (ip : Nat) : P Unit := do
  act (.acquiresleep ip)
  act (.load ip)

def iput (ip : Nat) : P Unit := do
  match ← act (.lastRef ip) with
  | none => return ()
  | some inum =>
    act (.itrunc ip true)
    act (.iupdate ip)
    act (.invalidate ip)
    act (.iunlock ip)
    act (.drop ip)
    act (.ifree inum)

def iunlockput (ip : Nat) : P Unit := do
  act (.iunlock ip)
  iput ip

def iallocFrom (ninodes type : Nat) : Nat → Nat → P (Option Nat)
  | 0, _ => return none
  | fuel + 1, inum =>
    if inum < ninodes then do
      if ← act (.mark inum type) then do
        let ip ← act (.iget inum true)
        return some ip
      else iallocFrom ninodes type fuel (inum + 1)
    else return none

def ialloc (ninodes type : Nat) : P (Option Nat) := iallocFrom ninodes type ninodes 1

/-- The slot of the inode found and the place of its entry. -/
def dirlookup (dp : Nat) (name : Name) (insert : Bool) : P (Option (Nat × Nat)) := do
  match ← act (.lookup dp name insert) with
  | none => return none
  | some (inum, index) =>
    let ip ← act (.iget inum false)
    return some (ip, index)

def writei (dp index : Nat) (entry : Dirent) : P Bool := do
  match ← act (.writeEntry dp index entry) with
  | none => return false
  | some done =>
    act (.iupdate dp)
    return done

/-- True for the return value 0, false for -1. -/
def dirlink (dp : Nat) (name : Name) (inum : Nat) : P Bool := do
  match ← dirlookup dp name true with
  | some (ip, _) =>
    iput ip
    return false
  | none =>
    let index ← act (.space dp)
    writei dp index ⟨inum % 2 ^ 16, name⟩

def namexFrom (parent : Bool) : Nat → Nat → List UInt8 → Name → P (Option (Nat × Name))
  | 0, _, _, _ => return none
  | fuel + 1, ip, path, name =>
    match skipelem path with
    | none =>
      if parent then do
        iput ip
        return none
      else return some (ip, name)
    | some (name, path) => do
        ilock ip
        let d ← act (.node ip)
        if d.type ≠ tDir then do
          iunlockput ip
          return none
        else if d.nlink = 0 then do
          iunlockput ip
          return none
        else if parent = true ∧ path = [] then do
          act (.iunlock ip)
          return some (ip, name)
        else do
          match ← dirlookup ip name false with
          | none =>
            iunlockput ip
            return none
          | some (next, _) =>
            iunlockput ip
            namexFrom parent fuel next path name

def namex (path : List UInt8) (parent : Bool) : P (Option (Nat × Name)) := do
  let ip ← if path.head? = some slash then act (.iget rootIno false) else act .idupCwd
  namexFrom parent (path.length + 1) ip path []

def namei (path : List UInt8) : P (Option Nat) := do
  return (← namex path false).map Prod.fst

def nameiparent (path : List UInt8) : P (Option (Nat × Name)) := namex path true

def linkUndo (ip : Nat) : P Int := do
  ilock ip
  act (.change ip .dropLink)
  act (.iupdate ip)
  iunlockput ip
  return -1

def sysLink (old new : List UInt8) : P Int := do
  act .beginOp
  match ← namei old with
  | none => return -1
  | some ip =>
    ilock ip
    let d ← act (.node ip)
    if d.type = tDir then do
      iunlockput ip
      return -1
    else do
      act (.change ip .addLink)
      act (.iupdate ip)
      act (.iunlock ip)
      match ← nameiparent new with
      | none => linkUndo ip
      | some (dp, name) =>
        ilock dp
        let inum ← act (.inum ip)
        if ← dirlink dp name inum then do
          iunlockput dp
          iput ip
          return 0
        else do
          iunlockput dp
          linkUndo ip

def unlinkEntry (dp ip index : Nat) (d : Dinode) : P Int := do
  if ← writei dp index ⟨0, []⟩ then do
    if d.type = tDir then do
      act (.change dp .dropLink)
      act (.iupdate dp)
      iunlockput dp
    else iunlockput dp
    act (.change ip .dropLink)
    act (.iupdate ip)
    iunlockput ip
    return 0
  else do
    act (.panic (.fs .unlinkWritei))
    return -1

def sysUnlink (path : List UInt8) : P Int := do
  act .beginOp
  match ← nameiparent path with
  | none => return -1
  | some (dp, name) =>
    ilock dp
    if name = dot ∨ name = dotdot then do
      iunlockput dp
      return -1
    else do
      match ← dirlookup dp name false with
      | none =>
        iunlockput dp
        return -1
      | some (ip, index) =>
        ilock ip
        let d ← act (.node ip)
        if belowOne d.nlink then do
          act (.panic (.fs .unlinkNlink))
          return -1
        else if d.type = tDir then do
          if ← act (.isdirempty ip) then unlinkEntry dp ip index d
          else do
            iunlockput ip
            iunlockput dp
            return -1
        else unlinkEntry dp ip index d

def createUndo (dp ip : Nat) : P (Option Nat) := do
  act (.change ip .noLinks)
  act (.iupdate ip)
  iunlockput ip
  iunlockput dp
  return none

def createDots (dp ip : Nat) : P Bool := do
  let self ← act (.inum ip)
  if ← dirlink ip dot self then do
    let above ← act (.inum dp)
    dirlink ip dotdot above
  else return false

/-- The part of `create` that makes the name; the value is the slot of the inode, locked. -/
def createLink (dp ip : Nat) (name : Name) (type : Nat) : P (Option Nat) := do
  let inum ← act (.inum ip)
  if ← dirlink dp name inum then do
    if type = tDir then do
      act (.change dp .addLink)
      act (.iupdate dp)
      iunlockput dp
      return some ip
    else do
      iunlockput dp
      return some ip
  else createUndo dp ip

def createNew (ninodes dp : Nat) (name : Name) (type major minor : Nat) : P (Option Nat) := do
  match ← ialloc ninodes type with
  | none =>
    iunlockput dp
    return none
  | some ip =>
    ilock ip
    act (.change ip (.created major minor))
    act (.iupdate ip)
    if type = tDir then do
      if ← createDots dp ip then createLink dp ip name type else createUndo dp ip
    else createLink dp ip name type

def create (ninodes : Nat) (path : List UInt8) (type major minor : Nat) : P (Option Nat) := do
  match ← nameiparent path with
  | none => return none
  | some (dp, name) =>
    ilock dp
    let parent ← act (.node dp)
    if parent.nlink = 0 then do
      iunlockput dp
      return none
    else do
      match ← dirlookup dp name false with
      | some (ip, _) =>
        iunlockput dp
        ilock ip
        let d ← act (.node ip)
        if type = tFile ∧ (d.type = tFile ∨ d.type = tDevice) then return some ip
        else do
          iunlockput ip
          return none
      | none => createNew ninodes dp name type major minor

def sysMake (ninodes : Nat) (path : List UInt8) (type major minor : Nat) : P Int := do
  act .beginOp
  match ← create ninodes path type major minor with
  | none => return -1
  | some ip =>
    iunlockput ip
    return 0

def sysMkdir (ninodes : Nat) (path : List UInt8) : P Int := sysMake ninodes path tDir 0 0

def sysMknod (ninodes : Nat) (path : List UInt8) (major minor : Nat) : P Int :=
  sysMake ninodes path tDevice major minor

/-- The flags of `kernel/fcntl.h`, with `omode` as the kernel tests it. -/
structure Omode where
  create : Bool
  wronly : Bool
  rdwr : Bool
  trunc : Bool
  rest : Bool
deriving DecidableEq

def Omode.rdonly (omode : Omode) : Bool :=
  !omode.create && !omode.wronly && !omode.rdwr && !omode.trunc && !omode.rest

def closeLast (ff : File) : P Unit :=
  match ff.type with
  | .pipe => act (.pipeclose ff.pipe ff.writable)
  | .inode | .device => iput ff.ip
  | .none => return ()

def fileclose (f : Nat) : P Unit := do
  match ← act (.fileclose f) with
  | none => return ()
  | some ff => closeLast ff

def openAlloc : P (Option (Nat × Nat)) := do
  match ← act .filealloc with
  | none => return none
  | some f =>
    match ← act (.fdalloc f) with
    | none =>
      fileclose f
      return none
    | some fd => return some (f, fd)

def openInode (ip : Nat) (omode : Omode) : P Int := do
  let d ← act (.node ip)
  -- a negative `major` is a large one here
  if d.type = tDevice ∧ ndev ≤ d.major then do
    iunlockput ip
    return -1
  else do
    match ← openAlloc with
    | none =>
      iunlockput ip
      return -1
    | some (f, fd) =>
      act (.openFile f ip (d.type = tDevice) (!omode.wronly) (omode.wronly || omode.rdwr))
      if omode.trunc = true ∧ d.type = tFile then do
        act (.itrunc ip false)
        act (.iupdate ip)
        act (.iunlock ip)
        return fd
      else do
        act (.iunlock ip)
        return fd

def sysOpen (ninodes : Nat) (path : List UInt8) (omode : Omode) : P Int := do
  act .beginOp
  if omode.create then do
    match ← create ninodes path tFile 0 0 with
    | none => return -1
    | some ip => openInode ip omode
  else do
    match ← namei path with
    | none => return -1
    | some ip =>
      ilock ip
      let d ← act (.node ip)
      if d.type = tDir ∧ omode.rdonly = false then do
        iunlockput ip
        return -1
      else openInode ip omode

def sysChdir (path : List UInt8) : P Int := do
  act .beginOp
  match ← namei path with
  | none => return -1
  | some ip =>
    ilock ip
    let d ← act (.node ip)
    if d.type ≠ tDir then do
      iunlockput ip
      return -1
    else do
      act (.iunlock ip)
      let cwd ← act .takeCwd
      iput cwd
      act (.setCwd ip)
      return 0

/-- `exec` as far as the file is concerned: it is found, locked, read and put. -/
def sysExec (path : List UInt8) : P Int := do
  act .beginOp
  match ← namei path with
  | none => return -1
  | some ip =>
    ilock ip
    iunlockput ip
    return 0

/-- `fileread`; what was read is left out, also of a pipe or a device. -/
def fileread (f : Nat) : P Int := do
  let file ← act (.file f)
  if file.readable = false then return -1
  else
    match file.type with
    | .pipe | .device => return 0
    | .inode => do
        ilock file.ip
        act (.iunlock file.ip)
        return 0
    | .none => do
        act (.panic .fileread)
        return -1

def filestat (f : Nat) : P Int := do
  let file ← act (.file f)
  match file.type with
  | .inode | .device => do
      ilock file.ip
      act (.iunlock file.ip)
      return 0
  | .pipe | .none => return -1

def filewriteLoop (ip : Nat) : Nat → P Int
  | 0 => return 0
  | turns + 1 => do
      ilock ip
      let whole ← act (.writeData ip)
      act (.iupdate ip)
      act (.iunlock ip)
      if whole then filewriteLoop ip turns else return -1

def filewrite (f turns : Nat) : P Int := do
  let file ← act (.file f)
  if file.writable = false then return -1
  else
    match file.type with
    | .pipe | .device => return 0
    | .inode => filewriteLoop file.ip turns
    | .none => do
        act (.panic .filewrite)
        return -1

def sysRead (fd : Nat) : P Int := do
  match ← act (.argfd fd) with
  | none => return -1
  | some f => fileread f

def sysFstat (fd : Nat) : P Int := do
  match ← act (.argfd fd) with
  | none => return -1
  | some f => filestat f

def sysWrite (fd turns : Nat) : P Int := do
  match ← act (.argfd fd) with
  | none => return -1
  | some f => filewrite f turns

def sysDup (fd : Nat) : P Int := do
  match ← act (.argfd fd) with
  | none => return -1
  | some f =>
    match ← act (.fdalloc f) with
    | none => return -1
    | some fd =>
      act (.filedup f)
      return fd

def sysClose (fd : Nat) : P Int := do
  match ← act (.argfd fd) with
  | none => return -1
  | some f =>
    act (.clearFd fd)
    fileclose f
    return 0

def pipealloc : P (Option (Nat × Nat)) := do
  match ← act .filealloc with
  | none => return none
  | some rf =>
    match ← act .filealloc with
    | none =>
      fileclose rf
      return none
    | some wf =>
      if ← act (.pipealloc rf wf) then return some (rf, wf)
      else do
        fileclose rf
        fileclose wf
        return none

def sysPipe : P Int := do
  match ← pipealloc with
  | none => return -1
  | some (rf, wf) =>
    match ← act (.fdalloc rf) with
    | none =>
      fileclose rf
      fileclose wf
      return -1
    | some fd0 =>
      match ← act (.fdalloc wf) with
      | none =>
        act (.clearFd fd0)
        fileclose rf
        fileclose wf
        return -1
      | some fd1 =>
        if ← act .copyout then return 0
        else do
          act (.clearFd fd0)
          act (.clearFd fd1)
          fileclose rf
          fileclose wf
          return -1

def forkFiles (child : Nat) : Nat → Nat → P Unit
  | 0, _ => return ()
  | fuel + 1, fd => do
      act (.forkFile child fd)
      forkFiles child fuel (fd + 1)

def kfork (nproc : Nat) : P Int := do
  match ← act (.allocproc nproc) with
  | none => return -1
  | some child =>
    if ← act .uvmcopy then do
      forkFiles child nofile 0
      act (.forkCwd child)
      act (.start child)
      return child
    else do
      act (.freeproc child)
      return -1

def closeFiles : Nat → Nat → P Unit
  | 0, _ => return ()
  | fuel + 1, fd => do
      match ← act (.argfd fd) with
      | none => closeFiles fuel (fd + 1)
      | some f =>
        fileclose f
        act (.clearFd fd)
        closeFiles fuel (fd + 1)

/-- `kexit`; the process that has no way on is the first one. -/
def kexit (first : Bool) : P Int := do
  if first then do
    act (.panic .initExiting)
    return -1
  else do
    closeFiles nofile 0
    let cwd ← act .takeCwd
    iput cwd
    act .exited
    return 0

def kwait : P Int := do
  act .reap
  return 0

inductive Call where
  | link (old new : List UInt8)
  | unlink (path : List UInt8)
  | mkdir (path : List UInt8)
  | mknod (path : List UInt8) (major minor : Nat)
  | open (path : List UInt8) (omode : Omode)
  | chdir (path : List UInt8)
  | exec (path : List UInt8)
  | read (fd : Nat)
  | fstat (fd : Nat)
  | write (fd turns : Nat)
  | dup (fd : Nat)
  | close (fd : Nat)
  | pipe
  | fork
  | exit
  | wait

/-- The sizes of a system. Inode numbers fit in a directory entry. -/
structure Config where
  ninodes : Nat
  nproc : Nat
  root : rootIno < ninodes
  small : ninodes ≤ 2 ^ 16
  some : 0 < nproc

/-- The system calls; `initproc` is process 0. -/
def Call.body (cfg : Config) (pid : Nat) : Call → P Int
  | .link old new => sysLink old new
  | .unlink path => sysUnlink path
  | .mkdir path => sysMkdir cfg.ninodes path
  | .mknod path major minor => sysMknod cfg.ninodes path major minor
  | .open path omode => sysOpen cfg.ninodes path omode
  | .chdir path => sysChdir path
  | .exec path => sysExec path
  | .read fd => sysRead fd
  | .fstat fd => sysFstat fd
  | .write fd turns => sysWrite fd turns
  | .dup fd => sysDup fd
  | .close fd => sysClose fd
  | .pipe => sysPipe
  | .fork => kfork cfg.nproc
  | .exit => kexit (pid = 0)
  | .wait => kwait

def machine (cfg : Config) : Machine State Act.Reply Choice Call Int where
  exec := exec
  stopped st := st.panic.isSome
  may st pid _ := pid < cfg.nproc ∧ (st.procs pid).stage = .live
  body := Call.body cfg

end Xv6.Names

import Xv6.Lib.Total
import Xv6.Names.Calls

/-!
Who has which reference. A reference to an inode is a current directory, an open file or one
that a call holds; a reference to a file is a descriptor or one that a call holds; an end of
a pipe is open in a file or about to be closed. `Inv` says that the counts and flags are
these numbers, and that whoever has an inode locked has a reference to it.

What a call in progress has is its `Share`. A descriptor may be `pending`, in `sys_dup` and
in `kexit`.
-/

namespace Xv6.Names

open Lib Lib.Interleave
open Fs (ninode)

structure Use where
  fd : Nat
  f : Nat
  node : Option Nat

structure Share where
  /-- references to files -/
  files : List Nat
  /-- files whose fields are not set yet -/
  fresh : List Nat
  /-- a descriptor that is not counted -/
  pending : Option (Nat × Nat)
  /-- ends of pipes that are to be closed -/
  ends : List (Nat × Bool)
  uses : List Use
  /-- the child of a `kfork`, and how many of its descriptors are set -/
  child : Option (Nat × Nat)
  /-- the current directory is put -/
  away : Bool
  /-- how many descriptors `kexit` has cleared -/
  closed : Nat

structure Share.Idle (share : Share) : Prop where
  files : share.files = []
  fresh : share.fresh = []
  pending : share.pending = none
  ends : share.ends = []
  child : share.child = none
  away : share.away = false

def points (pointer : Option Nat) (x : Nat) : Nat := if pointer = some x then 1 else 0

def Own.count (own : Own) (ip : Nat) : Nat := points own.cwd ip + own.held.countP fun r => r.1 = ip

def Own.slot (own : Own) (pending : Option (Nat × Nat)) (fd : Nat) : Option Nat :=
  if pending.map Prod.fst = some fd then none else own.ofile fd

def Own.slots (own : Own) (pending : Option (Nat × Nat)) (f : Nat) : Nat :=
  total nofile fun fd => points (own.slot pending fd) f

def Own.shares (own : Own) (share : Share) (f : Nat) : Nat :=
  own.slots share.pending f + share.files.count f

def File.isEnd (file : File) (p : Nat) (writable : Bool) : Nat :=
  if file.type = .pipe ∧ file.pipe = p ∧ file.writable = writable then 1 else 0

def Pipe.isOpen (pipe : Pipe) (writable : Bool) : Bool := if writable then pipe.writeopen else pipe.readopen

section Invariant

variable (cfg : Config) (itable : Nat → Inode) (ftable : Nat → File) (pipes : Nat → Pipe)
variable (procs : Nat → Own) (share : Nat → Share)

structure NodesOk : Prop where
  inside : ∀ ip, 0 < (itable ip).ref → ip < ninode
  unique : ∀ ip jp, 0 < (itable ip).ref → 0 < (itable jp).ref → (itable ip).inum = (itable jp).inum → ip = jp
  count : ∀ ip, (itable ip).ref =
    (total cfg.nproc fun q => (procs q).count ip) + total nfile fun f => points (ftable f).node ip
  held : ∀ q, ∀ r ∈ (procs q).held, (itable r.1).inum = r.2
  outside : ∀ q, cfg.nproc ≤ q → (procs q).held = []

structure FreshOk (file : File) (own : Own) (share : Share) (f : Nat) : Prop where
  ref : file.ref = 1
  type : file.type = .none
  mine : 0 < own.shares share f

structure FilesOk : Prop where
  inside : ∀ f, 0 < (ftable f).ref → f < nfile
  count : ∀ f, (ftable f).ref = total cfg.nproc fun q => (procs q).shares (share q) f
  closed : ∀ f, (ftable f).ref = 0 → (ftable f).type = .none
  fresh : ∀ q, ∀ f ∈ (share q).fresh, FreshOk (ftable f) (procs q) (share q) f
  distinct : ∀ q, (share q).fresh.Nodup

structure PipesOk : Prop where
  sides : ∀ f, (ftable f).type = .pipe → (ftable f).readable = !(ftable f).writable
  ends : ∀ p writable, ((pipes p).isOpen writable).toNat =
    (total nfile fun f => (ftable f).isEnd p writable) + total cfg.nproc fun q => (share q).ends.count (p, writable)
  used : ∀ p, (pipes p).used = ((pipes p).readopen || (pipes p).writeopen)
  freed : ∀ p, (pipes p).allocs = (pipes p).frees + (pipes p).used.toNat

structure ChildOk (own : Own) (c k : Nat) : Prop where
  range : c < cfg.nproc
  stage : own.stage = .used
  slots : ∀ fd < nofile, k ≤ fd → own.ofile fd = none
  cwd : k ≤ nofile → own.cwd = none

structure OwnOk (own : Own) (share : Share) : Prop where
  idle : own.stage ≠ .live → own.held = [] ∧ share.Idle ∧ share.closed = 0
  empty : own.stage = .unused ∨ own.stage = .zombie → own.cwd = none ∧ ∀ fd < nofile, own.ofile fd = none
  pending : ∀ fd f, share.pending = some (fd, f) → fd < nofile ∧ own.ofile fd = some f
  uses : ∀ u ∈ share.uses, u.fd < nofile ∧ own.slot share.pending u.fd = some u.f ∧ (ftable u.f).node = u.node
  slots : ∀ fd < nofile, fd < share.closed → own.ofile fd = none
  cwd : share.away = true → own.cwd = none

structure ProcsOk : Prop where
  outside : ∀ q, cfg.nproc ≤ q → (procs q).stage = .unused
  each : ∀ q, OwnOk ftable (procs q) (share q)
  child : ∀ q c k, (share q).child = some (c, k) → ChildOk cfg (procs c) c k
  parent : ∀ q r c k l, (share q).child = some (c, k) → (share r).child = some (c, l) → q = r

def Refers (held : List (Nat × Nat)) (share : Share) (ip : Nat) : Prop :=
  (∃ i, (ip, i) ∈ held) ∨ ∃ u ∈ share.uses, u.node = some ip

def LocksOk : Prop := ∀ ip q, (itable ip).lock = some q → Refers (procs q).held (share q) ip

end Invariant

structure Inv (cfg : Config) (st : State) (share : Nat → Share) : Prop where
  nodes : NodesOk cfg st.itable st.ftable st.procs
  files : FilesOk cfg st.ftable st.procs share
  pipes : PipesOk cfg st.ftable st.pipes share
  procs : ProcsOk cfg st.ftable st.procs share
  locks : LocksOk st.itable st.procs share
  running : st.panic = none

/-- What a process knows of its own: the references to inodes, the locks, the rest. -/
structure Ghost where
  held : List (Nat × Nat)
  locks : Nat → Bool
  share : Share

def ghost (st : State) (share : Nat → Share) (pid : Nat) : Ghost where
  held := (st.procs pid).held
  locks ip := (st.itable ip).lock = some pid
  share := share pid

/-- Who locks an inode has a reference to it, and the last reference to an inode without
links finds the lock free. -/
def Safe (st : State) (share : Nat → Share) (pid : Nat) : Act → Prop
  | .acquiresleep ip => Refers (st.procs pid).held (share pid) ip
  | .lastRef ip => (∃ i, (ip, i) ∈ (st.procs pid).held) ∧
      ((st.itable ip).ref = 1 ∧ (st.itable ip).valid = true ∧ (st.itable ip).d.nlink = 0 → (st.itable ip).lock = none)
  | _ => True

/-- The panics of `filedup` and `fileclose` are left out. -/
def Halts (st : State) : Prop := ∃ reason, st.panic = some reason ∧ reason ≠ .filedup ∧ reason ≠ .fileclose

def logic (cfg : Config) : Logic State Act.Reply Choice (Nat → Share) Ghost where
  exec := exec
  inv := Inv cfg
  ghost := ghost
  rely _ _ _ _ := True
  safe := Safe
  halt := Halts

end Xv6.Names

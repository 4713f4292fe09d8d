import Xv6.Lib.Transition

/-!
`runcmd` of `user/sh.c` with the descriptors of the processes it makes. A node of the command
tree is named by the way to it from the root, and so is the pipe that a PIPE node makes. Every
call of the kernel is one step of its process; any process may make the next step, and a
`wait` may end at any time. The calls succeed, and a new descriptor is the lowest free one.
-/

namespace Xv6.Shell

open Function List Option
open Lib

/-- The descriptor of a REDIR node is one of the standard ones. -/
inductive Cmd
  | exec (argv : List String)
  | redir (cmd : Cmd) (file : String) (mode : Nat) (fd : Fin 3)
  | pipe (left right : Cmd)
  | list (left right : Cmd)
  | back (cmd : Cmd)

inductive Side
  | left
  | right
  deriving DecidableEq

abbrev Pos := List Side

/-- `pipe node .left` is the write end of the pipe of a node, which is for the left command. -/
inductive File
  | given (n : Nat)
  | named (file : String) (mode : Nat)
  | pipe (node : Pos) (side : Side)
  deriving DecidableEq

abbrev Fds := Nat → Option File

def nofile : Nat := 16

def fdalloc (fds : Fds) (file : File) : Option (Nat × Fds) :=
  ((List.range nofile).find? fun fd => (fds fd).isNone).map fun fd => (fd, update fds fd (some file))

def close (fds : Fds) (fd : Nat) : Fds := update fds fd none

def dup (fds : Fds) (fd : Nat) : Option (Nat × Fds) := (fds fd).bind (fdalloc fds)

/-- The descriptors `p[0]` and `p[1]`. -/
def pipe (fds : Fds) (node : Pos) : Option ((Nat × Nat) × Fds) :=
  (fdalloc fds (.pipe node .right)).bind fun (p0, fds) =>
    (fdalloc fds (.pipe node .left)).map fun (p1, fds) => ((p0, p1), fds)

/-- What the child of a PIPE node does next: `close(1)`, `dup(p[1])`, `close(p[0])` and
`close(p[1])`, or the same for the other end. -/
inductive Plug
  | closeStd
  | dup
  | close0
  | close1
  deriving DecidableEq

def std : Side → Nat
  | .left => 1
  | .right => 0

inductive Code
  | runcmd (cmd : Cmd)
  | redirOpen (cmd : Cmd) (file : String) (mode : Nat)
  | listWait (right : Cmd)
  | forkLeft (p0 p1 : Nat) (left right : Cmd)
  | forkRight (p0 p1 : Nat) (right : Cmd)
  | close0 (p0 p1 : Nat)
  | close1 (p1 : Nat)
  | pipeWait
  | plug (stage : Plug) (side : Side) (p0 p1 : Nat) (cmd : Cmd)
  | exec (argv : List String)
  | exited

structure Proc where
  pos : Pos
  code : Code
  fds : Fds

def Proc.exit (p : Proc) : Proc := { p with code := .exited, fds := fun _ => none }

def Proc.fork (p : Proc) (side : Side) (code : Code) : Option Proc := some ⟨p.pos ++ [side], code, p.fds⟩

def Proc.step (p : Proc) : Option (Proc × Option Proc) :=
  match p.code with
  | .runcmd (.exec argv) => some (if argv = [] then p.exit else { p with code := .exec argv }, none)
  | .runcmd (.redir cmd file mode fd) => some ({ p with code := .redirOpen cmd file mode, fds := close p.fds fd }, none)
  | .redirOpen cmd file mode =>
    (fdalloc p.fds (.named file mode)).map fun (_, fds) => (⟨p.pos ++ [.left], .runcmd cmd, fds⟩, none)
  | .runcmd (.list left right) => some ({ p with code := .listWait right }, p.fork .left (.runcmd left))
  | .listWait right => some (⟨p.pos ++ [.right], .runcmd right, p.fds⟩, none)
  | .runcmd (.pipe left right) =>
    (pipe p.fds p.pos).map fun (ends, fds) => ({ p with code := .forkLeft ends.1 ends.2 left right, fds := fds }, none)
  | .forkLeft p0 p1 left right =>
    some ({ p with code := .forkRight p0 p1 right }, p.fork .left (.plug .closeStd .left p0 p1 left))
  | .forkRight p0 p1 right =>
    some ({ p with code := .close0 p0 p1 }, p.fork .right (.plug .closeStd .right p0 p1 right))
  | .close0 p0 p1 => some ({ p with code := .close1 p1, fds := close p.fds p0 }, none)
  | .close1 p1 => some ({ p with code := .pipeWait, fds := close p.fds p1 }, none)
  | .pipeWait => some (p.exit, none)
  | .plug .closeStd side p0 p1 cmd =>
    some ({ p with code := .plug .dup side p0 p1 cmd, fds := close p.fds (std side) }, none)
  | .plug .dup side p0 p1 cmd =>
    (dup p.fds (if side = .left then p1 else p0)).map fun (_, fds) =>
      ({ p with code := .plug .close0 side p0 p1 cmd, fds := fds }, none)
  | .plug .close0 side p0 p1 cmd =>
    some ({ p with code := .plug .close1 side p0 p1 cmd, fds := close p.fds p0 }, none)
  | .plug .close1 _ _ p1 cmd => some ({ p with code := .runcmd cmd, fds := close p.fds p1 }, none)
  | .runcmd (.back cmd) => some (p.exit, p.fork .left (.runcmd cmd))
  | .exec _ | .exited => none

def step (procs : List Proc) (i : Nat) : Option (List Proc) :=
  procs[i]?.bind fun p => p.step.map fun (next, child) => procs.set i next ++ child.toList

def start (cmd : Cmd) (fds : Fds) : List Proc := [⟨[], .runcmd cmd, fds⟩]

/-- The pipe that a process is still plugging: it has made it and not closed both ends, or is
a child that has not come to its command. -/
def Proc.plumbs (p : Proc) : Option Pos :=
  match p.code with
  | .forkLeft _ _ _ _ | .forkRight _ _ _ | .close0 _ _ | .close1 _ => some p.pos
  | .plug _ _ _ _ _ => some p.pos.dropLast
  | _ => none

/-- The standard descriptors, with ends of pipes only where they belong. -/
structure Base (pos : Pos) (fds : Fds) : Prop where
  three : ∀ fd, (fds fd).isSome ↔ fd < 3
  ends : ∀ fd node side, fds fd = some (.pipe node side) → node ++ [side] <+: pos

def piped (base : Fds) (node : Pos) : Fds :=
  update (update base 3 (some (.pipe node .right))) 4 (some (.pipe node .left))

/-- The table of a child before each of its four calls. -/
def Plug.table (base : Fds) (node : Pos) (side : Side) : Plug → Fds
  | .closeStd => piped base node
  | .dup => update (piped base node) (std side) none
  | .close0 => update (piped base node) (std side) (some (.pipe node side))
  | .close1 => update (update (piped base node) (std side) (some (.pipe node side))) 3 none

def Code.Table (pos : Pos) (fds : Fds) : Code → Prop
  | .runcmd _ | .listWait _ | .pipeWait | .exec _ => Base pos fds
  | .redirOpen _ _ _ => ∃ base, ∃ fd < 3, Base pos base ∧ fds = update base fd none
  | .forkLeft p0 p1 _ _ | .forkRight p0 p1 _ | .close0 p0 p1 =>
    p0 = 3 ∧ p1 = 4 ∧ ∃ base, Base pos base ∧ fds = piped base pos
  | .close1 p1 => p1 = 4 ∧ ∃ base, Base pos base ∧ fds = update (piped base pos) 3 none
  | .plug stage side p0 p1 _ =>
    p0 = 3 ∧ p1 = 4 ∧ ∃ base node, pos = node ++ [side] ∧ Base node base ∧ fds = stage.table base node side
  | .exited => fds = fun _ => none

def Proc.Ok (p : Proc) : Prop := p.code.Table p.pos p.fds

section

variable {pos : Pos} {fds base : Fds} {fd : Nat} {node : Pos} {side : Side} {file : File}

theorem Base.free (ok : Base pos fds) (above : 3 ≤ fd) : fds fd = none := by
  cases value : fds fd with
  | none => rfl
  | some _ =>
    have low := (ok.three fd).mp (value ▸ rfl)
    omega

theorem Base.below (ok : Base pos fds) {longer : Pos} (extends_ : pos <+: longer) : Base longer fds :=
  ⟨ok.three, fun fd node side held => (ok.ends fd node side held).trans extends_⟩

theorem Base.set (ok : Base pos base) (low : fd < 3) (mine : ∀ node side, file = .pipe node side → node ++ [side] <+: pos) :
    Base pos (update base fd (some file)) := by
  refine ⟨fun k => ?_, fun k node side held => ?_⟩
  · by_cases same : k = fd
    · rw [same, update_self]
      exact iff_of_true rfl low
    · rw [update_of_ne same]
      exact ok.three k
  by_cases same : k = fd
  · rw [same, update_self] at held
    exact mine node side (Option.some.inj held)
  · rw [update_of_ne same] at held
    exact ok.ends k node side held

end

variable {next : Proc} {child : Option Proc}

section Held

variable {base : Fds} {node other : Pos} {side part : Side} {fd k : Nat}

theorem held_of_close (held : update base k none fd = some (.pipe node side)) : base fd = some (.pipe node side) := by
  by_cases same : fd = k
  · rw [same, update_self] at held
    cases held
  · rwa [update_of_ne same] at held

theorem held_of_set (held : update base k (some (.pipe other part)) fd = some (.pipe node side)) :
    node = other ∨ base fd = some (.pipe node side) := by
  by_cases same : fd = k
  · rw [same, update_self] at held
    cases held
    exact .inl rfl
  · rw [update_of_ne same] at held
    exact .inr held

theorem held_of_piped (held : piped base other fd = some (.pipe node side)) : node = other ∨ base fd = some (.pipe node side) := by
  rcases held_of_set held with same | first
  · exact .inl same
  · exact held_of_set first

theorem held_of_table {stage : Plug} (held : stage.table base other part fd = some (.pipe node side)) :
    node = other ∨ base fd = some (.pipe node side) := by
  cases stage with
  | closeStd => exact held_of_piped held
  | dup => exact held_of_piped (held_of_close held)
  | close0 =>
    rcases held_of_set held with same | before
    · exact .inl same
    · exact held_of_piped before
  | close1 =>
    rcases held_of_set (held_of_close held) with same | before
    · exact .inl same
    · exact held_of_piped before

end Held

theorem Proc.Ok.ends {p : Proc} (ok : p.Ok) {node : Pos} {side : Side} {fd : Nat} (away : p.plumbs ≠ some node)
    (held : p.fds fd = some (.pipe node side)) : node ++ [side] <+: p.pos := by
  obtain ⟨pos, code, fds⟩ := p
  have ok : code.Table pos fds := ok
  have plumbing : ∀ {base}, Base pos base → some pos ≠ some node →
      node = pos ∨ base fd = some (.pipe node side) → node ++ [side] <+: pos := by
    rintro base known away (rfl | before)
    · exact absurd rfl away
    · exact known.ends fd node side before
  cases code with
  | runcmd _ | listWait _ | pipeWait | exec _ => exact Base.ends ok fd node side held
  | redirOpen cmd file mode =>
    obtain ⟨base, k, _, known, rfl⟩ := ok
    exact known.ends fd node side (held_of_close held)
  | forkLeft _ _ _ _ | forkRight _ _ _ | close0 _ _ =>
    obtain ⟨rfl, rfl, base, known, rfl⟩ := ok
    exact plumbing known away (held_of_piped held)
  | close1 p1 =>
    obtain ⟨rfl, base, known, rfl⟩ := ok
    exact plumbing known away (held_of_piped (held_of_close held))
  | plug stage part p0 p1 cmd =>
    obtain ⟨rfl, rfl, base, other, rfl, known, rfl⟩ := ok
    rcases held_of_table held with rfl | before
    · exact absurd (congrArg some dropLast_concat) away
    · exact (known.ends fd node side before).trans (prefix_append ..)
  | exited =>
    have none : fds = fun _ => none := ok
    subst none
    cases held

end Xv6.Shell

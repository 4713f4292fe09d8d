import Xv6.Lib.Guarded
import Xv6.Virtio.Descs

/-!
The requests in progress. A request owns three descriptors; its head passes through the
`avail` ring, the device and the `used` ring, and is in one of the three places at a time.
-/

namespace Xv6.Virtio

open Function List
open Xv6.Lib

def Request.idx (req : Request) : List Nat := [req.i0, req.i1, req.i2]

namespace Pc

def op : Pc → Option Op
  | .acquire op | .alloc op | .unlock op => some op
  | .format req | .ring req | .bump req | .check req | .wait req | .free req => some req.op
  | .idle | .intrAcquire | .intr | .intrUnlock => none

def req : Pc → Option Request
  | .format req | .ring req | .bump req | .check req | .wait req | .free req => some req
  | _ => none

def formatted : Pc → Option Request
  | .ring req | .bump req | .check req | .wait req | .free req => some req
  | _ => none

def armed : Pc → Option Request
  | .ring req | .bump req => some req
  | _ => none

def published : Pc → Option Request
  | .check req | .wait req | .free req => some req
  | _ => none

def early : Pc → Option Op
  | .acquire op | .alloc op => some op
  | .format req | .ring req | .bump req => some req.op
  | _ => none

def inside : Pc → Option Unit
  | .alloc _ | .format _ | .ring _ | .bump _ | .check _ | .free _ | .unlock _ | .intr | .intrUnlock => some ()
  | .idle | .acquire _ | .wait _ | .intrAcquire => none

variable {pc : Pc} {r : Request}

theorem formatted_of_published (is : pc.published = some r) : pc.formatted = some r := by
  cases pc <;> first | exact is | cases is

theorem formatted_of_armed (is : pc.armed = some r) : pc.formatted = some r := by
  cases pc <;> first | exact is | cases is

theorem req_of_formatted (is : pc.formatted = some r) : pc.req = some r := by
  cases pc <;> first | exact is | cases is

theorem op_of_req (is : pc.req = some r) : pc.op = some r.op := by
  cases pc <;> first | (cases is; rfl) | cases is

theorem req_of_published (is : pc.published = some r) : pc.req = some r :=
  req_of_formatted (formatted_of_published is)

theorem armed_of_published (is : pc.published = some r) : pc.armed = none := by
  cases pc <;> first | rfl | cases is

theorem op_of_published (is : pc.published = some r) : pc.op = some r.op :=
  op_of_req (req_of_published is)

end Pc

/-- The chain of descriptors says what the call asked for. -/
structure Chain (disk : Disk) (req : Request) : Prop where
  first : disk.desc req.i0 = ⟨.op req.i0, 16, true, false, req.i1⟩
  second : disk.desc req.i1 = ⟨.data req.op.b, bsize, true, !req.op.write, req.i2⟩
  third : disk.desc req.i2 = ⟨.status req.i0, 1, false, true, 0⟩
  op : disk.ops req.i0 = ⟨req.op.write, req.op.sector⟩
  b : (disk.info req.i0).b = some req.op.b

structure Owned (s : State) : Prop where
  nodup : ∀ p req, (s.pcs p).req = some req → req.idx.Nodup
  used : ∀ p req, (s.pcs p).req = some req → ∀ i ∈ req.idx, i < num ∧ s.disk.free i = false
  apart : ∀ p q req other, (s.pcs p).req = some req → (s.pcs q).req = some other → p ≠ q → req.idx.Disjoint other.idx
  chain : ∀ p req, (s.pcs p).formatted = some req → Chain s.disk req
  buffers : ∀ p op, (s.pcs p).op = some op → s.owner op.b = some p

namespace State

variable (s : State)

def pending : List Nat := Ring.contents num s.availRing s.seenAvail s.availIdx

def finished : List Nat := Ring.contents num s.usedRing s.seenUsed s.usedIdx

def flight : List Nat := s.pending ++ (s.taken ++ s.finished)

end State

structure Flight (s : State) : Prop where
  nodup : s.flight.Nodup
  live : ∀ head ∈ s.flight, ∃ p req, (s.pcs p).published = some req ∧ req.i0 = head ∧ s.busy req.op.b = true
  status : ∀ head ∈ s.finished, (s.disk.info head).status = 0
  armed : ∀ p req, (s.pcs p).armed = some req → s.busy req.op.b = true
  ring : ∀ p req, s.pcs p = .bump req → s.availRing (Ring.index num s.availIdx) = req.i0
  offered : s.offered = s.accepted ++ s.pending
  returned : s.returned = s.consumed ++ s.finished

def Op.done (op : Op) : Done := ⟨some ⟨op.write, op.sector⟩, some op.b⟩

structure History (s : State) : Prop where
  mark : ∀ p op, (s.pcs p).op = some op → op.mark ≤ s.performed.length
  early : ∀ p op, (s.pcs p).early = some op → s.doneSince op = []
  waiting : ∀ p req, (s.pcs p).published = some req →
    s.doneSince req.op = if s.busy req.op.b = true ∧ req.i0 ∉ s.finished then [] else [req.op.done]
  spent : ∀ p req, s.pcs p = .free req → s.busy req.op.b = false
  late : ∀ p op, s.pcs p = .unlock op → s.doneSince op = [op.done]
  returns : ∀ ret ∈ s.returns, ret.done = [ret.op.done]

structure Inv (s : State) : Prop where
  guarded : Guarded (fun _ : Unit => s.lock) fun p => (s.pcs p).inside
  owned : Owned s
  flight : Flight s
  history : History s
  running : s.panic = none

theorem boot_inv : Inv boot where
  guarded := ⟨fun _ _ => ⟨nofun, nofun⟩⟩
  owned := ⟨nofun, nofun, nofun, nofun, nofun⟩
  flight := ⟨nodup_nil, nofun, nofun, nofun, nofun, rfl, rfl⟩
  history := ⟨nofun, nofun, nofun, nofun, nofun, nofun⟩
  running := rfl

inductive Act (s : State) : State → Prop
  | lockBuf (p b : Nat) (free : s.owner b = none) : Act s { s with owner := update s.owner b (some p) }
  | unlockBuf (p b : Nat) (mine : s.owner b = some p) (place : s.pcs p = .idle) :
      Act s { s with owner := update s.owner b none }
  | call (p : Nat) (op : Op) (place : s.pcs p = .idle) (mine : s.owner op.b = some p)
      (mark : op.mark = s.performed.length) : Act s (s.goto p (.acquire op))
  | intr (p : Nat) (place : s.pcs p = .idle) : Act s (s.goto p .intrAcquire)
  | enter (p : Nat) (pc : Pc) (free : s.lock = none)
      (place : (∃ op, s.pcs p = .acquire op ∧ pc = .alloc op) ∨ (∃ req, s.pcs p = .wait req ∧ pc = .check req) ∨
        s.pcs p = .intrAcquire ∧ pc = .intr) : Act s { s.goto p pc with lock := some p }
  | allocated (p : Nat) (op : Op) (i0 i1 i2 : Nat) (place : s.pcs p = .alloc op)
      (available : s.disk.Available [i0, i1, i2]) :
      Act s { s.goto p (.format ⟨op, i0, i1, i2⟩) with disk := s.disk.mark [i0, i1, i2] }
  | refused (p : Nat) (op : Op) (idx : List Nat) (place : s.pcs p = .alloc op) (free : ∀ i ∈ idx, s.disk.free i = true) :
      Act s { s.goto p (.acquire op) with disk := s.disk.wipe idx, lock := none }
  | format (p : Nat) (req : Request) (place : s.pcs p = .format req) :
      Act s { s.goto p (.ring req) with disk := s.disk.format req, busy := update s.busy req.op.b true }
  | ring (p : Nat) (req : Request) (place : s.pcs p = .ring req) :
      Act s { s.goto p (.bump req) with availRing := update s.availRing (Ring.index num s.availIdx) req.i0 }
  | bump (p : Nat) (req : Request) (place : s.pcs p = .bump req) :
      Act s { s.goto p (.check req) with availIdx := s.availIdx + 1#16, offered := s.offered ++ [req.i0] }
  | sleep (p : Nat) (req : Request) (place : s.pcs p = .check req) (busy : s.busy req.op.b = true) :
      Act s { s.goto p (.wait req) with lock := none }
  | answered (p : Nat) (req : Request) (place : s.pcs p = .check req) (idle : s.busy req.op.b = false) :
      Act s (s.goto p (.free req))
  | free (p : Nat) (req : Request) (place : s.pcs p = .free req) :
      Act s { s.goto p (.unlock req.op) with
        disk := ((⟨s.disk.desc, s.disk.free, update s.disk.info req.i0 { s.disk.info req.i0 with b := none }, s.disk.ops⟩ :
          Disk).wipe req.idx).unmark req.idx }
  | unlock (p : Nat) (op : Op) (place : s.pcs p = .unlock op) :
      Act s { s.goto p .idle with lock := none, returns := s.returns ++ [⟨op, s.doneSince op⟩] }
  | drained (p : Nat) (place : s.pcs p = .intr) : Act s (s.goto p .intrUnlock)
  | consume (p q : Nat) (req : Request) (place : s.pcs p = .intr) (some : s.seenUsed ≠ s.usedIdx)
      (published : (s.pcs q).published = .some req) (entry : s.usedRing (Ring.index num s.seenUsed) = req.i0) :
      Act s { s with
        busy := update s.busy req.op.b false, seenUsed := s.seenUsed + 1#16, consumed := s.consumed ++ [req.i0] }
  | leave (p : Nat) (place : s.pcs p = .intrUnlock) : Act s { s.goto p .idle with lock := none }
  | take (head : Nat) (some : s.seenAvail ≠ s.availIdx) (entry : s.availRing (Ring.index num s.seenAvail) = head) :
      Act s { s with
        taken := s.taken ++ [head], seenAvail := s.seenAvail + 1#16, accepted := s.accepted ++ [head] }
  | complete (p : Nat) (req : Request) (published : (s.pcs p).published = some req) (member : req.i0 ∈ s.taken) :
      Act s { s with
        disk := { s.disk with info := update s.disk.info req.i0 { s.disk.info req.i0 with status := 0 } }
        taken := s.taken.erase req.i0
        usedRing := update s.usedRing (Ring.index num s.usedIdx) req.i0
        usedIdx := s.usedIdx + 1#16
        returned := s.returned ++ [req.i0]
        performed := s.performed ++ [req.op.done] }

variable {s next : State}

theorem Inv.chain_of_flight (inv : Inv s) {head : Nat} (member : head ∈ s.flight) :
    ∃ p req, (s.pcs p).published = some req ∧ req.i0 = head ∧ Chain s.disk req := by
  obtain ⟨p, req, published, first, _⟩ := inv.flight.live head member
  exact ⟨p, req, published, first, inv.owned.chain p req (Pc.formatted_of_published published)⟩

theorem Inv.freeChain_ok (inv : Inv s) {p : Nat} {req : Request} (place : s.pcs p = .free req) (info : Nat → Info) :
    Disk.freeChain (num + 1) { s.disk with info := info } req.i0 =
      .ok ((({ s.disk with info := info } : Disk).wipe req.idx).unmark req.idx) := by
  have formatted : (s.pcs p).formatted = some req := by rw [place]; rfl
  have chain := inv.owned.chain p req formatted
  have used := inv.owned.used p req (Pc.req_of_formatted formatted)
  have three : ({ s.disk with info := info } : Disk).freeChain (6 + 3) req.i0 = _ :=
    Disk.freeChain_three (inv.owned.nodup p req (Pc.req_of_formatted formatted)) (fun i member => (used i member).1)
      (fun i member => (used i member).2) (congrArg Desc.nextFlag chain.first) (congrArg Desc.next chain.first)
      (congrArg Desc.nextFlag chain.second) (congrArg Desc.next chain.second) (congrArg Desc.nextFlag chain.third)
  exact three

theorem exec_act (inv : Inv s) {p : Nat} (stepped : s.exec p = some next) : Act s next := by
  unfold State.exec at stepped
  split at stepped
  · cases stepped
  · rename_i op place
    split at stepped
    · rename_i free
      cases stepped
      exact .enter p _ free (.inl ⟨op, place, rfl⟩)
    · cases stepped
  · rename_i op place
    rcases s.disk.alloc3Desc_spec with ⟨i0, i1, i2, ran, available⟩ | ⟨idx, ran, free⟩
    · rw [ran] at stepped
      cases stepped
      exact .allocated p op i0 i1 i2 place available
    · rw [ran] at stepped
      cases stepped
      exact .refused p op idx place free
  · rename_i req place
    cases stepped
    exact .format p req place
  · rename_i req place
    cases stepped
    exact .ring p req place
  · rename_i req place
    cases stepped
    exact .bump p req place
  · rename_i req place
    split at stepped
    · rename_i busy
      cases stepped
      exact .sleep p req place busy
    · rename_i idle
      cases stepped
      exact .answered p req place (Bool.eq_false_iff.mpr idle)
  · rename_i req place
    split at stepped
    · rename_i free
      cases stepped
      exact .enter p _ free (.inr (.inl ⟨req, place, rfl⟩))
    · cases stepped
  · rename_i req place
    simp only [inv.freeChain_ok place] at stepped
    cases stepped
    exact .free p req place
  · rename_i op place
    cases stepped
    exact .unlock p op place
  · rename_i place
    split at stepped
    · rename_i free
      cases stepped
      exact .enter p _ free (.inr (.inr ⟨place, rfl⟩))
    · cases stepped
  · rename_i place
    split at stepped
    · cases stepped
      exact .drained p place
    rename_i some
    have first : s.usedRing (Ring.index num s.seenUsed) ∈ s.finished := by
      rw [State.finished, Ring.contents_pop (by decide) _ _ _ some]
      exact mem_cons_self
    obtain ⟨q, req, published, head, chain⟩ := inv.chain_of_flight (mem_append_right _ (mem_append_right _ first))
    rw [if_neg (not_not.mpr (inv.flight.status _ first))] at stepped
    rw [← head] at stepped
    simp only [chain.b] at stepped
    cases stepped
    exact .consume p q req place some published head.symm
  · rename_i place
    cases stepped
    exact .leave p place

theorem complete_act (inv : Inv s) {head : Nat} (stepped : s.complete head = some next) : Act s next := by
  unfold State.complete at stepped
  split at stepped
  · rename_i member
    obtain ⟨p, req, published, rfl, chain⟩ := inv.chain_of_flight (mem_append_right _ (mem_append_left _ member))
    simp only [chain.first, chain.second, chain.third, State.reqAt, State.bufAt, State.setStatus, chain.op] at stepped
    cases stepped
    exact .complete p req published member
  · cases stepped

theorem step_act (inv : Inv s) {label : Label} (stepped : step s label = some next) : Act s next := by
  unfold step at stepped
  rw [if_neg (by rw [inv.running]; nofun)] at stepped
  split at stepped
  · split at stepped
    · rename_i p b free
      cases stepped
      exact .lockBuf p b free
    · cases stepped
  · split at stepped
    · rename_i p b ready
      cases stepped
      exact .unlockBuf p b ready.1 ready.2
    · cases stepped
  · split at stepped
    · rename_i p b blockno write ready
      cases stepped
      exact .call p _ ready.1 ready.2 rfl
    · cases stepped
  · split at stepped
    · rename_i p place
      cases stepped
      exact .intr p place
    · cases stepped
  · exact exec_act inv stepped
  · unfold State.take at stepped
    split at stepped
    · cases stepped
    · rename_i some
      cases stepped
      exact .take _ some rfl
  · exact complete_act inv stepped

end Xv6.Virtio

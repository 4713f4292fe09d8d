import Xv6.Bio.Cache
import Xv6.Lib.Transition

/-!
The cache along a run. Every step of a process, of an operation or of the commit keeps the
representation.
-/

namespace Xv6.Bio

open Lib Lib.Linked List System Option
open Log (Block area)

def unpins : List Cmd → List Nat
  | [] => []
  | .bunpin blockno :: rest => blockno :: unpins rest
  | _ :: rest => unpins rest

def Place.rest (lh : List Nat) : Place → List Nat
  | .installTrans tail => lh.drop (tail + 1)
  | _ => lh

def Place.installs : Place → Bool
  | .installTrans _ => true
  | _ => false

structure Committing (sys : System) (c : Commit) : Prop where
  committing : sys.committing = true
  outstanding : sys.outstanding = 0
  own : ∀ h ∈ sys.handles, h.pid = c.pid → h.dev = rootDev
  pinned : sys.pinned = unpins c.code ++ c.place.rest sys.lh
  keeps : c.place.installs = false → unpins c.code = []

structure Inv (sys : System) : Prop where
  shape : Shape sys.bc sys.handles sys.pinned
  alone : Alone sys.bc sys.handles
  calm : sys.commit = none → sys.committing = false ∧ sys.pinned = sys.lh
  commit : ∀ c, sys.commit = some c → Committing sys c

structure SameLog (sys next : System) : Prop where
  lh : next.lh = sys.lh
  pinned : next.pinned = sys.pinned
  commit : next.commit = sys.commit
  committing : next.committing = sys.committing
  outstanding : next.outstanding = sys.outstanding

structure Kept (sys next : System) : Prop where
  inv : Inv next
  blocks : ∀ i, (sys.bc.bufs i).refcnt ≠ 0 → (next.bc.bufs i).dev = (sys.bc.bufs i).dev ∧
    (next.bc.bufs i).blockno = (sys.bc.bufs i).blockno

variable {start pid dev blockno : Nat} {sys next : System} {h h' : Handle} {buf : Buf} {c : Commit}

theorem Kept.of_bc (inv : Inv next) (bc : next.bc = sys.bc) : Kept sys next :=
  ⟨inv, fun i _ => bc ▸ ⟨rfl, rfl⟩⟩

theorem put_blocks {bc : Bcache} {b : Nat} (dev : buf.dev = (bc.bufs b).dev)
    (blockno : buf.blockno = (bc.bufs b).blockno) (i : Nat) :
    ((bc.put b buf).bufs i).dev = (bc.bufs i).dev ∧ ((bc.put b buf).bufs i).blockno = (bc.bufs i).blockno := by
  by_cases here : i = b
  · rw [here, put_same]
    exact ⟨dev, blockno⟩
  · rw [put_other here]
    exact ⟨rfl, rfl⟩

theorem refcnt_blocks (bc : Bcache) (b n i : Nat) :
    ((bc.put b { bc.bufs b with refcnt := n }).bufs i).dev = (bc.bufs i).dev ∧
      ((bc.put b { bc.bufs b with refcnt := n }).bufs i).blockno = (bc.bufs i).blockno := by
  apply put_blocks
  · rfl
  · rfl

theorem inCommit_of (here : sys.commit = some c) : sys.inCommit pid = decide (c.pid = pid) := by
  simp [inCommit, here]

theorem Inv.moved (inv : Inv sys) (same : SameLog sys next)
    (shape : Shape next.bc next.handles next.pinned) (alone : Alone next.bc next.handles)
    (users : ∀ h ∈ next.handles, h.dev = rootDev ∨ sys.inCommit h.pid = false ∨
      ∃ old ∈ sys.handles, old.pid = h.pid ∧ old.dev = h.dev) : Inv next := by
  refine ⟨shape, alone, fun none => ?_, fun c here => ?_⟩
  · rw [same.committing, same.pinned, same.lh]
    exact inv.calm (same.commit ▸ none)
  have before := same.commit ▸ here
  have held := inv.commit c before
  refine ⟨same.committing ▸ held.committing, same.outstanding ▸ held.outstanding, ?_, ?_, held.keeps⟩
  · intro h found mine
    rcases users h found with root | away | ⟨old, member, samePid, sameDev⟩
    · exact root
    · rw [inCommit_of before] at away
      exact absurd mine.symm (of_decide_eq_false away)
    · exact sameDev ▸ held.own old member (samePid.trans mine)
  · rw [same.pinned, same.lh]
    exact held.pinned

theorem mem_change {handles : List Handle} {other : Handle} (found : h ∈ handles)
    (member : other ∈ h' :: handles.erase h) (samePid : h'.pid = h.pid) (sameDev : h'.dev = h.dev) :
    ∃ old ∈ handles, old.pid = other.pid ∧ old.dev = other.dev := by
  rcases mem_cons.mp member with rfl | old
  · exact ⟨h, found, samePid.symm, sameDev.symm⟩
  · exact ⟨other, mem_of_mem_erase old, rfl, rfl⟩

theorem Inv.change (inv : Inv sys) (found : h ∈ sys.handles) (dev : buf.dev = (sys.bc.bufs h.buf).dev)
    (blockno : buf.blockno = (sys.bc.bufs h.buf).blockno) (refcnt : buf.refcnt = (sys.bc.bufs h.buf).refcnt)
    (sameBuf : h'.buf = h.buf) (samePid : h'.pid = h.pid) (sameDev : h'.dev = h.dev)
    (sameBlock : h'.blockno = h.blockno)
    (turn : (if h'.stage.active then 1 else 0) + (if (sys.bc.bufs h.buf).lock.isSome then 1 else 0) =
      (if h.stage.active then 1 else 0) + (if buf.lock.isSome then 1 else 0)) :
    Kept sys (sys.change h h' buf) := by
  refine ⟨inv.moved ⟨rfl, rfl, rfl, rfl, rfl⟩ ?_ (inv.alone.change found sameBuf turn) ?_, fun i _ => put_blocks dev blockno i⟩
  · exact inv.shape.change found dev blockno refcnt sameBuf sameDev sameBlock
  · intro other member
    exact .inr (.inr (mem_change found member samePid sameDev))

theorem Inv.congr (inv : Inv sys) (bc : next.bc = sys.bc) (handles : next.handles = sys.handles)
    (same : SameLog sys next) : Inv next := by
  apply inv.moved same
  · rw [bc, handles, same.pinned]
    exact inv.shape
  · rw [bc, handles]
    exact inv.alone
  · intro h found
    exact .inr (.inr ⟨h, handles ▸ found, rfl, rfl⟩)

theorem inv_bget (pid dev blockno : Nat) (inv : Inv sys) (away : dev = rootDev ∨ sys.inCommit pid = false) :
    Kept sys (sys.bget pid dev blockno) := by
  have users : ∀ b, ∀ other ∈ ⟨pid, dev, blockno, b, .waiting, false⟩ :: sys.handles,
      other.dev = rootDev ∨ sys.inCommit other.pid = false ∨
        ∃ old ∈ sys.handles, old.pid = other.pid ∧ old.dev = other.dev := by
    intro b other member
    rcases mem_cons.mp member with rfl | old
    · exact away.imp_right .inl
    · exact .inr (.inr ⟨other, old, rfl, rfl⟩)
  rw [System.bget]
  rcases bget_cases inv.shape dev blockno with ⟨b, inside, sameDev, sameBlock, got⟩ |
    ⟨absent, ⟨b, inside, unused, got⟩ | ⟨_, got⟩⟩
  · rw [got]
    refine ⟨inv.moved ⟨rfl, rfl, rfl, rfl, rfl⟩ (inv.shape.grab inside rfl sameDev sameBlock)
      ((inv.alone.cons rfl).still (put_lock rfl)) (users b),
      fun i _ => refcnt_blocks sys.bc b _ i⟩
  · rw [got]
    refine ⟨inv.moved ⟨rfl, rfl, rfl, rfl, rfl⟩
      (inv.shape.recycle inside rfl unused rfl rfl rfl absent)
      ((inv.alone.cons rfl).still (put_lock rfl)) (users b), fun i used => ?_⟩
    have apart : i ≠ b := by
      rintro rfl
      exact used unused
    dsimp only
    rw [put_other apart]
    exact ⟨rfl, rfl⟩
  · rw [got]
    exact .of_bc (inv.congr rfl rfl ⟨rfl, rfl, rfl, rfl, rfl⟩) rfl

theorem inv_fill (inv : Inv sys) (found : h ∈ sys.handles) (locked : h.stage = .locked) :
    Kept sys (sys.fill h) := by
  rw [System.fill]
  split
  all_goals exact inv.change found rfl rfl rfl rfl rfl rfl rfl (by simp [locked, Stage.active])

theorem inv_store (data : Block) (inv : Inv sys) (found : h ∈ sys.handles) : Kept sys (sys.store h data) :=
  inv.change found rfl rfl rfl rfl rfl rfl rfl rfl

theorem Kept.congr {after : System} (kept : Kept sys next) (bc : after.bc = next.bc)
    (handles : after.handles = next.handles) (same : SameLog next after) : Kept sys after :=
  ⟨kept.inv.congr bc handles same, bc ▸ kept.blocks⟩

theorem inv_bwrite (inv : Inv sys) (found : h ∈ sys.handles) : Kept sys (sys.bwrite h) := by
  rw [System.bwrite]
  dsimp only
  split
  · have changed : Kept sys (sys.change h { h with dirty := false } (sys.bc.bufs h.buf)) :=
      inv.change found rfl rfl rfl rfl rfl rfl rfl rfl
    exact changed.congr rfl rfl ⟨rfl, rfl, rfl, rfl, rfl⟩
  · exact .of_bc (inv.congr rfl rfl ⟨rfl, rfl, rfl, rfl, rfl⟩) rfl

theorem inv_releasesleep (inv : Inv sys) (found : h ∈ sys.handles) (ready : h.stage = .ready) :
    Kept sys (sys.releasesleep h) := by
  rw [System.releasesleep]
  split
  · rename_i holding
    exact inv.change found rfl rfl rfl rfl rfl rfl rfl (by simp [ready, holding, Stage.active])
  · exact .of_bc (inv.congr rfl rfl ⟨rfl, rfl, rfl, rfl, rfl⟩) rfl

theorem brelse_bufs {bc : Bcache} {b : Nat} :
    (brelse bc b).bufs = (bc.put b { bc.bufs b with refcnt := (bc.bufs b).refcnt - 1 }).bufs := by
  rw [brelse]
  dsimp only
  split <;> rfl

theorem inv_brelse (inv : Inv sys) (found : h ∈ sys.handles) (releasing : h.stage = .releasing) :
    Kept sys (sys.brelse h) := by
  refine ⟨inv.moved ⟨rfl, rfl, rfl, rfl, rfl⟩ ?_ ?_ ?_, fun i _ => ?_⟩
  · exact inv.shape.release found
  · refine (inv.alone.erase found (releasing ▸ rfl)).still fun i => ?_
    dsimp only [System.brelse]
    rw [brelse_bufs]
    apply put_lock
    rfl
  · intro other member
    exact .inr (.inr ⟨other, mem_of_mem_erase member, rfl, rfl⟩)
  · dsimp only [System.brelse]
    rw [brelse_bufs]
    exact refcnt_blocks sys.bc h.buf _ i

theorem inv_logWrite (inv : Inv sys) (found : h ∈ sys.handles) (root : h.dev = rootDev) :
    Kept sys (sys.logWrite h) := by
  obtain ⟨inside, dev, blockno⟩ := inv.shape.placed h found
  have put : sys.bc.put h.buf (sys.bc.bufs h.buf) = sys.bc := by
    rw [Bcache.put, Function.update_eq_self]
  have cleaned : Kept sys (sys.change h { h with dirty := false } (sys.bc.bufs h.buf)) :=
    inv.change found rfl rfl rfl rfl rfl rfl rfl rfl
  rw [System.logWrite]
  dsimp only
  split
  · exact .of_bc (inv.congr rfl rfl ⟨rfl, rfl, rfl, rfl, rfl⟩) rfl
  split
  · exact .of_bc (inv.congr rfl rfl ⟨rfl, rfl, rfl, rfl, rfl⟩) rfl
  rename_i running
  have quiet : sys.commit = none := by
    cases here : sys.commit with
    | none => rfl
    | some c => exact absurd (inv.commit c here).outstanding (by omega)
  obtain ⟨free, pinned⟩ := inv.calm quiet
  split
  · exact cleaned.congr put.symm rfl ⟨rfl, rfl, rfl, rfl, rfl⟩
  rename_i fresh
  have alone := cleaned.inv.alone
  simp only [change, put] at alone
  refine ⟨⟨?_, alone.still (put_lock rfl), fun _ => ⟨free, by rw [pinned]⟩, fun c here => absurd (quiet.symm.trans here) (by simp)⟩,
    fun i _ => refcnt_blocks sys.bc h.buf _ i⟩
  have shape := cleaned.inv.shape
  simp only [change, put] at shape
  rw [blockno] at fresh
  dsimp only
  rw [blockno]
  exact shape.pin (h := { h with dirty := false }) mem_cons_self root (pinned ▸ fresh)

theorem inv_beginOp (inv : Inv sys) (stepped : sys.beginOp pid = some next) : Kept sys next := by
  obtain ⟨free, stepped⟩ := ite_none_left_eq_some.mp stepped
  split at stepped
  · cases stepped
  · cases stepped
    refine .of_bc ⟨inv.shape, inv.alone, inv.calm, fun c here => ?_⟩ rfl
    exact absurd (inv.commit c here).committing (by simpa using free)

theorem unpins_writeLogCode (tail : Nat) : unpins (writeLogCode start tail blockno) = [] := rfl

theorem unpins_headCode : unpins (headCode start) = [] := rfl

theorem unpins_installCode (tail : Nat) : unpins (installCode start tail blockno) = [blockno] := rfl

theorem writeLog_bc (tail : Nat) : (sys.writeLog start pid tail).bc = sys.bc := by
  rw [writeLog]
  split <;> rfl

theorem inv_writeLog {tail : Nat} (shape : Shape sys.bc sys.handles sys.pinned) (alone : Alone sys.bc sys.handles)
    (committing : sys.committing = true) (outstanding : sys.outstanding = 0)
    (own : ∀ h ∈ sys.handles, h.pid = pid → h.dev = rootDev) (pinned : sys.pinned = sys.lh) :
    Inv (sys.writeLog start pid tail) := by
  rw [writeLog]
  split
  · refine ⟨shape, alone, fun none => (by cases none), fun c here => ?_⟩
    cases here
    exact ⟨committing, outstanding, own, pinned, fun _ => unpins_writeLogCode tail⟩
  · refine ⟨shape, alone, fun none => (by cases none), fun c here => ?_⟩
    cases here
    exact ⟨committing, outstanding, own, pinned, fun _ => unpins_headCode⟩

theorem installTrans_bc (tail : Nat) : (sys.installTrans start pid tail).bc = sys.bc := by
  rw [System.installTrans]
  split <;> rfl

theorem inv_installTrans {tail : Nat} (shape : Shape sys.bc sys.handles sys.pinned) (alone : Alone sys.bc sys.handles)
    (committing : sys.committing = true) (outstanding : sys.outstanding = 0)
    (own : ∀ h ∈ sys.handles, h.pid = pid → h.dev = rootDev) (pinned : sys.pinned = sys.lh.drop tail) :
    Inv (sys.installTrans start pid tail) := by
  rw [System.installTrans]
  split
  · rename_i blockno entry
    obtain ⟨bound, value⟩ := List.getElem?_eq_some_iff.mp entry
    refine ⟨shape, alone, fun none => (by cases none), fun c here => ?_⟩
    cases here
    refine ⟨committing, outstanding, own, ?_, fun other => by cases other⟩
    dsimp only [Place.rest]
    rw [pinned, unpins_installCode, drop_eq_getElem_cons bound, value, singleton_append]
  · rename_i none
    have short : sys.lh.drop tail = [] := drop_eq_nil_of_le (List.getElem?_eq_none_iff.mp none)
    refine ⟨shape, alone, fun none => (by cases none), fun c here => ?_⟩
    cases here
    exact ⟨committing, outstanding, own, pinned.trans short, fun _ => unpins_headCode⟩

theorem inv_endOp (inv : Inv sys) (done : ∀ h ∈ sys.handles, h.pid ≠ pid)
    (stepped : sys.endOp start pid = some next) : Kept sys next := by
  have own : ∀ h ∈ sys.handles, h.pid = pid → h.dev = rootDev :=
    fun h found mine => absurd mine (done h found)
  simp only [System.endOp] at stepped
  split at stepped
  · split at stepped
    · cases stepped
      refine .of_bc ⟨inv.shape, inv.alone, inv.calm, fun c here => ?_⟩ rfl
      have held := inv.commit c here
      exact ⟨held.committing, by dsimp only; rw [held.outstanding], held.own, held.pinned, held.keeps⟩
    rename_i free
    have quiet : sys.commit = none := by
      cases here : sys.commit with
      | none => rfl
      | some c => exact absurd (inv.commit c here).committing free
    obtain ⟨_, pinned⟩ := inv.calm quiet
    split at stepped
    · rename_i last
      split at stepped
      · cases stepped
        exact .of_bc (inv_writeLog inv.shape inv.alone rfl last own pinned) (writeLog_bc 0)
      cases stepped
      refine .of_bc ⟨inv.shape, inv.alone, fun none => (by cases none), fun c here => ?_⟩ rfl
      cases here
      exact ⟨rfl, last, own, pinned, fun _ => rfl⟩
    · cases stepped
      exact .of_bc ⟨inv.shape, inv.alone, fun _ => inv.calm quiet, fun c here =>
        absurd (quiet.symm.trans here) (by simp)⟩ rfl
  · cases stepped

theorem holding_some {stage : Stage} (found : sys.holding pid blockno stage = some h) :
    h ∈ sys.handles ∧ h.pid = pid ∧ h.blockno = blockno ∧ h.stage = stage := by
  have facts := List.find?_some found
  rw [decide_eq_true_eq] at facts
  exact ⟨mem_of_find?_eq_some found, facts⟩

theorem Inv.pop {cmd : Cmd} {rest : List Cmd} (inv : Inv sys) (here : sys.commit = some c)
    (code : c.code = cmd :: rest) (other : ∀ blockno, cmd ≠ .bunpin blockno) :
    Inv { sys with commit := some { c with code := rest } } := by
  have held := inv.commit c here
  have same : unpins c.code = unpins rest := by
    rw [code]
    cases cmd with
    | bunpin blockno => exact absurd rfl (other blockno)
    | _ => rfl
  refine ⟨inv.shape, inv.alone, fun none => (by cases none), fun d there => ?_⟩
  cases there
  exact ⟨held.committing, held.outstanding, held.own, same ▸ held.pinned, fun away => same ▸ held.keeps away⟩

theorem inv_bunpin {rest : List Cmd} (inv : Inv sys) (here : sys.commit = some c)
    (code : c.code = .bunpin blockno :: rest) (found : h ∈ sys.handles) (mine : h.pid = c.pid)
    (block : h.blockno = blockno) :
    Kept sys ({ sys with commit := some { c with code := rest } }.bunpin h) := by
  have held := inv.commit c here
  have pinned := held.pinned
  rw [code, unpins, cons_append] at pinned
  have listed : h.blockno ∈ sys.pinned := by
    rw [pinned, block]
    exact mem_cons_self
  have unpinned := inv.shape.unpin found (held.own h found mine) listed
  refine ⟨⟨?_, inv.alone.still (put_lock rfl), fun none => (by cases none), fun d there => ?_⟩, fun i _ =>
    refcnt_blocks sys.bc h.buf _ i⟩
  · dsimp only [System.bunpin]
    rw [(inv.shape.placed h found).2.2]
    exact unpinned
  cases there
  refine ⟨held.committing, held.outstanding, held.own, ?_, fun away => ?_⟩
  · dsimp only [System.bunpin]
    rw [(inv.shape.placed h found).2.2, block, pinned, erase_cons_head]
  · have none := held.keeps away
    rw [code, unpins] at none
    cases none

theorem inv_execute {cmd : Cmd} {rest : List Cmd} (inv : Inv sys) (here : sys.commit = some c)
    (code : c.code = cmd :: rest)
    (stepped : { sys with commit := some { c with code := rest } }.execute start c.pid cmd = some next) :
    Kept sys next := by
  cases cmd with
  | bunpin blockno =>
    simp only [execute, map_eq_some_iff] at stepped
    obtain ⟨h, held, rfl⟩ := stepped
    obtain ⟨found, mine, block, _⟩ := holding_some held
    exact inv_bunpin inv here code found mine block
  | bget blockno =>
    have popped := inv.pop here code (by simp)
    cases stepped
    have got := inv_bget c.pid rootDev blockno popped (.inl rfl)
    exact ⟨got.inv, got.blocks⟩
  | acquired blockno =>
    have popped := inv.pop here code (by simp)
    simp only [execute, map_eq_some_iff] at stepped
    obtain ⟨h, _, rfl⟩ := stepped
    exact .of_bc popped rfl
  | memmove dst src =>
    have popped := inv.pop here code (by simp)
    simp only [execute, bind_eq_bind, bind_eq_some_iff] at stepped
    obtain ⟨dest, holds, source, _, result⟩ := stepped
    have stored := inv_store (sys.bc.bufs source.buf).data popped (holding_some holds).1
    split at result
    · cases result
      exact ⟨stored.inv.congr rfl rfl ⟨rfl, rfl, rfl, rfl, rfl⟩, stored.blocks⟩
    · cases result
      exact ⟨stored.inv, stored.blocks⟩
  | setHead blockno =>
    have popped := inv.pop here code (by simp)
    simp only [execute, bind_eq_bind, bind_eq_some_iff] at stepped
    obtain ⟨h, holds, result⟩ := stepped
    cases result
    have stored := inv_store (Log.encodeHead (sys.bc.bufs h.buf).data sys.lh) popped (holding_some holds).1
    exact ⟨stored.inv.congr rfl rfl ⟨rfl, rfl, rfl, rfl, rfl⟩, stored.blocks⟩
  | bwrite blockno =>
    have popped := inv.pop here code (by simp)
    simp only [execute, map_eq_some_iff] at stepped
    obtain ⟨h, holds, rfl⟩ := stepped
    have did := inv_bwrite popped (holding_some holds).1
    exact ⟨did.inv, did.blocks⟩
  | releasesleep blockno =>
    have popped := inv.pop here code (by simp)
    simp only [execute, map_eq_some_iff] at stepped
    obtain ⟨h, holds, rfl⟩ := stepped
    obtain ⟨found, _, _, ready⟩ := holding_some holds
    have did := inv_releasesleep popped found ready
    exact ⟨did.inv, did.blocks⟩
  | brelse blockno =>
    have popped := inv.pop here code (by simp)
    simp only [execute, map_eq_some_iff] at stepped
    obtain ⟨h, holds, rfl⟩ := stepped
    obtain ⟨found, _, _, releasing⟩ := holding_some holds
    have did := inv_brelse popped found releasing
    exact ⟨did.inv, did.blocks⟩

theorem inv_advance (inv : Inv sys) (stepped : sys.advance start = some next) : Kept sys next := by
  simp only [advance] at stepped
  split at stepped
  · cases stepped
  rename_i c here
  have held := inv.commit c here
  split at stepped
  · rename_i cmd rest code
    exact inv_execute inv here code stepped
  rename_i code
  have pinned := held.pinned
  rw [code] at pinned
  split at stepped
  · rename_i tail place
    cases stepped
    rw [place] at pinned
    exact .of_bc (inv_writeLog inv.shape inv.alone held.committing held.outstanding held.own pinned)
      (writeLog_bc _)
  · rename_i place
    cases stepped
    rw [place] at pinned
    exact .of_bc (inv_installTrans inv.shape inv.alone held.committing held.outstanding held.own pinned)
      (installTrans_bc _)
  · rename_i tail place
    cases stepped
    rw [place] at pinned
    exact .of_bc (inv_installTrans inv.shape inv.alone held.committing held.outstanding held.own pinned)
      (installTrans_bc _)
  · rename_i place
    cases stepped
    rw [place] at pinned
    refine .of_bc ⟨inv.shape, inv.alone, fun none => (by cases none), fun d there => ?_⟩ rfl
    cases there
    exact ⟨held.committing, held.outstanding, held.own, pinned, fun _ => rfl⟩
  · rename_i place
    cases stepped
    rw [place] at pinned
    exact .of_bc ⟨inv.shape, inv.alone, fun _ => ⟨rfl, pinned⟩, fun d there => by cases there⟩ rfl

theorem inv_step {label : Label} (inv : Inv sys) (calls : Calls start sys label)
    (stepped : step start sys label = some next) : Kept sys next := by
  simp only [step] at stepped
  split at stepped
  · cases stepped
  cases label with
  | beginOp pid =>
    simp only at stepped
    split at stepped
    · cases stepped
    · exact inv_beginOp inv stepped
  | bget pid dev blockno =>
    simp only at stepped
    obtain ⟨away, stepped⟩ := ite_none_left_eq_some.mp stepped
    cases stepped
    exact inv_bget pid dev blockno inv (.inr (by simpa using away))
  | acquiresleep h =>
    obtain ⟨uses, stepped⟩ := ite_none_right_eq_some.mp stepped
    obtain ⟨free, stepped⟩ := ite_none_right_eq_some.mp stepped
    cases stepped
    exact inv.change uses.1 rfl rfl rfl rfl rfl rfl rfl (by simp [uses.2, free, Stage.active])
  | fill h =>
    simp only at stepped
    obtain ⟨uses, stepped⟩ := ite_none_right_eq_some.mp stepped
    cases stepped
    exact inv_fill inv uses.1 uses.2
  | modify h data =>
    simp only at stepped
    obtain ⟨uses, stepped⟩ := ite_none_right_eq_some.mp stepped
    cases stepped
    exact (inv_store data inv uses.1).congr rfl rfl ⟨rfl, rfl, rfl, rfl, rfl⟩
  | logWrite h =>
    simp only at stepped
    obtain ⟨uses, stepped⟩ := ite_none_right_eq_some.mp stepped
    cases stepped
    exact inv_logWrite inv uses.1 calls.1
  | releasesleep h =>
    simp only at stepped
    obtain ⟨uses, stepped⟩ := ite_none_right_eq_some.mp stepped
    cases stepped
    exact inv_releasesleep inv uses.1 uses.2.1
  | brelse h =>
    simp only at stepped
    obtain ⟨uses, stepped⟩ := ite_none_right_eq_some.mp stepped
    cases stepped
    exact inv_brelse inv uses.1 uses.2.1
  | endOp pid =>
    simp only at stepped
    split at stepped
    · cases stepped
    · exact inv_endOp inv calls stepped
  | commit => exact inv_advance inv stepped

theorem reached_inv {disk : Nat → Block}
    (reached : Reaches (step start) (Calls start) (System.boot disk) sys) : Inv sys := by
  refine reached.invariant Inv ⟨shape_binit, fun _ => rfl, fun _ => ⟨rfl, rfl⟩, fun c here => by cases here⟩ ?_
  intro state label next inv calls stepped
  exact (inv_step inv calls stepped).inv

def System.installs (sys : System) : Bool := sys.commit.any fun c => c.place.installs

theorem Inv.pinned_eq (inv : Inv sys) (outside : sys.installs = false) : sys.pinned = sys.lh := by
  cases here : sys.commit with
  | none => exact (inv.calm here).2
  | some c =>
    have held := inv.commit c here
    have away : c.place.installs = false := by simpa [installs, here] using outside
    rw [held.pinned, held.keeps away, nil_append]
    cases place : c.place with
    | installTrans tail => simp [place, Place.installs] at away
    | _ => rfl

theorem cache_representation {disk : Nat → Block}
    (reached : Reaches (step start) (Calls start) (System.boot disk) sys) :
    (∃ order : List Nat, order.Perm (List.range nbuf) ∧
      (List.range nbuf).map (fun k => sys.bc.links.next^[k + 1] head) = order ∧
      sys.bc.links.next^[nbuf + 1] head = head ∧
      (List.range nbuf).map (fun k => sys.bc.links.prev^[k + 1] head) = order.reverse ∧
      sys.bc.links.prev^[nbuf + 1] head = head) ∧
    (∀ i < nbuf, ∀ j < nbuf, (sys.bc.bufs i).dev ≠ 0 → (sys.bc.bufs i).dev = (sys.bc.bufs j).dev →
      (sys.bc.bufs i).blockno = (sys.bc.bufs j).blockno → i = j) ∧
    (sys.installs = false → ∀ i < nbuf, (sys.bc.bufs i).refcnt =
      (sys.handles.countP fun h => h.buf = i) +
        if (sys.bc.bufs i).dev = rootDev ∧ (sys.bc.bufs i).blockno ∈ sys.lh then 1 else 0) ∧
    ∀ label next, Calls start sys label → step start sys label = some next → ∀ i < nbuf,
      0 < (sys.bc.bufs i).refcnt → (next.bc.bufs i).dev = (sys.bc.bufs i).dev ∧
        (next.bc.bufs i).blockno = (sys.bc.bufs i).blockno := by
  have inv := reached_inv reached
  obtain ⟨order, ring, all⟩ := inv.shape.ring
  have size : order.length = nbuf := by rw [all.length_eq, length_range]
  obtain ⟨forward, around⟩ := ring.linked.iterate_next
  obtain ⟨backward, back⟩ := ring.linked.swap.iterate_next
  rw [length_reverse] at backward back
  rw [size] at forward around backward back
  refine ⟨⟨order, all, forward, around, backward, back⟩, inv.shape.unique, fun outside i inside => ?_, ?_⟩
  · rw [← inv.pinned_eq outside]
    exact inv.shape.counted i inside
  · intro label next calls stepped i _ used
    exact (inv_step inv calls stepped).blocks i used.ne'

theorem cache_representation_logged : ∃ sys : System, sys.lh = [100] ∧ (sys.bc.bufs 0).refcnt = 2 := by
  obtain ⟨sys, reached, seen⟩ := reaches_within
    (show (runWithin (Calls 2) (step 2) (boot fun _ _ => 0)
        [.beginOp 0, .bget 0 rootDev 100, .acquiresleep ⟨0, rootDev, 100, 0, .waiting, false⟩,
          .fill ⟨0, rootDev, 100, 0, .locked, false⟩, .logWrite ⟨0, rootDev, 100, 0, .ready, false⟩]).map
      (fun sys => (sys.lh, sys.installs, sys.handles, (sys.bc.bufs 0).dev, (sys.bc.bufs 0).blockno)) =
      some ([100], false, [⟨0, rootDev, 100, 0, .ready, false⟩], rootDev, 100) by decide +kernel)
  simp only [Prod.mk.injEq] at seen
  obtain ⟨logged, outside, handles, dev, blockno⟩ := seen
  obtain ⟨_, _, counted, _⟩ := cache_representation reached
  have count := counted outside 0 (by decide)
  rw [logged, handles, dev, blockno] at count
  exact ⟨sys, logged, count⟩

end Xv6.Bio

import Xv6.Bio.Core

/-!
The representation of the buffer cache: the list threads every buffer once, a block has at
most one buffer, and a buffer's count is the number of its uses and one more if the log has
pinned its block.
-/

namespace Xv6.Bio

open Lib Lib.Linked List
open Log (Block area)

/-- The log's use of the cache: it takes blocks of its device outside its own area, and a
process ends its operation when it has released its buffers. -/
def Calls (start : Nat) (sys : System) : Label → Prop
  | .logWrite h => h.dev = rootDev ∧ ¬ (area start).Owns h.blockno
  | .endOp pid => ∀ h ∈ sys.handles, h.pid ≠ pid
  | _ => True

instance (start : Nat) (sys : System) (label : Label) : Decidable (Calls start sys label) :=
  match label with
  | .logWrite _ => inferInstanceAs (Decidable (_ ∧ _))
  | .endOp pid => inferInstanceAs (Decidable (∀ h ∈ sys.handles, h.pid ≠ pid))
  | .beginOp _ | .bget _ _ _ | .acquiresleep _ | .fill _ | .modify _ _ | .releasesleep _ | .brelse _
  | .commit => inferInstanceAs (Decidable True)

def useCount (handles : List Handle) (b : Nat) : Nat := handles.countP fun h => h.buf = b

def pinCount (pinned : List Nat) (buf : Buf) : Nat :=
  if buf.dev = rootDev ∧ buf.blockno ∈ pinned then 1 else 0

structure Shape (bc : Bcache) (handles : List Handle) (pinned : List Nat) : Prop where
  ring : ∃ order, Ring bc.links head order ∧ order.Perm (List.range nbuf)
  unique : ∀ i < nbuf, ∀ j < nbuf, (bc.bufs i).dev ≠ 0 → (bc.bufs i).dev = (bc.bufs j).dev →
    (bc.bufs i).blockno = (bc.bufs j).blockno → i = j
  placed : ∀ h ∈ handles, h.buf < nbuf ∧ (bc.bufs h.buf).dev = h.dev ∧ (bc.bufs h.buf).blockno = h.blockno
  counted : ∀ i < nbuf, (bc.bufs i).refcnt = useCount handles i + pinCount pinned (bc.bufs i)
  cached : ∀ b ∈ pinned, ∃ i < nbuf, (bc.bufs i).dev = rootDev ∧ (bc.bufs i).blockno = b
  distinct : pinned.Nodup

variable {bc bc' : Bcache} {handles : List Handle} {pinned : List Nat} {h h' : Handle} {b i : Nat} {buf : Buf}

@[simp] theorem put_links : (bc.put b buf).links = bc.links := rfl

@[simp] theorem put_same : (bc.put b buf).bufs b = buf := Function.update_self _ _ _

theorem put_other (other : i ≠ b) : (bc.put b buf).bufs i = bc.bufs i := Function.update_of_ne other _ _

@[simp] theorem useCount_cons : useCount (h :: handles) i = useCount handles i + if h.buf = i then 1 else 0 := by
  simp [useCount, countP_cons]

theorem useCount_erase (found : h ∈ handles) :
    useCount handles i = useCount (handles.erase h) i + if h.buf = i then 1 else 0 := by
  rw [← useCount_cons]
  exact (perm_cons_erase found).countP_eq _

theorem Shape.mem_order {order : List Nat} (all : order.Perm (List.range nbuf)) : i ∈ order ↔ i < nbuf := by
  rw [all.mem_iff, mem_range]

theorem bget_cases (shape : Shape bc handles pinned) (dev blockno : Nat) :
    (∃ b < nbuf, (bc.bufs b).dev = dev ∧ (bc.bufs b).blockno = blockno ∧
      bget bc dev blockno = some (b, bpin bc b)) ∨
    (∀ i < nbuf, ¬ ((bc.bufs i).dev = dev ∧ (bc.bufs i).blockno = blockno)) ∧
      ((∃ b < nbuf, (bc.bufs b).refcnt = 0 ∧ bget bc dev blockno = some (b, bc.put b { bc.bufs b with
          dev := dev, blockno := blockno, valid := false, refcnt := 1 })) ∨
        (∀ i < nbuf, (bc.bufs i).refcnt ≠ 0) ∧ bget bc dev blockno = none) := by
  obtain ⟨order, ring, all⟩ := shape.ring
  have size : order.length = nbuf := by rw [all.length_eq, length_range]
  have forward := fun test => ring.seek_next test
  have backward := fun test => ring.seek_prev test
  simp only [size] at forward backward
  simp only [bget, forward, backward]
  cases found : order.find? fun b => decide ((bc.bufs b).dev = dev ∧ (bc.bufs b).blockno = blockno) with
  | some b =>
    have matched := List.find?_some found
    rw [decide_eq_true_eq] at matched
    have inside := (Shape.mem_order all).mp (mem_of_find?_eq_some found)
    exact .inl ⟨b, inside, matched.1, matched.2, rfl⟩
  | none =>
    refine .inr ⟨fun i inside both => ?_, ?_⟩
    · have failed := List.find?_eq_none.mp found i ((Shape.mem_order all).mpr inside)
      exact failed (decide_eq_true both)
    cases free : order.reverse.find? fun b => decide ((bc.bufs b).refcnt = 0) with
    | some b =>
      have zero := List.find?_some free
      rw [decide_eq_true_eq] at zero
      have inside := mem_reverse.mp (mem_of_find?_eq_some free)
      exact .inl ⟨b, (Shape.mem_order all).mp inside, zero, rfl⟩
    | none =>
      refine .inr ⟨fun i inside zero => ?_, rfl⟩
      have failed := List.find?_eq_none.mp free i
        (mem_reverse.mpr ((Shape.mem_order all).mpr inside))
      exact failed (decide_eq_true zero)

theorem Shape.keep (shape : Shape bc handles pinned) {handles' : List Handle} {pinned' : List Nat}
    (dev : buf.dev = (bc.bufs b).dev) (blockno : buf.blockno = (bc.bufs b).blockno)
    (placed : ∀ h ∈ handles', h.buf < nbuf ∧ (bc.bufs h.buf).dev = h.dev ∧
      (bc.bufs h.buf).blockno = h.blockno)
    (counted : ∀ i < nbuf, i ≠ b → useCount handles' i + pinCount pinned' (bc.bufs i) =
      useCount handles i + pinCount pinned (bc.bufs i))
    (here : b < nbuf → buf.refcnt = useCount handles' b + pinCount pinned' (bc.bufs b))
    (cached : ∀ b ∈ pinned', ∃ i < nbuf, (bc.bufs i).dev = rootDev ∧ (bc.bufs i).blockno = b)
    (distinct : pinned'.Nodup) : Shape (bc.put b buf) handles' pinned' := by
  have same : ∀ i, ((bc.put b buf).bufs i).dev = (bc.bufs i).dev ∧
      ((bc.put b buf).bufs i).blockno = (bc.bufs i).blockno := by
    intro i
    by_cases at_b : i = b
    · rw [at_b, put_same]
      exact ⟨dev, blockno⟩
    · rw [put_other at_b]
      exact ⟨rfl, rfl⟩
  have pins : ∀ i, pinCount pinned' ((bc.put b buf).bufs i) = pinCount pinned' (bc.bufs i) := by
    intro i
    rw [pinCount, pinCount, (same i).1, (same i).2]
  refine ⟨shape.ring, ?_, ?_, fun i inside => ?_, ?_, distinct⟩
  · intro i first j second
    rw [(same i).1, (same i).2, (same j).1, (same j).2]
    exact shape.unique i first j second
  · intro h found
    rw [(same h.buf).1, (same h.buf).2]
    exact placed h found
  · rw [pins]
    obtain rfl | at_b := eq_or_ne i b
    · rw [put_same]
      exact here inside
    · rw [put_other at_b, counted i inside at_b]
      exact shape.counted i inside
  · intro blockno found
    obtain ⟨i, inside, facts⟩ := cached blockno found
    exact ⟨i, inside, by rw [(same i).1, (same i).2]; exact facts⟩

theorem Shape.change (shape : Shape bc handles pinned) (found : h ∈ handles)
    (dev : buf.dev = (bc.bufs h.buf).dev) (blockno : buf.blockno = (bc.bufs h.buf).blockno)
    (refcnt : buf.refcnt = (bc.bufs h.buf).refcnt) (sameBuf : h'.buf = h.buf) (sameDev : h'.dev = h.dev)
    (sameBlock : h'.blockno = h.blockno) :
    Shape (bc.put h.buf buf) (h' :: handles.erase h) pinned := by
  have counts : ∀ i, useCount (h' :: handles.erase h) i = useCount handles i := by
    intro i
    rw [useCount_cons, useCount_erase found, sameBuf]
  apply shape.keep dev blockno
  · intro other member
    rcases mem_cons.mp member with rfl | old
    · rw [sameBuf, sameDev, sameBlock]
      exact shape.placed h found
    · exact shape.placed other (mem_of_mem_erase old)
  · intro i _ _
    rw [counts]
  · intro inside
    rw [counts, refcnt]
    exact shape.counted h.buf inside
  · exact shape.cached
  · exact shape.distinct

theorem Shape.grab (shape : Shape bc handles pinned) (inside : b < nbuf) (here : h.buf = b)
    (dev : (bc.bufs b).dev = h.dev) (blockno : (bc.bufs b).blockno = h.blockno) :
    Shape (bpin bc b) (h :: handles) pinned := by
  subst here
  apply shape.keep
  · rfl
  · rfl
  · intro other member
    rcases mem_cons.mp member with rfl | old
    · exact ⟨inside, dev, blockno⟩
    · exact shape.placed other old
  · intro i _ apart
    rw [useCount_cons, if_neg (Ne.symm apart), add_zero]
  · intro _
    have counted := shape.counted h.buf inside
    rw [useCount_cons, if_pos rfl]
    dsimp only
    omega
  · exact shape.cached
  · exact shape.distinct

theorem useCount_eq_zero (unused : useCount handles b = 0) (found : h ∈ handles) : h.buf ≠ b := by
  intro here
  have positive : 0 < useCount handles b := countP_pos_iff.mpr ⟨h, found, by simpa using here⟩
  omega

theorem Shape.recycle (shape : Shape bc handles pinned) (inside : b < nbuf) (here : h.buf = b)
    (unused : (bc.bufs b).refcnt = 0) (dev : buf.dev = h.dev) (blockno : buf.blockno = h.blockno)
    (refcnt : buf.refcnt = 1)
    (absent : ∀ i < nbuf, ¬ ((bc.bufs i).dev = h.dev ∧ (bc.bufs i).blockno = h.blockno)) :
    Shape (bc.put b buf) (h :: handles) pinned := by
  have counted := shape.counted b inside
  have elsewhere : ∀ other ∈ handles, other.buf ≠ b :=
    fun other found => useCount_eq_zero (by omega) found
  have unpinned : pinCount pinned buf = 0 := by
    rw [pinCount, if_neg]
    rintro ⟨root, found⟩
    obtain ⟨i, bound, facts⟩ := shape.cached _ found
    exact absent i bound ⟨facts.1.trans (root.symm.trans dev), facts.2.trans blockno⟩
  have before : ¬ ((bc.bufs b).dev = rootDev ∧ (bc.bufs b).blockno ∈ pinned) := by
    intro both
    rw [pinCount, if_pos both] at counted
    omega
  refine ⟨shape.ring, ?_, ?_, fun i bound => ?_, ?_, shape.distinct⟩
  · intro i first j second nonzero sameDev sameBlock
    by_cases iHere : i = b
    · by_cases jHere : j = b
      · rw [iHere, jHere]
      · rw [iHere, put_same, put_other jHere] at sameDev sameBlock
        exact absurd ⟨sameDev.symm.trans dev, sameBlock.symm.trans blockno⟩ (absent j second)
    by_cases jHere : j = b
    · rw [jHere, put_same, put_other iHere] at sameDev sameBlock
      exact absurd ⟨sameDev.trans dev, sameBlock.trans blockno⟩ (absent i first)
    · rw [put_other iHere] at nonzero sameDev sameBlock
      rw [put_other jHere] at sameDev sameBlock
      exact shape.unique i first j second nonzero sameDev sameBlock
  · intro other member
    rcases mem_cons.mp member with rfl | old
    · rw [here, put_same]
      exact ⟨inside, dev, blockno⟩
    · rw [put_other (elsewhere other old)]
      exact shape.placed other old
  · obtain rfl | at_b := eq_or_ne i b
    · rw [put_same, useCount_cons, if_pos here, unpinned, refcnt]
      omega
    · rw [put_other at_b, useCount_cons, if_neg (fun same => at_b (same.symm.trans here))]
      exact shape.counted i bound
  · intro place found
    obtain ⟨i, bound, facts⟩ := shape.cached place found
    refine ⟨i, bound, ?_⟩
    rw [put_other]
    · exact facts
    · rintro rfl
      exact before ⟨facts.1, facts.2 ▸ found⟩

theorem Shape.release (shape : Shape bc handles pinned) (found : h ∈ handles) :
    Shape (brelse bc h.buf) (handles.erase h) pinned := by
  have inside := (shape.placed h found).1
  have left : Shape (bc.put h.buf { bc.bufs h.buf with refcnt := (bc.bufs h.buf).refcnt - 1 })
      (handles.erase h) pinned := by
    apply shape.keep
    · rfl
    · rfl
    · intro other member
      exact shape.placed other (mem_of_mem_erase member)
    · intro i _ apart
      rw [useCount_erase found, if_neg (Ne.symm apart), add_zero]
    · intro _
      have counted := shape.counted h.buf inside
      rw [useCount_erase found, if_pos rfl] at counted
      dsimp only
      omega
    · exact shape.cached
    · exact shape.distinct
  rw [brelse]
  dsimp only
  split
  · refine ⟨?_, left.unique, left.placed, left.counted, left.cached, left.distinct⟩
    obtain ⟨order, ring, all⟩ := left.ring
    obtain ⟨front, back, rfl⟩ := append_of_mem ((Shape.mem_order all).mpr inside)
    refine ⟨h.buf :: (front ++ back), ring.unlink.insertFront ?_, perm_middle.symm.trans all⟩
    have distinct := ring.distinct
    simp only [nodup_cons, mem_append, mem_cons, nodup_append] at distinct ⊢
    grind
  · exact left

theorem Shape.pin (shape : Shape bc handles pinned) (found : h ∈ handles) (root : h.dev = rootDev)
    (fresh : h.blockno ∉ pinned) : Shape (bpin bc h.buf) handles (pinned ++ [h.blockno]) := by
  obtain ⟨inside, dev, blockno⟩ := shape.placed h found
  apply shape.keep
  · rfl
  · rfl
  · exact shape.placed
  · intro i bound apart
    have other : ¬ ((bc.bufs i).dev = rootDev ∧ (bc.bufs i).blockno = h.blockno) := by
      rintro ⟨sameDev, sameBlock⟩
      refine apart (shape.unique i bound h.buf inside ?_ ?_ (sameBlock.trans blockno.symm))
      · rw [sameDev]
        decide
      · rw [sameDev, dev, root]
    simp only [pinCount, mem_append, mem_singleton]
    grind
  · intro _
    have counted := shape.counted h.buf inside
    rw [pinCount, if_neg (fun both => fresh (blockno ▸ both.2))] at counted
    rw [pinCount, if_pos ⟨dev.trans root, by simp [blockno]⟩]
    dsimp only
    omega
  · intro place member
    rcases mem_append.mp member with old | new
    · exact shape.cached place old
    · rw [mem_singleton.mp new]
      exact ⟨h.buf, inside, dev.trans root, blockno⟩
  · rw [nodup_append]
    refine ⟨shape.distinct, by simp, fun place old other new => ?_⟩
    rintro rfl
    exact fresh (mem_singleton.mp new ▸ old)

theorem Shape.unpin (shape : Shape bc handles pinned) (found : h ∈ handles) (root : h.dev = rootDev)
    (listed : h.blockno ∈ pinned) : Shape (bunpin bc h.buf) handles (pinned.erase h.blockno) := by
  obtain ⟨inside, dev, blockno⟩ := shape.placed h found
  apply shape.keep
  · rfl
  · rfl
  · exact shape.placed
  · intro i bound apart
    have other : ¬ ((bc.bufs i).dev = rootDev ∧ (bc.bufs i).blockno = h.blockno) := by
      rintro ⟨sameDev, sameBlock⟩
      refine apart (shape.unique i bound h.buf inside ?_ ?_ (sameBlock.trans blockno.symm))
      · rw [sameDev]
        decide
      · rw [sameDev, dev, root]
    simp only [pinCount, shape.distinct.mem_erase_iff]
    grind
  · intro _
    have counted := shape.counted h.buf inside
    rw [pinCount, if_pos ⟨dev.trans root, blockno ▸ listed⟩] at counted
    rw [pinCount, if_neg]
    · dsimp only
      omega
    · rintro ⟨_, member⟩
      rw [blockno, shape.distinct.mem_erase_iff] at member
      exact member.1 rfl
  · intro place member
    exact shape.cached place (mem_of_mem_erase member)
  · exact shape.distinct.erase _

/-! The sleep lock of a buffer: one of its users has it, or none. -/

def Stage.active : Stage → Bool
  | .locked | .ready => true
  | .waiting | .releasing => false

def activeCount (handles : List Handle) (b : Nat) : Nat :=
  handles.countP fun h => h.buf = b ∧ h.stage.active = true

def Alone (bc : Bcache) (handles : List Handle) : Prop :=
  ∀ i, activeCount handles i = if (bc.bufs i).lock.isSome then 1 else 0

@[simp] theorem activeCount_cons : activeCount (h :: handles) i =
    activeCount handles i + if h.buf = i ∧ h.stage.active = true then 1 else 0 := by
  simp [activeCount, countP_cons]

theorem activeCount_erase (found : h ∈ handles) : activeCount handles i =
    activeCount (handles.erase h) i + if h.buf = i ∧ h.stage.active = true then 1 else 0 := by
  rw [← activeCount_cons]
  exact (perm_cons_erase found).countP_eq _

theorem Alone.change (alone : Alone bc handles) (found : h ∈ handles) (sameBuf : h'.buf = h.buf)
    (turn : (if h'.stage.active then 1 else 0) + (if (bc.bufs h.buf).lock.isSome then 1 else 0) =
      (if h.stage.active then 1 else 0) + (if buf.lock.isSome then 1 else 0)) :
    Alone (bc.put h.buf buf) (h' :: handles.erase h) := by
  intro i
  have before := alone i
  rw [activeCount_erase found] at before
  rw [activeCount_cons, sameBuf]
  obtain rfl | here := eq_or_ne h.buf i
  · rw [put_same]
    simp only [true_and] at before ⊢
    omega
  · rw [put_other (Ne.symm here)]
    simp only [here, false_and, if_false] at before ⊢
    exact before

theorem Alone.still (alone : Alone bc handles) (locks : ∀ i, (bc'.bufs i).lock = (bc.bufs i).lock) :
    Alone bc' handles := by
  intro i
  rw [locks]
  exact alone i

theorem Alone.cons (alone : Alone bc handles) (idle : h.stage.active = false) : Alone bc (h :: handles) := by
  intro i
  rw [activeCount_cons, if_neg (by simp [idle])]
  exact alone i

theorem Alone.erase (alone : Alone bc handles) (found : h ∈ handles) (idle : h.stage.active = false) :
    Alone bc (handles.erase h) := by
  intro i
  have before := alone i
  rwa [activeCount_erase found, if_neg (by simp [idle]), add_zero] at before

theorem Alone.unique (alone : Alone bc handles) (found : h ∈ handles) (active : h.stage.active = true)
    (other : h' ∈ handles.erase h) (sameBuf : h'.buf = h.buf) : h'.stage.active = false := by
  by_contra also
  have once := alone h.buf
  have twice : 0 < activeCount (handles.erase h) h.buf :=
    countP_pos_iff.mpr ⟨h', other, by simpa [sameBuf] using also⟩
  rw [activeCount_erase found, if_pos ⟨rfl, active⟩] at once
  split at once <;> omega

theorem put_lock (lock : buf.lock = (bc.bufs b).lock) (i : Nat) :
    ((bc.put b buf).bufs i).lock = (bc.bufs i).lock := by
  by_cases here : i = b
  · rw [here, put_same, lock]
  · rw [put_other here]

theorem shape_binit : Shape binit [] [] := by
  have alone : Ring (⟨fun _ => head, fun _ => head⟩ : Links Nat) head [] := ⟨⟨rfl, rfl⟩, by simp⟩
  have ring := alone.insertAll (nodup_range (n := nbuf)) fun b found => by
    rw [mem_singleton]
    exact (mem_range.mp found).ne
  rw [append_nil] at ring
  refine ⟨⟨_, ring, reverse_perm _⟩, fun i _ j _ nonzero => ?_, by simp, fun i _ => ?_, by simp, by simp⟩
  · exact absurd rfl nonzero
  · simp [binit, useCount, pinCount]

end Xv6.Bio

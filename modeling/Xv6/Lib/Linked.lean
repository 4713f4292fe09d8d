import Mathlib

/-!
Circular doubly linked lists through `next` and `prev` links, with a node that stands for
the list itself. `Ring links head order` says that the links thread the nodes of `order`,
in this order, between `head` and `head` again.
-/

namespace Xv6.Lib.Linked

open Function List

structure Links (α : Type*) where
  next : α → α
  prev : α → α

variable {α : Type*}

def Links.swap (links : Links α) : Links α := ⟨links.prev, links.next⟩

/-- The links thread the nodes of the list between `first` and `last`, in both directions. -/
def Linked (links : Links α) : α → List α → α → Prop
  | first, [], last => links.next first = last ∧ links.prev last = first
  | first, node :: rest, last =>
    links.next first = node ∧ links.prev node = first ∧ Linked links node rest last

structure Ring (links : Links α) (head : α) (order : List α) : Prop where
  linked : Linked links head order head
  distinct : (head :: order).Nodup

variable {links other : Links α} {first last head node : α} {front back order : List α}

theorem Linked.congr (linked : Linked links first order last)
    (next : ∀ x ∈ first :: order, other.next x = links.next x)
    (prev : ∀ x ∈ order ++ [last], other.prev x = links.prev x) : Linked other first order last := by
  induction order generalizing first with
  | nil =>
    obtain ⟨after, before⟩ := linked
    exact ⟨(next first (by simp)).trans after, (prev last (by simp)).trans before⟩
  | cons node rest ih =>
    obtain ⟨after, before, linked⟩ := linked
    refine ⟨(next first (by simp)).trans after, (prev node (by simp)).trans before, ?_⟩
    apply ih linked
    · intro x found
      exact next x (mem_cons_of_mem _ found)
    · intro x found
      exact prev x (mem_cons_of_mem _ found)

theorem linked_append : Linked links first (front ++ node :: back) last ↔
    Linked links first front node ∧ Linked links node back last := by
  induction front generalizing first with
  | nil => simp [Linked, and_assoc]
  | cons x rest ih => simp [Linked, ih, and_assoc]

theorem Linked.swap (linked : Linked links first order last) :
    Linked links.swap last order.reverse first := by
  induction order generalizing first with
  | nil => exact ⟨linked.2, linked.1⟩
  | cons node rest ih =>
    obtain ⟨after, before, linked⟩ := linked
    rw [reverse_cons, linked_append]
    exact ⟨ih linked, before, after⟩

theorem Ring.swap (ring : Ring links head order) : Ring links.swap head order.reverse := by
  refine ⟨ring.linked.swap, ?_⟩
  have distinct := nodup_cons.mp ring.distinct
  rw [nodup_cons, mem_reverse, nodup_reverse]
  exact distinct

theorem Linked.next_mem (linked : Linked links first order last) :
    links.next first ∈ order ++ [last] := by
  cases order with
  | nil | cons _ _ => simp [linked.1]

theorem Linked.prev_mem (linked : Linked links first order last) :
    links.prev last ∈ first :: order := by
  induction order generalizing first with
  | nil => simp [linked.2]
  | cons node rest ih => exact mem_cons_of_mem _ (ih linked.2.2)

theorem Linked.iterate_next (linked : Linked links first order last) :
    (List.range order.length).map (fun k => links.next^[k + 1] first) = order ∧
      links.next^[order.length + 1] first = last := by
  induction order generalizing first with
  | nil => exact ⟨rfl, linked.1⟩
  | cons node rest ih =>
    obtain ⟨after, _, linked⟩ := linked
    obtain ⟨nodes, arrives⟩ := ih linked
    rw [length_cons, range_succ_eq_map, map_cons, map_map]
    simp only [comp_def, iterate_succ, comp_apply, iterate_zero,
      id_eq, after] at nodes arrives ⊢
    exact ⟨by rw [nodes], arrives⟩

/-- The first node that passes a test, on the way along `step` until `stop`. -/
def seek [DecidableEq α] (step : α → α) (stop : α) (test : α → Bool) : Nat → α → Option α
  | 0, _ => none
  | fuel + 1, node =>
    if node = stop then none else if test node then some node else seek step stop test fuel (step node)

variable [DecidableEq α]

theorem Linked.seek_next (test : α → Bool) (linked : Linked links first order last)
    (outside : last ∉ order) :
    seek links.next last test (order.length + 1) (links.next first) = order.find? test := by
  induction order generalizing first with
  | nil => simp [seek, linked.1]
  | cons node rest ih =>
    obtain ⟨after, _, linked⟩ := linked
    have apart : node ≠ last := fun same => outside (by simp [same])
    rw [length_cons, seek, after, if_neg apart, List.find?_cons]
    cases passed : test node with
    | true => simp
    | false =>
      simp only [Bool.false_eq_true, if_false]
      exact ih linked fun found => outside (mem_cons_of_mem _ found)

theorem Ring.seek_next (test : α → Bool) (ring : Ring links head order) :
    seek links.next head test (order.length + 1) (links.next head) = order.find? test :=
  ring.linked.seek_next test (nodup_cons.mp ring.distinct).1

theorem Ring.seek_prev (test : α → Bool) (ring : Ring links head order) :
    seek links.prev head test (order.length + 1) (links.prev head) = order.reverse.find? test := by
  have found : seek links.swap.next head test (order.reverse.length + 1) (links.swap.next head) =
      order.reverse.find? test := ring.swap.seek_next test
  rwa [length_reverse] at found

def Links.setNext (links : Links α) (node value : α) : Links α :=
  { links with next := update links.next node value }

def Links.setPrev (links : Links α) (node value : α) : Links α :=
  { links with prev := update links.prev node value }

def Links.unlink (links : Links α) (node : α) : Links α :=
  let links := links.setPrev (links.next node) (links.prev node)
  links.setNext (links.prev node) (links.next node)

def Links.insertFront (links : Links α) (head node : α) : Links α :=
  let links := links.setNext node (links.next head)
  let links := links.setPrev node head
  let links := links.setPrev (links.next head) node
  links.setNext head node

theorem unlink_next {x : α} (apart : links.next node ≠ node) :
    (links.unlink node).next x = if x = links.prev node then links.next node else links.next x := by
  simp only [Links.unlink, Links.setNext, Links.setPrev, update_apply]
  rw [if_neg apart.symm]

theorem unlink_prev {x : α} :
    (links.unlink node).prev x = if x = links.next node then links.prev node else links.prev x := by
  simp only [Links.unlink, Links.setNext, Links.setPrev, update_apply]

theorem Linked.snip (linked : Linked links first front node) (after : Linked links node back last)
    (nexts : (first :: front ++ node :: back).Nodup) (prevs : (front ++ node :: back ++ [last]).Nodup) :
    Linked (links.unlink node) first (front ++ back) last := by
  have apart : links.next node ≠ node := by
    intro same
    have found := after.next_mem
    rw [same] at found
    simp only [append_assoc, nodup_append, cons_append, nodup_cons] at prevs
    exact prevs.2.1.1 found
  induction front generalizing first with
  | nil =>
    obtain ⟨toNode, fromNode⟩ := linked
    rw [nil_append]
    cases back with
    | nil =>
      obtain ⟨toLast, fromLast⟩ := after
      exact ⟨by rw [unlink_next apart, if_pos fromNode.symm, toLast], by
        rw [unlink_prev, if_pos toLast.symm, fromNode]⟩
    | cons x rest =>
      obtain ⟨toX, fromX, after⟩ := after
      refine ⟨by rw [unlink_next apart, if_pos fromNode.symm, toX], by
        rw [unlink_prev, if_pos toX.symm, fromNode], after.congr ?_ ?_⟩
      · intro y found
        rw [unlink_next apart, fromNode, if_neg]
        rintro rfl
        simp only [cons_append, nil_append, nodup_cons, mem_cons] at nexts found
        tauto
      intro y found
      rw [unlink_prev, toX, if_neg]
      rintro rfl
      simp only [nil_append, cons_append, nodup_cons] at prevs
      exact prevs.2.1 found
  | cons x rest ih =>
    obtain ⟨toX, fromX, linked⟩ := linked
    refine ⟨?_, ?_, ih linked (nodup_cons.mp nexts).2 (nodup_cons.mp prevs).2⟩
    · rw [unlink_next apart, if_neg]
      · exact toX
      rintro rfl
      have found := linked.prev_mem
      simp only [cons_append, nodup_cons, mem_cons, mem_append] at nexts found
      tauto
    rw [unlink_prev, if_neg]
    · exact fromX
    rintro rfl
    have found := after.next_mem
    simp only [cons_append, append_assoc, nodup_cons, mem_append,
      mem_cons] at prevs found
    tauto

theorem Ring.unlink (ring : Ring links head (front ++ node :: back)) :
    Ring (links.unlink node) head (front ++ back) := by
  have distinct := ring.distinct
  obtain ⟨before, after⟩ := linked_append.mp ring.linked
  refine ⟨before.snip after distinct ?_, ?_⟩
  · rw [nodup_append_comm]
    exact distinct
  · refine List.Nodup.sublist ?_ distinct
    exact cons_sublist_cons.mpr ((List.Sublist.refl _).append (sublist_cons_self _ _))

theorem Ring.insertFront (ring : Ring links head order) (fresh : node ∉ head :: order) :
    Ring (links.insertFront head node) head (node :: order) := by
  have distinct := ring.distinct
  have apart : head ≠ node := fun same => fresh (by simp [same])
  have inside := ring.linked.next_mem
  have other : links.next head ≠ node := by
    rintro same
    rw [same] at inside
    simp only [mem_append, mem_cons] at inside fresh
    tauto
  have next : ∀ x, (links.insertFront head node).next x =
      if x = head then node else if x = node then links.next head else links.next x := by
    intro x
    simp only [Links.insertFront, Links.setNext, Links.setPrev, update_apply]
  have prev : ∀ x, (links.insertFront head node).prev x =
      if x = links.next head then node else if x = node then head else links.prev x := by
    intro x
    simp only [Links.insertFront, Links.setNext, Links.setPrev, update_apply, if_neg apart]
  refine ⟨⟨by rw [next, if_pos rfl], by rw [prev, if_neg other.symm, if_pos rfl], ?_⟩, ?_⟩
  · cases order with
    | nil =>
      obtain ⟨toLast, fromLast⟩ := ring.linked
      exact ⟨by rw [next, if_neg apart.symm, if_pos rfl, toLast], by rw [prev, if_pos toLast.symm]⟩
    | cons x rest =>
      obtain ⟨toX, fromX, linked⟩ := ring.linked
      refine ⟨by rw [next, if_neg apart.symm, if_pos rfl, toX], by rw [prev, if_pos toX.symm],
        linked.congr ?_ ?_⟩
      · intro y found
        have notHead : y ≠ head := by
          rintro rfl
          exact (nodup_cons.mp distinct).1 found
        have notNode : y ≠ node := by
          rintro rfl
          exact fresh (mem_cons_of_mem _ found)
        rw [next, if_neg notHead, if_neg notNode]
      · intro y found
        have notX : y ≠ links.next head := by
          rw [toX]
          rintro rfl
          simp only [mem_append, nodup_cons, mem_cons] at found distinct
          tauto
        have notNode : y ≠ node := by
          rintro rfl
          simp only [mem_append, mem_cons] at found fresh
          tauto
        rw [prev, if_neg notX, if_neg notNode]
  · rw [nodup_cons] at distinct ⊢
    simp only [mem_cons, not_or] at fresh ⊢
    exact ⟨⟨apart, distinct.1⟩, nodup_cons.mpr ⟨fresh.2, distinct.2⟩⟩

theorem Ring.insertAll {nodes : List α} (ring : Ring links head order) (distinct : nodes.Nodup)
    (fresh : ∀ node ∈ nodes, node ∉ head :: order) :
    Ring (nodes.foldl (fun links node => links.insertFront head node) links) head
      (nodes.reverse ++ order) := by
  induction nodes generalizing links order with
  | nil => exact ring
  | cons node rest ih =>
    obtain ⟨apart, distinct⟩ := nodup_cons.mp distinct
    rw [foldl_cons, reverse_cons, append_assoc, singleton_append]
    apply ih (ring.insertFront (fresh node mem_cons_self)) distinct
    intro other found
    have old := fresh other (mem_cons_of_mem _ found)
    have different : other ≠ node := by
      rintro rfl
      exact apart found
    simp only [mem_cons, not_or] at old ⊢
    exact ⟨old.1, different, old.2⟩

end Xv6.Lib.Linked

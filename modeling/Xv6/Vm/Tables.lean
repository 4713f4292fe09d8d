import Xv6.Lib.Radix
import Xv6.Vm.Core

/-!
A page table as a map. `pageMap` is the partial map from virtual pages to physical pages and
flags that the three levels represent. A table is well formed if no page of the tree stands
at two places and none is on the free list.
-/

namespace Xv6.Vm

open Lib.Bytes Lib.Hoare Lib.Radix List
open Option hiding or_assoc
open Function

theorem has_or (pte other mask : Nat) : has (pte ||| other) mask = (has pte mask || has other mask) := by
  simp only [has, Nat.and_or_distrib_right, ne_eq, Nat.or_eq_zero_iff, decide_not, Bool.decide_and, Bool.not_and]

theorem has_pa2pte (pa mask : Nat) (low : mask < 2 ^ 10) : has (pa2pte pa) mask = false := by
  have none : pa2pte pa &&& mask = 0 := by
    refine Nat.eq_of_testBit_eq fun i => ?_
    rw [Nat.testBit_and, Nat.zero_testBit, pa2pte, Nat.testBit_mul_two_pow]
    by_cases small : i < 10
    · simp [not_le.mpr small]
    · rw [Nat.testBit_lt_two_pow (low.trans_le (Nat.pow_le_pow_right (by decide) (not_lt.mp small))),
        Bool.and_false]
  simp [has, none]

theorem pa2pte_or (pa : Nat) {flags : Nat} (low : flags < 2 ^ 10) : pa2pte pa ||| flags = pa2pte pa + flags := by
  rw [pa2pte, ← Nat.shiftLeft_eq, Nat.shiftLeft_add_eq_or_of_lt low]

theorem pgRoundDown_of_mod {a : Nat} (aligned : a % pgsize = 0) : pgRoundDown a = a :=
  Nat.div_mul_cancel (Nat.dvd_of_mod_eq_zero aligned)

variable {pa flags : Nat}

theorem pteFlags_or (low : flags < 2 ^ 10) : pteFlags (pa2pte pa ||| flags) = flags := by
  rw [pa2pte_or pa low, pteFlags, pa2pte, add_comm, Nat.add_mul_mod_self_right, Nat.mod_eq_of_lt low]

theorem pte2pa_or (low : flags < 2 ^ 10) (bound : pa < 2 ^ 64) : pte2pa (pa2pte pa ||| flags) = pgRoundDown pa := by
  rw [pa2pte_or pa low, pte2pa, pa2pte, pgRoundDown, pgsize]
  omega

theorem pte_lt (low : flags < 2 ^ 10) (bound : pa < 2 ^ 64) : pa2pte pa ||| flags < 256 ^ 8 := by
  rw [pa2pte_or pa low, pa2pte]
  omega

variable {mem : Nat → Page} {slot other : Slot} {pte : Nat}

theorem pteAt_putPte (bound : pte < 256 ^ 8) : pteAt (putPte mem slot pte) slot = pte := by
  rw [pteAt, putPte, update_self, load_store_of_lt bound]

theorem pteAt_putPte_ne (apart : other ≠ slot) : pteAt (putPte mem slot pte) other = pteAt mem other := by
  rw [pteAt, pteAt, putPte]
  by_cases page : other.1 = slot.1
  · have index : (other.2 : Nat) ≠ slot.2 := fun same => apart (Prod.ext page (Fin.ext same))
    rw [page, update_self]
    exact load_store_disjoint (by omega)
  · rw [update_of_ne page]

theorem putPte_page {page : Nat} (apart : page ≠ slot.1) : putPte mem slot pte page = mem page := update_of_ne apart ..

def child (mem : Nat → Page) (table : Nat) (i : Index) : Option Nat :=
  if has (pteAt mem (table, i)) pteV then some (pte2pa (pteAt mem (table, i))) else none

def indices (va : Nat) : Nat → List Index
  | 0 => []
  | level + 1 => px (level + 1) va :: indices va level

def node (mem : Nat → Page) (root : Nat) (path : List Index) : Option Nat := follow (child mem) root path

def slotOf (mem : Nat → Page) (root va : Nat) : Option Slot :=
  (node mem root (indices va 2)).map fun table => (table, px 0 va)

theorem indices_length (va level : Nat) : (indices va level).length = level := by
  induction level with
  | zero => rfl
  | succ level ih => rw [indices, length_cons, ih]

theorem px_low {path : List Index} {va level : Nat} (whole : path ++ indices va (level + 1) = indices va 2)
    (low : va < maxva) : path = [] → (px (level + 1) va).val < 256 := by
  rintro rfl
  have lengths := congrArg List.length whole
  rw [nil_append, indices_length, indices_length] at lengths
  obtain rfl : level = 1 := by omega
  simp only [px, maxva] at low ⊢
  omega

structure Leaf where
  pa : Nat
  flags : Nat
deriving DecidableEq

def leafOf (pte : Nat) : Option Leaf := if has pte pteV then some ⟨pte2pa pte, pteFlags pte⟩ else none

def pageMap (mem : Nat → Page) (root vpn : Nat) : Option Leaf :=
  if vpn * pgsize < maxva then (slotOf mem root (vpn * pgsize)).bind fun slot => leafOf (pteAt mem slot) else none

theorem px_page (level va : Nat) : px level (va / pgsize * pgsize) = px level va := by
  have shift : 2 ^ (12 + 9 * level) = 4096 * 2 ^ (9 * level) := by rw [Nat.pow_add]
  apply Fin.ext
  simp only [px, pgsize, shift]
  rw [← Nat.div_div_eq_div_mul, ← Nat.div_div_eq_div_mul, Nat.mul_div_cancel _ (by decide)]

theorem page_of_indices {a b : Nat} (low : a < maxva) (small : b < maxva) (same : indices a 2 = indices b 2)
    (last : px 0 a = px 0 b) : a / pgsize = b / pgsize := by
  obtain ⟨top, rest⟩ := List.cons.inj same
  obtain ⟨middle, -⟩ := List.cons.inj rest
  have two := Fin.val_eq_of_eq top
  have one := Fin.val_eq_of_eq middle
  have zero := Fin.val_eq_of_eq last
  simp only [px, maxva, pgsize] at *
  omega

theorem slotOf_page (mem : Nat → Page) (root va : Nat) : slotOf mem root (va / pgsize * pgsize) = slotOf mem root va := by
  simp only [slotOf, indices, px_page]

theorem pageMap_at {mem : Nat → Page} {root va : Nat} (low : va < maxva) :
    pageMap mem root (va / pgsize) = (slotOf mem root va).bind fun slot => leafOf (pteAt mem slot) := by
  rw [pageMap, if_pos ((Nat.div_mul_le_self va pgsize).trans_lt low), slotOf_page]

variable {st st' : State} {root va vpn : Nat} {stop : Stop → Prop}

theorem child_congr {table : Nat} (same : st'.mem table = st.mem table) (i : Index) :
    child st'.mem table i = child st.mem table i := by
  have entry : pteAt st'.mem (table, i) = pteAt st.mem (table, i) := by simp only [pteAt, same]
  rw [child, child, entry]

@[simp] theorem ends_readPte {post : Nat → State → Prop} :
    Ends (readPte slot) st stop post ↔ post (pteAt st.mem slot) st := Iff.rfl

variable {post : Unit → State → Prop}

@[simp] theorem ends_writePte :
    Ends (writePte slot pte) st stop post ↔ post () { st with mem := putPte st.mem slot pte } := Iff.rfl

theorem walkFrom_look (level table : Nat) {post : Option Slot → State → Prop} :
    Ends (walkFrom va false level table) st stop post ↔
      post ((follow (child st.mem) table (indices va level)).map fun table => (table, px 0 va)) st := by
  induction level generalizing table with
  | zero => exact Iff.rfl
  | succ level ih =>
    rw [walkFrom, ends_bind, ends_readPte, indices, follow, child]
    by_cases valid : has (pteAt st.mem (table, px (level + 1) va)) pteV = true
    · rw [if_pos valid, if_pos valid, bind_some, ih]
    · rw [if_neg valid, if_neg valid, if_neg Bool.false_ne_true, ends_pure, bind_none, map_none]

theorem ends_walk_look {post : Option Slot → State → Prop} (low : va < maxva) :
    Ends (walk root va false) st stop post ↔ post (slotOf st.mem root va) st := by
  rw [walk, if_neg (not_le.mpr low), walkFrom_look]
  rfl

/-- The next `n` calls of `kalloc` return a page. -/
def State.Supply (st : State) (n : Nat) : Prop := n ≤ st.freelist.length ∧ ∀ i < n, st.refuse i = false

structure Spent (st : State) (n : Nat) (st' : State) : Prop where
  supply : st.Supply n
  list : st'.freelist = st.freelist.drop n
  refuse : st'.refuse = fun i => st.refuse (i + n)

theorem Spent.refl (list : st'.freelist = st.freelist) (refuse : st'.refuse = st.refuse) : Spent st 0 st' :=
  ⟨⟨Nat.zero_le _, nofun⟩, list, refuse⟩

theorem Spent.supply_iff {n : Nat} (spent : Spent st n st') (m : Nat) : st'.Supply m ↔ st.Supply (n + m) := by
  obtain ⟨⟨enough, open'⟩, list, refuse⟩ := spent
  rw [State.Supply, State.Supply, list, refuse, length_drop]
  refine and_congr (by omega) ⟨fun later i low => ?_, fun all i low => all (i + n) (by omega)⟩
  by_cases early : i < n
  · exact open' i early
  · have here : st.refuse (i - n + n) = false := later (i - n) (by omega)
    rwa [Nat.sub_add_cancel (not_lt.mp early)] at here

theorem Spent.trans {n m : Nat} {last : State} (first : Spent st n st') (second : Spent st' m last) : Spent st (n + m) last := by
  refine ⟨(first.supply_iff m).mp second.supply, ?_, ?_⟩
  · rw [second.list, first.list, drop_drop]
  rw [second.refuse, first.refuse]
  funext i
  change st.refuse (i + m + n) = _
  rw [add_assoc, add_comm m n]

theorem State.Supply.mono {n m : Nat} (supply : st.Supply n) (less : m ≤ n) : st.Supply m :=
  ⟨less.trans supply.1, fun i low => supply.2 i (low.trans_le less)⟩

def State.take (st : State) (page : Nat) (rest : List Nat) : State :=
  ⟨update st.mem page fun _ => 5, rest, fun i => st.refuse (i + 1)⟩

theorem kalloc_ends {post : Option Nat → State → Prop}
    (some : ∀ page rest, st.freelist = page :: rest → st.Supply 1 → post (some page) (st.take page rest))
    (none : ¬ st.Supply 1 → post none { st with refuse := fun i => st.refuse (i + 1) }) :
    Ends kalloc st stop post := by
  rw [kalloc, ends_bind, ends_get, ends_bind, ends_set]
  split
  · next page rest refused free =>
    refine some page rest free ⟨?_, fun i low => ?_⟩
    · rw [free]
      exact Nat.succ_le_succ (Nat.zero_le _)
    · obtain rfl : i = 0 := by omega
      exact refused
  next impossible =>
  refine none fun supply => ?_
  cases free : st.freelist with
  | nil =>
    have enough := supply.1
    rw [free] at enough
    exact absurd enough (by decide)
  | cons page rest => exact impossible page rest (supply.2 0 Nat.one_pos) free

theorem take_spent {page : Nat} {rest : List Nat} (free : st.freelist = page :: rest) (supply : st.Supply 1) :
    Spent st 1 (st.take page rest) := by
  refine ⟨supply, ?_, rfl⟩
  rw [free]
  rfl

/-- The pages that `walk` has to add for an address, from a table with `level` levels to go. -/
def missing (mem : Nat → Page) (va : Nat) : Nat → Nat → Nat
  | 0, _ => 0
  | level + 1, table =>
    match child mem table (px (level + 1) va) with
    | some next => missing mem va level next
    | none => level + 1

theorem missing_empty {table : Nat} (empty : ∀ i, child mem table i = none) (level : Nat) :
    missing mem va level table = level := by
  cases level with
  | zero => rfl
  | succ level =>
    rw [missing]
    simp only [empty]

@[simp] theorem ends_memset {page : Nat} {byte : UInt8} :
    Ends (memset page byte) st stop post ↔ post () { st with mem := update st.mem page fun _ => byte } := Iff.rfl

structure Paid (st : State) (root va n : Nat) (st' : State) : Prop where
  spent : Spent st n st'
  tables : ∀ path, path.length ≤ 2 →
    ((node st'.mem root path).isSome ↔ (node st.mem root path).isSome ∨ path <+: indices va 2)

theorem node_of_append {mem : Nat → Page} {path : List Index} (rest : List Index) (found : (node mem root (path ++ rest)).isSome) :
    (node mem root path).isSome := by
  induction rest using List.reverseRecOn with
  | nil => rwa [append_nil] at found
  | append_singleton rest i ih =>
    refine ih ?_
    rw [← append_assoc, node, follow_snoc] at found
    cases at_path : follow (child mem) root (path ++ rest) with
    | none =>
      rw [at_path, bind_none] at found
      cases found
    | some table =>
      rw [node, at_path]
      rfl

structure Link (st : State) (root : Nat) (path : List Index) (i : Index) (table page : Nat) (st' : State) : Prop where
  short : path.length < 2
  there : node st.mem root path = some table
  missing : child st.mem table i = none
  user : path = [] → i.val < 256
  free : st.freelist = page :: st'.freelist
  mem : st'.mem = putPte (update st.mem page fun _ => 0) (table, i) (pa2pte page ||| pteV)

theorem Link.entry_old {path : List Index} {i : Index} {table page : Nat} (link : Link st root path i table page st')
    {other : Slot} (apart : other.1 ≠ page)
    (elsewhere : other ≠ (table, i)) : pteAt st'.mem other = pteAt st.mem other := by
  rw [link.mem, pteAt_putPte_ne elsewhere, pteAt, pteAt, update_of_ne apart]

def IsTable (mem : Nat → Page) (root page : Nat) : Prop := ∃ path, path.length ≤ 2 ∧ node mem root path = some page

def SameTables (st : State) (root : Nat) (st' : State) : Prop := ∀ page, IsTable st.mem root page → st'.mem page = st.mem page

namespace SameTables

variable (same : SameTables st root st')
include same

theorem node_eq {path : List Index} (short : path.length ≤ 2) : node st'.mem root path = node st.mem root path := by
  refine follow_congr (fun above page i less there => ?_) path short
  exact child_congr (same page ⟨above, less.le, there⟩) i

theorem isTable_iff (page : Nat) : IsTable st'.mem root page ↔ IsTable st.mem root page :=
  exists_congr fun _ => and_congr_right fun short => by rw [same.node_eq short]

theorem missing_eq (va level : Nat) (path : List Index) {table : Nat} (short : path.length + level ≤ 2)
    (there : node st.mem root path = some table) : missing st'.mem va level table = missing st.mem va level table := by
  induction level generalizing path table with
  | zero => rfl
  | succ level ih =>
    have leads := child_congr (same table ⟨path, by omega, there⟩) (px (level + 1) va)
    rw [missing, missing, leads]
    cases next : child st.mem table (px (level + 1) va) with
    | none => rfl
    | some page =>
      refine ih (path ++ [px (level + 1) va]) (by rw [length_append, length_singleton]; omega) ?_
      rw [node, follow_snoc, (show follow (child st.mem) root path = some table from there), bind_some, next]

theorem slotOf_eq (va : Nat) : slotOf st'.mem root va = slotOf st.mem root va := by
  rw [slotOf, slotOf, same.node_eq (indices_length va 2).le]

theorem pteAt_eq (at_slot : slotOf st.mem root va = some slot) : pteAt st'.mem slot = pteAt st.mem slot := by
  obtain ⟨leaf, found, rfl⟩ := map_eq_some_iff.mp at_slot
  rw [pteAt, pteAt, same leaf ⟨_, (indices_length va 2).le, found⟩]

theorem pageMap_eq : pageMap st'.mem root = pageMap st.mem root := by
  funext vpn
  rw [pageMap, pageMap]
  split
  · rw [same.slotOf_eq]
    cases found : slotOf st.mem root (vpn * pgsize) with
    | none => rw [bind_none, bind_none]
    | some slot => rw [bind_some, bind_some, same.pteAt_eq found]
  · rfl

end SameTables

def State.free (st : State) (page : Nat) : State := ⟨update st.mem page fun _ => 1, page :: st.freelist, st.refuse⟩

theorem free_sameTables {page : Nat} (data : ¬ IsTable st.mem root page) : SameTables st root (st.free page) := by
  intro other isTable
  refine update_of_ne ?_ ..
  rintro rfl
  exact data isTable

variable [Symbols]

/-- The pages of the tree are distinct and not free, nothing is mapped from `MAXVA` on, and
the entries above the last level carry no permissions. -/
structure WellFormed (st : State) (root : Nat) : Prop where
  tree : Tree (child st.mem) root 2
  low : ∀ i : Index, 256 ≤ i.val → child st.mem root i = none
  pointers : ∀ path table i, path.length < 2 → node st.mem root path = some table →
    has (pteAt st.mem (table, i)) pteV → has (pteAt st.mem (table, i)) (pteR ||| pteW ||| pteX) = false
  apart : ∀ path table, path.length ≤ 2 → node st.mem root path = some table → table ∉ st.freelist
  nodup : st.freelist.Nodup
  managed : ∀ page ∈ st.freelist, Managed page

structure Grew (st : State) (root : Nat) (map : Nat → Option Leaf) (st' : State) : Prop where
  wf : WellFormed st' root
  kept : ∀ path table, path.length ≤ 2 → node st.mem root path = some table → node st'.mem root path = some table
  taken : ∃ pages, st.freelist = pages ++ st'.freelist ∧
    ∀ page, page ∈ pages ↔ IsTable st'.mem root page ∧ ¬ IsTable st.mem root page
  map : pageMap st'.mem root = map
  frame : ∀ page, page ∉ st.freelist → ¬ IsTable st.mem root page → st'.mem page = st.mem page

namespace Grew

variable {map map' : Nat → Option Leaf} {last : State}

theorem refl (wf : WellFormed st root) : Grew st root (pageMap st.mem root) st :=
  ⟨wf, fun _ _ _ found => found,
    ⟨[], rfl, fun _ => iff_of_false not_mem_nil fun both => both.2 both.1⟩, rfl, fun _ _ _ => rfl⟩

theorem congr (grew : Grew st root map st') (mem : last.mem = st'.mem) (list : last.freelist = st'.freelist) :
    Grew st root map last := by
  obtain ⟨lastMem, lastFree, refuse⟩ := last
  dsimp only at mem list
  subst mem list
  exact ⟨⟨grew.wf.tree, grew.wf.low, grew.wf.pointers, grew.wf.apart, grew.wf.nodup, grew.wf.managed⟩, grew.kept,
    grew.taken, grew.map, grew.frame⟩

theorem isTable (grew : Grew st root map st') {page : Nat} (table : IsTable st.mem root page) : IsTable st'.mem root page := by
  obtain ⟨path, short, found⟩ := table
  exact ⟨path, short, grew.kept path page short found⟩

theorem free_sub (grew : Grew st root map st') {page : Nat} (free : page ∈ st'.freelist) : page ∈ st.freelist := by
  obtain ⟨pages, split, _⟩ := grew.taken
  rw [split]
  exact mem_append_right pages free

theorem table_or_free (grew : Grew st root map st') {page : Nat} (table : IsTable st'.mem root page) :
    IsTable st.mem root page ∨ page ∈ st.freelist := by
  obtain ⟨pages, split, new⟩ := grew.taken
  by_cases before : IsTable st.mem root page
  · exact .inl before
  · refine .inr ?_
    rw [split]
    exact mem_append_left _ ((new page).mpr ⟨table, before⟩)

theorem free_iff (grew : Grew st root map st') (page : Nat) :
    page ∈ st.freelist ↔ page ∈ st'.freelist ∨ IsTable st'.mem root page ∧ ¬ IsTable st.mem root page := by
  obtain ⟨pages, split, new⟩ := grew.taken
  rw [split, mem_append, new, or_comm]

theorem trans (first : Grew st root map st') (second : Grew st' root map' last) : Grew st root map' last := by
  obtain ⟨early, split, new⟩ := first.taken
  obtain ⟨late, split', new'⟩ := second.taken
  refine ⟨second.wf, fun path table short found => second.kept path table short (first.kept path table short found),
    ⟨early ++ late, ?_, fun page => ?_⟩, second.map, fun page outside other => ?_⟩
  · rw [split, split', append_assoc]
  · rw [mem_append, new, new']
    constructor
    · rintro (⟨now, before⟩ | ⟨now, before⟩)
      · exact ⟨second.isTable now, before⟩
      · exact ⟨now, fun was => before (first.isTable was)⟩
    rintro ⟨now, before⟩
    by_cases between : IsTable st'.mem root page
    · exact .inl ⟨between, before⟩
    · exact .inr ⟨now, between⟩
  · have later : page ∉ st'.freelist := fun free => outside (by rw [split]; exact mem_append_right _ free)
    have apart : ¬ IsTable st'.mem root page := fun now =>
      outside (by rw [split]; exact mem_append_left _ ((new page).mpr ⟨now, other⟩))
    rw [second.frame page later apart, first.frame page outside other]

end Grew

theorem managed_lt {page : Nat} (managed : Managed page) : page < 2 ^ 64 := managed.2.2.trans (by decide)

theorem WellFormed.not_free (wf : WellFormed st root) {page : Nat} (table : IsTable st.mem root page) : page ∉ st.freelist := by
  obtain ⟨path, short, found⟩ := table
  exact wf.apart path page short found

namespace Link

variable {path : List Index} {i : Index} {table page : Nat}
variable (wf : WellFormed st root) (link : Link st root path i table page st')
include wf link

theorem managed : Managed page := wf.managed page (link.free ▸ List.mem_cons_self)

theorem not_page {other : Nat} (isTable : IsTable st.mem root other) : other ≠ page := by
  rintro rfl
  exact wf.not_free isTable (link.free ▸ mem_cons_self)

theorem table_ne : table ≠ page := link.not_page wf ⟨path, link.short.le, link.there⟩

theorem entry_here : pteAt st'.mem (table, i) = pa2pte page ||| pteV := by
  rw [link.mem]
  exact pteAt_putPte (pte_lt (by decide) (managed_lt (link.managed wf)))

theorem entry_new (j : Index) : pteAt st'.mem (page, j) = 0 := by
  rw [link.mem, pteAt, putPte_page (Ne.symm (link.table_ne wf)), update_self]
  exact load_zero

theorem child_here : child st'.mem table i = some page := by
  have managed := link.managed wf
  rw [child, link.entry_here wf, if_pos, pte2pa_or (by decide) (managed_lt managed), pgRoundDown_of_mod managed.1]
  rw [has_or, has_pa2pte _ _ (by decide)]
  decide

theorem linked : Linked (child st.mem) root 2 path i page (child st'.mem) where
  short := link.short
  missing := by
    have there : follow (child st.mem) root path = some table := link.there
    rw [there, bind_some, link.missing]
  fresh other short found := link.not_page wf ⟨other, short, found⟩ rfl
  here other found := by
    obtain rfl := Option.some.inj (link.there.symm.trans found)
    exact link.child_here wf
  empty j := by
    rw [child, link.entry_new wf, if_neg (by decide)]
  others other was j short found elsewhere := by
    have apart : was ≠ page := link.not_page wf ⟨other, short.le, found⟩
    have entry : pteAt st'.mem (was, j) = pteAt st.mem (was, j) := by
      refine link.entry_old apart fun same => elsewhere ?_
      obtain ⟨rfl, rfl⟩ := Prod.mk.inj same
      rw [wf.tree.distinct short.le link.short.le found link.there]
    rw [child, child, entry]

theorem node_here : node st'.mem root (path ++ [i]) = some page := by
  have kept : follow (child st'.mem) root path = some table := (link.linked wf).kept link.short.le link.there
  rw [node, follow_snoc, kept, bind_some, link.child_here wf]

theorem new_or_kept {other : List Index} {now : Nat} (short : other.length ≤ 2) (found : node st'.mem root other = some now) :
    node st.mem root other = some now ∨ other = path ++ [i] ∧ now = page :=
  (link.linked wf).new_or_kept link.there short found

theorem isSome_iff {other : List Index} (short : other.length ≤ 2) :
    (node st'.mem root other).isSome ↔ (node st.mem root other).isSome ∨ other = path ++ [i] := by
  constructor
  · intro found
    obtain ⟨now, at_other⟩ := isSome_iff_exists.mp found
    rcases link.new_or_kept wf short at_other with before | ⟨new, _⟩
    · exact .inl (isSome_iff_exists.mpr ⟨now, before⟩)
    · exact .inr new
  rintro (found | rfl)
  · obtain ⟨was, at_other⟩ := isSome_iff_exists.mp found
    exact isSome_iff_exists.mpr ⟨was, (link.linked wf).kept short at_other⟩
  · exact isSome_iff_exists.mpr ⟨page, link.node_here wf⟩

theorem pageMap_eq : pageMap st'.mem root = pageMap st.mem root := by
  funext vpn
  rw [pageMap, pageMap]
  split
  · have length : (indices (vpn * pgsize) 2).length = 2 := rfl
    rw [slotOf, slotOf]
    cases now : node st'.mem root (indices (vpn * pgsize) 2) with
    | none =>
      cases was : node st.mem root (indices (vpn * pgsize) 2) with
      | none => rw [map_none, bind_none, bind_none]
      | some before =>
        rw [node, (link.linked wf).kept length.le was] at now
        cases now
    | some after =>
      rcases link.new_or_kept wf length.le now with was | ⟨place, rfl⟩
      · rw [was, map_some, bind_some, bind_some, link.entry_old]
        · exact link.not_page wf ⟨_, length.le, was⟩
        intro same
        have paths := wf.tree.distinct length.le link.short.le was
          ((Prod.mk.inj same).1 ▸ link.there)
        have short := link.short
        rw [← paths, length] at short
        exact lt_irrefl 2 short
      · have before : node st.mem root (indices (vpn * pgsize) 2) = none := by
          rw [place, node, follow_snoc, (show follow (child st.mem) root path = some table from link.there),
            bind_some, link.missing]
        rw [before, map_some, bind_some, link.entry_new wf, leafOf, if_neg (by decide)]
        rfl
  · rfl

theorem wellFormed : WellFormed st' root := by
  have nodup := wf.nodup
  rw [link.free] at nodup
  have later : ∀ other, other ∈ st'.freelist → other ∈ st.freelist := fun other free =>
    link.free ▸ mem_cons_of_mem page free
  refine ⟨(link.linked wf).tree wf.tree link.there, fun j high => ?_, fun other was j short found valid => ?_,
    fun other was short found => ?_, nodup.of_cons, fun other free => wf.managed other (later other free)⟩
  · have top : IsTable st.mem root root := ⟨[], Nat.zero_le 2, rfl⟩
    rw [← wf.low j high]
    have entry : pteAt st'.mem (root, j) = pteAt st.mem (root, j) := by
      refine link.entry_old (link.not_page wf top) fun same => ?_
      obtain ⟨rfl, rfl⟩ := Prod.mk.inj same
      have start : path = [] := wf.tree.distinct (Nat.le_of_lt link.short) (Nat.zero_le 2) link.there rfl
      exact absurd (link.user start) (not_lt.mpr high)
    rw [child, child, entry]
  · rcases link.new_or_kept wf short.le found with before | ⟨_, rfl⟩
    · by_cases here : (was, j) = (table, i)
      · rw [here, link.entry_here wf, has_or, has_pa2pte _ _ (by decide)]
        decide
      · rw [link.entry_old (link.not_page wf ⟨other, short.le, before⟩) here] at valid ⊢
        exact wf.pointers other was j short before valid
    · rw [link.entry_new wf] at valid
      exact absurd valid (by decide)
  · rcases link.new_or_kept wf short found with before | ⟨_, rfl⟩
    · exact fun free => wf.apart other was short before (later was free)
    · exact (nodup_cons.mp nodup).1

theorem grew : Grew st root (pageMap st.mem root) st' := by
  have new : IsTable st'.mem root page := by
    refine ⟨path ++ [i], ?_, link.node_here wf⟩
    rw [length_append, length_singleton]
    exact link.short
  refine ⟨link.wellFormed wf, fun other was short found => (link.linked wf).kept short found,
    ⟨[page], link.free, fun other => ?_⟩, link.pageMap_eq wf, fun other outside apart => ?_⟩
  · rw [mem_singleton]
    constructor
    · rintro rfl
      exact ⟨new, fun was => link.not_page wf was rfl⟩
    rintro ⟨⟨place, short, found⟩, before⟩
    rcases link.new_or_kept wf short found with was | ⟨_, same⟩
    · exact absurd ⟨place, short, was⟩ before
    · exact same
  · have notTable : other ≠ table := by
      rintro rfl
      exact apart ⟨path, link.short.le, link.there⟩
    have notPage : other ≠ page := by
      rintro rfl
      exact outside (link.free ▸ mem_cons_self)
    rw [link.mem, putPte_page notTable, update_of_ne notPage]

end Link

theorem walkFrom_alloc (low : va < maxva) (level : Nat) {path : List Index} {table : Nat} (wf : WellFormed st root)
    (whole : path ++ indices va level = indices va 2) (there : node st.mem root path = some table) :
    Ends (walkFrom va true level table) st stop fun slot st' => Grew st root (pageMap st.mem root) st' ∧
      ((∃ found, slot = some found ∧ slotOf st'.mem root va = some found ∧
        Paid st root va (missing st.mem va level table) st') ∨
        slot = none ∧ ¬ st.Supply (missing st.mem va level table)) := by
  induction level generalizing st path table with
  | zero =>
    rw [walkFrom, ends_pure]
    rw [indices, append_nil] at whole
    refine ⟨Grew.refl wf, .inl ⟨_, rfl, ?_, Spent.refl rfl rfl, fun other _ => ⟨.inl, fun either => either.elim id ?_⟩⟩⟩
    · rw [slotOf, ← whole, there, map_some]
    rintro ⟨rest, same⟩
    refine node_of_append rest ?_
    rw [same, ← whole, there]
    rfl
  | succ level ih =>
    have next : ∀ {mem : Nat → Page} {page : Nat}, node mem root path = some table →
        child mem table (px (level + 1) va) = some page → node mem root (path ++ [px (level + 1) va]) = some page := by
      intro mem page here leads
      rw [node, follow_snoc, (show follow (child mem) root path = some table from here), bind_some, leads]
    have whole' : path ++ [px (level + 1) va] ++ indices va level = indices va 2 := by
      rw [append_assoc]
      exact whole
    rw [walkFrom, ends_bind, ends_readPte]
    cases leads : child st.mem table (px (level + 1) va) with
    | some page =>
      have reads : missing st.mem va (level + 1) table = missing st.mem va level page := by
        rw [missing]
        simp only [leads]
      rw [reads]
      rw [child] at leads
      split at leads
      · next valid =>
        rw [if_pos valid, Option.some.inj leads]
        exact ih wf whole' (next there (by rw [child, if_pos valid, leads]))
      · cases leads
    | none =>
      have reads : missing st.mem va (level + 1) table = level + 1 := by
        rw [missing]
        simp only [leads]
      have invalid : ¬ has (pteAt st.mem (table, px (level + 1) va)) pteV = true := by
        intro valid
        rw [child, if_pos valid] at leads
        cases leads
      rw [reads, if_neg invalid, if_pos rfl, ends_bind]
      refine kalloc_ends (fun page rest free supply => ?_) fun empty => ?_
      · dsimp only
        rw [ends_bind, ends_memset, ends_bind, ends_writePte]
        generalize now : State.mk _ _ _ = linked
        have link : Link st root path (px (level + 1) va) table page linked := by
          subst now
          refine ⟨?_, there, leads, px_low whole low, free, ?_⟩
          · have lengths := congrArg List.length whole
            rw [length_append, indices_length, indices_length] at lengths
            omega
          · exact congrArg (fun mem => putPte mem _ _) (Function.update_idem ..)
        have spent : Spent st 1 linked := by
          subst now
          exact ⟨supply, by rw [free]; rfl, rfl⟩
        have grew := link.grew wf
        refine (ih grew.wf whole' (link.node_here wf)).mono fun slot last facts => ?_
        obtain ⟨grows, result⟩ := facts
        rw [missing_empty (fun i => (link.linked wf).empty i)] at result
        rw [grew.map] at grows
        refine ⟨grew.trans grows, ?_⟩
        rcases result with ⟨found, got, at_slot, more⟩ | ⟨got, short⟩
        · refine .inl ⟨found, got, at_slot, add_comm 1 level ▸ spent.trans more.spent, fun other short => ?_⟩
          rw [more.tables other short, link.isSome_iff wf short, or_assoc]
          refine or_congr_right ⟨fun either => either.elim (fun new => ?_) id, .inr⟩
          rw [new, ← whole']
          exact prefix_append ..
        · refine .inr ⟨got, fun enough => short ?_⟩
          rw [spent.supply_iff, add_comm]
          exact enough
      · refine ⟨(Grew.refl wf).congr rfl rfl, .inr ⟨rfl, fun enough => empty (enough.mono (Nat.succ_le_succ (Nat.zero_le _)))⟩⟩

theorem walk_alloc (wf : WellFormed st root) (low : va < maxva) :
    Ends (walk root va true) st stop fun slot st' => Grew st root (pageMap st.mem root) st' ∧
      ((∃ found, slot = some found ∧ slotOf st'.mem root va = some found ∧
        Paid st root va (missing st.mem va 2 root) st') ∨
        slot = none ∧ ¬ st.Supply (missing st.mem va 2 root)) := by
  rw [walk, if_neg (not_le.mpr low)]
  exact walkFrom_alloc low 2 wf (nil_append _) rfl

section Leaf

variable {path : List Index} {table : Nat}

theorem WellFormed.leaf_apart (wf : WellFormed st root) (at_slot : slotOf st.mem root va = some slot)
    (short : path.length < 2) (there : node st.mem root path = some table) : table ≠ slot.1 := by
  obtain ⟨leaf, found, rfl⟩ := map_eq_some_iff.mp at_slot
  rintro rfl
  have same := wf.tree.distinct short.le (indices_length va 2).le there found
  rw [same, indices_length] at short
  exact lt_irrefl 2 short

variable (wf : WellFormed st root) (at_slot : slotOf st.mem root va = some slot) (wrote : st'.mem = putPte st.mem slot pte)
include wf at_slot wrote

theorem node_putLeaf (short : path.length ≤ 2) : node st'.mem root path = node st.mem root path := by
  refine follow_congr (fun above page i less there => ?_) path short
  refine child_congr ?_ i
  rw [wrote, putPte_page (wf.leaf_apart at_slot less there)]

theorem isTable_putLeaf (page : Nat) : IsTable st'.mem root page ↔ IsTable st.mem root page :=
  exists_congr fun _ => and_congr_right fun short => by rw [node_putLeaf wf at_slot wrote short]

theorem slotOf_putLeaf (other : Nat) : slotOf st'.mem root other = slotOf st.mem root other := by
  rw [slotOf, slotOf, node_putLeaf wf at_slot wrote (indices_length other 2).le]

theorem pageMap_putLeaf (low : va < maxva) (bound : pte < 256 ^ 8) :
    pageMap st'.mem root = update (pageMap st.mem root) (va / pgsize) (leafOf pte) := by
  funext vpn
  by_cases here : vpn = va / pgsize
  · rw [here, update_self, pageMap_at low, slotOf_putLeaf wf at_slot wrote, at_slot, bind_some, wrote,
      pteAt_putPte bound]
  rw [update_of_ne here, pageMap, pageMap]
  split
  · next small =>
    rw [slotOf_putLeaf wf at_slot wrote]
    cases there : slotOf st.mem root (vpn * pgsize) with
    | none => rw [bind_none, bind_none]
    | some other =>
      rw [bind_some, bind_some, wrote, pteAt_putPte_ne]
      rintro rfl
      obtain ⟨leaf, found, rfl⟩ := map_eq_some_iff.mp there
      obtain ⟨leaf', found', pair⟩ := map_eq_some_iff.mp at_slot
      obtain ⟨rfl, last⟩ := Prod.mk.inj pair
      have same := wf.tree.distinct (indices_length _ 2).le (indices_length _ 2).le found found'
      have pages := page_of_indices small low same last.symm
      rw [Nat.mul_div_cancel _ (by decide)] at pages
      exact here pages
  · rfl

theorem wellFormed_putLeaf (list : st'.freelist = st.freelist) : WellFormed st' root := by
  have same : ∀ above page i, above.length < 2 → node st.mem root above = some page →
      pteAt st'.mem (page, i) = pteAt st.mem (page, i) := by
    intro above page i less there
    rw [pteAt, pteAt, wrote, putPte_page (wf.leaf_apart at_slot less there)]
  refine ⟨wf.tree.congr fun above page i less there => ?_, fun i high => ?_, fun above page i less there valid => ?_,
    fun above page short there => ?_, list ▸ wf.nodup, list ▸ wf.managed⟩
  · rw [child, child, same above page i less there]
  · rw [← wf.low i high, child, child, same [] root i Nat.two_pos rfl]
  · rw [node_putLeaf wf at_slot wrote less.le] at there
    rw [same above page i less there] at valid ⊢
    exact wf.pointers above page i less there valid
  · rw [node_putLeaf wf at_slot wrote short] at there
    rw [list]
    exact wf.apart above page short there

theorem grew_putLeaf (low : va < maxva) (bound : pte < 256 ^ 8) (list : st'.freelist = st.freelist) :
    Grew st root (update (pageMap st.mem root) (va / pgsize) (leafOf pte)) st' := by
  refine ⟨wellFormed_putLeaf wf at_slot wrote list, fun above page short there => ?_,
    ⟨[], by rw [list]; rfl, fun page => ?_⟩, pageMap_putLeaf wf at_slot wrote low bound, fun page _ apart => ?_⟩
  · rw [node_putLeaf wf at_slot wrote short, there]
  · rw [isTable_putLeaf wf at_slot wrote]
    exact iff_of_false not_mem_nil fun both => both.2 both.1
  · rw [wrote, putPte_page]
    rintro rfl
    obtain ⟨leaf, found, rfl⟩ := map_eq_some_iff.mp at_slot
    exact apart ⟨_, (indices_length va 2).le, found⟩

end Leaf

theorem SameTables.wellFormed (same : SameTables st root st') (wf : WellFormed st root) (apart : ∀ page, IsTable st.mem root page → page ∉ st'.freelist)
    (nodup : st'.freelist.Nodup) (managed : ∀ page ∈ st'.freelist, Managed page) : WellFormed st' root := by
  refine ⟨wf.tree.congr fun above page i less there => ?_, fun i high => ?_, fun above page i less there valid => ?_,
    fun above page short there => ?_, nodup, managed⟩
  · exact child_congr (same page ⟨above, less.le, there⟩) i
  · rw [← wf.low i high]
    exact child_congr (same root ⟨[], Nat.zero_le 2, rfl⟩) i
  · rw [same.node_eq less.le] at there
    have entry : pteAt st'.mem (page, i) = pteAt st.mem (page, i) := by
      rw [pteAt, pteAt, same page ⟨above, less.le, there⟩]
    rw [entry] at valid ⊢
    exact wf.pointers above page i less there valid
  · rw [same.node_eq short] at there
    exact apart page ⟨above, short, there⟩

theorem ends_kfree {page : Nat} (managed : Managed page) :
    Ends (kfree page) st stop post ↔ post () (st.free page) := by
  rw [kfree, if_pos managed]
  rfl

theorem free_wellFormed {page : Nat} (wf : WellFormed st root) (managed : Managed page) (used : page ∉ st.freelist)
    (data : ¬ IsTable st.mem root page) : WellFormed (st.free page) root := by
  refine (free_sameTables data).wellFormed wf (fun other isTable => ?_) (nodup_cons.mpr ⟨used, wf.nodup⟩) fun other free => ?_
  · refine not_mem_cons_of_ne_of_not_mem ?_ (wf.not_free isTable)
    rintro rfl
    exact data isTable
  · rcases mem_cons.mp free with rfl | old
    · exact managed
    · exact wf.managed other old

end Xv6.Vm

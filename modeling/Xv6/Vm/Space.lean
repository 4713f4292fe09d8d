import Xv6.Vm.Ranges

/-!
User address spaces. Below `TRAPFRAME` every mapped page belongs to the table that maps it:
it is not free, not a table, and mapped once. `Steady` describes what the operations that
only add pages do.
-/

namespace Xv6.Vm

open Lib.Bytes Lib.Hoare Lib.Radix List
open Function

def userPages : Nat := trapframe / pgsize

def Owned (st : State) (root page : Nat) : Prop :=
  IsTable st.mem root page ∨ ∃ v leaf, Maps (pageMap st.mem root) 0 userPages v leaf ∧ leaf.pa = page

/-- The pages that the table owns and the free ones are together the same as before. -/
def Conserved (st : State) (root : Nat) (st' : State) : Prop :=
  ∀ page, page ∈ st'.freelist ∨ Owned st' root page ↔ page ∈ st.freelist ∨ Owned st root page

variable {st st' last : State} {root va v page : Nat} {leaf : Leaf} {stop : Stop → Prop}

theorem maps_user : Maps (pageMap st.mem root) 0 userPages v leaf ↔ v < userPages ∧ pageMap st.mem root v = some leaf :=
  ⟨fun maps => maps.2, fun both => ⟨Nat.zero_le v, both⟩⟩

theorem userPages_low (low : v < userPages) : v * pgsize < maxva := by
  have count : userPages = 2 ^ 26 - 2 := by decide
  rw [count] at low
  simp only [pgsize, maxva]
  omega

theorem page_div (v : Nat) : v * pgsize / pgsize = v := Nat.mul_div_cancel v (by decide)

theorem ends_ismapped {va : Nat} {post : Bool → State → Prop} (low : va < maxva) :
    Ends (ismapped root va) st stop post ↔ post (pageMap st.mem root (va / pgsize)).isSome st := by
  rw [ismapped, ends_bind, ends_walk_look low, pageMap_at low]
  cases at_slot : slotOf st.mem root va with
  | none => rw [Option.bind_none, Option.isSome_none, ends_pure]
  | some slot =>
    rw [Option.bind_some, leafOf]
    dsimp only
    rw [ends_bind, ends_readPte, ends_pure]
    cases has (pteAt st.mem slot) pteV with
    | false | true => rfl

theorem has_pteFlags {pte mask : Nat} (low : mask < 2 ^ 10) : has (pteFlags pte) mask = has pte mask := by
  have same : pteFlags pte &&& mask = pte &&& mask := by
    refine Nat.eq_of_testBit_eq fun i => ?_
    rw [Nat.testBit_and, Nat.testBit_and, pteFlags, Nat.testBit_mod_two_pow]
    by_cases small : i < 10
    · rw [decide_eq_true small, Bool.true_and]
    · rw [Nat.testBit_lt_two_pow (low.trans_le (Nat.pow_le_pow_right (by decide) (not_lt.mp small))),
        Bool.and_false, Bool.and_false]
  rw [has, has, same]

def userAddr : Option Leaf → Nat
  | some leaf => if has leaf.flags pteU then leaf.pa else 0
  | none => 0

theorem ends_walkaddr {post : Nat → State → Prop} (low : va < maxva) :
    Ends (walkaddr root va) st stop post ↔ post (userAddr (pageMap st.mem root (va / pgsize))) st := by
  rw [walkaddr, if_neg (not_le.mpr low), ends_bind, ends_walk_look low, pageMap_at low]
  cases at_slot : slotOf st.mem root va with
  | none => rw [Option.bind_none, userAddr, ends_pure]
  | some slot =>
    rw [Option.bind_some, leafOf]
    dsimp only
    rw [ends_bind, ends_readPte]
    by_cases valid : has (pteAt st.mem slot) pteV = true
    · rw [if_neg (not_not_intro valid), if_pos valid, userAddr, has_pteFlags (by decide)]
      by_cases user : has (pteAt st.mem slot) pteU = true
      · rw [if_neg (not_not_intro user), if_pos user, ends_pure]
      · rw [if_pos user, if_neg user, ends_pure]
    · rw [if_pos valid, if_neg valid, userAddr, ends_pure]

structure Filled (st : State) (page : Nat) (content : Page) (st' : State) : Prop where
  list : st.freelist = page :: st'.freelist
  mem : st'.mem = update st.mem page content
  spent : Spent st 1 st'

theorem Filled.mine {content : Page} (filled : Filled st page content st') : page ∈ st.freelist := by
  rw [filled.list]
  exact mem_cons_self

theorem take_filled (content : Page) {rest : List Nat} (free : st.freelist = page :: rest) (supply : st.Supply 1) :
    Filled st page content { st.take page rest with mem := update (st.take page rest).mem page content } :=
  ⟨free, Function.update_idem .., supply, (take_spent free supply).list, rfl⟩

variable [Symbols]

structure Space (st : State) (root : Nat) : Prop where
  wf : WellFormed st root
  owned : Freeable st root 0 userPages

theorem Space.not_free (space : Space st root) (owned : Owned st root page) : page ∉ st.freelist := by
  rcases owned with isTable | ⟨v, leaf, maps, rfl⟩
  · exact space.wf.not_free isTable
  · exact space.owned.used v leaf maps

structure Steady (st : State) (root : Nat) (map : Nat → Option Leaf) (st' : State) : Prop where
  space : Space st' root
  map : pageMap st'.mem root = map
  kept : ∀ v leaf, pageMap st.mem root v = some leaf → pageMap st'.mem root v = some leaf
  conserved : Conserved st root st'
  free : ∀ page ∈ st'.freelist, page ∈ st.freelist
  frame : ∀ page, page ∉ st.freelist → ¬ IsTable st.mem root page → st'.mem page = st.mem page

namespace Steady

variable {map map' : Nat → Option Leaf}

theorem refl (space : Space st root) : Steady st root (pageMap st.mem root) st :=
  ⟨space, rfl, fun _ _ found => found, fun _ => Iff.rfl, fun _ free => free, fun _ _ _ => rfl⟩

theorem congr (steady : Steady st root map st') (mem : last.mem = st'.mem) (list : last.freelist = st'.freelist) :
    Steady st root map last := by
  obtain ⟨lastMem, lastFree, refuse⟩ := last
  dsimp only at mem list
  subst mem list
  have wf := steady.space.wf
  have owned := steady.space.owned
  exact ⟨⟨⟨wf.tree, wf.low, wf.pointers, wf.apart, wf.nodup, wf.managed⟩,
    ⟨owned.managed, owned.used, owned.data, owned.distinct⟩⟩, steady.map, steady.kept, steady.conserved, steady.free,
    steady.frame⟩

theorem outside (steady : Steady st root map st') (used : page ∉ st.freelist) (data : ¬ IsTable st.mem root page) :
    page ∉ st'.freelist ∧ ¬ IsTable st'.mem root page := by
  by_cases mine : Owned st root page
  · obtain ⟨v, leaf, maps, rfl⟩ := mine.resolve_left data
    obtain ⟨low, found⟩ := maps_user.mp maps
    have now : Maps (pageMap st'.mem root) 0 userPages v leaf :=
      maps_user.mpr ⟨low, steady.kept v leaf found⟩
    exact ⟨steady.space.owned.used v leaf now, steady.space.owned.data v leaf now⟩
  · have neither := mt (steady.conserved page).mp (not_or.mpr ⟨used, mine⟩)
    obtain ⟨first, second⟩ := not_or.mp neither
    exact ⟨first, fun isTable => second (.inl isTable)⟩

theorem trans (first : Steady st root map st') (second : Steady st' root map' last) : Steady st root map' last := by
  refine ⟨second.space, second.map, fun v leaf found => second.kept v leaf (first.kept v leaf found),
    fun page => (second.conserved page).trans (first.conserved page), fun page free => first.free page (second.free page free),
    fun page used data => ?_⟩
  · obtain ⟨used', data'⟩ := first.outside used data
    rw [second.frame page used' data', first.frame page used data]

end Steady

namespace Filled

variable {content : Page} (space : Space st root) (filled : Filled st page content st')
include space filled

theorem managed : Managed page := space.wf.managed page filled.mine

theorem same : SameTables st root st' := by
  intro table isTable
  rw [filled.mem]
  refine update_of_ne ?_ ..
  rintro rfl
  exact space.wf.not_free isTable filled.mine

theorem not_free : page ∉ st'.freelist := by
  have nodup := space.wf.nodup
  rw [filled.list] at nodup
  exact (nodup_cons.mp nodup).1

theorem wf : WellFormed st' root := by
  have nodup := space.wf.nodup
  rw [filled.list] at nodup
  have later : ∀ other ∈ st'.freelist, other ∈ st.freelist := fun other free => by
    rw [filled.list]
    exact mem_cons_of_mem page free
  exact (filled.same space).wellFormed space.wf (fun table isTable free => space.wf.not_free isTable (later table free)) nodup.of_cons
    fun other free => space.wf.managed other (later other free)

variable {map : Nat → Option Leaf} (grew : Grew st' root map last)
include grew

theorem not_table : ¬ IsTable last.mem root page := by
  intro isTable
  rcases grew.table_or_free isTable with before | free
  · exact space.wf.not_free (((filled.same space).isTable_iff page).mp before) filled.mine
  · exact filled.not_free space free

theorem table_or_free {other : Nat} (isTable : IsTable last.mem root other) : IsTable st.mem root other ∨ other ∈ st.freelist := by
  rcases grew.table_or_free isTable with before | free
  · exact .inl (((filled.same space).isTable_iff other).mp before)
  · refine .inr ?_
    rw [filled.list]
    exact mem_cons_of_mem page free

theorem frame {other : Nat} (used : other ∉ st.freelist) (data : ¬ IsTable st.mem root other) : last.mem other = st.mem other := by
  rw [filled.list] at used
  rw [grew.frame other (fun free => used (mem_cons_of_mem page free))
    fun isTable => data (((filled.same space).isTable_iff other).mp isTable), filled.mem]
  refine update_of_ne ?_ ..
  rintro rfl
  exact used mem_cons_self

theorem content_eq : last.mem page = content := by
  rw [grew.frame page (filled.not_free space) fun isTable => space.wf.not_free (((filled.same space).isTable_iff page).mp isTable) filled.mine,
    filled.mem, update_self]

theorem free_or_table (other : Nat) : other ∈ st.freelist ∨ IsTable st.mem root other ↔
    other = page ∨ other ∈ last.freelist ∨ IsTable last.mem root other := by
  have tables := (filled.same space).isTable_iff other
  have kept : IsTable st'.mem root other → IsTable last.mem root other := grew.isTable
  rw [filled.list, mem_cons, grew.free_iff, ← tables]
  by_cases before : IsTable st'.mem root other
  · simp [before, kept before]
  · simp [before]

end Filled

theorem Filled.mapped {content : Page} {flags : Nat} (space : Space st root) (filled : Filled st page content st')
    (low : v < userPages) (unmapped : pageMap st.mem root v = none)
    (grew : Grew st' root (update (pageMap st'.mem root) v (some ⟨page, flags⟩)) last) :
    Steady st root (update (pageMap st.mem root) v (some ⟨page, flags⟩)) last := by
  have map : pageMap last.mem root = update (pageMap st.mem root) v (some ⟨page, flags⟩) := by
    rw [grew.map, (filled.same space).pageMap_eq]
  have cases_on : ∀ w leaf, Maps (pageMap last.mem root) 0 userPages w leaf →
      w = v ∧ leaf.pa = page ∨ w ≠ v ∧ Maps (pageMap st.mem root) 0 userPages w leaf := by
    intro w leaf maps
    obtain ⟨small, found⟩ := maps_user.mp maps
    rw [map] at found
    by_cases here : w = v
    · rw [here, update_self] at found
      exact .inl ⟨here, by rw [← Option.some.inj found]⟩
    · rw [update_of_ne here] at found
      exact .inr ⟨here, maps_user.mpr ⟨small, found⟩⟩
  have kept : ∀ w leaf, pageMap st.mem root w = some leaf → pageMap last.mem root w = some leaf := by
    intro w leaf found
    rw [map, update_of_ne, found]
    rintro rfl
    rw [unmapped] at found
    cases found
  have sub : ∀ other ∈ last.freelist, other ∈ st.freelist := fun other free => by
    rw [filled.list]
    exact mem_cons_of_mem page (grew.free_sub free)
  refine ⟨⟨grew.wf, ⟨fun w leaf maps => ?_, fun w leaf maps => ?_, fun w leaf maps => ?_, fun w leaf w' leaf' maps maps' same => ?_⟩⟩,
    map, kept, fun other => ?_, sub, fun other used data => filled.frame space grew used data⟩
  · rcases cases_on w leaf maps with ⟨_, same⟩ | ⟨_, before⟩
    · rw [same]
      exact filled.managed space
    · exact space.owned.managed w leaf before
  · rcases cases_on w leaf maps with ⟨_, same⟩ | ⟨_, before⟩
    · rw [same]
      exact fun free => filled.not_free space (grew.free_sub free)
    · exact fun free => space.owned.used w leaf before (sub _ free)
  · rcases cases_on w leaf maps with ⟨_, same⟩ | ⟨_, before⟩
    · rw [same]
      exact filled.not_table space grew
    intro isTable
    rcases filled.table_or_free space grew isTable with was | free
    · exact space.owned.data w leaf before was
    · exact space.owned.used w leaf before free
  · rcases cases_on w leaf maps with ⟨rfl, here⟩ | ⟨_, before⟩
    · rcases cases_on w' leaf' maps' with ⟨rfl, _⟩ | ⟨_, before'⟩
      · rfl
      · exact absurd (by rw [← same, here]; exact filled.mine) (space.owned.used w' leaf' before')
    · rcases cases_on w' leaf' maps' with ⟨_, there⟩ | ⟨_, before'⟩
      · exact absurd (by rw [same, there]; exact filled.mine) (space.owned.used w leaf before)
      · exact space.owned.distinct w leaf w' leaf' before before' same
  · have tables := filled.free_or_table space grew other
    rw [Owned, Owned, ← or_assoc, ← or_assoc, tables]
    constructor
    · rintro (free | ⟨w, leaf, maps, rfl⟩)
      · exact .inl (.inr free)
      · rcases cases_on w leaf maps with ⟨_, same⟩ | ⟨_, before⟩
        · exact .inl (.inl same)
        · exact .inr ⟨w, leaf, before, rfl⟩
    rintro ((rfl | free) | ⟨w, leaf, maps, rfl⟩)
    · exact .inr ⟨v, ⟨other, flags⟩, maps_user.mpr ⟨low, by rw [map, update_self]⟩, rfl⟩
    · exact .inl free
    · obtain ⟨small, found⟩ := maps_user.mp maps
      exact .inr ⟨w, leaf, maps_user.mpr ⟨small, kept w leaf found⟩, rfl⟩

theorem Filled.refused {content : Page} (space : Space st root) (filled : Filled st page content st')
    (grew : Grew st' root (pageMap st'.mem root) last) : Steady st root (pageMap st.mem root) (last.free page) := by
  have data := filled.not_table space grew
  have used : page ∉ last.freelist := fun free => filled.not_free space (grew.free_sub free)
  have same : SameTables last root (last.free page) := free_sameTables data
  have map : pageMap (last.free page).mem root = pageMap st.mem root := by
    rw [same.pageMap_eq, grew.map, (filled.same space).pageMap_eq]
  have maps_iff : ∀ w leaf, Maps (pageMap (last.free page).mem root) 0 userPages w leaf ↔
      Maps (pageMap st.mem root) 0 userPages w leaf := fun w leaf => by rw [map]
  have listed : ∀ other, other ∈ (last.free page).freelist ↔ other = page ∨ other ∈ last.freelist := fun other => mem_cons
  have sub : ∀ other ∈ (last.free page).freelist, other ∈ st.freelist := by
    intro other free
    rcases (listed other).mp free with rfl | old
    · exact filled.mine
    · rw [filled.list]
      exact mem_cons_of_mem page (grew.free_sub old)
  refine ⟨⟨free_wellFormed grew.wf (filled.managed space) used data, ⟨fun w leaf maps => ?_, fun w leaf maps => ?_, fun w leaf maps => ?_,
    fun w leaf w' leaf' maps maps' => ?_⟩⟩, map, fun w leaf found => ?_, fun other => ?_, sub, fun other free apart => ?_⟩
  · exact space.owned.managed w leaf ((maps_iff w leaf).mp maps)
  · exact fun free => space.owned.used w leaf ((maps_iff w leaf).mp maps) (sub _ free)
  · intro isTable
    rcases filled.table_or_free space grew ((same.isTable_iff _).mp isTable) with was | free
    · exact space.owned.data w leaf ((maps_iff w leaf).mp maps) was
    · exact space.owned.used w leaf ((maps_iff w leaf).mp maps) free
  · exact space.owned.distinct w leaf w' leaf' ((maps_iff w leaf).mp maps) ((maps_iff w' leaf').mp maps')
  · rw [map, found]
  · have tables := filled.free_or_table space grew other
    rw [Owned, Owned, ← or_assoc, ← or_assoc, tables, listed, same.isTable_iff]
    simp only [maps_iff, or_assoc]
  · have apart' : other ≠ page := by
      rintro rfl
      exact free filled.mine
    rw [← filled.frame space grew free apart]
    exact update_of_ne apart' ..

theorem Filled.map_ends {content : Page} {perm : Nat} (space : Space st root) (filled : Filled st page content st')
    (low : v < userPages) (unmapped : pageMap st.mem root v = none) (flags : perm < 2 ^ 10) :
    Ends (mappages root (v * pgsize) pgsize page perm) st' stop fun ok last =>
      (ok = true ∧ Steady st root (update (pageMap st.mem root) v (some ⟨page, perm ||| pteV⟩)) last ∧
        last.mem page = content ∧ Paid st root (v * pgsize) (1 + missing st.mem (v * pgsize) 2 root) last) ∨
      ok = false ∧ Steady st root (pageMap st.mem root) (last.free page) ∧ ¬ st.Supply (1 + missing st.mem (v * pgsize) 2 root) := by
  have managed := filled.managed space
  have same := filled.same space
  have need : missing st'.mem (v * pgsize) 2 root = missing st.mem (v * pgsize) 2 root :=
    same.missing_eq _ 2 [] (Nat.le_refl 2) rfl
  refine (mapOne_ends (filled.wf space) (userPages_low low) flags (managed_lt managed) (by rw [same.pageMap_eq, unmapped])).mono
    fun ok last facts => ?_
  rw [pgRoundDown_of_mod managed.1, need] at facts
  rcases facts with ⟨done, grew, paid⟩ | ⟨failed, grew, short⟩
  · refine .inl ⟨done, filled.mapped space low unmapped grew, filled.content_eq space grew, filled.spent.trans paid.spent,
      fun path short => ?_⟩
    rw [paid.tables path short, same.node_eq short]
  · exact .inr ⟨failed, filled.refused space grew, fun enough => short ((filled.spent.supply_iff _).mpr enough)⟩

theorem Managed.ne_zero (managed : Managed page) : page ≠ 0 := by
  have loaded := Symbols.loaded
  have low := managed.2.1
  simp only [kernbase] at loaded
  omega

def lazyFlags : Nat := pteW ||| pteU ||| pteR ||| pteV

structure Faulted (st : State) (root v page : Nat) (st' : State) : Prop where
  unmapped : pageMap st.mem root v = none
  fresh : page ∈ st.freelist
  steady : Steady st root (update (pageMap st.mem root) v (some ⟨page, lazyFlags⟩)) st'
  zero : st'.mem page = fun _ => 0
  paid : Paid st root (v * pgsize) (1 + missing st.mem (v * pgsize) 2 root) st'

theorem vmfault_ends {psz : Nat} (space : Space st root) (bound : psz ≤ trapframe) :
    Ends (vmfault root psz (v * pgsize)) st stop fun pa st' =>
      (pa ≠ 0 ∧ v * pgsize < psz ∧ Faulted st root v pa st') ∨
      pa = 0 ∧ Steady st root (pageMap st.mem root) st' ∧
        (v * pgsize < psz → pageMap st.mem root v = none → ¬ st.Supply (1 + missing st.mem (v * pgsize) 2 root)) := by
  rw [vmfault]
  by_cases past : psz ≤ v * pgsize
  · rw [if_pos past, ends_pure]
    exact .inr ⟨rfl, Steady.refl space, fun below => absurd below (not_lt.mpr past)⟩
  have below := not_le.mp past
  have low : v < userPages := by
    rw [userPages, Nat.lt_div_iff_mul_lt (by decide)]
    have zero : trapframe % pgsize = 0 := by decide
    simp only [trapframe, trampoline, maxva, pgsize] at *
    omega
  have round : pgRoundDown (v * pgsize) = v * pgsize := pgRoundDown_of_mod (Nat.mul_mod_left v pgsize)
  rw [if_neg past, round, ends_bind, ends_ismapped (userPages_low low), page_div]
  cases found : pageMap st.mem root v with
  | some leaf =>
    rw [Option.isSome_some, if_pos rfl, ends_pure]
    exact .inr ⟨rfl, Steady.refl space, fun _ => by rintro ⟨⟩⟩
  | none =>
    rw [Option.isSome_none, if_neg Bool.false_ne_true, ends_bind]
    refine kalloc_ends (fun page rest free supply => ?_) fun empty => ?_
    · have filled := take_filled (fun _ => 0) free supply
      dsimp only
      rw [ends_bind, ends_memset]
      refine (filled.map_ends space low found (by decide)).seq fun ok last facts => ?_
      rcases facts with ⟨rfl, steady, zero, paid⟩ | ⟨rfl, steady, short⟩
      · rw [if_pos rfl, ends_pure]
        exact .inl ⟨(filled.managed space).ne_zero, below, found, filled.mine, steady, zero, paid⟩
      · rw [if_neg Bool.false_ne_true, ends_bind, ends_kfree (filled.managed space), ends_pure]
        exact .inr ⟨rfl, steady, fun _ _ => short⟩
    · rw [ends_pure]
      exact .inr ⟨rfl, (Steady.refl space).congr rfl rfl, fun _ _ enough => empty (enough.mono (Nat.le_add_right 1 _))⟩

end Xv6.Vm

import Xv6.Vm.Space

/-!
What a process sees of its memory, and the pages that the kernel faults in when it copies to
or from it. `byteAt` reads a page that is not mapped as zeros, which is what a page promised
by `sbrk` will hold once it is there, so that faulting it in does not change what is seen.
-/

namespace Xv6.Vm

open Lib.Bytes Lib.Hoare Lib.Radix
open Function

variable {st st' last : State} {root va v page psz : Nat} {leaf : Leaf} {stop : Stop → Prop}

def byteAt (st : State) (root va : Nat) : UInt8 :=
  match pageMap st.mem root (va / pgsize) with
  | some leaf => st.mem leaf.pa (va % pgsize)
  | none => 0

theorem byteAt_some (found : pageMap st.mem root (va / pgsize) = some leaf) :
    byteAt st root va = st.mem leaf.pa (va % pgsize) := by
  rw [byteAt, found]

theorem byteAt_none (none : pageMap st.mem root (va / pgsize) = none) : byteAt st root va = 0 := by
  rw [byteAt, none]

theorem user_of_below (below : v * pgsize < psz) (bound : psz ≤ trapframe) : v < userPages := by
  simp only [userPages, trapframe, trampoline, maxva, pgsize] at *
  omega

section

variable [Symbols]

/-- A space in which the user may not see the pages of the trapframe and the trampoline. -/
structure UserSpace (st : State) (root psz : Nat) : Prop where
  space : Space st root
  bound : psz ≤ trapframe
  user : ∀ v leaf, pageMap st.mem root v = some leaf → has leaf.flags pteU → v < userPages

structure Touched (st : State) (root psz lo hi : Nat) (contents : Nat → UInt8) (st' : State) : Prop where
  user : UserSpace st' root psz
  kept : ∀ v leaf, pageMap st.mem root v = some leaf → pageMap st'.mem root v = some leaf
  faulted : ∀ v leaf, pageMap st'.mem root v = some leaf → pageMap st.mem root v = some leaf ∨
    pageMap st.mem root v = none ∧ lo ≤ v ∧ v < hi ∧ v * pgsize < psz ∧ leaf.flags = lazyFlags ∧ leaf.pa ∈ st.freelist
  bytes : ∀ va, va / pgsize < userPages → byteAt st' root va = contents va
  conserved : Conserved st root st'
  free : ∀ page ∈ st'.freelist, page ∈ st.freelist
  frame : ∀ page, page ∉ st.freelist → ¬ Owned st root page → st'.mem page = st.mem page

namespace Touched

variable {lo hi : Nat} {contents contents' : Nat → UInt8}

theorem refl (user : UserSpace st root psz) : Touched st root psz lo hi (byteAt st root) st :=
  ⟨user, fun _ _ found => found, fun _ _ found => .inl found, fun _ _ => rfl, fun _ => Iff.rfl, fun _ free => free,
    fun _ _ _ => rfl⟩

theorem widen {lo' hi' : Nat} (touched : Touched st root psz lo hi contents st') (low : lo' ≤ lo) (high : hi ≤ hi') :
    Touched st root psz lo' hi' contents st' := by
  refine ⟨touched.user, touched.kept, fun v leaf found => ?_, touched.bytes, touched.conserved, touched.free, touched.frame⟩
  rcases touched.faulted v leaf found with before | ⟨none, from_v, to_v, rest⟩
  · exact .inl before
  · exact .inr ⟨none, low.trans from_v, to_v.trans_le high, rest⟩

theorem congr (touched : Touched st root psz lo hi contents st')
    (same : ∀ va, va / pgsize < userPages → contents va = contents' va) : Touched st root psz lo hi contents' st' :=
  ⟨touched.user, touched.kept, touched.faulted, fun va low => (touched.bytes va low).trans (same va low), touched.conserved,
    touched.free, touched.frame⟩

theorem trans (first : Touched st root psz lo hi contents st') (second : Touched st' root psz lo hi contents' last) :
    Touched st root psz lo hi contents' last := by
  refine ⟨second.user, fun v leaf found => second.kept v leaf (first.kept v leaf found), fun v leaf found => ?_, second.bytes,
    fun page => (second.conserved page).trans (first.conserved page), fun page free => first.free page (second.free page free),
    fun page used other => ?_⟩
  · rcases second.faulted v leaf found with before | ⟨none, from_v, to_v, below, flags, fresh⟩
    · exact first.faulted v leaf before
    have none' : pageMap st.mem root v = Option.none := by
      cases was : pageMap st.mem root v with
      | none => rfl
      | some old =>
        rw [first.kept v old was] at none
        cases none
    exact .inr ⟨none', from_v, to_v, below, flags, first.free _ fresh⟩
  · have neither := mt (first.conserved page).mp (not_or.mpr ⟨used, other⟩)
    obtain ⟨used', other'⟩ := not_or.mp neither
    rw [second.frame page used' other', first.frame page used other]

theorem of_faulted (user : UserSpace st root psz) (below : v * pgsize < psz) (faulted : Faulted st root v page st') :
    Touched st root psz v (v + 1) (byteAt st root) st' := by
  have steady := faulted.steady
  have map := steady.map
  refine ⟨⟨steady.space, user.bound, fun w leaf found allowed => ?_⟩, steady.kept, fun w leaf found => ?_, fun va low => ?_,
    steady.conserved, steady.free, fun other used apart => steady.frame other used fun isTable => apart (.inl isTable)⟩
  · by_cases here : w = v
    · rw [here]
      exact user_of_below below user.bound
    · rw [map, update_of_ne here] at found
      exact user.user w leaf found allowed
  · by_cases here : w = v
    · rw [here, map, update_self] at found
      cases found
      rw [here]
      exact .inr ⟨faulted.unmapped, Nat.le_refl v, Nat.lt_succ_self v, below, rfl, faulted.fresh⟩
    · rw [map, update_of_ne here] at found
      exact .inl found
  · cases found : pageMap st.mem root (va / pgsize) with
    | none =>
      rw [byteAt_none found]
      by_cases here : va / pgsize = v
      · have mapped : pageMap st'.mem root (va / pgsize) = some ⟨page, lazyFlags⟩ := by rw [map, here, update_self]
        rw [byteAt_some mapped, faulted.zero]
      · rw [byteAt_none]
        rw [map, update_of_ne here, found]
    | some leaf =>
      have maps := maps_user.mpr ⟨low, found⟩
      rw [byteAt_some found, byteAt_some (steady.kept _ leaf found),
        steady.frame _ (user.space.owned.used _ leaf maps) (user.space.owned.data _ leaf maps)]

theorem of_steady (user : UserSpace st root psz) (steady : Steady st root (pageMap st.mem root) st') :
    Touched st root psz lo hi (byteAt st root) st' := by
  refine ⟨⟨steady.space, user.bound, fun w leaf found allowed => ?_⟩, steady.kept, fun w leaf found => ?_, fun va low => ?_,
    steady.conserved, steady.free, fun other used apart => steady.frame other used fun isTable => apart (.inl isTable)⟩
  · rw [steady.map] at found
    exact user.user w leaf found allowed
  · rw [steady.map] at found
    exact .inl found
  · cases found : pageMap st.mem root (va / pgsize) with
    | none =>
      rw [byteAt_none found, byteAt_none]
      rw [steady.map, found]
    | some leaf =>
      have maps := maps_user.mpr ⟨low, found⟩
      rw [byteAt_some found, byteAt_some (steady.kept _ leaf found),
        steady.frame _ (user.space.owned.used _ leaf maps) (user.space.owned.data _ leaf maps)]

end Touched

/-- What `walkaddr` and `vmfault` make of a page: it is there for the user, or was faulted in,
or there is none. -/
theorem useraddr_ends (user : UserSpace st root psz) :
    Ends (useraddr root psz (v * pgsize)) st stop fun pa st' =>
      (∃ leaf, pageMap st.mem root v = some leaf ∧ has leaf.flags pteU ∧ pa = leaf.pa ∧ pa ≠ 0 ∧ st' = st) ∨
      (pa ≠ 0 ∧ v * pgsize < psz ∧ Faulted st root v pa st') ∨
      pa = 0 ∧ Steady st root (pageMap st.mem root) st' ∧ (∀ leaf, pageMap st.mem root v = some leaf → has leaf.flags pteU = false) ∧
        (v * pgsize < psz → pageMap st.mem root v = none → ¬ st.Supply (1 + missing st.mem (v * pgsize) 2 root)) := by
  rw [useraddr]
  by_cases low : v * pgsize < maxva
  · rw [ends_bind, ends_walkaddr low, page_div]
    have fault : (∀ leaf, pageMap st.mem root v = some leaf → has leaf.flags pteU = false) → userAddr (pageMap st.mem root v) = 0 := by
      intro private'
      cases found : pageMap st.mem root v with
      | none => rfl
      | some leaf => rw [userAddr, private' leaf found, if_neg Bool.false_ne_true]
    by_cases allowed : ∃ leaf, pageMap st.mem root v = some leaf ∧ has leaf.flags pteU
    · obtain ⟨leaf, found, open'⟩ := allowed
      have managed := user.space.owned.managed v leaf (maps_user.mpr ⟨user.user v leaf found open', found⟩)
      rw [found, userAddr, if_pos open', if_neg managed.ne_zero, ends_pure]
      exact .inl ⟨leaf, rfl, open', rfl, managed.ne_zero, rfl⟩
    have private' : ∀ leaf, pageMap st.mem root v = some leaf → has leaf.flags pteU = false := fun leaf found =>
      Bool.eq_false_iff.mpr fun open' => allowed ⟨leaf, found, open'⟩
    rw [fault private', if_pos rfl]
    refine (vmfault_ends user.space user.bound).mono fun pa st' facts => ?_
    rcases facts with ⟨nonzero, below, faulted⟩ | ⟨zero, steady, refused⟩
    · exact .inr (.inl ⟨nonzero, below, faulted⟩)
    · exact .inr (.inr ⟨zero, steady, private', refused⟩)
  · have high := not_lt.mp low
    have past : psz ≤ v * pgsize := user.bound.trans (Nat.le_trans (by decide) high)
    have none : pageMap st.mem root v = Option.none := by rw [pageMap, if_neg low]
    rw [ends_bind, walkaddr, if_pos high, ends_pure, if_pos rfl, vmfault, if_pos past, ends_pure]
    refine .inr (.inr ⟨rfl, Steady.refl user.space, fun leaf found => ?_, fun below => absurd below (not_lt.mpr past)⟩)
    rw [none] at found
    cases found

end

theorem empty_map (zero : st.mem root = fun _ => 0) (v : Nat) : pageMap st.mem root v = none := by
  rw [pageMap]
  split
  · have none : child st.mem root (px 2 (v * pgsize)) = none := by
      rw [child, pteAt, zero, load_zero, if_neg (by decide)]
    rw [slotOf, indices, node, follow, none, Option.bind_none, Option.map_none, Option.bind_none]
  · rfl

theorem emptyTable_space {root : Nat} (used : root ∉ emptyTable.freelist) : @Space smallKernel emptyTable root := by
  have never : ∀ v leaf, ¬ pageMap emptyTable.mem root v = some leaf := fun v leaf found => by
    rw [empty_map rfl v] at found
    cases found
  have wf : @WellFormed smallKernel emptyTable root :=
    @empty_wellFormed emptyTable root smallKernel rfl used (by decide) (by let := smallKernel; decide)
  let := smallKernel
  exact ⟨wf, fun v leaf maps => absurd maps.2.2 (never v leaf), fun v leaf maps => absurd maps.2.2 (never v leaf),
    fun v leaf maps => absurd maps.2.2 (never v leaf), fun v leaf _ _ maps => absurd maps.2.2 (never v leaf)⟩

end Xv6.Vm

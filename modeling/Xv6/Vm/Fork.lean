import Xv6.Vm.Faults

/-!
`uvmcopy`: the memory of a parent is copied into the table of a child page by page, the pages
that are missing being skipped. When a page cannot be had, the loop of `uvmunmap` covers the
pages done so far; of what was allocated, only tables of the child are left.
-/

namespace Xv6.Vm

open Lib.Bytes Lib.Hoare Lib.Radix
open Function

variable {st cur last : State} {old new sz k v page : Nat} {leaf : Leaf} {stop : Stop → Prop}

section

variable [Symbols]

structure Forking (st : State) (old new : Nat) : Prop where
  parent : Space st old
  child : WellFormed st new
  empty : ∀ v < userPages, pageMap st.mem new v = none
  apart : ∀ page, Owned st old page → ¬ IsTable st.mem new page

theorem Forking.space (forking : Forking st old new) : Space st new := by
  have never : ∀ v leaf, ¬ Maps (pageMap st.mem new) 0 userPages v leaf := by
    intro v leaf maps
    obtain ⟨low, found⟩ := maps_user.mp maps
    rw [forking.empty v low] at found
    cases found
  exact ⟨forking.child, fun v leaf maps => absurd maps (never v leaf), fun v leaf maps => absurd maps (never v leaf),
    fun v leaf maps => absurd maps (never v leaf), fun v leaf _ _ maps => absurd maps (never v leaf)⟩

structure Copied (st : State) (old new sz k : Nat) (cur : State) : Prop where
  bound : k ≤ userPages
  steady : Steady st new (pageMap cur.mem new) cur
  copies : ∀ v < k, ∀ leaf, pageMap st.mem old v = some leaf →
    ∃ pa ∈ st.freelist, pageMap cur.mem new v = some ⟨pa, leaf.flags⟩ ∧ cur.mem pa = st.mem leaf.pa
  only : ∀ v leaf, pageMap cur.mem new v = some leaf → v < userPages →
    v < k ∧ v * pgsize < sz ∧ ∃ origin, pageMap st.mem old v = some origin
  high : ∀ v, userPages ≤ v → pageMap cur.mem new v = pageMap st.mem new v

namespace Copied

theorem parent (forking : Forking st old new) (copied : Copied st old new sz k cur) (mine : Owned st old page) :
    cur.mem page = st.mem page :=
  copied.steady.frame page (forking.parent.not_free mine) (forking.apart page mine)

theorem same (forking : Forking st old new) (copied : Copied st old new sz k cur) : SameTables st old cur :=
  fun _ isTable => copied.parent forking (.inl isTable)

theorem skip (copied : Copied st old new sz k cur) (low : k < userPages) (none : pageMap st.mem old k = none) :
    Copied st old new sz (k + 1) cur := by
  refine ⟨low, copied.steady, fun v low leaf found => ?_, fun v leaf found low => ?_, copied.high⟩
  · by_cases here : v = k
    · rw [here, none] at found
      cases found
    · exact copied.copies v (by omega) leaf found
  · obtain ⟨before, rest⟩ := copied.only v leaf found low
    exact ⟨Nat.lt_succ_of_lt before, rest⟩

theorem kept {map : Nat → Option Leaf} (copied : Copied st old new sz k cur) (steady : Steady cur new map last) (low : v < userPages)
    (there : pageMap cur.mem new v = some leaf) : pageMap last.mem new v = some leaf ∧ last.mem leaf.pa = cur.mem leaf.pa := by
  have maps := maps_user.mpr ⟨low, there⟩
  have owned := copied.steady.space.owned
  exact ⟨steady.kept v leaf there, steady.frame _ (owned.used v leaf maps) (owned.data v leaf maps)⟩

theorem unmapped (copied : Copied st old new sz k cur) (low : k < userPages) : pageMap cur.mem new k = none := by
  cases found : pageMap cur.mem new k with
  | none => rfl
  | some leaf => exact absurd (copied.only k leaf found low).1 (lt_irrefl k)

theorem tables (copied : Copied st old new sz k cur) (steady : Steady cur new (pageMap cur.mem new) last) :
    Copied st old new sz k last := by
  have map := steady.map
  have bound := copied.bound
  refine ⟨bound, ?_, fun v low leaf found => ?_, ?_, ?_⟩
  · rw [map]
    exact copied.steady.trans steady
  · obtain ⟨pa, fresh, there, content⟩ := copied.copies v low leaf found
    obtain ⟨now, same⟩ := copied.kept steady (by omega) there
    exact ⟨pa, fresh, now, same.trans content⟩
  · rw [map]
    exact copied.only
  · rw [map]
    exact copied.high

theorem next (copied : Copied st old new sz k cur) (low : k < userPages) (below : k * pgsize < sz)
    (found : pageMap st.mem old k = some leaf) (fresh : page ∈ cur.freelist)
    (steady : Steady cur new (update (pageMap cur.mem new) k (some ⟨page, leaf.flags⟩)) last)
    (content : last.mem page = st.mem leaf.pa) : Copied st old new sz (k + 1) last := by
  have map := steady.map
  have all := copied.steady.trans steady
  refine ⟨low, ?_, fun v early origin there => ?_, fun v origin there user => ?_, fun v high => ?_⟩
  · rw [map]
    exact all
  · by_cases here : v = k
    · rw [here, found] at there
      cases there
      exact ⟨page, copied.steady.free page fresh, by rw [map, here, update_self], content⟩
    · obtain ⟨pa, mine, before, same⟩ := copied.copies v (by omega) origin there
      obtain ⟨now, unchanged⟩ := copied.kept steady (by omega) before
      exact ⟨pa, mine, now, unchanged.trans same⟩
  · by_cases here : v = k
    · rw [here]
      exact ⟨Nat.lt_succ_self k, below, leaf, found⟩
    · rw [map, update_of_ne here] at there
      obtain ⟨before, rest⟩ := copied.only v origin there user
      exact ⟨Nat.lt_succ_of_lt before, rest⟩
  · rw [map, update_of_ne (by omega)]
    exact copied.high v high

end Copied

structure Undone (st : State) (old new : Nat) (last : State) : Prop where
  wf : WellFormed last new
  map : pageMap last.mem new = pageMap st.mem new
  freed : ∀ page ∈ st.freelist, page ∈ last.freelist ∨ IsTable last.mem new page
  free : ∀ page ∈ last.freelist, page ∈ st.freelist
  frame : ∀ page, page ∉ st.freelist → ¬ IsTable st.mem new page → last.mem page = st.mem page

theorem Copied.undo (forking : Forking st old new) (copied : Copied st old new sz k cur) :
    Ends (uvmunmap new 0 k true) cur stop fun _ last => Undone st old new last := by
  have bound := copied.bound
  have count : userPages = 2 ^ 26 - 2 := by decide
  have top : (0 + k * pgsize) % 2 ^ 64 / pgsize = k := by
    simp only [pgsize]
    omega
  have steady := copied.steady
  have unmaps : Ends (uvmunmap new 0 k true) cur _ _ := uvmunmap_ends steady.space.wf (Nat.zero_mod pgsize)
    (by rw [top]; exact fun _ => steady.space.owned.sub (Nat.zero_le _) bound)
  rw [top] at unmaps
  refine unmaps.mono_stop (fun reason panics => ?_) fun _ last unmapped => ?_
  · have high := panics.2
    simp only [maxva, pgsize] at high
    omega
  -- a page that is unmapped is one of those allocated for the copies
  have mine : ∀ v leaf, Maps (pageMap cur.mem new) 0 k v leaf → leaf.pa ∈ st.freelist := by
    intro v leaf maps
    obtain ⟨early, _, origin, found⟩ := copied.only v leaf maps.2.2 (maps.2.1.trans_le bound)
    obtain ⟨pa, fresh, there, _⟩ := copied.copies v early origin found
    rw [maps.2.2] at there
    rw [Option.some.inj there]
    exact fresh
  refine ⟨unmapped.wf, ?_, fun page free => ?_, fun page free => ?_, fun page used data => ?_⟩
  · rw [unmapped.map]
    funext v
    rw [unmapRange]
    by_cases user : v < userPages
    · rw [forking.empty v user]
      split
      · rfl
      next outside =>
      cases found : pageMap cur.mem new v with
      | none => rfl
      | some leaf => exact absurd ⟨Nat.zero_le v, (copied.only v leaf found user).1⟩ outside
    · rw [if_neg (by omega)]
      exact copied.high v (not_lt.mp user)
  · rw [unmapped.free, unmapped.isTable_iff]
    rcases (steady.conserved page).mpr (.inl free) with still | isTable | ⟨v, leaf, maps, rfl⟩
    · exact .inl (.inl still)
    · exact .inr isTable
    · obtain ⟨user, found⟩ := maps_user.mp maps
      exact .inl (.inr ⟨rfl, v, leaf, ⟨Nat.zero_le v, (copied.only v leaf found user).1, found⟩, rfl⟩)
  · rcases (unmapped.free page).mp free with still | ⟨_, v, leaf, maps, rfl⟩
    · exact steady.free page still
    · exact mine v leaf maps
  · rw [unmapped.frame page (steady.outside used data).2 fun _ v leaf maps same => used (same ▸ mine v leaf maps),
      steady.frame page used data]

end

end Xv6.Vm

import Xv6.Vm.Tables

/-!
`mappages` and `uvmunmap` on the map that a page table represents: what one turn of each
loop does, and from it what the whole range becomes.
-/

namespace Xv6.Vm

open Lib.Bytes Lib.Hoare Lib.Radix
open Option hiding or_assoc
open Function

variable {st st' : State} {root va vpn pa pte : Nat} {slot : Slot} {stop : Stop → Prop}

def mapRange (map : Nat → Option Leaf) (vpn n pa flags : Nat) : Nat → Option Leaf := fun v =>
  if vpn ≤ v ∧ v < vpn + n then some ⟨pgRoundDown ((pa + (v - vpn) * pgsize) % 2 ^ 64), flags⟩ else map v

theorem mapRange_zero (map : Nat → Option Leaf) (vpn pa flags : Nat) : mapRange map vpn 0 pa flags = map := by
  funext v
  rw [mapRange, if_neg (by omega)]

theorem mapRange_succ (map : Nat → Option Leaf) (vpn n flags : Nat) (bound : pa < 2 ^ 64) :
    mapRange (update map vpn (some ⟨pgRoundDown pa, flags⟩)) (vpn + 1) n ((pa + pgsize) % 2 ^ 64) flags =
      mapRange map vpn (n + 1) pa flags := by
  funext v
  rw [mapRange, mapRange]
  obtain rfl | here := eq_or_ne v vpn
  · rw [if_neg (by omega), update_self, if_pos (by omega), Nat.sub_self, zero_mul, add_zero, Nat.mod_eq_of_lt bound]
  by_cases inside : vpn ≤ v ∧ v < vpn + (n + 1)
  · have place : ((pa + pgsize) % 2 ^ 64 + (v - (vpn + 1)) * pgsize) % 2 ^ 64 = (pa + (v - vpn) * pgsize) % 2 ^ 64 := by
      have next : v - vpn = v - (vpn + 1) + 1 := by omega
      rw [Nat.mod_add_mod, next, Nat.add_mul, one_mul]
      congr 1
      omega
    rw [if_pos (by omega), if_pos inside, place]
  · rw [if_neg (by omega), if_neg inside, update_of_ne here]

/-- Why `mappages` may panic: a page of the range is mapped, or the range ends above `MAXVA`. -/
def MapPanics (map : Nat → Option Leaf) (va n : Nat) (reason : Stop) : Prop :=
  (reason = .panic .walk ∧ maxva < va + n * pgsize) ∨
    reason = .panic .mappagesRemap ∧ ∃ v, va / pgsize ≤ v ∧ v < va / pgsize + n ∧ map v ≠ none

def Maps (map : Nat → Option Leaf) (lo hi v : Nat) (leaf : Leaf) : Prop := lo ≤ v ∧ v < hi ∧ map v = some leaf

def unmapRange (map : Nat → Option Leaf) (lo hi : Nat) : Nat → Option Leaf := fun v => if lo ≤ v ∧ v < hi then none else map v

theorem leafOf_zero : leafOf 0 = none := rfl

theorem unmapRange_one (map : Nat → Option Leaf) (v : Nat) : unmapRange map v (v + 1) = update map v none := by
  funext w
  rw [unmapRange]
  by_cases here : w = v
  · rw [if_pos (by omega), here, update_self]
  · rw [if_neg (by omega), update_of_ne here]

theorem maps_one {map : Nat → Option Leaf} {v w : Nat} {leaf : Leaf} :
    Maps map v (v + 1) w leaf ↔ w = v ∧ map v = some leaf := by
  rw [Maps]
  constructor
  · rintro ⟨from_v, to_v, found⟩
    obtain rfl : w = v := by omega
    exact ⟨rfl, found⟩
  · rintro ⟨rfl, found⟩
    exact ⟨le_rfl, Nat.lt_succ_self _, found⟩

section

variable [Symbols]

theorem mappagesFrom_step {last perm fuel a : Nat} {post : Bool → State → Prop} (wf : WellFormed st root) (low : a < maxva)
    (flags : perm < 2 ^ 10) (bound : pa < 2 ^ 64)
    (fail : ∀ st', Grew st root (pageMap st.mem root) st' → ¬ st.Supply (missing st.mem a 2 root) → post false st')
    (remap : pageMap st.mem root (a / pgsize) ≠ none → stop (.panic .mappagesRemap))
    (done : ∀ st', pageMap st.mem root (a / pgsize) = none →
      Grew st root (update (pageMap st.mem root) (a / pgsize) (some ⟨pgRoundDown pa, perm ||| pteV⟩)) st' →
      Paid st root a (missing st.mem a 2 root) st' →
      if a = last then post true st'
      else Ends (mappagesFrom root last perm fuel ((a + pgsize) % 2 ^ 64) ((pa + pgsize) % 2 ^ 64)) st' stop post) :
    Ends (mappagesFrom root last perm (fuel + 1) a pa) st stop post := by
  have small : perm ||| pteV < 2 ^ 10 := Nat.or_lt_two_pow flags (by decide)
  rw [mappagesFrom]
  refine (walk_alloc wf low).seq fun slot after facts => ?_
  obtain ⟨grew, ⟨found, rfl, at_slot, paid⟩ | ⟨rfl, short⟩⟩ := facts
  · have before : pageMap st.mem root (a / pgsize) = leafOf (pteAt after.mem found) := by
      rw [← grew.map, pageMap_at low, at_slot, bind_some]
    dsimp only
    rw [ends_bind, ends_readPte]
    by_cases valid : has (pteAt after.mem found) pteV = true
    · rw [if_pos valid, ends_throw]
      refine remap ?_
      rw [before, leafOf, if_pos valid]
      rintro ⟨⟩
    rw [leafOf, if_neg valid] at before
    have leaf : leafOf (pa2pte pa ||| perm ||| pteV) = some ⟨pgRoundDown pa, perm ||| pteV⟩ := by
      rw [Nat.or_assoc, leafOf, pte2pa_or small bound, pteFlags_or small, if_pos]
      rw [has_or, has_or, (show has pteV pteV = true from rfl), Bool.or_true, Bool.or_true]
    have written : Grew after root _ { after with mem := putPte after.mem found (pa2pte pa ||| perm ||| pteV) } :=
      grew_putLeaf grew.wf at_slot rfl low (Nat.or_assoc .. ▸ pte_lt small bound) rfl
    rw [leaf, grew.map] at written
    have kept : Paid st root a (missing st.mem a 2 root)
        { after with mem := putPte after.mem found (pa2pte pa ||| perm ||| pteV) } := by
      refine ⟨⟨paid.spent.supply, paid.spent.list, paid.spent.refuse⟩, fun path short => ?_⟩
      rw [node_putLeaf grew.wf at_slot rfl short]
      exact paid.tables path short
    have all := done _ before (grew.trans written) kept
    rw [if_neg valid, ends_bind, ends_writePte]
    split at all
    · next ends =>
      rw [if_pos ends]
      exact all
    · next goes =>
      rw [if_neg goes]
      exact all
  · exact fail after grew short

theorem mapOne_ends {perm : Nat} {v : Nat} (wf : WellFormed st root) (low : v * pgsize < maxva) (flags : perm < 2 ^ 10)
    (bound : pa < 2 ^ 64) (unmapped : pageMap st.mem root v = none) :
    Ends (mappages root (v * pgsize) pgsize pa perm) st stop fun ok st' =>
      (ok = true ∧ Grew st root (update (pageMap st.mem root) v (some ⟨pgRoundDown pa, perm ||| pteV⟩)) st' ∧
        Paid st root (v * pgsize) (missing st.mem (v * pgsize) 2 root) st') ∨
      ok = false ∧ Grew st root (pageMap st.mem root) st' ∧ ¬ st.Supply (missing st.mem (v * pgsize) 2 root) := by
  have page : v * pgsize / pgsize = v := Nat.mul_div_cancel v (by decide)
  have last : (v * pgsize + pgsize - pgsize) % 2 ^ 64 = v * pgsize := by
    rw [Nat.add_sub_cancel]
    exact Nat.mod_eq_of_lt (low.trans (by decide))
  rw [mappages, if_neg (not_not_intro (Nat.mul_mod_left v pgsize)), if_neg (not_not_intro (Nat.mod_self pgsize)),
    if_neg (by decide), last, Nat.div_self (by decide)]
  refine mappagesFrom_step wf low flags bound (fun st' grew short => .inr ⟨rfl, grew, short⟩) (fun mapped => ?_)
    fun st' _ grew spent => ?_
  · rw [page] at mapped
    exact absurd unmapped mapped
  · rw [if_pos rfl]
    rw [page] at grew
    exact .inl ⟨rfl, grew, spent⟩

theorem mappagesFrom_ends {last perm : Nat} (fuel a : Nat) (wf : WellFormed st root) (aligned : a % pgsize = 0)
    (flags : perm < 2 ^ 10) (bound : pa < 2 ^ 64) (some : 0 < fuel) (few : fuel < 2 ^ 52)
    (ends : last = (a + fuel * pgsize - pgsize) % 2 ^ 64) :
    Ends (mappagesFrom root last perm fuel a pa) st (MapPanics (pageMap st.mem root) a fuel) fun ok st' =>
      ∃ n ≤ fuel, (ok = true ↔ n = fuel) ∧
        Grew st root (mapRange (pageMap st.mem root) (a / pgsize) n pa (perm ||| pteV)) st' := by
  induction fuel generalizing st a pa with
  | zero => exact absurd some (lt_irrefl 0)
  | succ fuel ih =>
    by_cases low : a < maxva
    · refine mappagesFrom_step wf low flags bound (fun after grew _ => ?_) (fun mapped => ?_) fun after _ grew _ => ?_
      · refine ⟨0, Nat.zero_le _, iff_of_false Bool.false_ne_true (Nat.succ_ne_zero fuel).symm, ?_⟩
        rw [mapRange_zero]
        exact grew
      · exact .inr ⟨rfl, a / pgsize, le_rfl, by omega, mapped⟩
      · have next : (a + pgsize) % 2 ^ 64 = a + pgsize := Nat.mod_eq_of_lt (by simp only [maxva, pgsize] at low ⊢; omega)
        have page : (a + pgsize) / pgsize = a / pgsize + 1 := Nat.add_div_right a (by decide)
        split
        · next here =>
          have none : fuel = 0 := by
            rw [ends] at here
            simp only [maxva, pgsize] at here low few
            omega
          subst none
          refine ⟨1, Nat.le_refl 1, iff_of_true rfl rfl, ?_⟩
          rw [← mapRange_succ _ _ _ _ bound, mapRange_zero]
          exact grew
        · next goes =>
          have more : 0 < fuel := by
            refine pos_of_ne_zero fun none => goes ?_
            rw [ends, none]
            simp only [maxva, pgsize] at low ⊢
            omega
          have total : a + (fuel + 1) * pgsize = a + pgsize + fuel * pgsize := by
            rw [Nat.succ_mul]
            omega
          rw [total] at ends
          rw [next]
          refine (ih (a + pgsize) grew.wf (by rw [Nat.add_mod_right, aligned]) (Nat.mod_lt _ (Nat.two_pow_pos 64)) more
            (by omega) ends).mono_stop (fun reason panics => ?_) fun ok st' facts => ?_
          · rw [grew.map, MapPanics, page] at panics
            rcases panics with ⟨walks, high⟩ | ⟨remaps, v, from_v, to_v, mapped⟩
            · exact .inl ⟨walks, by omega⟩
            · rw [update_of_ne (by omega)] at mapped
              exact .inr ⟨remaps, v, by omega, by omega, mapped⟩
          obtain ⟨n, most, all, grows⟩ := facts
          refine ⟨n + 1, by omega, by rw [all]; omega, ?_⟩
          rw [grew.map, page, mapRange_succ _ _ _ _ bound] at grows
          exact grew.trans grows
    · rw [mappagesFrom, ends_bind, walk, if_pos (not_lt.mp low), ends_throw]
      refine .inl ⟨rfl, ?_⟩
      simp only [pgsize]
      omega

theorem mappages_ends {size perm : Nat} (wf : WellFormed st root) (aligned : va % pgsize = 0) (sized : size % pgsize = 0)
    (some : 0 < size) (few : size < 2 ^ 64) (flags : perm < 2 ^ 10) (bound : pa < 2 ^ 64) :
    Ends (mappages root va size pa perm) st (MapPanics (pageMap st.mem root) va (size / pgsize)) fun ok st' =>
      ∃ n ≤ size / pgsize, (ok = true ↔ n = size / pgsize) ∧
        Grew st root (mapRange (pageMap st.mem root) (va / pgsize) n pa (perm ||| pteV)) st' := by
  have whole : size / pgsize * pgsize = size := Nat.div_mul_cancel (Nat.dvd_of_mod_eq_zero sized)
  rw [mappages, if_neg (not_not_intro aligned), if_neg (not_not_intro sized), if_neg some.ne']
  refine mappagesFrom_ends _ _ wf aligned flags bound ?_ ?_ (by rw [whole])
  · simp only [pgsize] at sized ⊢
    omega
  · simp only [pgsize]
    omega

structure Freeable (st : State) (root lo hi : Nat) : Prop where
  managed : ∀ v leaf, Maps (pageMap st.mem root) lo hi v leaf → Managed leaf.pa
  used : ∀ v leaf, Maps (pageMap st.mem root) lo hi v leaf → leaf.pa ∉ st.freelist
  data : ∀ v leaf, Maps (pageMap st.mem root) lo hi v leaf → ¬ IsTable st.mem root leaf.pa
  distinct : ∀ v leaf w other, Maps (pageMap st.mem root) lo hi v leaf → Maps (pageMap st.mem root) lo hi w other →
    leaf.pa = other.pa → v = w

structure Unmapped (st : State) (root lo hi : Nat) (doFree : Bool) (st' : State) : Prop where
  wf : WellFormed st' root
  nodes : ∀ path, path.length ≤ 2 → node st'.mem root path = node st.mem root path
  map : pageMap st'.mem root = unmapRange (pageMap st.mem root) lo hi
  free : ∀ page, page ∈ st'.freelist ↔
    page ∈ st.freelist ∨ doFree = true ∧ ∃ v leaf, Maps (pageMap st.mem root) lo hi v leaf ∧ leaf.pa = page
  refuse : st'.refuse = st.refuse
  frame : ∀ page, ¬ IsTable st.mem root page →
    (doFree = true → ∀ v leaf, Maps (pageMap st.mem root) lo hi v leaf → leaf.pa ≠ page) → st'.mem page = st.mem page

namespace Unmapped

variable {lo hi : Nat} {doFree : Bool} {last : State}

theorem none (wf : WellFormed st root) (empty : ∀ v leaf, ¬ Maps (pageMap st.mem root) lo hi v leaf) :
    Unmapped st root lo hi doFree st := by
  refine ⟨wf, fun _ _ => rfl, funext fun v => ?_, fun page => ?_, rfl, fun _ _ _ => rfl⟩
  · rw [unmapRange]
    split
    · next inside =>
      cases found : pageMap st.mem root v with
      | none => rfl
      | some leaf => exact absurd ⟨inside.1, inside.2, found⟩ (empty v leaf)
    · rfl
  · refine ⟨.inl, fun either => either.resolve_right ?_⟩
    rintro ⟨_, v, leaf, maps, _⟩
    exact empty v leaf maps

theorem isTable_iff (unmapped : Unmapped st root lo hi doFree st') (page : Nat) :
    IsTable st'.mem root page ↔ IsTable st.mem root page :=
  exists_congr fun path => and_congr_right fun short => by rw [unmapped.nodes path short]

theorem maps_iff (unmapped : Unmapped st root lo hi doFree st') {up : Nat} {v : Nat} {leaf : Leaf} :
    Maps (pageMap st'.mem root) hi up v leaf ↔ Maps (pageMap st.mem root) hi up v leaf := by
  rw [Maps, Maps, unmapped.map]
  refine and_congr_right fun high => ?_
  rw [unmapRange, if_neg (by omega)]

theorem trans {up : Nat} (low : lo ≤ hi) (high : hi ≤ up) (first : Unmapped st root lo hi doFree st')
    (second : Unmapped st' root hi up doFree last) : Unmapped st root lo up doFree last := by
  have either : ∀ v leaf, Maps (pageMap st.mem root) lo up v leaf ↔
      Maps (pageMap st.mem root) lo hi v leaf ∨ Maps (pageMap st.mem root) hi up v leaf := by
    intro v leaf
    rw [Maps, Maps, Maps]
    constructor
    · rintro ⟨from_v, to_v, found⟩
      rcases Nat.lt_or_ge v hi with early | late
      · exact .inl ⟨from_v, early, found⟩
      · exact .inr ⟨late, to_v, found⟩
    · rintro (⟨from_v, to_v, found⟩ | ⟨from_v, to_v, found⟩)
      · exact ⟨from_v, by omega, found⟩
      · exact ⟨by omega, to_v, found⟩
  refine ⟨second.wf, fun path short => (second.nodes path short).trans (first.nodes path short), ?_, fun page => ?_,
    second.refuse.trans first.refuse, fun page apart spared => ?_⟩
  · rw [second.map, first.map]
    funext v
    simp only [unmapRange]
    by_cases late : hi ≤ v ∧ v < up
    · rw [if_pos late, if_pos (by omega)]
    · by_cases early : lo ≤ v ∧ v < hi
      · rw [if_neg late, if_pos early, if_pos (by omega)]
      · rw [if_neg late, if_neg early, if_neg (by omega)]
  · rw [second.free, first.free, or_assoc, ← and_or_left]
    refine or_congr_right (and_congr_right fun _ => ?_)
    simp only [either, first.maps_iff, or_and_right, exists_or]
  · have later : ¬ IsTable st'.mem root page := fun isTable => apart ((first.isTable_iff page).mp isTable)
    rw [second.frame page later fun frees v leaf maps => spared frees v leaf ((either v leaf).mpr (.inr (first.maps_iff.mp maps))),
      first.frame page apart fun frees v leaf maps => spared frees v leaf ((either v leaf).mpr (.inl maps))]

end Unmapped

theorem unmapped_putLeaf {doFree : Bool} {middle : State} (wf : WellFormed st root) (low : va < maxva)
    (freeable : doFree = true → Freeable st root (va / pgsize) (va / pgsize + 1)) (at_slot : slotOf st.mem root va = some slot)
    (valid : has (pteAt st.mem slot) pteV) (freed : middle = if doFree then st.free (pte2pa (pteAt st.mem slot)) else st) :
    Unmapped st root (va / pgsize) (va / pgsize + 1) doFree { middle with mem := putPte middle.mem slot 0 } := by
  have mapped : pageMap st.mem root (va / pgsize) = some ⟨pte2pa (pteAt st.mem slot), pteFlags (pteAt st.mem slot)⟩ := by
    rw [pageMap_at low, at_slot, bind_some, leafOf, if_pos valid]
  have here := (maps_one (v := va / pgsize)).mpr ⟨rfl, mapped⟩
  have pages : ∀ page, (doFree = true ∧ ∃ v leaf, Maps (pageMap st.mem root) (va / pgsize) (va / pgsize + 1) v leaf ∧ leaf.pa = page) ↔
      doFree = true ∧ page = pte2pa (pteAt st.mem slot) := by
    refine fun page => and_congr_right fun _ => ⟨?_, fun same => ⟨_, _, here, same.symm⟩⟩
    rintro ⟨v, leaf, maps, rfl⟩
    obtain ⟨_, found⟩ := maps_one.mp maps
    rw [mapped] at found
    rw [← Option.some.inj found]
  obtain ⟨leafTable, leafFound, leafSlot⟩ := map_eq_some_iff.mp at_slot
  have slotTable : IsTable st.mem root slot.1 := by
    rw [← leafSlot]
    exact ⟨_, (indices_length va 2).le, leafFound⟩
  have both : SameTables st root middle ∧ WellFormed middle root := by
    cases doFree with
    | false =>
      rw [freed]
      exact ⟨fun _ _ => rfl, wf⟩
    | true =>
      rw [freed]
      have free := freeable rfl
      exact ⟨free_sameTables (free.data _ _ here),
        free_wellFormed wf (free.managed _ _ here) (free.used _ _ here) (free.data _ _ here)⟩
  obtain ⟨same, wf'⟩ := both
  have at_slot' : slotOf middle.mem root va = some slot := by rw [same.slotOf_eq, at_slot]
  have grew : Grew middle root (update _ _ (leafOf 0)) { middle with mem := putPte middle.mem slot 0 } :=
    grew_putLeaf wf' at_slot' rfl low (by decide) rfl
  refine ⟨grew.wf, fun path short => ?_, ?_, fun page => ?_, ?_, fun page apart spared => ?_⟩
  · rw [node_putLeaf wf' at_slot' rfl short, same.node_eq short]
  · rw [grew.map, same.pageMap_eq, leafOf_zero, unmapRange_one]
  · rw [pages, freed]
    cases doFree with
    | false => simp
    | true => simp [State.free, or_comm]
  · rw [freed]
    cases doFree with
    | false | true => rfl
  · have notSlot : page ≠ slot.1 := by
      rintro rfl
      exact apart slotTable
    change putPte middle.mem slot 0 page = _
    rw [putPte_page notSlot, freed]
    cases doFree with
    | false => rfl
    | true => exact update_of_ne (fun same => spared rfl _ _ here same.symm) ..

theorem unmapPage_ends {doFree : Bool} (wf : WellFormed st root) (low : va < maxva)
    (freeable : doFree = true → Freeable st root (va / pgsize) (va / pgsize + 1)) :
    Ends (unmapPage root va doFree) st stop fun _ st' => Unmapped st root (va / pgsize) (va / pgsize + 1) doFree st' := by
  have nothing : pageMap st.mem root (va / pgsize) = none →
      ∀ v leaf, ¬ Maps (pageMap st.mem root) (va / pgsize) (va / pgsize + 1) v leaf := by
    rintro none v leaf maps
    rw [(maps_one.mp maps).2] at none
    cases none
  rw [unmapPage, ends_bind, ends_walk_look low]
  cases at_slot : slotOf st.mem root va with
  | none =>
    refine Unmapped.none wf (nothing ?_)
    rw [pageMap_at low, at_slot, bind_none]
  | some slot =>
    dsimp only
    rw [ends_bind, ends_readPte]
    by_cases valid : has (pteAt st.mem slot) pteV = true
    · rw [if_pos valid]
      cases doFree with
      | false =>
        rw [if_neg Bool.false_ne_true, ends_writePte]
        exact unmapped_putLeaf wf low freeable at_slot valid rfl
      | true =>
        have managed : Managed (pte2pa (pteAt st.mem slot)) := by
          refine (freeable rfl).managed (va / pgsize) ⟨pte2pa (pteAt st.mem slot), pteFlags (pteAt st.mem slot)⟩
            (maps_one.mpr ⟨rfl, ?_⟩)
          rw [pageMap_at low, at_slot, bind_some, leafOf, if_pos valid]
        rw [if_pos rfl, ends_bind, ends_kfree managed, ends_writePte]
        exact unmapped_putLeaf wf low freeable at_slot valid rfl
    · rw [if_neg valid, ends_pure]
      refine Unmapped.none wf (nothing ?_)
      rw [pageMap_at low, at_slot, bind_some, leafOf, if_neg valid]

theorem Freeable.sub {lo hi lo' hi' : Nat} (freeable : Freeable st root lo hi) (low : lo ≤ lo') (high : hi' ≤ hi) :
    Freeable st root lo' hi' := by
  have within : ∀ v leaf, Maps (pageMap st.mem root) lo' hi' v leaf → Maps (pageMap st.mem root) lo hi v leaf :=
    fun v leaf maps => ⟨low.trans maps.1, maps.2.1.trans_le high, maps.2.2⟩
  exact ⟨fun v leaf maps => freeable.managed v leaf (within v leaf maps), fun v leaf maps => freeable.used v leaf (within v leaf maps),
    fun v leaf maps => freeable.data v leaf (within v leaf maps),
    fun v leaf w other maps also => freeable.distinct v leaf w other (within v leaf maps) (within w other also)⟩

theorem Freeable.rest {lo hi up : Nat} (freeable : Freeable st root lo up) (low : lo ≤ hi) (high : hi ≤ up)
    (unmapped : Unmapped st root lo hi true st') : Freeable st' root hi up := by
  have within : ∀ v leaf, Maps (pageMap st'.mem root) hi up v leaf → Maps (pageMap st.mem root) lo up v leaf := by
    intro v leaf maps
    obtain ⟨from_v, to_v, found⟩ := unmapped.maps_iff.mp maps
    exact ⟨low.trans from_v, to_v, found⟩
  refine ⟨fun v leaf maps => freeable.managed v leaf (within v leaf maps), fun v leaf maps free => ?_,
    fun v leaf maps isTable => ?_, fun v leaf w other maps also => freeable.distinct v leaf w other (within v leaf maps) (within w other also)⟩
  · rcases (unmapped.free _).mp free with old | ⟨_, w, other, before, same⟩
    · exact freeable.used v leaf (within v leaf maps) old
    have equal := freeable.distinct w other v leaf ⟨before.1, before.2.1.trans_le high, before.2.2⟩ (within v leaf maps) same
    have early := before.2.1
    have late := maps.1
    omega
  · exact freeable.data v leaf (within v leaf maps) ((unmapped.isTable_iff _).mp isTable)

theorem uvmunmapFrom_ends {doFree : Bool} {upto : Nat} (fuel a : Nat) (wf : WellFormed st root) (aligned : a % pgsize = 0)
    (round : upto % pgsize = 0) (enough : upto ≤ a + fuel * pgsize)
    (freeable : doFree = true → Freeable st root (a / pgsize) (upto / pgsize)) :
    Ends (uvmunmapFrom root upto doFree fuel a) st (fun reason => reason = .panic .walk ∧ maxva < upto)
      fun _ st' => Unmapped st root (a / pgsize) (upto / pgsize) doFree st' := by
  have empty : upto ≤ a → ∀ v leaf, ¬ Maps (pageMap st.mem root) (a / pgsize) (upto / pgsize) v leaf := by
    intro past v leaf maps
    have less := Nat.div_le_div_right (c := pgsize) past
    have low := maps.1
    have high := maps.2.1
    omega
  induction fuel generalizing st a with
  | zero =>
    rw [uvmunmapFrom, ends_pure]
    exact Unmapped.none wf (empty (by omega))
  | succ fuel ih =>
    rw [uvmunmapFrom]
    by_cases more : a < upto
    · rw [if_pos more]
      by_cases low : a < maxva
      · have next : (a + pgsize) % 2 ^ 64 = a + pgsize := Nat.mod_eq_of_lt (by simp only [maxva, pgsize] at low ⊢; omega)
        have page : (a + pgsize) / pgsize = a / pgsize + 1 := Nat.add_div_right a (by decide)
        have inside : a / pgsize + 1 ≤ upto / pgsize := by
          simp only [pgsize] at aligned round more ⊢
          omega
        rw [next]
        refine (unmapPage_ends wf low fun frees => (freeable frees).sub le_rfl inside).seq fun _ after one => ?_
        rw [← page] at one inside
        have reaches : upto ≤ a + pgsize + fuel * pgsize := by
          rw [Nat.succ_mul] at enough
          omega
        refine (ih (a + pgsize) one.wf (by rw [Nat.add_mod_right, aligned]) reaches (fun frees => ?_) ?_).mono fun _ last rest => ?_
        · subst frees
          exact (freeable rfl).rest (by omega) inside one
        · intro past v leaf maps
          have less := Nat.div_le_div_right (c := pgsize) past
          have from_v := maps.1
          have to_v := maps.2.1
          omega
        · exact one.trans (by omega) inside rest
      · rw [unmapPage, ends_bind, ends_bind, walk, if_pos (not_lt.mp low), ends_throw]
        exact ⟨rfl, by omega⟩
    · rw [if_neg more, ends_pure]
      exact Unmapped.none wf (empty (not_lt.mp more))

theorem uvmunmap_ends {doFree : Bool} {npages : Nat} (wf : WellFormed st root) (aligned : va % pgsize = 0)
    (freeable : doFree = true → Freeable st root (va / pgsize) ((va + npages * pgsize) % 2 ^ 64 / pgsize)) :
    Ends (uvmunmap root va npages doFree) st (fun reason => reason = .panic .walk ∧ maxva < (va + npages * pgsize) % 2 ^ 64)
      fun _ st' => Unmapped st root (va / pgsize) ((va + npages * pgsize) % 2 ^ 64 / pgsize) doFree st' := by
  rw [uvmunmap, if_neg (not_not_intro aligned)]
  refine uvmunmapFrom_ends npages va wf aligned ?_ (Nat.mod_le _ _) freeable
  simp only [pgsize] at aligned ⊢
  omega

theorem Grew.new_empty (grew : Grew st root (pageMap st.mem root) st') {path : List Index} {page : Nat} (length : path.length = 2)
    (now : node st'.mem root path = some page) (before : node st.mem root path = none) (i : Index) :
    leafOf (pteAt st'.mem (page, i)) = none := by
  match path, length with
  | [top, middle], _ =>
    have half : top.val < 256 := by
      refine Nat.lt_of_not_le fun high => ?_
      rw [node, follow, grew.wf.low top high, bind_none] at now
      cases now
    have mid := middle.isLt
    have last := i.isLt
    -- the address whose indices are these three
    obtain ⟨va, low, two, one, zero⟩ : ∃ va, va < maxva ∧ px 2 va = top ∧ px 1 va = middle ∧ px 0 va = i := by
      refine ⟨top.val * 2 ^ 30 + middle.val * 2 ^ 21 + i.val * 2 ^ 12, ?_, Fin.ext ?_, Fin.ext ?_, Fin.ext ?_⟩
      · simp only [maxva]
        omega
      · simp only [px]
        omega
      · simp only [px]
        omega
      · simp only [px]
        omega
    have path_eq : indices va 2 = [top, middle] := by simp only [indices, two, one]
    have none : pageMap st.mem root (va / pgsize) = none := by
      rw [pageMap_at low, slotOf, path_eq, before, map_none, bind_none]
    rw [← grew.map, pageMap_at low, slotOf, path_eq, now, map_some, bind_some, zero] at none
    exact none

/-- The three operations on a well-formed table as operations on the map, for every address
and size and for every allocation failure. -/
theorem page_table_refines (wf : WellFormed st root) :
    (∀ va, Ends (walk root va true) st (fun reason => reason = .panic .walk ∧ maxva ≤ va) fun slot st' =>
      Grew st root (pageMap st.mem root) st' ∧ (∀ found, slot = some found → slotOf st'.mem root va = some found) ∧
        ∀ path page i, path.length = 2 → node st'.mem root path = some page → node st.mem root path = none →
          leafOf (pteAt st'.mem (page, i)) = none) ∧
    (∀ va size pa perm, va % pgsize = 0 → size % pgsize = 0 → 0 < size → size < 2 ^ 64 → pa < 2 ^ 64 → perm < 2 ^ 10 →
      Ends (mappages root va size pa perm) st (MapPanics (pageMap st.mem root) va (size / pgsize)) fun ok st' =>
        ∃ n ≤ size / pgsize, (ok = true ↔ n = size / pgsize) ∧
          Grew st root (mapRange (pageMap st.mem root) (va / pgsize) n pa (perm ||| pteV)) st') ∧
    ∀ va npages doFree, va % pgsize = 0 →
      (doFree = true → Freeable st root (va / pgsize) ((va + npages * pgsize) % 2 ^ 64 / pgsize)) →
      Ends (uvmunmap root va npages doFree) st (fun reason => reason = .panic .walk ∧ maxva < (va + npages * pgsize) % 2 ^ 64)
        fun _ st' => Unmapped st root (va / pgsize) ((va + npages * pgsize) % 2 ^ 64 / pgsize) doFree st' := by
  refine ⟨fun va => ?_, fun va size pa perm aligned sized some few bound flags => mappages_ends wf aligned sized some few flags bound,
    fun va npages doFree aligned freeable => uvmunmap_ends wf aligned freeable⟩
  by_cases low : va < maxva
  · refine (walk_alloc wf low).mono fun slot st' facts => ?_
    obtain ⟨grew, result⟩ := facts
    refine ⟨grew, fun found got => ?_, fun path page i length now before => grew.new_empty length now before i⟩
    rcases result with ⟨_, rfl, at_slot, _⟩ | ⟨rfl, _⟩
    · cases got
      exact at_slot
    · cases got
  · rw [walk, if_pos (not_lt.mp low), ends_throw]
    exact ⟨rfl, not_lt.mp low⟩

theorem empty_wellFormed (zero : st.mem root = fun _ => 0) (used : root ∉ st.freelist) (nodup : st.freelist.Nodup)
    (managed : ∀ page ∈ st.freelist, Managed page) : WellFormed st root := by
  have entry : ∀ i : Index, pteAt st.mem (root, i) = 0 := fun i => by
    rw [pteAt, zero]
    exact load_zero
  have none : ∀ i, child st.mem root i = Option.none := fun i => by rw [child, entry, if_neg (by decide)]
  have only : ∀ path page, node st.mem root path = some page → path = [] ∧ page = root := by
    intro path page found
    cases path with
    | nil => exact ⟨rfl, (Option.some.inj found).symm⟩
    | cons i path =>
      rw [node, follow, none, bind_none] at found
      cases found
  refine ⟨⟨fun _ _ first second => ?_⟩, fun i _ => none i, fun path page i _ found valid => ?_, fun path page _ found => ?_, nodup, managed⟩
  · rw [(only _ _ first).1, (only _ _ second).1]
  · rw [(only path page found).2, entry] at valid
    exact absurd valid (by decide)
  · rw [(only path page found).2]
    exact used

end

@[reducible] def smallKernel : Symbols := ⟨kernbase + pgsize, kernbase, ⟨le_rfl, le_rfl⟩, by decide⟩

def emptyTable : State := ⟨fun _ _ => 0, (List.range 4).map fun i => kernbase + (i + 2) * pgsize, fun _ => false⟩

theorem page_table_refines_empty : Ends (mappages (kernbase + pgsize) 0 pgsize kernbase pteR) emptyTable
    (MapPanics (pageMap emptyTable.mem (kernbase + pgsize)) 0 (pgsize / pgsize)) fun ok st' =>
      ∃ n ≤ pgsize / pgsize, (ok = true ↔ n = pgsize / pgsize) ∧
        @Grew smallKernel emptyTable (kernbase + pgsize)
          (mapRange (pageMap emptyTable.mem (kernbase + pgsize)) (0 / pgsize) n kernbase (pteR ||| pteV)) st' := by
  have wf : @WellFormed smallKernel emptyTable (kernbase + pgsize) :=
    @empty_wellFormed emptyTable (kernbase + pgsize) smallKernel rfl (by decide) (by decide)
      (by let := smallKernel; decide)
  exact (@page_table_refines emptyTable (kernbase + pgsize) smallKernel wf).2.1 0 pgsize kernbase pteR (by decide) (by decide)
    (by decide) (by decide) (by decide) (by decide)

end Xv6.Vm

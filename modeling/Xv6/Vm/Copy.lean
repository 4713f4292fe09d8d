import Xv6.Vm.Demand

/-!
`copyout`, `copyin` and `copyinstr`. Each turn of a loop finds or faults in one page and
moves the bytes of the range that lie in it.
-/

namespace Xv6.Vm

open Lib.Bytes Lib.Hoare Lib.Radix List
open Function

variable {st st' last : State} {root va v page psz : Nat} {leaf : Leaf} {stop : Stop → Prop}

theorem pagesOf_zero (va : Nat) : pagesOf va 0 = ∅ := rfl

theorem mem_pagesOf {len : Nat} : v ∈ pagesOf va len ↔ ∃ k < len, (va + k) / pgsize = v := by
  simp [pagesOf]

theorem pagesOf_step {len n : Nat} (some : 0 < len) (first : n = min (pgsize - va % pgsize) len) :
    pagesOf va len = insert (va / pgsize) (pagesOf (va / pgsize * pgsize + pgsize) (len - n)) := by
  ext w
  rw [Finset.mem_insert, mem_pagesOf, mem_pagesOf]
  simp only [pgsize] at *
  constructor
  · rintro ⟨k, low, rfl⟩
    by_cases here : (va + k) / 4096 = va / 4096
    · exact .inl here
    · exact .inr ⟨k - n, by omega, by congr 1; omega⟩
  · rintro (rfl | ⟨k, low, rfl⟩)
    · exact ⟨0, some, rfl⟩
    · exact ⟨k + n, by omega, by congr 1; omega⟩

theorem not_mem_next (len : Nat) : va / pgsize ∉ pagesOf (va / pgsize * pgsize + pgsize) len := by
  rw [mem_pagesOf]
  rintro ⟨k, _, same⟩
  simp only [pgsize] at same
  omega

theorem next_page (low : v < userPages) : (v * pgsize + pgsize) % 2 ^ 64 = v * pgsize + pgsize := by
  have count : userPages = 2 ^ 26 - 2 := by decide
  refine Nat.mod_eq_of_lt ?_
  simp only [pgsize]
  omega

theorem overwrite_nil (f : Nat → UInt8) (off : Nat) : overwrite f off [] = f := by
  funext x
  simp [overwrite]

theorem overwrite_congr {f g : Nat → UInt8} {off x : Nat} {bytes : List UInt8} (same : f x = g x) :
    overwrite f off bytes x = overwrite g off bytes x := by
  rw [overwrite, overwrite, same]

theorem overwrite_append (f : Nat → UInt8) (off : Nat) (first second : List UInt8) :
    overwrite (overwrite f off first) (off + first.length) second = overwrite f off (first ++ second) := by
  funext x
  simp only [overwrite]
  by_cases inside : off ≤ x
  · rw [if_pos inside]
    by_cases late : off + first.length ≤ x
    · rw [if_pos late, List.getElem?_append_right (by omega), List.getElem?_eq_none (by omega : first.length ≤ x - off),
        Option.getD_none, Nat.sub_sub, if_pos inside]
    · rw [if_neg late, List.getElem?_append_left (by omega), if_pos inside]
  · rw [if_neg (by omega), if_neg inside, if_neg inside]

section

variable [Symbols]

theorem stored_sameTables {content : Page} (space : Space st root) (low : v < userPages) (found : pageMap st.mem root v = some leaf)
    (stored : st'.mem = update st.mem leaf.pa content) : SameTables st root st' := by
  intro other isTable
  rw [stored]
  refine update_of_ne ?_ ..
  rintro rfl
  exact space.owned.data v leaf (maps_user.mpr ⟨low, found⟩) isTable

theorem storeBytes_touched {off : Nat} {bytes : List UInt8} (user : UserSpace st root psz) (low : v < userPages)
    (found : pageMap st.mem root v = some leaf) (fits : off + bytes.length ≤ pgsize)
    (stored : st'.mem = update st.mem leaf.pa (overwrite (st.mem leaf.pa) off bytes)) (list : st'.freelist = st.freelist) {lo hi : Nat} :
    Touched st root psz lo hi (overwrite (byteAt st root) (v * pgsize + off) bytes) st' := by
  have maps := maps_user.mpr ⟨low, found⟩
  have same := stored_sameTables user.space low found stored
  have map := same.pageMap_eq
  have wf := user.space.wf
  have owned := user.space.owned
  have maps_iff : ∀ w leaf', Maps (pageMap st'.mem root) 0 userPages w leaf' ↔
      Maps (pageMap st.mem root) 0 userPages w leaf' := fun w leaf' => by rw [map]
  refine ⟨⟨⟨same.wellFormed wf (fun _ isTable => list ▸ wf.not_free isTable) (list ▸ wf.nodup) (list ▸ wf.managed), ?_⟩, user.bound, ?_⟩,
    ?_, ?_, ?_, ?_, ?_, ?_⟩
  · exact ⟨fun w l m => owned.managed w l ((maps_iff w l).mp m), fun w l m => list ▸ owned.used w l ((maps_iff w l).mp m),
      fun w l m isTable => owned.data w l ((maps_iff w l).mp m) ((same.isTable_iff _).mp isTable),
      fun w l w' l' m m' => owned.distinct w l w' l' ((maps_iff w l).mp m) ((maps_iff w' l').mp m')⟩
  · rw [map]
    exact user.user
  · rw [map]
    exact fun _ _ there => there
  · rw [map]
    exact fun _ _ there => .inl there
  · intro va small
    by_cases here : va / pgsize = v
    · have place : va = v * pgsize + va % pgsize := by
        rw [← here, mul_comm]
        exact (Nat.div_add_mod va pgsize).symm
      have now : pageMap st'.mem root (va / pgsize) = some leaf := by rw [map, here, found]
      have before : byteAt st root va = st.mem leaf.pa (va % pgsize) := byteAt_some (by rw [here, found])
      rw [byteAt_some now, stored, update_self, overwrite, overwrite, before]
      have index : va - (v * pgsize + off) = va % pgsize - off := by omega
      rw [index]
      by_cases inside : off ≤ va % pgsize
      · rw [if_pos inside, if_pos (by omega)]
      · rw [if_neg inside, if_neg (by omega)]
    · have outside : overwrite (byteAt st root) (v * pgsize + off) bytes va = byteAt st root va := by
        rw [overwrite]
        split
        · next above =>
          have far : bytes.length ≤ va - (v * pgsize + off) := by
            simp only [pgsize] at here above fits ⊢
            omega
          rw [List.getElem?_eq_none far, Option.getD_none]
        · rfl
      rw [outside]
      cases there : pageMap st.mem root (va / pgsize) with
      | none =>
        rw [byteAt_none there, byteAt_none]
        rw [map, there]
      | some other =>
        have apart : other.pa ≠ leaf.pa := fun equal =>
          here (owned.distinct _ other v leaf (maps_user.mpr ⟨small, there⟩) maps equal)
        rw [byteAt_some there, byteAt_some (by rw [map, there]), stored, update_of_ne apart]
  · intro other
    rw [Owned, Owned, same.isTable_iff, map, list]
  · exact fun _ free => list ▸ free
  · intro other _ apart
    rw [stored]
    refine update_of_ne ?_ ..
    rintro rfl
    exact apart (.inr ⟨v, leaf, maps, rfl⟩)

omit [Symbols] in
theorem slot_of_map (found : pageMap st.mem root v = some leaf) (low : v * pgsize < maxva) :
    ∃ slot, slotOf st.mem root (v * pgsize) = some slot ∧ leaf = ⟨pte2pa (pteAt st.mem slot), pteFlags (pteAt st.mem slot)⟩ := by
  rw [pageMap, if_pos low] at found
  obtain ⟨slot, at_slot, entry⟩ := Option.bind_eq_some_iff.mp found
  rw [leafOf] at entry
  split at entry
  · exact ⟨slot, at_slot, (Option.some.inj entry).symm⟩
  · cases entry

/-- A page is there with flags that are allowed, or can be faulted in. -/
def Usable (allowed : Leaf → Bool) (st : State) (root psz v : Nat) : Prop :=
  match pageMap st.mem root v with
  | some leaf => allowed leaf
  | none => v * pgsize < psz

def readable (leaf : Leaf) : Bool := has leaf.flags pteU

def writable (leaf : Leaf) : Bool := has leaf.flags pteU && has leaf.flags pteW

def Granted (allowed : Leaf → Bool) (st : State) (root psz : Nat) (pages : Finset Nat) : Prop :=
  (∀ v ∈ pages, Usable allowed st root psz v) ∧ st.Supply (demand st root pages)

variable {allowed : Leaf → Bool} {pages : Finset Nat}

omit [Symbols] in
theorem usable_some (found : pageMap st.mem root v = some leaf) : Usable allowed st root psz v ↔ allowed leaf = true := by
  rw [Usable, found]

omit [Symbols] in
theorem usable_none (none : pageMap st.mem root v = none) : Usable allowed st root psz v ↔ v * pgsize < psz := by
  rw [Usable, none]

theorem Usable.user (usable : Usable allowed st root psz v) (user : UserSpace st root psz)
    (open_ : ∀ leaf, allowed leaf = true → has leaf.flags pteU) : v < userPages := by
  cases found : pageMap st.mem root v with
  | none =>
    rw [usable_none found] at usable
    exact user_of_below usable user.bound
  | some leaf =>
    rw [usable_some found] at usable
    exact user.user _ _ found (open_ leaf usable)

omit [Symbols] in
theorem granted_empty : Granted allowed st root psz ∅ :=
  ⟨fun v member => absurd member (Finset.notMem_empty v), Nat.zero_le _, fun i low => absurd low (Nat.not_lt_zero i)⟩

omit [Symbols] in
theorem granted_congr (same : SameTables st root st') (list : st'.freelist = st.freelist) (refuse : st'.refuse = st.refuse) :
    Granted allowed st' root psz pages ↔ Granted allowed st root psz pages := by
  have cost : demand st' root pages = demand st root pages := by
    have absences : absent st' root pages = absent st root pages := by rw [absent, absent, same.pageMap_eq]
    have leaves : ∀ k, node st'.mem root (indices (k * 512 * pgsize) 2) = node st.mem root (indices (k * 512 * pgsize) 2) :=
      fun k => same.node_eq (indices_length _ 2).le
    have middles : ∀ k, node st'.mem root [px 2 (k * 512 ^ 2 * pgsize)] = node st.mem root [px 2 (k * 512 ^ 2 * pgsize)] :=
      fun k => same.node_eq (Nat.le_succ 1)
    simp only [demand, absences, leaves, middles]
  rw [Granted, Granted, cost, State.Supply, State.Supply, list, refuse]
  simp only [Usable, same.pageMap_eq]

omit [Symbols] in
theorem share_le_demand (unmapped : pageMap st.mem root v = none) :
    1 + missing st.mem (v * pgsize) 2 root ≤ demand st root (insert v pages) := by
  have here : absent st root (insert v pages) = insert v (absent st root pages) := by
    rw [absent, absent, Finset.filter_insert, if_pos unmapped]
  have one : 1 ≤ (insert v (absent st root pages)).card := Finset.card_pos.mpr ⟨v, Finset.mem_insert_self ..⟩
  rw [demand, here, Finset.image_insert, Finset.image_insert, card_filter_insert, card_filter_insert, missing_two, indices_key, px_key]
  omega

structure Reached (st : State) (root psz v : Nat) (leaf : Leaf) (st' : State) : Prop where
  found : pageMap st'.mem root v = some leaf
  user : has leaf.flags pteU
  before : pageMap st.mem root v = some leaf ∨ pageMap st.mem root v = none ∧ leaf.flags = lazyFlags ∧ v * pgsize < psz
  others : ∀ w, w ≠ v → pageMap st'.mem root w = pageMap st.mem root w
  touched : Touched st root psz v (v + 1) (byteAt st root) st'
  cost : ∀ pages : Finset Nat, v ∉ pages → (∀ w ∈ insert v pages, w < userPages) →
    (st.Supply (demand st root (insert v pages)) ↔ st'.Supply (demand st' root pages))

theorem Reached.low (reached : Reached st root psz v leaf st') (user : UserSpace st root psz) : v < userPages := by
  rcases reached.before with found | ⟨_, _, below⟩
  · exact user.user _ _ found reached.user
  · exact user_of_below below user.bound

theorem Reached.granted (reached : Reached st root psz v leaf st') (user : UserSpace st root psz)
    (open_ : ∀ leaf, allowed leaf = true → has leaf.flags pteU) (mine : allowed leaf = true)
    (outside : v ∉ pages) : Granted allowed st root psz (insert v pages) ↔ Granted allowed st' root psz pages := by
  have here : Usable allowed st root psz v := by
    rcases reached.before with found | ⟨none, _, below⟩
    · rwa [usable_some found]
    · rwa [usable_none none]
  have others : ∀ w ∈ pages, (Usable allowed st root psz w ↔ Usable allowed st' root psz w) := by
    intro w member
    rw [Usable, Usable, reached.others w (fun same => outside (same ▸ member))]
  have all : (∀ w ∈ insert v pages, Usable allowed st root psz w) ↔ ∀ w ∈ pages, Usable allowed st' root psz w := by
    rw [Finset.forall_mem_insert]
    exact ⟨fun every w member => (others w member).mp (every.2 w member),
      fun every => ⟨here, fun w member => (others w member).mpr (every w member)⟩⟩
  rw [Granted, Granted, ← all]
  exact and_congr_right fun every => reached.cost pages outside fun w member => (every w member).user user open_

theorem useraddr_reached (user : UserSpace st root psz) :
    Ends (useraddr root psz (v * pgsize)) st stop fun pa st' =>
      (∃ leaf, pa = leaf.pa ∧ pa ≠ 0 ∧ Reached st root psz v leaf st') ∨
      pa = 0 ∧ Touched st root psz v (v + 1) (byteAt st root) st' ∧ ∀ (allowed : Leaf → Bool) (pages : Finset Nat),
        (∀ leaf, allowed leaf = true → has leaf.flags pteU) → ¬ Granted allowed st root psz (insert v pages) := by
  refine (useraddr_ends user).mono fun pa st' facts => ?_
  rcases facts with ⟨leaf, found, open_, rfl, nonzero, rfl⟩ | ⟨nonzero, below, faulted⟩ | ⟨zero, steady, closed, refused⟩
  · refine .inl ⟨leaf, rfl, nonzero, found, open_, .inl found, fun _ _ => rfl, Touched.refl user, fun pages _ _ => ?_⟩
    rw [demand_mapped (by rw [found]; exact nofun)]
  · have map := faulted.steady.map
    refine .inl ⟨⟨pa, lazyFlags⟩, rfl, nonzero, ?_, (by decide : has lazyFlags pteU), .inr ⟨faulted.unmapped, rfl, below⟩, fun w other => ?_,
      .of_faulted user below faulted, fun pages outside small => ?_⟩
    · rw [map, update_self]
    · rw [map, update_of_ne other]
    · rw [demand_insert small outside faulted.unmapped (fun w other => by rw [map, update_of_ne other]) faulted.paid.tables,
        ← faulted.paid.spent.supply_iff]
  · refine .inr ⟨zero, .of_steady user steady, fun allowed pages open_ granted => ?_⟩
    have usable := granted.1 v (Finset.mem_insert_self v pages)
    cases found : pageMap st.mem root v with
    | none =>
      rw [usable_none found] at usable
      exact refused usable found (granted.2.mono (share_le_demand found))
    | some leaf =>
      rw [usable_some found] at usable
      exact Bool.false_ne_true ((closed leaf found).symm.trans (open_ leaf usable))

structure CopiedOut (st : State) (root psz dstva : Nat) (src : List UInt8) (n : Nat) (st' : State) : Prop where
  most : n ≤ src.length
  touched : Touched st root psz (dstva / pgsize) ((dstva + src.length + pgsize - 1) / pgsize)
    (overwrite (byteAt st root) dstva (src.take n)) st'
  pages : ∀ k < n, ∃ leaf, pageMap st'.mem root ((dstva + k) / pgsize) = some leaf ∧ writable leaf

theorem CopiedOut.done (user : UserSpace st root psz) (dstva : Nat) (src : List UInt8) : CopiedOut st root psz dstva src 0 st := by
  refine ⟨Nat.zero_le _, ?_, fun k low => absurd low (Nat.not_lt_zero k)⟩
  rw [take_zero, overwrite_nil]
  exact Touched.refl user

theorem CopiedOut.failed {dstva : Nat} {src : List UInt8} (nonempty : 0 < src.length)
    (touched : Touched st root psz (dstva / pgsize) (dstva / pgsize + 1) (byteAt st root) st') :
    CopiedOut st root psz dstva src 0 st' := by
  refine ⟨Nat.zero_le _, ?_, fun k low => absurd low (Nat.not_lt_zero k)⟩
  rw [take_zero, overwrite_nil]
  refine touched.widen le_rfl ?_
  simp only [pgsize]
  omega

theorem CopiedOut.next {dstva n m : Nat} {src : List UInt8} {mid : State} (nonempty : 0 < src.length)
    (first : n = min (pgsize - dstva % pgsize) src.length)
    (touched : Touched st root psz (dstva / pgsize) (dstva / pgsize + 1) (overwrite (byteAt st root) dstva (src.take n)) mid)
    (here : pageMap mid.mem root (dstva / pgsize) = some leaf) (allowed : writable leaf)
    (rest : CopiedOut mid root psz (dstva / pgsize * pgsize + pgsize) (src.drop n) m last) :
    CopiedOut st root psz dstva src (n + m) last := by
  have most := rest.most
  rw [length_drop] at most
  refine ⟨by omega, ?_, fun k low => ?_⟩
  · have one : dstva / pgsize + 1 ≤ (dstva + src.length + pgsize - 1) / pgsize := by
      simp only [pgsize]
      omega
    have low : dstva / pgsize ≤ (dstva / pgsize * pgsize + pgsize) / pgsize := by
      simp only [pgsize]
      omega
    have high : (dstva / pgsize * pgsize + pgsize + (src.drop n).length + pgsize - 1) / pgsize ≤
        (dstva + src.length + pgsize - 1) / pgsize := by
      rw [length_drop]
      simp only [pgsize] at first ⊢
      omega
    refine ((touched.widen le_rfl one).trans (rest.touched.widen low high)).congr fun va low => ?_
    rw [overwrite_congr (touched.bytes va low), take_add]
    by_cases whole : n = src.length
    · rw [whole, drop_length, take_nil, overwrite_nil, append_nil]
    have next : dstva / pgsize * pgsize + pgsize = dstva + (src.take n).length := by
      rw [length_take]
      simp only [pgsize] at first ⊢
      omega
    rw [next, overwrite_append]
  · by_cases early : k < n
    · have same : (dstva + k) / pgsize = dstva / pgsize := by
        simp only [pgsize] at first ⊢
        omega
      exact ⟨leaf, by rw [same]; exact rest.touched.kept _ leaf here, allowed⟩
    obtain ⟨other, found, mine⟩ := rest.pages (k - n) (by omega)
    have same : dstva / pgsize * pgsize + pgsize + (k - n) = dstva + k := by
      simp only [pgsize] at first ⊢
      omega
    rw [same] at found
    exact ⟨other, found, mine⟩

theorem copyoutFrom_ends (fuel dstva : Nat) (src : List UInt8) (enough : src.length ≤ fuel) (user : UserSpace st root psz) :
    Ends (copyoutFrom root psz fuel dstva src) st stop fun ok st' =>
      (∃ n, CopiedOut st root psz dstva src n st' ∧ (ok = true → n = src.length)) ∧
      (ok = true ↔ Granted writable st root psz (pagesOf dstva src.length)) := by
  induction fuel generalizing st dstva src with
  | zero =>
    obtain rfl := eq_nil_of_length_eq_zero (Nat.le_zero.mp enough)
    rw [copyoutFrom, ends_pure]
    exact ⟨⟨0, .done user .., fun _ => rfl⟩, fun _ => granted_empty, fun _ => rfl⟩
  | succ fuel ih =>
    rw [copyoutFrom]
    by_cases empty : src = []
    · rw [if_pos empty, ends_pure, empty]
      exact ⟨⟨0, .done user .., fun _ => rfl⟩, fun _ => granted_empty, fun _ => rfl⟩
    rw [if_neg empty]
    have nonempty := length_pos_of_ne_nil empty
    have pages : pagesOf dstva src.length = _ := pagesOf_step nonempty rfl
    have open_ : ∀ leaf, writable leaf = true → has leaf.flags pteU := fun leaf both => (Bool.and_eq_true_iff.mp both).1
    have mine : Granted writable st root psz (pagesOf dstva src.length) → Usable writable st root psz (dstva / pgsize) :=
      fun granted => granted.1 _ (by rw [pages]; exact Finset.mem_insert_self ..)
    dsimp only [pgRoundDown]
    by_cases high : maxva ≤ dstva / pgsize * pgsize
    · rw [if_pos high, ends_pure]
      exact ⟨⟨0, .done user .., nofun⟩, nofun, fun granted =>
        absurd (userPages_low ((mine granted).user user open_)) (not_lt.mpr high)⟩
    rw [if_neg high, ends_bind]
    refine (useraddr_reached user).mono fun pa mid facts => ?_
    rcases facts with ⟨leaf, rfl, nonzero, reached⟩ | ⟨rfl, touched, refused⟩
    · rw [if_neg nonzero, ends_bind, ends_walk_look (not_le.mp high)]
      obtain ⟨slot, at_slot, entry⟩ := slot_of_map reached.found (not_le.mp high)
      rw [at_slot]
      dsimp only
      rw [ends_bind, ends_readPte]
      have flag : has (pteAt mid.mem slot) pteW = has leaf.flags pteW := by rw [entry, has_pteFlags (by decide)]
      by_cases closed : has leaf.flags pteW
      · rw [if_neg (by rw [flag]; exact fun no => no closed), ends_bind]
        have off : dstva - dstva / pgsize * pgsize = dstva % pgsize := by
          simp only [pgsize]
          omega
        rw [off] at *
        generalize first : min (pgsize - dstva % pgsize) src.length = n at *
        have low := reached.low user
        rw [next_page low, storeBytes, ends_modify]
        generalize here : ({ mid with mem := _ } : State) = stored
        have mem : stored.mem = update mid.mem leaf.pa (overwrite (mid.mem leaf.pa) (dstva % pgsize) (src.take n)) := by rw [← here]
        have same := stored_sameTables reached.touched.user.space low reached.found mem
        have shorter : (src.drop n).length ≤ fuel := by
          rw [length_drop]
          simp only [pgsize] at first
          omega
        have touched : Touched st root psz (dstva / pgsize) (dstva / pgsize + 1) (overwrite (byteAt st root) dstva (src.take n)) stored := by
          have fits : dstva % pgsize + (src.take n).length ≤ pgsize := by
            rw [length_take]
            simp only [pgsize] at first ⊢
            omega
          refine (reached.touched.trans (storeBytes_touched reached.touched.user low reached.found fits mem (by rw [← here]))).congr
            fun va low => ?_
          rw [overwrite_congr (reached.touched.bytes va low), Nat.div_add_mod']
        refine (ih _ (src.drop n) shorter touched.user).mono fun ok last facts => ?_
        obtain ⟨⟨m, copied, whole⟩, success⟩ := facts
        refine ⟨⟨n + m, .next nonempty first.symm touched (by rw [same.pageMap_eq, reached.found]) (Bool.and_eq_true_iff.mpr ⟨reached.user, closed⟩) copied,
          fun yes => ?_⟩, ?_⟩
        · have all := whole yes
          rw [length_drop] at all
          omega
        · rw [success, length_drop, granted_congr same (by rw [← here]) (by rw [← here]), pages]
          exact (reached.granted user open_ (Bool.and_eq_true_iff.mpr ⟨reached.user, closed⟩) (not_mem_next _)).symm
      · rw [if_pos (by rw [flag]; exact closed), ends_pure]
        refine ⟨⟨0, .failed nonempty reached.touched, nofun⟩, nofun, fun granted => ?_⟩
        have usable := mine granted
        rcases reached.before with found | ⟨_, lazy, _⟩
        · rw [usable_some found] at usable
          exact absurd (Bool.and_eq_true_iff.mp usable).2 closed
        · exact absurd (by rw [lazy]; decide) closed
    · rw [if_pos rfl, ends_pure]
      refine ⟨⟨0, .failed nonempty touched, nofun⟩, nofun, fun granted => ?_⟩
      rw [pages] at granted
      exact absurd granted (refused writable _ open_)

end

end Xv6.Vm

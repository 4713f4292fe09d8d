import Xv6.Vm.Copy

/-!
`copyin` and `copyinstr`. A string is read up to its first NUL, and only the pages up to
that one have to be there.
-/

namespace Xv6.Vm

open Lib.Bytes Lib.Hoare Lib.Radix List
open Function

variable {st st' last : State} {root va v page psz : Nat} {leaf : Leaf} {stop : Stop → Prop}

def bytesAt (st : State) (root va n : Nat) : List UInt8 := (List.range n).map fun k => byteAt st root (va + k)

theorem bytesAt_add (st : State) (root va n m : Nat) : bytesAt st root va (n + m) = bytesAt st root va n ++ bytesAt st root (va + n) m := by
  rw [bytesAt, range_add, map_append, map_map]
  simp only [bytesAt, Function.comp_def, add_assoc]

theorem bytesAt_congr {n : Nat} (same : ∀ k < n, byteAt st root (va + k) = byteAt st' root (va + k)) :
    bytesAt st root va n = bytesAt st' root va n :=
  map_congr_left fun k member => same k (mem_range.mp member)

theorem same_page {k : Nat} (inside : va % pgsize + k < pgsize) : (va + k) / pgsize = va / pgsize ∧ (va + k) % pgsize = va % pgsize + k := by
  simp only [pgsize] at *
  omega

/-- The first NUL that the process sees from `va` on is `k` bytes further. -/
def NulAt (st : State) (root va k : Nat) : Prop := byteAt st root (va + k) = 0 ∧ ∀ j < k, byteAt st root (va + j) ≠ 0

theorem scan_cases (page : Page) (n p : Nat) :
    (∃ k < n, page (p + k) = 0 ∧ (∀ j < k, page (p + j) ≠ 0) ∧
      scan page n p = ((List.range (k + 1)).map fun j => page (p + j), true)) ∨
    (∀ k < n, page (p + k) ≠ 0) ∧ scan page n p = ((List.range n).map fun j => page (p + j), false) := by
  induction n generalizing p with
  | zero => exact .inr ⟨fun k low => absurd low (Nat.not_lt_zero k), rfl⟩
  | succ n ih =>
    rw [scan]
    by_cases nul : page p = 0
    · rw [if_pos nul]
      refine .inl ⟨0, Nat.succ_pos n, nul, fun j low => absurd low (Nat.not_lt_zero j), ?_⟩
      rw [range_one, map_singleton, add_zero, nul]
    rw [if_neg nul]
    have shift : ∀ j, page (p + 1 + j) = page (p + (j + 1)) := fun j => by rw [add_assoc, add_comm 1]
    have front : ∀ m, page p :: (List.range m).map (fun j => page (p + 1 + j)) = (List.range (m + 1)).map fun j => page (p + j) := by
      intro m
      rw [range_succ_eq_map, map_cons, map_map]
      simp only [shift, Function.comp_def, Nat.succ_eq_add_one, add_zero]
    have behind : ∀ m, (∀ j < m, page (p + 1 + j) ≠ 0) → ∀ j < m + 1, page (p + j) ≠ 0 := by
      intro m none j low
      cases j with
      | zero => exact nul
      | succ j => exact shift j ▸ none j (Nat.lt_of_succ_lt_succ low)
    rcases ih (p + 1) with ⟨k, low, zero, before, result⟩ | ⟨none, result⟩
    · refine .inl ⟨k + 1, Nat.succ_lt_succ low, by rw [← shift, zero], behind k before, ?_⟩
      rw [result, ← front]
    · refine .inr ⟨behind n none, ?_⟩
      rw [result, ← front]

section

variable [Symbols]

structure CopiedIn (st : State) (root psz srcva len n : Nat) (bytes : List UInt8) (st' : State) : Prop where
  most : n ≤ len
  bytes : bytes = bytesAt st root srcva n
  touched : Touched st root psz (srcva / pgsize) ((srcva + len + pgsize - 1) / pgsize) (byteAt st root) st'
  pages : ∀ k < n, ∃ leaf, pageMap st'.mem root ((srcva + k) / pgsize) = some leaf ∧ readable leaf

namespace CopiedIn

variable {srcva len n m : Nat} {first rest : List UInt8}

theorem done (user : UserSpace st root psz) (srcva len : Nat) : CopiedIn st root psz srcva len 0 [] st :=
  ⟨Nat.zero_le _, rfl, Touched.refl user, fun k low => absurd low (Nat.not_lt_zero k)⟩

theorem failed (nonempty : 0 < len) (touched : Touched st root psz (srcva / pgsize) (srcva / pgsize + 1) (byteAt st root) st') :
    CopiedIn st root psz srcva len 0 [] st' := by
  refine ⟨Nat.zero_le _, rfl, touched.widen (Nat.le_refl _) ?_, fun k low => absurd low (Nat.not_lt_zero k)⟩
  simp only [pgsize]
  omega

theorem here (reached : Reached st root psz (srcva / pgsize) leaf st') (user : UserSpace st root psz) (most : n ≤ len) (nonempty : 0 < len)
    (fits : srcva % pgsize + n ≤ pgsize) (bytes : first = (List.range n).map fun k => st'.mem leaf.pa (srcva % pgsize + k)) :
    CopiedIn st root psz srcva len n first st' := by
  have low := reached.low user
  refine ⟨most, ?_, reached.touched.widen le_rfl ?_, fun k below => ?_⟩
  · rw [bytes]
    refine map_congr_left fun k member => ?_
    have below := mem_range.mp member
    obtain ⟨page, offset⟩ : _ ∧ (srcva + k) % pgsize = srcva % pgsize + k := same_page (by omega)
    rw [← reached.touched.bytes (srcva + k) (by rw [page]; exact low), byteAt_some (by rw [page]; exact reached.found), offset]
  · simp only [pgsize]
    omega
  · rw [(same_page (by omega)).1]
    exact ⟨leaf, reached.found, reached.user⟩

omit [Symbols] in
theorem place (whole : n = min (pgsize - srcva % pgsize) len) (most : m ≤ len - n) {k : Nat} (below : k < m) :
    srcva / pgsize * pgsize + pgsize + k = srcva + (n + k) := by
  simp only [pgsize] at whole ⊢
  omega

variable {mid : State}

theorem seen (whole : n = min (pgsize - srcva % pgsize) len) (start : CopiedIn st root psz srcva len n first mid)
    (others : CopiedIn mid root psz (srcva / pgsize * pgsize + pgsize) (len - n) m rest last) {k : Nat} (below : k < m) :
    byteAt mid root (srcva / pgsize * pgsize + pgsize + k) = byteAt st root (srcva + (n + k)) := by
  obtain ⟨leaf, found, allowed⟩ := others.pages k below
  rw [start.touched.bytes _ (others.touched.user.user _ leaf found allowed), place whole others.most below]

theorem next (whole : n = min (pgsize - srcva % pgsize) len) (nonempty : 0 < len) (start : CopiedIn st root psz srcva len n first mid)
    (others : CopiedIn mid root psz (srcva / pgsize * pgsize + pgsize) (len - n) m rest last) :
    CopiedIn st root psz srcva len (n + m) (first ++ rest) last := by
  have most := others.most
  refine ⟨by omega, ?_, ?_, fun k below => ?_⟩
  · rw [start.bytes, others.bytes, bytesAt_add]
    refine congrArg _ (map_congr_left fun k member => ?_)
    rw [seen whole start others (mem_range.mp member), add_assoc]
  · have high : (srcva / pgsize * pgsize + pgsize + (len - n) + pgsize - 1) / pgsize ≤ (srcva + len + pgsize - 1) / pgsize := by
      simp only [pgsize] at whole ⊢
      omega
    have low : srcva / pgsize ≤ (srcva / pgsize * pgsize + pgsize) / pgsize := by
      simp only [pgsize]
      omega
    exact (start.touched.trans (others.touched.widen low high)).congr fun va low => start.touched.bytes va low
  · by_cases early : k < n
    · obtain ⟨leaf, found, allowed⟩ := start.pages k early
      exact ⟨leaf, others.touched.kept _ leaf found, allowed⟩
    have inside : k - n < m := by omega
    obtain ⟨leaf, found, allowed⟩ := others.pages (k - n) inside
    rw [place whole most inside, Nat.add_sub_of_le (not_lt.mp early)] at found
    exact ⟨leaf, found, allowed⟩

end CopiedIn

theorem copyinFrom_ends (fuel srcva len : Nat) (enough : len ≤ fuel) (user : UserSpace st root psz) :
    Ends (copyinFrom root psz fuel srcva len) st stop fun result st' =>
      (∃ n, CopiedIn st root psz srcva len n result.2 st' ∧ (result.1 = true → n = len)) ∧
      (result.1 = true ↔ Granted readable st root psz (pagesOf srcva len)) := by
  induction fuel generalizing st srcva len with
  | zero =>
    obtain rfl := Nat.le_zero.mp enough
    rw [copyinFrom, ends_pure]
    exact ⟨⟨0, .done user .., fun _ => rfl⟩, fun _ => granted_empty, fun _ => rfl⟩
  | succ fuel ih =>
    rw [copyinFrom]
    by_cases empty : len = 0
    · rw [if_pos empty, ends_pure, empty]
      exact ⟨⟨0, .done user .., fun _ => rfl⟩, fun _ => granted_empty, fun _ => rfl⟩
    rw [if_neg empty]
    have nonempty := pos_of_ne_zero empty
    have pages : pagesOf srcva len = _ := pagesOf_step nonempty rfl
    dsimp only [pgRoundDown]
    rw [ends_bind]
    refine (useraddr_reached user).mono fun pa mid facts => ?_
    rcases facts with ⟨leaf, rfl, nonzero, reached⟩ | ⟨rfl, touched, refused⟩
    · have off : srcva - srcva / pgsize * pgsize = srcva % pgsize := by
        simp only [pgsize]
        omega
      rw [if_neg nonzero, off, next_page (reached.low user), loadBytes, ends_bind, ends_bind, ends_get, ends_pure, ends_bind]
      generalize whole : min (pgsize - srcva % pgsize) len = n at *
      have start := CopiedIn.here reached user (n := n) (by omega) nonempty (by simp only [pgsize] at whole ⊢; omega) rfl
      refine (ih (srcva / pgsize * pgsize + pgsize) (len - n) (by simp only [pgsize] at whole; omega) reached.touched.user).mono
        fun result last facts => ?_
      obtain ⟨⟨m, copied, all⟩, success⟩ := facts
      rw [ends_pure]
      refine ⟨⟨n + m, .next whole.symm nonempty start copied, fun yes => ?_⟩, ?_⟩
      · have rest := all yes
        omega
      · rw [success, pages]
        exact (reached.granted user (fun _ yes => yes) reached.user (not_mem_next _)).symm
    · rw [if_pos rfl, ends_pure]
      refine ⟨⟨0, .failed nonempty touched, by rintro ⟨⟩⟩, by rintro ⟨⟩, fun granted => ?_⟩
      rw [pages] at granted
      exact absurd granted (refused readable _ fun _ yes => yes)

/-- The string at an address can be read: its NUL is among the first `max` bytes, and the pages
up to it are there or can be faulted in. -/
def Str (st : State) (root psz srcva max : Nat) : Prop :=
  ∃ k < max, NulAt st root srcva k ∧ Granted readable st root psz (pagesOf srcva (k + 1))

theorem Granted.seen {len : Nat} {st₁ st₂ : State} (granted : Granted readable st₁ root psz (pagesOf va len)) (user : UserSpace st₁ root psz)
    (same : ∀ a, a / pgsize < userPages → byteAt st₂ root a = byteAt st root a) {k : Nat} (low : k < len) :
    byteAt st₂ root (va + k) = byteAt st root (va + k) :=
  same _ ((granted.1 _ (mem_pagesOf.mpr ⟨k, low, rfl⟩)).user user fun _ yes => yes)

theorem Reached.str {srcva max n : Nat} (reached : Reached st root psz (srcva / pgsize) leaf st') (user : UserSpace st root psz)
    (whole : n = min (pgsize - srcva % pgsize) max) (none : ∀ k < n, byteAt st root (srcva + k) ≠ 0) :
    Str st root psz srcva max ↔ Str st' root psz (srcva / pgsize * pgsize + pgsize) (max - n) := by
  have place : n < max → ∀ k, srcva / pgsize * pgsize + pgsize + k = srcva + (n + k) := by
    intro more k
    simp only [pgsize] at whole ⊢
    omega
  have split : ∀ k, n < max → pagesOf srcva (n + k + 1) = insert (srcva / pgsize) (pagesOf (srcva / pgsize * pgsize + pgsize) (k + 1)) := by
    intro k more
    have first : n = min (pgsize - srcva % pgsize) (n + k + 1) := by omega
    rw [pagesOf_step (Nat.succ_pos _) first]
    congr 2
    omega
  have granted : ∀ k, n < max → (Granted readable st root psz (pagesOf srcva (n + k + 1)) ↔
      Granted readable st' root psz (pagesOf (srcva / pgsize * pgsize + pgsize) (k + 1))) := by
    intro k more
    rw [split k more]
    exact reached.granted user (fun _ yes => yes) reached.user (not_mem_next _)
  constructor
  · rintro ⟨k, low, ⟨nul, before⟩, all⟩
    have late : n ≤ k := not_lt.mp fun early => none k early nul
    obtain ⟨j, rfl⟩ := Nat.exists_eq_add_of_le late
    have more : n < max := by omega
    have seen : ∀ i < n + j + 1, byteAt st' root (srcva + i) = byteAt st root (srcva + i) := fun i inside =>
      all.seen user reached.touched.bytes inside
    refine ⟨j, by omega, ⟨?_, fun i early => ?_⟩, (granted j more).mp all⟩
    · rw [place more, seen _ (by omega), nul]
    · rw [place more, seen _ (by omega)]
      exact before _ (by omega)
  · rintro ⟨j, low, ⟨nul, before⟩, all⟩
    have more : n < max := by omega
    have seen : ∀ i < j + 1, byteAt st' root (srcva + (n + i)) = byteAt st root (srcva + (n + i)) := by
      intro i inside
      rw [← place more]
      exact all.seen reached.touched.user reached.touched.bytes inside
    refine ⟨n + j, by omega, ⟨?_, fun i early => ?_⟩, (granted j more).mpr all⟩
    · rw [← seen j (by omega), ← place more, nul]
    by_cases first : i < n
    · exact none i first
    · have step := before (i - n) (by omega)
      rw [place more, seen _ (by omega), Nat.add_sub_of_le (not_lt.mp first)] at step
      exact step

theorem copyinstrFrom_ends (fuel srcva max : Nat) (enough : max ≤ fuel) (user : UserSpace st root psz) :
    Ends (copyinstrFrom root psz fuel srcva max) st stop fun result st' =>
      (∃ n, CopiedIn st root psz srcva max n result.2 st' ∧ (result.1 = true → ∃ k, n = k + 1 ∧ NulAt st root srcva k)) ∧
      (result.1 = true ↔ Str st root psz srcva max) := by
  induction fuel generalizing st srcva max with
  | zero =>
    obtain rfl := Nat.le_zero.mp enough
    rw [copyinstrFrom, ends_pure]
    exact ⟨⟨0, .done user .., by rintro ⟨⟩⟩, by rintro ⟨⟩, fun within => within.elim fun k is => absurd is.1 (Nat.not_lt_zero k)⟩
  | succ fuel ih =>
    rw [copyinstrFrom]
    by_cases empty : max = 0
    · rw [if_pos empty, ends_pure, empty]
      exact ⟨⟨0, .done user .., by rintro ⟨⟩⟩, by rintro ⟨⟩, fun within => within.elim fun k is => absurd is.1 (Nat.not_lt_zero k)⟩
    rw [if_neg empty]
    have nonempty := pos_of_ne_zero empty
    have pages : ∀ k, pagesOf srcva (k + 1) = _ := fun k => pagesOf_step (Nat.succ_pos k) rfl
    dsimp only [pgRoundDown]
    rw [ends_bind]
    refine (useraddr_reached user).mono fun pa mid facts => ?_
    rcases facts with ⟨leaf, rfl, nonzero, reached⟩ | ⟨rfl, touched, refused⟩
    · have off : srcva - srcva / pgsize * pgsize = srcva % pgsize := by
        simp only [pgsize]
        omega
      rw [if_neg nonzero, off, next_page (reached.low user), ends_bind, ends_get]
      generalize whole : min (pgsize - srcva % pgsize) max = n at *
      have fits : srcva % pgsize + n ≤ pgsize := by
        simp only [pgsize] at whole ⊢
        omega
      have seen : ∀ k < n, mid.mem leaf.pa (srcva % pgsize + k) = byteAt st root (srcva + k) := by
        intro k below
        obtain ⟨page, offset⟩ : (srcva + k) / pgsize = _ ∧ _ := same_page (by omega)
        rw [← reached.touched.bytes (srcva + k) (by rw [page]; exact reached.low user), byteAt_some (by rw [page]; exact reached.found),
          offset]
      rcases scan_cases (mid.mem leaf.pa) n (srcva % pgsize) with ⟨k, low, nul, before, result⟩ | ⟨none, result⟩
      · rw [result, if_pos rfl, ends_pure]
        rw [seen k low] at nul
        have nulAt : NulAt st root srcva k := ⟨nul, fun j early => by rw [← seen j (by omega)]; exact before j early⟩
        refine ⟨⟨k + 1, .here reached user (by omega) nonempty (by omega) rfl, fun _ => ⟨k, rfl, nulAt⟩⟩, fun _ => ⟨k, by omega, nulAt, ?_⟩,
          fun _ => rfl⟩
        have last : k + 1 - min (pgsize - srcva % pgsize) (k + 1) = 0 := by omega
        rw [pages, last, pagesOf_zero]
        exact (reached.granted user (fun _ yes => yes) reached.user (Finset.notMem_empty _)).mpr granted_empty
      · rw [result, if_neg Bool.false_ne_true, ends_bind]
        have start := CopiedIn.here reached user (n := n) (by omega) nonempty fits rfl
        refine (ih (srcva / pgsize * pgsize + pgsize) (max - n) (by simp only [pgsize] at whole; omega) reached.touched.user).mono
          fun rest last facts => ?_
        obtain ⟨⟨m, copied, found⟩, success⟩ := facts
        have none' : ∀ k < n, byteAt st root (srcva + k) ≠ 0 := fun k below => by rw [← seen k below]; exact none k below
        have split := reached.str user whole.symm none'
        rw [ends_pure]
        refine ⟨⟨n + m, .next whole.symm nonempty start copied, fun yes => ?_⟩, success.trans split.symm⟩
        obtain ⟨k, rfl, nul, before⟩ := found yes
        have same : ∀ i < k + 1, _ = byteAt st root (srcva + (n + i)) := fun i below => CopiedIn.seen whole.symm start copied below
        refine ⟨n + k, add_assoc .. |>.symm, by rw [← same k (Nat.lt_succ_self k), nul], fun j early => ?_⟩
        by_cases first : j < n
        · exact none' j first
        · have later := before (j - n) (by omega)
          rw [same _ (by omega), Nat.add_sub_of_le (not_lt.mp first)] at later
          exact later
    · rw [if_pos rfl, ends_pure]
      refine ⟨⟨0, .failed nonempty touched, by rintro ⟨⟩⟩, by rintro ⟨⟩, fun within => ?_⟩
      obtain ⟨k, _, _, granted⟩ := within
      rw [pages] at granted
      exact absurd granted (refused readable _ fun _ yes => yes)

omit [Symbols] in
theorem overwrite_at (f : Nat → UInt8) (va : Nat) (src : List UInt8) :
    (List.range src.length).map (fun k => overwrite f va src (va + k)) = src := by
  refine ext_getElem (by rw [length_map, length_range]) fun k _ below => ?_
  rw [getElem_map, getElem_range, overwrite, if_pos (Nat.le_add_right va k), Nat.add_sub_cancel_left,
    List.getElem?_eq_getElem below, Option.getD_some]

omit [Symbols] in
theorem granted_of_mapped {allowed : Leaf → Bool} {pages : Finset Nat}
    (mapped : ∀ v ∈ pages, ∃ leaf, pageMap st.mem root v = some leaf ∧ allowed leaf = true) : Granted allowed st root psz pages := by
  refine ⟨fun v member => ?_, ?_⟩
  · obtain ⟨leaf, found, yes⟩ := mapped v member
    rwa [usable_some found]
  have none : absent st root pages = ∅ := by
    refine Finset.filter_eq_empty_iff.mpr fun v member missing => ?_
    obtain ⟨leaf, found, _⟩ := mapped v member
    rw [missing] at found
    cases found
  have empty : Granted allowed st root psz ∅ := granted_empty
  rw [demand, none]
  exact empty.2

theorem CopiedOut.read_back {dstva : Nat} {src : List UInt8} (copied : CopiedOut st root psz dstva src src.length st') :
    Ends (copyin root psz dstva src.length) st' stop fun result _ => result = (true, src) := by
  have user := copied.touched.user
  have granted : Granted readable st' root psz (pagesOf dstva src.length) := by
    refine granted_of_mapped fun v member => ?_
    obtain ⟨k, below, rfl⟩ := mem_pagesOf.mp member
    obtain ⟨leaf, found, both⟩ := copied.pages k below
    exact ⟨leaf, found, (Bool.and_eq_true_iff.mp both).1⟩
  refine (copyinFrom_ends src.length dstva src.length le_rfl user).mono fun result last facts => ?_
  obtain ⟨⟨n, read, whole⟩, success⟩ := facts
  have ok := success.mpr granted
  obtain rfl := whole ok
  refine Prod.ext ok ?_
  rw [read.bytes]
  refine Eq.trans (map_congr_left fun k member => ?_) (overwrite_at (byteAt st root) dstva src)
  obtain ⟨leaf, found, both⟩ := copied.pages k (mem_range.mp member)
  rw [copied.touched.bytes _ (user.user _ leaf found (Bool.and_eq_true_iff.mp both).1), take_length]

/-- `copyout` and `copyin` for every address and length: what they change, what they read, and
when they succeed. -/
theorem copies_exact (user : UserSpace st root psz) :
    (∀ dstva src, Ends (copyout root psz dstva src) st (fun _ => False) fun ok st' =>
      (∃ n, CopiedOut st root psz dstva src n st' ∧ (ok = true → n = src.length)) ∧
      (ok = true ↔ Granted writable st root psz (pagesOf dstva src.length)) ∧
      (ok = true → Ends (copyin root psz dstva src.length) st' (fun _ => False) fun result _ => result = (true, src))) ∧
    ∀ srcva len, Ends (copyin root psz srcva len) st (fun _ => False) fun result st' =>
      (∃ n, CopiedIn st root psz srcva len n result.2 st' ∧ (result.1 = true → n = len)) ∧
      (result.1 = true ↔ Granted readable st root psz (pagesOf srcva len)) := by
  refine ⟨fun dstva src => ?_, fun srcva len => copyinFrom_ends len srcva len le_rfl user⟩
  refine (copyoutFrom_ends src.length dstva src le_rfl user).mono fun ok st' facts => ?_
  obtain ⟨⟨n, copied, whole⟩, success⟩ := facts
  refine ⟨⟨n, copied, whole⟩, success, fun yes => ?_⟩
  obtain rfl := whole yes
  exact copied.read_back

/-- `copyinstr` for every address and bound. -/
theorem copyinstr_exact (user : UserSpace st root psz) (srcva max : Nat) :
    Ends (copyinstr root psz srcva max) st (fun _ => False) fun result st' =>
      (result.1 = true ↔ ∃ k < max, NulAt st root srcva k ∧ Granted readable st root psz (pagesOf srcva (k + 1))) ∧
      (result.1 = true → ∃ k, NulAt st root srcva k ∧ result.2 = bytesAt st root srcva (k + 1)) ∧
      result.2.length ≤ max ∧ ∃ n, CopiedIn st root psz srcva max n result.2 st' := by
  refine (copyinstrFrom_ends max srcva max le_rfl user).mono fun result st' facts => ?_
  obtain ⟨⟨n, copied, found⟩, success⟩ := facts
  refine ⟨success, fun yes => ?_, ?_, n, copied⟩
  · obtain ⟨k, rfl, nul⟩ := found yes
    exact ⟨k, nul, copied.bytes⟩
  · rw [copied.bytes, bytesAt, length_map, length_range]
    exact copied.most

end

theorem emptyTable_user : @UserSpace smallKernel emptyTable (kernbase + pgsize) (2 * pgsize) := by
  refine @UserSpace.mk smallKernel emptyTable (kernbase + pgsize) (2 * pgsize) (emptyTable_space (by decide)) (by decide) fun v leaf found => ?_
  rw [empty_map rfl v] at found
  cases found

theorem copies_exact_lazy : @UserSpace smallKernel emptyTable (kernbase + pgsize) (2 * pgsize) ∧
    ∀ dstva src, Ends (@copyout smallKernel (kernbase + pgsize) (2 * pgsize) dstva src) emptyTable (fun _ => False) fun ok st' =>
      (∃ n, @CopiedOut smallKernel emptyTable (kernbase + pgsize) (2 * pgsize) dstva src n st' ∧ (ok = true → n = src.length)) ∧
      (ok = true ↔ Granted writable emptyTable (kernbase + pgsize) (2 * pgsize) (pagesOf dstva src.length)) ∧
      (ok = true → Ends (@copyin smallKernel (kernbase + pgsize) (2 * pgsize) dstva src.length) st' (fun _ => False)
        fun result _ => result = (true, src)) :=
  ⟨emptyTable_user, (@copies_exact emptyTable (kernbase + pgsize) (2 * pgsize) smallKernel emptyTable_user).1⟩

theorem copyinstr_exact_lazy : @UserSpace smallKernel emptyTable (kernbase + pgsize) (2 * pgsize) ∧
    Ends (@copyinstr smallKernel (kernbase + pgsize) (2 * pgsize) 0 8) emptyTable (fun _ => False) fun result st' =>
      (result.1 = true ↔ ∃ k < 8, NulAt emptyTable (kernbase + pgsize) 0 k ∧
        Granted readable emptyTable (kernbase + pgsize) (2 * pgsize) (pagesOf 0 (k + 1))) ∧
      (result.1 = true → ∃ k, NulAt emptyTable (kernbase + pgsize) 0 k ∧
        result.2 = bytesAt emptyTable (kernbase + pgsize) 0 (k + 1)) ∧
      result.2.length ≤ 8 ∧ ∃ n, @CopiedIn smallKernel emptyTable (kernbase + pgsize) (2 * pgsize) 0 8 n result.2 st' :=
  ⟨emptyTable_user, @copyinstr_exact emptyTable (kernbase + pgsize) (2 * pgsize) smallKernel emptyTable_user 0 8⟩

end Xv6.Vm

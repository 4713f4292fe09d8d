import Xv6.Vm.Faults

/-!
How many free pages it takes to map a set of virtual pages: one for each page that is not
mapped, and one for each table that is missing on the way to one of them.
-/

namespace Xv6.Vm

open Lib.Bytes Lib.Hoare Lib.Radix Finset
open Function

def pagesOf (va len : Nat) : Finset Nat := (Finset.range len).image fun k => (va + k) / pgsize

def absent (st : State) (root : Nat) (pages : Finset Nat) : Finset Nat := pages.filter fun v => pageMap st.mem root v = none

/-- The pages to take for mapping what is absent: data, tables of the last level and of the
middle one. -/
def demand (st : State) (root : Nat) (pages : Finset Nat) : Nat :=
  (absent st root pages).card +
    (((absent st root pages).image (· / 512)).filter fun k => node st.mem root (indices (k * 512 * pgsize) 2) = none).card +
    (((absent st root pages).image (· / 512 ^ 2)).filter fun k => node st.mem root [px 2 (k * 512 ^ 2 * pgsize)] = none).card

variable {st st' : State} {root v : Nat} {pages : Finset Nat}

theorem missing_two (mem : Nat → Page) (root va : Nat) : missing mem va 2 root =
    (if node mem root (indices va 2) = none then 1 else 0) + if node mem root [px 2 va] = none then 1 else 0 := by
  have top : node mem root [px 2 va] = child mem root (px 2 va) := by
    rw [node, follow]
    cases child mem root (px 2 va) with
    | none | some _ => rfl
  have both : node mem root (indices va 2) = (child mem root (px 2 va)).bind fun table => child mem table (px 1 va) := by
    have split : indices va 2 = [px 2 va] ++ [px 1 va] := rfl
    rw [split, node, follow_snoc, ← top]
    rfl
  rw [both, top, missing]
  cases child mem root (px 2 va) with
  | none => rfl
  | some table =>
    rw [Option.bind_some, if_neg (Option.some_ne_none table), add_zero]
    dsimp only
    rw [missing]
    cases child mem table (px 1 va) with
    | none | some _ => rfl

theorem card_filter_insert {α : Type} [DecidableEq α] (p : α → Prop) [DecidablePred p] (a : α) (s : Finset α) :
    ((insert a s).filter p).card = (if p a then 1 else 0) + (s.filter fun b => p b ∧ b ≠ a).card := by
  by_cases here : p a
  · have split : (insert a s).filter p = insert a (s.filter fun b => p b ∧ b ≠ a) := by
      ext b
      simp only [mem_filter, mem_insert]
      by_cases same : b = a
      · simp [same, here]
      · simp [same]
    rw [split, card_insert_of_notMem (by simp), if_pos here, add_comm]
  · rw [filter_insert, if_neg here, if_neg here, zero_add]
    congr 1
    refine filter_congr fun b _ => ⟨fun yes => ⟨yes, ?_⟩, And.left⟩
    rintro rfl
    exact here yes

theorem demand_mapped (mapped : pageMap st.mem root v ≠ none) : demand st root (insert v pages) = demand st root pages := by
  have same : absent st root (insert v pages) = absent st root pages := by
    rw [absent, absent, filter_insert, if_neg mapped]
  rw [demand, demand, same]

theorem indices_key (v : Nat) : indices (v / 512 * 512 * pgsize) 2 = indices (v * pgsize) 2 := by
  simp only [indices, px, pgsize, List.cons.injEq, Fin.mk.injEq, and_true]
  omega

theorem px_key (v : Nat) : px 2 (v / 512 ^ 2 * 512 ^ 2 * pgsize) = px 2 (v * pgsize) := by
  simp only [px, pgsize, Fin.mk.injEq]
  omega

theorem key_of_indices {k v : Nat} (small : k < 2 ^ 17) (low : v < userPages)
    (same : indices (k * 512 * pgsize) 2 = indices (v * pgsize) 2) : k = v / 512 := by
  have count : userPages = 2 ^ 26 - 2 := by decide
  simp only [indices, px, pgsize, List.cons.injEq, Fin.mk.injEq, and_true] at same
  omega

theorem key_of_px {k v : Nat} (small : k < 2 ^ 8) (low : v < userPages) (same : px 2 (k * 512 ^ 2 * pgsize) = px 2 (v * pgsize)) :
    k = v / 512 ^ 2 := by
  have count : userPages = 2 ^ 26 - 2 := by decide
  simp only [px, pgsize, Fin.mk.injEq] at same
  omega

theorem demand_insert (small : ∀ w ∈ insert v pages, w < userPages) (outside : v ∉ pages) (unmapped : pageMap st.mem root v = none)
    (map : ∀ w, w ≠ v → (pageMap st'.mem root w = none ↔ pageMap st.mem root w = none))
    (tables : ∀ path, path.length ≤ 2 →
      ((node st'.mem root path).isSome ↔ (node st.mem root path).isSome ∨ path <+: indices (v * pgsize) 2)) :
    demand st root (insert v pages) = 1 + missing st.mem (v * pgsize) 2 root + demand st' root pages := by
  have low : v < userPages := small v (mem_insert_self v pages)
  have count : userPages = 2 ^ 26 - 2 := by decide
  have here : absent st root (insert v pages) = insert v (absent st root pages) := by
    rw [absent, absent, filter_insert, if_pos unmapped]
  have same : absent st' root pages = absent st root pages := by
    refine filter_congr fun w member => map w ?_
    rintro rfl
    exact outside member
  have apart : v ∉ absent st root pages := fun member => outside (mem_filter.mp member).1
  have nodes : ∀ path, path.length ≤ 2 → (node st'.mem root path = none ↔
      node st.mem root path = none ∧ ¬ path <+: indices (v * pgsize) 2) := by
    intro path short
    rw [← not_iff_not, not_and_or, not_not, ← ne_eq, ← ne_eq, Option.ne_none_iff_isSome, Option.ne_none_iff_isSome]
    exact tables path short
  have leaves : (((absent st root pages).image (· / 512)).filter fun k => node st'.mem root (indices (k * 512 * pgsize) 2) = none) =
      ((absent st root pages).image (· / 512)).filter fun k =>
        node st.mem root (indices (k * 512 * pgsize) 2) = none ∧ k ≠ v / 512 := by
    refine filter_congr fun k member => ?_
    obtain ⟨w, mine, rfl⟩ := mem_image.mp member
    have bound := small w (mem_insert_of_mem (mem_filter.mp mine).1)
    rw [nodes _ (indices_length _ 2).le]
    refine and_congr_right fun _ => not_congr ⟨fun starts => ?_, fun equal => ?_⟩
    · refine key_of_indices (by omega) low (starts.eq_of_length ?_)
      rw [indices_length, indices_length]
    · rw [equal, indices_key]
  have middles : (((absent st root pages).image (· / 512 ^ 2)).filter fun k => node st'.mem root [px 2 (k * 512 ^ 2 * pgsize)] = none) =
      ((absent st root pages).image (· / 512 ^ 2)).filter fun k =>
        node st.mem root [px 2 (k * 512 ^ 2 * pgsize)] = none ∧ k ≠ v / 512 ^ 2 := by
    refine filter_congr fun k member => ?_
    obtain ⟨w, mine, rfl⟩ := mem_image.mp member
    have bound := small w (mem_insert_of_mem (mem_filter.mp mine).1)
    rw [nodes [px 2 (w / 512 ^ 2 * 512 ^ 2 * pgsize)] (Nat.le_succ 1)]
    refine and_congr_right fun _ => not_congr ⟨fun starts => ?_, fun equal => ?_⟩
    · obtain ⟨rest, whole⟩ := starts
      exact key_of_px (by omega) low (List.cons.inj whole).1
    · rw [equal, px_key]
      exact ⟨[px 1 (v * pgsize)], rfl⟩
  rw [demand, demand, here, same, leaves, middles, card_insert_of_notMem apart, image_insert, image_insert,
    card_filter_insert, card_filter_insert, missing_two, indices_key, px_key]
  omega

end Xv6.Vm

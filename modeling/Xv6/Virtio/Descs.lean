import Xv6.Virtio.Core

/-!
The descriptor pool: what `alloc3_desc` and `free_chain` do to `disk.free` and `disk.desc`.
-/

namespace Xv6.Virtio.Disk

open Function List

variable {disk : Disk} {idx : List Nat} {i : Nat}

def mark (disk : Disk) (idx : List Nat) : Disk := { disk with free := fun i => disk.free i && decide (i ∉ idx) }

def wipe (disk : Disk) (idx : List Nat) : Disk :=
  { disk with desc := fun i => if i ∈ idx then blank else disk.desc i }

def unmark (disk : Disk) (idx : List Nat) : Disk := { disk with free := fun i => disk.free i || decide (i ∈ idx) }

theorem mark_nil (disk : Disk) : disk.mark [] = disk := by
  simp [mark]

theorem wipe_nil (disk : Disk) : disk.wipe [] = disk := by
  simp [wipe]

structure Available (disk : Disk) (idx : List Nat) : Prop where
  nodup : idx.Nodup
  inside : ∀ i ∈ idx, i < num
  free : ∀ i ∈ idx, disk.free i = true

theorem allocDesc_mark (available : disk.Available idx) :
    (disk.mark idx).allocDesc = none ∨
      ∃ i, (disk.mark idx).allocDesc = some (disk.mark (idx ++ [i]), i) ∧ disk.Available (idx ++ [i]) := by
  unfold allocDesc
  cases found : (List.range num).find? (disk.mark idx).free with
  | none => exact .inl rfl
  | some i =>
    have here : disk.free i = true ∧ i ∉ idx := by simpa [mark] using List.find?_some found
    have low : i < num := mem_range.mp (mem_of_find?_eq_some found)
    refine .inr ⟨i, ?_, nodup_append.mpr ⟨available.nodup, nodup_singleton i, ?_⟩, fun j member => ?_, fun j member => ?_⟩
    · simp only [Option.some.injEq, Prod.mk.injEq, and_true, mark]
      congr 1
      funext j
      by_cases same : j = i
      · simp [same]
      · simp [same]
    · rintro j member k only rfl
      rw [mem_singleton.mp only] at member
      exact here.2 member
    · rcases mem_append.mp member with old | new
      · exact available.inside j old
      · rw [mem_singleton.mp new]
        exact low
    · rcases mem_append.mp member with old | new
      · exact available.free j old
      · rw [mem_singleton.mp new]
        exact here.1

theorem freeDesc_ok (low : i < num) (used : disk.free i = false) :
    disk.freeDesc i = .ok { disk with desc := update disk.desc i blank, free := update disk.free i true } := by
  rw [freeDesc, if_neg (not_le.mpr low), if_neg (by rw [used]; nofun)]

theorem freeAll_mark {rest done : List Nat} (available : disk.Available rest) (apart : ∀ i ∈ rest, i ∉ done) :
    ((disk.wipe done).mark rest).freeAll rest = .ok (disk.wipe (done ++ rest)) := by
  induction rest generalizing done with
  | nil => rw [freeAll, mark_nil, append_nil]
  | cons i rest ih =>
    obtain ⟨fresh, nodup⟩ := nodup_cons.mp available.nodup
    have used : ((disk.wipe done).mark (i :: rest)).free i = false := by simp [mark]
    have freed : ((disk.wipe done).mark (i :: rest)).freeDesc i = .ok ((disk.wipe (done ++ [i])).mark rest) := by
      rw [freeDesc_ok (available.inside i mem_cons_self) used]
      simp only [mark, wipe, Except.ok.injEq, mk.injEq, and_true]
      constructor
      · funext j
        by_cases same : j = i
        · simp [same]
        · simp [same]
      funext j
      obtain rfl | same := eq_or_ne j i
      · simp [fresh, available.free j mem_cons_self]
      · simp [same]
    rw [freeAll, freed]
    have more : disk.Available rest := ⟨nodup, fun j member => available.inside j (mem_cons_of_mem i member),
      fun j member => available.free j (mem_cons_of_mem i member)⟩
    have distinct : ∀ j ∈ rest, j ∉ done ++ [i] := by
      intro j member either
      rcases mem_append.mp either with old | same
      · exact apart j (mem_cons_of_mem i member) old
      · exact fresh (mem_singleton.mp same ▸ member)
    have last := ih more distinct
    rw [append_assoc] at last
    exact last

theorem allocLoop_spec (left : Nat) (available : disk.Available idx) :
    (∃ more, allocLoop left (disk.mark idx) idx = .ok (disk.mark (idx ++ more), some (idx ++ more)) ∧
      more.length = left ∧ disk.Available (idx ++ more)) ∨
    ∃ taken, allocLoop left (disk.mark idx) idx = .ok (disk.wipe taken, none) ∧ ∀ i ∈ taken, disk.free i = true := by
  induction left generalizing idx with
  | zero => exact .inl ⟨[], by rw [append_nil]; rfl, rfl, by rwa [append_nil]⟩
  | succ left ih =>
    rcases allocDesc_mark available with none | ⟨i, some, more⟩
    · refine .inr ⟨idx, ?_, available.free⟩
      have freed : (disk.mark idx).freeAll idx = .ok (disk.wipe idx) := by
        have all : ((disk.wipe []).mark idx).freeAll idx = .ok (disk.wipe ([] ++ idx)) :=
          freeAll_mark available fun _ _ => not_mem_nil
        rwa [wipe_nil] at all
      rw [allocLoop, none]
      simp only [freed]
      rfl
    · rw [allocLoop, some]
      rcases ih more with ⟨rest, ran, length, all⟩ | failed
      · have same : idx ++ i :: rest = idx ++ [i] ++ rest := append_cons idx i rest
        refine .inl ⟨i :: rest, ?_, by rw [length_cons, length], ?_⟩
        · rw [same]
          exact ran
        · rw [same]
          exact all
      · exact .inr failed

theorem alloc3Desc_spec (disk : Disk) :
    (∃ i0 i1 i2, disk.alloc3Desc = .ok (disk.mark [i0, i1, i2], some [i0, i1, i2]) ∧ disk.Available [i0, i1, i2]) ∨
    ∃ taken, disk.alloc3Desc = .ok (disk.wipe taken, none) ∧ ∀ i ∈ taken, disk.free i = true := by
  have start : disk.Available [] := ⟨nodup_nil, nofun, nofun⟩
  rcases allocLoop_spec 3 start with ⟨idx, ran, length, available⟩ | failed
  · rw [mark_nil] at ran
    match idx, length with
    | [i0, i1, i2], _ => exact .inl ⟨i0, i1, i2, ran, available⟩
  · rw [mark_nil] at failed
    exact .inr failed

theorem freeChain_step {fuel : Nat} (low : i < num) (used : disk.free i = false) :
    freeChain (fuel + 1) disk i =
      if (disk.desc i).nextFlag then
        freeChain fuel { disk with desc := update disk.desc i blank, free := update disk.free i true } (disk.desc i).next
      else .ok { disk with desc := update disk.desc i blank, free := update disk.free i true } := by
  rw [freeChain, freeDesc_ok low used]
  rfl

theorem freeChain_three {i0 i1 i2 fuel : Nat} (nodup : [i0, i1, i2].Nodup) (inside : ∀ i ∈ [i0, i1, i2], i < num)
    (used : ∀ i ∈ [i0, i1, i2], disk.free i = false) (first : (disk.desc i0).nextFlag = true)
    (second : (disk.desc i0).next = i1) (third : (disk.desc i1).nextFlag = true) (fourth : (disk.desc i1).next = i2)
    (last : (disk.desc i2).nextFlag = false) :
    freeChain (fuel + 3) disk i0 = .ok ((disk.wipe [i0, i1, i2]).unmark [i0, i1, i2]) := by
  simp only [nodup_cons, mem_cons, not_mem_nil, or_false, not_or, nodup_nil, and_true,
    not_false_eq_true] at nodup
  obtain ⟨⟨one, two⟩, three⟩ := nodup
  simp only [mem_cons, not_mem_nil, or_false, forall_eq_or_imp, forall_eq] at inside used
  obtain ⟨low0, low1, low2⟩ := inside
  obtain ⟨used0, used1, used2⟩ := used
  rw [freeChain_step low0 used0, if_pos first, second,
    freeChain_step low1 (by simpa [Ne.symm one] using used1), if_pos (by simpa [Ne.symm one] using third)]
  simp only [update_of_ne (Ne.symm one), fourth]
  rw [freeChain_step low2 (by simpa [Ne.symm two, Ne.symm three] using used2),
    if_neg (by simpa [Ne.symm two, Ne.symm three] using last)]
  simp only [wipe, unmark, Except.ok.injEq, mk.injEq, and_true]
  constructor
  all_goals
    funext j
    simp only [update_apply, mem_cons, not_mem_nil, or_false]
    by_cases j2 : j = i2 <;> by_cases j1 : j = i1 <;> by_cases j0 : j = i0 <;> simp [j0, j1, j2]

end Xv6.Virtio.Disk

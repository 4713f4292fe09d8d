import Xv6.Find.Tree

/-!
Directories below a given one. `Baja dir names target` says that the directory names
`names`, none of them `.` or `..`, lead from `dir` down to `target`. `rutaDe` is the path
name that the names spell.
-/

namespace Xv6.Find

open List

def Fs.Entrada (fs : Fs) (dir : Nat) (name : Cadena) (inum : Nat) : Prop :=
  ⟨inum, name⟩ ∈ fs.dirents dir ∧ inum ≠ 0

inductive Baja (fs : Fs) : Nat → List Cadena → Nat → Prop
  | here {dir : Nat} : Baja fs dir [] dir
  | down {dir next target : Nat} {name : Cadena} {names : List Cadena} :
      fs.Entrada dir name next → ¬ esPunto name → fs.isDir next = true →
      Baja fs next names target → Baja fs dir (name :: names) target

def rutaDe (base : Cadena) (names : List Cadena) : Cadena :=
  names.foldl (fun ruta name => ruta ++ [barra] ++ name) base

variable {fs : Fs} {tree : Tree} {dir next target cwd : Nat} {name : Cadena} {names more : List Cadena}

theorem rutaDe_snoc (base : Cadena) (names : List Cadena) (name : Cadena) :
    rutaDe base (names ++ [name]) = rutaDe base names ++ [barra] ++ name := by
  rw [rutaDe, foldl_append]
  rfl

theorem length_rutaDe_mono {base other : Cadena} (shorter : base.length ≤ other.length)
    (names : List Cadena) : (rutaDe base names).length ≤ (rutaDe other names).length := by
  induction names generalizing base other with
  | nil => exact shorter
  | cons name names ih =>
    refine ih ?_
    simp only [length_append]
    omega

theorem length_le_rutaDe (base : Cadena) (names : List Cadena) :
    base.length ≤ (rutaDe base names).length := by
  induction names generalizing base with
  | nil => exact Nat.le_refl _
  | cons name names ih =>
    refine Nat.le_trans ?_ (ih (base ++ [barra] ++ name))
    simp only [length_append]
    omega

theorem Baja.snoc (below : Baja fs dir names target) (entry : fs.Entrada target name next)
    (plain : ¬ esPunto name) (isDir : fs.isDir next = true) :
    Baja fs dir (names ++ [name]) next := by
  induction below with
  | here => exact .down entry plain isDir .here
  | down first skip inner _ ih => exact .down first skip inner (ih entry)

theorem Baja.isDir (below : Baja fs dir names target) (start : fs.isDir dir = true) :
    fs.isDir target = true := by
  induction below with
  | here => exact start
  | down _ _ inner _ ih => exact ih inner

theorem Baja.eq_or_snoc (below : Baja fs dir names target) :
    (names = [] ∧ target = dir) ∨ ∃ before name middle, names = before ++ [name] ∧
      Baja fs dir before middle ∧ fs.Entrada middle name target ∧ ¬ esPunto name ∧
      fs.isDir target = true := by
  induction below with
  | here => exact .inl ⟨rfl, rfl⟩
  | @down dir next target name names entry plain isDir rest ih =>
    right
    rcases ih with ⟨rfl, rfl⟩ | ⟨before, last, middle, rfl, upto, found, skip, inner⟩
    · exact ⟨[], name, dir, rfl, .here, entry, plain, isDir⟩
    · exact ⟨name :: before, last, middle, rfl, .down entry plain isDir upto, found, skip, inner⟩

theorem Tree.entrada_unique (isDir : tree.isDir dir = true) (first : tree.Entrada dir name next)
    (second : tree.Entrada dir name target) : next = target := by
  have symmetric : Std.Symm fun de other : Dirent =>
      de.inum ≠ 0 → other.inum ≠ 0 → de.name ≠ other.name :=
    ⟨fun _ _ apart used also => (apart also used).symm⟩
  by_contra different
  have apart := (tree.distinct dir isDir).forall first.1 second.1 fun same =>
    different (Dirent.mk.inj same).1
  exact apart first.2 second.2 rfl

theorem Tree.dirlookup_eq (isDir : tree.isDir dir = true) :
    tree.dirlookup dir name = some next ↔ tree.Entrada dir name next := by
  constructor
  · intro found
    obtain ⟨de, first, rfl⟩ := Option.map_eq_some_iff.mp found
    have fits := List.find?_some first
    simp only [decide_eq_true_eq] at fits
    obtain ⟨used, rfl⟩ := fits
    exact ⟨mem_of_find?_eq_some first, used⟩
  intro entry
  cases result : tree.dirlookup dir name with
  | none =>
    simp only [Fs.dirlookup, Option.map_eq_none_iff, List.find?_eq_none] at result
    exact absurd (by simpa using result _ entry.1) entry.2
  | some other =>
    obtain ⟨de, first, rfl⟩ := Option.map_eq_some_iff.mp result
    have fits := List.find?_some first
    simp only [decide_eq_true_eq] at fits
    obtain ⟨used, rfl⟩ := fits
    rw [tree.entrada_unique isDir ⟨mem_of_find?_eq_some first, used⟩ entry]

theorem Tree.depth_eq (below : Baja tree.toFs dir names target) (isDir : tree.isDir dir = true) :
    tree.depth target = tree.depth dir + names.length := by
  induction below with
  | here => rfl
  | @down dir next target name names entry plain inner _ ih =>
    have deeper := (tree.child dir isDir _ entry.1 entry.2 plain inner).2
    rw [ih inner, deeper, length_cons]
    omega

theorem Tree.baja_unique (first : Baja tree.toFs dir names target)
    (second : Baja tree.toFs dir more target) (isDir : tree.isDir dir = true) : names = more := by
  have sameLength : names.length = more.length := by
    have one := tree.depth_eq first isDir
    have two := tree.depth_eq second isDir
    omega
  induction count : names.length generalizing names more target with
  | zero =>
    have empty : more = [] := length_eq_zero_iff.mp (sameLength.symm.trans count)
    rw [length_eq_zero_iff.mp count, empty]
  | succ count' ih =>
    rcases first.eq_or_snoc with ⟨rfl, _⟩ | ⟨before, name, middle, rfl, upto, entry, plain, inner⟩
    · simp at count
    rcases second.eq_or_snoc with ⟨rfl, _⟩ | ⟨before', name', middle', rfl, upto', entry', plain', _⟩
    · simp [count] at sameLength
    -- both last steps enter `target`, so they start in its parent and use its one name there
    have parent := (tree.child middle (upto.isDir isDir) _ entry.1 entry.2 plain inner).1
    have parent' := (tree.child middle' (upto'.isDir isDir) _ entry'.1 entry'.2 plain' inner).1
    obtain rfl : middle = middle' := parent.symm.trans parent'
    have sameName := tree.once middle (upto.isDir isDir) _ entry.1 _ entry'.1 plain plain' inner rfl
    simp only [length_append, length_singleton] at sameLength count
    rw [ih upto upto' (by omega) (by omega), show name = name' from sameName]

theorem Tree.namei_rutaDe {base : Cadena} (below : Baja tree.toFs dir names target) (isDir : tree.isDir dir = true)
    (found : tree.namei cwd base = some dir) (nonempty : base ≠ []) :
    tree.namei cwd (rutaDe base names) = some target ∧ rutaDe base names ≠ [] := by
  induction below generalizing base with
  | here => exact ⟨found, nonempty⟩
  | @down dir next target name names entry plain inner _ ih =>
    have valid := tree.valid dir isDir _ entry.1 entry.2
    refine ih inner ?_ (by simp)
    rw [Fs.namei_append nonempty found isDir valid.nonempty valid.plain,
      take_of_length_le valid.fits]
    exact (tree.dirlookup_eq isDir).mpr entry

end Xv6.Find

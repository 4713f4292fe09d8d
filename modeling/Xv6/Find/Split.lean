import Xv6.Find.Visits

/-!
The lines of a call in two parts. `limpias` come from calls that were reached through whole
names only: each of them stands for one entry below the directory of the call. `desviadas`
come from the other calls.
-/

namespace Xv6.Find

open List

variable {de : Dirent} {place : Option (Nat × Cadena)}

def limpiasDe (fs : Fs) (dentro : Nat → Cadena → List Cadena) (room dir : Nat) (base : Cadena)
    (de : Dirent) : List Cadena :=
  (destino fs room dir base de).elim [] fun sub =>
    if de.name.length ≤ room then dentro sub.1 sub.2 else []

def limpias (fs : Fs) (buscado : Cadena) : Nat → Nat → Nat → Cadena → List Cadena
  | 0, _, _, _ => []
  | fuel + 1, room, dir, base =>
    (fs.dirents dir).flatMap fun de => propia buscado base de ++
      limpiasDe fs (limpias fs buscado fuel buscado.length) room dir base de

def desviadas (fs : Fs) (buscado : Cadena) : Nat → Nat → Nat → Cadena → List Cadena
  | 0, _, _, _ => []
  | fuel + 1, room, dir, base =>
    (fs.dirents dir).flatMap fun de => (destino fs room dir base de).elim [] fun sub =>
      if de.name.length ≤ room then desviadas fs buscado fuel buscado.length sub.1 sub.2
      else lineas fs buscado fuel buscado.length sub.1 sub.2

variable {tree : Tree} {cwd dir next sub inum room fuel : Nat}
variable {buscado base name line : Cadena} {names : List Cadena}

theorem lineas_perm (fs : Fs) (buscado : Cadena) (fuel room dir : Nat) (base : Cadena) :
    (lineas fs buscado fuel room dir base).Perm
      (limpias fs buscado fuel room dir base ++ desviadas fs buscado fuel room dir base) := by
  induction fuel generalizing room dir base with
  | zero => exact .nil
  | succ fuel ih =>
    rw [lineas, limpias, desviadas]
    refine (List.Perm.flatMap_left _ fun de _ => ?_).trans (flatMap_append_perm _ _ _).symm
    rw [append_assoc]
    refine List.Perm.append_left _ ?_
    rw [limpiasDe]
    cases destino fs room dir base de with
    | none => exact .nil
    | some sub =>
      dsimp only [Option.elim]
      split
      · exact ih _ _ _
      · exact .refl _

theorem mem_propia : line ∈ propia buscado base de ↔
    de.inum ≠ 0 ∧ ¬ esPunto de.name ∧ de.name = buscado ∧ line = base ++ [barra] ++ buscado := by
  rw [propia]
  split
  · next all =>
    rw [mem_singleton]
    exact ⟨fun same => ⟨all.1, all.2.1, all.2.2, same⟩, fun given => given.2.2.2⟩
  next missing =>
  constructor
  · intro inside
    exact absurd inside not_mem_nil
  · rintro ⟨used, plain, named, _⟩
    exact absurd ⟨used, plain, named⟩ missing

theorem enough_sub (enough : maxPath ≤ fuel + 1 + base.length) (name : Cadena) :
    maxPath ≤ fuel + (base ++ [barra] ++ name).length := by
  rw [length_append, length_append, length_singleton]
  omega

theorem destino_whole (isDir : tree.isDir dir = true) {sub : Nat × Cadena} (listed : de ∈ tree.dirents dir)
    (whole : de.name.length ≤ room) :
    destino tree.toFs room dir base de = some sub ↔
      de.inum ≠ 0 ∧ ¬ esPunto de.name ∧ tree.isDir de.inum = true ∧
        (base ++ [barra] ++ de.name).length < maxPath ∧
        sub = (de.inum, base ++ [barra] ++ de.name) := by
  constructor
  · intro goes
    obtain ⟨⟨used, plain⟩, looked, inner, dest, fits⟩ := destino_some goes
    rw [take_of_length_le whole] at looked dest
    have same : de.inum = sub.1 := tree.entrada_unique isDir ⟨listed, used⟩
      ((tree.dirlookup_eq isDir).mp looked)
    exact ⟨used, plain, same ▸ inner, dest ▸ fits, Prod.ext same.symm dest⟩
  · rintro ⟨used, plain, inner, fits, rfl⟩
    rw [destino, if_neg (not_or.mpr ⟨used, plain⟩), take_of_length_le whole,
      (tree.dirlookup_eq isDir).mpr ⟨listed, used⟩, Option.bind_some, if_pos ⟨fits, inner⟩]

theorem mem_limpiasDe (isDir : tree.isDir dir = true) (listed : de ∈ tree.dirents dir)
    {dentro : Nat → Cadena → List Cadena} :
    line ∈ limpiasDe tree.toFs dentro room dir base de ↔
      (de.inum ≠ 0 ∧ ¬ esPunto de.name ∧ tree.isDir de.inum = true) ∧ de.name.length ≤ room ∧
        (base ++ [barra] ++ de.name).length < maxPath ∧
        line ∈ dentro de.inum (base ++ [barra] ++ de.name) := by
  rw [limpiasDe]
  constructor
  · intro inside
    cases goes : destino tree.toFs room dir base de with
    | none => simp [goes] at inside
    | some next =>
      rw [goes, Option.elim] at inside
      split at inside
      · next whole =>
        obtain ⟨used, plain, inner, bound, rfl⟩ := (destino_whole isDir listed whole).mp goes
        exact ⟨⟨used, plain, inner⟩, whole, bound, inside⟩
      · exact absurd inside not_mem_nil
  · rintro ⟨⟨used, plain, inner⟩, whole, bound, inside⟩
    rw [(destino_whole isDir listed whole).mpr ⟨used, plain, inner, bound, rfl⟩, Option.elim,
      if_pos whole]
    exact inside

theorem mem_limpias (isDir : tree.isDir dir = true) (fits : base.length < maxPath)
    (enough : maxPath ≤ fuel + base.length) :
    line ∈ limpias tree.toFs buscado fuel room dir base ↔
      ∃ names sub inum, Baja tree.toFs dir names sub ∧ Corta room buscado.length names ∧
        tree.Entrada sub buscado inum ∧ ¬ esPunto buscado ∧
        (rutaDe base names).length < maxPath ∧ line = rutaDe base names ++ [barra] ++ buscado := by
  induction fuel generalizing room dir base with
  | zero => omega
  | succ fuel ih =>
    rw [limpias, mem_flatMap]
    constructor
    · rintro ⟨de, listed, inside⟩
      rcases mem_append.mp inside with own | deeper
      · obtain ⟨used, plain, rfl, rfl⟩ := mem_propia.mp own
        exact ⟨[], dir, de.inum, .here, trivial, ⟨listed, used⟩, plain, fits, rfl⟩
      obtain ⟨⟨used, plain, inner⟩, whole, bound, printed⟩ := (mem_limpiasDe isDir listed).mp deeper
      obtain ⟨names, sub, inum, below, short, entry, skip, long, rfl⟩ :=
        (ih inner bound (enough_sub enough _)).mp printed
      exact ⟨de.name :: names, sub, inum, .down ⟨listed, used⟩ plain inner below,
        short.cons whole, entry, skip, long, rfl⟩
    · rintro ⟨names, sub, inum, below, short, entry, skip, long, rfl⟩
      cases below with
      | here =>
        exact ⟨_, entry.1, mem_append_left _ (mem_propia.mpr ⟨entry.2, skip, rfl, rfl⟩)⟩
      | @down _ next _ name names found plain inner rest =>
        have bound := Nat.lt_of_le_of_lt (length_le_rutaDe (base ++ [barra] ++ name) names) long
        have printed := (ih inner bound (enough_sub enough _)).mpr
          ⟨names, sub, inum, rest, short.tail, entry, skip, long, rfl⟩
        exact ⟨_, found.1, mem_append_right _ ((mem_limpiasDe isDir found.1).mpr
          ⟨⟨found.2, plain, inner⟩, short.1, bound, printed⟩)⟩

def Denota (tree : Tree) (dir : Nat) (buscado : Cadena) (de : Dirent)
    (place : Option (Nat × Cadena)) : Prop :=
  ∃ names sub, place = some (sub, buscado) ∧ Baja tree.toFs dir names sub ∧ de.inum ≠ 0 ∧
    ((names = [] ∧ de.name = buscado) ∨ ∃ rest, names = de.name :: rest)

theorem Denota.used (denotes : Denota tree dir buscado de place) : de.inum ≠ 0 := by
  obtain ⟨_, _, _, _, used, _⟩ := denotes
  exact used

section Distinct

variable (isDir : tree.isDir dir = true) (found : tree.namei cwd base = some dir)
variable (nonempty : base ≠ []) (valid : NombreValido buscado) (fits : base.length < maxPath)
include isDir found nonempty valid

include fits

end Distinct

end Xv6.Find

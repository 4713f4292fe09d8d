import Xv6.Find.Lines

/-!
Which directories the nested calls of `buscar_archivo` work on. A cut name can be `.`, `..`
or the name of another entry, so the calls may leave the subtree of the start directory and
come back. What they cannot do is enter a directory of that subtree through a name longer
than the room: `Corta` says that a chain of names has no such name.
-/

namespace Xv6.Find

open List

def Corta (room size : Nat) : List Cadena → Prop
  | [] => True
  | name :: names => name.length ≤ room ∧ ∀ other ∈ names, other.length ≤ size

instance (room size : Nat) : (names : List Cadena) → Decidable (Corta room size names)
  | [] => inferInstanceAs (Decidable True)
  | _ :: _ => inferInstanceAs (Decidable (_ ∧ _))

variable {tree : Tree} {cwd start dir next room first fuel : Nat}
variable {buscado base origen name line : Cadena} {names : List Cadena}

theorem Corta.append_left {size : Nat} {more : List Cadena}
    (short : Corta room size (names ++ more)) : Corta room size names := by
  cases names with
  | nil => trivial
  | cons name names =>
    exact ⟨short.1, fun other inside => short.2 other (mem_append_left _ inside)⟩

theorem Corta.snoc {size : Nat} (short : Corta room size names)
    (fits : name.length ≤ if names = [] then room else size) : Corta room size (names ++ [name]) := by
  cases names with
  | nil => exact ⟨fits, by simp⟩
  | cons head names =>
    refine ⟨short.1, fun other inside => ?_⟩
    rcases mem_append.mp inside with early | last
    · exact short.2 other early
    · rw [mem_singleton.mp last]
      simpa using fits

theorem Corta.tail {size : Nat} (short : Corta room size (name :: names)) :
    Corta size size names := by
  cases names with
  | nil => trivial
  | cons other names =>
    exact ⟨short.2 other mem_cons_self,
      fun later inside => short.2 later (mem_cons_of_mem _ inside)⟩

theorem Corta.cons {size : Nat} (short : Corta size size names) (fits : name.length ≤ room) :
    Corta room size (name :: names) := by
  refine ⟨fits, fun other inside => ?_⟩
  cases names with
  | nil => exact absurd inside not_mem_nil
  | cons head names =>
    rcases mem_cons.mp inside with rfl | later
    · exact short.1
    · exact short.2 other later

structure Visita (tree : Tree) (cwd start first : Nat) (origen buscado : Cadena) (dir room : Nat)
    (base : Cadena) : Prop where
  nonempty : base ≠ []
  found : tree.namei cwd base = some dir
  isDir : tree.isDir dir = true
  startDir : tree.isDir start = true
  wide : buscado.length ≤ first
  room : room = buscado.length ∨ room = first ∧ dir = start
  short : (∃ names, Baja tree.toFs start names dir ∧ Corta first buscado.length names) ∨
    ∀ names, ¬ Baja tree.toFs start names dir
  long : origen.length ≤ base.length
  reach : ∀ names, Baja tree.toFs start names dir → (rutaDe origen names).length ≤ base.length
  fits : base.length < maxPath

theorem Visita.initial (nonempty : base ≠ []) (found : tree.namei cwd base = some start)
    (isDir : tree.isDir start = true) (wide : buscado.length ≤ first) (fits : base.length < maxPath) :
    Visita tree cwd start first base buscado start first base where
  nonempty := nonempty
  found := found
  isDir := isDir
  startDir := isDir
  wide := wide
  room := .inr ⟨rfl, rfl⟩
  short := .inl ⟨[], .here, trivial⟩
  long := Nat.le_refl _
  reach := by
    intro names below
    rw [← tree.baja_unique .here below isDir]
    exact Nat.le_refl _
  fits := fits

theorem Tree.entrada_dot (isDir : tree.isDir dir = true)
    (entry : tree.Entrada dir [punto] next) : next = dir :=
  tree.entrada_unique isDir entry ⟨tree.dot dir isDir, tree.positive dir isDir⟩

theorem Tree.entrada_dotdot (isDir : tree.isDir dir = true)
    (entry : tree.Entrada dir [punto, punto] next) : next = tree.parent dir := by
  obtain ⟨inner, listed⟩ := tree.dotdot dir isDir
  exact tree.entrada_unique isDir entry ⟨listed, tree.positive _ inner⟩

theorem Tree.baja_of_parent (isDir : tree.isDir dir = true)
    (below : Baja tree.toFs start names (tree.parent dir)) :
    ∃ more, Baja tree.toFs start (names ++ more) dir := by
  obtain rfl | root := eq_or_ne dir rootIno
  · rw [tree.rootParent] at below
    exact ⟨[], by simpa using below⟩
  · obtain ⟨name, plain, listed⟩ := tree.listed dir isDir root
    exact ⟨[name], below.snoc ⟨listed, tree.positive dir isDir⟩ plain isDir⟩

theorem Tree.baja_child (isDir : tree.isDir dir = true) (entry : tree.Entrada dir name next)
    (plain : ¬ esPunto name) (inner : tree.isDir next = true) (startDir : tree.isDir start = true)
    (below : Baja tree.toFs start names next) :
    (names = [] ∧ next = start) ∨
      ∃ before, names = before ++ [name] ∧ Baja tree.toFs start before dir := by
  rcases below.eq_or_snoc with ⟨empty, same⟩ |
    ⟨before, last, middle, rfl, upto, found, skip, _⟩
  · exact .inl ⟨empty, same⟩
  right
  have mine := (tree.child dir isDir _ entry.1 entry.2 plain inner).1
  have theirs := (tree.child middle (upto.isDir startDir) _ found.1 found.2 skip inner).1
  obtain rfl : middle = dir := theirs.symm.trans mine
  have sameName : last = name := tree.once middle isDir _ found.1 _ entry.1 skip plain inner rfl
  exact ⟨before, by rw [sameName], upto⟩

namespace Visita

variable (visit : Visita tree cwd start first origen buscado dir room base)
include visit

theorem corta (below : Baja tree.toFs start names dir) : Corta first buscado.length names := by
  rcases visit.short with ⟨other, same, short⟩ | outside
  · rwa [tree.baja_unique below same visit.startDir]
  · exact absurd below (outside names)

theorem short_next (entry : tree.Entrada dir name next) (isDir : tree.isDir next = true)
    (cut : name.length ≤ room) :
    (∃ names, Baja tree.toFs start names next ∧ Corta first buscado.length names) ∨
      ∀ names, ¬ Baja tree.toFs start names next := by
  by_cases outside : ∀ names, ¬ Baja tree.toFs start names next
  · exact .inr outside
  left
  obtain ⟨names, below⟩ := not_forall_not.mp outside
  refine ⟨names, below, ?_⟩
  by_cases dots : esPunto name
  · rcases dots with rfl | rfl
    · rw [tree.entrada_dot visit.isDir entry] at below
      exact visit.corta below
    · rw [tree.entrada_dotdot visit.isDir entry] at below
      obtain ⟨more, longer⟩ := tree.baja_of_parent visit.isDir below
      exact (visit.corta longer).append_left
  rcases tree.baja_child visit.isDir entry dots isDir visit.startDir below with
    ⟨rfl, _⟩ | ⟨before, rfl, upto⟩
  · trivial
  refine (visit.corta upto).snoc ?_
  have wide := visit.wide
  rcases visit.room with exactly | ⟨roomy, rfl⟩
  · split <;> omega
  · -- only the first call has more room, and its chain is empty
    rw [if_pos (tree.baja_unique upto .here visit.startDir)]
    omega

theorem reach_next (entry : tree.Entrada dir name next) (isDir : tree.isDir next = true)
    (below : Baja tree.toFs start names next) :
    (rutaDe origen names).length ≤ (base ++ [barra] ++ name).length := by
  have grows : base.length ≤ (base ++ [barra] ++ name).length := by
    simp only [length_append]
    omega
  by_cases dots : esPunto name
  · refine Nat.le_trans ?_ grows
    rcases dots with rfl | rfl
    · rw [tree.entrada_dot visit.isDir entry] at below
      exact visit.reach names below
    rw [tree.entrada_dotdot visit.isDir entry] at below
    obtain ⟨more, longer⟩ := tree.baja_of_parent visit.isDir below
    refine Nat.le_trans ?_ (visit.reach _ longer)
    rw [rutaDe, rutaDe, foldl_append]
    exact length_le_rutaDe _ more
  · rcases tree.baja_child visit.isDir entry dots isDir visit.startDir below with
      ⟨rfl, _⟩ | ⟨before, rfl, upto⟩
    · exact Nat.le_trans visit.long grows
    have upper := visit.reach before upto
    rw [rutaDe_snoc]
    simp only [length_append]
    omega

theorem step {de : Dirent} {sub : Nat × Cadena}
    (goes : destino tree.toFs room dir base de = some sub) :
    Visita tree cwd start first origen buscado sub.1 buscado.length sub.2 := by
  obtain ⟨_, looked, isDir, dest, fits⟩ := destino_some goes
  have entry := (tree.dirlookup_eq visit.isDir).mp looked
  have valid := tree.valid dir visit.isDir _ entry.1 entry.2
  have longer : base.length ≤ sub.2.length := by
    rw [dest]
    simp only [length_append]
    omega
  exact {
    nonempty := by simp [dest]
    found := by
      rw [dest, Fs.namei_append visit.nonempty visit.found visit.isDir valid.nonempty valid.plain,
        take_of_length_le valid.fits, looked]
    isDir := isDir
    startDir := visit.startDir
    wide := visit.wide
    room := .inl rfl
    short := visit.short_next entry isDir (length_take_le _ _)
    long := Nat.le_trans visit.long longer
    reach := fun names below => by
      rw [dest]
      exact visit.reach_next entry isDir below
    fits := fits }

theorem of_mem_lineas (printed : line ∈ lineas tree.toFs buscado fuel room dir base) :
    ∃ dir' room' base' inum, Visita tree cwd start first origen buscado dir' room' base' ∧
      line = base' ++ [barra] ++ buscado ∧ tree.Entrada dir' buscado inum ∧ ¬ esPunto buscado := by
  induction fuel generalizing room dir base with
  | zero => exact absurd printed not_mem_nil
  | succ fuel ih =>
    obtain ⟨de, listed, inside⟩ := mem_flatMap.mp printed
    rcases mem_append.mp inside with own | deeper
    · rw [propia] at own
      split at own
      · next all =>
        obtain ⟨used, plain, rfl⟩ := all
        exact ⟨dir, room, base, de.inum, visit, mem_singleton.mp own, ⟨listed, used⟩, plain⟩
      · exact absurd own not_mem_nil
    cases goes : destino tree.toFs room dir base de with
    | none =>
      rw [goes] at deeper
      exact absurd deeper not_mem_nil
    | some sub =>
      rw [goes] at deeper
      exact ih (visit.step goes) deeper

end Visita

end Xv6.Find

import Xv6.Find.Lines

/-!
Searching for a name of `DIRSIZ` bytes. Such a name is read as itself only while `st.dev` is
zero; after the first `stat` that succeeds every full name reads one byte longer, so nothing
compares equal any more.
-/

namespace Xv6.Find

open List Option

variable {tree : Tree} {cwd dir next room lenRuta fuel dev : Nat} {basura : Nat → UInt8}
variable {buscado base ruta name : Cadena}

def hasta (test : Dirent → Bool) : List Dirent → List Dirent
  | [] => []
  | de :: resto => if test de then [de] else de :: hasta test resto

def Tree.llena (tree : Tree) (base : Cadena) (de : Dirent) : Bool :=
  de.inum ≠ 0 ∧ ¬ esPunto de.name ∧ (base ++ [barra] ++ de.name).length < maxPath ∧
    tree.openable de.inum = true

theorem mem_hasta {test : Dirent → Bool} {entries : List Dirent} {de : Dirent} :
    de ∈ hasta test entries ↔
      ∃ before after, entries = before ++ de :: after ∧ ∀ other ∈ before, test other = false := by
  induction entries with
  | nil => simp [hasta]
  | cons head resto ih =>
    rw [hasta]
    by_cases stops : test head = true
    · rw [if_pos stops, mem_singleton]
      constructor
      · rintro rfl
        exact ⟨[], resto, rfl, by simp⟩
      rintro ⟨before, after, split, none⟩
      cases before with
      | nil => exact (List.cons.inj split).1.symm
      | cons other before =>
        obtain ⟨rfl, _⟩ := List.cons.inj split
        simp [none head mem_cons_self] at stops
    · rw [if_neg stops, mem_cons, ih]
      constructor
      · rintro (rfl | ⟨before, after, rfl, none⟩)
        · exact ⟨[], resto, rfl, by simp⟩
        refine ⟨head :: before, after, rfl, fun other inside => ?_⟩
        rcases mem_cons.mp inside with rfl | early
        · simpa using stops
        · exact none other early
      rintro ⟨before, after, split, none⟩
      cases before with
      | nil => exact .inl (List.cons.inj split).1.symm
      | cons other before =>
        exact .inr ⟨before, after, (List.cons.inj split).2,
          fun later inside => none later (mem_cons_of_mem _ inside)⟩

theorem nombreLeido_ne (valid : NombreValido name) (full : buscado.length = dirSiz) :
    nombreLeido name 1 ≠ buscado := by
  intro same
  rw [← same] at full
  by_cases short : name.length < dirSiz
  · rw [nombreLeido_eq valid.clean (.inl short)] at full
    omega
  · rw [nombreLeido_full valid.clean (Nat.le_antisymm valid.fits (by omega)), length_append,
      length_singleton] at full
    omega

theorem nombreLeido_plain (valid : NombreValido name) (known : dev ≤ 1) :
    nombreLeido name dev ≠ [] ∧ barra ∉ nombreLeido name dev := by
  rcases nombreLeido_cases valid known with same | ⟨_, _, longer⟩
  · rw [same]
    exact ⟨valid.nonempty, valid.plain⟩
  rw [longer]
  refine ⟨by simp, fun inside => ?_⟩
  rcases mem_append.mp inside with own | last
  · exact valid.plain own
  · exact absurd (mem_singleton.mp last) (by decide)

theorem Llamada.stat_true (call : Llamada tree cwd buscado lenRuta dir room base) (named : name ≠ [])
    (clean : SinNulos name) (plain : barra ∉ name)
    (answered : (tree.entorno cwd basura).stat (base ++ [barra] ++ name) = some true) :
    ∃ next, (base ++ [barra] ++ name).length < maxPath ∧
      Llamada tree cwd buscado (base ++ [barra] ++ name).length next buscado.length
        (base ++ [barra] ++ name) := by
  rw [tree.stat_append call.nonempty call.found call.isDir named plain] at answered
  split at answered
  · next fits =>
    obtain ⟨next, kept, isDir⟩ := map_eq_some_iff.mp answered
    exact ⟨next, fits, call.sub named clean plain (eq_some_of_filter_eq_some kept) isDir⟩
  · exact absurd answered (by simp)

theorem Llamada.stat_entry (call : Llamada tree cwd buscado lenRuta dir room base)
    (basura : Nat → UInt8) {de : Dirent} (listed : de ∈ tree.dirents dir) (used : de.inum ≠ 0)
    (dots : ¬ esPunto de.name) :
    (tree.entorno cwd basura).stat (base ++ [barra] ++ de.name) =
      if tree.llena base de = true then some (tree.isDir de.inum) else none := by
  have valid := tree.valid dir call.isDir de listed used
  have looked : tree.dirlookup dir de.name = some de.inum :=
    (tree.dirlookup_eq call.isDir).mpr ⟨listed, used⟩
  rw [tree.stat_append call.nonempty call.found call.isDir valid.nonempty valid.plain,
    take_of_length_le valid.fits, looked, filter_some]
  by_cases fits : (base ++ [barra] ++ de.name).length < maxPath
  · by_cases opens : tree.openable de.inum = true
    · simp [Tree.llena, used, dots, opens]
    · simp [Tree.llena, opens]
  · simp only [Tree.llena, fits, if_false, false_and, and_false, decide_false]
    rfl

section Loop

variable (call : Llamada tree cwd buscado lenRuta dir room base) (full : buscado.length = dirSiz)
variable {visitar : Nat → Cadena → Option Salida}
variable (visits : ∀ next dest, lenRuta < dest.length → dest.length < maxPath →
  Llamada tree cwd buscado dest.length next buscado.length dest → visitar 1 dest = some ([], 1))
include call full visits

theorem recorrer_callado (basura : Nat → UInt8) (resto : List Dirent) (listed : ∀ de ∈ resto, de ∈ tree.dirents dir)
    {rutaActual : Cadena} (named : baseDe rutaActual = base) :
    recorrer (tree.entorno cwd basura) buscado visitar lenRuta resto 1 rutaActual = some ([], 1) := by
  induction resto generalizing rutaActual with
  | nil => rfl
  | cons de resto ih =>
    have again : baseDe base = base := if_neg call.apart
    have rest := ih (fun other inside => listed other (mem_cons_of_mem _ inside)) again
    have normal : (if rutaActual.length = 2 then [punto] else rutaActual) = base := named
    rw [recorrer, normal]
    dsimp only
    split
    · exact rest
    next live =>
      have used : de.inum ≠ 0 := fun zero => live (.inl zero)
      have valid := tree.valid dir call.isDir de (listed de mem_cons_self) used
      rw [if_neg (nombreLeido_ne valid full), rutaDestino_cut call.clean
        (nombreLeido_clean _ _) call.size]
      obtain ⟨named, plain⟩ := nombreLeido_plain valid (Nat.le_refl 1)
      have cutNamed : (nombreLeido de.name 1).take room ≠ [] := by
        have wide := call.wide
        simp only [ne_eq, take_eq_nil_iff, not_or]
        exact ⟨by rw [full] at wide; exact Nat.ne_of_gt (Nat.lt_of_lt_of_le (by decide) wide), named⟩
      cases answer : (tree.entorno cwd basura).stat
          (base ++ [barra] ++ (nombreLeido de.name 1).take room) with
      | none => simp [rest]
      | some isDir =>
        cases isDir with
        | false => simp [rest, rootDev]
        | true =>
          obtain ⟨next, fits, deeper⟩ := call.stat_true cutNamed
            ((nombreLeido_clean _ _).take room)
            (fun inside => plain (mem_of_mem_take inside)) answer
          have silent := visits next _ (call.longer cutNamed).1 fits deeper
          simp only [rootDev, silent, bind_some, rest, map_some, nil_append]

theorem recorrer_full (resto : List Dirent) (listed : ∀ de ∈ resto, de ∈ tree.dirents dir)
    {rutaActual : Cadena} (named : baseDe rutaActual = base) :
    ∃ after, recorrer (tree.entorno cwd basura) buscado visitar lenRuta resto 0 rutaActual =
      some ((hasta (tree.llena base) resto).flatMap (propia buscado base), after) := by
  induction resto generalizing rutaActual with
  | nil => exact ⟨0, rfl⟩
  | cons de resto ih =>
    have again : baseDe base = base := if_neg call.apart
    have inner : ∀ other ∈ resto, other ∈ tree.dirents dir :=
      fun other inside => listed other (mem_cons_of_mem _ inside)
    obtain ⟨after, rest⟩ := ih inner again
    have silent := recorrer_callado call full visits basura resto inner again
    have normal : (if rutaActual.length = 2 then [punto] else rutaActual) = base := named
    rw [recorrer, normal, hasta]
    dsimp only
    by_cases used : de.inum = 0
    · refine ⟨after, ?_⟩
      rw [if_pos (.inl used), rest]
      simp [Tree.llena, used, propia]
    have valid := tree.valid dir call.isDir de (listed de mem_cons_self) used
    have read : nombreLeido de.name 0 = de.name := by
      refine nombreLeido_eq valid.clean ?_
      rcases Nat.lt_or_eq_of_le valid.fits with short | exactly
      · exact .inl short
      · exact .inr ⟨exactly, rfl⟩
    rw [read]
    by_cases dots : esPunto de.name
    · refine ⟨after, ?_⟩
      rw [if_pos (.inr dots), rest]
      simp [Tree.llena, dots, propia]
    have skip : ¬ (de.inum = 0 ∨ de.name = [punto] ∨ de.name = [punto, punto]) :=
      not_or.mpr ⟨used, dots⟩
    have whole : de.name.take room = de.name :=
      take_of_length_le (Nat.le_trans valid.fits (full ▸ call.wide))
    have printed : (if de.name = buscado then [base ++ [barra] ++ de.name] else []) =
        propia buscado base de := by
      rw [propia]
      by_cases equal : de.name = buscado
      · rw [if_pos equal, if_pos ⟨used, dots, equal⟩, equal]
      · rw [if_neg equal, if_neg fun all => equal all.2.2]
    rw [if_neg skip, rutaDestino_cut call.clean valid.clean call.size, whole, printed,
      call.stat_entry basura (listed de mem_cons_self) used dots]
    by_cases fills : tree.llena base de = true
    · rw [if_pos fills, if_pos fills]
      refine ⟨1, ?_⟩
      cases isDir : tree.isDir de.inum with
      | false => simp [rootDev, silent]
      | true =>
        have answered := call.stat_entry basura (listed de mem_cons_self) used dots
        rw [if_pos fills, isDir] at answered
        obtain ⟨next, fits, deeper⟩ := call.stat_true valid.nonempty valid.clean valid.plain answered
        have inside := visits next _ (call.longer valid.nonempty).1 fits deeper
        rw [rootDev]
        dsimp only
        rw [inside, bind_some, silent]
        simp
    · rw [if_neg fills, if_neg fills]
      exact ⟨after, by simp [rest]⟩

end Loop

theorem buscarArchivo_callado (full : buscado.length = dirSiz) (fuel : Nat)
    (call : Llamada tree cwd buscado ruta.length dir room (baseDe ruta))
    (found : tree.namei cwd ruta = some dir) (fits : ruta.length < maxPath)
    (enough : maxPath < fuel + ruta.length) :
    buscarArchivo (tree.entorno cwd basura) buscado fuel 1 ruta = some ([], 1) := by
  induction fuel generalizing ruta dir room with
  | zero => omega
  | succ fuel ih =>
    have opened : (tree.entorno cwd basura).fs.sysOpen (tree.entorno cwd basura).cwd ruta =
        some dir := sysOpen_dir found call.isDir fits
    rw [buscarArchivo, opened]
    dsimp only
    refine recorrer_callado call full (fun next dest longer bound deeper => ?_) basura _
      (fun _ inside => inside) rfl
    have same : baseDe dest = dest := if_neg deeper.apart
    have inner : Llamada tree cwd buscado dest.length next buscado.length (baseDe dest) := by
      rwa [same]
    exact ih inner deeper.found bound (by omega)

theorem buscarArchivo_full (basura : Nat → UInt8) (full : buscado.length = dirSiz) (fuel : Nat)
    (call : Llamada tree cwd buscado ruta.length dir room (baseDe ruta))
    (found : tree.namei cwd ruta = some dir) (fits : ruta.length < maxPath)
    (enough : maxPath < fuel + ruta.length) :
    ∃ after, buscarArchivo (tree.entorno cwd basura) buscado fuel 0 ruta =
      some ((hasta (tree.llena (baseDe ruta)) (tree.dirents dir)).flatMap
        (propia buscado (baseDe ruta)), after) := by
  cases fuel with
  | zero => omega
  | succ fuel =>
    have opened : (tree.entorno cwd basura).fs.sysOpen (tree.entorno cwd basura).cwd ruta =
        some dir := sysOpen_dir found call.isDir fits
    rw [buscarArchivo, opened]
    dsimp only
    refine recorrer_full call full (fun next dest longer bound deeper => ?_) _
      (fun _ inside => inside) rfl
    have same : baseDe dest = dest := if_neg deeper.apart
    have inner : Llamada tree cwd buscado dest.length next buscado.length (baseDe dest) := by
      rwa [same]
    exact buscarArchivo_callado full fuel inner deeper.found bound (by omega)

end Xv6.Find

import Xv6.Find.Below
import Xv6.Find.Core

/-!
What `buscar_archivo` prints, in terms of the tree. A call works on a directory `dir` under
the path name `base` and has `room` bytes for the name of an entry: a longer name is cut,
and the cut name is what `stat` and the recursive call see.
-/

namespace Xv6.Find

open List Option

/-- The path name under which a call works: one of two characters is replaced. -/
def baseDe (ruta : Cadena) : Cadena := if ruta.length = 2 then [punto] else ruta

def roomDe (ruta buscado : Cadena) : Nat :=
  if ruta.length = 2 then buscado.length + 1 else buscado.length

def propia (buscado base : Cadena) (de : Dirent) : List Cadena :=
  if de.inum ≠ 0 ∧ ¬ esPunto de.name ∧ de.name = buscado then [base ++ [barra] ++ buscado] else []

def destino (fs : Fs) (room dir : Nat) (base : Cadena) (de : Dirent) : Option (Nat × Cadena) :=
  if de.inum = 0 ∨ esPunto de.name then none
  else (fs.dirlookup dir (de.name.take room)).bind fun next =>
    if (base ++ [barra] ++ de.name.take room).length < maxPath ∧ fs.isDir next = true then
      some (next, base ++ [barra] ++ de.name.take room)
    else none

def lineas (fs : Fs) (buscado : Cadena) : Nat → Nat → Nat → Cadena → List Cadena
  | 0, _, _, _ => []
  | fuel + 1, room, dir, base =>
    (fs.dirents dir).flatMap fun de => propia buscado base de ++
      (destino fs room dir base de).elim [] fun sub =>
        lineas fs buscado fuel buscado.length sub.1 sub.2

def Tree.entorno (tree : Tree) (cwd : Nat) (basura : Nat → UInt8) : Entorno :=
  ⟨tree.toFs, cwd, basura⟩

variable {tree : Tree} {cwd dir next room lenRuta fuel dev : Nat} {basura : Nat → UInt8}
variable {buscado base ruta name other : Cadena}

theorem nombreLeido_cases (valid : NombreValido name) (known : dev ≤ 1) :
    nombreLeido name dev = name ∨ (name.length = dirSiz ∧ dev = 1 ∧
      nombreLeido name dev = name ++ [1]) := by
  by_cases short : name.length < dirSiz
  · exact .inl (nombreLeido_eq valid.clean (.inl short))
  have full : name.length = dirSiz := Nat.le_antisymm valid.fits (by omega)
  by_cases fresh : dev = 0
  · exact .inl (nombreLeido_eq valid.clean (.inr ⟨full, fresh⟩))
  · obtain rfl : dev = 1 := by omega
    exact .inr ⟨full, rfl, nombreLeido_full valid.clean full⟩

theorem nombreLeido_clean (name : Cadena) (dev : Nat) : SinNulos (nombreLeido name dev) :=
  sinNulos_takeWhile _

theorem nombreLeido_eq_iff (valid : NombreValido name) (known : dev ≤ 1)
    (short : other.length < dirSiz) : nombreLeido name dev = other ↔ name = other := by
  rcases nombreLeido_cases valid known with same | ⟨full, _, longer⟩
  · rw [same]
  constructor
  · rintro rfl
    rw [longer, length_append, length_singleton] at short
    omega
  · rintro rfl
    omega

theorem nombreLeido_take (valid : NombreValido name) (known : dev ≤ 1) (cut : room ≤ dirSiz) :
    (nombreLeido name dev).take room = name.take room := by
  rcases nombreLeido_cases valid known with same | ⟨full, _, longer⟩
  · rw [same]
  · rw [longer, take_append_of_le_length (by omega)]

theorem esPunto_nombreLeido (valid : NombreValido name) (known : dev ≤ 1) :
    (nombreLeido name dev = [punto] ∨ nombreLeido name dev = [punto, punto]) ↔ esPunto name := by
  rw [nombreLeido_eq_iff valid known (by decide), nombreLeido_eq_iff valid known (by decide), esPunto]

theorem rutaDestino_cut (clean : SinNulos base) (nombre : SinNulos name)
    (size : base.length + room = lenRuta + buscado.length) :
    rutaDestino basura base name (lenRuta + buscado.length + 2) =
      base ++ [barra] ++ name.take room := by
  rw [rutaDestino_eq clean nombre (by omega), take_append, take_of_length_le]
  · congr 2
    simp only [length_append, length_singleton]
    omega
  · simp only [length_append, length_singleton]
    omega

theorem Tree.stat_append (nonempty : base ≠ []) (found : tree.namei cwd base = some dir)
    (isDir : tree.isDir dir = true) (named : name ≠ []) (plain : barra ∉ name) :
    (tree.entorno cwd basura).stat (base ++ [barra] ++ name) =
      if (base ++ [barra] ++ name).length < maxPath then
        ((tree.dirlookup dir (name.take dirSiz)).filter tree.openable).map tree.isDir
      else none := by
  rw [Entorno.stat, Tree.entorno, Fs.sysOpen]
  dsimp only
  rw [Fs.namei_append nonempty found isDir named plain]
  split <;> rfl

structure Llamada (tree : Tree) (cwd : Nat) (buscado : Cadena) (lenRuta dir room : Nat)
    (base : Cadena) : Prop where
  nonempty : base ≠ []
  clean : SinNulos base
  apart : base.length ≠ 2
  found : tree.namei cwd base = some dir
  isDir : tree.isDir dir = true
  size : base.length + room = lenRuta + buscado.length
  wide : buscado.length ≤ room
  tight : room ≤ buscado.length + 1
  searched : buscado ≠ []

namespace Llamada

variable (call : Llamada tree cwd buscado lenRuta dir room base)
include call

theorem take_ne_nil (valid : NombreValido name) : name.take room ≠ [] := by
  have some := length_pos_iff.mpr valid.nonempty
  have more := length_pos_iff.mpr call.searched
  have wide := call.wide
  rw [← length_pos_iff, length_take]
  omega

theorem longer (named : name ≠ []) :
    lenRuta < (base ++ [barra] ++ name).length ∧ 3 ≤ (base ++ [barra] ++ name).length := by
  have some := length_pos_iff.mpr named
  have more := length_pos_iff.mpr call.nonempty
  have size := call.size
  have tight := call.tight
  simp only [length_append, length_singleton]
  omega

theorem stat_take (basura : Nat → UInt8) {de : Dirent} (valid : NombreValido de.name) (unused : de.inum ≠ 0)
    (dots : ¬ esPunto de.name) (cut : room ≤ dirSiz) :
    (∃ sub, destino tree.toFs room dir base de = some sub ∧
      sub.2 = base ++ [barra] ++ de.name.take room ∧ sub.2.length < maxPath ∧
      tree.dirlookup dir (de.name.take room) = some sub.1 ∧ tree.isDir sub.1 = true ∧
      (tree.entorno cwd basura).stat (base ++ [barra] ++ de.name.take room) = some true) ∨
    (destino tree.toFs room dir base de = none ∧
      (tree.entorno cwd basura).stat (base ++ [barra] ++ de.name.take room) ≠ some true) := by
  have plain : barra ∉ de.name.take room := fun inside => valid.plain (mem_of_mem_take inside)
  rw [tree.stat_append call.nonempty call.found call.isDir (call.take_ne_nil valid) plain,
    take_of_length_le (Nat.le_trans (length_take_le _ _) cut), destino,
    if_neg (not_or.mpr ⟨unused, dots⟩)]
  cases looked : tree.dirlookup dir (de.name.take room) with
  | none => simp
  | some next =>
    by_cases fits : (base ++ [barra] ++ de.name.take room).length < maxPath
    · by_cases isDir : tree.isDir next = true
      · left
        refine ⟨(next, base ++ [barra] ++ de.name.take room), ?_, rfl, fits, rfl, isDir, ?_⟩
        · rw [bind_some, if_pos ⟨fits, isDir⟩]
        · rw [if_pos fits, filter_some, if_pos (tree.opens next isDir), map_some, isDir]
      right
      rw [bind_some, if_neg fun both => isDir both.2, if_pos fits, filter_some]
      refine ⟨rfl, ?_⟩
      split <;> simp [isDir]
    · right
      rw [bind_some, if_neg fun both => fits both.1, if_neg fits]
      exact ⟨rfl, by simp⟩

theorem sub (named : name ≠ []) (clean : SinNulos name) (plain : barra ∉ name)
    (looked : tree.dirlookup dir (name.take dirSiz) = some next) (isDir : tree.isDir next = true) :
    Llamada tree cwd buscado (base ++ [barra] ++ name).length next buscado.length
      (base ++ [barra] ++ name) where
  nonempty := by simp
  clean := (call.clean.append sinNulos_barra).append clean
  apart := by
    have long := (call.longer named).2
    omega
  found := by rw [Fs.namei_append call.nonempty call.found call.isDir named plain, looked]
  isDir := isDir
  size := rfl
  wide := Nat.le_refl _
  tight := Nat.le_succ _
  searched := call.searched

end Llamada

theorem recorrer_lineas (call : Llamada tree cwd buscado lenRuta dir room base)
    (short : buscado.length < dirSiz) {visitar : Nat → Cadena → Option Salida}
    {dentro : Nat × Cadena → List Cadena}
    (visits : ∀ next dest, lenRuta < dest.length → dest.length < maxPath →
      Llamada tree cwd buscado dest.length next buscado.length dest →
      ∃ dev, dev ≤ 1 ∧ visitar rootDev dest = some (dentro (next, dest), dev))
    (resto : List Dirent) (listed : ∀ de ∈ resto, de ∈ tree.dirents dir) (known : dev ≤ 1)
    {rutaActual : Cadena} (named : baseDe rutaActual = base) :
    ∃ after, after ≤ 1 ∧
      recorrer (tree.entorno cwd basura) buscado visitar lenRuta resto dev rutaActual =
        some (resto.flatMap fun de => propia buscado base de ++
          (destino tree.toFs room dir base de).elim [] dentro, after) := by
  have cut : room ≤ dirSiz := Nat.le_trans call.tight short
  induction resto generalizing dev rutaActual with
  | nil => exact ⟨dev, known, rfl⟩
  | cons de resto ih =>
    have again : baseDe base = base := if_neg call.apart
    have rest : ∀ {dev : Nat}, dev ≤ 1 → _ := fun {dev} known =>
      ih (fun other inside => listed other (mem_cons_of_mem _ inside)) known again
    have normal : (if rutaActual.length = 2 then [punto] else rutaActual) = base := named
    rw [recorrer, normal, flatMap_cons]
    dsimp only
    by_cases unused : de.inum = 0
    · obtain ⟨after, bound, same⟩ := rest known
      refine ⟨after, bound, ?_⟩
      rw [if_pos (.inl unused), same]
      simp [propia, destino, unused]
    have valid := tree.valid dir call.isDir de (listed de mem_cons_self) unused
    by_cases dots : esPunto de.name
    · obtain ⟨after, bound, same⟩ := rest known
      refine ⟨after, bound, ?_⟩
      rw [if_pos (.inr ((esPunto_nombreLeido valid known).mpr dots)), same]
      simp [propia, destino, dots]
    have skip : ¬ (de.inum = 0 ∨ nombreLeido de.name dev = [punto] ∨
        nombreLeido de.name dev = [punto, punto]) := by
      rw [esPunto_nombreLeido valid known]
      exact not_or.mpr ⟨unused, dots⟩
    rw [if_neg skip, rutaDestino_cut call.clean (nombreLeido_clean _ _) call.size,
      nombreLeido_take valid known cut]
    have printed : (if nombreLeido de.name dev = buscado then
        [base ++ [barra] ++ de.name.take room] else []) = propia buscado base de := by
      simp only [nombreLeido_eq_iff valid known short, propia]
      by_cases equal : de.name = buscado
      · rw [if_pos equal, if_pos ⟨unused, dots, equal⟩, equal, take_of_length_le call.wide]
      · rw [if_neg equal, if_neg fun all => equal all.2.2]
    rw [printed]
    rcases call.stat_take basura valid unused dots cut with
      ⟨⟨next, dest⟩, goes, rfl, fits, looked, isDir, answered⟩ | ⟨stays, answered⟩
    · have deeper := call.sub (call.take_ne_nil valid) (valid.clean.take room)
        (fun inside => valid.plain (mem_of_mem_take inside))
        (by rwa [take_of_length_le (Nat.le_trans (length_take_le _ _) cut)]) isDir
      obtain ⟨middle, small, visited⟩ := visits next _
        (call.longer (call.take_ne_nil valid)).1 fits deeper
      obtain ⟨after, bound, same⟩ := rest small
      refine ⟨after, bound, ?_⟩
      rw [answered]
      dsimp only
      rw [visited, bind_some, same, goes]
      rfl
    · rw [stays]
      cases answer : (tree.entorno cwd basura).stat (base ++ [barra] ++ de.name.take room) with
      | none =>
        obtain ⟨after, bound, same⟩ := rest known
        refine ⟨after, bound, ?_⟩
        dsimp only
        rw [same]
        simp
      | some isDir =>
        cases isDir with
        | true => exact absurd answer answered
        | false =>
          obtain ⟨after, bound, same⟩ := rest (show rootDev ≤ 1 by decide)
          refine ⟨after, bound, ?_⟩
          dsimp only
          rw [same]
          simp

theorem sysOpen_dir {path : Cadena} (found : tree.namei cwd path = some dir)
    (isDir : tree.isDir dir = true) (fits : path.length < maxPath) :
    tree.sysOpen cwd path = some dir := by
  rw [Fs.sysOpen, if_pos fits, found, filter_some, if_pos (tree.opens dir isDir)]

theorem buscarArchivo_lineas (basura : Nat → UInt8) (short : buscado.length < dirSiz) (fuel : Nat)
    (call : Llamada tree cwd buscado ruta.length dir room (baseDe ruta))
    (found : tree.namei cwd ruta = some dir) (fits : ruta.length < maxPath)
    (enough : maxPath < fuel + ruta.length) (known : dev ≤ 1) :
    ∃ after, after ≤ 1 ∧ buscarArchivo (tree.entorno cwd basura) buscado fuel dev ruta =
      some (lineas tree.toFs buscado fuel room dir (baseDe ruta), after) := by
  induction fuel generalizing dev ruta dir room with
  | zero => omega
  | succ fuel ih =>
    have opened : (tree.entorno cwd basura).fs.sysOpen (tree.entorno cwd basura).cwd ruta =
        some dir := sysOpen_dir found call.isDir fits
    rw [buscarArchivo, opened, lineas]
    dsimp only
    refine recorrer_lineas call short (fun next dest longer bound deeper => ?_) _
      (fun _ inside => inside) known rfl
    have same : baseDe dest = dest := if_neg deeper.apart
    have inner : Llamada tree cwd buscado dest.length next buscado.length (baseDe dest) := by
      rwa [same]
    obtain ⟨after, small, result⟩ := ih inner deeper.found bound (by omega)
      (show rootDev ≤ 1 by decide)
    rw [same] at result
    exact ⟨after, small, result⟩

theorem destino_some {fs : Fs} {de : Dirent} {sub : Nat × Cadena}
    (goes : destino fs room dir base de = some sub) :
    (de.inum ≠ 0 ∧ ¬ esPunto de.name) ∧ fs.dirlookup dir (de.name.take room) = some sub.1 ∧
      fs.isDir sub.1 = true ∧ sub.2 = base ++ [barra] ++ de.name.take room ∧
      sub.2.length < maxPath := by
  rw [destino] at goes
  split at goes
  · exact absurd goes (by simp)
  next live =>
    obtain ⟨next, looked, kept⟩ := bind_eq_some_iff.mp goes
    split at kept
    · next both =>
      cases kept
      exact ⟨not_or.mp live, looked, both.2, rfl, both.1⟩
    · exact absurd kept (by simp)

end Xv6.Find

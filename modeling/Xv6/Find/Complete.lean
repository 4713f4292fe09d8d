import Xv6.Find.Full
import Xv6.Find.Split

/-!
When `find` prints a line for every entry with the searched name. The path buffer has room
for a name as long as the searched one, so a directory with a longer name is looked up under
a cut name.
-/

namespace Xv6.Find

open List

/-- `find ruta buscado`, run in `cwd`, where `ruta` names the directory `dir`. -/
structure Busqueda (tree : Tree) (cwd dir : Nat) (ruta buscado : Cadena) : Prop where
  searched : NombreValido buscado
  clean : SinNulos ruta
  found : tree.namei cwd ruta = some dir
  isDir : tree.isDir dir = true
  cwdDir : tree.isDir cwd = true

/-- A path of two characters is replaced by `.`, and an empty one reads as `/`. -/
def InicioFiel (cwd dir : Nat) (ruta : Cadena) : Prop :=
  ruta ≠ [] ∧ (ruta.length = 2 → dir = cwd)

/-- No path name of an entry below the start reaches `MAXPATH`. -/
def RutasCortas (tree : Tree) (dir : Nat) (ruta : Cadena) : Prop :=
  ∀ names sub name inum, Baja tree.toFs dir names sub → tree.Entrada sub name inum →
    ¬ esPunto name → (rutaDe ruta names ++ [barra] ++ name).length < maxPath

def Completa (tree : Tree) (cwd dir : Nat) (buscado : Cadena) (out : List Cadena) : Prop :=
  ∀ names sub inum, Baja tree.toFs dir names sub → tree.Entrada sub buscado inum →
    ¬ esPunto buscado → ∃ line ∈ out, tree.nameiparent cwd line = some (sub, buscado)

/-- Every entry with the searched name is where `find` can see it. -/
def Visible (tree : Tree) (dir room : Nat) (buscado : Cadena) : Prop :=
  ∀ names sub before inum after, Baja tree.toFs dir names sub →
    tree.dirents sub = before ++ ⟨inum, buscado⟩ :: after → inum ≠ 0 → ¬ esPunto buscado →
    if buscado.length < dirSiz then Corta room buscado.length names
    else names = [] ∧ ∀ de ∈ before, de.inum ≠ 0 → ¬ esPunto de.name →
      tree.openable de.inum = false

variable {tree : Tree} {cwd dir sub inum room fuel : Nat} {basura : Nat → UInt8}
variable {buscado base ruta : Cadena} {names : List Cadena}

theorem length_baseDe_le (ruta : Cadena) : (baseDe ruta).length ≤ ruta.length := by
  rw [baseDe]
  split
  · next two =>
    rw [two, length_singleton]
    omega
  · exact Nat.le_refl _

theorem find_long {env : Entorno} (long : ¬ ruta.length < maxPath) :
    find env ruta buscado = some [] := by
  have closed : env.fs.sysOpen env.cwd ruta = none := if_neg long
  rw [find, buscarArchivo, closed]
  rfl

theorem Tree.namei_dot (isDir : tree.isDir cwd = true) : tree.namei cwd [punto] = some cwd := by
  have looked : tree.dirlookup cwd [punto] = some cwd :=
    (tree.dirlookup_eq isDir).mpr ⟨tree.dot cwd isDir, tree.positive cwd isDir⟩
  have elems : elementos [punto] = [[punto]] := by decide
  have begins : Fs.inicio cwd [punto] = cwd := if_neg (by decide)
  rw [Fs.namei, elems, begins, Fs.namex, if_pos isDir, looked]
  rfl

namespace Busqueda

variable (args : Busqueda tree cwd dir ruta buscado)
include args

theorem call (faithful : InicioFiel cwd dir ruta) :
    Llamada tree cwd buscado ruta.length dir (roomDe ruta buscado) (baseDe ruta) := by
  have searched := args.searched.nonempty
  by_cases two : ruta.length = 2
  · have base : baseDe ruta = [punto] := if_pos two
    have room : roomDe ruta buscado = buscado.length + 1 := if_pos two
    rw [base, room]
    exact {
      nonempty := by simp
      clean := by simp [SinNulos, punto]
      apart := by simp
      found := by rw [tree.namei_dot args.cwdDir, faithful.2 two]
      isDir := args.isDir
      size := by rw [two, length_singleton]; omega
      wide := Nat.le_succ _
      tight := Nat.le_refl _
      searched := searched }
  · have base : baseDe ruta = ruta := if_neg two
    have room : roomDe ruta buscado = buscado.length := if_neg two
    rw [base, room]
    exact {
      nonempty := faithful.1
      clean := args.clean
      apart := two
      found := args.found
      isDir := args.isDir
      size := rfl
      wide := Nat.le_refl _
      tight := Nat.le_succ _
      searched := searched }

theorem visit (faithful : InicioFiel cwd dir ruta) (fits : ruta.length < maxPath) :
    Visita tree cwd dir (roomDe ruta buscado) (baseDe ruta) buscado dir (roomDe ruta buscado)
      (baseDe ruta) :=
  have first := args.call faithful
  .initial first.nonempty first.found args.isDir first.wide
    (Nat.lt_of_le_of_lt (length_baseDe_le ruta) fits)

theorem find_eq_lineas (faithful : InicioFiel cwd dir ruta) (fits : ruta.length < maxPath) (short : buscado.length < dirSiz)
    (basura : Nat → UInt8) :
    find (tree.entorno cwd basura) ruta buscado = some
      (lineas tree.toFs buscado (maxPath + 1) (roomDe ruta buscado) dir (baseDe ruta)) := by
  have nonempty := length_pos_iff.mpr faithful.1
  obtain ⟨after, _, result⟩ := buscarArchivo_lineas basura short (maxPath + 1)
    (args.call faithful) args.found fits (by omega) (Nat.zero_le 1)
  rw [find, result]
  rfl

theorem find_eq_full (faithful : InicioFiel cwd dir ruta) (fits : ruta.length < maxPath) (full : buscado.length = dirSiz)
    (basura : Nat → UInt8) :
    find (tree.entorno cwd basura) ruta buscado = some
      ((hasta (tree.llena (baseDe ruta)) (tree.dirents dir)).flatMap
        (propia buscado (baseDe ruta))) := by
  have nonempty := length_pos_iff.mpr faithful.1
  obtain ⟨after, result⟩ := buscarArchivo_full basura full (maxPath + 1)
    (args.call faithful) args.found fits (by omega)
  rw [find, result]
  rfl

end Busqueda

theorem Tree.split_unique {before after before' after' : List Dirent} {inum' : Nat} {name : Cadena}
    (isDir : tree.isDir dir = true) (place : tree.dirents dir = before ++ ⟨inum, name⟩ :: after)
    (place' : tree.dirents dir = before' ++ ⟨inum', name⟩ :: after') (used : inum ≠ 0)
    (used' : inum' ≠ 0) : before = before' := by
  have apart := tree.distinct dir isDir
  rw [place, pairwise_append, pairwise_cons] at apart
  obtain ⟨_, ⟨later, _⟩, earlier⟩ := apart
  have both := place.symm.trans place'
  refine ((append_cons_inj_of_notMem ?_ ?_).mp both).1
  · intro inside
    exact earlier _ inside _ mem_cons_self used' used rfl
  · intro inside
    exact later _ inside used used' rfl

section Complete

variable (args : Busqueda tree cwd dir ruta buscado) (faithful : InicioFiel cwd dir ruta)
include args faithful

theorem completa_lineas (fits : ruta.length < maxPath) (bounded : RutasCortas tree dir ruta) (short : buscado.length < dirSiz) :
    Completa tree cwd dir buscado
        (lineas tree.toFs buscado (maxPath + 1) (roomDe ruta buscado) dir (baseDe ruta)) ↔
      Visible tree dir (roomDe ruta buscado) buscado := by
  have first := args.call faithful
  constructor
  · intro complete names sub before inum after below place used plain
    rw [if_pos short]
    have listed : ⟨inum, buscado⟩ ∈ tree.dirents sub := by simp [place]
    obtain ⟨line, printed, denotes⟩ := complete names sub inum below ⟨listed, used⟩ plain
    obtain ⟨other, _, base, _, visit, rfl, _, _⟩ := (args.visit faithful fits).of_mem_lineas printed
    rw [Fs.nameiparent_append visit.nonempty visit.found visit.isDir args.searched] at denotes
    obtain rfl : other = sub := (Prod.mk.inj (Option.some.inj denotes)).1
    exact visit.corta below
  · intro visible names sub inum below entry plain
    obtain ⟨before, after, place⟩ := append_of_mem entry.1
    have chain := visible names sub before inum after below place entry.2 plain
    rw [if_pos short] at chain
    have real := bounded names sub buscado inum below entry plain
    rw [length_append, length_append] at real
    have cheaper := length_rutaDe_mono (length_baseDe_le ruta) names
    have printed := (mem_limpias args.isDir (Nat.lt_of_le_of_lt (length_baseDe_le ruta) fits)
      (show maxPath ≤ maxPath + 1 + (baseDe ruta).length by omega)).mpr
      ⟨names, sub, inum, below, chain, entry, plain, by omega, rfl⟩
    refine ⟨_, (lineas_perm ..).symm.subset (mem_append_left _ printed), ?_⟩
    obtain ⟨found, nonempty⟩ := tree.namei_rutaDe below args.isDir first.found first.nonempty
    exact Fs.nameiparent_append nonempty found (below.isDir args.isDir) args.searched

theorem completa_full (bounded : RutasCortas tree dir ruta) (full : buscado.length = dirSiz) :
    Completa tree cwd dir buscado ((hasta (tree.llena (baseDe ruta)) (tree.dirents dir)).flatMap
        (propia buscado (baseDe ruta))) ↔ Visible tree dir (roomDe ruta buscado) buscado := by
  have first := args.call faithful
  have opens : ∀ de ∈ tree.dirents dir, de.inum ≠ 0 → ¬ esPunto de.name →
      tree.llena (baseDe ruta) de = tree.openable de.inum := by
    intro de listed used plain
    have real := bounded [] dir de.name de.inum .here ⟨listed, used⟩ plain
    have fits : (baseDe ruta ++ [barra] ++ de.name).length < maxPath := by
      refine Nat.lt_of_le_of_lt ?_ real
      simp only [length_append, rutaDe, foldl_nil]
      have cheaper := length_baseDe_le ruta
      omega
    cases opened : tree.openable de.inum with
    | true => exact decide_eq_true ⟨used, plain, fits, opened⟩
    | false => exact decide_eq_false fun all => by simp [opened] at all
  constructor
  · intro complete names sub before inum after below place used plain
    rw [if_neg (by omega)]
    have listed : ⟨inum, buscado⟩ ∈ tree.dirents sub := by simp [place]
    obtain ⟨line, printed, denotes⟩ := complete names sub inum below ⟨listed, used⟩ plain
    obtain ⟨de, early, own⟩ := mem_flatMap.mp printed
    obtain ⟨usedDe, _, named, rfl⟩ := mem_propia.mp own
    rw [Fs.nameiparent_append first.nonempty first.found args.isDir args.searched] at denotes
    obtain rfl : dir = sub := (Prod.mk.inj (Option.some.inj denotes)).1
    refine ⟨tree.baja_unique below .here args.isDir, ?_⟩
    obtain ⟨before', after', place', closed⟩ := mem_hasta.mp early
    obtain ⟨inum', name⟩ := de
    obtain rfl : name = buscado := named
    have same := tree.split_unique args.isDir place place' used usedDe
    intro other inside usedOther plainOther
    rw [← opens other (by rw [place]; exact mem_append_left _ inside) usedOther plainOther]
    exact closed other (same ▸ inside)
  · intro visible names sub inum below entry plain
    obtain ⟨before, after, place⟩ := append_of_mem entry.1
    have seen := visible names sub before inum after below place entry.2 plain
    rw [if_neg (by omega)] at seen
    obtain ⟨rfl, closed⟩ := seen
    obtain rfl : sub = dir := by
      cases below
      rfl
    refine ⟨_, mem_flatMap.mpr ⟨⟨inum, buscado⟩, mem_hasta.mpr ⟨before, after, place, ?_⟩,
      mem_propia.mpr ⟨entry.2, plain, rfl, rfl⟩⟩,
      Fs.nameiparent_append first.nonempty first.found args.isDir args.searched⟩
    intro other inside
    by_cases live : other.inum ≠ 0 ∧ ¬ esPunto other.name
    · rw [opens other (by rw [place]; exact mem_append_left _ inside) live.1 live.2]
      exact closed other inside live.1 live.2
    · exact decide_eq_false fun all => live ⟨all.1, all.2.1⟩

end Complete

/-- `find` prints a line for every entry with the searched name exactly when all of them
are visible. -/
theorem find_complete_iff (tree : Tree) (cwd dir : Nat) (basura : Nat → UInt8)
    (ruta buscado : Cadena) (args : Busqueda tree cwd dir ruta buscado)
    (faithful : InicioFiel cwd dir ruta) (bounded : RutasCortas tree dir ruta) :
    ∃ out, find (tree.entorno cwd basura) ruta buscado = some out ∧
      (Completa tree cwd dir buscado out ↔ Visible tree dir (roomDe ruta buscado) buscado) := by
  by_cases fits : ruta.length < maxPath
  · rcases Nat.lt_or_eq_of_le args.searched.fits with short | full
    · exact ⟨_, args.find_eq_lineas faithful fits short basura,
        completa_lineas args faithful fits bounded short⟩
    · exact ⟨_, args.find_eq_full faithful fits full basura,
        completa_full args faithful bounded full⟩
  -- a path that long has no entries below it
  have none : ∀ names sub inum, Baja tree.toFs dir names sub → tree.Entrada sub buscado inum →
      esPunto buscado := by
    intro names sub inum below entry
    by_contra plain
    have real := bounded names sub buscado inum below entry plain
    have long := length_le_rutaDe ruta names
    rw [length_append, length_append] at real
    omega
  refine ⟨[], find_long fits, iff_of_true ?_ ?_⟩
  · intro names sub inum below entry plain
    exact absurd (none names sub inum below entry) plain
  · intro names sub before inum after below place used plain
    exact absurd (none names sub inum below ⟨by simp [place], used⟩) plain

def arbolLargo : Tree where
  dirents
    | 1 => [⟨1, [46]⟩, ⟨1, [46, 46]⟩, ⟨2, [97, 98, 99]⟩]
    | 2 => [⟨2, [46]⟩, ⟨1, [46, 46]⟩, ⟨3, [120]⟩]
    | _ => []
  isDir ino := ino = 1 ∨ ino = 2
  openable _ := true
  parent _ := 1
  depth ino := ino - 1
  rootDir := by decide
  rootParent := rfl
  opens _ _ := rfl
  valid ino isDir := by
    rcases of_decide_eq_true isDir with rfl | rfl <;> decide +kernel
  distinct ino isDir := by
    rcases of_decide_eq_true isDir with rfl | rfl <;> decide
  positive ino isDir := by
    rcases of_decide_eq_true isDir with rfl | rfl <;> decide
  dot ino isDir := by
    rcases of_decide_eq_true isDir with rfl | rfl <;> decide
  dotdot ino isDir := by
    rcases of_decide_eq_true isDir with rfl | rfl <;> decide
  child ino isDir := by
    rcases of_decide_eq_true isDir with rfl | rfl <;> decide
  once ino isDir := by
    rcases of_decide_eq_true isDir with rfl | rfl <;> decide
  listed ino isDir other := by
    rcases of_decide_eq_true isDir with rfl | rfl
    · exact absurd rfl other
    · exact ⟨[97, 98, 99], by decide, by decide⟩

theorem find_incomplete : find (arbolLargo.entorno 1 fun _ => 0) [barra] [120] = some [] ∧
    ¬ Completa arbolLargo 1 1 [120] [] := by
  refine ⟨by decide, fun complete => ?_⟩
  have below : Baja arbolLargo.toFs 1 [[97, 98, 99]] 2 :=
    .down ⟨by decide, by decide⟩ (by decide) (by decide) .here
  obtain ⟨line, printed, _⟩ := complete _ 2 3 below ⟨by decide, by decide⟩ (by decide)
  exact not_mem_nil printed

theorem rutasCortas_arbolLargo : RutasCortas arbolLargo 1 [barra] := by
  intro names sub name inum below entry plain
  have short : ∀ ino, arbolLargo.isDir ino = true → ∀ de ∈ arbolLargo.dirents ino,
      de.name.length ≤ 3 := by
    intro ino isDir
    rcases of_decide_eq_true isDir with rfl | rfl <;> decide
  have inside := below.isDir (by decide)
  have last := short sub inside _ entry.1
  have deep := arbolLargo.depth_eq below (by decide)
  cases below with
  | here => simp [rutaDe, maxPath] at last ⊢; omega
  | @down _ next _ first names found skip inner rest =>
    have head := short 1 (by decide) _ found.1
    cases rest with
    | here => simp [rutaDe, maxPath] at head last ⊢; omega
    | down found' skip' inner' rest' =>
      rcases of_decide_eq_true inside with rfl | rfl <;> simp [arbolLargo] at deep

theorem find_complete_iff_abc : Busqueda arbolLargo 1 1 [barra] [97, 98, 99] ∧
    InicioFiel 1 1 [barra] ∧ RutasCortas arbolLargo 1 [barra] ∧
    ∃ out, find (arbolLargo.entorno 1 fun _ => 0) [barra] [97, 98, 99] = some out ∧
      (Completa arbolLargo 1 1 [97, 98, 99] out ↔
        Visible arbolLargo 1 (roomDe [barra] [97, 98, 99]) [97, 98, 99]) := by
  have args : Busqueda arbolLargo 1 1 [barra] [97, 98, 99] :=
    ⟨by decide +kernel, by simp [SinNulos, barra], by decide, by decide, by decide⟩
  have faithful : InicioFiel 1 1 [barra] := ⟨by decide, by decide⟩
  exact ⟨args, faithful, rutasCortas_arbolLargo,
    find_complete_iff arbolLargo 1 1 (fun _ => 0) [barra] [97, 98, 99] args faithful
      rutasCortas_arbolLargo⟩

end Xv6.Find

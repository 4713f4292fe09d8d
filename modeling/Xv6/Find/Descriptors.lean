import Xv6.Find.Core

/-!
The descriptors `find` holds: `buscarArchivo` with the open files of the process. `open`
takes the lowest free descriptor and fails when there is none, or when `filealloc` finds no
free file, which depends on the other processes too. `stat` closes what it opened;
`buscar_archivo` does not.
-/

namespace Xv6.Find

open Option

def nofile : Nat := 16

/-- The state a search threads: the device number in `st`, which descriptors are in use, and
how many calls of `open` came before. -/
structure Proceso where
  dev : Nat
  ofile : Nat → Bool
  opens : Nat

abbrev Vuelta := Option (List Cadena × Proceso)

def fdalloc (ofile : Nat → Bool) : Option Nat :=
  (List.range nofile).find? fun fd => !ofile fd

structure Sistema extends Entorno where
  filealloc : Nat → Bool

variable (sis : Sistema) (buscado : Cadena)

/-- `open` for reading: the inode and the descriptor, or `none` for `-1`. -/
def abrir (p : Proceso) (path : Cadena) : Option (Nat × Nat) :=
  (sis.fs.sysOpen sis.cwd path).bind fun ip =>
    if sis.filealloc p.opens then (fdalloc p.ofile).map fun fd => (ip, fd) else none

def Proceso.tras (p : Proceso) : Option (Nat × Nat) → Proceso
  | none => { p with opens := p.opens + 1 }
  | some (_, fd) => { p with opens := p.opens + 1, ofile := Function.update p.ofile fd true }

def Proceso.close (p : Proceso) (fd : Nat) : Proceso :=
  { p with ofile := Function.update p.ofile fd false }

def statFd (p : Proceso) (path : Cadena) : Option Bool × Proceso :=
  let abierto := abrir sis p path
  match abierto with
  | none => (none, p.tras abierto)
  | some (ip, fd) => (some (sis.fs.isDir ip), { (p.tras abierto).close fd with dev := rootDev })

def recorrerFd (visitar : Proceso → Cadena → Vuelta) (lenRuta : Nat) :
    List Dirent → Proceso → Cadena → Vuelta
  | [], p, _ => some ([], p)
  | de :: resto, p, rutaActual =>
    let ruta := if rutaActual.length = 2 then [punto] else rutaActual
    let nombre := nombreLeido de.name p.dev
    let dest := rutaDestino sis.basura ruta nombre (lenRuta + buscado.length + 2)
    if de.inum = 0 ∨ nombre = [punto] ∨ nombre = [punto, punto] then
      recorrerFd visitar lenRuta resto p ruta
    else
      let impresas := if nombre = buscado then [dest] else []
      let visto := statFd sis p dest
      (if visto.1 = some true then visitar visto.2 dest else some ([], visto.2)).bind fun dentro =>
        (recorrerFd visitar lenRuta resto dentro.2 ruta).map fun salida =>
          (impresas ++ dentro.1 ++ salida.1, salida.2)

def buscarArchivoFd : Nat → Proceso → Cadena → Vuelta
  | 0, _, _ => none
  | fuel + 1, p, rutaActual =>
    let abierto := abrir sis p rutaActual
    match abierto with
    | none => some ([], p.tras abierto)
    | some (dir, _) =>
      recorrerFd sis buscado (buscarArchivoFd fuel) rutaActual.length (sis.fs.dirents dir) (p.tras abierto) rutaActual

variable {sis buscado} {p q : Proceso} {path ruta : Cadena} {lines : List Cadena}

theorem abrir_free {ip fd : Nat} (opened : abrir sis p path = some (ip, fd)) : p.ofile fd = false := by
  obtain ⟨_, _, taken⟩ := bind_eq_some_iff.mp opened
  split at taken
  · obtain ⟨_, found, same⟩ := map_eq_some_iff.mp taken
    cases same
    simpa using List.find?_some found
  · cases taken

theorem statFd_ofile : (statFd sis p path).2.ofile = p.ofile := by
  rw [statFd]
  split
  · rename_i failed
    rw [failed]
    rfl
  · rename_i opened
    simp [opened, Proceso.tras, Proceso.close, ← abrir_free opened]

theorem recorrerFd_grows {visitar : Proceso → Cadena → Vuelta} {lenRuta fd : Nat}
    (visits : ∀ p path out, visitar p path = some out → p.ofile fd = true → out.2.ofile fd = true) (entradas : List Dirent)
    (returned : recorrerFd sis buscado visitar lenRuta entradas p ruta = some (lines, q)) (used : p.ofile fd = true) :
    q.ofile fd = true := by
  induction entradas generalizing p ruta lines with
  | nil =>
    cases returned
    exact used
  | cons de resto ih =>
    simp only [recorrerFd] at returned
    generalize (if ruta.length = 2 then [punto] else ruta) = base at returned
    split at returned
    · exact ih returned used
    obtain ⟨dentro, inner, rest⟩ := bind_eq_some_iff.mp returned
    obtain ⟨salida, last, same⟩ := map_eq_some_iff.mp rest
    cases same
    refine ih last ?_
    rw [← statFd_ofile] at used
    split at inner
    · exact visits _ _ _ inner used
    · cases inner
      exact used

theorem buscarArchivoFd_grows {fuel : Nat} (fd : Nat) (returned : buscarArchivoFd sis buscado fuel p ruta = some (lines, q))
    (used : (p.tras (abrir sis p ruta)).ofile fd = true) : q.ofile fd = true := by
  induction fuel generalizing p ruta lines q with
  | zero => cases returned
  | succ fuel ih =>
    simp only [buscarArchivoFd] at returned
    split at returned
    · cases returned
      exact used
    · refine recorrerFd_grows (fun p path out inner held => ih inner ?_) _ returned used
      cases abrir sis p path with
      | none => exact held
      | some got =>
        simp only [Proceso.tras, Function.update_apply]
        split <;> simp [held]

/-- A call that returns leaves the open descriptors as they were exactly when its own `open`
failed; otherwise the descriptor of its directory is still in use. -/
theorem buscarArchivoFd_same_iff (fuel : Nat) (returned : buscarArchivoFd sis buscado fuel p ruta = some (lines, q)) :
    q.ofile = p.ofile ↔ abrir sis p ruta = none := by
  cases opened : abrir sis p ruta with
  | none =>
    cases fuel with
    | zero => cases returned
    | succ fuel =>
      simp only [buscarArchivoFd, opened] at returned
      cases returned
      simp [Proceso.tras]
  | some got =>
    have held := buscarArchivoFd_grows got.2 returned (by simp [opened, Proceso.tras])
    have free := abrir_free opened
    refine ⟨fun same => ?_, nofun⟩
    rw [same, free] at held
    cases held

def dosCarpetas : Sistema where
  fs := { dirents := fun ip => [⟨ip, [punto]⟩, ⟨1, [punto, punto]⟩] ++ if ip = 1 then [⟨2, [97]⟩, ⟨3, [98]⟩] else []
          isDir := fun ip => ip < 4
          openable := fun _ => true }
  cwd := 1
  basura := fun _ => 0
  filealloc := fun _ => true

def consola : Proceso := ⟨0, fun fd => fd < 3, 0⟩

theorem buscarArchivoFd_leaks :
    (buscarArchivoFd dosCarpetas [120] 3 consola [punto]).map (fun salida => (List.range nofile).filter salida.2.ofile) =
      some [0, 1, 2, 3, 4, 5] := by
  decide

theorem buscarArchivoFd_same_iff_root : ∃ lines q, buscarArchivoFd dosCarpetas [120] 3 consola [punto] = some (lines, q) ∧
    (q.ofile = consola.ofile ↔ abrir dosCarpetas consola [punto] = none) := by
  have ran : (buscarArchivoFd dosCarpetas [120] 3 consola [punto]).isSome := by decide
  obtain ⟨⟨lines, q⟩, returned⟩ := isSome_iff_exists.mp ran
  exact ⟨lines, q, returned, buscarArchivoFd_same_iff 3 returned⟩

end Xv6.Find

import Xv6.Find.Tree

/-!
`buscar_archivo` of `user/find.c`. A call opens its directory, reads the entries and calls
itself on those that `stat` says are directories. The device number in the global `st`, zero
until a first `stat` succeeds, is carried along, since `nombreLeido` depends on it. The
result is the lines printed and that number; it is `none` only when the fuel, one unit for
each nested call, has run out.
-/

namespace Xv6.Find

/-- The process that runs `find`: its file system, its current directory, and what its
stack holds where the buffer for a path is set up. -/
structure Entorno where
  fs : Fs
  cwd : Nat
  basura : Nat → UInt8

abbrev Salida := List Cadena × Nat

def rootDev : Nat := 1

def Entorno.stat (env : Entorno) (path : Cadena) : Option Bool :=
  (env.fs.sysOpen env.cwd path).map env.fs.isDir

/-- The loop over the entries of an open directory; `visitar` is the recursive call. -/
def recorrer (env : Entorno) (buscado : Cadena) (visitar : Nat → Cadena → Option Salida)
    (lenRuta : Nat) : List Dirent → Nat → Cadena → Option Salida
  | [], dev, _ => some ([], dev)
  | de :: resto, dev, rutaActual =>
    let ruta := if rutaActual.length = 2 then [punto] else rutaActual
    let nombre := nombreLeido de.name dev
    let dest := rutaDestino env.basura ruta nombre (lenRuta + buscado.length + 2)
    if de.inum = 0 ∨ nombre = [punto] ∨ nombre = [punto, punto] then
      recorrer env buscado visitar lenRuta resto dev ruta
    else
      let impresas := if nombre = buscado then [dest] else []
      match env.stat dest with
      | none =>
        (recorrer env buscado visitar lenRuta resto dev ruta).map fun salida =>
          (impresas ++ salida.1, salida.2)
      | some false =>
        (recorrer env buscado visitar lenRuta resto rootDev ruta).map fun salida =>
          (impresas ++ salida.1, salida.2)
      | some true =>
        (visitar rootDev dest).bind fun dentro =>
          (recorrer env buscado visitar lenRuta resto dentro.2 ruta).map fun salida =>
            (impresas ++ dentro.1 ++ salida.1, salida.2)

def buscarArchivo (env : Entorno) (buscado : Cadena) : Nat → Nat → Cadena → Option Salida
  | 0, _, _ => none
  | fuel + 1, dev, rutaActual =>
    match env.fs.sysOpen env.cwd rutaActual with
    | none => some ([], dev)
    | some dir =>
      recorrer env buscado (buscarArchivo env buscado fuel) rutaActual.length
        (env.fs.dirents dir) dev rutaActual

def find (env : Entorno) (ruta buscado : Cadena) : Option (List Cadena) :=
  (buscarArchivo env buscado (maxPath + 1) 0 ruta).map Prod.fst

end Xv6.Find

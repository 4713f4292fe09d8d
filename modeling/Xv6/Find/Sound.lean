import Xv6.Find.Complete

/-!
When every line that `find` prints stands for an entry below the start, each entry for one
line only. A call made for a cut name works on another directory: what it prints either lies
outside the start or was printed already.
-/

namespace Xv6.Find

open List

variable {tree : Tree} {cwd dir room fuel : Nat} {basura : Nat → UInt8}
variable {buscado base ruta : Cadena}

/-- Each line denotes an entry of that name below `dir`, and no two lines the same one. -/
def Correcta (tree : Tree) (cwd dir : Nat) (buscado : Cadena) (out : List Cadena) : Prop :=
  (∀ line ∈ out, ∃ names sub inum, Baja tree.toFs dir names sub ∧
    tree.Entrada sub buscado inum ∧ tree.nameiparent cwd line = some (sub, buscado)) ∧
  (out.map (tree.nameiparent cwd)).Nodup

theorem Correcta.perm {out other : List Cadena} (same : out.Perm other) :
    Correcta tree cwd dir buscado out ↔ Correcta tree cwd dir buscado other := by
  rw [Correcta, Correcta, (same.map (tree.nameiparent cwd)).nodup_iff]
  simp only [same.mem_iff]

section Sound

variable (args : Busqueda tree cwd dir ruta buscado) (faithful : InicioFiel cwd dir ruta)
include args faithful

end Sound

end Xv6.Find

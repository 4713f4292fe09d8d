import Xv6.Find.Lines

/-!
Whether `buscar_archivo` returns. A recursive call gets a longer path than its caller, up to
`MAXPATH`, except that a path of two characters is replaced by `.` and with an empty name
becomes `./` again. `rango` falls at every call but that one.
-/

namespace Xv6.Find

open List Option

variable {env : Entorno} {buscado ruta nombre base : Cadena} {lenRuta dev : Nat}

end Xv6.Find

import Mathlib

/-!
The strings of `user/find.c`: lists of the characters up to the NUL; a buffer is a function
from indices to bytes. `concatenarCadenas` is the source's pair of loops; the path that
`buscar_archivo` builds with it is the concatenation cut to what the buffer holds.

`nombreLeido` is the string that starts at `archivo_actual.name`. A name of `DIRSIZ` bytes
has no NUL in the field, and `user/find.sym` places `st` right behind `archivo_actual`, so
such a name continues with the bytes of `st.dev` until a zero one.
-/

namespace Xv6.Find

open Function List

abbrev Cadena := List UInt8

def barra : UInt8 := 47

def punto : UInt8 := 46

def dirSiz : Nat := 14

/-- First loop of `concatenar_cadenas`: the end of the string in `dest`. -/
def finDeCadena (dest : Nat → UInt8) (limite : Nat) : Nat → Nat → Nat
  | 0, i => i
  | fuel + 1, i => if dest i ≠ 0 ∧ i < limite then finDeCadena dest limite fuel (i + 1) else i

/-- Second loop: copy the characters of `src` from index `i` on. -/
def copiarCadena (limite : Nat) : (Nat → UInt8) → Nat → Cadena → (Nat → UInt8) × Nat
  | dest, i, [] => (dest, i)
  | dest, i, letra :: src =>
    if i < limite then copiarCadena limite (update dest i letra) (i + 1) src
    else (dest, i)

def concatenarCadenas (dest : Nat → UInt8) (src : Cadena) (destSize : Nat) : Nat → UInt8 :=
  let copied := copiarCadena (destSize - 1) dest (finDeCadena dest (destSize - 1) destSize 0) src
  update copied.1 copied.2 0

def cadenaEn (buffer : Nat → UInt8) (size : Nat) : Cadena :=
  ((List.range size).map buffer).takeWhile (· ≠ 0)

def rutaDestino (basura : Nat → UInt8) (ruta nombre : Cadena) (destSize : Nat) : Cadena :=
  let vacia := update basura 0 0
  let conRuta := concatenarCadenas vacia ruta destSize
  let conBarra := concatenarCadenas conRuta [barra] destSize
  cadenaEn (concatenarCadenas conBarra nombre destSize) destSize

def campoNombre (nombre : Cadena) : List UInt8 :=
  nombre ++ List.replicate (dirSiz - nombre.length) 0

def bytesDev (dev : Nat) : List UInt8 :=
  [UInt8.ofNat dev, UInt8.ofNat (dev / 256), UInt8.ofNat (dev / 65536), UInt8.ofNat (dev / 16777216)]

def nombreLeido (nombre : Cadena) (dev : Nat) : Cadena :=
  (campoNombre nombre ++ bytesDev dev).takeWhile (· ≠ 0)

def SinNulos (cadena : Cadena) : Prop := ∀ letra ∈ cadena, letra ≠ 0

def Empieza (buffer : Nat → UInt8) (cadena : Cadena) : Prop :=
  ∀ i < cadena.length, cadena[i]? = some (buffer i)

def Contiene (buffer : Nat → UInt8) (cadena : Cadena) : Prop :=
  Empieza buffer cadena ∧ buffer cadena.length = 0

variable {buffer basura : Nat → UInt8} {cadena src ruta nombre : Cadena} {limite size dev : Nat}

theorem finDeCadena_eq (starts : Empieza buffer cadena) (clean : SinNulos cadena)
    (stops : buffer cadena.length = 0 ∨ cadena.length = limite)
    (fits : cadena.length ≤ limite) (fuel i : Nat) (low : i ≤ cadena.length)
    (enough : cadena.length ≤ i + fuel) : finDeCadena buffer limite fuel i = cadena.length := by
  induction fuel generalizing i with
  | zero =>
    simp only [finDeCadena]
    omega
  | succ fuel ih =>
    rw [finDeCadena]
    by_cases last : i = cadena.length
    · rw [if_neg (by rcases stops with ending | full <;> simp_all), last]
    have inside : i < cadena.length := by omega
    have letra := starts i inside
    have nonzero : buffer i ≠ 0 := clean _ (mem_of_getElem? letra)
    rw [if_pos ⟨nonzero, by omega⟩]
    exact ih (i + 1) (by omega) (by omega)

theorem copiarCadena_eq (src : Cadena) (starts : Empieza buffer cadena) (fits : cadena.length ≤ limite) :
    Empieza (copiarCadena limite buffer cadena.length src).1 ((cadena ++ src).take limite) ∧
    (copiarCadena limite buffer cadena.length src).2 = ((cadena ++ src).take limite).length := by
  induction src generalizing buffer cadena with
  | nil =>
    rw [append_nil, take_of_length_le fits]
    exact ⟨starts, rfl⟩
  | cons letra src ih =>
    rw [copiarCadena]
    by_cases room : cadena.length < limite
    · rw [if_pos room]
      have longer : Empieza (update buffer cadena.length letra) (cadena ++ [letra]) := by
        intro i bound
        rw [length_append, length_singleton] at bound
        obtain rfl | last := eq_or_ne i cadena.length
        · simp
        · rw [List.getElem?_append_left (by omega), update_of_ne last]
          exact starts i (by omega)
      have next := ih longer (by rw [length_append, length_singleton]; omega)
      rw [append_assoc, singleton_append, length_append,
        length_singleton] at next
      exact next
    · rw [if_neg room]
      have full : cadena.length = limite := by omega
      rw [← full, take_left']
      · exact ⟨starts, rfl⟩
      · rfl

theorem concatenarCadenas_eq (src : Cadena) (starts : Empieza buffer cadena) (clean : SinNulos cadena)
    (stops : buffer cadena.length = 0 ∨ cadena.length = size - 1) (fits : cadena.length ≤ size - 1) :
    Contiene (concatenarCadenas buffer src size) ((cadena ++ src).take (size - 1)) := by
  have found := finDeCadena_eq starts clean stops fits size 0 (by omega) (by omega)
  obtain ⟨starts, count⟩ := copiarCadena_eq src starts fits
  simp only [concatenarCadenas, found]
  rw [count]
  refine ⟨fun i bound => ?_, update_self _ _ _⟩
  rw [update_of_ne (by omega)]
  exact starts i bound

theorem cadenaEn_eq (holds : Contiene buffer cadena) (clean : SinNulos cadena)
    (fits : cadena.length < size) : cadenaEn buffer size = cadena := by
  have split : (List.range size).map buffer = cadena ++
      0 :: ((List.range (size - cadena.length - 1)).map fun i => buffer (cadena.length + 1 + i)) := by
    refine ext_getElem? fun i => ?_
    by_cases inside : i < cadena.length
    · rw [List.getElem?_append_left inside, holds.1 i inside]
      simp [show i < size by omega]
    rw [List.getElem?_append_right (by omega)]
    obtain rfl | last := eq_or_ne i cadena.length
    · simp [fits, holds.2]
    obtain ⟨k, rfl⟩ : ∃ k, i = cadena.length + 1 + k := ⟨i - cadena.length - 1, by omega⟩
    rw [show cadena.length + 1 + k - cadena.length = k + 1 by omega, List.getElem?_cons_succ]
    by_cases high : k < size - cadena.length - 1
    · simp [high, show cadena.length + 1 + k < size by omega]
    · simp [high, show ¬ cadena.length + 1 + k < size by omega]
  rw [cadenaEn, split, takeWhile_append_of_pos fun letra found => by simpa using clean letra found]
  simp

theorem SinNulos.append (first : SinNulos cadena) (second : SinNulos src) :
    SinNulos (cadena ++ src) := by
  intro letra found
  rcases mem_append.mp found with left | right
  · exact first letra left
  · exact second letra right

theorem SinNulos.take (clean : SinNulos cadena) (count : Nat) : SinNulos (cadena.take count) :=
  fun letra found => clean letra (mem_of_mem_take found)

theorem take_take_append (first second : Cadena) (count : Nat) :
    (first.take count ++ second).take count = (first ++ second).take count := by
  by_cases short : first.length ≤ count
  · rw [take_of_length_le short]
  · rw [take_append_of_le_length (by simp; omega), take_append_of_le_length (by omega),
      take_take, Nat.min_self]

theorem sinNulos_barra : SinNulos [barra] := by
  simp [SinNulos, barra]

theorem rutaDestino_eq (cleanRuta : SinNulos ruta) (cleanNombre : SinNulos nombre)
    (room : 0 < size) :
    rutaDestino basura ruta nombre size = (ruta ++ [barra] ++ nombre).take (size - 1) := by
  have vacia : Contiene (update basura 0 0) [] :=
    ⟨fun i bound => absurd bound (Nat.not_lt_zero i), update_self _ _ _⟩
  have first : Contiene (concatenarCadenas (update basura 0 0) ruta size)
      (ruta.take (size - 1)) :=
    concatenarCadenas_eq ruta vacia.1 (by simp [SinNulos]) (.inl vacia.2) (Nat.zero_le _)
  have second := concatenarCadenas_eq [barra] first.1 (cleanRuta.take _) (.inl first.2)
    (length_take_le _ _)
  have third := concatenarCadenas_eq nombre second.1
    (((cleanRuta.take _).append sinNulos_barra).take _) (.inl second.2) (length_take_le _ _)
  have cut : ((ruta.take (size - 1) ++ [barra]).take (size - 1) ++ nombre).take (size - 1) =
      (ruta ++ [barra] ++ nombre).take (size - 1) := by
    rw [take_take_append, append_assoc, take_take_append, append_assoc]
  rw [cut] at third
  rw [rutaDestino]
  refine cadenaEn_eq third (((cleanRuta.append sinNulos_barra).append cleanNombre).take _) ?_
  exact Nat.lt_of_le_of_lt (length_take_le _ _) (by omega)

theorem sinNulos_takeWhile (bytes : List UInt8) : SinNulos (bytes.takeWhile (· ≠ 0)) :=
  fun letra found => by simpa using all_eq_true.mp all_takeWhile letra found

theorem cadenaEn_spec (buffer : Nat → UInt8) (limite : Nat) :
    Empieza buffer (cadenaEn buffer limite) ∧ SinNulos (cadenaEn buffer limite) ∧
      (cadenaEn buffer limite).length ≤ limite ∧
      (buffer (cadenaEn buffer limite).length = 0 ∨ (cadenaEn buffer limite).length = limite) := by
  have split : cadenaEn buffer limite ++ ((List.range limite).map buffer).dropWhile (· ≠ 0) =
      (List.range limite).map buffer := takeWhile_append_dropWhile
  have count := congrArg List.length split
  rw [length_append, length_map, length_range] at count
  have letters : ∀ i < limite,
      (cadenaEn buffer limite ++ ((List.range limite).map buffer).dropWhile (· ≠ 0))[i]? =
        some (buffer i) := by
    intro i bound
    rw [split]
    simp [bound]
  refine ⟨fun i inside => ?_, sinNulos_takeWhile _, by omega, ?_⟩
  · rw [← letters i (by omega), List.getElem?_append_left inside]
  have ending := List.head?_dropWhile_not (· ≠ 0) ((List.range limite).map buffer)
  cases rest : ((List.range limite).map buffer).dropWhile (· ≠ 0) with
  | nil =>
    rw [rest, length_nil] at count
    exact .inr count
  | cons letra others =>
    rw [rest, length_cons] at count
    have last := letters (cadenaEn buffer limite).length (by omega)
    rw [rest, List.getElem?_append_right (Nat.le_refl _), Nat.sub_self] at last
    rw [rest] at ending
    simp_all

/-! The same loops on a buffer of `size` bytes, where an access outside it is a fault. -/

def finVigilado (size : Nat) (dest : Nat → UInt8) (limite : Nat) : Nat → Nat → Option Nat
  | 0, i => some i
  | fuel + 1, i =>
    if i < size then
      if dest i ≠ 0 ∧ i < limite then finVigilado size dest limite fuel (i + 1) else some i
    else none

def escribir (size : Nat) (dest : Nat → UInt8) (i : Nat) (letra : UInt8) : Option (Nat → UInt8) :=
  if i < size then some (update dest i letra) else none

def copiarVigilado (size limite : Nat) : (Nat → UInt8) → Nat → Cadena → Option ((Nat → UInt8) × Nat)
  | dest, i, [] => some (dest, i)
  | dest, i, letra :: src =>
    if i < limite then do copiarVigilado size limite (← escribir size dest i letra) (i + 1) src
    else some (dest, i)

def concatenarVigilado (dest : Nat → UInt8) (src : Cadena) (destSize : Nat) : Option (Nat → UInt8) := do
  let fin ← finVigilado destSize dest (destSize - 1) destSize 0
  let (copia, i) ← copiarVigilado destSize (destSize - 1) dest fin src
  escribir destSize copia i 0

theorem finVigilado_eq (inside : limite < size) (fuel i : Nat) (low : i ≤ limite) :
    finVigilado size buffer limite fuel i = some (finDeCadena buffer limite fuel i) ∧
      finDeCadena buffer limite fuel i ≤ limite := by
  induction fuel generalizing i with
  | zero => exact ⟨rfl, low⟩
  | succ fuel ih =>
    rw [finVigilado, finDeCadena, if_pos (by omega)]
    split
    · exact ih (i + 1) (by omega)
    · exact ⟨rfl, low⟩

structure Copiado (size limite : Nat) (dest : Nat → UInt8) (i : Nat) (src : Cadena) : Prop where
  faultless : copiarVigilado size limite dest i src = some (copiarCadena limite dest i src)
  low : (copiarCadena limite dest i src).2 ≤ limite
  outside : ∀ place, size ≤ place → (copiarCadena limite dest i src).1 place = dest place

theorem copiarVigilado_eq (inside : limite < size) (src : Cadena) (dest : Nat → UInt8) (i : Nat)
    (low : i ≤ limite) : Copiado size limite dest i src := by
  induction src generalizing dest i with
  | nil => exact ⟨rfl, low, fun _ _ => rfl⟩
  | cons letra src ih =>
    by_cases room : i < limite
    · have next := ih (update dest i letra) (i + 1) room
      constructor
      · rw [copiarVigilado, copiarCadena, if_pos room, if_pos room, escribir, if_pos (by omega)]
        exact next.faultless
      · rw [copiarCadena, if_pos room]
        exact next.low
      · intro place out
        rw [copiarCadena, if_pos room, next.outside place out, update_of_ne (by omega)]
    · constructor
      · rw [copiarVigilado, copiarCadena, if_neg room, if_neg room]
      · rw [copiarCadena, if_neg room]
        exact low
      · intro place _
        rw [copiarCadena, if_neg room]

theorem concatenarVigilado_eq (dest : Nat → UInt8) (src : Cadena) (room : 0 < size) :
    concatenarVigilado dest src size = some (concatenarCadenas dest src size) ∧
      ∀ place, size ≤ place → concatenarCadenas dest src size place = dest place := by
  have inside : size - 1 < size := by omega
  obtain ⟨fin, low⟩ := finVigilado_eq inside size 0 (Nat.zero_le _)
  have copied := copiarVigilado_eq inside src dest _ low
  constructor
  · rw [concatenarVigilado, fin, Option.bind_eq_bind, Option.bind_some, copied.faultless]
    exact if_pos (Nat.lt_of_le_of_lt copied.low inside)
  · intro place out
    have last := copied.low
    rw [concatenarCadenas, update_of_ne (by omega), copied.outside place out]

/-- `concatenar_cadenas` stays inside its buffer and leaves there as much of the
concatenation as fits, whatever the buffer held before. -/
theorem concatenarCadenas_bounded (dest : Nat → UInt8) (src : Cadena) (size : Nat)
    (clean : SinNulos src) (room : 0 < size) :
    concatenarVigilado dest src size = some (concatenarCadenas dest src size) ∧
    (∀ place, size ≤ place → concatenarCadenas dest src size place = dest place) ∧
    Contiene (concatenarCadenas dest src size) ((cadenaEn dest (size - 1) ++ src).take (size - 1)) ∧
    cadenaEn (concatenarCadenas dest src size) size = (cadenaEn dest (size - 1) ++ src).take (size - 1) ∧
    ∀ basura ruta nombre, SinNulos ruta → SinNulos nombre →
      rutaDestino basura ruta nombre size = (ruta ++ [barra] ++ nombre).take (size - 1) := by
  obtain ⟨faultless, outside⟩ := concatenarVigilado_eq dest src room
  obtain ⟨starts, old, fits, stops⟩ := cadenaEn_spec dest (size - 1)
  have held := concatenarCadenas_eq src starts old stops fits
  refine ⟨faultless, outside, held, ?_, fun basura ruta nombre first second =>
    rutaDestino_eq first second room⟩
  refine cadenaEn_eq held ((old.append clean).take _) ?_
  exact Nat.lt_of_le_of_lt (length_take_le _ _) (by omega)

theorem concatenarCadenas_bounded_unterminated :
    cadenaEn (concatenarCadenas (fun _ => punto) [barra] 3) 3 = [punto, punto] := by
  have bounded := concatenarCadenas_bounded (fun _ => punto) [barra] 3 sinNulos_barra (by decide)
  exact bounded.2.2.2.1

theorem nombreLeido_eq (clean : SinNulos nombre) (fits : nombre.length < dirSiz ∨
    nombre.length = dirSiz ∧ dev = 0) : nombreLeido nombre dev = nombre := by
  rw [nombreLeido, campoNombre, append_assoc,
    takeWhile_append_of_pos fun letra found => by simpa using clean letra found]
  rcases fits with short | ⟨full, zero⟩
  · obtain ⟨k, count⟩ : ∃ k, dirSiz - nombre.length = k + 1 := ⟨dirSiz - nombre.length - 1, by omega⟩
    simp [count, replicate_succ]
  · simp [full, zero, bytesDev]

theorem nombreLeido_full (clean : SinNulos nombre) (full : nombre.length = dirSiz) :
    nombreLeido nombre 1 = nombre ++ [1] := by
  rw [nombreLeido, campoNombre, append_assoc,
    takeWhile_append_of_pos fun letra found => by simpa using clean letra found]
  simp [full, bytesDev]

end Xv6.Find

import Xv6.Find.Strings

/-!
The directory tree that `find` walks, and path names in it. `Fs` is what the system calls
see: the entries of each directory, which inodes are directories, and which can be opened.
`namei` and `nameiparent` follow `namex` of `kernel/fs.c`. `Tree` adds that the directories
form a tree with `.` and `..` in each of them.
-/

namespace Xv6.Find

open List

structure Dirent where
  inum : Nat
  name : Cadena
deriving DecidableEq

structure Fs where
  dirents : Nat → List Dirent
  isDir : Nat → Bool
  openable : Nat → Bool

def rootIno : Nat := 1

def maxPath : Nat := 128

def partes : Cadena → List Cadena
  | [] => [[]]
  | letra :: path =>
    if letra = barra then [] :: partes path
    else match partes path with
      | [] => [[letra]]
      | parte :: resto => (letra :: parte) :: resto

def elementos (path : Cadena) : List Cadena :=
  ((partes path).filter (· ≠ [])).map (List.take dirSiz)

namespace Fs

variable (fs : Fs)

def dirlookup (dp : Nat) (name : Cadena) : Option Nat :=
  ((fs.dirents dp).find? fun de => de.inum ≠ 0 ∧ de.name = name).map Dirent.inum

def namex : Nat → List Cadena → Option Nat
  | ip, [] => some ip
  | ip, name :: names => if fs.isDir ip then (fs.dirlookup ip name).bind (namex · names) else none

def inicio (cwd : Nat) (path : Cadena) : Nat := if path.head? = some barra then rootIno else cwd

def namei (cwd : Nat) (path : Cadena) : Option Nat :=
  fs.namex (inicio cwd path) (elementos path)

def nameiparent (cwd : Nat) (path : Cadena) : Option (Nat × Cadena) :=
  (elementos path).getLast?.bind fun name =>
    (fs.namex (inicio cwd path) (elementos path).dropLast).bind fun dp =>
      if fs.isDir dp then some (dp, name) else none

def sysOpen (cwd : Nat) (path : Cadena) : Option Nat :=
  if path.length < maxPath then (fs.namei cwd path).filter fun ip => fs.openable ip else none

end Fs

def esPunto (name : Cadena) : Prop := name = [punto] ∨ name = [punto, punto]

instance (name : Cadena) : Decidable (esPunto name) := inferInstanceAs (Decidable (_ ∨ _))

structure NombreValido (name : Cadena) : Prop where
  nonempty : name ≠ []
  fits : name.length ≤ dirSiz
  clean : SinNulos name
  plain : barra ∉ name

instance (name : Cadena) : Decidable (NombreValido name) :=
  decidable_of_iff (name ≠ [] ∧ name.length ≤ dirSiz ∧ (∀ letra ∈ name, letra ≠ 0) ∧ barra ∉ name)
    ⟨fun all => ⟨all.1, all.2.1, all.2.2.1, all.2.2.2⟩,
      fun valid => ⟨valid.nonempty, valid.fits, valid.clean, valid.plain⟩⟩

/-- The directories form a tree: `parent` is what `..` names, and `depth` grows downwards. -/
structure Tree extends Fs where
  parent : Nat → Nat
  depth : Nat → Nat
  rootDir : isDir rootIno = true
  rootParent : parent rootIno = rootIno
  opens : ∀ d, isDir d → openable d = true
  valid : ∀ d, isDir d → ∀ de ∈ dirents d, de.inum ≠ 0 → NombreValido de.name
  distinct : ∀ d, isDir d →
    (dirents d).Pairwise fun de other => de.inum ≠ 0 → other.inum ≠ 0 → de.name ≠ other.name
  positive : ∀ d, isDir d → d ≠ 0
  dot : ∀ d, isDir d → ⟨d, [punto]⟩ ∈ dirents d
  dotdot : ∀ d, isDir d → isDir (parent d) ∧ ⟨parent d, [punto, punto]⟩ ∈ dirents d
  child : ∀ d, isDir d → ∀ de ∈ dirents d, de.inum ≠ 0 → ¬ esPunto de.name → isDir de.inum →
    parent de.inum = d ∧ depth de.inum = depth d + 1
  once : ∀ d, isDir d → ∀ de ∈ dirents d, ∀ other ∈ dirents d, ¬ esPunto de.name →
    ¬ esPunto other.name → isDir de.inum → de.inum = other.inum → de.name = other.name
  listed : ∀ d, isDir d → d ≠ rootIno →
    ∃ name, ¬ esPunto name ∧ ⟨d, name⟩ ∈ dirents (parent d)

theorem partes_ne_nil (path : Cadena) : partes path ≠ [] := by
  cases path with
  | nil => simp [partes]
  | cons letra path =>
    rw [partes]
    split
    · simp
    · split <;> simp

theorem partes_append (path rest : Cadena) :
    partes (path ++ barra :: rest) = partes path ++ partes rest := by
  induction path with
  | nil => simp [partes]
  | cons letra path ih =>
    rw [cons_append, partes, partes, ih]
    by_cases slash : letra = barra
    · simp [slash]
    simp only [if_neg slash]
    cases pieces : partes path with
    | nil => exact absurd pieces (partes_ne_nil path)
    | cons parte resto => rfl

theorem partes_plain {name : Cadena} (plain : barra ∉ name) : partes name = [name] := by
  induction name with
  | nil => rfl
  | cons letra name ih =>
    obtain ⟨different, rest⟩ := not_or.mp (mem_cons.not.mp plain)
    rw [partes, if_neg (Ne.symm different), ih rest]

theorem elementos_append (path : Cadena) {name : Cadena} (nonempty : name ≠ [])
    (plain : barra ∉ name) :
    elementos (path ++ [barra] ++ name) = elementos path ++ [name.take dirSiz] := by
  rw [append_assoc, singleton_append, elementos, partes_append, partes_plain plain]
  simp [elementos, nonempty]

theorem Fs.namex_append (fs : Fs) (ip : Nat) (first second : List Cadena) :
    fs.namex ip (first ++ second) = (fs.namex ip first).bind (fs.namex · second) := by
  induction first generalizing ip with
  | nil => rfl
  | cons name names ih =>
    rw [cons_append, namex, namex]
    split
    · cases fs.dirlookup ip name with
      | none => rfl
      | some next => exact ih next
    · rfl

section Paths

variable {fs : Fs} {cwd dir : Nat} {ruta name : Cadena}

theorem inicio_append (nonempty : ruta ≠ []) (rest : Cadena) :
    Fs.inicio cwd (ruta ++ rest) = Fs.inicio cwd ruta := by
  cases ruta with
  | nil => exact absurd rfl nonempty
  | cons letra ruta => rfl

theorem Fs.namei_append (nonempty : ruta ≠ []) (found : fs.namei cwd ruta = some dir)
    (isDir : fs.isDir dir = true) (named : name ≠ []) (plain : barra ∉ name) :
    fs.namei cwd (ruta ++ [barra] ++ name) = fs.dirlookup dir (name.take dirSiz) := by
  rw [Fs.namei, append_assoc, inicio_append nonempty, ← append_assoc,
    elementos_append ruta named plain, namex_append]
  rw [Fs.namei] at found
  rw [found]
  cases next : fs.dirlookup dir (name.take dirSiz) with
  | none | some _ => simp [Fs.namex, isDir, next]

theorem Fs.nameiparent_append (nonempty : ruta ≠ []) (found : fs.namei cwd ruta = some dir)
    (isDir : fs.isDir dir = true) (valid : NombreValido name) :
    fs.nameiparent cwd (ruta ++ [barra] ++ name) = some (dir, name) := by
  have elems := elementos_append ruta valid.nonempty valid.plain
  rw [take_of_length_le valid.fits] at elems
  rw [Fs.nameiparent, elems]
  rw [Fs.namei] at found
  rw [List.getLast?_append, dropLast_append_of_ne_nil (by simp)]
  simp [inicio_append nonempty, found, isDir]

end Paths

end Xv6.Find

import Xv6.Lib.Bytes
import Xv6.Lib.Hoare

/-!
Virtual memory: `kernel/vm.c` over `kernel/kalloc.c`. Physical memory is a function from the
address of a page to its bytes, so that page tables and user data lie in the same memory.
`kmem.freelist` is a list of page addresses; the link in a free page is not stored. A call
runs without interruption, but the rest of the machine may hold all pages at any time:
`refuse` says which calls of `kalloc` to come find the list empty for that reason. Addresses
and sizes are `uint64`: natural numbers, with the remainder taken where a sum may go beyond
them.
-/

namespace Xv6.Vm

open Lib.Bytes Lib.Hoare
open Function

def pgsize : Nat := 4096

/-- `TRAMPOLINE` and `TRAPFRAME` are the two highest pages below `MAXVA`. -/
def maxva : Nat := 2 ^ 38

def trampoline : Nat := maxva - pgsize

def trapframe : Nat := trampoline - pgsize

def kernbase : Nat := 0x80000000

def phystop : Nat := kernbase + 128 * 1024 * 1024

/-- What the linker decides: `end` and the page of the trampoline code. -/
class Symbols where
  kernelEnd : Nat
  trampolineCode : Nat
  loaded : kernbase ≤ trampolineCode ∧ trampolineCode + pgsize ≤ kernelEnd
  aligned : trampolineCode % pgsize = 0

def pgRoundUp (sz : Nat) : Nat := (sz + pgsize - 1) % 2 ^ 64 / pgsize * pgsize

def pgRoundDown (a : Nat) : Nat := a / pgsize * pgsize

def pteV : Nat := 1

def pteR : Nat := 2

def pteW : Nat := 4

def pteX : Nat := 8

def pteU : Nat := 16

def has (pte mask : Nat) : Bool := pte &&& mask ≠ 0

def without (pte mask : Nat) : Nat := pte ^^^ (pte &&& mask)

def pa2pte (pa : Nat) : Nat := pa / 2 ^ 12 * 2 ^ 10

def pte2pa (pte : Nat) : Nat := pte / 2 ^ 10 * 2 ^ 12 % 2 ^ 64

def pteFlags (pte : Nat) : Nat := pte % 2 ^ 10

abbrev Index := Fin 512

def px (level va : Nat) : Index := ⟨va / 2 ^ (12 + 9 * level) % 512, Nat.mod_lt _ (by decide)⟩

inductive Panic where
  | kfree
  | walk
  | mappagesVa
  | mappagesSizeAligned
  | mappagesSize
  | mappagesRemap
  | uvmunmap
  | freewalk
  | uvmclear
  | loadseg
deriving DecidableEq

def Panic.message : Panic → String
  | kfree => "kfree"
  | walk => "walk"
  | mappagesVa => "mappages: va not aligned"
  | mappagesSizeAligned => "mappages: size not aligned"
  | mappagesSize => "mappages: size"
  | mappagesRemap => "mappages: remap"
  | uvmunmap => "uvmunmap: not aligned"
  | freewalk => "freewalk: leaf"
  | uvmclear => "uvmclear"
  | loadseg => "loadseg: address should exist"

inductive Stop where
  | panic (reason : Panic)
  /-- an entry is read through a null pointer -/
  | null
  /-- `freewalk` goes below the third level -/
  | deep
  /-- a store past the end of the array `ustack` -/
  | ustack
deriving DecidableEq

abbrev Page := Nat → UInt8

structure State where
  mem : Nat → Page
  freelist : List Nat
  refuse : Nat → Bool

abbrev K (α : Type) := Prog State Stop α

def Managed [Symbols] (pa : Nat) : Prop := pa % pgsize = 0 ∧ Symbols.kernelEnd ≤ pa ∧ pa < phystop

instance [Symbols] (pa : Nat) : Decidable (Managed pa) := inferInstanceAs (Decidable (_ ∧ _))

def memset (pa : Nat) (byte : UInt8) : K Unit := modify fun st => { st with mem := update st.mem pa fun _ => byte }

def kfree [Symbols] (pa : Nat) : K Unit :=
  if Managed pa then do
    memset pa 1
    modify fun st => { st with freelist := pa :: st.freelist }
  else throw (.panic .kfree)

def kalloc : K (Option Nat) := do
  let st ← get
  set { st with refuse := fun i => st.refuse (i + 1) }
  match st.refuse 0, st.freelist with
  | false, r :: rest => do
      modify fun st => { st with freelist := rest }
      memset r 5
      return some r
  | _, _ => return none

abbrev Slot := Nat × Index

def pteAt (mem : Nat → Page) (slot : Slot) : Nat := load (mem slot.1) (8 * slot.2) 8

def putPte (mem : Nat → Page) (slot : Slot) (pte : Nat) : Nat → Page :=
  update mem slot.1 (store (mem slot.1) (8 * slot.2) pte 8)

def readPte (slot : Slot) : K Nat := do
  return pteAt (← get).mem slot

def writePte (slot : Slot) (pte : Nat) : K Unit := modify fun st => { st with mem := putPte st.mem slot pte }

def walkFrom (va : Nat) (alloc : Bool) : Nat → Nat → K (Option Slot)
  | 0, table => pure (some (table, px 0 va))
  | level + 1, table => do
      let pte ← readPte (table, px (level + 1) va)
      if has pte pteV then walkFrom va alloc level (pte2pa pte)
      else if alloc then do
        match ← kalloc with
        | none => return none
        | some page =>
          memset page 0
          writePte (table, px (level + 1) va) (pa2pte page ||| pteV)
          walkFrom va alloc level page
      else return none

def walk (pagetable va : Nat) (alloc : Bool) : K (Option Slot) :=
  if maxva ≤ va then throw (.panic .walk) else walkFrom va alloc 2 pagetable

/-- The physical address, or 0. -/
def walkaddr (pagetable va : Nat) : K Nat :=
  if maxva ≤ va then return 0
  else do
    match ← walk pagetable va false with
    | none => return 0
    | some slot =>
      let pte ← readPte slot
      if ¬ has pte pteV then return 0
      else if ¬ has pte pteU then return 0
      else return pte2pa pte

def mappagesFrom (pagetable last perm : Nat) : Nat → Nat → Nat → K Bool
  | 0, _, _ => pure true
  | fuel + 1, a, pa => do
      match ← walk pagetable a true with
      | none => return false
      | some slot =>
        let pte ← readPte slot
        if has pte pteV then throw (.panic .mappagesRemap)
        else do
          writePte slot (pa2pte pa ||| perm ||| pteV)
          if a = last then return true
          else mappagesFrom pagetable last perm fuel ((a + pgsize) % 2 ^ 64) ((pa + pgsize) % 2 ^ 64)

/-- True for the return value 0, false for -1. -/
def mappages (pagetable va size pa perm : Nat) : K Bool :=
  if va % pgsize ≠ 0 then throw (.panic .mappagesVa)
  else if size % pgsize ≠ 0 then throw (.panic .mappagesSizeAligned)
  else if size = 0 then throw (.panic .mappagesSize)
  else mappagesFrom pagetable ((va + size - pgsize) % 2 ^ 64) perm (size / pgsize) va pa

def uvmcreate : K (Option Nat) := do
  match ← kalloc with
  | none => return none
  | some pagetable =>
    memset pagetable 0
    return some pagetable

section

variable [Symbols]

def unmapPage (pagetable a : Nat) (doFree : Bool) : K Unit := do
  match ← walk pagetable a false with
  | none => pure ()
  | some slot =>
    let pte ← readPte slot
    if has pte pteV then do
      if doFree then kfree (pte2pa pte) else pure ()
      writePte slot 0
    else pure ()

def uvmunmapFrom (pagetable stop : Nat) (doFree : Bool) : Nat → Nat → K Unit
  | 0, _ => pure ()
  | fuel + 1, a =>
    if a < stop then do
      unmapPage pagetable a doFree
      uvmunmapFrom pagetable stop doFree fuel ((a + pgsize) % 2 ^ 64)
    else pure ()

def uvmunmap (pagetable va npages : Nat) (doFree : Bool) : K Unit :=
  if va % pgsize ≠ 0 then throw (.panic .uvmunmap)
  else uvmunmapFrom pagetable ((va + npages * pgsize) % 2 ^ 64) doFree npages va

/-- An `int` of 32 bits that is converted to `uint64`. -/
def ofInt (n : Nat) : Nat := if n % 2 ^ 32 < 2 ^ 31 then n % 2 ^ 32 else n % 2 ^ 32 + (2 ^ 64 - 2 ^ 32)

/-- The new size. -/
def uvmdealloc (pagetable oldsz newsz : Nat) : K Nat :=
  if oldsz ≤ newsz then return oldsz
  else do
    if pgRoundUp newsz < pgRoundUp oldsz then
      uvmunmap pagetable (pgRoundUp newsz) (ofInt ((pgRoundUp oldsz - pgRoundUp newsz) / pgsize)) true
    else pure ()
    return newsz

def uvmallocFrom (pagetable oldsz newsz xperm : Nat) : Nat → Nat → K Nat
  | 0, _ => pure newsz
  | fuel + 1, a =>
    if a < newsz then do
      match ← kalloc with
      | none => do
          let _ ← uvmdealloc pagetable a oldsz
          return 0
      | some mem =>
        memset mem 0
        if ← mappages pagetable a pgsize mem (pteR ||| pteU ||| xperm) then
          uvmallocFrom pagetable oldsz newsz xperm fuel ((a + pgsize) % 2 ^ 64)
        else do
          kfree mem
          let _ ← uvmdealloc pagetable a oldsz
          return 0
    else return newsz

/-- The new size, or 0. -/
def uvmalloc (pagetable oldsz newsz xperm : Nat) : K Nat :=
  if newsz < oldsz then return oldsz
  else uvmallocFrom pagetable (pgRoundUp oldsz) newsz xperm (newsz / pgsize + 1) (pgRoundUp oldsz)

def freewalkFrom (free : Nat → K Unit) (pagetable : Nat) : List Index → K Unit
  | [] => pure ()
  | i :: rest => do
      let pte ← readPte (pagetable, i)
      if has pte pteV ∧ ¬ has pte (pteR ||| pteW ||| pteX) then do
        free (pte2pa pte)
        writePte (pagetable, i) 0
        freewalkFrom free pagetable rest
      else if has pte pteV then throw (.panic .freewalk)
      else freewalkFrom free pagetable rest

/-- `freewalk` of a table that has at most `depth` levels. -/
def freewalk : Nat → Nat → K Unit
  | 0, _ => throw .deep
  | depth + 1, pagetable => do
      freewalkFrom (freewalk depth) pagetable (List.finRange 512)
      kfree pagetable

def uvmfree (pagetable sz : Nat) : K Unit := do
  if 0 < sz then uvmunmap pagetable 0 (pgRoundUp sz / pgsize) true else pure ()
  freewalk 3 pagetable

def copyPage (pa source : Nat) : K Unit := modify fun st => { st with mem := update st.mem pa (st.mem source) }

def uvmcopyFrom (old new sz : Nat) : Nat → Nat → K Bool
  | 0, _ => pure true
  | fuel + 1, i =>
    if i < sz then do
      match ← walk old i false with
      | none => uvmcopyFrom old new sz fuel ((i + pgsize) % 2 ^ 64)
      | some slot =>
        let pte ← readPte slot
        if ¬ has pte pteV then uvmcopyFrom old new sz fuel ((i + pgsize) % 2 ^ 64)
        else do
          match ← kalloc with
          | none => do
              uvmunmap new 0 (i / pgsize) true
              return false
          | some mem =>
            copyPage mem (pte2pa pte)
            if ← mappages new i pgsize mem (pteFlags pte) then
              uvmcopyFrom old new sz fuel ((i + pgsize) % 2 ^ 64)
            else do
              kfree mem
              uvmunmap new 0 (i / pgsize) true
              return false
    else return true

/-- True for the return value 0, false for -1. -/
def uvmcopy (old new sz : Nat) : K Bool := uvmcopyFrom old new sz (sz / pgsize + 1) 0

def uvmclear (pagetable va : Nat) : K Unit := do
  match ← walk pagetable va false with
  | none => throw (.panic .uvmclear)
  | some slot =>
    let pte ← readPte slot
    writePte slot (without pte pteU)

def ismapped (pagetable va : Nat) : K Bool := do
  match ← walk pagetable va false with
  | none => return false
  | some slot => return has (← readPte slot) pteV

/-- The physical address, or 0. -/
def vmfault (pagetable psz va : Nat) : K Nat :=
  if psz ≤ va then return 0
  else do
    if ← ismapped pagetable (pgRoundDown va) then return 0
    else
      match ← kalloc with
      | none => return 0
      | some mem =>
        memset mem 0
        if ← mappages pagetable (pgRoundDown va) pgsize mem (pteW ||| pteU ||| pteR) then return mem
        else do
          kfree mem
          return 0

def useraddr (pagetable psz va0 : Nat) : K Nat := do
  let pa0 ← walkaddr pagetable va0
  if pa0 = 0 then vmfault pagetable psz va0 else return pa0

def overwrite (page : Page) (off : Nat) (bytes : List UInt8) : Page :=
  fun x => if off ≤ x then (bytes[x - off]?).getD (page x) else page x

def storeBytes (pa off : Nat) (bytes : List UInt8) : K Unit :=
  modify fun st => { st with mem := update st.mem pa (overwrite (st.mem pa) off bytes) }

def loadBytes (pa off n : Nat) : K (List UInt8) := do
  let st ← get
  return (List.range n).map fun k => st.mem pa (off + k)

def copyoutFrom (pagetable psz : Nat) : Nat → Nat → List UInt8 → K Bool
  | 0, _, _ => pure true
  | fuel + 1, dstva, src =>
    if src = [] then return true
    else
      let va0 := pgRoundDown dstva
      if maxva ≤ va0 then return false
      else do
        let pa0 ← useraddr pagetable psz va0
        if pa0 = 0 then return false
        else
          match ← walk pagetable va0 false with
          | none => throw .null
          | some slot =>
            let pte ← readPte slot
            if ¬ has pte pteW then return false
            else do
              let n := min (pgsize - (dstva - va0)) src.length
              storeBytes pa0 (dstva - va0) (src.take n)
              copyoutFrom pagetable psz fuel ((va0 + pgsize) % 2 ^ 64) (src.drop n)

/-- `copyout` of the bytes of `src`: true for the return value 0, false for -1. -/
def copyout (pagetable psz dstva : Nat) (src : List UInt8) : K Bool :=
  copyoutFrom pagetable psz src.length dstva src

/-- The loop of `copyin`, with `len` bytes left: the return value and the bytes stored at `dst`. -/
def copyinFrom (pagetable psz : Nat) : Nat → Nat → Nat → K (Bool × List UInt8)
  | 0, _, _ => pure (true, [])
  | fuel + 1, srcva, len =>
    if len = 0 then return (true, [])
    else do
      let va0 := pgRoundDown srcva
      let pa0 ← useraddr pagetable psz va0
      if pa0 = 0 then return (false, [])
      else do
        let n := min (pgsize - (srcva - va0)) len
        let bytes ← loadBytes pa0 (srcva - va0) n
        let rest ← copyinFrom pagetable psz fuel ((va0 + pgsize) % 2 ^ 64) (len - n)
        return (rest.1, bytes ++ rest.2)

def copyin (pagetable psz srcva len : Nat) : K (Bool × List UInt8) := copyinFrom pagetable psz len srcva len

def scan (page : Page) : Nat → Nat → List UInt8 × Bool
  | 0, _ => ([], false)
  | n + 1, p =>
    if page p = 0 then ([0], true)
    else
      let rest := scan page n (p + 1)
      (page p :: rest.1, rest.2)

/-- The loop of `copyinstr`: the return value and the bytes stored at `dst`. -/
def copyinstrFrom (pagetable psz : Nat) : Nat → Nat → Nat → K (Bool × List UInt8)
  | 0, _, _ => pure (false, [])
  | fuel + 1, srcva, max =>
    if max = 0 then return (false, [])
    else do
      let va0 := pgRoundDown srcva
      let pa0 ← useraddr pagetable psz va0
      if pa0 = 0 then return (false, [])
      else do
        let n := min (pgsize - (srcva - va0)) max
        let st ← get
        let (bytes, gotNull) := scan (st.mem pa0) n (srcva - va0)
        if gotNull then return (true, bytes)
        else do
          let rest ← copyinstrFrom pagetable psz fuel ((va0 + pgsize) % 2 ^ 64) (max - n)
          return (rest.1, bytes ++ rest.2)

def copyinstr (pagetable psz srcva max : Nat) : K (Bool × List UInt8) := copyinstrFrom pagetable psz max srcva max

end

end Xv6.Vm

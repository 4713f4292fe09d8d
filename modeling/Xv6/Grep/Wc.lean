import Xv6.Grep.Input

/-! `wc` of `user/wc.c`, on the same `read` as `grep`. -/

namespace Xv6.Wc

open Grep List

structure Counts where
  l : Nat
  w : Nat
  c : Nat
  inword : Bool

def space (b : UInt8) : Bool := (strchr b [32, 13, 9, 10, 11]).isSome

def count (s : Counts) (b : UInt8) : Counts :=
  let s := { s with c := s.c + 1, l := if b = newline then s.l + 1 else s.l }
  if space b then { s with inword := false }
  else if !s.inword then { s with w := s.w + 1, inword := true }
  else s

def words (input : List UInt8) : Nat := ((input.splitOnP space).filter (· ≠ [])).length

end Xv6.Wc

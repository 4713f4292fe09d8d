import Mathlib

/-!
Search trees of a fixed depth whose nodes lie in a heap. `child` reads the node that an
entry leads to. A node is named by the path from the root; no two paths of at most the depth
end in the same node.
-/

namespace Xv6.Lib.Radix

open List Option

variable {Node Index : Type} {child child' : Node → Index → Option Node} {root node : Node} {depth : Nat}

def follow (child : Node → Index → Option Node) (root : Node) : List Index → Option Node
  | [] => some root
  | i :: path => (child root i).bind fun node => follow child node path

theorem follow_snoc (path : List Index) (i : Index) :
    follow child root (path ++ [i]) = (follow child root path).bind fun node => child node i := by
  induction path generalizing root with
  | nil =>
    rw [nil_append, follow, follow, bind_some]
    cases child root i with
    | none | some _ => rfl
  | cons j path ih =>
    rw [cons_append, follow, follow, bind_assoc]
    exact congrArg _ (funext fun node => ih)

structure Tree (child : Node → Index → Option Node) (root : Node) (depth : Nat) : Prop where
  distinct : ∀ {path other : List Index} {node : Node}, path.length ≤ depth → other.length ≤ depth →
    follow child root path = some node → follow child root other = some node → path = other

theorem follow_congr
    (same : ∀ path node i, path.length < depth → follow child root path = some node → child' node i = child node i)
    (path : List Index) (short : path.length ≤ depth) : follow child' root path = follow child root path := by
  induction path using List.reverseRecOn with
  | nil => rfl
  | append_singleton path i ih =>
    rw [length_append, length_singleton] at short
    rw [follow_snoc, follow_snoc, ih (by omega)]
    cases found : follow child root path with
    | none => rfl
    | some node => exact same path node i (by omega) found

theorem Tree.congr (tree : Tree child root depth)
    (same : ∀ path node i, path.length < depth → follow child root path = some node → child' node i = child node i) :
    Tree child' root depth := by
  refine ⟨fun {path other node} short small first second => ?_⟩
  rw [follow_congr same path short] at first
  rw [follow_congr same other small] at second
  exact tree.distinct short small first second

/-- An entry of the tree that led nowhere leads to a node that was not in the tree and has
no entries. -/
structure Linked (child : Node → Index → Option Node) (root : Node) (depth : Nat) (path : List Index) (i : Index)
    (new : Node) (child' : Node → Index → Option Node) : Prop where
  short : path.length < depth
  missing : (follow child root path).bind (fun node => child node i) = none
  fresh : ∀ other, other.length ≤ depth → follow child root other ≠ some new
  here : ∀ node, follow child root path = some node → child' node i = some new
  empty : ∀ j, child' new j = none
  others : ∀ other node j, other.length < depth → follow child root other = some node → (other, j) ≠ (path, i) →
    child' node j = child node j

namespace Linked

variable {path : List Index} {i : Index} {new : Node} (linked : Linked child root depth path i new child')
include linked

theorem follow_eq [DecidableEq Index] (there : follow child root path = some node) (other : List Index)
    (short : other.length ≤ depth) :
    follow child' root other =
      if path ++ [i] <+: other then (if other = path ++ [i] then some new else none) else follow child root other := by
  induction other using List.reverseRecOn with
  | nil => rw [if_neg (by simp), follow, follow]
  | append_singleton other j ih =>
    rw [length_append, length_singleton] at short
    have either : path ++ [i] <+: other ++ [j] ↔ path ++ [i] = other ++ [j] ∨ path ++ [i] <+: other := prefix_concat_iff
    rw [follow_snoc, ih (by omega)]
    by_cases behind : path ++ [i] <+: other
    · have longer : other ++ [j] ≠ path ++ [i] := by
        intro same
        have lengths := behind.length_le
        rw [← same, length_append, length_singleton] at lengths
        omega
      rw [if_pos behind, if_pos (either.mpr (.inr behind)), if_neg longer]
      by_cases last : other = path ++ [i]
      · rw [if_pos last, bind_some, linked.empty]
      · rw [if_neg last, bind_none]
    · rw [if_neg behind]
      by_cases last : other ++ [j] = path ++ [i]
      · obtain ⟨rfl, same⟩ := append_inj' last rfl
        obtain rfl := singleton_inj.mp same
        rw [there, bind_some, linked.here node there, if_pos (either.mpr (.inl rfl)), if_pos rfl]
      rw [if_neg, follow_snoc]
      · cases found : follow child root other with
        | none => rfl
        | some before =>
          refine linked.others other before j (by omega) found fun same => last ?_
          rw [(Prod.mk.inj same).1, (Prod.mk.inj same).2]
      intro through
      rcases either.mp through with same | within
      · exact last same.symm
      · exact behind within

theorem kept {other : List Index} {was : Node} (short : other.length ≤ depth)
    (found : follow child root other = some was) : follow child' root other = some was := by
  classical
  cases there : follow child root path with
  | none =>
    rw [follow_congr (fun middle _ j less at_middle => ?_) other short]
    · exact found
    · refine linked.others middle _ j less at_middle fun same => ?_
      rw [(Prod.mk.inj same).1, there] at at_middle
      cases at_middle
  | some node =>
    rw [linked.follow_eq there other short, if_neg, found]
    rintro ⟨rest, rfl⟩
    have missing := linked.missing
    rw [there, bind_some] at missing
    have nowhere : ∀ rest, follow child root (path ++ [i] ++ rest) = none := by
      intro rest
      induction rest using List.reverseRecOn with
      | nil => rw [append_nil, follow_snoc, there, bind_some, missing]
      | append_singleton rest j ih => rw [← append_assoc, follow_snoc, ih, bind_none]
    rw [nowhere] at found
    cases found

theorem new_or_kept {other : List Index} {now : Node} (there : follow child root path = some node)
    (short : other.length ≤ depth) (found : follow child' root other = some now) :
    follow child root other = some now ∨ other = path ++ [i] ∧ now = new := by
  classical
  rw [linked.follow_eq there other short] at found
  split at found
  · split at found
    · next last => exact .inr ⟨last, (Option.some.inj found).symm⟩
    · cases found
  · exact .inl found

theorem tree (tree : Tree child root depth) (there : follow child root path = some node) : Tree child' root depth := by
  refine ⟨fun {first second now} short small one two => ?_⟩
  rcases linked.new_or_kept there short one with old | ⟨rfl, rfl⟩
  · rcases linked.new_or_kept there small two with also | ⟨rfl, rfl⟩
    · exact tree.distinct short small old also
    · exact absurd old (linked.fresh first short)
  · rcases linked.new_or_kept there small two with also | ⟨rfl, -⟩
    · exact absurd also (linked.fresh second small)
    · rfl

end Linked

end Xv6.Lib.Radix

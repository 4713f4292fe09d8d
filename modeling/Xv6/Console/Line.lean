import Xv6.Console.Core

/-!
What the console driver is for: a queue of bytes that readers may take and a line that is
being edited.
-/

namespace Xv6.Console

open Xv6.Lib List Ring

/-- `sent` has all the bytes that were ever committed. -/
structure Line where
  committed : List UInt8
  edit : List UInt8
  sent : List UInt8

namespace Line

variable (line : Line)

def room : Prop := line.committed.length + line.edit.length < inputBufSize

instance : Decidable line.room := inferInstanceAs (Decidable (_ < _))

def commit : Line := ⟨line.committed ++ line.edit, [], line.sent ++ line.edit⟩

/-- An ordinary character; a newline, a `^D` or the last free place ends the line. -/
def append (c : UInt8) : Line :=
  let line := { line with edit := line.edit ++ [c] }
  if c = newline ∨ c = ctrlD ∨ line.committed.length + line.edit.length = inputBufSize then line.commit else line

def type (c : UInt8) : Line :=
  if c = ctrlP ∨ c = 0 then line
  else if c = ctrlU then { line with edit := [] }
  else if c = ctrlH ∨ c = delete then { line with edit := line.edit.dropLast }
  else if line.room then line.append (if c = carriageReturn then newline else c)
  else line

end Line

def queues : Driver Line where
  intr := Line.type
  empty line := line.committed.isEmpty
  next line := (line.committed.headD 0, { line with committed := line.committed.tail })
  back line c := { line with committed := c :: line.committed }

structure Holds (cons : Cons) (line : Line) : Prop where
  committed : Ring.contents inputBufSize cons.buf cons.r cons.w = line.committed
  edit : Ring.contents inputBufSize cons.buf cons.w cons.e = line.edit
  inside : Ring.count cons.r cons.w ≤ Ring.count cons.r cons.e
  bounded : Ring.count cons.r cons.e ≤ inputBufSize
  open_ : newline ∉ line.edit

theorem inputBufSize_dvd : inputBufSize ∣ 2 ^ 32 := by decide

variable {cons : Cons} {line : Line} {c : UInt8}

namespace Holds

theorem boot : Holds empty ⟨[], [], []⟩ :=
  ⟨contents_self _ _, contents_self _ _, le_refl _, by rw [empty, count_self]; decide, nofun⟩

variable (holds : Holds cons line)
include holds

theorem length_committed : line.committed.length = Ring.count cons.r cons.w := by
  rw [← holds.committed, length_contents]

theorem length_edit : line.edit.length = Ring.count cons.w cons.e := by
  rw [← holds.edit, length_contents]

theorem length : line.committed.length + line.edit.length = Ring.count cons.r cons.e := by
  rw [holds.length_committed, holds.length_edit, count_add holds.inside]

theorem edit_eq_nil : line.edit = [] ↔ cons.e = cons.w := by
  rw [← length_eq_zero_iff, holds.length_edit, count_eq_zero]
  exact eq_comm

theorem erase (some : cons.e ≠ cons.w) : Holds cons.erase { line with edit := line.edit.dropLast } := by
  have split := count_add holds.inside
  have shorter : count cons.w (cons.e - 1#32) + 1 = count cons.w cons.e := count_erase some.symm
  have away : cons.r ≠ cons.e := by
    rintro same
    rw [same, count_self] at split
    omega
  have total : count cons.r (cons.e - 1#32) + 1 = count cons.r cons.e := count_erase away
  have bounded := holds.bounded
  refine ⟨holds.committed, ?_, ?_, ?_, fun member => holds.open_ (mem_of_mem_dropLast member)⟩
  · exact (contents_erase cons.buf some.symm).trans (congrArg List.dropLast holds.edit)
  · simp only [Cons.erase]
    omega
  · simp only [Cons.erase]
    omega

theorem killLine {fuel : Nat} (enough : line.edit.length ≤ fuel) :
    Holds (Cons.killLine fuel cons) { line with edit := [] } := by
  induction fuel generalizing cons line with
  | zero =>
    have none : line.edit = [] := length_eq_zero_iff.mp (Nat.le_zero.mp enough)
    rw [Cons.killLine, ← none]
    exact holds
  | succ fuel ih =>
    rw [Cons.killLine]
    by_cases some : cons.e = cons.w
    · rw [if_neg fun both => both.1 some, ← holds.edit_eq_nil.mpr some]
      exact holds
    have member : cons.buf (index inputBufSize (cons.e - 1#32)) ∈ line.edit := by
      rw [← holds.edit]
      exact cell_erase_mem inputBufSize_dvd cons.buf (Ne.symm some)
    have other : cons.buf (index inputBufSize (cons.e - 1#32)) ≠ newline := by
      intro same
      rw [same] at member
      exact holds.open_ member
    rw [if_pos ⟨some, other⟩]
    have rest := ih (holds.erase some) (by rw [length_dropLast]; omega)
    exact rest

theorem room_iff : cons.e - cons.r < BitVec.ofNat 32 inputBufSize ↔ line.room := by
  rw [Line.room, holds.length, BitVec.lt_def]
  rfl

theorem append (room : line.room) (c : UInt8) :
    Holds (if c = newline ∨ c = ctrlD ∨ (cons.put c).e - (cons.put c).r = BitVec.ofNat 32 inputBufSize then
      { cons.put c with w := (cons.put c).e } else cons.put c) (line.append c) := by
  have below : count cons.r cons.e < inputBufSize := by
    rw [← holds.length]
    exact room
  have split := count_add holds.inside
  have small : inputBufSize + 1 < 2 ^ 32 := by decide
  have total : count cons.r (cons.e + 1#32) = count cons.r cons.e + 1 := count_push _ _ (by omega)
  have committed : contents inputBufSize (cons.put c).buf cons.r cons.w = line.committed :=
    (contents_update inputBufSize_dvd cons.buf c holds.inside below).trans holds.committed
  have edit : contents inputBufSize (cons.put c).buf cons.w (cons.e + 1#32) = line.edit ++ [c] := by
    rw [← holds.edit]
    exact contents_push inputBufSize_dvd cons.buf cons.w cons.e c (by omega) (by omega)
  have inside : count cons.r cons.w ≤ count cons.r (cons.e + 1#32) := by
    have before := holds.inside
    omega
  have full : (cons.put c).e - (cons.put c).r = BitVec.ofNat 32 inputBufSize ↔
      line.committed.length + (line.edit ++ [c]).length = inputBufSize := by
    rw [length_append, length_singleton, ← add_assoc, holds.length, ← total,
      count_eq_iff _ _ _ (by decide), ← sub_eq_iff_eq_add']
    rfl
  rw [Line.append]
  simp only [full]
  by_cases ends : c = newline ∨ c = ctrlD ∨ line.committed.length + (line.edit ++ [c]).length = inputBufSize
  · rw [if_pos ends, if_pos ends]
    refine ⟨?_, contents_self _ _, le_refl _, ?_, nofun⟩
    · exact (contents_append inputBufSize_dvd _ inside).trans (congrArg₂ (· ++ ·) committed edit)
    · exact total.trans_le below
  rw [if_neg ends, if_neg ends]
  refine ⟨committed, edit, inside, total.trans_le below, fun member => ?_⟩
  rcases mem_append.mp member with old | new
  · exact holds.open_ old
  · exact ends (.inl (mem_singleton.mp new).symm)

theorem intr (c : UInt8) : Holds (ring.intr cons c) (queues.intr line c) := by
  simp only [ring, queues, Cons.consoleintr, Line.type]
  by_cases print : c = ctrlP
  · rw [if_pos print, if_pos (.inl print)]
    exact holds
  rw [if_neg print]
  obtain rfl | nul := eq_or_ne c 0
  · rw [if_neg (by decide), if_neg (by decide), if_neg (by simp), if_pos (.inr rfl)]
    exact holds
  have other : ¬ (c = ctrlP ∨ c = 0) := fun either => either.elim print nul
  rw [if_neg other]
  by_cases kill : c = ctrlU
  · rw [if_pos kill, if_pos kill]
    exact holds.killLine holds.length_edit.le
  rw [if_neg kill, if_neg kill]
  by_cases back : c = ctrlH ∨ c = delete
  · rw [if_pos back, if_pos back]
    by_cases some : cons.e = cons.w
    · have none := holds.edit_eq_nil.mpr some
      rw [if_neg (not_not_intro some), none, dropLast_nil, ← none]
      exact holds
    · rw [if_pos some]
      exact holds.erase some
  · rw [if_neg back, if_neg back]
    by_cases room : line.room
    · rw [if_pos ⟨nul, holds.room_iff.mpr room⟩, if_pos room]
      exact holds.append room _
    · rw [if_neg fun both => room (holds.room_iff.mp both.2), if_neg room]
      exact holds

theorem empty_eq : ring.empty cons = queues.empty line := by
  have same : ring.empty cons = true ↔ queues.empty line = true := by
    simp only [ring, queues, beq_iff_eq, List.isEmpty_iff]
    rw [← length_eq_zero_iff, holds.length_committed, count_eq_zero]
  exact Bool.eq_iff_iff.mpr same

theorem next (some : ring.empty cons = false) :
    (ring.next cons).1 = (queues.next line).1 ∧ Holds (ring.next cons).2 (queues.next line).2 := by
  have different : cons.r ≠ cons.w := by simpa [ring] using some
  have popped := contents_pop inputBufSize_dvd cons.buf cons.r cons.w different
  rw [holds.committed] at popped
  have first : count (cons.r + 1#32) cons.w + 1 = count cons.r cons.w := count_pop _ _ different
  have inside := holds.inside
  have bounded := holds.bounded
  have away : cons.r ≠ cons.e := by
    intro same
    rw [same, count_self] at inside
    rw [same] at first
    omega
  have total : count (cons.r + 1#32) cons.e + 1 = count cons.r cons.e := count_pop _ _ away
  simp only [ring, queues, popped, headD_cons, tail_cons]
  refine ⟨trivial, rfl, holds.edit, ?_, ?_, holds.open_⟩
  · simp only
    omega
  · simp only
    omega

theorem back (some : ring.empty cons = false) :
    Holds (ring.back (ring.next cons).2 (ring.next cons).1) (queues.back (queues.next line).2 (queues.next line).1) := by
  have ring_same : ring.back (ring.next cons).2 (ring.next cons).1 = cons := by
    simp [ring]
  have queues_same : queues.back (queues.next line).2 (queues.next line).1 = line := by
    rw [holds.empty_eq] at some
    obtain ⟨committed, edit, sent⟩ := line
    cases committed with
    | nil => cases some
    | cons c rest => rfl
  rw [ring_same, queues_same]
  exact holds

end Holds

def World.withDev {D E : Type} (world : World D) (dev : E) : World E :=
  ⟨dev, world.lock, world.pcs, world.killed, world.taken, world.returns⟩

def Follows (world : World Cons) (image : World Line) : Prop :=
  ∃ line, Holds world.dev line ∧ image = world.withDev line

end Xv6.Console

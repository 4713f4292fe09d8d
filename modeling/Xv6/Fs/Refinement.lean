import Xv6.Fs.Format

/-!
File contents as lists of bytes: `writei` and `readi` act on these lists as writing over and
reading a part of an array do.
-/

namespace Xv6.Fs

open Function List Option
open Lib.Hoare

def File.bytes (f : File) : List UInt8 := (List.range f.size).map f.data

abbrev Contents := Nat → Option (List UInt8)

def Superblock.contents (sb : Superblock) (disk : Disk) : Contents :=
  fun i => (sb.fileOf disk i).map File.bytes

/-- `new` written over the list at `off`, which it extends when it goes beyond its end. -/
def overlay (bytes : List UInt8) (off : Nat) (new : List UInt8) : List UInt8 :=
  bytes.take off ++ new ++ bytes.drop (off + new.length)

def sourceBytes (src : Nat → Option UInt8) (tot : Nat) : List UInt8 :=
  (List.range tot).map fun k => (src k).getD 0

inductive Access where
  | writei (ip : Nat) (src : Nat → Option UInt8) (off n : Nat)
  | readi (ip off n : Nat)

inductive Reply where
  | wrote (result : Option Nat)
  | read (bytes : List UInt8)

def Access.run (sb : Superblock) : Access → K Reply
  | .writei ip src off n => Reply.wrote <$> Fs.writei sb ip src off n
  | .readi ip off n => Reply.read <$> Fs.readi sb ip off n

def Access.slot : Access → Nat
  | .writei ip _ _ _ => ip
  | .readi ip _ _ => ip

/-- The caller has the inode open, and the offset and the length are 32-bit numbers. -/
def Access.Admitted (st : State) : Access → Prop
  | .writei ip _ off n => 0 < (st.itable ip).ref ∧ (st.itable ip).valid = true ∧ off < 2 ^ 32 ∧ n < 2 ^ 32
  | .readi ip off n => 0 < (st.itable ip).ref ∧ (st.itable ip).valid = true ∧ off < 2 ^ 32 ∧ n < 2 ^ 32

/-- A call on inode `i` that ended in `after` with this reply did this to the lists. -/
def Access.Meets (lists : Contents) (i : Nat) (after : State) (lists' : Contents) :
    Access → Reply → Prop
  | .writei ip src off n, .wrote result => ∃ bytes, lists i = some bytes ∧
      (result = none ↔ off > bytes.length ∨ 2 ^ 32 ≤ off + n ∨ maxFile * bsize < off + n) ∧
      (result = none → lists' = lists) ∧
      ∀ tot, result = some tot → tot ≤ n ∧ ∃ bytes', lists' = update lists i (some bytes') ∧
        (¬ Faulted after ip n (tot, off + tot) → bytes' = overlay bytes off (sourceBytes src tot))
  | .readi _ off n, .read out => ∃ bytes, lists i = some bytes ∧ lists' = lists ∧
      (off + n < 2 ^ 32 → out = (bytes.drop off).take n)
  | _, _ => False

variable {sb : Superblock} {st : State} {stop : Stop → Prop} {ip i : Nat} {f : File}

theorem length_bytes (f : File) : f.bytes.length = f.size := by simp [File.bytes]

theorem getElem?_bytes (f : File) (p : Nat) :
    f.bytes[p]? = if p < f.size then some (f.data p) else none := by
  rw [File.bytes, List.getElem?_map]
  by_cases below : p < f.size
  · rw [if_pos below, List.getElem?_range below, map_some]
  · rw [if_neg below, List.getElem?_eq_none (by simpa using below), map_none]

theorem length_sourceBytes (src : Nat → Option UInt8) (tot : Nat) :
    (sourceBytes src tot).length = tot := by simp [sourceBytes]

theorem Overlaid.bytes {src : Nat → Option UInt8} {off n tot : Nat} {fault : Prop} {f' : File}
    (overlaid : Overlaid f src off n tot fault f') (inside : off ≤ f.size) (copied : ¬ fault) :
    f'.bytes = overlay f.bytes off (sourceBytes src tot) := by
  have size : f'.size = max f.size (off + tot) := by rw [overlaid.shape]
  refine ext_getElem? fun p => ?_
  have head : (f.bytes.take off).length = off := by
    rw [length_take, length_bytes]
    omega
  have body : (f.bytes.take off ++ sourceBytes src tot).length = off + tot := by
    rw [length_append, head, length_sourceBytes]
  rw [getElem?_bytes, size, overlay, length_sourceBytes]
  by_cases before : p < off
  · rw [List.getElem?_append_left (by omega), List.getElem?_append_left (by omega),
      List.getElem?_take_of_lt before, getElem?_bytes, if_pos (by omega), if_pos (by omega)]
    rcases overlaid.old p (by omega) with same | ⟨low, _⟩
    · rw [same]
    · omega
  by_cases within : p < off + tot
  · have byte := overlaid.new (p - off) (by omega)
    rw [show off + (p - off) = p by omega] at byte
    rw [List.getElem?_append_left (by omega), List.getElem?_append_right (by omega), head, sourceBytes,
      List.getElem?_map, List.getElem?_range (by omega), map_some, byte, if_pos (by omega),
      getD_some]
  rw [List.getElem?_append_right (by omega), body, List.getElem?_drop, getElem?_bytes,
    show off + tot + (p - (off + tot)) = p by omega]
  by_cases below : p < f.size
  · rw [if_pos (by omega), if_pos below]
    rcases overlaid.old p below with same | ⟨_, _, _, late | failed⟩
    · rw [same]
    · omega
    · exact absurd failed copied
  · rw [if_neg (by omega), if_neg below]

theorem contents_update {disk disk' : Disk} {f' : File}
    (files : sb.fileOf disk' = update (sb.fileOf disk) i (some f')) :
    sb.contents disk' = update (sb.contents disk) i (some f'.bytes) := by
  funext j
  rw [Superblock.contents, files]
  by_cases same : j = i
  · rw [same, update_self, update_self, map_some]
  · rw [update_of_ne same, update_of_ne same, Superblock.contents]

theorem Good.opened (good : Good sb st) (live : 0 < (st.itable ip).ref)
    (valid : (st.itable ip).valid = true) :
    Opened sb st ip (st.itable ip).inum ((st.itable ip).d.file st.disk) :=
  ⟨live, valid, rfl, fileOf_some (good.table.synced ip live valid)⟩

def threeBytes (k : Nat) : Option UInt8 := [1, 2, 3][k]?

def Access.leaves (sb : Superblock) (st : State) (access : Access) : State :=
  match (access.run sb).run st with
  | .ok (_, after) => after
  | .error _ => st

end Xv6.Fs

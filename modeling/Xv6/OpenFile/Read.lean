import Xv6.Console.Reads
import Xv6.Fs.Reclaim
import Xv6.Pipe.Fifo

/-!
`fileread` of `kernel/file.c` over its three back ends. A read from a pipe or from the
console is a call in a run of that model; a read from an inode is `readi` with a user
destination, to which the `int` count is handed as a `uint`. So a negative count is none for
a pipe and the console, and a large one for an inode, unless the offset is at the end or so
large that the sum wraps around.
-/

namespace Xv6.OpenFile

open Xv6.Fs Xv6.Lib Lib.Hoare List

/-- `struct file`, as far as `fileread` looks at it; the inode is a slot of the table. -/
inductive FileType where
  | none
  | pipe
  | inode (ip off : Nat)
  | device (major : Int)

structure KFile where
  readable : Bool
  type : FileType

def console : Int := 1

/-- Store the bytes from `pos` on; false when one of them cannot be stored. -/
def eitherCopyout (dst : Nat → Bool) : Nat → List UInt8 → List UInt8 × Bool
  | _, [] => ([], true)
  | pos, byte :: rest =>
    if dst pos then
      let stored := eitherCopyout dst (pos + 1) rest
      (byte :: stored.1, stored.2)
    else ([], false)

section Inode

variable (sb : Superblock)

/-- The loop of `readi` for a user destination: `tot`, or nothing for -1, and the bytes stored. -/
def readiUserFrom (ip : Nat) (dst : Nat → Bool) (n : Nat) : Nat → Nat → Nat → K (Option Nat × List UInt8)
  | 0, tot, _ => pure (some tot, [])
  | fuel + 1, tot, off =>
    if tot < n then do
      let addr ← bmap sb ip (off / bsize)
      if addr = 0 then return (some tot, [])
      else do
        let data ← bread addr
        let m := min (n - tot) (bsize - off % bsize)
        let copied := eitherCopyout dst tot ((List.range m).map fun k => data (off % bsize + k))
        if copied.2 then do
          let rest ← readiUserFrom ip dst n fuel (tot + m) (off + m)
          return (rest.1, copied.1 ++ rest.2)
        else return (none, copied.1)
    else return (some tot, [])

def readiUser (ip : Nat) (dst : Nat → Bool) (off n : Nat) : K (Option Nat × List UInt8) := do
  let node ← slot ip
  if off > node.d.size ∨ (off + n) % 2 ^ 32 < off then return (some 0, [])
  else
    let n := if off + n > node.d.size then node.d.size - off else n
    readiUserFrom sb ip dst n n 0 off

def asInt (value : Nat) : Int := (value : Int).bmod (2 ^ 32)

def readiValue : Option Nat → Int
  | none => -1
  | some tot => asInt tot

/-- The branch for `FD_INODE`: the return value, the bytes stored and the new offset. -/
def filereadInode (ip off : Nat) (dst : Nat → Bool) (n : Int) : K (Int × List UInt8 × Nat) := do
  ilock sb ip
  let result ← readiUser sb ip dst off (n % 2 ^ 32).toNat
  let r := readiValue result.1
  iunlock ip
  return (r, result.2, if 0 < r then (off + r.toNat) % 2 ^ 32 else off)

end Inode

/-- A call `fileread(f, addr, n)` that returns `value` and has stored `stored` at `addr`. -/
inductive Fileread (sb : Superblock) (st : State) (f : KFile) (n : Int) : Int → List UInt8 → Prop
  | unreadable : f.readable = false → Fileread sb st f n (-1) []
  | pipe {nproc : Nat} {initial world : Pipes.World} {record : Pipes.Return} : f.readable = true → f.type = .pipe →
      initial.Initial → Reaches (Pipes.step nproc) (fun _ _ => True) initial world → record ∈ world.returns →
      record.call.op = .read → record.call.n = n → Fileread sb st f n record.value record.call.moved
  | noDevice {major : Int} : f.readable = true → f.type = .device major →
      (major < 0 ∨ (ndev : Int) ≤ major ∨ major ≠ console) → Fileread sb st f n (-1) []
  | console {cons : Console.Cons} {world : Console.World Console.Cons} {ret : Console.Return} : f.readable = true →
      f.type = .device console → Reaches (Console.step Console.ring) (fun _ _ => True) (Console.boot cons) world →
      ret ∈ world.returns → ret.call.target = n → Fileread sb st f n ret.value ret.call.bytes
  | inode {ip off next : Nat} {dst : Nat → Bool} {value : Int} {stored : List UInt8} {after : State} :
      f.readable = true → f.type = .inode ip off →
      (filereadInode sb ip off dst n).run st = .ok ((value, stored, next), after) → Fileread sb st f n value stored

variable {sb : Superblock} {st : State} {ip : Nat}

theorem eitherCopyout_length (dst : Nat → Bool) (pos : Nat) (bytes : List UInt8) :
    (eitherCopyout dst pos bytes).1.length ≤ bytes.length := by
  induction bytes generalizing pos with
  | nil => exact le_rfl
  | cons byte rest ih =>
    rw [eitherCopyout]
    split
    · exact Nat.succ_le_succ (ih (pos + 1))
    · exact Nat.zero_le _

theorem eitherCopyout_all (pos : Nat) (bytes : List UInt8) : eitherCopyout (fun _ => true) pos bytes = (bytes, true) := by
  induction bytes generalizing pos with
  | nil => rfl
  | cons byte rest ih => rw [eitherCopyout, if_pos rfl, ih]

theorem readiUserFrom_most (dst : Nat → Bool) (n fuel tot off : Nat) (part : tot ≤ n) :
    Ends (readiUserFrom sb ip dst n fuel tot off) st (fun _ => True) fun result _ =>
      tot + result.2.length ≤ n ∧ ∀ count, result.1 = some count → count ≤ n := by
  have stays : tot + ([] : List UInt8).length ≤ n ∧ ∀ count, some tot = some count → count ≤ n :=
    ⟨part, fun count same => Option.some.inj same ▸ part⟩
  induction fuel generalizing st tot off with
  | zero => exact stays
  | succ fuel ih =>
    rw [readiUserFrom]
    split
    · next more =>
      refine ends_any.seq fun addr after _ => ?_
      split
      · exact stays
      rw [ends_bind, ends_bread]
      dsimp only
      generalize taken : min (n - tot) (bsize - off % bsize) = m
      have room : tot + m ≤ n := by omega
      have short := eitherCopyout_length dst tot ((List.range m).map fun k => after.disk addr (off % bsize + k))
      rw [length_map, length_range] at short
      split
      · refine (ih (tot + m) (off + m) room ⟨room, fun count same => Option.some.inj same ▸ room⟩).seq
          fun rest last facts => ?_
        rw [ends_pure, length_append]
        exact ⟨by omega, facts.2⟩
      · rw [ends_pure]
        refine ⟨by dsimp only; omega, nofun⟩
    · exact stays

theorem readiUserFrom_all (n fuel tot off : Nat) (part : tot ≤ n) :
    readiUserFrom sb ip (fun _ => true) n fuel tot off =
      (fun bytes => (some (tot + bytes.length), bytes)) <$> readiFrom sb ip fuel off (n - tot) := by
  induction fuel generalizing tot off with
  | zero => rfl
  | succ fuel ih =>
    rw [readiUserFrom, readiFrom]
    by_cases more : tot < n
    · rw [if_pos more, if_neg (by omega), map_bind]
      refine bind_congr fun addr => ?_
      by_cases missing : addr = 0
      · rw [if_pos missing, if_pos missing]
        rfl
      rw [if_neg missing, if_neg missing, map_bind]
      refine bind_congr fun data => ?_
      dsimp only
      rw [eitherCopyout_all, if_pos rfl, ih _ _ (by omega), Nat.sub_add_eq, map_bind, bind_map_left]
      refine bind_congr fun rest => ?_
      rw [map_pure, length_append, length_map, length_range, add_assoc]
    · rw [if_neg more, if_pos (by omega)]
      rfl

def wanted (size off n : Nat) : Nat :=
  if off > size ∨ (off + n) % 2 ^ 32 < off then 0 else min n (size - off)

theorem readiUser_most (dst : Nat → Bool) (off n : Nat) :
    Ends (readiUser sb ip dst off n) st (fun _ => True) fun result _ =>
      result.2.length ≤ wanted (st.itable ip).d.size off n ∧
        ∀ count, result.1 = some count → count ≤ wanted (st.itable ip).d.size off n := by
  rw [readiUser, ends_bind, ends_slot]
  split
  · next out =>
    rw [wanted, if_pos out]
    exact ⟨le_rfl, fun count same => Option.some.inj same ▸ le_rfl⟩
  next inside =>
  have goal : (if off + n > (st.itable ip).d.size then (st.itable ip).d.size - off else n) =
      wanted (st.itable ip).d.size off n := by
    rw [wanted, if_neg inside]
    split <;> omega
  dsimp only
  rw [goal]
  refine (readiUserFrom_most dst _ _ 0 off (Nat.zero_le _)).mono fun result _ facts => ?_
  rwa [zero_add] at facts

theorem readiUser_all {off n : Nat} (good : Good sb st) (live : 0 < (st.itable ip).ref) (valid : (st.itable ip).valid = true) :
    Ends (readiUser sb ip (fun _ => true) off n) st (fun _ => False) fun result after =>
      after = st ∧ result.1 = some result.2.length ∧ result.2.length = wanted (st.itable ip).d.size off n := by
  have synced := good.table.synced ip live valid
  have sized := good.sound.sized _ _ synced
  rw [readiUser, ends_bind, ends_slot]
  split
  · next out =>
    rw [wanted, if_pos out]
    exact ⟨rfl, rfl, rfl⟩
  next inside =>
  have goal : (if off + n > (st.itable ip).d.size then (st.itable ip).d.size - off else n) =
      wanted (st.itable ip).d.size off n := by
    rw [wanted, if_neg inside]
    split <;> omega
  have below : off + wanted (st.itable ip).d.size off n ≤ (st.itable ip).d.size := by
    rw [wanted, if_neg inside]
    omega
  dsimp only
  rw [goal]
  generalize wanted (st.itable ip).d.size off n = m at below ⊢
  rw [readiUserFrom_all _ _ _ _ (Nat.zero_le _), ends_map, readiFrom_eq, Nat.sub_zero]
  refine (readiFromWith_ends m off m le_rfl (below.trans sized) fun p _ later =>
    good.sound.filled_byte synced (later.trans_le below)).mono fun bytes after facts => ?_
  obtain ⟨rfl, rfl⟩ := facts
  exact ⟨rfl, by rw [zero_add], by rw [length_map, length_range]⟩

theorem asInt_le (count : Nat) : asInt count ≤ count := by
  unfold asInt Int.bmod
  dsimp only
  split <;> omega

theorem readiValue_le {result : Option Nat} {most : Nat} (counted : ∀ count, result = some count → count ≤ most) :
    readiValue result ≤ most := by
  cases result with
  | none =>
    change (-1 : Int) ≤ most
    omega
  | some count =>
    exact Int.le_trans (asInt_le count) (Int.ofNat_le.mpr (counted count rfl))

section Call

variable (off : Nat) (n : Int) (live : 0 < (st.itable ip).ref) (valid : (st.itable ip).valid = true)
  (unlocked : (st.itable ip).locked = false)
include live valid unlocked

theorem filereadInode_most (dst : Nat → Bool) :
    Ends (filereadInode sb ip off dst n) st (fun _ => True) fun result _ =>
      result.1 ≤ wanted (st.itable ip).d.size off (n % 2 ^ 32).toNat ∧
        result.2.1.length ≤ wanted (st.itable ip).d.size off (n % 2 ^ 32).toNat := by
  rw [filereadInode]
  refine (ilock_valid live valid unlocked).seq fun _ held same => ?_
  subst same
  refine (readiUser_most dst off _).seq fun result after facts => ?_
  rw [put_itable, Function.update_self] at facts
  dsimp only
  refine ends_any.seq fun _ last _ => ?_
  exact ⟨readiValue_le facts.2, facts.1⟩

theorem filereadInode_all (good : Good sb st) : ∃ value stored next after,
    (filereadInode sb ip off (fun _ => true) n).run st = .ok ((value, stored, next), after) ∧
      value = asInt stored.length ∧ stored.length = wanted (st.itable ip).d.size off (n % 2 ^ 32).toNat := by
  have ends : Ends (filereadInode sb ip off (fun _ => true) n) st (fun _ => False) fun result _ =>
      result.1 = asInt result.2.1.length ∧
        result.2.1.length = wanted (st.itable ip).d.size off (n % 2 ^ 32).toNat := by
    rw [filereadInode]
    refine (ilock_valid live valid unlocked).seq fun _ held same => ?_
    have here : held.itable ip = { st.itable ip with locked := true } := by rw [same, put_itable, Function.update_self]
    have locked : Good sb held := same ▸ good.put live rfl rfl rfl
    refine (readiUser_all locked (here ▸ live) (here ▸ valid)).seq fun result after facts => ?_
    obtain ⟨rfl, count, length⟩ := facts
    rw [here] at length
    dsimp only
    rw [ends_bind, iunlock, ends_bind, ends_slot, here, if_neg (by simp; omega), ends_setSlot, ends_pure]
    refine ⟨?_, length⟩
    simp only [count, readiValue]
  obtain ⟨⟨value, stored, next⟩, after, ran, facts⟩ := ends.gives
  exact ⟨value, stored, next, after, ran, facts⟩

end Call

/-- No more than `n` is returned or stored, and nothing for a negative `n`. -/
def Within (n value : Int) (stored : List UInt8) : Prop := value ≤ max n 0 ∧ (stored.length : Int) ≤ max n 0

def Sparing (size off : Nat) (n : Int) : Prop := 0 ≤ n ∨ size ≤ off ∨ -n ≤ off

theorem wanted_le {size off : Nat} {n : Int} (low : -2 ^ 31 ≤ n) (high : n < 2 ^ 31) (narrow : off < 2 ^ 32)
    (sparing : Sparing size off n) : (wanted size off (n % 2 ^ 32).toNat : Int) ≤ max n 0 := by
  rw [wanted]
  rw [Sparing] at sparing
  split <;> omega

theorem wanted_pos {size off : Nat} {n : Int} (low : -2 ^ 31 ≤ n) (high : n < 2 ^ 31)
    (wasteful : ¬ Sparing size off n) : max n 0 < (wanted size off (n % 2 ^ 32).toNat : Int) := by
  rw [Sparing] at wasteful
  rw [wanted, if_neg (by omega)]
  omega

/-- A call of any kind keeps to its count, except for a negative count on an inode that has bytes
behind the offset. -/
theorem fileread_within_iff (sb : Superblock) (st : State) (good : Good sb st) (f : KFile) (n : Int) (low : -2 ^ 31 ≤ n)
    (high : n < 2 ^ 31) (ready : ∀ ip off, f.type = .inode ip off →
      off < 2 ^ 32 ∧ 0 < (st.itable ip).ref ∧ (st.itable ip).valid = true ∧ (st.itable ip).locked = false) :
    (∀ value stored, Fileread sb st f n value stored → Within n value stored) ↔
      (f.readable = true → ∀ ip off, f.type = .inode ip off → Sparing (st.itable ip).d.size off n) := by
  constructor
  · intro bounded readable ip off type
    obtain ⟨_, live, valid, unlocked⟩ := ready ip off type
    obtain ⟨value, stored, next, after, ran, _, length⟩ := filereadInode_all off n live valid unlocked good
    by_contra wasteful
    have many := wanted_pos low high wasteful
    have few := (bounded value stored (.inode readable type ran)).2
    omega
  · intro sparing value stored call
    cases call with
    | unreadable | noDevice => exact ⟨by omega, Int.le_max_right n 0⟩
    | pipe _ _ start reached member _ count =>
      obtain ⟨within, most⟩ := (Pipes.pipe_limited start reached).returned _ member
      exact ⟨count ▸ most, count ▸ within.moved⟩
    | console _ _ reached member count =>
      obtain ⟨counted, most⟩ := (Console.console_counts reached).returned _ member
      exact ⟨count ▸ most, count ▸ counted.bytes_le⟩
    | @inode ip off next dst _ _ after readable type ran =>
      obtain ⟨narrow, live, valid, unlocked⟩ := ready ip off type
      have most := (filereadInode_most off n live valid unlocked dst).of_run ran
      have bound := wanted_le low high narrow (sparing readable ip off type)
      exact ⟨Int.le_trans most.1 bound, Int.le_trans (Int.ofNat_le.mpr most.2) bound⟩

def threeBytesAt (off : Nat) : KFile := ⟨true, .inode 1 off⟩

theorem fileread_within_iff_three :
    (∀ value stored, Fileread tiny fileUnlocked (threeBytesAt 2) (-2) value stored → Within (-2) value stored) ∧
      ¬ ∀ value stored, Fileread tiny fileUnlocked (threeBytesAt 2) (-3) value stored → Within (-3) value stored := by
  obtain ⟨_, _, live, valid, unlocked, size⟩ := fileUnlocked_facts
  have ready : ∀ ip off, (threeBytesAt 2).type = .inode ip off → off < 2 ^ 32 ∧ 0 < (fileUnlocked.itable ip).ref ∧
      (fileUnlocked.itable ip).valid = true ∧ (fileUnlocked.itable ip).locked = false := by
    rintro ip off ⟨⟩
    exact ⟨by decide, live, valid, unlocked⟩
  refine ⟨(fileread_within_iff tiny fileUnlocked fileUnlocked_good (threeBytesAt 2) (-2) (by decide) (by decide) ready).mpr ?_,
    fun bounded => ?_⟩
  · rintro _ ip off ⟨⟩
    exact .inr (.inr (by decide))
  have sparing := (fileread_within_iff tiny fileUnlocked fileUnlocked_good (threeBytesAt 2) (-3) (by decide) (by decide)
    ready).mp bounded rfl 1 2 rfl
  rw [size] at sparing
  exact absurd sparing (by unfold Sparing; decide)

theorem fileread_negative_stores : ∃ stored, Fileread tiny fileUnlocked (threeBytesAt 0) (-1) 3 stored ∧
    stored.length = 3 := by
  obtain ⟨_, _, live, valid, unlocked, size⟩ := fileUnlocked_facts
  obtain ⟨value, stored, next, after, ran, count, length⟩ := filereadInode_all 0 (-1) live valid unlocked fileUnlocked_good
  rw [size] at length
  have three : stored.length = 3 := length
  have value : value = 3 := by
    rw [count, three]
    decide
  exact ⟨stored, value ▸ .inode rfl rfl ran, three⟩

end Xv6.OpenFile

import Xv6.Fs.Dir
import Xv6.Fs.Files

/-!
Reading and writing file contents. A `readi` of a file without holes changes nothing,
whatever allocator `bmap` would call. A `writei` puts the first bytes of the source over the
file; when it stops early the inode is still written back with the size it reached, so that
no hole is left.
-/

namespace Xv6.Fs

open Function List State Dinode
open Lib.Bytes Lib.Hoare

variable {sb : Superblock} {st : State} {stop : Stop → Prop} {ip : Nat}

section Reading

/-- `bmapEntry` with any allocator in the place of `balloc`. -/
def bmapEntryWith (alloc : K Nat) (ind bn : Nat) : K Nat := do
  let data ← bread ind
  let addr := load data (4 * bn) 4
  if addr = 0 then do
    let addr ← alloc
    if addr = 0 then return 0
    else do
      logWrite ind (store data (4 * bn) addr 4)
      return addr
  else return addr

def bmapWith (alloc : K Nat) (ip bn : Nat) : K Nat := do
  let node ← slot ip
  if direct : bn < ndirect then do
    let k : Fin (ndirect + 1) := ⟨bn, Nat.lt_succ_of_lt direct⟩
    if node.d.addrs k = 0 then do
      let addr ← alloc
      if addr = 0 then return 0
      else do
        setAddr ip k addr
        return addr
    else return node.d.addrs k
  else if bn - ndirect < nindirect then do
    let k : Fin (ndirect + 1) := Fin.last ndirect
    if node.d.addrs k = 0 then do
      let addr ← alloc
      if addr = 0 then return 0
      else do
        setAddr ip k addr
        bmapEntryWith alloc addr (bn - ndirect)
    else bmapEntryWith alloc (node.d.addrs k) (bn - ndirect)
  else throw (.panic .bmapOutOfRange)

def readiFromWith (alloc : K Nat) (ip : Nat) : Nat → Nat → Nat → K (List UInt8)
  | 0, _, _ => pure []
  | fuel + 1, off, n =>
    if n = 0 then pure []
    else do
      let addr ← bmapWith alloc ip (off / bsize)
      if addr = 0 then pure []
      else do
        let data ← bread addr
        let m := min n (bsize - off % bsize)
        let rest ← readiFromWith alloc ip fuel (off + m) (n - m)
        return (List.range m).map (fun k => data (off % bsize + k)) ++ rest

/-- `readi` with any allocator in the place of `balloc`. -/
def readiWith (alloc : K Nat) (ip off n : Nat) : K (List UInt8) := do
  let node ← slot ip
  if off > node.d.size ∨ (off + n) % 2 ^ 32 < off then return []
  else readiFromWith alloc ip n off (if off + n > node.d.size then node.d.size - off else n)

theorem bmap_eq (ip bn : Nat) : bmap sb ip bn = bmapWith (balloc sb) ip bn := rfl

theorem readiFrom_eq (fuel off n : Nat) :
    readiFrom sb ip fuel off n = readiFromWith (balloc sb) ip fuel off n := by
  induction fuel generalizing off n with
  | zero => rfl
  | succ fuel ih => simp only [readiFrom, readiFromWith, ih, bmap_eq]

theorem readi_eq (off n : Nat) : readi sb ip off n = readiWith (balloc sb) ip off n := by
  simp only [readi, readiWith, readiFrom_eq]

variable {alloc : K Nat}

theorem bmapWith_found {bn : Nat} (bound : bn < maxFile)
    (filled : (st.itable ip).d.ref st.disk (placeOf bn) ≠ 0) :
    Ends (bmapWith alloc ip bn) st stop fun addr after =>
      addr = (st.itable ip).d.ref st.disk (placeOf bn) ∧ after = st := by
  simp only [bmapWith, ends_bind, ends_slot]
  split
  · next direct =>
    rw [placeOf_direct direct] at filled ⊢
    split
    · next none => exact absurd none filled
    · exact ⟨rfl, rfl⟩
  next large =>
  have small : bn - ndirect < nindirect := by
    simp only [maxFile] at bound
    omega
  rw [placeOf_entry large small] at filled ⊢
  have some : (st.itable ip).d.ind ≠ 0 := fun none => filled (if_pos none)
  have value : (st.itable ip).d.ref st.disk (.entry ⟨bn - ndirect, small⟩) =
      load (st.disk (st.itable ip).d.ind) (4 * (bn - ndirect)) 4 := if_neg some
  have same : (st.itable ip).d.addrs (Fin.last ndirect) = (st.itable ip).d.ind := rfl
  rw [if_pos small, same, if_neg some]
  simp only [bmapEntryWith, ends_bind, ends_bread]
  rw [value] at filled
  rw [if_neg filled, ends_pure]
  exact ⟨value.symm, rfl⟩

theorem readiFromWith_ends (fuel off n : Nat) (enough : n ≤ fuel) (room : off + n ≤ maxFile * bsize)
    (filled : ∀ p, off ≤ p → p < off + n → (st.itable ip).d.ref st.disk (placeOf (p / bsize)) ≠ 0) :
    Ends (readiFromWith alloc ip fuel off n) st stop fun bytes after =>
      bytes = (List.range n).map (fun k => (st.itable ip).d.byte st.disk (off + k)) ∧ after = st := by
  induction fuel generalizing off n with
  | zero =>
    obtain rfl : n = 0 := by omega
    exact ⟨rfl, rfl⟩
  | succ fuel ih =>
    rw [readiFromWith]
    split
    · next none =>
      subst none
      exact ⟨rfl, rfl⟩
    next some =>
    have here := filled off le_rfl (by omega)
    have bound : off / bsize < maxFile := by
      simp only [bsize] at room ⊢
      omega
    refine (bmapWith_found bound here).seq fun addr after facts => ?_
    obtain ⟨rfl, rfl⟩ := facts
    rw [if_neg here]
    simp only [ends_bind, ends_bread, ends_pure]
    generalize taken : min n (bsize - off % bsize) = m
    have part : m ≤ n ∧ off % bsize + m ≤ bsize ∧ 0 < m := by
      simp only [bsize] at taken ⊢
      omega
    refine (ih (off + m) (n - m) (by omega) (by omega) fun p low high =>
      filled p (by omega) (by omega)).mono fun rest last facts => ?_
    obtain ⟨rfl, rfl⟩ := facts
    refine ⟨?_, rfl⟩
    have split : List.range n = List.range m ++ (List.range (n - m)).map (m + ·) := by
      rw [← range_add]
      congr 1
      omega
    rw [split, map_append, map_map]
    congr 1
    · refine map_congr_left fun k inside => ?_
      have low : k < m := mem_range.mp inside
      have block : (off + k) / bsize = off / bsize := by
        simp only [bsize] at part ⊢
        omega
      have offset : (off + k) % bsize = off % bsize + k := by
        simp only [bsize] at part ⊢
        omega
      rw [Dinode.byte, block, offset]
    · refine map_congr_left fun k _ => ?_
      simp only [comp, add_assoc]

end Reading

def Synced (sb : Superblock) (st : State) (ip : Nat) : Prop :=
  sb.nodeOf st.disk (st.itable ip).inum = some (st.itable ip).d

def File.slice (f : File) (off n : Nat) : List UInt8 :=
  (List.range (min (off + n) f.size - off)).map fun k => f.data (off + k)

def File.outside (f : File) (off n : Nat) : Prop := off > f.size ∨ (off + n) % 2 ^ 32 < off

theorem readiWith_filled {alloc : K Nat} (sized : (st.itable ip).d.size ≤ maxFile * bsize)
    (filled : ∀ q < (st.itable ip).d.size, (st.itable ip).d.ref st.disk (placeOf (q / bsize)) ≠ 0)
    {f : File} (file : (st.itable ip).d.file st.disk = f) (off n : Nat) :
    Ends (readiWith alloc ip off n) st stop fun bytes after =>
      after = st ∧ (f.outside off n → bytes = []) ∧ (¬ f.outside off n → bytes = f.slice off n) := by
  subst file
  simp only [readiWith, ends_bind, ends_slot]
  split
  · next out => exact ⟨rfl, fun _ => rfl, fun inside => absurd out inside⟩
  next inside =>
  generalize count : (if off + n > (st.itable ip).d.size then (st.itable ip).d.size - off else n) = m
  have part : m = min (off + n) (st.itable ip).d.size - off ∧ m ≤ n ∧
      off + m ≤ (st.itable ip).d.size := by
    split at count <;> omega
  refine (readiFromWith_ends n off m part.2.1 (by omega) fun p low high =>
    filled p (by omega)).mono fun bytes after facts => ?_
  obtain ⟨bytesEq, same⟩ := facts
  refine ⟨same, fun out => absurd out inside, fun _ => bytesEq.trans ?_⟩
  rw [File.slice, part.1]
  refine map_congr_left fun k inside => ?_
  have low : k < m := part.1 ▸ mem_range.mp inside
  exact (if_pos (show off + k < (st.itable ip).d.size by omega)).symm

theorem readiWith_ends {alloc : K Nat} (sound : sb.Sound (sb.nodeOf st.disk) st.disk)
    (synced : Synced sb st ip) {f : File} (file : (st.itable ip).d.file st.disk = f) (off n : Nat) :
    Ends (readiWith alloc ip off n) st stop fun bytes after =>
      after = st ∧ (f.outside off n → bytes = []) ∧ (¬ f.outside off n → bytes = f.slice off n) :=
  readiWith_filled (sound.sized _ _ synced) (fun _ low => sound.filled_byte synced low) file off n

theorem readi_ends (sound : sb.Sound (sb.nodeOf st.disk) st.disk) (synced : Synced sb st ip)
    {f : File} (file : (st.itable ip).d.file st.disk = f) (off n : Nat) :
    Ends (readi sb ip off n) st stop fun bytes after =>
      after = st ∧ (f.outside off n → bytes = []) ∧ (¬ f.outside off n → bytes = f.slice off n) := by
  rw [readi_eq]
  exact readiWith_ends sound synced file off n

section Copying

variable {src : Nat → Option UInt8}

theorem eitherCopyin_byte (m : Nat) (data : Block) (dst pos x : Nat) :
    (eitherCopyin src m data dst pos).1 x = data x ∨
      (dst ≤ x ∧ x < dst + m ∧
        src (pos + (x - dst)) = some ((eitherCopyin src m data dst pos).1 x)) := by
  induction m generalizing data dst pos with
  | zero => exact .inl rfl
  | succ m ih =>
    rw [eitherCopyin]
    cases read : src pos with
    | none => exact .inl rfl
    | some byte =>
      dsimp only
      rcases ih (update data dst byte) (dst + 1) (pos + 1) with same | ⟨low, high, copied⟩
      · obtain rfl | here := eq_or_ne x dst
        · refine .inr ⟨le_rfl, by omega, ?_⟩
          rw [same, update_self, Nat.sub_self, add_zero, read]
        · rw [same, update_of_ne here]
          exact .inl rfl
      refine .inr ⟨by omega, by omega, ?_⟩
      rw [← copied]
      congr 1
      omega

theorem eitherCopyin_whole (m : Nat) (data : Block) (dst pos : Nat)
    (whole : (eitherCopyin src m data dst pos).2 = true) {k : Nat} (bound : k < m) :
    src (pos + k) = some ((eitherCopyin src m data dst pos).1 (dst + k)) := by
  induction m generalizing data dst pos k with
  | zero => omega
  | succ m ih =>
    rw [eitherCopyin] at whole ⊢
    cases read : src pos with
    | none =>
      rw [read] at whole
      exact absurd whole (by simp)
    | some byte =>
      rw [read] at whole
      dsimp only at whole ⊢
      cases k with
      | zero =>
        have first : (eitherCopyin src m (update data dst byte) (dst + 1) (pos + 1)).1
            dst = byte := by
          rcases eitherCopyin_byte m (update data dst byte) (dst + 1) (pos + 1) dst
            with same | ⟨low, _⟩
          · rw [same, update_self]
          · omega
        simp only [add_zero, read, first]
      | succ k =>
        have later := ih _ _ _ whole (show k < m by omega)
        rw [show pos + (k + 1) = pos + 1 + k by omega, later,
          show dst + (k + 1) = dst + 1 + k by omega]

theorem eitherCopyin_fault (m : Nat) (data : Block) (dst pos : Nat)
    (fault : (eitherCopyin src m data dst pos).2 = false) : ∃ k < m, src (pos + k) = none := by
  induction m generalizing data dst pos with
  | zero => exact absurd fault (by simp [eitherCopyin])
  | succ m ih =>
    rw [eitherCopyin] at fault
    cases read : src pos with
    | none => exact ⟨0, by omega, read⟩
    | some byte =>
      rw [read] at fault
      obtain ⟨k, low, none⟩ := ih _ _ _ fault
      exact ⟨k + 1, by omega, by rw [← none]; congr 1; omega⟩

end Copying

section Overwrite

variable {nodes : Nodes} {disk : Disk} {i : Nat} {d : Dinode} {place : Place} {block : Block}
variable (sound : sb.Sound nodes disk) (found : nodes i = some d) (filled : d.ref disk place ≠ 0)
include sound found filled

theorem Superblock.Sound.data_place : sb.dataStart ≤ d.ref disk place := by
  have range := sound.owned.range (i, place) (by rwa [refs_some found])
  rw [refs_some found] at range
  exact range.1

theorem Superblock.Sound.apart {site : Nat × Place} (other : site ≠ (i, place)) (some : refs nodes disk site ≠ 0) :
    refs nodes disk site ≠ d.ref disk place := by
  intro equal
  exact other (sound.owned.distinct site (i, place) some (by rw [refs_some found, equal]))

variable (notInd : place ≠ .indirect)
include notInd

theorem Superblock.Sound.ref_overwrite {j : Nat} {e : Dinode} (there : nodes j = some e) (q : Place) :
    e.ref (update disk (d.ref disk place) block) q = e.ref disk q := by
  refine e.ref_congr (fun some => ?_) q
  have ind : refs nodes disk (j, .indirect) = e.ind := refs_some there _
  have different := sound.apart found filled
    (fun same : (j, Place.indirect) = (i, place) => notInd (Prod.mk.inj same).2.symm) (by rwa [ind])
  rw [ind] at different
  exact update_of_ne different _ _

theorem Superblock.Sound.overwrite :
    sb.Sound nodes (update disk (d.ref disk place) block) := by
  have same : refs nodes (update disk (d.ref disk place) block) = refs nodes disk := by
    funext ⟨j, q⟩
    simp only [refs]
    cases there : nodes j with
    | none => rfl
    | some e => exact sound.ref_overwrite found filled notInd there q
  refine ⟨sound.owned.congr (fun site => by rw [same]) fun c bound => ?_, fun j e there bn low => ?_,
    sound.sized⟩
  · exact Superblock.bitOf_data (sound.data_place found filled) bound
  · rw [sound.ref_overwrite found filled notInd there]
    exact sound.filled j e there bn low

theorem Superblock.Sound.byte_overwrite {j : Nat} {e : Dinode} (there : nodes j = some e) {p : Nat}
    (some : e.ref disk (placeOf (p / bsize)) ≠ 0) (other : (j, placeOf (p / bsize)) ≠ (i, place)) :
    e.byte (update disk (d.ref disk place) block) p = e.byte disk p := by
  have value : refs nodes disk (j, placeOf (p / bsize)) = e.ref disk (placeOf (p / bsize)) :=
    refs_some there _
  have different := sound.apart found filled other (by rwa [value])
  rw [value] at different
  rw [Dinode.byte, Dinode.byte, sound.ref_overwrite found filled notInd there,
    update_of_ne different]

end Overwrite

structure Grown (sb : Superblock) (st : State) (ip : Nat) (may : Nat → UInt8 → Prop) (after : State) :
    Prop where
  table : ∃ addrs, after.itable = st.withAddrs ip addrs
  nodes : sb.nodeOf after.disk = sb.nodeOf st.disk
  sound : sb.Sound (Working sb after ip) after.disk
  others : ∀ j e, j ≠ (st.itable ip).inum → sb.nodeOf st.disk j = some e →
    e.file after.disk = e.file st.disk
  kept : ∀ p < maxFile * bsize, (st.itable ip).d.ref st.disk (placeOf (p / bsize)) ≠ 0 →
    (after.itable ip).d.ref after.disk (placeOf (p / bsize)) ≠ 0 ∧
      ((after.itable ip).d.byte after.disk p = (st.itable ip).d.byte st.disk p ∨
        may p ((after.itable ip).d.byte after.disk p))

section Growing

variable {may : Nat → UInt8 → Prop} {middle after : State}

theorem withAddrs_inum {addrs : Fin (ndirect + 1) → Nat} (table : after.itable = st.withAddrs ip addrs) :
    (after.itable ip).inum = (st.itable ip).inum := by
  rw [table, withAddrs, update_self]
  rfl

theorem working_other {j : Nat} (other : j ≠ (st.itable ip).inum) :
    Working sb st ip j = sb.nodeOf st.disk j := update_of_ne other ..

theorem Grown.refl (sound : sb.Sound (Working sb st ip) st.disk) : Grown sb st ip may st where
  table := ⟨_, withAddrs_self.symm⟩
  nodes := rfl
  sound := sound
  others _ _ _ _ := rfl
  kept _ _ some := ⟨some, .inl rfl⟩

theorem Grown.trans {may' : Nat → UInt8 → Prop} (first : Grown sb st ip may middle)
    (second : Grown sb middle ip may' after) :
    Grown sb st ip (fun p byte => may p byte ∨ may' p byte) after := by
  obtain ⟨addrs, table⟩ := first.table
  obtain ⟨addrs', table'⟩ := second.table
  have inum := withAddrs_inum table
  refine ⟨⟨addrs', ?_⟩, second.nodes.trans first.nodes, second.sound, fun j e other found => ?_,
    fun p bound some => ?_⟩
  · rw [table', withAddrs, withAddrs, table, withAddrs, update_self,
      update_idem]
    rfl
  · rw [second.others j e (by rwa [inum]) (by rwa [first.nodes]), first.others j e other found]
  · obtain ⟨some', byte⟩ := first.kept p bound some
    obtain ⟨some'', byte'⟩ := second.kept p bound some'
    refine ⟨some'', ?_⟩
    rcases byte' with same | new
    · rw [same]
      exact byte.imp_right .inl
    · exact .inr (.inr new)

theorem Grown.mono {may' : Nat → UInt8 → Prop} (grown : Grown sb st ip may after)
    (implies : ∀ p byte, may p byte → may' p byte) : Grown sb st ip may' after :=
  { grown with
    kept := fun p bound some => by
      obtain ⟨some', byte⟩ := grown.kept p bound some
      exact ⟨some', byte.imp_right (implies p _)⟩ }

theorem Mapped.grown {bn addr : Nat} (mapped : Mapped sb st ip bn addr after)
    (sound : sb.Sound (Working sb st ip) st.disk) : Grown sb st ip (fun _ _ => False) after := by
  obtain ⟨addrs, table⟩ := mapped.table
  have inum := withAddrs_inum table
  have mine : Working sb after ip (st.itable ip).inum = some (after.itable ip).d := by
    rw [← inum]
    exact working_self
  refine ⟨⟨addrs, table⟩, mapped.nodes, mapped.sound, fun j e other found => ?_, fun p _ some => ?_⟩
  · have before : Working sb st ip j = Option.some e := by rwa [working_other other]
    have now : Working sb after ip j = Option.some e := by
      rwa [working_other (by rwa [inum]), mapped.nodes]
    exact sound.file_keeps mapped.keeps before now
  have kept := mapped.keeps _ (placeOf (p / bsize)) (placeOf_ne_indirect _)
    (by rwa [refs_some working_self])
  rw [refs_some working_self, refs_some mine] at kept
  exact ⟨by rwa [kept.1], .inl (mapped.keeps.byte working_self mine some)⟩

theorem Grown.overwrite {bn : Nat} {block : Block} (bound : bn < maxFile)
    (sound : sb.Sound (Working sb st ip) st.disk)
    (filled : (st.itable ip).d.ref st.disk (placeOf bn) ≠ 0) {logged : List Nat} :
    Grown sb st ip (fun p byte => p / bsize = bn ∧ byte = block (p % bsize))
      { st with disk := update st.disk ((st.itable ip).d.ref st.disk (placeOf bn)) block,
                logged := logged } := by
  have notInd := placeOf_ne_indirect bn
  have nodes : sb.nodeOf (update st.disk ((st.itable ip).d.ref st.disk (placeOf bn)) block) =
      sb.nodeOf st.disk := Superblock.nodeOf_data (sound.data_place working_self filled)
  have working : ∀ logged, Working sb ⟨update st.disk
      ((st.itable ip).d.ref st.disk (placeOf bn)) block, st.itable, logged⟩ ip = Working sb st ip := by
    intro logged
    simp only [Working, nodes]
  refine ⟨⟨_, withAddrs_self.symm⟩, nodes, ?_, fun j e other found => ?_, fun p small some => ?_⟩
  · rw [working]
    exact sound.overwrite working_self filled notInd
  · have there : Working sb st ip j = Option.some e := by rwa [working_other other]
    refine file_congr fun off below => ?_
    exact sound.byte_overwrite working_self filled notInd there (sound.filled_byte there below)
      fun same => other (Prod.mk.inj same).1
  · have ref : (st.itable ip).d.ref (update st.disk
        ((st.itable ip).d.ref st.disk (placeOf bn)) block) (placeOf (p / bsize)) =
        (st.itable ip).d.ref st.disk (placeOf (p / bsize)) :=
      sound.ref_overwrite working_self filled notInd working_self _
    refine ⟨by rwa [ref], ?_⟩
    by_cases here : p / bsize = bn
    · refine .inr ⟨here, ?_⟩
      rw [Dinode.byte, ref, here]
      exact congrFun (update_self ..) _
    refine .inl (sound.byte_overwrite working_self filled notInd working_self some fun same => here ?_)
    refine placeOf_inj ?_ bound (Prod.mk.inj same).2
    simp only [bsize] at small ⊢
    omega

end Growing

/-- The loop of `writei` stopped at `done`, before the end, at a block that is there: a byte
of the source could not be read. -/
def Faulted (st : State) (ip n : Nat) (done : Nat × Nat) : Prop :=
  done.1 < n ∧ (st.itable ip).d.ref st.disk (placeOf (done.2 / bsize)) ≠ 0

structure Written (sb : Superblock) (st : State) (ip : Nat) (src : Nat → Option UInt8)
    (n tot off : Nat) (done : Nat × Nat) (after : State) : Prop where
  count : tot ≤ done.1 ∧ done.1 ≤ n ∧ done.2 = off + (done.1 - tot)
  grown : Grown sb st ip (fun p byte => off ≤ p ∧ p < off + (n - tot) ∧
    src (tot + (p - off)) = some byte ∧ (p < done.2 ∨ Faulted after ip n done)) after
  new : ∀ p, off ≤ p → p < done.2 →
    (after.itable ip).d.ref after.disk (placeOf (p / bsize)) ≠ 0 ∧
      src (tot + (p - off)) = some ((after.itable ip).d.byte after.disk p)
  faults : Faulted after ip n done → ∃ k < n, src k = none
  stops : done.1 < n → Faulted after ip n done ∨ done.1 = tot ∨ done.2 % bsize = 0

section Loop

variable {src : Nat → Option UInt8} {n tot off : Nat}

theorem Written.rest {middle : State} (count : tot ≤ n)
    (grown : Grown sb st ip (fun p byte => off ≤ p ∧ p < off + (n - tot) ∧
      src (tot + (p - off)) = some byte ∧ Faulted middle ip n (tot, off)) middle)
    (faults : Faulted middle ip n (tot, off) → ∃ k < n, src k = none) :
    Written sb st ip src n tot off (tot, off) middle where
  count := ⟨le_rfl, count, by simp⟩
  grown := grown.mono fun _ _ ⟨low, high, copied, fault⟩ => ⟨low, high, copied, .inr fault⟩
  new p low high := absurd low (not_le.mpr high)
  faults := faults
  stops _ := .inr (.inl rfl)

theorem Written.step {middle after : State} {done : Nat × Nat} {m : Nat} (part : tot + m ≤ n)
    (grown : Grown sb st ip (fun p byte => off ≤ p ∧ p < off + m ∧ src (tot + (p - off)) = some byte) middle)
    (new : ∀ p, off ≤ p → p < off + m → (middle.itable ip).d.ref middle.disk (placeOf (p / bsize)) ≠ 0 ∧
      src (tot + (p - off)) = some ((middle.itable ip).d.byte middle.disk p))
    (room : off + (n - tot) ≤ maxFile * bsize) (ends : tot + m = n ∨ (off + m) % bsize = 0)
    (written : Written sb middle ip src n (tot + m) (off + m) done after) :
    Written sb st ip src n tot off done after := by
  obtain ⟨low, high, last⟩ := written.count
  have shift : ∀ p, off + m ≤ p → tot + m + (p - (off + m)) = tot + (p - off) := by
    intro p above
    omega
  refine ⟨⟨by omega, high, by omega⟩, (grown.trans written.grown).mono fun p byte allowed => ?_,
    fun p above below => ?_, written.faults, fun short => ?_⟩
  · rcases allowed with ⟨above, below, copied⟩ | ⟨above, below, copied, when⟩
    · exact ⟨above, by omega, copied, .inl (by omega)⟩
    · rw [shift p above] at copied
      exact ⟨by omega, by omega, copied, when⟩
  · by_cases later : off + m ≤ p
    · obtain ⟨some, copied⟩ := written.new p later below
      rw [shift p later] at copied
      exact ⟨some, copied⟩
    -- the rest of the loop does not come back to this block
    obtain ⟨some, copied⟩ := new p above (by omega)
    obtain ⟨some', byte⟩ := written.grown.kept p (by omega) some
    rcases byte with same | ⟨again, _⟩
    · exact ⟨some', by rw [same, copied]⟩
    · omega
  · rcases written.stops short with fault | none | aligned
    · exact .inl fault
    · refine .inr (.inr ?_)
      rcases ends with all | aligned
      · omega
      · rwa [show done.2 = off + m by omega]
    · exact .inr (.inr aligned)

theorem Mapped.copied {middle : State} {addr m : Nat} (logged : List Nat)
    (sound : sb.Sound (Working sb st ip) st.disk) (bound : off / bsize < maxFile)
    (mapped : Mapped sb st ip (off / bsize) addr middle) (nonzero : addr ≠ 0)
    (part : off % bsize + m ≤ bsize) {block : Block}
    (copied : block = (eitherCopyin src m (middle.disk addr) (off % bsize) tot).1) :
    Grown sb st ip (fun p byte => off ≤ p ∧ p < off + m ∧ src (tot + (p - off)) = some byte)
      { middle with disk := update middle.disk addr block, logged := logged } := by
  have filled : (middle.itable ip).d.ref middle.disk (placeOf (off / bsize)) ≠ 0 := by
    rwa [← mapped.value]
  have grown := mapped.grown sound
  refine ⟨grown.table, ?_, ?_, fun j e other found => ?_, fun p small some => ?_⟩
  all_goals
    have placed : Grown sb middle ip _ { middle with
        disk := update middle.disk addr block, logged := logged } :=
      mapped.value ▸ Grown.overwrite bound mapped.sound filled
  · exact placed.nodes.trans mapped.nodes
  · exact placed.sound
  · exact (grown.trans placed).others j e other found
  · obtain ⟨some', byte⟩ := (grown.trans placed).kept p small some
    refine ⟨some', byte.elim .inl fun allowed => ?_⟩
    obtain ⟨some'', before⟩ := grown.kept p small some
    rcases allowed with none | ⟨here, value⟩
    · exact absurd none not_false
    have old : (st.itable ip).d.byte st.disk p = middle.disk addr (p % bsize) := by
      rcases before with same | none
      · rw [← same, Dinode.byte, here, mapped.value]
      · exact absurd none not_false
    rw [value, old, copied]
    rcases eitherCopyin_byte m (middle.disk addr) (off % bsize) tot (p % bsize)
      with same | ⟨low, high, new⟩
    · exact .inl same
    have place : p % bsize - off % bsize = p - off ∧ off ≤ p ∧ p < off + m := by
      simp only [bsize] at low high here part ⊢
      omega
    rw [place.1] at new
    exact .inr ⟨place.2.1, place.2.2, new⟩

theorem Mapped.stored {middle : State} {addr : Nat} (logged : List Nat) {block : Block}
    (mapped : Mapped sb st ip (off / bsize) addr middle) (nonzero : addr ≠ 0) {p : Nat}
    (here : p / bsize = off / bsize) {after : State}
    (now : after = { middle with disk := update middle.disk addr block, logged := logged }) :
    (after.itable ip).d.ref after.disk (placeOf (p / bsize)) ≠ 0 ∧
      (after.itable ip).d.byte after.disk p = block (p % bsize) := by
  subst now
  have filled : (middle.itable ip).d.ref middle.disk (placeOf (off / bsize)) ≠ 0 := by
    rwa [← mapped.value]
  have ref : (middle.itable ip).d.ref (update middle.disk addr block) (placeOf (off / bsize)) =
      addr := by
    rw [mapped.value, mapped.sound.ref_overwrite working_self filled (placeOf_ne_indirect _) working_self]
  refine ⟨by rwa [here, ref], ?_⟩
  rw [Dinode.byte, here, ref]
  exact congrFun (update_self ..) _

theorem writeiFrom_ends (fuel : Nat) (enough : n - tot ≤ fuel) (count : tot ≤ n)
    (room : off + (n - tot) ≤ maxFile * bsize) (sound : sb.Sound (Working sb st ip) st.disk) :
    Ends (writeiFrom sb ip src n fuel tot off) st stop fun done after =>
      Written sb st ip src n tot off done after := by
  induction fuel generalizing st tot off with
  | zero =>
    rw [writeiFrom, ends_pure]
    exact Written.rest count (.refl sound) fun fault => absurd fault.1 (by simp; omega)
  | succ fuel ih =>
    rw [writeiFrom]
    split
    · next more =>
      have bound : off / bsize < maxFile := by
        simp only [bsize] at room ⊢
        omega
      refine (bmap_ends sound bound).seq fun addr middle mapped => ?_
      by_cases none : addr = 0
      · rw [if_pos none, ends_pure]
        refine Written.rest count ((mapped.grown sound).mono fun _ _ => False.elim) fun fault => ?_
        exact absurd (mapped.value.symm.trans none) fault.2
      rw [if_neg none]
      simp only [ends_bind, ends_bread, ends_logWrite]
      generalize taken : min (n - tot) (bsize - off % bsize) = m
      have part : tot + m ≤ n ∧ off % bsize + m ≤ bsize ∧ 0 < m ∧
          (tot + m = n ∨ (off + m) % bsize = 0) := by
        simp only [bsize] at taken ⊢
        omega
      generalize outcome : eitherCopyin src m (middle.disk addr) (off % bsize) tot = result
      have grown := mapped.copied (addr :: middle.logged) sound bound none part.2.1
        (congrArg Prod.fst outcome).symm
      split
      · next copied =>
        refine (ih (by omega) part.1 (by omega) grown.sound).mono fun done after written => ?_
        refine written.step part.1 grown (fun p low high => ?_) room part.2.2.2
        have here : p / bsize = off / bsize ∧ p % bsize = off % bsize + (p - off) := by
          simp only [bsize] at part ⊢
          omega
        obtain ⟨some, byte⟩ := mapped.stored (addr :: middle.logged) none here.1 rfl
        refine ⟨some, ?_⟩
        rw [byte, here.2, ← outcome]
        exact eitherCopyin_whole m _ _ _ (outcome ▸ copied) (by omega)
      · next fault =>
        obtain ⟨k, low, unmapped⟩ := eitherCopyin_fault m _ _ _
          (outcome ▸ Bool.eq_false_of_not_eq_true fault)
        obtain ⟨there, _⟩ := mapped.stored (addr :: middle.logged) none rfl rfl
        rw [ends_pure]
        exact Written.rest count (grown.mono fun p byte allowed =>
          ⟨allowed.1, by omega, allowed.2.2, more, there⟩) fun _ => ⟨tot + k, by omega, unmapped⟩
    · next done =>
      rw [ends_pure]
      exact Written.rest count (.refl sound) fun fault => absurd fault.1 done

end Loop

section Renew

variable {nodes : Nodes} {disk : Disk} {i : Nat} {d d' : Dinode}

theorem Dinode.ref_renew (addrs : d'.addrs = d.addrs) (place : Place) : d'.ref disk place = d.ref disk place := by
  have ind : d'.ind = d.ind := congrFun addrs _
  cases place with
  | direct k => exact congrFun addrs _
  | indirect => exact ind
  | entry j => rw [Dinode.ref, Dinode.ref, ind]

theorem Dinode.byte_renew (addrs : d'.addrs = d.addrs) (p : Nat) : d'.byte disk p = d.byte disk p := by
  simp only [Dinode.byte, ref_renew addrs]

theorem Superblock.Sound.renew (sound : sb.Sound nodes disk) (found : nodes i = some d)
    (addrs : d'.addrs = d.addrs) (sized : d'.size ≤ maxFile * bsize)
    (filled : ∀ bn, bn * bsize < d'.size → d.ref disk (placeOf bn) ≠ 0) :
    sb.Sound (update nodes i (some d')) disk := by
  refine ⟨sound.owned.congr (fun ⟨j, place⟩ => ?_) fun _ _ => rfl, fun j e there bn low => ?_,
    fun j e there => ?_⟩
  · obtain rfl | same := eq_or_ne j i
    · rw [refs_some (update_self ..), refs_some found, ref_renew addrs]
    · exact refs_update_ne same place
  · obtain rfl | same := eq_or_ne j i
    · rw [update_self] at there
      cases there
      rw [ref_renew addrs]
      exact filled bn low
    · rw [update_of_ne same] at there
      exact sound.filled j e there bn low
  · obtain rfl | same := eq_or_ne j i
    · rw [update_self] at there
      cases there
      exact sized
    · rw [update_of_ne same] at there
      exact sound.sized j e there

theorem Superblock.Sound.addr_fits (sound : sb.Sound nodes disk) (found : nodes i = some d)
    (k : Fin (ndirect + 1)) : d.addrs k < 2 ^ 32 := by
  have small := sb.small
  have within : ∀ place, d.ref disk place < 2 ^ 32 := by
    intro place
    by_cases none : d.ref disk place = 0
    · omega
    · have range := sound.owned.range (i, place) (by rwa [refs_some found])
      rw [refs_some found] at range
      omega
  refine Fin.lastCases ?_ (fun k => ?_) k
  · exact within .indirect
  · exact within (.direct k)

end Renew

def File.refuses (f : File) (off n : Nat) : Prop :=
  off > f.size ∨ 2 ^ 32 ≤ off + n ∨ maxFile * bsize < off + n

/-- What a `writei` that returned `tot` did to the file; `fault` says that it stopped since a
byte of the source could not be read. -/
structure Overlaid (f : File) (src : Nat → Option UInt8) (off n tot : Nat) (fault : Prop) (f' : File) :
    Prop where
  count : tot ≤ n
  shape : f' = { f with size := max f.size (off + tot), data := f'.data }
  new : ∀ k < tot, src k = some (f'.data (off + k))
  old : ∀ p < f.size, f'.data p = f.data p ∨ (off ≤ p ∧ p < off + n ∧
    src (p - off) = some (f'.data p) ∧ (p < off + tot ∨ fault))
  faults : fault → tot < n ∧ ∃ k < n, src k = none
  whole : tot < n → off + n ≤ f.size → fault
  stops : tot < n → fault ∨ tot = 0 ∨ (off + tot) % bsize = 0

structure Renewed (sb : Superblock) (st : State) (ip : Nat) (d : Dinode) (after : State) : Prop where
  table : after.itable = update st.itable ip ((st.itable ip).copy d)
  nodes : sb.nodeOf after.disk = update (sb.nodeOf st.disk) (st.itable ip).inum (some d)
  sound : sb.Sound (sb.nodeOf after.disk) after.disk
  files : sb.fileOf after.disk =
    update (sb.fileOf st.disk) (st.itable ip).inum (some (d.file after.disk))

theorem iupdate_renews {middle : State} {d : Dinode}
    (table : middle.itable = update st.itable ip ((st.itable ip).copy d))
    (nodes : sb.nodeOf middle.disk = sb.nodeOf st.disk)
    (sound : sb.Sound (Working sb middle ip) middle.disk)
    (others : ∀ j e, j ≠ (st.itable ip).inum → sb.nodeOf st.disk j = some e →
      e.file middle.disk = e.file st.disk)
    (bound : (st.itable ip).inum < sb.ninodes) (fits : d.Fits) (used : d.type ≠ 0) :
    Ends (iupdate sb ip) middle stop fun _ after =>
      Renewed sb st ip d after ∧ d.file after.disk = d.file middle.disk ∧
        ∀ place, d.ref after.disk place = d.ref middle.disk place := by
  have mine : middle.itable ip = (st.itable ip).copy d := by rw [table, update_self]
  have bound' : (middle.itable ip).inum < sb.ninodes := by rwa [mine]
  have fits' : (middle.itable ip).d.Fits := by rwa [mine]
  have used' : (middle.itable ip).d.type ≠ 0 := by rwa [mine]
  have now : sb.nodeOf (middle.updated sb ip).disk =
      update (sb.nodeOf st.disk) (st.itable ip).inum (some d) := by
    rw [updated_nodes bound' fits' used', Working, mine, nodes]
    rfl
  have data : ∀ place, sb.dataStart ≤ place →
      (middle.updated sb ip).disk place = middle.disk place :=
    fun place low => updated_data bound' low
  have there : Working sb middle ip (st.itable ip).inum = some d := by
    rw [Working, mine]
    exact update_self ..
  rw [iupdate_ends]
  refine ⟨⟨table, now, updated_sound bound' fits' used' sound,
    fileOf_update now fun j e other found => ?_⟩, sound.file_data data there,
    fun place => d.ref_congr (fun some => data _ (sound.ind_data there some).1) place⟩
  have also : Working sb middle ip j = some e := by
    rw [working_other (by rwa [mine]), nodes, found]
  rw [sound.file_data data also, others j e other found]

section Write

variable {src : Nat → Option UInt8} {off n : Nat}

theorem Written.overlaid {done : Nat × Nat} {middle : State} {f : File}
    (written : Written sb st ip src n 0 off done middle) (file : (st.itable ip).d.file st.disk = f)
    (sound : sb.Sound (sb.nodeOf st.disk) st.disk) (synced : Synced sb st ip)
    (accepted : off ≤ f.size) {addrs : Fin (ndirect + 1) → Nat}
    (mine : (middle.itable ip).d = { (st.itable ip).d with addrs := addrs }) {d' : Dinode}
    (final : d' = { (st.itable ip).d with addrs := addrs, size := max f.size done.2 }) :
    Overlaid f src off n done.1 (Faulted middle ip n done) (d'.file middle.disk) := by
  have size : (st.itable ip).d.size = f.size := by rw [← file, file_size]
  have sized := sound.sized _ _ synced
  obtain ⟨-, high, last⟩ := written.count
  rw [Nat.sub_zero] at last
  have size' : d'.size = max f.size done.2 := by rw [final]
  have same : d'.addrs = (middle.itable ip).d.addrs := by rw [final, mine]
  have old : ∀ p < f.size, f.data p = (st.itable ip).d.byte st.disk p := by
    intro p below
    rw [← file, file_data (by rwa [size])]
  have new : ∀ p < max f.size done.2, (d'.file middle.disk).data p =
      (middle.itable ip).d.byte middle.disk p := by
    intro p below
    rw [file_data (by rwa [size']), byte_renew same]
  refine ⟨high, ?_, fun k below => ?_, fun p below => ?_, fun fault => ⟨fault.1, written.faults fault⟩,
    fun short inside => ⟨short, ?_⟩, fun short => ?_⟩
  · rw [← last, ← file]
    subst final file
    rfl
  · obtain ⟨_, copied⟩ := written.new (off + k) (by omega) (by omega)
    rw [new _ (by omega), ← copied]
    congr 1
    omega
  · obtain ⟨_, byte⟩ := written.grown.kept p (by omega) (sound.filled_byte synced (by omega))
    rw [new p (by omega), old p below]
    refine byte.imp_right fun ⟨low, high, copied, when⟩ => ⟨low, by omega, ?_, ?_⟩
    · rwa [zero_add] at copied
    · exact when.imp_left fun below => by omega
  · exact (written.grown.kept done.2 (by omega) (sound.filled_byte synced (by omega))).1
  · rw [← last]
    exact written.stops short

theorem writei_ends (sound : sb.Sound (sb.nodeOf st.disk) st.disk) (synced : Synced sb st ip) {f : File}
    (file : (st.itable ip).d.file st.disk = f) (narrow : off < 2 ^ 32) (short : n < 2 ^ 32) :
    Ends (writei sb ip src off n) st stop fun result after =>
      (result = none ∧ f.refuses off n ∧ after = st) ∨
        ∃ tot d', result = some tot ∧ ¬ f.refuses off n ∧ Renewed sb st ip d' after ∧
          Overlaid f src off n tot (Faulted after ip n (tot, off + tot)) (d'.file after.disk) := by
  obtain ⟨bound, used, stored⟩ := Superblock.nodeOf_eq_some synced
  have fits : (st.itable ip).d.Fits := stored ▸ sb.dinodeOf_fits st.disk _
  have sized := sound.sized _ _ synced
  have size : (st.itable ip).d.size = f.size := by rw [← file, file_size]
  have working : Working sb st ip = sb.nodeOf st.disk := update_eq_self_iff.mpr synced.symm
  have limit : maxFile * bsize < 2 ^ 32 := by decide
  simp only [writei, ends_bind, ends_slot]
  by_cases out : off > (st.itable ip).d.size ∨ (off + n) % 2 ^ 32 < off
  · rw [if_pos out, ends_pure]
    refine .inl ⟨rfl, ?_, rfl⟩
    rw [File.refuses]
    omega
  rw [if_neg out]
  by_cases large : (off + n) % 2 ^ 32 > maxFile * bsize
  · rw [if_pos large, ends_pure]
    refine .inl ⟨rfl, ?_, rfl⟩
    rw [File.refuses]
    omega
  rw [if_neg large]
  have accepted : ¬ f.refuses off n := by
    rw [File.refuses]
    omega
  have room : off + (n - 0) ≤ maxFile * bsize := by
    rw [File.refuses] at accepted
    omega
  simp only [ends_bind, ends_slot]
  refine (writeiFrom_ends n (by omega) (Nat.zero_le _) room (working ▸ sound)).mono
    fun done middle written => ?_
  obtain ⟨addrs, table⟩ := written.grown.table
  have mine : middle.itable ip = (st.itable ip).copy { (st.itable ip).d with addrs := addrs } := by
    rw [table, withAddrs, update_self]
  have inum : (middle.itable ip).inum = (st.itable ip).inum := by rw [mine, copy_inum]
  have reached : done.2 ≤ maxFile * bsize := by
    have last := written.count
    omega
  generalize final : ({ (st.itable ip).d with addrs := addrs, size := max f.size done.2 } : Dinode) = d'
  have same : d'.addrs = (middle.itable ip).d.addrs := by rw [← final, mine]; rfl
  have size' : d'.size = max f.size done.2 := by rw [← final]
  have overlaid : Overlaid f src off n done.1 (Faulted middle ip n done) (d'.file middle.disk) :=
    written.overlaid file sound synced (by rw [File.refuses] at accepted; omega)
      (mine ▸ rfl) final.symm
  have resized : sb.Sound (update (Working sb middle ip) (middle.itable ip).inum (some d'))
      middle.disk := by
    refine written.grown.sound.renew working_self same (by omega) fun bn low => ?_
    have block : bn * bsize / bsize = bn := Nat.mul_div_cancel bn (by decide)
    have filled : (middle.itable ip).d.ref middle.disk (placeOf (bn * bsize / bsize)) ≠ 0 := by
      by_cases before : bn * bsize < f.size
      · exact (written.grown.kept _ (by omega) (sound.filled_byte synced (by omega))).1
      · rw [File.refuses] at accepted
        exact (written.new _ (by omega) (by omega)).1
    rwa [block] at filled
  rw [Working, update_idem, inum, written.grown.nodes] at resized
  -- with or without `setSize`, the copy in memory is `d'` when it is written back
  have updates : ∀ last : State, last.disk = middle.disk →
      last.itable = update st.itable ip ((st.itable ip).copy d') →
      Ends (iupdate sb ip) last stop fun _ after => Renewed sb st ip d' after ∧
        d'.file after.disk = d'.file middle.disk ∧
        ∀ place, d'.ref after.disk place = d'.ref middle.disk place := by
    intro last disk slots
    have nodes : sb.nodeOf last.disk = sb.nodeOf st.disk := by rw [disk, written.grown.nodes]
    have sound' : sb.Sound (Working sb last ip) last.disk := by
      rw [Working, slots, update_self, nodes, disk]
      exact resized
    have fits' : d'.Fits := by
      have addrs' : ∀ k, d'.addrs k < 2 ^ 32 := by
        intro k
        rw [same]
        exact written.grown.sound.addr_fits working_self k
      exact ⟨by rw [← final]; exact fits.type, by rw [← final]; exact fits.major,
        by rw [← final]; exact fits.minor, by rw [← final]; exact fits.nlink, by omega, addrs'⟩
    rw [← disk]
    exact iupdate_renews slots nodes sound' (by rw [disk]; exact written.grown.others) bound fits'
      (by rw [← final]; exact used)
  have grows : (middle.itable ip).d.size = f.size := by rw [mine, copy_d, size]
  have finish : ∀ last : State, last.disk = middle.disk →
      last.itable = update st.itable ip ((st.itable ip).copy d') →
      Ends (iupdate sb ip >>= fun _ => pure (some done.1)) last stop fun result after =>
        (result = none ∧ f.refuses off n ∧ after = st) ∨
          ∃ tot d', result = some tot ∧ ¬ f.refuses off n ∧ Renewed sb st ip d' after ∧
            Overlaid f src off n tot (Faulted after ip n (tot, off + tot)) (d'.file after.disk) := by
    intro last disk slots
    refine (updates last disk slots).seq fun _ after facts => ?_
    obtain ⟨renewed, file', refs'⟩ := facts
    have fault : Faulted after ip n (done.1, off + done.1) = Faulted middle ip n done := by
      have last := written.count
      have now : (after.itable ip).d = d' := by rw [renewed.table, update_self, copy_d]
      rw [Faulted, Faulted, now, refs', ref_renew same, show off + done.1 = done.2 by omega]
    rw [ends_pure]
    exact .inr ⟨done.1, d', rfl, accepted, renewed, file' ▸ fault ▸ overlaid⟩
  by_cases larger : done.2 > (middle.itable ip).d.size
  · rw [if_pos larger, ends_bind, ends_setSize]
    refine finish _ rfl ?_
    rw [put_itable, table, withAddrs, update_self, update_idem, ← final,
      max_eq_right (by omega)]
    rfl
  · rw [if_neg larger]
    refine finish _ rfl ?_
    rw [table, withAddrs, ← final, max_eq_left (by omega), ← size]

end Write

end Xv6.Fs

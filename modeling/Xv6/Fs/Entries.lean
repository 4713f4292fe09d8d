import Xv6.Fs.Table

/-!
Directories as the block layer sees them. An entry of a directory must name an inode below
`ninodes`, since `iget` trusts it.
-/

namespace Xv6.Fs

open Function List
open Lib.Hoare

def Listed (sb : Superblock) (files : Nat → Option File) : Prop :=
  ∀ i f, files i = some f → f.type = tDir → ∀ off, off % direntSize = 0 →
    off + direntSize ≤ f.size → direntInum (f.slice off direntSize) < sb.ninodes

structure Inv (sb : Superblock) (st : State) : Prop where
  good : Good sb st
  listed : Listed sb (sb.fileOf st.disk)

def Ready (st : State) (ip : Nat) : Prop := 0 < (st.itable ip).ref ∧ (st.itable ip).valid = true

variable {sb : Superblock} {st : State} {stop : Stop → Prop} {ip dp : Nat} {f : File}
variable {files : Nat → Option File}

theorem Listed.update {i : Nat} {node : Option File} (listed : Listed sb files)
    (mine : ∀ f, node = some f → f.type = tDir → ∀ off, off % direntSize = 0 →
      off + direntSize ≤ f.size → direntInum (f.slice off direntSize) < sb.ninodes) :
    Listed sb (update files i node) := by
  intro j f found
  by_cases same : j = i
  · rw [same, update_self] at found
    exact mine f found
  · rw [update_of_ne same] at found
    exact listed j f found

theorem direntInum_slice {off : Nat} (inside : off + direntSize ≤ f.size) :
    direntInum (f.slice off direntSize) = (f.data off).toNat + 256 * (f.data (off + 1)).toNat := by
  have count : min (off + direntSize) f.size - off = 16 := by
    simp only [direntSize] at inside ⊢
    omega
  rw [File.slice, count]
  rfl

theorem length_slice (off n : Nat) : (f.slice off n).length = min (off + n) f.size - off := by
  simp [File.slice]

theorem direntBytes_length (inum : Nat) (name : Name) : (direntBytes inum name).length = direntSize := by
  simp only [direntBytes, length_append, length_cons, length_nil, length_take,
    length_replicate, dirSiz, direntSize]
  omega

theorem direntBytes_some (inum : Nat) (name : Name) {k : Nat} (low : k < direntSize) :
    (direntBytes inum name)[k]? ≠ none := by
  rw [Ne, List.getElem?_eq_none_iff, direntBytes_length]
  omega

theorem direntBytes_inum (inum : Nat) (name : Name) :
    (((direntBytes inum name)[0]?).getD 0).toNat + 256 * (((direntBytes inum name)[1]?).getD 0).toNat =
      inum % 2 ^ 16 := by
  simp only [direntBytes, cons_append, List.getElem?_cons_zero, List.getElem?_cons_succ,
    Option.getD_some, UInt8.toNat_ofNat']
  omega

theorem Overlaid.entry {src : Nat → Option UInt8} {off tot : Nat} {fault : Prop} {f' : File}
    (overlaid : Overlaid f src off direntSize tot fault f') (total : ∀ k < direntSize, src k ≠ none)
    (aligned : off % direntSize = 0) : ¬ fault ∧ (tot = 0 ∨ tot = direntSize) := by
  have count := overlaid.count
  have copied : ¬ fault := fun fault => by
    obtain ⟨_, k, low, none⟩ := overlaid.faults fault
    exact total k low none
  refine ⟨copied, ?_⟩
  by_cases short : tot < direntSize
  · rcases overlaid.stops short with fault | none | block
    · exact absurd fault copied
    · exact .inl none
    · simp only [direntSize, bsize] at short aligned block ⊢
      omega
  · exact .inr (by omega)

theorem Overlaid.listed {src : Nat → Option UInt8} {off tot : Nat} {fault : Prop} {f' : File}
    (overlaid : Overlaid f src off direntSize tot fault f') (total : ∀ k < direntSize, src k ≠ none)
    (aligned : off % direntSize = 0) (inside : off ≤ f.size)
    (entry : ((src 0).getD 0).toNat + 256 * ((src 1).getD 0).toNat < sb.ninodes)
    (listed : ∀ o, o % direntSize = 0 → o + direntSize ≤ f.size →
      direntInum (f.slice o direntSize) < sb.ninodes) :
    ∀ o, o % direntSize = 0 → o + direntSize ≤ f'.size →
      direntInum (f'.slice o direntSize) < sb.ninodes := by
  intro o oAligned oInside
  obtain ⟨copied, whole⟩ := overlaid.entry total aligned
  have size : f'.size = max f.size (off + tot) := by rw [overlaid.shape]
  have kept : ∀ p < f.size, p < off ∨ off + tot ≤ p → f'.data p = f.data p := by
    intro p below apart
    rcases overlaid.old p below with same | ⟨low, _, _, within | fault⟩
    · exact same
    · omega
    · exact absurd fault copied
  rw [direntInum_slice oInside]
  by_cases here : o = off ∧ tot = direntSize
  · obtain ⟨rfl, all⟩ := here
    have first := overlaid.new 0 (by rw [all]; decide)
    have second := overlaid.new 1 (by rw [all]; decide)
    rw [first, second] at entry
    exact entry
  have before : o + direntSize ≤ f.size ∧ (o + direntSize ≤ off ∨ off + tot ≤ o) := by
    simp only [direntSize] at *
    omega
  have old := listed o oAligned before.1
  rw [direntInum_slice before.1] at old
  simp only [direntSize] at before
  rwa [kept o (by omega) (by omega), kept (o + 1) (by omega) (by omega)]

theorem Inv.opened (inv : Inv sb st) (ready : Ready st ip) :
    Opened sb st ip (st.itable ip).inum ((st.itable ip).d.file st.disk) :=
  ⟨ready.1, ready.2, rfl, fileOf_some (inv.good.table.synced ip ready.1 ready.2)⟩

theorem entry_ends (inv : Inv sb st) (ready : Ready st dp) {off : Nat} (narrow : off + direntSize < 2 ^ 32) :
    Ends (readi sb dp off direntSize) st stop fun de after => after = st ∧
      (de.length = direntSize → off + direntSize ≤ (st.itable dp).d.size ∧
        de = ((st.itable dp).d.file st.disk).slice off direntSize) := by
  have opened := inv.opened ready
  refine (readi_ends inv.good.sound (opened.synced inv.good) rfl off direntSize).mono
    fun de after facts => ⟨facts.1, fun whole => ?_⟩
  obtain ⟨_, out, inside⟩ := facts
  by_cases outside : ((st.itable dp).d.file st.disk).outside off direntSize
  · rw [out outside] at whole
    exact absurd whole (by decide)
  have slice := inside outside
  refine ⟨?_, slice⟩
  rw [slice, length_slice, file_size] at whole
  simp only [direntSize] at whole ⊢
  omega

def Got (st : State) (r inum : Nat) (after : State) : Prop :=
  after.itable = update st.itable r ((st.itable r).got inum) ∧
    (0 < (st.itable r).ref → (st.itable r).inum = inum)

structure Found (st : State) (dp : Nat) (name : Name) (r o inum : Nat) (after : State) : Prop where
  aligned : o % direntSize = 0
  inside : o + direntSize ≤ (st.itable dp).d.size
  entry : direntInum (((st.itable dp).d.file st.disk).slice o direntSize) = inum
  used : inum ≠ 0
  named : name = direntName (((st.itable dp).d.file st.disk).slice o direntSize)
  disk : after.disk = st.disk
  got : Got st r inum after

section Search

variable (inv : Inv sb st) (ready : Ready st dp)
include inv ready

theorem Inv.size_lt : (st.itable dp).d.size + direntSize < 2 ^ 32 := by
  have sized := inv.good.sound.sized _ _ (inv.good.table.synced dp ready.1 ready.2)
  have limit : maxFile * bsize + direntSize < 2 ^ 32 := by decide
  omega

theorem dirlookupFrom_ends (dir : (st.itable dp).d.type = tDir) (name : Name) (fuel off : Nat)
    (aligned : off % direntSize = 0) :
    Ends (dirlookupFrom sb dp name fuel off) st Safe fun result after => Inv sb after ∧
      ((result = none ∧ after = st) ∨ ∃ r o inum, result = some (r, o) ∧ Found st dp name r o inum after) := by
  induction fuel generalizing off with
  | zero => exact ⟨inv, .inl ⟨rfl, rfl⟩⟩
  | succ fuel ih =>
    have limit := inv.size_lt ready
    rw [dirlookupFrom]
    simp only [ends_bind, ends_slot]
    split
    · next more =>
      refine (entry_ends inv ready (by omega)).seq fun de after facts => ?_
      obtain ⟨rfl, whole⟩ := facts
      split
      · rw [ends_throw]
        simp [Safe]
      next length =>
      obtain ⟨inside, read⟩ := whole (by simpa using length)
      split
      · next found =>
        have bound : direntInum de < sb.ninodes := by
          rw [read]
          exact inv.listed _ _ (inv.opened ready).file dir off aligned inside
        refine (iget_ends inv.good bound).seq fun r last facts => ?_
        obtain ⟨rfl, hit, good⟩ := facts
        rw [ends_pure]
        refine ⟨⟨good, inv.listed⟩, .inr ⟨r, off, _, rfl, aligned, inside, ?_, found.1, ?_, rfl, rfl, hit⟩⟩
        · rw [read]
        · rw [found.2, read]
      · exact ih (off + direntSize) (by simp [aligned])
    · exact ⟨inv, .inl ⟨rfl, rfl⟩⟩

theorem dirlookup_ends (name : Name) :
    Ends (dirlookup sb dp name) st Safe fun result after => Inv sb after ∧
      (st.itable dp).d.type = tDir ∧
      ((result = none ∧ after = st) ∨ ∃ r o inum, result = some (r, o) ∧ Found st dp name r o inum after) := by
  simp only [dirlookup, ends_bind, ends_slot]
  split
  · rw [ends_throw]
    simp [Safe]
  · next dir =>
    have dir : (st.itable dp).d.type = tDir := by simpa using dir
    exact (dirlookupFrom_ends inv ready dir name _ 0 rfl).mono fun _ _ facts => ⟨facts.1, dir, facts.2⟩

theorem dirlinkFrom_ends (fuel off : Nat) (aligned : off % direntSize = 0)
    (near : off ≤ (st.itable dp).d.size + direntSize) :
    Ends (dirlinkFrom sb dp fuel off) st Safe fun o after => after = st ∧ o % direntSize = 0 ∧
      o ≤ (st.itable dp).d.size + direntSize := by
  induction fuel generalizing off with
  | zero => exact ⟨rfl, aligned, near⟩
  | succ fuel ih =>
    have limit := inv.size_lt ready
    rw [dirlinkFrom]
    simp only [ends_bind, ends_slot]
    split
    · next more =>
      refine (entry_ends inv ready (by omega)).seq fun de after facts => ?_
      obtain ⟨rfl, _⟩ := facts
      split
      · rw [ends_throw]
        simp [Safe]
      split
      · exact ⟨rfl, aligned, near⟩
      · exact ih (off + direntSize) (by simp [aligned]) (by omega)
    · exact ⟨rfl, aligned, near⟩

theorem isdiremptyFrom_ends (fuel off : Nat) :
    Ends (isdiremptyFrom sb dp fuel off) st Safe fun _ after => after = st := by
  induction fuel generalizing off with
  | zero => exact rfl
  | succ fuel ih =>
    have limit := inv.size_lt ready
    rw [isdiremptyFrom]
    simp only [ends_bind, ends_slot]
    split
    · next more =>
      refine (entry_ends inv ready (by omega)).seq fun de after facts => ?_
      obtain ⟨rfl, _⟩ := facts
      split
      · rw [ends_throw]
        simp [Safe]
      split
      · exact rfl
      · exact ih (off + direntSize)
    · exact rfl

theorem isdirempty_ends : Ends (isdirempty sb dp) st Safe fun _ after => after = st := by
  simp only [isdirempty, ends_bind, ends_slot]
  exact isdiremptyFrom_ends inv ready _ _

theorem entry_write {src : Nat → Option UInt8} (total : ∀ k < direntSize, src k ≠ none)
    (entry : ((src 0).getD 0).toNat + 256 * ((src 1).getD 0).toNat < sb.ninodes) {off : Nat}
    (aligned : off % direntSize = 0) (narrow : off < 2 ^ 32) :
    Ends (writei sb dp src off direntSize) st Safe fun _ after => Inv sb after ∧
      (after = st ∨ ∃ d, Renewed sb st dp d after) := by
  have opened := inv.opened ready
  refine (writei_ends inv.good.sound (opened.synced inv.good) rfl narrow (by decide)).mono
    fun result after outcome => ?_
  rcases outcome with ⟨_, _, rfl⟩ | ⟨tot, d, _, accepts, renewed, overlaid⟩
  · exact ⟨inv, .inl rfl⟩
  refine ⟨⟨renewed.good inv.good ready.1, ?_⟩, .inr ⟨d, renewed⟩⟩
  rw [renewed.files]
  refine inv.listed.update fun f' made dir => ?_
  cases made
  have type : ((st.itable dp).d.file st.disk).type = tDir := by
    rw [overlaid.shape] at dir
    exact dir
  refine overlaid.listed total aligned ?_ entry (inv.listed _ _ opened.file type)
  rw [File.refuses] at accepts
  omega

end Search

end Xv6.Fs

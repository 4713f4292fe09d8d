import Xv6.Names.Share

/-!
What becomes of the counts when one process, one inode and one file change.
-/

namespace Xv6.Names

open Lib
open Function
open Fs (ninode)

@[simp] theorem points_none (x : Nat) : points none x = 0 := rfl

@[simp] theorem points_same (x : Nat) : points (some x) x = 1 := if_pos rfl

theorem points_some (x y : Nat) : points (some x) y = if x = y then 1 else 0 := by simp [points]

theorem points_other {pointer : Option Nat} {x : Nat} (other : pointer ≠ some x) : points pointer x = 0 :=
  if_neg other

theorem total_update {α : Type} {n x : Nat} (table : Nat → α) (value : α) (measure : α → Nat) (inside : x < n) :
    (total n fun y => measure (update table x value y)) + measure (table x) =
      (total n fun y => measure (table y)) + measure value := by
  have change := total_change (fun y => measure (table y)) (fun y => measure (update table x value y)) inside
    fun y _ different => by rw [update_of_ne different]
  simpa only [update_self] using change

theorem update_part {α β : Type} {table : Nat → α} {x : Nat} {value : α} (part : α → β)
    (same : part value = part (table x)) (y : Nat) : part (update table x value y) = part (table y) := by
  by_cases here : y = x
  · rw [here, update_self, same]
  · rw [update_of_ne here]

theorem update_id {α : Type} {table : Nat → α} {x : Nat} : update table x (table x) = table :=
  update_eq_self x table

namespace Own

variable {own own' : Own} {share : Share} {pending pending' : Option (Nat × Nat)} {ip jp i fd f : Nat}

def hold (own : Own) (ip i : Nat) : Own := { own with held := (ip, i) :: own.held }

def unhold (own : Own) (ip i : Nat) : Own := { own with held := own.held.erase (ip, i) }

def fill (own : Own) (fd : Nat) (file : Option Nat) : Own := { own with ofile := update own.ofile fd file }

@[simp] theorem fill_self {file : Option Nat} : (own.fill fd file).ofile fd = file := update_self _ _ _

theorem fill_other {file : Option Nat} {other : Nat} (different : other ≠ fd) :
    (own.fill fd file).ofile other = own.ofile other := update_of_ne different _ _

theorem count_hold : (own.hold ip i).count jp = own.count jp + points (some ip) jp := by
  simp only [count, hold, points_some, List.countP_cons, decide_eq_true_eq]
  omega

theorem count_unhold (member : (ip, i) ∈ own.held) :
    (own.unhold ip i).count jp + points (some ip) jp = own.count jp := by
  have split := (List.perm_cons_erase member).countP_eq fun r => decide (r.1 = jp)
  simp only [List.countP_cons, decide_eq_true_eq] at split
  simp only [count, unhold, points_some]
  omega

theorem count_pos (member : (ip, i) ∈ own.held) : 0 < own.count ip := by
  have found : 0 < own.held.countP fun r => r.1 = ip :=
    List.countP_pos_iff.mpr ⟨(ip, i), member, by simp⟩
  simp only [count]
  omega

theorem count_cwd (here : own.cwd = some ip) : 0 < own.count ip := by
  simp only [count, here, points_same]
  omega

theorem slots_change (inside : fd < nofile)
    (same : ∀ other < nofile, other ≠ fd → own'.slot pending' other = own.slot pending other) :
    own'.slots pending' f + points (own.slot pending fd) f = own.slots pending f + points (own'.slot pending' fd) f :=
  total_change (fun fd => points (own.slot pending fd) f) (fun fd => points (own'.slot pending' fd) f) inside
    fun other low different => by rw [same other low different]

theorem slots_pos (inside : fd < nofile) (here : own.slot pending fd = some f) : 0 < own.slots pending f := by
  have part := le_total (fun fd => points (own.slot pending fd) f) inside
  simp only [here, points_same] at part
  exact part

theorem shares_of_slot (inside : fd < nofile) (here : own.slot share.pending fd = some f) :
    0 < own.shares share f := Nat.add_pos_left (slots_pos inside here) _

theorem shares_of_file (member : f ∈ share.files) : 0 < own.shares share f :=
  Nat.add_pos_right _ (List.count_pos_iff.mpr member)

@[simp] theorem slot_none : own.slot none fd = own.ofile fd := rfl

theorem slot_pending : own.slot (some (fd, f)) fd = none := if_pos rfl

theorem slot_other {other : Nat} (different : other ≠ fd) : own.slot (some (fd, f)) other = own.ofile other :=
  if_neg fun same => different (Option.some.inj same).symm

theorem slots_fill (inside : fd < nofile) (empty : own.ofile fd = none) (g : Nat) :
    (own.fill fd (some f)).slots none g = own.slots none g + points (some f) g := by
  have change : (own.fill fd (some f)).slots none g + points (own.slot none fd) g =
      own.slots none g + points ((own.fill fd (some f)).slot none fd) g :=
    slots_change inside fun other _ different => fill_other different
  rwa [slot_none, slot_none, empty, points_none, fill_self] at change

theorem slots_clear (inside : fd < nofile) (here : own.ofile fd = some f) (g : Nat) :
    (own.fill fd none).slots none g + points (some f) g = own.slots none g := by
  have change : (own.fill fd none).slots none g + points (own.slot none fd) g =
      own.slots none g + points ((own.fill fd none).slot none fd) g :=
    slots_change inside fun other _ different => fill_other different
  rwa [slot_none, slot_none, here, fill_self, points_none] at change

theorem slots_hide (inside : fd < nofile) (here : own.ofile fd = some f) (g : Nat) :
    own.slots (some (fd, f)) g + points (some f) g = own.slots none g := by
  have change : own.slots (some (fd, f)) g + points (own.slot none fd) g =
      own.slots none g + points (own.slot (some (fd, f)) fd) g :=
    slots_change inside fun other _ different => slot_other different
  rwa [slot_none, here, slot_pending, points_none] at change

theorem shares_counted (counted : share.pending = none) : own.shares share f = own.slots none f + share.files.count f := by
  rw [shares, counted]

end Own

variable {cfg : Config} {itable itable' : Nat → Inode} {ftable : Nat → File} {pipes : Nat → Pipe}
variable {procs : Nat → Own} {share : Nat → Share} {q r ip f : Nat} {own : Own} {sh : Share} {node : Inode} {file : File}

namespace NodesOk

section Facts

variable (nodes : NodesOk cfg itable ftable procs)
include nodes

theorem runs (member : (ip, r) ∈ (procs q).held) : q < cfg.nproc := by
  by_contra out
  rw [nodes.outside q (Nat.le_of_not_lt out)] at member
  cases member

theorem live (running : q < cfg.nproc) (some : 0 < (procs q).count ip) : 0 < (itable ip).ref := by
  have part := le_total (fun q => (procs q).count ip) running
  rw [nodes.count ip]
  omega

theorem live_held (member : (ip, r) ∈ (procs q).held) : 0 < (itable ip).ref :=
  nodes.live (nodes.runs member) (Own.count_pos member)

theorem two (running : q < cfg.nproc) (also : r < cfg.nproc) (different : r ≠ q)
    (some : 0 < (procs q).count ip) (other : 0 < (procs r).count ip) : 1 < (itable ip).ref := by
  have part := two_le_total (fun q => (procs q).count ip) running also different
  rw [nodes.count ip]
  omega

theorem one_and_file (running : q < cfg.nproc) (some : 0 < (procs q).count ip) (low : f < nfile)
    (here : (ftable f).node = .some ip) : 1 < (itable ip).ref := by
  have part := le_total (fun q => (procs q).count ip) running
  have file := le_total (fun f => points (ftable f).node ip) low
  simp only [here, points_same] at file
  rw [nodes.count ip]
  omega

end Facts

theorem congr (nodes : NodesOk cfg itable ftable procs)
    (slots : ∀ jp, (itable' jp).ref = (itable jp).ref ∧ (itable' jp).inum = (itable jp).inum) :
    NodesOk cfg itable' ftable procs where
  inside jp := by
    rw [(slots jp).1]
    exact nodes.inside jp
  unique jp kp := by
    rw [(slots jp).1, (slots kp).1, (slots jp).2, (slots kp).2]
    exact nodes.unique jp kp
  count jp := by
    rw [(slots jp).1]
    exact nodes.count jp
  held q r := by
    rw [(slots r.1).2]
    exact nodes.held q r
  outside := nodes.outside

theorem changed (nodes : NodesOk cfg itable ftable procs) (running : q < cfg.nproc) (low : f < nfile)
    (count : ∀ jp, (update itable ip node jp).ref + ((procs q).count jp + points (ftable f).node jp) =
      (itable jp).ref + (own.count jp + points file.node jp))
    (slot : 0 < node.ref → ip < ninode)
    (unique : 0 < node.ref → ∀ jp, jp ≠ ip → 0 < (itable jp).ref → (itable jp).inum ≠ node.inum)
    (same : 0 < (itable ip).ref → node.inum = (itable ip).inum)
    (held : ∀ r ∈ own.held, (update itable ip node r.1).inum = r.2) :
    NodesOk cfg (update itable ip node) (update ftable f file) (update procs q own) := by
  refine ⟨fun jp live => ?_, fun jp kp live also equal => ?_, fun jp => ?_, fun p => ?_, fun p out => ?_⟩
  · by_cases here : jp = ip
    · rw [here, update_self] at live
      rw [here]
      exact slot live
    · rw [update_of_ne here] at live
      exact nodes.inside jp live
  · by_cases here : jp = ip
    · by_cases there : kp = ip
      · rw [here, there]
      · rw [update_of_ne there] at also equal
        rw [here, update_self] at live equal
        exact absurd equal.symm (unique live kp there also)
    rw [update_of_ne here] at live equal
    by_cases there : kp = ip
    · rw [there, update_self] at also equal
      exact absurd equal (unique also jp here live)
    · rw [update_of_ne there] at also equal
      exact nodes.unique jp kp live also equal
  · have before := nodes.count jp
    have change := count jp
    have processes := total_update procs own (fun own => own.count jp) running
    have files := total_update ftable file (fun file => points file.node jp) low
    omega
  · by_cases mine : p = q
    · rw [mine, update_self]
      exact held
    rw [update_of_ne mine]
    intro r member
    have live := nodes.live_held member
    by_cases here : r.1 = ip
    · rw [here, update_self, same (here ▸ live), ← here]
      exact nodes.held p r member
    · rw [update_of_ne here]
      exact nodes.held p r member
  · have different : p ≠ q := by omega
    rw [update_of_ne different]
    exact nodes.outside p out

theorem moved (nodes : NodesOk cfg itable ftable procs) (running : q < cfg.nproc)
    (count : ∀ jp, (update itable ip node jp).ref + (procs q).count jp = (itable jp).ref + own.count jp)
    (slot : 0 < node.ref → ip < ninode)
    (unique : 0 < node.ref → ∀ jp, jp ≠ ip → 0 < (itable jp).ref → (itable jp).inum ≠ node.inum)
    (same : 0 < (itable ip).ref → node.inum = (itable ip).inum)
    (held : ∀ r ∈ own.held, (update itable ip node r.1).inum = r.2) :
    NodesOk cfg (update itable ip node) ftable (update procs q own) := by
  have low : 0 < nfile := by decide
  have all : NodesOk cfg (update itable ip node) (update ftable 0 (ftable 0)) (update procs q own) := by
    refine nodes.changed running low (fun jp => ?_) slot unique same held
    have change := count jp
    omega
  rwa [update_id] at all

theorem passed (nodes : NodesOk cfg itable ftable procs) (running : q < cfg.nproc) (low : f < nfile)
    (count : ∀ jp, (procs q).count jp + points (ftable f).node jp = own.count jp + points file.node jp)
    (held : ∀ r ∈ own.held, (itable r.1).inum = r.2) :
    NodesOk cfg itable (update ftable f file) (update procs q own) where
  inside := nodes.inside
  unique := nodes.unique
  count jp := by
    have before := nodes.count jp
    have change := count jp
    have processes := total_update procs own (fun own => own.count jp) running
    have files := total_update ftable file (fun file => points file.node jp) low
    omega
  held p := by
    by_cases mine : p = q
    · rw [mine, update_self]
      exact held
    · rw [update_of_ne mine]
      exact nodes.held p
  outside p out := by
    have different : p ≠ q := by omega
    rw [update_of_ne different]
    exact nodes.outside p out

end NodesOk

namespace FilesOk

section Facts

variable (files : FilesOk cfg ftable procs share)
include files

theorem live (running : q < cfg.nproc) (some : 0 < (procs q).shares (share q) f) : 0 < (ftable f).ref := by
  have part := le_total (fun q => (procs q).shares (share q) f) running
  rw [files.count f]
  omega

theorem only (running : q < cfg.nproc) (one : (ftable f).ref = 1) (some : 0 < (procs q).shares (share q) f)
    (also : r < cfg.nproc) (different : r ≠ q) : (procs r).shares (share r) f = 0 := by
  have sum := files.count f
  have two := two_le_total (fun q => (procs q).shares (share q) f) running also different
  omega

theorem alone (running : q < cfg.nproc) (mine : 0 < (procs q).shares (share q) f) (also : r < cfg.nproc)
    (different : r ≠ q) : f ∉ (share r).fresh := by
  intro member
  have fresh := files.fresh r f member
  have none := files.only running fresh.ref mine also different
  have some := fresh.mine
  omega

end Facts

theorem congr (files : FilesOk cfg ftable procs share) {procs' : Nat → Own} {share' : Nat → Share}
    (shares : ∀ q f, (procs' q).shares (share' q) f = (procs q).shares (share q) f)
    (fresh : ∀ q, (share' q).fresh = (share q).fresh) : FilesOk cfg ftable procs' share' := by
  refine { files with count := fun f => ?_, fresh := fun q f member => ?_, distinct := fun q => ?_ }
  · simp only [shares]
    exact files.count f
  · rw [fresh] at member
    have before := files.fresh q f member
    refine { before with mine := ?_ }
    rw [shares]
    exact before.mine
  · rw [fresh]
    exact files.distinct q

theorem changed (files : FilesOk cfg ftable procs share) (running : q < cfg.nproc)
    (count : ∀ g, (update ftable f file g).ref + (procs q).shares (share q) g = (ftable g).ref + own.shares sh g)
    (slot : 0 < file.ref → f < nfile) (closed : file.ref = 0 → file.type = .none)
    (alone : ∀ r, r ≠ q → f ∉ (share r).fresh)
    (fresh : ∀ g ∈ sh.fresh, FreshOk (update ftable f file g) own sh g) (distinct : sh.fresh.Nodup) :
    FilesOk cfg (update ftable f file) (update procs q own) (update share q sh) := by
  refine ⟨fun g live => ?_, fun g => ?_, fun g none => ?_, fun r g member => ?_, fun r => ?_⟩
  · by_cases here : g = f
    · rw [here, update_self] at live
      rw [here]
      exact slot live
    · rw [update_of_ne here] at live
      exact files.inside g live
  · have change := total_change (fun q => (procs q).shares (share q) g)
      (fun r => (update procs q own r).shares (update share q sh r) g) running
      fun r _ different => by rw [update_of_ne different, update_of_ne different]
    simp only [update_self] at change
    have before := files.count g
    have after := count g
    omega
  · by_cases here : g = f
    · rw [here, update_self] at none ⊢
      exact closed none
    · rw [update_of_ne here] at none ⊢
      exact files.closed g none
  · by_cases mine : r = q
    · rw [mine, update_self] at member ⊢
      rw [update_self]
      exact fresh g member
    rw [update_of_ne mine] at member ⊢
    have other : g ≠ f := fun here => alone r mine (here ▸ member)
    rw [update_of_ne mine, update_of_ne other]
    exact files.fresh r g member
  · by_cases mine : r = q
    · rw [mine, update_self]
      exact distinct
    · rw [update_of_ne mine]
      exact files.distinct r

end FilesOk

namespace PipesOk

theorem congr (ok : PipesOk cfg ftable pipes share) {share' : Nat → Share}
    (ends : ∀ q, (share' q).ends = (share q).ends) : PipesOk cfg ftable pipes share' := by
  refine { ok with ends := fun p writable => ?_ }
  simp only [ends]
  exact ok.ends p writable

theorem changed (ok : PipesOk cfg ftable pipes share) (running : q < cfg.nproc) (low : f < nfile)
    (sides : file.type = .pipe → file.readable = !file.writable)
    (ends : ∀ p writable, file.isEnd p writable + sh.ends.count (p, writable) =
      (ftable f).isEnd p writable + (share q).ends.count (p, writable)) :
    PipesOk cfg (update ftable f file) pipes (update share q sh) := by
  refine { ok with sides := fun g pipe => ?_, ends := fun p writable => ?_ }
  · by_cases here : g = f
    · rw [here, update_self] at pipe ⊢
      exact sides pipe
    · rw [update_of_ne here] at pipe ⊢
      exact ok.sides g pipe
  have before := ok.ends p writable
  have change := ends p writable
  have files := total_update ftable file (fun file => file.isEnd p writable) low
  have shares := total_update share sh (fun sh => sh.ends.count (p, writable)) running
  omega

end PipesOk

namespace ProcsOk

variable {ftable' : Nat → File}

theorem runs (ok : ProcsOk cfg ftable procs share) (alive : (procs q).stage ≠ .unused) : q < cfg.nproc := by
  by_contra out
  exact alive (ok.outside q (Nat.le_of_not_lt out))

theorem shares_use (ok : ProcsOk cfg ftable procs share) {u : Use} (member : u ∈ (share q).uses) :
    0 < (procs q).shares (share q) u.f := by
  obtain ⟨inside, here, _⟩ := (ok.each q).uses u member
  exact Own.shares_of_slot inside here

theorem runs_use (ok : ProcsOk cfg ftable procs share) {u : Use} (member : u ∈ (share q).uses) : q < cfg.nproc := by
  apply ok.runs
  intro unused
  obtain ⟨inside, here, _⟩ := (ok.each q).uses u member
  have none := ((ok.each q).empty (.inl unused)).2 u.fd inside
  rw [Own.slot, none, ite_self] at here
  cases here

theorem changed (ok : ProcsOk cfg ftable procs share) (alive : (procs q).stage = .live)
    (mine : OwnOk ftable' own sh)
    (others : ∀ r, r ≠ q → ∀ u ∈ (share r).uses, (ftable' u.f).node = (ftable u.f).node)
    (child : sh.child = (share q).child) :
    ProcsOk cfg ftable' (update procs q own) (update share q sh) := by
  have children : ∀ r, (update share q sh r).child = (share r).child := by
    intro r
    by_cases here : r = q
    · rw [here, update_self, child]
    · rw [update_of_ne here]
  refine ⟨fun r out => ?_, fun r => ?_, fun r c k is => ?_, fun r p c k l first second => ?_⟩
  · have different : r ≠ q := by
      rintro rfl
      rw [ok.outside r out] at alive
      cases alive
    rw [update_of_ne different]
    exact ok.outside r out
  · by_cases here : r = q
    · rw [here, update_self, update_self]
      exact mine
    rw [update_of_ne here, update_of_ne here]
    have each := ok.each r
    refine { each with uses := fun u member => ?_ }
    rw [others r here u member]
    exact each.uses u member
  · rw [children] at is
    have is := ok.child r c k is
    have different : c ≠ q := by
      rintro rfl
      rw [is.stage] at alive
      cases alive
    rwa [update_of_ne different]
  · rw [children] at first second
    exact ok.parent r p c k l first second

end ProcsOk

theorem LocksOk.changed (locks : LocksOk itable procs share)
    (others : ∀ jp r, r ≠ q → (itable' jp).lock = some r → (itable jp).lock = some r)
    (mine : ∀ jp, (itable' jp).lock = some q → Refers own.held sh jp) :
    LocksOk itable' (update procs q own) (update share q sh) := by
  intro jp r locked
  by_cases here : r = q
  · rw [here, update_self, update_self]
    exact mine jp (here ▸ locked)
  · rw [update_of_ne here, update_of_ne here]
    exact locks jp r (others jp r here locked)

end Xv6.Names

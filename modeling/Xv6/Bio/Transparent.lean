import Xv6.Bio.Uses

/-!
The cache, the log and the disk together are one map from blocks to data. A valid buffer
holds the data of its block's latest modification; a block without one has them on the disk.
-/

namespace Xv6.Bio

open Function List System Option
open Lib
open Lib.RedoLog (Area)
open Log (Block logBlocks area encodeHead)

/-- Buffers are read, changed, logged and released, in an operation if they are changed. -/
def Follows (start : Nat) (sys : System) : Label → Prop
  | .bget _ dev _ => dev = rootDev
  | .modify h _ => h.pid ∈ sys.ops ∧ ¬ (area start).Owns h.blockno
  | .logWrite h => h.pid ∈ sys.ops ∧ h.dev = rootDev ∧ ¬ (area start).Owns h.blockno
  | .releasesleep h => h.dirty = false
  | .endOp pid => ∀ h ∈ sys.handles, h.pid ≠ pid
  | _ => True

instance (start : Nat) (sys : System) (label : Label) : Decidable (Follows start sys label) :=
  match label with
  | .bget _ dev _ => inferInstanceAs (Decidable (dev = rootDev))
  | .modify _ _ | .logWrite _ => inferInstanceAs (Decidable (_ ∧ _))
  | .releasesleep h => inferInstanceAs (Decidable (h.dirty = false))
  | .endOp pid => inferInstanceAs (Decidable (∀ h ∈ sys.handles, h.pid ≠ pid))
  | .beginOp _ | .acquiresleep _ | .fill _ | .brelse _ | .commit => inferInstanceAs (Decidable True)

theorem Follows.calls {start : Nat} {sys : System} {label : Label} (follows : Follows start sys label) :
    Calls start sys label := by
  cases label with
  | logWrite h => exact follows.2
  | endOp pid => exact follows
  | _ => trivial

structure Flat (sys : System) : Prop where
  root : ∀ h ∈ sys.handles, h.dev = rootDev
  ready : ∀ h ∈ sys.handles, h.stage = .ready → (sys.bc.bufs h.buf).valid = true
  dirty : ∀ h ∈ sys.handles, h.dirty = true → h.stage = .ready
  fresh : ∀ i < nbuf, (sys.bc.bufs i).dev = rootDev → (sys.bc.bufs i).valid = true →
    (sys.bc.bufs i).data = sys.latest (sys.bc.bufs i).blockno
  sure : ∀ i < nbuf, (sys.bc.bufs i).dev = rootDev → (sys.bc.bufs i).blockno ∈ sys.pinned →
    (sys.bc.bufs i).valid = true
  clean : ∀ b, sys.latest b = sys.disk b ∨ b ∈ sys.pinned ∨ ∃ h ∈ sys.handles, h.dirty = true ∧ h.blockno = b

structure View where
  latest : Nat → Block
  disk : Nat → Block
  dirty : Nat → Bool

/-- What the commands do to the view, with what has to hold for each, ends in `post`. -/
def Meets (start : Nat) (lh : List Nat) : List Cmd → View → (View → Prop) → Prop
  | [], view, post => post view
  | .memmove dst src :: rest, view, post =>
    if (area start).Owns dst then
      Meets start lh rest ⟨update view.latest dst (view.latest src), view.disk,
        update view.dirty dst true⟩ post
    else view.latest src = view.latest dst ∧
      Meets start lh rest ⟨view.latest, view.disk, update view.dirty dst true⟩ post
  | .setHead blockno :: rest, view, post =>
    Meets start lh rest ⟨update view.latest blockno (encodeHead (view.latest blockno) lh),
      view.disk, update view.dirty blockno true⟩ post
  | .bwrite blockno :: rest, view, post =>
    Meets start lh rest ⟨view.latest, update view.disk blockno (view.latest blockno),
      update view.dirty blockno false⟩ post
  | .bunpin blockno :: rest, view, post =>
    view.disk blockno = view.latest blockno ∧ Meets start lh rest view post
  | .releasesleep blockno :: rest, view, post =>
    view.dirty blockno = false ∧ Meets start lh rest view post
  | .bget _ :: rest, view, post | .acquired _ :: rest, view, post | .brelse _ :: rest, view, post =>
    Meets start lh rest view post

def Copied (start : Nat) (lh : List Nat) (count : Nat) (latest : Nat → Block) : Prop :=
  ∀ index < count, ∀ b, lh[index]? = some b → latest ((area start).slot index) = latest b

def Place.After (start : Nat) (lh : List Nat) : Place → View → Prop
  | .writeLog tail, view => (∀ b, view.dirty b = false) ∧ Copied start lh (tail + 1) view.latest
  | .writeHead, view | .installTrans _, view =>
    (∀ b, view.dirty b = false) ∧ Copied start lh lh.length view.latest
  | .clearHead, view | .finish, view => ∀ b, view.dirty b = false

structure Books (start : Nat) (sys : System) : Prop where
  ops : sys.outstanding = sys.ops.length
  homes : ∀ b ∈ sys.lh, ¬ (area start).Owns b
  room : sys.lh.length ≤ logBlocks
  commit : sys.panic = none → ∀ c, sys.commit = some c → ∃ dirty : Nat → Bool,
    (∀ h ∈ sys.handles, h.pid = c.pid → h.dirty = true → dirty h.blockno = true) ∧
    Meets start sys.lh c.code ⟨sys.latest, sys.disk, dirty⟩ (c.place.After start sys.lh)

variable {start pid dev blockno : Nat} {sys next : System} {h h' : Handle} {buf : Buf} {c : Commit}

section Turns

variable {lh : List Nat} {tail b : Nat} {view : View}

theorem owns_slot (entry : lh[tail]? = some b) (room : lh.length ≤ logBlocks) :
    (area start).Owns ((area start).slot tail) :=
  Area.owns_slot (Nat.lt_of_lt_of_le (List.getElem?_eq_some_iff.mp entry).1 room)

theorem home_ne {place : Nat} (home : ¬ (area start).Owns b) (inside : (area start).Owns place) : b ≠ place := by
  rintro rfl
  exact home inside

theorem meets_writeLogCode (homes : ∀ b ∈ lh, ¬ (area start).Owns b) (room : lh.length ≤ logBlocks)
    (entry : lh[tail]? = some b) (clean : ∀ b, view.dirty b = false) (copied : Copied start lh tail view.latest) :
    Meets start lh (writeLogCode start tail b) view (Place.After start lh (.writeLog tail)) := by
  have inside : (area start).Owns ((area start).slot tail) := owns_slot entry room
  have apart := home_ne (homes b (mem_of_getElem? entry)) inside
  simp only [writeLogCode, breadCode, brelseCode, cons_append, nil_append, Meets, if_pos inside,
    update_self, update_of_ne apart, update_idem]
  refine ⟨clean b, trivial, fun place => ?_, fun index bound other found => ?_⟩
  all_goals dsimp only
  · by_cases same : place = (area start).slot tail
    · rw [same, update_self]
    · rw [update_of_ne same]
      exact clean place
  rw [update_of_ne (home_ne (homes other (mem_of_getElem? found)) inside)]
  obtain rfl | last := eq_or_ne index tail
  · rw [update_self, Option.some.inj (entry.symm.trans found)]
  have slots : (area start).slot index ≠ (area start).slot tail := by
    simp only [Area.slot]
    omega
  rw [update_of_ne slots]
  exact copied index (by omega) other found

theorem meets_headCode {post : View → Prop} (clean : ∀ b, view.dirty b = false)
    (after : ∀ disk data, post ⟨update view.latest start data, disk, view.dirty⟩) :
    Meets start lh (headCode start) view post := by
  have same : update view.dirty start false = view.dirty := by
    rw [← clean start, update_eq_self]
  simp only [headCode, breadCode, brelseCode, cons_append, nil_append, Meets,
    update_self, update_idem, same]
  exact ⟨trivial, after _ _⟩

theorem Copied.head (copied : Copied start lh lh.length view.latest)
    (homes : ∀ b ∈ lh, ¬ (area start).Owns b) (data : Block) :
    Copied start lh lh.length (update view.latest start data) := by
  intro index bound b found
  have inside : (area start).Owns start := Area.owns_start
  have away := home_ne (homes b (mem_of_getElem? found)) inside
  have slot : (area start).slot index ≠ start := Area.slot_ne_start
  rw [update_of_ne slot, update_of_ne away]
  exact copied index bound b found

theorem meets_installCode (homes : ∀ b ∈ lh, ¬ (area start).Owns b) (room : lh.length ≤ logBlocks)
    (entry : lh[tail]? = some b) (clean : ∀ b, view.dirty b = false)
    (copied : Copied start lh lh.length view.latest) :
    Meets start lh (installCode start tail b) view (Place.After start lh (.installTrans tail)) := by
  have inside : (area start).Owns ((area start).slot tail) := owns_slot entry room
  have home := homes b (mem_of_getElem? entry)
  have apart := home_ne home inside
  have bound := (List.getElem?_eq_some_iff.mp entry).1
  have same : update view.dirty b false = view.dirty := by
    rw [← clean b, update_eq_self]
  simp only [installCode, breadCode, brelseCode, cons_append, nil_append, Meets, if_neg home,
    update_self, update_idem, same]
  exact ⟨copied tail bound b entry, trivial, clean _, trivial, clean, copied⟩

end Turns

def SameData (bc old : Bcache) : Prop := ∀ i, (bc.bufs i).dev = (old.bufs i).dev ∧
  (bc.bufs i).blockno = (old.bufs i).blockno ∧ (bc.bufs i).valid = (old.bufs i).valid ∧
  (bc.bufs i).data = (old.bufs i).data

theorem SameData.refl (bc : Bcache) : SameData bc bc := fun _ => ⟨rfl, rfl, rfl, rfl⟩

theorem Flat.still (flat : Flat sys) (latest : next.latest = sys.latest) (disk : next.disk = sys.disk)
    (pinned : next.pinned = sys.pinned) (bufs : SameData next.bc sys.bc)
    (users : ∀ h ∈ next.handles, h.dev = rootDev ∧ (h.stage = .ready → (sys.bc.bufs h.buf).valid = true) ∧
      (h.dirty = true → h.stage = .ready))
    (kept : ∀ h ∈ sys.handles, h.dirty = true → ∃ h' ∈ next.handles, h'.dirty = true ∧ h'.blockno = h.blockno) :
    Flat next := by
  refine ⟨fun h found => (users h found).1, fun h found ready => ?_, fun h found => (users h found).2.2,
    fun i inside => ?_, fun i inside => ?_, fun b => ?_⟩
  · rw [(bufs h.buf).2.2.1]
    exact (users h found).2.1 ready
  · rw [(bufs i).1, (bufs i).2.1, (bufs i).2.2.1, (bufs i).2.2.2, latest]
    exact flat.fresh i inside
  · rw [(bufs i).1, (bufs i).2.1, (bufs i).2.2.1, pinned]
    exact flat.sure i inside
  · rw [latest, disk, pinned]
    exact (flat.clean b).imp_right (Or.imp_right fun ⟨h, found, dirty, block⟩ => block ▸ kept h found dirty)

theorem put_data {bc : Bcache} {b : Nat} (dev : buf.dev = (bc.bufs b).dev)
    (blockno : buf.blockno = (bc.bufs b).blockno) (valid : buf.valid = (bc.bufs b).valid)
    (data : buf.data = (bc.bufs b).data) : SameData (bc.put b buf) bc := by
  intro i
  by_cases here : i = b
  · rw [here, put_same]
    exact ⟨dev, blockno, valid, data⟩
  · rw [put_other here]
    exact ⟨rfl, rfl, rfl, rfl⟩

theorem refcnt_data (bc : Bcache) (b n : Nat) : SameData (bc.put b { bc.bufs b with refcnt := n }) bc :=
  put_data rfl rfl rfl rfl

theorem Flat.user (flat : Flat sys) (found : h ∈ sys.handles) :
    h.dev = rootDev ∧ (h.stage = .ready → (sys.bc.bufs h.buf).valid = true) ∧
      (h.dirty = true → h.stage = .ready) :=
  ⟨flat.root h found, flat.ready h found, flat.dirty h found⟩

theorem Flat.change (flat : Flat sys) (found : h ∈ sys.handles) (clean : h.dirty = false)
    (dev : buf.dev = (sys.bc.bufs h.buf).dev) (blockno : buf.blockno = (sys.bc.bufs h.buf).blockno)
    (valid : buf.valid = (sys.bc.bufs h.buf).valid) (data : buf.data = (sys.bc.bufs h.buf).data)
    (sameDev : h'.dev = h.dev) (ready : h'.stage = .ready → (sys.bc.bufs h'.buf).valid = true)
    (sameDirty : h'.dirty = h.dirty) : Flat (sys.change h h' buf) := by
  refine flat.still rfl rfl rfl (put_data dev blockno valid data) (fun other member => ?_)
    fun other member dirty => ?_
  · rcases mem_cons.mp member with rfl | old
    · rw [sameDirty, clean]
      exact ⟨sameDev.trans (flat.root h found), ready, by simp⟩
    · exact flat.user (mem_of_mem_erase old)
  have apart : other ≠ h := by
    rintro rfl
    simp [clean] at dirty
  exact ⟨other, mem_cons_of_mem _ ((mem_erase_of_ne apart).mpr member), dirty, rfl⟩

theorem flat_bget (inv : Inv sys) (flat : Flat sys) : Flat (sys.bget pid rootDev blockno) := by
  have users : ∀ b, ∀ other ∈ ⟨pid, rootDev, blockno, b, .waiting, false⟩ :: sys.handles,
      other.dev = rootDev ∧ (other.stage = .ready → (sys.bc.bufs other.buf).valid = true) ∧
        (other.dirty = true → other.stage = .ready) := by
    intro b other member
    rcases mem_cons.mp member with rfl | old
    · exact ⟨rfl, by simp, by simp⟩
    · exact flat.user old
  rw [System.bget]
  rcases bget_cases inv.shape rootDev blockno with ⟨b, inside, sameDev, sameBlock, got⟩ |
    ⟨absent, ⟨b, inside, unused, got⟩ | ⟨_, got⟩⟩
  · rw [got]
    refine flat.still rfl rfl rfl (refcnt_data sys.bc b _) (users b) fun other member dirty => ?_
    exact ⟨other, mem_cons_of_mem _ member, dirty, rfl⟩
  · rw [got]
    have counted := inv.shape.counted b inside
    have elsewhere : ∀ other ∈ sys.handles, other.buf ≠ b :=
      fun other found => useCount_eq_zero (by omega) found
    refine ⟨fun other member => (users b other member).1, fun other member ready => ?_,
      fun other member => (users b other member).2.2, fun i bound root valid => ?_, fun i bound root listed => ?_,
      fun place => ?_⟩
    · rcases mem_cons.mp member with rfl | old
      · cases ready
      · dsimp only
        rw [put_other (elsewhere other old)]
        exact flat.ready other old ready
    · dsimp only at root valid ⊢
      by_cases here : i = b
      · rw [here, put_same] at valid
        cases valid
      · rw [put_other here] at root valid ⊢
        exact flat.fresh i bound root valid
    · dsimp only at root listed ⊢
      by_cases here : i = b
      · -- the block was in no buffer, so the log has not pinned it
        rw [here, put_same] at listed
        obtain ⟨j, within, facts⟩ := inv.shape.cached _ listed
        exact absurd facts (absent j within)
      · rw [put_other here] at root listed ⊢
        exact flat.sure i bound root listed
    · rcases flat.clean place with same | listed | ⟨other, member, facts⟩
      · exact .inl same
      · exact .inr (.inl listed)
      · exact .inr (.inr ⟨other, mem_cons_of_mem _ member, facts⟩)
  · rw [got]
    exact flat.still rfl rfl rfl (.refl _) (fun other member => flat.user member)
      fun other member dirty => ⟨other, member, dirty, rfl⟩

theorem Inv.buffer_unique (inv : Inv sys) (flat : Flat sys) (found : h ∈ sys.handles) {i : Nat} (inside : i < nbuf)
    (root : (sys.bc.bufs i).dev = rootDev) (block : (sys.bc.bufs i).blockno = h.blockno) : i = h.buf := by
  obtain ⟨bound, dev, blockno⟩ := inv.shape.placed h found
  refine inv.shape.unique i inside h.buf bound ?_ ?_ (block.trans blockno.symm)
  · rw [root]
    decide
  · rw [root, dev, flat.root h found]

theorem Inv.data_ready (inv : Inv sys) (flat : Flat sys) (found : h ∈ sys.handles) (ready : h.stage = .ready) :
    (sys.bc.bufs h.buf).data = sys.latest h.blockno := by
  obtain ⟨inside, dev, block⟩ := inv.shape.placed h found
  rw [← block]
  exact flat.fresh h.buf inside (dev.trans (flat.root h found)) (flat.ready h found ready)

theorem Flat.renew (flat : Flat sys) (inv : Inv sys) (found : h ∈ sys.handles)
    (handles : next.handles = h' :: sys.handles.erase h)
    (others : ∀ i, i ≠ h.buf → next.bc.bufs i = sys.bc.bufs i) (valid : (next.bc.bufs h.buf).valid = true)
    (data : (next.bc.bufs h.buf).data = next.latest h.blockno)
    (block : (next.bc.bufs h.buf).blockno = (sys.bc.bufs h.buf).blockno)
    (mine : h'.dev = h.dev ∧ h'.blockno = h.blockno ∧ h'.buf = h.buf ∧ h'.stage = .ready)
    (elsewhere : ∀ b, b ≠ h.blockno → next.latest b = sys.latest b ∧ next.disk b = sys.disk b ∧
      (b ∈ next.pinned ↔ b ∈ sys.pinned))
    (safe : next.latest h.blockno = next.disk h.blockno ∨ h.blockno ∈ next.pinned ∨ h'.dirty = true) :
    Flat next := by
  obtain ⟨_, _, blockno⟩ := inv.shape.placed h found
  have users : ∀ other ∈ next.handles, other = h' ∨ other ∈ sys.handles := fun other member =>
    (mem_cons.mp (handles ▸ member)).imp_right mem_of_mem_erase
  have apart : ∀ i < nbuf, i ≠ h.buf → (sys.bc.bufs i).dev = rootDev → (sys.bc.bufs i).blockno ≠ h.blockno :=
    fun i inside other root same => other (inv.buffer_unique flat found inside root same)
  refine ⟨fun other member => ?_, fun other member ready => ?_, fun other member dirty => ?_,
    fun i inside root validNow => ?_, fun i inside root listed => ?_, fun b => ?_⟩
  · rcases users other member with rfl | old
    · exact mine.1.trans (flat.root h found)
    · exact flat.root other old
  · by_cases here : other.buf = h.buf
    · rw [here, valid]
    rw [others _ here]
    rcases users other member with rfl | old
    · exact absurd mine.2.2.1 here
    · exact flat.ready other old ready
  · rcases users other member with rfl | old
    · exact mine.2.2.2
    · exact flat.dirty other old dirty
  · by_cases here : i = h.buf
    · rw [here, block, blockno, data]
    · rw [others i here] at root validNow ⊢
      rw [(elsewhere _ (apart i inside here root)).1]
      exact flat.fresh i inside root validNow
  · by_cases here : i = h.buf
    · rw [here, valid]
    · rw [others i here] at root listed ⊢
      exact flat.sure i inside root ((elsewhere _ (apart i inside here root)).2.2.mp listed)
  · by_cases same : b = h.blockno
    · rw [same]
      refine safe.imp_right (Or.imp_right fun dirty => ⟨h', ?_, dirty, mine.2.1⟩)
      rw [handles]
      exact mem_cons_self
    obtain ⟨latest, disk, pinned⟩ := elsewhere b same
    rw [latest, disk, pinned]
    refine (flat.clean b).imp_right (Or.imp_right fun ⟨other, member, dirty, is⟩ => ⟨other, ?_, dirty, is⟩)
    have different : other ≠ h := by
      rintro rfl
      exact same is.symm
    rw [handles]
    exact mem_cons_of_mem _ ((mem_erase_of_ne different).mpr member)

theorem flat_fill (inv : Inv sys) (flat : Flat sys) (found : h ∈ sys.handles) (locked : h.stage = .locked) :
    Flat (sys.fill h) := by
  obtain ⟨bound, dev, blockno⟩ := inv.shape.placed h found
  have clean : h.dirty = false := by
    cases dirty : h.dirty with
    | false => rfl
    | true => exact absurd (locked.symm.trans (flat.dirty h found dirty)) (by simp)
  rw [System.fill]
  by_cases valid : (sys.bc.bufs h.buf).valid = true
  · rw [if_pos valid]
    exact flat.change found clean rfl rfl rfl rfl rfl (fun _ => valid) rfl
  rw [if_neg valid]
  -- an invalid buffer is neither pinned nor changed by anyone: its block is on the disk
  have stored : sys.latest h.blockno = sys.disk h.blockno := by
    rcases flat.clean h.blockno with same | listed | ⟨other, member, dirty, block⟩
    · exact same
    · exact absurd (flat.sure h.buf bound (dev.trans (flat.root h found)) (blockno ▸ listed)) valid
    · obtain ⟨within, otherDev, otherBlock⟩ := inv.shape.placed other member
      have same : other.buf = h.buf := inv.buffer_unique flat found within
        (otherDev.trans (flat.root other member)) (otherBlock.trans block)
      have ready := flat.ready other member (flat.dirty other member dirty)
      rw [same] at ready
      exact absurd ready valid
  refine flat.renew inv found rfl (fun i here => put_other here) ?_ ?_ ?_ ⟨rfl, rfl, rfl, rfl⟩
    (fun _ _ => ⟨rfl, rfl, Iff.rfl⟩) (.inl stored)
  all_goals dsimp only [System.change]
  · rw [put_same]
  · rw [put_same, stored, blockno]
  · rw [put_same]

theorem flat_store {data : Block} {latest : Nat → Block} (inv : Inv sys) (flat : Flat sys) (found : h ∈ sys.handles)
    (ready : h.stage = .ready) (here : latest h.blockno = data)
    (others : ∀ place, place ≠ h.blockno → latest place = sys.latest place) :
    Flat { sys.store h data with latest := latest } := by
  refine flat.renew inv found rfl (fun i here => put_other here) ?_ ?_ ?_ ⟨rfl, rfl, rfl, ready⟩
    (fun b other => ⟨others b other, rfl, Iff.rfl⟩) (.inr (.inr rfl))
  all_goals dsimp only [store, System.change]
  · rw [put_same]
    exact flat.ready h found ready
  · rw [put_same, here]
  · rw [put_same]

theorem Flat.congr (flat : Flat sys) (bc : next.bc = sys.bc) (handles : next.handles = sys.handles)
    (latest : next.latest = sys.latest) (disk : next.disk = sys.disk) (pinned : next.pinned = sys.pinned) :
    Flat next := by
  refine flat.still latest disk pinned (fun i => bc ▸ ⟨rfl, rfl, rfl, rfl⟩) (fun other member => ?_)
    fun other member dirty => ⟨other, handles ▸ member, dirty, rfl⟩
  exact flat.user (handles ▸ member)

theorem flat_bwrite (inv : Inv sys) (flat : Flat sys) (found : h ∈ sys.handles) (ready : h.stage = .ready) :
    Flat (sys.bwrite h) := by
  obtain ⟨_, _, blockno⟩ := inv.shape.placed h found
  have data := inv.data_ready flat found ready
  rw [System.bwrite]
  dsimp only
  split
  · refine flat.renew inv found rfl (fun i here => put_other here) ?_ ?_ ?_ ⟨rfl, rfl, rfl, ready⟩
      (fun b other => ⟨rfl, ?_, Iff.rfl⟩) (.inl ?_)
    all_goals dsimp only [System.change]
    · rw [put_same]
      exact flat.ready h found ready
    · rw [put_same, data]
    · rw [put_same]
    · rw [blockno, update_of_ne other]
    · rw [blockno, update_self, data]
  · exact flat.congr rfl rfl rfl rfl rfl

theorem flat_logWrite (inv : Inv sys) (flat : Flat sys) (found : h ∈ sys.handles) (ready : h.stage = .ready) :
    Flat (sys.logWrite h) := by
  obtain ⟨_, _, blockno⟩ := inv.shape.placed h found
  have valid := flat.ready h found ready
  have data := inv.data_ready flat found ready
  rw [System.logWrite]
  dsimp only
  split
  · exact flat.congr rfl rfl rfl rfl rfl
  split
  · exact flat.congr rfl rfl rfl rfl rfl
  rename_i running
  have quiet : sys.commit = none := by
    cases here : sys.commit with
    | none => rfl
    | some c => exact absurd (inv.commit c here).outstanding (by omega)
  have pinned := (inv.calm quiet).2
  split
  · rename_i listed
    refine flat.renew inv found rfl (fun _ _ => rfl) valid data rfl ⟨rfl, rfl, rfl, ready⟩
      (fun _ _ => ⟨rfl, rfl, Iff.rfl⟩) (.inr (.inl ?_))
    rw [pinned, ← blockno]
    exact listed
  refine flat.renew inv found rfl (fun i here => put_other here) ?_ ?_ ?_ ⟨rfl, rfl, rfl, ready⟩
    (fun b other => ⟨rfl, rfl, ?_⟩) (.inr (.inl ?_))
  all_goals dsimp only [bpin]
  · rw [put_same, valid]
  · rw [put_same, data]
  · rw [put_same]
  · rw [mem_append, mem_singleton, blockno]
    exact or_iff_left other
  · rw [blockno]
    exact mem_append_right _ (mem_singleton.mpr rfl)

theorem flat_releasesleep (flat : Flat sys) (found : h ∈ sys.handles) (clean : h.dirty = false) :
    Flat (sys.releasesleep h) := by
  rw [System.releasesleep]
  split
  · exact flat.change found clean rfl rfl rfl rfl rfl (fun ready => by cases ready) rfl
  · exact flat.congr rfl rfl rfl rfl rfl

theorem flat_brelse (flat : Flat sys) (found : h ∈ sys.handles) (releasing : h.stage = .releasing) :
    Flat (sys.brelse h) := by
  refine flat.still rfl rfl rfl (fun i => ?_) (fun other member => flat.user (mem_of_mem_erase member))
    fun other member dirty => ?_
  · dsimp only [System.brelse]
    rw [brelse_bufs]
    exact refcnt_data sys.bc h.buf _ i
  have apart : other ≠ h := by
    rintro rfl
    exact absurd (releasing.symm.trans (flat.dirty other member dirty)) (by simp)
  exact ⟨other, (mem_erase_of_ne apart).mpr member, dirty, rfl⟩

theorem flat_bunpin (flat : Flat sys) (shape : Shape sys.bc sys.handles sys.pinned) (found : h ∈ sys.handles)
    (stored : sys.disk h.blockno = sys.latest h.blockno) : Flat (sys.bunpin h) := by
  obtain ⟨bound, dev, blockno⟩ := shape.placed h found
  have bufs := refcnt_data sys.bc h.buf ((sys.bc.bufs h.buf).refcnt - 1)
  refine ⟨flat.root, fun other member ready => ?_, flat.dirty, fun i inside => ?_, fun i inside root listed => ?_,
    fun place => ?_⟩
  · dsimp only [System.bunpin, bunpin]
    rw [(bufs other.buf).2.2.1]
    exact flat.ready other member ready
  · dsimp only [System.bunpin, bunpin]
    rw [(bufs i).1, (bufs i).2.1, (bufs i).2.2.1, (bufs i).2.2.2]
    exact flat.fresh i inside
  · dsimp only [System.bunpin, bunpin] at root listed ⊢
    rw [(bufs i).1] at root
    rw [(bufs i).2.1] at listed
    rw [(bufs i).2.2.1]
    exact flat.sure i inside root (mem_of_mem_erase listed)
  · by_cases block : place = h.blockno
    · rw [block]
      exact .inl stored.symm
    dsimp only [System.bunpin]
    rw [blockno]
    rcases flat.clean place with same | listed | facts
    · exact .inl same
    · exact .inr (.inl ((mem_erase_of_ne block).mpr listed))
    · exact .inr (.inr facts)

theorem Inv.quiet_of_op (inv : Inv sys) (books : Books start sys) (running : pid ∈ sys.ops) :
    sys.commit = none := by
  cases here : sys.commit with
  | none => rfl
  | some c =>
    have none := (inv.commit c here).outstanding
    rw [books.ops] at none
    have empty : sys.ops = [] := eq_nil_of_length_eq_zero none
    simp [empty] at running

theorem Books.still (books : Books start sys) (ops : next.ops = sys.ops)
    (outstanding : next.outstanding = sys.outstanding) (lh : next.lh = sys.lh) (commit : next.commit = sys.commit)
    (latest : next.latest = sys.latest) (disk : next.disk = sys.disk) (panic : next.panic = none → sys.panic = none)
    (users : ∀ h ∈ next.handles, h.dirty = true →
      ∃ old ∈ sys.handles, old.pid = h.pid ∧ old.blockno = h.blockno ∧ old.dirty = true) : Books start next := by
  refine ⟨by rw [outstanding, ops, books.ops], lh ▸ books.homes, lh ▸ books.room, fun running c here => ?_⟩
  obtain ⟨dirty, bound, meets⟩ := books.commit (panic running) c (commit ▸ here)
  rw [latest, disk, lh]
  refine ⟨dirty, fun h found mine changed => ?_, meets⟩
  obtain ⟨old, member, samePid, sameBlock, oldDirty⟩ := users h found changed
  exact sameBlock ▸ bound old member (samePid.trans mine) oldDirty

theorem mem_change_dirty {handles : List Handle} {other : Handle} (found : h ∈ handles)
    (member : other ∈ h' :: handles.erase h) (samePid : h'.pid = h.pid) (sameBlock : h'.blockno = h.blockno)
    (sameDirty : h'.dirty = h.dirty) (changed : other.dirty = true) :
    ∃ old ∈ handles, old.pid = other.pid ∧ old.blockno = other.blockno ∧ old.dirty = true := by
  rcases mem_cons.mp member with rfl | old
  · exact ⟨h, found, samePid.symm, sameBlock.symm, sameDirty ▸ changed⟩
  · exact ⟨other, mem_of_mem_erase old, rfl, rfl, changed⟩

theorem Books.change (books : Books start sys) (found : h ∈ sys.handles) (samePid : h'.pid = h.pid)
    (sameBlock : h'.blockno = h.blockno) (sameDirty : h'.dirty = h.dirty) : Books start (sys.change h h' buf) := by
  refine books.still rfl rfl rfl rfl rfl rfl id ?_
  intro other member changed
  exact mem_change_dirty found member samePid sameBlock sameDirty changed

theorem books_bget (books : Books start sys) : Books start (sys.bget pid dev blockno) := by
  rw [System.bget]
  split
  · refine books.still rfl rfl rfl rfl rfl rfl id ?_
    intro other member changed
    rcases mem_cons.mp member with rfl | old
    · cases changed
    · exact ⟨other, old, rfl, rfl, changed⟩
  refine books.still rfl rfl rfl rfl rfl rfl ?_ ?_
  · intro none
    cases none
  · intro other member changed
    exact ⟨other, member, rfl, rfl, changed⟩

theorem books_releasesleep (books : Books start sys) (found : h ∈ sys.handles) :
    Books start (sys.releasesleep h) := by
  rw [System.releasesleep]
  split
  · exact books.change found rfl rfl rfl
  refine books.still rfl rfl rfl rfl rfl rfl ?_ ?_
  · intro none
    cases none
  · intro other member changed
    exact ⟨other, member, rfl, rfl, changed⟩

theorem books_brelse (books : Books start sys) : Books start (sys.brelse h) := by
  refine books.still rfl rfl rfl rfl rfl rfl id ?_
  intro other member changed
  exact ⟨other, mem_of_mem_erase member, rfl, rfl, changed⟩

theorem Books.quiet (ops : next.outstanding = next.ops.length) (homes : ∀ b ∈ next.lh, ¬ (area start).Owns b)
    (room : next.lh.length ≤ logBlocks) (quiet : next.commit = none) : Books start next :=
  ⟨ops, homes, room, fun _ c here => absurd (quiet.symm.trans here) (by simp)⟩

theorem books_logWrite (inv : Inv sys) (books : Books start sys) (found : h ∈ sys.handles)
    (running : h.pid ∈ sys.ops) (home : ¬ (area start).Owns h.blockno) : Books start (sys.logWrite h) := by
  obtain ⟨_, _, blockno⟩ := inv.shape.placed h found
  have quiet := inv.quiet_of_op books running
  rw [System.logWrite]
  dsimp only
  split
  · exact .quiet books.ops books.homes books.room quiet
  split
  · exact .quiet books.ops books.homes books.room quiet
  rename_i short _
  split
  · exact .quiet books.ops books.homes books.room quiet
  refine .quiet books.ops (fun b listed => ?_) ?_ quiet
  · rcases mem_append.mp listed with old | new
    · exact books.homes b old
    · rw [mem_singleton.mp new, blockno]
      exact home
  · dsimp only
    rw [length_append, length_singleton]
    omega

theorem books_beginOp (inv : Inv sys) (books : Books start sys) (stepped : sys.beginOp pid = some next) :
    Books start next := by
  obtain ⟨free, stepped⟩ := ite_none_left_eq_some.mp stepped
  split at stepped
  · cases stepped
  cases stepped
  refine .quiet ?_ books.homes books.room ?_
  · dsimp only
    rw [books.ops, length_cons]
  · cases here : sys.commit with
    | none => rfl
    | some c => exact absurd (inv.commit c here).committing free

theorem books_writeLog {tail : Nat} (ops : sys.outstanding = sys.ops.length)
    (homes : ∀ b ∈ sys.lh, ¬ (area start).Owns b) (room : sys.lh.length ≤ logBlocks) {dirty : Nat → Bool}
    (bound : ∀ h ∈ sys.handles, h.pid = pid → h.dirty = true → dirty h.blockno = true)
    (clean : ∀ b, dirty b = false) (copied : Copied start sys.lh tail sys.latest) :
    Books start (sys.writeLog start pid tail) := by
  rw [writeLog]
  split
  · rename_i b entry
    refine ⟨ops, homes, room, fun _ c here => ?_⟩
    cases here
    exact ⟨dirty, bound, meets_writeLogCode homes room entry clean copied⟩
  rename_i none
  refine ⟨ops, homes, room, fun _ c here => ?_⟩
  cases here
  have short := List.getElem?_eq_none_iff.mp none
  have whole : Copied start sys.lh sys.lh.length sys.latest :=
    fun index bound => copied index (bound.trans_le short)
  exact ⟨dirty, bound, meets_headCode clean fun disk data => ⟨clean, whole.head homes data⟩⟩

theorem books_installTrans {tail : Nat} (ops : sys.outstanding = sys.ops.length)
    (homes : ∀ b ∈ sys.lh, ¬ (area start).Owns b) (room : sys.lh.length ≤ logBlocks) {dirty : Nat → Bool}
    (bound : ∀ h ∈ sys.handles, h.pid = pid → h.dirty = true → dirty h.blockno = true)
    (clean : ∀ b, dirty b = false) (copied : Copied start sys.lh sys.lh.length sys.latest) :
    Books start (sys.installTrans start pid tail) := by
  rw [installTrans]
  split
  · rename_i b entry
    refine ⟨ops, homes, room, fun _ c here => ?_⟩
    cases here
    exact ⟨dirty, bound, meets_installCode homes room entry clean copied⟩
  · refine ⟨ops, by simp, Nat.zero_le _, fun _ c here => ?_⟩
    cases here
    exact ⟨dirty, bound, meets_headCode clean fun disk data => clean⟩

theorem books_endOp (inv : Inv sys) (books : Books start sys) (done : ∀ h ∈ sys.handles, h.pid ≠ pid)
    (stepped : sys.endOp start pid = some next) : Books start next := by
  have bound : ∀ h ∈ sys.handles, h.pid = pid → h.dirty = true → (fun _ : Nat => false) h.blockno = true :=
    fun h found mine => absurd mine (done h found)
  simp only [System.endOp] at stepped
  obtain ⟨running, stepped⟩ := ite_none_right_eq_some.mp stepped
  have quiet := inv.quiet_of_op books running
  have ops : sys.outstanding - 1 = (sys.ops.erase pid).length := by
    rw [books.ops, length_erase_of_mem running]
  split at stepped
  · cases stepped
    exact .quiet ops books.homes books.room quiet
  split at stepped
  · split at stepped
    · cases stepped
      exact books_writeLog ops books.homes books.room bound (fun _ => rfl)
        fun index low => absurd low (Nat.not_lt_zero _)
    cases stepped
    refine ⟨ops, books.homes, books.room, fun _ c here => ?_⟩
    cases here
    exact ⟨fun _ => false, bound, fun _ => rfl⟩
  · cases stepped
    exact .quiet ops books.homes books.room quiet

theorem Books.command {rest : List Cmd} (books : Books start sys) (ops : next.ops = sys.ops)
    (outstanding : next.outstanding = sys.outstanding) (lh : next.lh = sys.lh)
    (commit : next.commit = some { c with code := rest }) (dirty : Nat → Bool)
    (bound : ∀ h ∈ next.handles, h.pid = c.pid → h.dirty = true → dirty h.blockno = true)
    (meets : Meets start sys.lh rest ⟨next.latest, next.disk, dirty⟩ (c.place.After start sys.lh)) :
    Books start next := by
  refine ⟨by rw [outstanding, ops, books.ops], lh ▸ books.homes, lh ▸ books.room, fun _ d there => ?_⟩
  obtain rfl := Option.some.inj (commit.symm.trans there)
  rw [lh]
  exact ⟨dirty, bound, meets⟩

structure Whole (start : Nat) (sys : System) : Prop where
  inv : Inv sys
  flat : Flat sys
  books : Books start sys

theorem changed_bound {handles : List Handle} {dirty : Nat → Bool} (found : h ∈ handles) (mine : h.pid = pid)
    (bound : ∀ h ∈ handles, h.pid = pid → h.dirty = true → dirty h.blockno = true) :
    ∀ other ∈ { h with dirty := true } :: handles.erase h, other.pid = pid → other.dirty = true →
      update dirty h.blockno true other.blockno = true := by
  intro other member mine changed
  by_cases block : other.blockno = h.blockno
  · rw [block, update_self]
  rw [update_of_ne block]
  rcases mem_cons.mp member with rfl | old
  · exact absurd rfl block
  · exact bound other (mem_of_mem_erase old) mine changed

theorem whole_execute {cmd : Cmd} {rest : List Cmd} (whole : Whole start sys) (running : sys.panic = none)
    (here : sys.commit = some c) (code : c.code = cmd :: rest)
    (stepped : { sys with commit := some { c with code := rest } }.execute start c.pid cmd = some next) :
    Flat next ∧ Books start next := by
  obtain ⟨inv, flat, books⟩ := whole
  obtain ⟨dirty, bound, meets⟩ := books.commit running c here
  rw [code] at meets
  have there : Flat { sys with commit := some { c with code := rest } } := flat.congr rfl rfl rfl rfl rfl
  cases cmd with
  | bget blockno =>
    have popped := inv.pop here code (by simp)
    cases stepped
    have kept : Books start { sys with commit := some { c with code := rest } } :=
      books.command rfl rfl rfl rfl dirty bound meets
    exact ⟨flat_bget popped there, books_bget kept⟩
  | acquired blockno =>
    simp only [execute, map_eq_some_iff] at stepped
    obtain ⟨h, _, rfl⟩ := stepped
    exact ⟨there, books.command rfl rfl rfl rfl dirty bound meets⟩
  | memmove dst src =>
    have popped := inv.pop here code (by simp)
    simp only [execute, bind_eq_bind, bind_eq_some_iff] at stepped
    obtain ⟨dest, holds, source, reads, result⟩ := stepped
    obtain ⟨found, mine, rfl, ready⟩ := holding_some holds
    obtain ⟨sourceFound, _, rfl, sourceReady⟩ := holding_some reads
    have data := inv.data_ready flat sourceFound sourceReady
    rw [Meets] at meets
    by_cases owned : (area start).Owns dest.blockno
    · rw [if_pos owned] at meets result
      cases result
      refine ⟨flat_store popped there found ready (update_self ..) fun place other =>
        update_of_ne other .., ?_⟩
      refine books.command rfl rfl rfl rfl _ (changed_bound found mine bound) ?_
      dsimp only
      rw [data]
      exact meets
    · -- installing a block writes what it holds already
      rw [if_neg owned] at meets result
      cases result
      refine ⟨flat_store popped there found ready ?_ fun _ _ => rfl, ?_⟩
      · exact (meets.1.symm.trans data.symm)
      · exact books.command rfl rfl rfl rfl _ (changed_bound found mine bound) meets.2
  | setHead blockno =>
    have popped := inv.pop here code (by simp)
    simp only [execute, bind_eq_bind, bind_eq_some_iff] at stepped
    obtain ⟨h, holds, result⟩ := stepped
    obtain ⟨found, mine, rfl, ready⟩ := holding_some holds
    have data := inv.data_ready flat found ready
    cases result
    refine ⟨flat_store popped there found ready (update_self ..) fun place other =>
      update_of_ne other .., ?_⟩
    refine books.command rfl rfl rfl rfl _ (changed_bound found mine bound) ?_
    dsimp only
    rw [data]
    exact meets
  | bwrite blockno =>
    have popped := inv.pop here code (by simp)
    simp only [execute, map_eq_some_iff] at stepped
    obtain ⟨h, holds, rfl⟩ := stepped
    obtain ⟨found, mine, rfl, ready⟩ := holding_some holds
    obtain ⟨_, _, block⟩ := inv.shape.placed h found
    have data := inv.data_ready flat found ready
    refine ⟨flat_bwrite popped there found ready, ?_⟩
    rw [System.bwrite]
    dsimp only
    split
    · refine books.command rfl rfl rfl rfl (update dirty h.blockno false) ?_ ?_
      · intro other member mine changed
        rcases mem_cons.mp member with rfl | old
        · cases changed
        -- another user of the block would need its lock to have changed it
        have present := mem_of_mem_erase old
        rw [update_of_ne]
        · exact bound other present mine changed
        intro block
        have within := inv.shape.placed other present
        have same := inv.buffer_unique flat found within.1 (within.2.1.trans (flat.root other present))
          (within.2.2.trans block)
        have idle := inv.alone.unique found (ready ▸ rfl) old same
        rw [flat.dirty other present changed] at idle
        cases idle
      · dsimp only [System.change]
        rw [block, data]
        exact meets
    · exact ⟨books.ops, books.homes, books.room, fun none => by cases none⟩
  | bunpin blockno =>
    simp only [execute, map_eq_some_iff] at stepped
    obtain ⟨h, holds, rfl⟩ := stepped
    obtain ⟨found, mine, rfl, ready⟩ := holding_some holds
    rw [Meets] at meets
    exact ⟨flat_bunpin (flat.congr rfl rfl rfl rfl rfl) inv.shape found meets.1,
      books.command rfl rfl rfl rfl dirty bound meets.2⟩
  | releasesleep blockno =>
    have popped := inv.pop here code (by simp)
    simp only [execute, map_eq_some_iff] at stepped
    obtain ⟨h, holds, rfl⟩ := stepped
    obtain ⟨found, mine, rfl, ready⟩ := holding_some holds
    have clean : h.dirty = false := by
      cases changed : h.dirty with
      | false => rfl
      | true =>
        rw [Meets] at meets
        exact absurd (meets.1.symm.trans (bound h found mine changed)) (by simp)
    have kept : Books start { sys with commit := some { c with code := rest } } :=
      books.command rfl rfl rfl rfl dirty bound meets.2
    exact ⟨flat_releasesleep there found clean, books_releasesleep kept found⟩
  | brelse blockno =>
    simp only [execute, map_eq_some_iff] at stepped
    obtain ⟨h, holds, rfl⟩ := stepped
    obtain ⟨found, mine, rfl, releasing⟩ := holding_some holds
    have kept : Books start { sys with commit := some { c with code := rest } } :=
      books.command rfl rfl rfl rfl dirty bound meets
    exact ⟨flat_brelse there found releasing, books_brelse kept⟩

theorem whole_advance (whole : Whole start sys) (running : sys.panic = none)
    (stepped : sys.advance start = some next) : Flat next ∧ Books start next := by
  simp only [advance] at stepped
  split at stepped
  · cases stepped
  rename_i c here
  split at stepped
  · rename_i cmd rest code
    exact whole_execute whole running here code stepped
  rename_i code
  obtain ⟨inv, flat, books⟩ := whole
  obtain ⟨dirty, bound, meets⟩ := books.commit running c here
  rw [code, Meets] at meets
  split at stepped
  · rename_i tail place
    rw [place] at meets
    cases stepped
    refine ⟨?_, books_writeLog books.ops books.homes books.room bound meets.1 meets.2⟩
    rw [writeLog]
    split <;> exact flat.congr rfl rfl rfl rfl rfl
  · rename_i place
    rw [place] at meets
    cases stepped
    refine ⟨?_, books_installTrans books.ops books.homes books.room bound meets.1 meets.2⟩
    rw [installTrans]
    split <;> exact flat.congr rfl rfl rfl rfl rfl
  · rename_i tail place
    rw [place] at meets
    cases stepped
    refine ⟨?_, books_installTrans books.ops books.homes books.room bound meets.1 meets.2⟩
    rw [installTrans]
    split <;> exact flat.congr rfl rfl rfl rfl rfl
  · rename_i place
    rw [place] at meets
    cases stepped
    refine ⟨flat.congr rfl rfl rfl rfl rfl, books.ops, books.homes, books.room, fun _ d there => ?_⟩
    cases there
    exact ⟨dirty, bound, meets⟩
  · cases stepped
    exact ⟨flat.congr rfl rfl rfl rfl rfl, .quiet books.ops books.homes books.room rfl⟩

theorem flat_endOp (flat : Flat sys) (stepped : sys.endOp start pid = some next) : Flat next := by
  simp only [System.endOp] at stepped
  split at stepped
  · split at stepped
    · cases stepped
      exact flat.congr rfl rfl rfl rfl rfl
    split at stepped
    · split at stepped
      · cases stepped
        rw [writeLog]
        split <;> exact flat.congr rfl rfl rfl rfl rfl
      · cases stepped
        exact flat.congr rfl rfl rfl rfl rfl
    · cases stepped
      exact flat.congr rfl rfl rfl rfl rfl
  · cases stepped

theorem whole_step {label : Label} (whole : Whole start sys) (follows : Follows start sys label)
    (stepped : step start sys label = some next) : Whole start next := by
  have kept := inv_step whole.inv follows.calls stepped
  obtain ⟨inv, flat, books⟩ := whole
  suffices both : Flat next ∧ Books start next from ⟨kept.inv, both.1, both.2⟩
  obtain ⟨running, stepped⟩ := ite_none_left_eq_some.mp stepped
  have alive : sys.panic = none := by simpa using running
  cases label with
  | beginOp pid =>
    simp only at stepped
    split at stepped
    · cases stepped
    refine ⟨?_, books_beginOp inv books stepped⟩
    simp only [System.beginOp] at stepped
    split at stepped
    · cases stepped
    split at stepped
    · cases stepped
    · cases stepped
      exact flat.congr rfl rfl rfl rfl rfl
  | bget pid dev blockno =>
    simp only at stepped
    split at stepped
    · cases stepped
    · cases stepped
      obtain rfl : dev = rootDev := follows
      exact ⟨flat_bget inv flat, books_bget books⟩
  | acquiresleep h =>
    simp only [System.acquiresleep] at stepped
    obtain ⟨uses, stepped⟩ := ite_none_right_eq_some.mp stepped
    split at stepped
    · cases stepped
      have clean : h.dirty = false := by
        cases changed : h.dirty with
        | false => rfl
        | true => exact absurd (uses.2.symm.trans (flat.dirty h uses.1 changed)) (by simp)
      exact ⟨flat.change uses.1 clean rfl rfl rfl rfl rfl (fun ready => by cases ready) rfl,
        books.change uses.1 rfl rfl rfl⟩
    · cases stepped
  | fill h =>
    simp only at stepped
    obtain ⟨uses, stepped⟩ := ite_none_right_eq_some.mp stepped
    cases stepped
    exact ⟨flat_fill inv flat uses.1 uses.2, books.change uses.1 rfl rfl rfl⟩
  | modify h data =>
    simp only at stepped
    obtain ⟨uses, stepped⟩ := ite_none_right_eq_some.mp stepped
    cases stepped
    have quiet := inv.quiet_of_op books follows.1
    exact ⟨flat_store inv flat uses.1 uses.2.1 (update_self ..) fun place other =>
      update_of_ne other .., .quiet books.ops books.homes books.room quiet⟩
  | logWrite h =>
    simp only at stepped
    obtain ⟨uses, stepped⟩ := ite_none_right_eq_some.mp stepped
    cases stepped
    exact ⟨flat_logWrite inv flat uses.1 uses.2.1,
      books_logWrite inv books uses.1 follows.1 follows.2.2⟩
  | releasesleep h =>
    simp only at stepped
    obtain ⟨uses, stepped⟩ := ite_none_right_eq_some.mp stepped
    cases stepped
    exact ⟨flat_releasesleep flat uses.1 follows, books_releasesleep books uses.1⟩
  | brelse h =>
    simp only at stepped
    obtain ⟨uses, stepped⟩ := ite_none_right_eq_some.mp stepped
    cases stepped
    exact ⟨flat_brelse flat uses.1 uses.2.1, books_brelse books⟩
  | endOp pid =>
    simp only at stepped
    split at stepped
    · cases stepped
    · exact ⟨flat_endOp flat stepped, books_endOp inv books follows stepped⟩
  | commit => exact whole_advance ⟨inv, flat, books⟩ alive stepped

theorem reached_whole {disk : Nat → Block}
    (reached : Reaches (step start) (Follows start) (System.boot disk) sys) : Whole start sys := by
  refine reached.invariant (Whole start) ?_ fun state label next whole follows stepped =>
    whole_step whole follows stepped
  refine ⟨⟨shape_binit, fun _ => rfl, fun _ => ⟨rfl, rfl⟩, fun c here => by cases here⟩, ?_, ?_⟩
  · exact ⟨by simp [boot], by simp [boot], by simp [boot],
      fun i _ _ valid => (by cases valid), by simp [boot], fun _ => .inl rfl⟩
  · exact .quiet rfl (by simp [boot]) (Nat.zero_le _) rfl

/-- What a process has read from a block, at any time until it releases it, is the block's
latest modification. -/
theorem cache_transparent {disk : Nat → Block}
    (reached : Reaches (step start) (Follows start) (System.boot disk) sys) :
    ∀ h ∈ sys.handles, h.stage = .ready → (sys.bc.bufs h.buf).data = sys.latest h.blockno := by
  obtain ⟨inv, flat, _⟩ := reached_whole reached
  exact fun h found ready => inv.data_ready flat found ready

theorem cache_transparent_modified : ∃ sys : System, ∃ h ∈ sys.handles, h.stage = .ready ∧ h.pid = 1 ∧
    (sys.bc.bufs h.buf).data 0 = 7 := by
  obtain ⟨sys, reached, seen⟩ := reaches_within
    (show (runWithin (Follows 2) (step 2) (boot fun _ _ => 0)
        [.beginOp 0, .bget 0 rootDev 100, .acquiresleep ⟨0, rootDev, 100, 0, .waiting, false⟩,
          .fill ⟨0, rootDev, 100, 0, .locked, false⟩,
          .modify ⟨0, rootDev, 100, 0, .ready, false⟩ (fun _ => 7),
          .logWrite ⟨0, rootDev, 100, 0, .ready, true⟩, .bget 1 rootDev 100,
          .releasesleep ⟨0, rootDev, 100, 0, .ready, false⟩,
          .acquiresleep ⟨1, rootDev, 100, 0, .waiting, false⟩,
          .fill ⟨1, rootDev, 100, 0, .locked, false⟩]).map
      (fun sys => (decide (⟨1, rootDev, 100, 0, .ready, false⟩ ∈ sys.handles), sys.latest 100 0)) =
      some (true, 7) by decide +kernel)
  simp only [Prod.mk.injEq, decide_eq_true_eq] at seen
  refine ⟨sys, _, seen.1, rfl, rfl, ?_⟩
  rw [cache_transparent reached _ seen.1 rfl]
  exact seen.2

end Xv6.Bio

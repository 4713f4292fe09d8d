import Xv6.Log.Core

/-!
Crash atomicity of the log. In every state of every run, crashes included, the disk is
recoverable to the result of the committed groups.
-/

namespace Xv6.Log

open Xv6.Lib Xv6.Lib.Bytes Xv6.Lib.RedoLog List Function

def writes (updates : List Update) : List (Nat × Block) :=
  updates.map fun update => (update.blockno, update.data)

variable {start : Nat} {init : Nat → Block} {world next : World}

def World.committed (init : Nat → Block) (world : World) : Nat → Block :=
  applyUpdates (writes world.groups.flatten) init

def World.view (init : Nat → Block) (world : World) : Nat → Block :=
  applyUpdates (writes world.current) (world.committed init)

theorem view_append (world : World) (update : Update) :
    applyUpdates (writes (world.current ++ [update])) (world.committed init) =
      Function.update (world.view init) update.blockno update.data := by
  rw [writes, map_append, applyUpdates_append]
  rfl

theorem committed_append (groups : List (List Update)) (group : List Update) :
    applyUpdates (writes (groups ++ [group]).flatten) init =
      applyUpdates (writes group) (applyUpdates (writes groups.flatten) init) := by
  rw [flatten_append, flatten_singleton, writes, map_append, applyUpdates_append]
  rfl

theorem decodeHead_encodeHead {buf : Block} {lh : List Nat} (room : lh.length ≤ logBlocks)
    (small : ∀ blockno ∈ lh, blockno < 2 ^ 32) : decodeHead (encodeHead buf lh) = lh := by
  have count : load (encodeHead buf lh) 0 4 = lh.length := by
    simp only [logBlocks, maxOpBlocks] at room
    refine Eq.trans (load_congr fun addr _ high => storeWords_outside (.inl (by omega))) ?_
    exact load_store_of_lt (by omega)
  have entries : loadWords (encodeHead buf lh) 4 4 lh.length = lh := loadWords_storeWords small
  simp only [logBlocks, maxOpBlocks] at room
  rw [decodeHead, count, if_pos (by omega), entries]

theorem decodeHead_encodeHead_nil (buf : Block) : decodeHead (encodeHead buf []) = [] :=
  decodeHead_encodeHead (Nat.zero_le _) (by simp)

theorem bread_fill (world : World) (blockno other : Nat) :
    (world.fill blockno).bread other = world.bread other := by
  obtain rfl | same := eq_or_ne other blockno
  · simp [World.fill, World.bread]
  · simp [World.fill, World.bread, update_of_ne same]

theorem bread_bwrite_same (world : World) (blockno : Nat) (data : Block) :
    (world.bwrite blockno data).bread blockno = data := by
  simp [World.bwrite, World.bread]

variable {blockno op tail : Nat} {phase : Phase} {view : Nat → Block}

theorem bread_bwrite_other (world : World) {other : Nat} (data : Block) (different : other ≠ blockno) :
    (world.bwrite blockno data).bread other = world.bread other := by
  simp [World.bwrite, World.bread, update_of_ne different]

theorem disk_bwrite_same (world : World) (blockno : Nat) (data : Block) :
    (world.bwrite blockno data).disk blockno = data := Function.update_self _ _ _

theorem disk_bwrite_other (world : World) {other : Nat} (data : Block) (different : other ≠ blockno) :
    (world.bwrite blockno data).disk other = world.disk other :=
  update_of_ne different _ _

structure Cached (start : Nat) (view : Nat → Block) (world : World) : Prop where
  home : ∀ blockno, ¬ (area start).Owns blockno → world.bread blockno = view blockno
  safe : ∀ blockno, ¬ (area start).Owns blockno → world.pins blockno = 0 →
    world.disk blockno = view blockno
  log : ∀ blockno, (area start).Owns blockno → world.bread blockno = world.disk blockno

structure Collecting (start : Nat) (init : Nat → Block) (world : World) : Prop where
  head : decodeHead (world.disk start) = []
  cached : Cached start (world.view init) world
  entries : ∀ blockno ∈ world.lh, ¬ (area start).Owns blockno ∧ blockno < 2 ^ 32
  room : world.lh.length ≤ logBlocks
  distinct : world.lh.Nodup
  pinned : ∀ blockno ∈ world.lh, world.pins blockno ≠ 0
  noted : ∀ update ∈ world.current, update.blockno ∈ world.lh

def Copied (start : Nat) (init : Nat → Block) (world : World) (tail : Nat) : Prop :=
  ∀ index < tail, ∀ blockno, world.lh[index]? = some blockno →
    world.disk ((area start).slot index) = world.view init blockno

structure Installing (start : Nat) (init : Nat → Block) (world : World) (tail : Nat) : Prop where
  head : decodeHead (world.disk start) = world.lh
  cached : Cached start (world.committed init) world
  distinct : world.lh.Nodup
  pinned : ∀ index blockno, tail ≤ index → world.lh[index]? = some blockno →
    world.pins blockno ≠ 0
  installed : Installed world.lh tail world.disk (world.committed init)

structure Cleared (start : Nat) (init : Nat → Block) (world : World) : Prop where
  cached : Cached start (world.committed init) world
  lh : world.lh = []
  home : ∀ blockno, ¬ (area start).Owns blockno →
    world.disk blockno = world.committed init blockno

def Coherent (world : World) : Prop := ∀ blockno, world.bread blockno = world.disk blockno

structure Closed (world : World) : Prop where
  committing : world.committing = true
  outstanding : world.outstanding = 0
  active : world.active = []

structure Booting (world : World) : Prop where
  coherent : Coherent world
  committing : world.committing = false
  outstanding : world.outstanding = 0
  active : world.active = []
  current : world.current = []

def PhaseInv (start : Nat) (init : Nat → Block) (world : World) : Phase → Prop
  | .idle => Collecting start init world ∧ world.committing = false ∧
      world.outstanding = world.active.length
  | .writeLog tail => Collecting start init world ∧ Copied start init world tail ∧ Closed world
  | .writeHead =>
    Collecting start init world ∧ Copied start init world world.lh.length ∧ Closed world
  | .installTrans tail => Installing start init world tail ∧ Closed world ∧ world.current = []
  | .clearHead => Cleared start init world ∧ Closed world ∧ world.current = []
  | .finish => Collecting start init world ∧ world.lh = [] ∧ Closed world
  | .readHead => Booting world
  | .recoverTrans tail => Booting world ∧ world.lh = decodeHead (world.disk start) ∧
      Installed world.lh tail world.disk (world.committed init)
  | .recoverClear => Booting world ∧ world.lh = [] ∧
      ∀ blockno, ¬ (area start).Owns blockno → world.disk blockno = world.committed init blockno
  | .panicked => True

structure Inv (start : Nat) (init : Nat → Block) (world : World) : Prop where
  recoverable : Recoverable (area start) (decodeHead (world.disk start)) world.disk
    (world.committed init)
  phase : PhaseInv start init world world.phase

theorem Inv.of_phase (recoverable : Recoverable (area start)
    (decodeHead (world.disk start)) world.disk (world.committed init)) (here : world.phase = phase)
    (holds : PhaseInv start init world phase) : Inv start init world :=
  ⟨recoverable, here ▸ holds⟩

theorem PhaseInv.of_cache {cache : Nat → Option Block} (inv : PhaseInv start init world phase)
    (cached : ∀ view, Cached start view world → Cached start view { world with cache := cache })
    (coherent : Coherent world → Coherent { world with cache := cache }) :
    PhaseInv start init { world with cache := cache } phase := by
  have collecting : Collecting start init world →
      Collecting start init { world with cache := cache } := fun old =>
    ⟨old.head, cached _ old.cached, old.entries, old.room, old.distinct, old.pinned, old.noted⟩
  have booting : Booting world → Booting { world with cache := cache } := fun old =>
    ⟨coherent old.coherent, old.committing, old.outstanding, old.active, old.current⟩
  have closed : Closed world → Closed { world with cache := cache } := fun old =>
    ⟨old.committing, old.outstanding, old.active⟩
  cases phase with
  | idle => exact ⟨collecting inv.1, inv.2⟩
  | writeLog _ | writeHead | finish => exact ⟨collecting inv.1, inv.2.1, closed inv.2.2⟩
  | installTrans tail =>
    obtain ⟨old, quiet, current⟩ := inv
    exact ⟨⟨old.head, cached _ old.cached, old.distinct, old.pinned, old.installed⟩,
      closed quiet, current⟩
  | clearHead =>
    obtain ⟨old, quiet, current⟩ := inv
    exact ⟨⟨cached _ old.cached, old.lh, old.home⟩, closed quiet, current⟩
  | readHead => exact booting inv
  | recoverTrans _ | recoverClear => exact ⟨booting inv.1, inv.2⟩
  | panicked => trivial

theorem Cached.fill (cached : Cached start view world) (blockno : Nat) :
    Cached start view (world.fill blockno) := by
  refine ⟨fun other outside => ?_, cached.safe, fun other inside => ?_⟩
  · exact (bread_fill world blockno other).trans (cached.home other outside)
  · exact (bread_fill world blockno other).trans (cached.log other inside)

theorem Coherent.fill (coherent : Coherent world) (blockno : Nat) :
    Coherent (world.fill blockno) := fun other =>
  (bread_fill world blockno other).trans (coherent other)

theorem Cached.bwrite_log (cached : Cached start view world) (inside : (area start).Owns blockno) (data : Block) :
    Cached start view (world.bwrite blockno data) := by
  have apart : ∀ other, ¬ (area start).Owns other → other ≠ blockno := by
    rintro other outside rfl
    exact outside inside
  refine ⟨fun other outside => ?_, fun other outside free => ?_, fun other owned => ?_⟩
  · rw [bread_bwrite_other world data (apart other outside)]
    exact cached.home other outside
  · rw [disk_bwrite_other world data (apart other outside)]
    exact cached.safe other outside free
  · obtain rfl | same := eq_or_ne other blockno
    · rw [bread_bwrite_same, disk_bwrite_same]
    · rw [bread_bwrite_other world data same, disk_bwrite_other world data same]
      exact cached.log other owned

theorem Coherent.bwrite (coherent : Coherent world) (blockno : Nat) (data : Block) :
    Coherent (world.bwrite blockno data) := by
  intro other
  obtain rfl | same := eq_or_ne other blockno
  · rw [bread_bwrite_same, disk_bwrite_same]
  · rw [bread_bwrite_other world data same, disk_bwrite_other world data same]
    exact coherent other

theorem Inv.fill (inv : Inv start init world) (blockno : Nat) :
    Inv start init (world.fill blockno) :=
  ⟨inv.recoverable, inv.phase.of_cache (fun _ old => old.fill blockno)
    fun old => old.fill blockno⟩

theorem Inv.evict (inv : Inv start init world) (free : world.pins blockno = 0) :
    Inv start init { world with cache := Function.update world.cache blockno none } := by
  have here : { world with cache := Function.update world.cache blockno none }.bread blockno =
      world.disk blockno := by simp [World.bread]
  have other : ∀ place, place ≠ blockno →
      { world with cache := Function.update world.cache blockno none }.bread place =
        world.bread place := by
    intro place different
    simp [World.bread, update_of_ne different]
  refine ⟨inv.recoverable, inv.phase.of_cache ?_ ?_⟩
  · intro view old
    refine ⟨fun place outside => ?_, old.safe, fun place inside => ?_⟩
    · obtain rfl | same := eq_or_ne place blockno
      · exact here.trans (old.safe place outside free)
      · exact (other place same).trans (old.home place outside)
    · obtain rfl | same := eq_or_ne place blockno
      · exact here
      · exact (other place same).trans (old.log place inside)
  · intro old place
    obtain rfl | same := eq_or_ne place blockno
    · exact here
    · exact (other place same).trans (old place)

theorem Inv.crash (inv : Inv start init world) : Inv start init (crash world) :=
  ⟨inv.recoverable, fun _ => rfl, rfl, rfl, rfl, rfl⟩

theorem PhaseInv.idle_or_closed (inv : PhaseInv start init world phase)
    (serving : phase.serving) : phase = .idle ∨ Closed world := by
  cases phase with
  | idle => exact .inl rfl
  | writeLog _ | writeHead | finish => exact .inr inv.2.2
  | installTrans _ | clearHead => exact .inr inv.2.1
  | _ => cases serving

theorem Inv.idle_of_active (inv : Inv start init world) (serving : world.phase.serving)
    (running : op ∈ world.active) : world.phase = .idle := by
  refine (inv.phase.idle_or_closed serving).resolve_right fun closed => ?_
  simp [closed.active] at running

theorem Inv.idle_of_open (inv : Inv start init world) (serving : world.phase.serving)
    (free : world.committing = false) : world.phase = .idle := by
  refine (inv.phase.idle_or_closed serving).resolve_right fun closed => ?_
  simp [closed.committing] at free

structure SameStore (world next : World) : Prop where
  disk : next.disk = world.disk
  cache : next.cache = world.cache
  pins : next.pins = world.pins
  lh : next.lh = world.lh
  current : next.current = world.current
  groups : next.groups = world.groups

theorem Cached.of_same (cached : Cached start view world)
    (same : SameStore world next) : Cached start view next := by
  obtain ⟨disk, cache, pins, -, -, -⟩ := same
  have bread : next.bread = world.bread := by
    funext blockno
    rw [World.bread, World.bread, disk, cache]
  exact ⟨bread ▸ cached.home, by rw [disk, pins]; exact cached.safe, by
    rw [bread, disk]; exact cached.log⟩

theorem Collecting.of_same (collecting : Collecting start init world) (same : SameStore world next) :
    Collecting start init next := by
  have cached := collecting.cached.of_same same
  obtain ⟨disk, -, pins, lh, current, groups⟩ := same
  refine ⟨disk ▸ collecting.head, ?_, lh ▸ collecting.entries, lh ▸ collecting.room,
    lh ▸ collecting.distinct, by rw [lh, pins]; exact collecting.pinned, ?_⟩
  · rw [World.view, World.committed, current, groups]
    exact cached
  · rw [current, lh]
    exact collecting.noted

theorem inv_beginOp (inv : Inv start init world) (stepped : beginOp world = some next) :
    Inv start init next := by
  obtain ⟨⟨serving, free, _⟩, stepped⟩ := Option.ite_none_right_eq_some.mp stepped
  cases stepped
  have idle := inv.idle_of_open serving (by simpa using free)
  have phase := inv.phase
  rw [idle] at phase
  refine Inv.of_phase inv.recoverable idle ⟨phase.1.of_same
    ⟨rfl, rfl, rfl, rfl, rfl, rfl⟩, phase.2.1, ?_⟩
  dsimp only
  rw [phase.2.2, length_cons]

theorem inv_endOp (inv : Inv start init world) (stepped : endOp world op = some next) : Inv start init next := by
  simp only [endOp] at stepped
  obtain ⟨⟨serving, running⟩, stepped⟩ := Option.ite_none_right_eq_some.mp stepped
  have idle := inv.idle_of_active serving running
  have phase := inv.phase
  rw [idle] at phase
  obtain ⟨collecting, free, count⟩ := phase
  have shorter := length_erase_of_mem running
  rw [if_neg (by simp [free])] at stepped
  split at stepped
  · rename_i last
    cases stepped
    have none : world.active.erase op = [] := eq_nil_of_length_eq_zero (by omega)
    have recoverable := inv.recoverable
    by_cases logged : world.lh.length > 0
    · exact Inv.of_phase recoverable (if_pos logged) ⟨collecting.of_same
        ⟨rfl, rfl, rfl, rfl, rfl, rfl⟩, fun index bound => by omega, rfl, last, none⟩
    have empty : world.lh = [] := eq_nil_of_length_eq_zero (by omega)
    exact Inv.of_phase recoverable (if_neg logged) ⟨collecting.of_same
      ⟨rfl, rfl, rfl, rfl, rfl, rfl⟩, empty,
      rfl, last, none⟩
  · cases stepped
    refine Inv.of_phase inv.recoverable idle ⟨collecting.of_same
      ⟨rfl, rfl, rfl, rfl, rfl, rfl⟩, free, ?_⟩
    dsimp only
    omega

theorem Collecting.logged {data : Block}
    (collecting : Collecting start init world) (home : ¬ (area start).Owns blockno)
    (small : blockno < 2 ^ 32) (disk : next.disk = world.disk)
    (cache : next.cache = Function.update world.cache blockno (some data))
    (pins : ∀ other, other ≠ blockno → next.pins other = world.pins other)
    (pinned : next.pins blockno ≠ 0) (listed : ∀ other, other ∈ next.lh ↔
      other ∈ world.lh ∨ other = blockno) (room : next.lh.length ≤ logBlocks)
    (distinct : next.lh.Nodup) (groups : next.groups = world.groups)
    (current : next.current = world.current ++ [⟨op, blockno, data⟩]) :
    Collecting start init next := by
  have view : next.view init = Function.update (world.view init) blockno data := by
    rw [World.view, current, World.committed, groups]
    exact view_append world _
  have here : next.bread blockno = data := by simp [World.bread, cache]
  have other : ∀ place, place ≠ blockno → next.bread place = world.bread place := by
    intro place different
    simp [World.bread, cache, disk, update_of_ne different]
  refine ⟨disk ▸ collecting.head, ⟨fun place outside => ?_, fun place outside free => ?_,
    fun place inside => ?_⟩, fun place found => ?_, room, distinct, fun place found => ?_,
    fun update found => ?_⟩
  · rw [view]
    by_cases same : place = blockno
    · rw [same, here, update_self]
    · rw [other place same, update_of_ne same]
      exact collecting.cached.home place outside
  · have different : place ≠ blockno := by
      rintro rfl
      exact pinned free
    rw [view, disk, update_of_ne different]
    exact collecting.cached.safe place outside (pins place different ▸ free)
  · have different : place ≠ blockno := by
      rintro rfl
      exact home inside
    rw [other place different, disk]
    exact collecting.cached.log place inside
  · rcases (listed place).mp found with old | rfl
    · exact collecting.entries place old
    · exact ⟨home, small⟩
  · by_cases same : place = blockno
    · exact same ▸ pinned
    · rw [pins place same]
      exact collecting.pinned place (((listed place).mp found).resolve_right same)
  · rw [current, mem_append] at found
    rcases found with old | new
    · exact (listed _).mpr (.inl (collecting.noted update old))
    · rw [mem_singleton.mp new]
      exact (listed _).mpr (.inr rfl)

theorem inv_logWrite {data : Block} (inv : Inv start init world)
    (stepped : logWrite start world op blockno data = some next) : Inv start init next := by
  obtain ⟨⟨serving, running, home, small⟩, stepped⟩ := Option.ite_none_right_eq_some.mp stepped
  have idle := inv.idle_of_active serving running
  have phase := inv.phase
  rw [idle] at phase
  obtain ⟨collecting, free, count⟩ := phase
  split at stepped
  · cases stepped
    exact Inv.of_phase inv.recoverable rfl trivial
  rename_i fits
  split at stepped
  · rename_i absorbed
    cases stepped
    refine Inv.of_phase inv.recoverable idle ⟨collecting.logged home small rfl rfl
      (fun _ _ => rfl) (collecting.pinned blockno absorbed) (fun other => ?_) collecting.room
      collecting.distinct rfl rfl, free, count⟩
    constructor
    · exact .inl
    · rintro (old | rfl)
      · exact old
      · exact absorbed
  · rename_i fresh
    cases stepped
    refine Inv.of_phase inv.recoverable idle ⟨collecting.logged home small rfl rfl
      (fun other different => update_of_ne different _ _) ?_ (fun other => ?_) ?_ ?_
      rfl rfl, free, count⟩
    all_goals dsimp only [bpin]
    · rw [update_self]
      omega
    · rw [mem_append, mem_singleton]
    · rw [length_append, length_singleton]
      omega
    · rw [nodup_append]
      refine ⟨collecting.distinct, by simp, fun place old other new => ?_⟩
      rintro rfl
      exact fresh (mem_singleton.mp new ▸ old)

theorem owns_start (start : Nat) : (area start).Owns start := Area.owns_start

theorem start_ne_slot (start index : Nat) : start ≠ (area start).slot index :=
  by
  simp only [Area.slot, area]
  omega

theorem entry_bound {lh : List Nat} (entry : lh[tail]? = some blockno)
    (room : lh.length ≤ logBlocks) : tail < logBlocks :=
  Nat.lt_of_lt_of_le (List.getElem?_eq_some_iff.mp entry).1 room

theorem inv_writeLogBlock (inv : Inv start init world)
    (collecting : Collecting start init world) (copied : Copied start init world tail)
    (closed : Closed world) (entry : world.lh[tail]? = some blockno) :
    Inv start init { writeLogBlock start world tail blockno with phase := .writeLog (tail + 1) } := by
  have bound := entry_bound entry collecting.room
  have inside : (area start).Owns ((area start).slot tail) := Area.owns_slot bound
  have home := (collecting.entries blockno (mem_of_getElem? entry)).1
  have header : (writeLogBlock start world tail blockno).disk start = world.disk start :=
    disk_bwrite_other _ _ (start_ne_slot start tail)
  have recoverable := inv.recoverable
  rw [collecting.head] at recoverable
  have cached : Cached start (world.view init) (writeLogBlock start world tail blockno) :=
    (collecting.cached.fill blockno).bwrite_log inside _
  refine Inv.of_phase ?_ rfl ⟨⟨?_, ⟨cached.home, cached.safe, cached.log⟩, collecting.entries,
    collecting.room, collecting.distinct, collecting.pinned, collecting.noted⟩, ?_,
    ⟨closed.committing, closed.outstanding, closed.active⟩⟩
  · dsimp only
    rw [header, collecting.head]
    exact recoverable.write_slot bound
  · dsimp only
    rw [header, collecting.head]
  · intro index limit place found
    obtain rfl | last := eq_or_ne index tail
    · obtain rfl : blockno = place := Option.some.inj (entry.symm.trans found)
      refine (disk_bwrite_same _ _ _).trans ?_
      exact collecting.cached.home blockno home
    have apart : (area start).slot index ≠ (area start).slot tail := by
      simp only [Area.slot]
      omega
    refine (disk_bwrite_other _ _ apart).trans ?_
    exact copied index (by omega) place found

theorem Collecting.view_eq (collecting : Collecting start init world)
    (absent : blockno ∉ world.lh) : world.view init blockno = world.committed init blockno := by
  rw [World.view, applyUpdates_of_not_mem]
  intro update found same
  obtain ⟨logged, here, rfl⟩ := mem_map.mp found
  exact absent (same ▸ collecting.noted logged here)

theorem inv_writeHead (inv : Inv start init world) (collecting : Collecting start init world)
    (copied : Copied start init world world.lh.length) (closed : Closed world) :
    Inv start init { writeHead start world with
      phase := .installTrans 0
      groups := world.groups ++ [world.current]
      current := [] } := by
  have header : decodeHead ((writeHead start world).disk start) = world.lh := by
    refine (congrArg decodeHead (disk_bwrite_same _ _ _)).trans ?_
    exact decodeHead_encodeHead collecting.room fun blockno found =>
      (collecting.entries blockno found).2
  have after : applyUpdates (writes (world.groups ++ [world.current]).flatten) init =
      world.view init := committed_append _ _
  have recoverable := inv.recoverable
  rw [collecting.head] at recoverable
  have committed : Recoverable (area start) world.lh world.disk (world.view init) := by
    refine recoverable.commit (fun blockno found => (collecting.entries blockno found).1)
      collecting.room ?_ fun blockno _ absent => collecting.view_eq absent
    intro index blockno entry
    exact copied index (List.getElem?_eq_some_iff.mp entry).1 blockno entry
  have cached : Cached start (world.view init) (writeHead start world) :=
    collecting.cached.bwrite_log (owns_start start) _
  refine Inv.of_phase ?_ rfl ⟨⟨header, ?_, collecting.distinct, ?_, ?_⟩,
    ⟨closed.committing, closed.outstanding, closed.active⟩, rfl⟩
  · dsimp only [World.committed]
    rw [header, after]
    exact committed.write_header
  · dsimp only [World.committed]
    rw [after]
    exact ⟨cached.home, cached.safe, cached.log⟩
  · intro index blockno _ entry
    exact collecting.pinned blockno (mem_of_getElem? entry)
  · intro index bound
    omega

theorem recoverable_installBlock (inv : Inv start init world) (head : decodeHead (world.disk start) = world.lh)
    (slot : world.bread ((area start).slot tail) = world.disk ((area start).slot tail))
    (entry : world.lh[tail]? = some blockno) :
    decodeHead ((installBlock start world tail blockno).disk start) = world.lh ∧
    Recoverable (area start) world.lh (installBlock start world tail blockno).disk
      (world.committed init) ∧
    (Installed world.lh tail world.disk (world.committed init) →
      Installed world.lh (tail + 1) (installBlock start world tail blockno).disk
        (world.committed init)) := by
  have recoverable := inv.recoverable
  rw [head] at recoverable
  have home := recoverable.home blockno (mem_of_getElem? entry)
  have different : start ≠ blockno := by
    rintro rfl
    exact home (owns_start start)
  have disk : (installBlock start world tail blockno).disk =
      Function.update world.disk blockno (world.disk ((area start).slot tail)) := by
    rw [← slot]
    rfl
  refine ⟨?_, ?_, fun installed => ?_⟩
  · rw [disk, update_of_ne different, head]
  · rw [disk]
    exact recoverable.install entry
  · rw [disk]
    exact installed.step recoverable entry

theorem inv_installBlock (inv : Inv start init world)
    (installing : Installing start init world tail) (closed : Closed world)
    (current : world.current = []) (entry : world.lh[tail]? = some blockno) :
    Inv start init { bunpin (installBlock start world tail blockno) blockno with
      phase := .installTrans (tail + 1) } := by
  have recoverable := inv.recoverable
  rw [installing.head] at recoverable
  have home := recoverable.home blockno (mem_of_getElem? entry)
  have inside : (area start).Owns ((area start).slot tail) :=
    Area.owns_slot (entry_bound entry recoverable.fits)
  have slot := installing.cached.log _ inside
  obtain ⟨header, after, installed⟩ := recoverable_installBlock inv installing.head slot entry
  have data : world.bread ((area start).slot tail) = world.committed init blockno :=
    slot.trans (recoverable.logged tail blockno entry)
  have filled := installing.cached.fill ((area start).slot tail)
  refine Inv.of_phase ?_ rfl ⟨⟨header, ⟨?_, ?_, ?_⟩, installing.distinct, ?_,
    installed installing.installed⟩, ⟨closed.committing, closed.outstanding, closed.active⟩, current⟩
  · dsimp only [bunpin]
    rw [header]
    exact after
  · intro place outside
    obtain rfl | same := eq_or_ne place blockno
    · exact (bread_bwrite_same _ _ _).trans data
    · exact (bread_bwrite_other _ _ same).trans (filled.home place outside)
  · intro place outside free
    obtain rfl | same := eq_or_ne place blockno
    · exact (disk_bwrite_same _ _ _).trans data
    · refine (disk_bwrite_other _ _ same).trans (filled.safe place outside ?_)
      dsimp only [bunpin] at free
      rwa [update_of_ne same] at free
  · intro place owned
    have same : place ≠ blockno := by
      rintro rfl
      exact home owned
    refine (bread_bwrite_other _ _ same).trans ((filled.log place owned).trans ?_)
    exact (disk_bwrite_other _ _ same).symm
  · intro index place beyond found
    have same : place ≠ blockno := by
      rintro rfl
      have equal : tail = index := (List.getElem?_inj (List.getElem?_eq_some_iff.mp entry).1
        installing.distinct).mp (entry.trans found.symm)
      omega
    dsimp only [bunpin]
    rw [update_of_ne same]
    exact installing.pinned index place (by omega) found

theorem home_of_installed (inv : Inv start init world)
    (head : decodeHead (world.disk start) = world.lh) (done : world.lh[tail]? = none)
    (installed : Installed world.lh tail world.disk (world.committed init)) :
    ∀ blockno, ¬ (area start).Owns blockno →
      world.disk blockno = world.committed init blockno := by
  have recoverable := inv.recoverable
  rw [head] at recoverable
  intro blockno outside
  exact (recoverable.clear installed (List.getElem?_eq_none_iff.mp done)).home_eq outside

theorem recoverable_clear (home : ∀ blockno, ¬ (area start).Owns blockno →
      world.disk blockno = world.committed init blockno) (empty : world.lh = []) :
    decodeHead ((writeHead start world).disk start) = [] ∧
    Recoverable (area start) [] (writeHead start world).disk (world.committed init) := by
  constructor
  · refine (congrArg decodeHead (disk_bwrite_same _ _ _)).trans ?_
    rw [empty]
    exact decodeHead_encodeHead_nil _
  · have blank : Recoverable (area start) [] world.disk (world.committed init) :=
      ⟨by simp, Nat.zero_le _, by simp, fun blockno outside _ => home blockno outside⟩
    exact blank.write_header

theorem inv_clearHead (cleared : Cleared start init world) (closed : Closed world)
    (current : world.current = []) :
    Inv start init { writeHead start world with phase := .finish } := by
  obtain ⟨header, recoverable⟩ := recoverable_clear cleared.home cleared.lh
  have cached : Cached start (world.committed init) (writeHead start world) :=
    cleared.cached.bwrite_log (owns_start start) _
  have view : world.view init = world.committed init := by
    rw [World.view, current]
    rfl
  refine Inv.of_phase ?_ rfl ⟨⟨header, ?_, ?_, ?_, ?_, ?_, ?_⟩, cleared.lh,
    ⟨closed.committing, closed.outstanding, closed.active⟩⟩
  · dsimp only
    rw [header]
    exact recoverable
  · change Cached start (world.view init) _
    rw [view]
    exact ⟨cached.home, cached.safe, cached.log⟩
  · change ∀ blockno ∈ world.lh, _
    simp [cleared.lh]
  · change world.lh.length ≤ _
    simp [cleared.lh]
  · change world.lh.Nodup
    simp [cleared.lh]
  · change ∀ blockno ∈ world.lh, _
    simp [cleared.lh]
  · change ∀ update ∈ world.current, _
    simp [current]

theorem inv_recoverClear (booting : Booting world) (empty : world.lh = [])
    (home : ∀ blockno, ¬ (area start).Owns blockno →
      world.disk blockno = world.committed init blockno) :
    Inv start init { writeHead start world with phase := .idle } := by
  obtain ⟨header, recoverable⟩ := recoverable_clear home empty
  have coherent := booting.coherent.bwrite start (encodeHead (world.bread start) world.lh)
  have view : world.view init = world.committed init := by
    rw [World.view, booting.current]
    rfl
  have disk : ∀ blockno, ¬ (area start).Owns blockno →
      (writeHead start world).disk blockno = world.view init blockno := by
    intro blockno outside
    rw [view]
    exact recoverable.home_eq outside
  refine Inv.of_phase ?_ rfl ⟨⟨header, ⟨?_, ?_, ?_⟩, ?_, ?_, ?_, ?_, ?_⟩, booting.committing, ?_⟩
  · dsimp only
    rw [header]
    exact recoverable
  · intro blockno outside
    exact (coherent blockno).trans (disk blockno outside)
  · intro blockno outside _
    exact disk blockno outside
  · intro blockno _
    exact coherent blockno
  · change ∀ blockno ∈ world.lh, _
    simp [empty]
  · change world.lh.length ≤ _
    simp [empty]
  · change world.lh.Nodup
    simp [empty]
  · change ∀ blockno ∈ world.lh, _
    simp [empty]
  · change ∀ update ∈ world.current, _
    simp [booting.current]
  · change world.outstanding = world.active.length
    simp [booting.outstanding, booting.active]

theorem inv_advance (inv : Inv start init world) (stepped : advance start world = some next) :
    Inv start init next := by
  have phase := inv.phase
  have recoverable := inv.recoverable
  unfold advance at stepped
  cases here : world.phase with
  | idle | panicked => simp [here] at stepped
  | writeLog tail =>
    simp only [here] at stepped phase
    obtain ⟨collecting, copied, closed⟩ := phase
    cases entry : world.lh[tail]? with
    | some blockno =>
      simp only [entry, Option.some.injEq] at stepped
      exact stepped ▸ inv_writeLogBlock inv collecting copied closed entry
    | none =>
      simp only [entry] at stepped
      cases stepped
      have bound := List.getElem?_eq_none_iff.mp entry
      exact Inv.of_phase recoverable rfl ⟨collecting.of_same ⟨rfl, rfl, rfl, rfl, rfl, rfl⟩,
        fun index limit => copied index (limit.trans_le bound),
        ⟨closed.committing, closed.outstanding, closed.active⟩⟩
  | writeHead =>
    simp only [here, Option.some.injEq] at stepped phase
    obtain ⟨collecting, copied, closed⟩ := phase
    exact stepped ▸ inv_writeHead inv collecting copied closed
  | installTrans tail =>
    simp only [here] at stepped phase
    obtain ⟨installing, closed, current⟩ := phase
    cases entry : world.lh[tail]? with
    | some blockno =>
      simp only [entry, Option.some.injEq] at stepped
      exact stepped ▸ inv_installBlock inv installing closed current entry
    | none =>
      simp only [entry] at stepped
      cases stepped
      have home := home_of_installed inv installing.head entry installing.installed
      have cached := installing.cached
      exact Inv.of_phase recoverable rfl ⟨⟨⟨cached.home, cached.safe, cached.log⟩, rfl, home⟩,
        ⟨closed.committing, closed.outstanding, closed.active⟩, current⟩
  | clearHead =>
    simp only [here, Option.some.injEq] at stepped phase
    obtain ⟨cleared, closed, current⟩ := phase
    exact stepped ▸ inv_clearHead cleared closed current
  | finish =>
    simp only [here, Option.some.injEq] at stepped phase
    obtain ⟨collecting, empty, closed⟩ := phase
    subst stepped
    refine Inv.of_phase recoverable rfl ⟨collecting.of_same ⟨rfl, rfl, rfl, rfl, rfl, rfl⟩, rfl, ?_⟩
    simp [closed.outstanding, closed.active]
  | readHead =>
    simp only [here, Option.some.injEq] at stepped phase
    subst stepped
    have coherent := phase.coherent.fill start
    refine Inv.of_phase recoverable rfl ⟨⟨coherent, phase.committing, phase.outstanding,
      phase.active, phase.current⟩, ?_, fun index bound => by omega⟩
    exact congrArg decodeHead (phase.coherent start)
  | recoverTrans tail =>
    simp only [here] at stepped phase
    obtain ⟨booting, head, installed⟩ := phase
    cases entry : world.lh[tail]? with
    | some blockno =>
      simp only [entry] at stepped
      cases stepped
      obtain ⟨header, after, progress⟩ := recoverable_installBlock inv head.symm
        (booting.coherent _) entry
      have coherent : Coherent (installBlock start world tail blockno) :=
        (booting.coherent.fill _).bwrite _ _
      refine Inv.of_phase ?_ rfl ⟨⟨coherent, booting.committing, booting.outstanding,
        booting.active, booting.current⟩, header.symm, progress installed⟩
      dsimp only
      rw [header]
      exact after
    | none =>
      simp only [entry] at stepped
      cases stepped
      have home := home_of_installed inv head.symm entry installed
      exact Inv.of_phase recoverable rfl ⟨⟨booting.coherent, booting.committing,
        booting.outstanding, booting.active, booting.current⟩, rfl, home⟩
  | recoverClear =>
    simp only [here, Option.some.injEq] at stepped phase
    obtain ⟨booting, empty, home⟩ := phase
    exact stepped ▸ inv_recoverClear booting empty home

theorem inv_step {label : Label} (inv : Inv start init world)
    (stepped : step start world label = some next) : Inv start init next := by
  cases label with
  | beginOp => exact inv_beginOp inv stepped
  | logWrite op blockno data => exact inv_logWrite inv stepped
  | endOp op => exact inv_endOp inv stepped
  | advance => exact inv_advance inv stepped
  | bread blockno => exact Option.some.inj stepped ▸ inv.fill blockno
  | evict blockno =>
    obtain ⟨free, stepped⟩ := Option.ite_none_right_eq_some.mp stepped
    exact Option.some.inj stepped ▸ inv.evict free
  | crash => exact Option.some.inj stepped ▸ inv.crash

theorem inv_boot {disk : Nat → Block} (empty : decodeHead (disk start) = []) :
    Inv start disk (World.boot disk) := by
  refine Inv.of_phase ?_ rfl ⟨fun _ => rfl, rfl, rfl, rfl, rfl⟩
  change Recoverable _ (decodeHead (disk start)) _ _
  rw [empty]
  exact ⟨by simp, Nat.zero_le _, by simp, fun _ _ _ => rfl⟩

end Xv6.Log

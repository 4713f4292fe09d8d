import Xv6.Names.PipeActs

/-!
What `kfork`, `kexit` and `kwait` do to the slots of the process table: a child gets its
references from its parent while nobody else knows of it, and a process that exits leaves
none behind.
-/

namespace Xv6.Names

open Lib Lib.Interleave Own
open Function
open Fs (ninode)

variable {cfg : Config} {st : State} {share : Nat → Share} {pid f fd c k : Nat} {g : Ghost} {own : Own}
variable {ftable : Nat → File} {procs : Nat → Own} {x : Option (Nat × Nat)}

theorem ProcsOk.childed (ok : ProcsOk cfg ftable procs share) (alive : (procs pid).stage = .live) (apart : c ≠ pid)
    (low : c < cfg.nproc) (each : OwnOk ftable own (share c))
    (mine : ∀ d k, x = some (d, k) →
      ChildOk cfg (update procs c own d) d k ∧ ∀ r l, r ≠ pid → (share r).child ≠ some (d, l))
    (others : ∀ r k, r ≠ pid → (share r).child ≠ some (c, k)) :
    ProcsOk cfg ftable (update procs c own) (update share pid { share pid with child := x }) := by
  refine ⟨fun r out => ?_, fun r => ?_, fun r d k is => ?_, fun r p d k l first second => ?_⟩
  · have different : r ≠ c := by omega
    rw [update_of_ne different]
    exact ok.outside r out
  · by_cases here : r = pid
    · rw [here, update_of_ne apart.symm, update_self]
      have before := ok.each pid
      exact .of_live alive before.pending before.uses before.slots before.cwd
    rw [update_of_ne here]
    by_cases there : r = c
    · rw [there, update_self]
      exact each
    · rw [update_of_ne there]
      exact ok.each r
  · by_cases here : r = pid
    · rw [here, update_self] at is
      exact (mine d k is).1
    rw [update_of_ne here] at is
    have different : d ≠ c := by
      rintro rfl
      exact others r k here is
    rw [update_of_ne different]
    exact ok.child r d k is
  · by_cases here : r = pid
    · by_cases there : p = pid
      · rw [here, there]
      · rw [here, update_self] at first
        rw [update_of_ne there] at second
        exact absurd second ((mine d k first).2 p l there)
    rw [update_of_ne here] at first
    by_cases there : p = pid
    · rw [there, update_self] at second
      exact absurd first ((mine d l second).2 r k here)
    · rw [update_of_ne there] at second
      exact ok.parent r p d k l first second

theorem shares_child (q g : Nat) :
    (procs q).shares (update share pid { share pid with child := x } q) g = (procs q).shares (share q) g := by
  have pending : (update share pid { share pid with child := x } q).pending = (share q).pending :=
    update_part Share.pending (by rfl) q
  have files : (update share pid { share pid with child := x } q).files = (share q).files :=
    update_part Share.files (by rfl) q
  rw [Own.shares, Own.shares, pending, files]

theorem FilesOk.child (files : FilesOk cfg ftable procs share) :
    FilesOk cfg ftable procs (update share pid { share pid with child := x }) :=
  files.congr shares_child (update_part Share.fresh (by rfl))

theorem PipesOk.child {pipes : Nat → Pipe} (ok : PipesOk cfg ftable pipes share) :
    PipesOk cfg ftable pipes (update share pid { share pid with child := x }) :=
  ok.congr (update_part Share.ends (by rfl))

theorem LocksOk.child {itable : Nat → Inode} (locks : LocksOk itable procs share) (held : own.held = (procs c).held) :
    LocksOk itable (update procs c own) (update share pid { share pid with child := x }) := by
  intro jp q locked
  have same : (update procs c own q).held = (procs q).held := update_part Own.held held q
  have uses : (update share pid { share pid with child := x } q).uses = (share q).uses := update_part Share.uses (by rfl) q
  rw [Refers, same, uses]
  exact locks jp q locked

theorem ProcsOk.only_parent (ok : ProcsOk cfg ftable procs share) (child : (share pid).child = some (c, k)) (r l : Nat)
    (other : r ≠ pid) : (share r).child ≠ some (c, l) := fun also => other (ok.parent r pid c l k also child)

theorem OwnOk.embryo {own' : Own} {share : Share} (ok : OwnOk ftable own share) (rest : own.stage ≠ .live)
    (stage : own'.stage = .used) (held : own'.held = own.held)
    (slots : ∀ fd < nofile, own.ofile fd ≠ none → own'.ofile fd = own.ofile fd) : OwnOk ftable own' share := by
  obtain ⟨none, idle, closed⟩ := ok.idle rest
  refine ⟨fun _ => ⟨held.trans none, idle, closed⟩, fun free => ?_, fun fd f is => ?_, fun u used => ?_, fun fd _ under => ?_,
    fun away => ?_⟩
  · rw [stage] at free
    rcases free with is | is
    · cases is
    · cases is
  · rw [idle.pending] at is
    cases is
  · obtain ⟨low, slot, node⟩ := ok.uses u used
    rw [idle.pending, slot_none] at slot
    rw [idle.pending, slot_none]
    refine ⟨low, ?_, node⟩
    rw [slots u.fd low (by rw [slot]; nofun)]
    exact slot
  · rw [closed] at under
    cases under
  · rw [idle.away] at away
    cases away

theorem OwnOk.staged {own' : Own} {share : Share} (ok : OwnOk ftable own share) (rest : own.stage ≠ .live)
    (held : own'.held = own.held) (ofile : own'.ofile = own.ofile)
    (empty : own'.stage = .unused ∨ own'.stage = .zombie → own'.cwd = none ∧ ∀ fd < nofile, own.ofile fd = none) :
    OwnOk ftable own' share := by
  obtain ⟨none, idle, closed⟩ := ok.idle rest
  refine ⟨fun _ => ⟨held.trans none, idle, closed⟩, fun free => ?_, fun fd f is => ?_, fun u used => ?_, fun fd _ under => ?_,
    fun away => ?_⟩
  · rw [ofile]
    exact empty free
  · rw [idle.pending] at is
    cases is
  · rw [Own.slot, ofile]
    exact ok.uses u used
  · rw [closed] at under
    cases under
  · rw [idle.away] at away
    cases away

theorem Inv.staged (inv : Inv cfg st share) (alive : (st.procs pid).stage = .live) (apart : c ≠ pid) (low : c < cfg.nproc)
    (rest : (st.procs c).stage ≠ .live) {stage : Stage}
    (empty : stage = .unused ∨ stage = .zombie → (st.procs c).cwd = none ∧ ∀ fd < nofile, (st.procs c).ofile fd = none)
    (mine : ∀ d k, x = some (d, k) → ChildOk cfg (update st.procs c { st.procs c with stage := stage } d) d k ∧
      ∀ r l, r ≠ pid → (share r).child ≠ some (d, l))
    (others : ∀ r k, r ≠ pid → (share r).child ≠ some (c, k)) {R : Type} {reply : R} {post : R → Ghost → Prop}
    (known : post reply ((ghost st share pid).gives { share pid with child := x })) :
    (logic cfg).Ends pid st share post (.done (st.own c { st.procs c with stage := stage }) reply) := by
  have held : ∀ q, ((st.own c { st.procs c with stage := stage }).procs q).held = (st.procs q).held :=
    fun q => update_part Own.held (by rfl) q
  refine ⟨update share pid { share pid with child := x }, ⟨?_, ?_, inv.pipes.child, ?_, inv.locks.child rfl, inv.running⟩,
    fun other different => ghost_other (held other) (fun _ => Iff.rfl) (update_of_ne different _ _), ?_⟩
  · have nodes : NodesOk cfg st.itable (update st.ftable 0 (st.ftable 0))
        (update st.procs c { st.procs c with stage := stage }) :=
      inv.nodes.passed low (by decide) (fun _ => rfl) (inv.nodes.held c)
    rwa [update_id] at nodes
  · have files : FilesOk cfg st.ftable (update st.procs c { st.procs c with stage := stage }) share := by
      refine inv.files.congr (fun q f => ?_) fun _ => rfl
      have ofile : (update st.procs c { st.procs c with stage := stage } q).ofile = (st.procs q).ofile :=
        update_part Own.ofile (by rfl) q
      simp only [Own.shares, Own.slots, Own.slot, ofile]
    exact files.child
  · exact inv.procs.childed alive apart low ((inv.procs.each c).staged rest rfl rfl empty) mine others
  · have same : (logic cfg).ghost (st.own c { st.procs c with stage := stage }) (update share pid { share pid with child := x })
        pid = (ghost st share pid).gives { share pid with child := x } := ghost_gives (held pid) fun _ => Iff.rfl
    rw [same]
    exact known

theorem allocproc_does :
    Does (logic cfg) pid (.allocproc cfg.nproc) g fun reply after =>
      match reply with
      | none => after = g
      | some c => after = g.gives { g.share with child := some (c, 0) } := by
  refine does_run (fun _ _ _ _ => trivial) ?_
  rintro st share inv rfl alive running choice
  simp only [run, allocproc]
  by_cases room : choice.room = true
  · rw [if_pos room]
    by_cases free : choice.slot < cfg.nproc ∧ (st.procs choice.slot).stage = .unused
    · rw [if_pos free]
      have apart : choice.slot ≠ pid := by
        rintro same
        rw [same, alive] at free
        cases free.2
      have others : ∀ r k, r ≠ pid → (share r).child ≠ some (choice.slot, k) := by
        intro r k _ child
        have used := (inv.procs.child r choice.slot k child).stage
        rw [free.2] at used
        cases used
      have empty := (inv.procs.each choice.slot).empty (.inl free.2)
      refine inv.staged (x := some (choice.slot, 0)) alive apart free.1 (by rw [free.2]; rintro ⟨⟩) (fun _ => empty) (fun d k is => ?_) others rfl
      cases is
      refine ⟨?_, others⟩
      rw [update_self]
      exact ⟨free.1, rfl, fun fd low _ => empty.2 fd low, fun _ => empty.1⟩
    · rw [if_neg free]
      trivial
  · rw [if_neg room]
    exact does_same inv rfl

theorem freeproc_does (child : g.share.child = some (c, 0)) :
    Does (logic cfg) pid (.freeproc c) g fun _ after => after = g.gives { g.share with child := none } := by
  refine does_run (fun _ _ _ _ => trivial) ?_
  rintro st share inv rfl alive running choice
  have known := inv.procs.child pid c 0 child
  have apart : c ≠ pid := by
    rintro rfl
    rw [known.stage] at alive
    cases alive
  exact inv.staged (x := none) alive apart known.range (by rw [known.stage]; nofun)
    (fun _ => ⟨known.cwd (Nat.zero_le _), fun fd low => known.slots fd low (Nat.zero_le _)⟩) nofun
    (inv.procs.only_parent child) rfl

theorem start_does (child : g.share.child = some (c, k)) :
    Does (logic cfg) pid (.start c) g fun _ after => after = g.gives { g.share with child := none } := by
  refine does_run (fun _ _ _ _ => trivial) ?_
  rintro st share inv rfl alive running choice
  have known := inv.procs.child pid c k child
  have apart : c ≠ pid := by
    rintro rfl
    rw [known.stage] at alive
    cases alive
  exact inv.staged (x := none) alive apart known.range (by rw [known.stage]; nofun) (fun rest => by rcases rest with is | is <;> cases is)
    nofun (inv.procs.only_parent child) rfl

theorem reap_does : Does (logic cfg) pid .reap g fun _ after => after = g := by
  refine does_run (fun _ _ _ _ => trivial) ?_
  rintro st share inv rfl alive running choice
  simp only [run, reap]
  by_cases zombie : (st.procs choice.slot).stage = .zombie
  · rw [if_pos zombie]
    have apart : choice.slot ≠ pid := by
      rintro same
      rw [same, alive] at zombie
      cases zombie
    have notChild : ∀ r d k, (share r).child = some (d, k) → d ≠ choice.slot := by
      rintro r d k child rfl
      have used := (inv.procs.child r _ k child).stage
      rw [zombie] at used
      cases used
    refine inv.staged (x := (share pid).child) alive apart (inv.procs.runs (by rw [zombie]; rintro ⟨⟩)) (by rw [zombie]; rintro ⟨⟩)
      (fun _ => (inv.procs.each choice.slot).empty (.inr zombie)) (fun d k is => ?_)
      (fun r k _ child => notChild r _ k child rfl) rfl
    refine ⟨?_, inv.procs.only_parent is⟩
    rw [update_of_ne (notChild pid d k is)]
    exact inv.procs.child pid d k is
  · rw [if_neg zombie]
    exact does_same inv rfl

theorem forkFile_does (child : g.share.child = some (c, fd)) (inside : fd < nofile) (counted : g.share.pending = none)
    (fresh : g.share.fresh = []) :
    Does (logic cfg) pid (.forkFile c fd) g fun _ after => after = g.gives { g.share with child := some (c, fd + 1) } := by
  refine does_run (fun _ _ _ _ => trivial) ?_
  rintro st share inv rfl alive running choice
  change (share pid).child = some (c, fd) at child
  change (share pid).pending = none at counted
  change (share pid).fresh = [] at fresh
  have known := inv.procs.child pid c fd child
  have apart : c ≠ pid := by
    rintro rfl
    rw [known.stage] at alive
    cases alive
  have rest : (st.procs c).stage ≠ .live := by
    rw [known.stage]
    nofun
  simp only [run, forkFile]
  cases here : (st.procs pid).ofile fd with
  | none =>
    have same : st.own c { st.procs c with stage := (st.procs c).stage } = st := State.own_self st c
    have ends : (logic cfg).Ends pid st share (fun (_ : Unit) after => after = (ghost st share pid).gives
        { share pid with child := some (c, fd + 1) })
        (.done (st.own c { st.procs c with stage := (st.procs c).stage }) ()) := by
      refine inv.staged alive apart known.range rest (inv.procs.each c).empty (fun d k is => ?_)
        (inv.procs.only_parent child) rfl
      cases is
      refine ⟨?_, inv.procs.only_parent child⟩
      rw [update_self]
      exact ⟨known.range, known.stage, fun fd' low above => known.slots fd' low (by omega),
        fun below => known.cwd (by omega)⟩
    rwa [same] at ends
  | some f =>
    have mine : 0 < (st.procs pid).shares (share pid) f := shares_of_slot inside (by rwa [counted, slot_none])
    have live := inv.files.live running mine
    have low := inv.low_share running mine
    have empty := known.slots fd inside le_rfl
    obtain ⟨_, idle, _⟩ := (inv.procs.each c).idle rest
    have shares : ∀ g, ((st.procs c).fill fd (some f)).shares (share c) g =
        (st.procs c).shares (share c) g + points (some f) g := by
      intro g
      rw [shares_counted idle.pending, shares_counted idle.pending, slots_fill inside empty]
      omega
    simp only
    rw [if_neg (by omega)]
    generalize is : { st.ftable f with ref := (st.ftable f).ref + 1 } = file
    have ref : file.ref = (st.ftable f).ref + 1 := by rw [← is]
    have node : file.node = (st.ftable f).node := by rw [← is]; rfl
    have nodes : ∀ g, (update st.ftable f file g).node = (st.ftable g).node := update_part File.node node
    have files : FilesOk cfg (update st.ftable f file) (update st.procs c ((st.procs c).fill fd (some f)))
        (update share c (share c)) := by
      refine inv.files.changed known.range (fun g => ?_) (fun _ => low) (fun zero => ?_) (fun r other member => ?_)
        (fun g member => ?_) (inv.files.distinct c)
      · rw [shares]
        by_cases same : g = f
        · rw [same, update_self, points_same, ref]
          omega
        · rw [update_of_ne same, points_else same, add_zero]
      · omega
      · by_cases parent : r = pid
        · rw [parent, fresh] at member
          cases member
        · exact inv.files.alone running mine (inv.procs.runs_fresh member) parent member
      · rw [idle.fresh] at member
        cases member
    have pipes : PipesOk cfg (update st.ftable f file) st.pipes (update share c (share c)) := by
      refine inv.pipes.changed known.range low ?_ fun p writable => ?_
      · rw [← is]
        exact inv.pipes.sides f
      · rw [← is]
        rfl
    rw [update_id] at files pipes
    have held : ∀ q, (update st.procs c ((st.procs c).fill fd (some f)) q).held = (st.procs q).held :=
      update_part Own.held (by rfl)
    have procs : ProcsOk cfg st.ftable (update st.procs c ((st.procs c).fill fd (some f)))
        (update share pid { share pid with child := some (c, fd + 1) }) := by
      refine inv.procs.childed alive apart known.range ?_ (fun d k eq => ?_) (inv.procs.only_parent child)
      · refine (inv.procs.each c).embryo rest known.stage rfl fun fd' _ some => fill_other ?_
        rintro rfl
        exact some empty
      cases eq
      refine ⟨?_, inv.procs.only_parent child⟩
      rw [update_self]
      refine ⟨known.range, known.stage, fun fd' low above => ?_, fun below => known.cwd (by omega)⟩
      rw [fill_other (by omega)]
      exact known.slots fd' low (by omega)
    refine ⟨update share pid { share pid with child := some (c, fd + 1) }, ⟨?_, files.child, pipes.child, ?_,
      inv.locks.child rfl, inv.running⟩, fun other different => ?_, ?_⟩
    · exact inv.nodes.passed known.range low (fun jp => by rw [node]; rfl) (inv.nodes.held c)
    · refine { procs with each := fun q => ?_ }
      have each := procs.each q
      refine { each with uses := fun u used => ?_ }
      change u.fd < nofile ∧ _ ∧ (update st.ftable f file u.f).node = u.node
      rw [nodes]
      exact each.uses u used
    · exact ghost_other (held other) (fun _ => Iff.rfl) (update_of_ne different _ _)
    · exact ghost_gives (held pid) fun _ => Iff.rfl

theorem forkCwd_does (child : g.share.child = some (c, nofile)) :
    Does (logic cfg) pid (.forkCwd c) g fun _ after => after = g.gives { g.share with child := some (c, nofile + 1) } := by
  refine does_run (fun _ _ _ _ => trivial) ?_
  rintro st share inv rfl alive running choice
  change (share pid).child = some (c, nofile) at child
  have known := inv.procs.child pid c nofile child
  have apart : c ≠ pid := by
    rintro rfl
    rw [known.stage] at alive
    cases alive
  have rest : (st.procs c).stage ≠ .live := by
    rw [known.stage]
    nofun
  simp only [run, forkCwd]
  cases here : (st.procs pid).cwd with
  | none => trivial
  | some ip =>
    have live := inv.nodes.live running (count_cwd here)
    have empty := known.cwd le_rfl
    have held : ∀ q, (update st.procs c { st.procs c with cwd := some ip } q).held = (st.procs q).held :=
      fun q => update_part Own.held (by rfl) q
    have locks : ∀ jp, (update st.itable ip { st.itable ip with ref := (st.itable ip).ref + 1 } jp).lock =
        (st.itable jp).lock := fun jp => update_part Inode.lock (by rfl) jp
    refine ⟨update share pid { share pid with child := some (c, nofile + 1) }, ⟨?_, ?_, inv.pipes.child, ?_, ?_, inv.running⟩,
      fun other different => ?_, ?_⟩
    · refine inv.nodes.moved known.range (fun jp => ?_) (fun _ => inv.nodes.inside ip live)
        (fun _ jp different also equal => different (inv.nodes.unique jp ip also live equal)) (fun _ => rfl) fun r member => ?_
      · simp only [count, empty, points_none]
        by_cases same : jp = ip
        · rw [same, update_self, points_same]
          simp only
          omega
        · rw [update_of_ne same, points_else same]
      have inum : (update st.itable ip { st.itable ip with ref := (st.itable ip).ref + 1 } r.1).inum =
          (st.itable r.1).inum := update_part Inode.inum (by rfl) r.1
      rw [inum]
      exact inv.nodes.held c r member
    · have files : FilesOk cfg st.ftable (update st.procs c { st.procs c with cwd := some ip }) share := by
        refine inv.files.congr (fun q f => ?_) fun _ => rfl
        have ofile : (update st.procs c { st.procs c with cwd := some ip } q).ofile = (st.procs q).ofile :=
          update_part Own.ofile (by rfl) q
        simp only [Own.shares, Own.slots, Own.slot, ofile]
      exact files.child
    · refine inv.procs.childed alive apart known.range ?_ (fun d k eq => ?_) (inv.procs.only_parent child)
      · exact (inv.procs.each c).embryo rest known.stage rfl fun _ _ _ => rfl
      cases eq
      refine ⟨?_, inv.procs.only_parent child⟩
      rw [update_self]
      exact ⟨known.range, known.stage, fun fd' low above => known.slots fd' low (by omega), fun below => by omega⟩
    · have after : LocksOk st.itable (update st.procs c { st.procs c with cwd := some ip })
          (update share pid { share pid with child := some (c, nofile + 1) }) := inv.locks.child rfl
      exact fun jp q locked => after jp q ((locks jp).symm.trans locked)
    · exact ghost_other (held other) (fun jp => by rw [← locks jp]; rfl) (update_of_ne different _ _)
    · exact ghost_gives (held pid) fun jp => by rw [← locks jp]; rfl

theorem exited_does (held : g.held = []) (unlocked : ∀ jp, g.locks jp = false) (files : g.share.files = [])
    (fresh : g.share.fresh = []) (pending : g.share.pending = none) (ends : g.share.ends = [])
    (childless : g.share.child = none) (away : g.share.away = true) (closed : nofile ≤ g.share.closed) :
    Does (logic cfg) pid .exited g fun _ after => after = g.gives { g.share with away := false, closed := 0 } := by
  refine does_run (fun _ _ _ _ => trivial) ?_
  rintro st share inv rfl alive running choice
  have each := inv.procs.each pid
  change (share pid).pending = none at pending
  change nofile ≤ (share pid).closed at closed
  have empty : ∀ fd < nofile, (st.procs pid).ofile fd = none := by
    intro fd low
    exact each.slots fd low (by omega)
  have uses : ∀ u ∈ (share pid).uses, False := by
    intro u used
    obtain ⟨low, slot, _⟩ := each.uses u used
    rw [pending, slot_none, empty u.fd low] at slot
    cases slot
  refine ⟨update share pid { share pid with away := false, closed := 0 }, ⟨?_, ?_, ?_, ?_, ?_, inv.running⟩,
    fun other different => ?_, ghost_gives ?_ fun _ => Iff.rfl⟩
  · have nodes : NodesOk cfg st.itable (update st.ftable 0 (st.ftable 0))
        (update st.procs pid { st.procs pid with stage := .zombie }) :=
      inv.nodes.passed running (by decide) (fun _ => rfl) (inv.nodes.held pid)
    rwa [update_id] at nodes
  · refine inv.files.congr (fun q f => ?_) (update_part Share.fresh (by rfl))
    have ofile : ((st.own pid { st.procs pid with stage := .zombie }).procs q).ofile = (st.procs q).ofile :=
      update_part Own.ofile (by rfl) q
    have parts : (update share pid { share pid with away := false, closed := 0 } q).pending = (share q).pending :=
      update_part Share.pending (by rfl) q
    have lists : (update share pid { share pid with away := false, closed := 0 } q).files = (share q).files :=
      update_part Share.files (by rfl) q
    simp only [Own.shares, Own.slots, Own.slot, ofile, parts, lists]
  · exact inv.pipes.congr (update_part Share.ends (by rfl))
  · refine inv.procs.changed alive ⟨fun _ => ⟨held, ⟨files, fresh, pending, ends, childless, rfl⟩, rfl⟩,
      fun _ => ⟨each.cwd away, empty⟩, fun fd f is => ?_, fun u used => (uses u used).elim, by rintro _ _ ⟨⟩, by rintro ⟨⟩⟩ (fun _ _ _ _ => rfl)
      rfl
    rw [pending] at is
    cases is
  · refine inv.locks.changed (fun _ _ _ locked => locked) fun jp locked => ?_
    have free := unlocked jp
    simp only [ghost, decide_eq_false_iff_not] at free
    exact absurd locked free
  · refine ghost_other ?_ (fun _ => Iff.rfl) (update_of_ne different _ _)
    simp [State.own, update_of_ne different]
  · simp [State.own]

end Xv6.Names

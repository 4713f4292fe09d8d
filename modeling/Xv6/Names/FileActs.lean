import Xv6.Names.Acts

/-!
What the actions on files and descriptors do.
-/

namespace Xv6.Names

open Lib Lib.Interleave List State Own
open Function

variable {file : File} {own : Own} {sh : Share} {R : Type} {u : Use}

variable {cfg : Config} {st : State} {share : Nat → Share} {pid f fd : Nat} {g : Ghost}

theorem ProcsOk.runs_fresh {ftable : Nat → File} {procs : Nat → Own} {q : Nat} (ok : ProcsOk cfg ftable procs share)
    (member : f ∈ (share q).fresh) : q < cfg.nproc := by
  apply ok.runs
  intro unused
  have idle := ((ok.each q).idle (by rw [unused]; decide)).2.1
  rw [idle.fresh] at member
  cases member

theorem ghost_filed :
    ghost ((st.setFile f file).own pid own) (update share pid sh) pid = ⟨own.held, (ghost st share pid).locks, sh⟩ := by
  simp only [ghost, State.own, setFile, update_self]
  rfl

theorem ghost_filed_other {other : Nat} (different : other ≠ pid) :
    ghost ((st.setFile f file).own pid own) (update share pid sh) other = ghost st share other := by
  refine ghost_other ?_ (fun _ => Iff.rfl) (update_of_ne different _ _)
  simp [State.own, setFile, update_of_ne different]

structure Filed (cfg : Config) (st : State) (share : Nat → Share) (pid f : Nat) (file : File) (own : Own) (sh : Share) :
    Prop where
  low : f < nfile
  mine : (st.ftable f).ref = 0 ∨ 0 < (st.procs pid).shares (share pid) f
  nodes : ∀ jp, (st.procs pid).count jp + points (st.ftable f).node jp = own.count jp + points file.node jp
  inums : ∀ r ∈ own.held, (st.itable r.1).inum = r.2
  count : ∀ g, (update st.ftable f file g).ref + (st.procs pid).shares (share pid) g =
    (st.ftable g).ref + own.shares sh g
  closed : file.ref = 0 → file.type = .none
  fresh : ∀ g ∈ sh.fresh, FreshOk (update st.ftable f file g) own sh g
  distinct : sh.fresh.Nodup
  sides : file.type = .pipe → file.readable = !file.writable
  ends : ∀ p writable, file.isEnd p writable + sh.ends.count (p, writable) =
    (st.ftable f).isEnd p writable + (share pid).ends.count (p, writable)
  each : OwnOk (update st.ftable f file) own sh
  node : file.node = (st.ftable f).node ∨ (st.ftable f).ref ≤ 1
  child : sh.child = (share pid).child
  locks : ∀ jp, (st.itable jp).lock = some pid → Refers own.held sh jp

theorem Filed.inv (filed : Filed cfg st share pid f file own sh) (inv : Inv cfg st share)
    (alive : (st.procs pid).stage = .live) : Inv cfg ((st.setFile f file).own pid own) (update share pid sh) := by
  have running := inv.procs.runs (by rw [alive]; decide : (st.procs pid).stage ≠ .unused)
  refine ⟨inv.nodes.passed running filed.low filed.nodes filed.inums, ?_,
    inv.pipes.changed running filed.low filed.sides filed.ends, ?_, ?_, inv.running⟩
  · refine inv.files.changed running filed.count (fun _ => filed.low) filed.closed (fun r different member => ?_)
      filed.fresh filed.distinct
    rcases filed.mine with none | some
    · have one := (inv.files.fresh r f member).ref
      omega
    · exact inv.files.alone running some (inv.procs.runs_fresh member) different member
  · refine inv.procs.changed alive filed.each (fun r different u member => ?_) filed.child
    change (update st.ftable f file u.f).node = (st.ftable u.f).node
    by_cases here : u.f = f
    · rw [here, update_self]
      rcases filed.node with same | last
      · exact same
      have also := inv.procs.shares_use member
      rw [here] at also
      have runs := inv.procs.runs_use member
      have live := inv.files.live runs also
      rcases filed.mine with none | some
      · omega
      · have none := inv.files.only running (by omega) some runs different
        omega
    · rw [update_of_ne here]
  · exact inv.locks.changed (fun _ _ _ locked => locked) filed.locks

variable {reply : R} {post : R → Ghost → Prop}

theorem Filed.ends_done (filed : Filed cfg st share pid f file own sh)
    (inv : Inv cfg st share) (alive : (st.procs pid).stage = .live)
    (known : post reply ⟨own.held, (ghost st share pid).locks, sh⟩) :
    (logic cfg).Ends pid st share post (.done ((st.setFile f file).own pid own) reply) := by
  refine ⟨update share pid sh, filed.inv inv alive, fun other different => ghost_filed_other different, ?_⟩
  have mine : (logic cfg).ghost ((st.setFile f file).own pid own) (update share pid sh) pid =
      ⟨own.held, (ghost st share pid).locks, sh⟩ := ghost_filed
  rw [mine]
  exact known

theorem State.own_self (st : State) (pid : Nat) : st.own pid (st.procs pid) = st := by
  rw [State.own, update_id]

theorem State.setFile_self (st : State) (f : Nat) : st.setFile f (st.ftable f) = st := by
  rw [setFile, update_id]

theorem does_same {action : Act} {post : action.Reply → Ghost → Prop} {st : State} {share : Nat → Share}
    {reply : action.Reply} (inv : Inv cfg st share) (known : post reply (ghost st share pid)) :
    (logic cfg).Ends pid st share post (.done st reply) := ⟨share, inv, fun _ _ => rfl, known⟩

structure Recounted (cfg : Config) (st : State) (share : Nat → Share) (pid f ref : Nat) (own : Own) (sh : Share) :
    Prop where
  low : f < nfile
  mine : (st.ftable f).ref = 0 ∨ 0 < (st.procs pid).shares (share pid) f
  kept : ref ≠ 0
  held : own.held = (st.procs pid).held
  cwd : own.cwd = (st.procs pid).cwd
  count : ∀ g, (if g = f then ref else (st.ftable g).ref) + (st.procs pid).shares (share pid) g =
    (st.ftable g).ref + own.shares sh g
  fresh : ∀ g ∈ sh.fresh, (if g = f then ref else (st.ftable g).ref) = 1 ∧ (st.ftable g).type = .none ∧ 0 < own.shares sh g
  distinct : sh.fresh.Nodup
  ends : sh.ends = (share pid).ends
  child : sh.child = (share pid).child
  each : OwnOk st.ftable own sh
  locks : ∀ jp, (st.itable jp).lock = some pid → Refers (st.procs pid).held sh jp

theorem Recounted.filed {ref : Nat} (re : Recounted cfg st share pid f ref own sh) (inv : Inv cfg st share) :
    Filed cfg st share pid f { st.ftable f with ref := ref } own sh := by
  have table : ∀ g, (update st.ftable f { st.ftable f with ref := ref } g).ref = if g = f then ref else (st.ftable g).ref := by
    intro g
    by_cases here : g = f
    · rw [here, update_self, if_pos rfl]
    · rw [update_of_ne here, if_neg here]
  have types : ∀ g, (update st.ftable f { st.ftable f with ref := ref } g).type = (st.ftable g).type :=
    fun g => update_part File.type (by rfl) g
  have nodes : ∀ g, (update st.ftable f { st.ftable f with ref := ref } g).node = (st.ftable g).node :=
    fun g => update_part File.node (by rfl) g
  refine ⟨re.low, re.mine, fun jp => ?_, ?_, fun g => ?_, fun none => absurd none re.kept, fun g member => ?_,
    re.distinct, inv.pipes.sides f, fun p writable => ?_, ?_, .inl rfl, re.child, ?_⟩
  · rw [Own.count, Own.count, re.held, re.cwd]
    rfl
  · rw [re.held]
    exact inv.nodes.held pid
  · rw [table]
    exact re.count g
  · obtain ⟨one, type, mine⟩ := re.fresh g member
    exact ⟨(table g).trans one, (types g).trans type, mine⟩
  · rw [re.ends]
    rfl
  · refine { re.each with uses := fun u member => ?_ }
    rw [nodes]
    exact re.each.uses u member
  · rw [re.held]
    exact re.locks

theorem Recounted.ends_done {ref : Nat}
    (re : Recounted cfg st share pid f ref own sh) (inv : Inv cfg st share) (alive : (st.procs pid).stage = .live)
    (known : post reply ⟨(st.procs pid).held, (ghost st share pid).locks, sh⟩) :
    (logic cfg).Ends pid st share post (.done ((st.setFile f { st.ftable f with ref := ref }).own pid own) reply) := by
  refine (re.filed inv).ends_done inv alive ?_
  rw [re.held]
  exact known

theorem Inv.low_share (inv : Inv cfg st share) (running : pid < cfg.nproc)
    (some : 0 < (st.procs pid).shares (share pid) f) : f < nfile :=
  inv.files.inside f (inv.files.live running some)

structure Reslotted (st : State) (share : Nat → Share) (pid : Nat) (own : Own) (sh : Share) : Prop where
  held : own.held = (st.procs pid).held
  cwd : own.cwd = (st.procs pid).cwd
  shares : ∀ g, own.shares sh g = (st.procs pid).shares (share pid) g
  fresh : sh.fresh = (share pid).fresh
  ends : sh.ends = (share pid).ends
  child : sh.child = (share pid).child
  each : OwnOk st.ftable own sh
  locks : ∀ jp, (st.itable jp).lock = some pid → Refers (st.procs pid).held sh jp

theorem Reslotted.inv (re : Reslotted st share pid own sh) (inv : Inv cfg st share)
    (alive : (st.procs pid).stage = .live) : Inv cfg (st.own pid own) (update share pid sh) := by
  have running := inv.procs.runs (by rw [alive]; decide : (st.procs pid).stage ≠ .unused)
  refine ⟨?_, ?_, inv.pipes.congr (update_part Share.ends re.ends),
    inv.procs.changed alive re.each (fun _ _ _ _ => rfl) re.child, ?_, inv.running⟩
  · have nodes : NodesOk cfg st.itable (update st.ftable 0 (st.ftable 0)) (update st.procs pid own) := by
      refine inv.nodes.passed running (by decide) (fun jp => ?_) ?_
      · rw [Own.count, Own.count, re.held, re.cwd]
      · rw [re.held]
        exact inv.nodes.held pid
    rwa [update_id] at nodes
  · refine inv.files.congr (fun q g => ?_) (update_part Share.fresh re.fresh)
    obtain rfl | here := eq_or_ne q pid
    · simpa [State.own] using re.shares g
    · simp [State.own, update_of_ne here]
  · refine inv.locks.changed (fun _ _ _ locked => locked) ?_
    rw [re.held]
    exact re.locks

theorem Reslotted.ends_done (re : Reslotted st share pid own sh)
    (inv : Inv cfg st share) (alive : (st.procs pid).stage = .live)
    (known : post reply ⟨(st.procs pid).held, (ghost st share pid).locks, sh⟩) :
    (logic cfg).Ends pid st share post (.done (st.own pid own) reply) := by
  have state : st.own pid own = (st.setFile 0 (st.ftable 0)).own pid own := by rw [setFile_self]
  refine ⟨update share pid sh, re.inv inv alive, fun other different => ?_, ?_⟩
  · rw [state]
    exact ghost_filed_other different
  have mine : (logic cfg).ghost (st.own pid own) (update share pid sh) pid =
      ⟨(st.procs pid).held, (ghost st share pid).locks, sh⟩ := by
    rw [state, ← re.held]
    exact ghost_filed
  rw [mine]
  exact known

theorem Reslotted.ends_self (re : Reslotted st share pid (st.procs pid) sh)
    (inv : Inv cfg st share) (alive : (st.procs pid).stage = .live)
    (known : post reply ⟨(st.procs pid).held, (ghost st share pid).locks, sh⟩) :
    (logic cfg).Ends pid st share post (.done st reply) := by
  have ends := re.ends_done inv alive known
  rwa [own_self] at ends

theorem count_more (f g : Nat) (files : List Nat) : (f :: files).count g = files.count g + points (some f) g := by
  by_cases same : f = g
  · rw [same, count_cons_self, points_same]
  · rw [count_cons_of_ne same, points_other (mt Option.some.inj same), add_zero]

theorem count_less {files : List Nat} (member : f ∈ files) (g : Nat) :
    (files.erase f).count g + points (some f) g = files.count g := by
  rw [← count_more]
  exact ((perm_cons_erase member).count_eq g).symm

theorem points_else {g : Nat} (different : g ≠ f) : points (some f) g = 0 :=
  points_other fun equal => different (Option.some.inj equal).symm

theorem filealloc_does : Does (logic cfg) pid .filealloc g fun reply after =>
    match reply with
    | none => after = g
    | some f => f ∉ g.share.fresh ∧
        after = g.gives { g.share with files := f :: g.share.files, fresh := f :: g.share.fresh } := by
  refine does_run (fun _ _ _ _ => trivial) ?_
  rintro st share inv rfl alive running choice
  simp only [run, filealloc]
  split
  · rename_i f found
    have empty := List.find?_some found
    have low := mem_range.mp (mem_of_find?_eq_some found)
    simp only [decide_eq_true_eq] at empty
    have each := inv.procs.each pid
    have new : ∀ g ∈ (share pid).fresh, g ≠ f := by
      rintro g member rfl
      have one := (inv.files.fresh pid g member).ref
      omega
    generalize is : { share pid with files := f :: (share pid).files, fresh := f :: (share pid).fresh } = sh
    have shares : ∀ g, (st.procs pid).shares sh g = (st.procs pid).shares (share pid) g + points (some f) g := by
      intro g
      rw [← is, Own.shares, Own.shares, count_more]
      exact (add_assoc _ _ _).symm
    have re : Recounted cfg st share pid f 1 (st.procs pid) sh := by
      refine ⟨low, .inl empty, by decide, rfl, rfl, fun g => ?_, fun g member => ?_, ?_, by rw [← is], by rw [← is], ?_,
        fun jp => ?_⟩
      · rw [shares]
        by_cases here : g = f
        · rw [if_pos here, here, points_same, empty]
          omega
        · rw [if_neg here, points_else here, add_zero]
      · rw [shares]
        rw [← is] at member
        rcases mem_cons.mp member with rfl | old
        · rw [if_pos rfl, points_same]
          exact ⟨rfl, inv.files.closed g empty, Nat.succ_pos _⟩
        · have fresh := inv.files.fresh pid g old
          rw [if_neg (new g old)]
          exact ⟨fresh.ref, fresh.type, Nat.add_pos_left fresh.mine _⟩
      · rw [← is]
        exact nodup_cons.mpr ⟨fun member => new f member rfl, inv.files.distinct pid⟩
      · rw [← is]
        exact { each with idle := fun rest => absurd alive rest }
      · rw [← is]
        exact inv.locks jp pid
    rw [← own_self (st.setFile f _) pid]
    exact re.ends_done inv alive ⟨fun member => new f member rfl, by rw [← is]; rfl⟩
  · exact does_same inv rfl

theorem fdalloc_does (member : f ∈ g.share.files) (counted : g.share.pending = none) :
    Does (logic cfg) pid (.fdalloc f) g fun reply after =>
      match reply with
      | none => after = g
      | some fd => (∀ u ∈ g.share.uses, u.fd ≠ fd) ∧ ∃ n, (f ∈ g.share.fresh → n = none) ∧ after = g.gives
          { g.share with files := g.share.files.erase f, uses := ⟨fd, f, n⟩ :: g.share.uses, closed := 0 } := by
  refine does_run (fun _ _ _ _ => trivial) ?_
  rintro st share inv rfl alive running choice
  change f ∈ (share pid).files at member
  change (share pid).pending = none at counted
  simp only [run, fdalloc]
  split
  · rename_i fd found
    have empty := List.find?_some found
    have inside := mem_range.mp (mem_of_find?_eq_some found)
    simp only [decide_eq_true_eq] at empty
    have each := inv.procs.each pid
    have apart : ∀ u ∈ (share pid).uses, u.fd ≠ fd := by
      intro u old same
      obtain ⟨_, slot, _⟩ := each.uses u old
      rw [counted, slot_none, same, empty] at slot
      cases slot
    have re : Reslotted st share pid ((st.procs pid).fill fd (some f))
        { share pid with files := (share pid).files.erase f, uses := ⟨fd, f, (st.ftable f).node⟩ :: (share pid).uses
                         closed := 0 } := by
      refine ⟨rfl, rfl, fun g => ?_, rfl, rfl, rfl, ?_, fun jp locked => ?_⟩
      · have slots := slots_fill (f := f) inside empty g
        have files := count_less member g
        rw [shares_counted counted, Own.shares]
        simp only [counted, slots]
        omega
      · refine .of_live alive (fun fd' f' is => ?_) (fun u used => ?_) (by rintro _ _ ⟨⟩) each.cwd
        · rw [counted] at is
          cases is
        rw [counted]
        rcases mem_cons.mp used with rfl | old
        · exact ⟨inside, fill_self, rfl⟩
        · obtain ⟨low, slot, node⟩ := each.uses u old
          rw [counted, slot_none] at slot
          exact ⟨low, (fill_other (apart u old)).trans slot, node⟩
      · rcases inv.locks jp pid locked with held | ⟨u, used, node⟩
        · exact .inl held
        · exact .inr ⟨u, mem_cons_of_mem _ used, node⟩
    refine re.ends_done inv alive ⟨apart, _, fun fresh => ?_, rfl⟩
    rw [File.node, (inv.files.fresh pid f fresh).type]
  · exact does_same inv rfl

theorem fdalloc_early (member : u ∈ g.share.uses) (counted : g.share.pending = none) :
    Does (logic cfg) pid (.fdalloc u.f) g fun reply after =>
      match reply with
      | none => after = g
      | some fd => after = g.gives { g.share with pending := some (fd, u.f), closed := 0 } := by
  refine does_run (fun _ _ _ _ => trivial) ?_
  rintro st share inv rfl alive running choice
  change u ∈ (share pid).uses at member
  change (share pid).pending = none at counted
  simp only [run, fdalloc]
  split
  · rename_i fd found
    have empty := List.find?_some found
    have inside := mem_range.mp (mem_of_find?_eq_some found)
    simp only [decide_eq_true_eq] at empty
    have each := inv.procs.each pid
    have re : Reslotted st share pid ((st.procs pid).fill fd (some u.f))
        { share pid with pending := some (fd, u.f), closed := 0 } := by
      refine ⟨rfl, rfl, fun g => ?_, rfl, rfl, rfl, ?_, fun jp => inv.locks jp pid⟩
      · have fill := slots_fill (f := u.f) inside empty g
        have hide := slots_hide inside (fill_self : ((st.procs pid).fill fd (some u.f)).ofile fd = some u.f) g
        rw [shares_counted counted, Own.shares]
        simp only
        omega
      refine .of_live alive (fun fd' f' is => ?_) (fun v used => ?_) (by rintro _ _ ⟨⟩) each.cwd
      · cases is
        exact ⟨inside, fill_self⟩
      obtain ⟨low, slot, node⟩ := each.uses v used
      rw [counted, slot_none] at slot
      have other : v.fd ≠ fd := by
        intro same
        rw [same, empty] at slot
        cases slot
      exact ⟨low, (slot_other other).trans ((fill_other other).trans slot), node⟩
    exact re.ends_done inv alive rfl
  · exact does_same inv rfl

theorem filedup_does (member : u ∈ g.share.uses) (pending : g.share.pending = some (fd, u.f))
    (fresh : g.share.fresh = []) :
    Does (logic cfg) pid (.filedup u.f) g fun _ after => after = g.gives { g.share with pending := none } := by
  refine does_run (fun _ _ _ _ => trivial) ?_
  rintro st share inv rfl alive running choice
  change u ∈ (share pid).uses at member
  change (share pid).pending = some (fd, u.f) at pending
  change (share pid).fresh = [] at fresh
  have mine := inv.procs.shares_use member
  have live := inv.files.live running mine
  have each := inv.procs.each pid
  obtain ⟨inside, here⟩ := each.pending fd u.f pending
  simp only [run, filedup]
  rw [if_neg (by omega), ← own_self (st.setFile u.f _) pid]
  have re : Recounted cfg st share pid u.f ((st.ftable u.f).ref + 1) (st.procs pid) { share pid with pending := none } := by
    refine ⟨inv.low_share running mine, .inr mine, by omega, rfl, rfl, fun g => ?_, fun g known => ?_,
      inv.files.distinct pid, rfl, rfl, ?_, fun jp => inv.locks jp pid⟩
    · have hide := slots_hide inside here g
      rw [Own.shares, Own.shares, pending]
      simp only
      by_cases same : g = u.f
      · rw [same, points_same] at hide
        rw [if_pos same, same]
        omega
      · rw [points_else same] at hide
        rw [if_neg same]
        omega
    · rw [fresh] at known
      cases known
    · refine .of_live alive (by rintro _ _ ⟨⟩) (fun v used => ?_) each.slots each.cwd
      obtain ⟨low, slot, node⟩ := each.uses v used
      rw [pending, Own.slot] at slot
      split at slot
      · cases slot
      · exact ⟨low, slot, node⟩
  exact re.ends_done inv alive rfl

theorem clearFd_does (member : u ∈ g.share.uses) (counted : g.share.pending = none)
    (unlocked : ∀ jp, g.locks jp = false) :
    Does (logic cfg) pid (.clearFd u.fd) g fun _ after => after = g.gives
      { g.share with files := u.f :: g.share.files, uses := g.share.uses.filter fun v => v.fd ≠ u.fd } := by
  refine does_run (fun _ _ _ _ => trivial) ?_
  rintro st share inv rfl alive running choice
  change u ∈ (share pid).uses at member
  change (share pid).pending = none at counted
  have each := inv.procs.each pid
  obtain ⟨inside, here, _⟩ := each.uses u member
  rw [counted, slot_none] at here
  have re : Reslotted st share pid ((st.procs pid).fill u.fd none)
      { share pid with files := u.f :: (share pid).files, uses := (share pid).uses.filter fun v => v.fd ≠ u.fd } := by
    refine ⟨rfl, rfl, fun g => ?_, rfl, rfl, rfl, ?_, fun jp locked => ?_⟩
    · have clear := slots_clear inside here g
      rw [shares_counted counted, Own.shares]
      simp only [counted, count_more]
      omega
    · refine .of_live alive (fun fd' f' is => ?_) (fun v used => ?_) (fun fd low under => ?_) each.cwd
      · rw [counted] at is
        cases is
      · obtain ⟨old, other⟩ := mem_filter.mp used
        have different : v.fd ≠ u.fd := by simpa using other
        obtain ⟨low, slot, node⟩ := each.uses v old
        rw [counted, slot_none] at slot
        rw [counted]
        exact ⟨low, (fill_other different).trans slot, node⟩
      · by_cases same : fd = u.fd
        · rw [same]
          exact fill_self
        · exact (fill_other same).trans (each.slots fd low under)
    · have free := unlocked jp
      simp [ghost, locked] at free
  exact re.ends_done inv alive rfl

theorem clearFd_late (pending : g.share.pending = some (fd, f)) (closed : fd ≤ g.share.closed) :
    Does (logic cfg) pid (.clearFd fd) g fun _ after => after = g.gives
      { g.share with pending := none, closed := fd + 1 } := by
  refine does_run (fun _ _ _ _ => trivial) ?_
  rintro st share inv rfl alive running choice
  change (share pid).pending = some (fd, f) at pending
  change fd ≤ (share pid).closed at closed
  have each := inv.procs.each pid
  obtain ⟨inside, here⟩ := each.pending fd f pending
  have re : Reslotted st share pid ((st.procs pid).fill fd none)
      { share pid with pending := none, closed := fd + 1 } := by
    refine ⟨rfl, rfl, fun g => ?_, rfl, rfl, rfl, ?_, fun jp => inv.locks jp pid⟩
    · have clear := slots_clear inside here g
      have hide := slots_hide inside here g
      rw [Own.shares, Own.shares, pending]
      simp only
      omega
    refine .of_live alive (by rintro _ _ ⟨⟩) (fun u used => ?_) (fun fd' low under => ?_) each.cwd
    · obtain ⟨low, slot, node⟩ := each.uses u used
      have other : u.fd ≠ fd := by
        intro same
        rw [pending, same, slot_pending] at slot
        cases slot
      rw [pending, slot_other other] at slot
      exact ⟨low, (fill_other other).trans slot, node⟩
    · by_cases same : fd' = fd
      · rw [same]
        exact fill_self
      · refine (fill_other same).trans (each.slots fd' low ?_)
        simp only at under
        omega
  exact re.ends_done inv alive rfl

theorem argfd_does (counted : g.share.pending = none) : Does (logic cfg) pid (.argfd fd) g fun reply after =>
    match reply with
    | none => ∃ k, (fd ≤ g.share.closed → fd < k) ∧ after = g.gives { g.share with closed := k }
    | some f => ∃ n, after = g.gives { g.share with uses := ⟨fd, f, n⟩ :: g.share.uses } := by
  refine does_run (fun _ _ _ _ => trivial) ?_
  rintro st share inv rfl alive running choice
  change (share pid).pending = none at counted
  have each := inv.procs.each pid
  simp only [run, argfd]
  cases reply : (if fd < nofile then (st.procs pid).ofile fd else none) with
  | none =>
    have empty : fd < nofile → (st.procs pid).ofile fd = none := fun inside => by rwa [if_pos inside] at reply
    have re : Reslotted st share pid (st.procs pid)
        { share pid with closed := if fd = (share pid).closed then fd + 1 else (share pid).closed } := by
      refine ⟨rfl, rfl, fun g => rfl, rfl, rfl, rfl, ?_, fun jp => inv.locks jp pid⟩
      refine .of_live alive each.pending each.uses (fun other low under => ?_) each.cwd
      simp only at under
      by_cases next : fd = (share pid).closed
      · rw [if_pos next] at under
        by_cases same : other = fd
        · rw [same]
          exact empty (same ▸ low)
        · exact each.slots other low (by omega)
      · rw [if_neg next] at under
        exact each.slots other low under
    refine re.ends_self inv alive ⟨_, fun (reached : fd ≤ (share pid).closed) => ?_, rfl⟩
    split
    · exact Nat.lt_succ_self fd
    · omega
  | some f =>
    have inside : fd < nofile := by
      by_contra out
      rw [if_neg out] at reply
      cases reply
    rw [if_pos inside] at reply
    have re : Reslotted st share pid (st.procs pid)
        { share pid with uses := ⟨fd, f, (st.ftable f).node⟩ :: (share pid).uses } := by
      refine ⟨rfl, rfl, fun g => rfl, rfl, rfl, rfl, ?_, fun jp locked => ?_⟩
      · refine .of_live alive each.pending (fun u used => ?_) each.slots each.cwd
        rcases mem_cons.mp used with rfl | old
        · rw [counted]
          exact ⟨inside, reply, rfl⟩
        · exact each.uses u old
      · rcases inv.locks jp pid locked with held | ⟨u, used, node⟩
        · exact .inl held
        · exact .inr ⟨u, mem_cons_of_mem _ used, node⟩
    exact re.ends_self inv alive ⟨_, rfl⟩

theorem file_does (member : u ∈ g.share.uses) :
    Does (logic cfg) pid (.file u.f) g fun file after => file.node = u.node ∧ after = g := by
  refine does_run (fun _ _ _ _ => trivial) ?_
  rintro st share inv rfl alive running choice
  exact does_same inv ⟨((inv.procs.each pid).uses u member).2.2, rfl⟩

def Closed (g : Ghost) (share : Share) (file : File) (after : Ghost) : Prop :=
  match file.type with
  | .pipe => after = g.gives { share with ends := (file.pipe, file.writable) :: share.ends }
  | .inode | .device => ∃ i, after = (g.hold file.ip i).gives share
  | .none => after = g.gives share

def Dropped (g : Ghost) (share : Share) : Option File → Ghost → Prop
  | none, after => after = g.gives share
  | some file, after => Closed g share file after

structure Unreferred (st : State) (share : Nat → Share) (pid f : Nat) (sh : Share) : Prop where
  mine : 0 < (st.procs pid).shares (share pid) f
  shares : ∀ g, (st.procs pid).shares sh g + points (some f) g = (st.procs pid).shares (share pid) g
  fresh : sh.fresh = (share pid).fresh.erase f
  ends : sh.ends = (share pid).ends
  child : sh.child = (share pid).child
  each : OwnOk st.ftable (st.procs pid) sh
  locks : ∀ jp, (st.itable jp).lock = some pid → Refers (st.procs pid).held sh jp

theorem Unreferred.recounted (un : Unreferred st share pid f sh) (inv : Inv cfg st share) (running : pid < cfg.nproc)
    (more : 0 < (st.ftable f).ref - 1) : Recounted cfg st share pid f ((st.ftable f).ref - 1) (st.procs pid) sh := by
  have shared : f ∉ (share pid).fresh := by
    intro member
    have one := (inv.files.fresh pid f member).ref
    omega
  refine ⟨inv.low_share running un.mine, .inr un.mine, by omega, rfl, rfl, fun g => ?_, fun g member => ?_, ?_, un.ends,
    un.child, un.each, un.locks⟩
  · have shares := un.shares g
    by_cases here : g = f
    · rw [here, points_same] at shares
      rw [if_pos here, here]
      omega
    · rw [points_else here] at shares
      rw [if_neg here]
      omega
  · rw [un.fresh, erase_of_not_mem shared] at member
    have fresh := inv.files.fresh pid g member
    have other : g ≠ f := fun same => shared (same ▸ member)
    have shares := un.shares g
    have mine := fresh.mine
    rw [points_else other] at shares
    rw [if_neg other]
    exact ⟨fresh.ref, fresh.type, by omega⟩
  · rw [un.fresh]
    exact (inv.files.distinct pid).erase f

theorem Unreferred.filed (un : Unreferred st share pid f sh) (inv : Inv cfg st share)
    (alive : (st.procs pid).stage = .live) (running : pid < cfg.nproc) (one : (st.ftable f).ref = 1)
    {held : List (Nat × Nat)} {ends : List (Nat × Bool)}
    (count : ∀ jp, { st.procs pid with held := held }.count jp = (st.procs pid).count jp + points (st.ftable f).node jp)
    (inums : ∀ r ∈ held, (st.itable r.1).inum = r.2) (more : ∀ r ∈ (st.procs pid).held, r ∈ held)
    (counted : ∀ p writable, ends.count (p, writable) = (st.ftable f).isEnd p writable + (share pid).ends.count (p, writable)) :
    Filed cfg st share pid f { st.ftable f with ref := 0, type := .none } { st.procs pid with held := held }
      { sh with ends := ends } := by
  have gone : (st.procs pid).shares sh f = 0 := by
    have shares := un.shares f
    have part := le_total (fun q => (st.procs q).shares (share q) f) running
    have whole := inv.files.count f
    rw [points_same] at shares
    omega
  refine ⟨inv.low_share running un.mine, .inr un.mine, fun jp => (count jp).symm, inums, fun g => ?_, fun _ => rfl,
    fun g member => ?_, ?_, nofun, fun p writable => ?_, ?_, .inr (by omega), un.child, fun jp locked => ?_⟩
  · have shares := un.shares g
    change _ = _ + (st.procs pid).shares sh g
    by_cases here : g = f
    · rw [here, points_same] at shares
      rw [here, update_self]
      simp only
      omega
    · rw [points_else here] at shares
      rw [update_of_ne here]
      omega
  · have member : g ∈ sh.fresh := member
    rw [un.fresh] at member
    have other : g ≠ f := fun same => (inv.files.distinct pid).not_mem_erase (same ▸ member)
    have fresh := inv.files.fresh pid g (mem_of_mem_erase member)
    have shares := un.shares g
    have mine := fresh.mine
    rw [points_else other] at shares
    rw [update_of_ne other]
    exact ⟨fresh.ref, fresh.type, by change 0 < (st.procs pid).shares sh g; omega⟩
  · change sh.fresh.Nodup
    rw [un.fresh]
    exact (inv.files.distinct pid).erase f
  · exact (zero_add _).trans (counted p writable)
  · refine .of_live alive un.each.pending (fun u used => ?_) un.each.slots un.each.cwd
    have known := un.each.uses u used
    have other : u.f ≠ f := by
      intro same
      have some := shares_of_slot known.1 known.2.1
      rw [same] at some
      omega
    rw [update_of_ne other]
    exact known
  · rcases un.locks jp locked with ⟨k, member⟩ | use
    · exact .inl ⟨k, more _ member⟩
    · exact .inr use

theorem fileclose_ends (un : Unreferred st share pid f sh) (inv : Inv cfg st share)
    (alive : (st.procs pid).stage = .live) (running : pid < cfg.nproc) :
    (logic cfg).Ends pid st share (Dropped (ghost st share pid) sh) (unrefFile pid st f) := by
  have live := inv.files.live running un.mine
  simp only [unrefFile]
  rw [if_neg (by omega)]
  by_cases more : 0 < (st.ftable f).ref - 1
  · rw [if_pos more, ← own_self (st.setFile f _) pid]
    exact (un.recounted inv running more).ends_done inv alive rfl
  rw [if_neg more]
  have one : (st.ftable f).ref = 1 := by omega
  cases node : (st.ftable f).node with
  | some ip =>
    have ends : ∀ p writable, (share pid).ends.count (p, writable) =
        (st.ftable f).isEnd p writable + (share pid).ends.count (p, writable) := by
      intro p writable
      rw [File.isEnd, if_neg, zero_add]
      rintro ⟨type, _⟩
      rw [File.node, type] at node
      cases node
    have count : ∀ jp, ((st.procs pid).hold ip (st.itable ip).inum).count jp =
        (st.procs pid).count jp + points (st.ftable f).node jp := by
      intro jp
      rw [node, count_hold]
    have inums : ∀ r ∈ (ip, (st.itable ip).inum) :: (st.procs pid).held, (st.itable r.1).inum = r.2 := by
      intro r member
      rcases mem_cons.mp member with rfl | old
      · rfl
      · exact inv.nodes.held pid r old
    refine (un.filed inv alive running one count inums (fun _ => mem_cons_of_mem _) ends).ends_done inv alive ?_
    rw [← un.ends]
    simp only [File.node] at node
    simp only [Dropped, Closed]
    split at node
    · rename_i type
      rw [type, ← Option.some.inj node]
      exact ⟨_, rfl⟩
    · rename_i type
      rw [type, ← Option.some.inj node]
      exact ⟨_, rfl⟩
    · cases node
    · cases node
  | none =>
    have count : ∀ jp, (st.procs pid).count jp = (st.procs pid).count jp + points (st.ftable f).node jp := by
      intro jp
      rw [node, points_none, add_zero]
    rw [← own_self (st.setFile f _) pid]
    by_cases pipe : (st.ftable f).type = .pipe
    · have ends : ∀ p writable, (((st.ftable f).pipe, (st.ftable f).writable) :: (share pid).ends).count (p, writable) =
          (st.ftable f).isEnd p writable + (share pid).ends.count (p, writable) := by
        intro p writable
        rw [count_cons, add_comm, File.isEnd]
        simp [pipe]
      refine (un.filed inv alive running one count (inv.nodes.held pid) (fun _ member => member) ends).ends_done inv
        alive ?_
      simp only [Dropped, Closed, pipe, un.ends]
      rfl
    · have ends : ∀ p writable, (share pid).ends.count (p, writable) =
          (st.ftable f).isEnd p writable + (share pid).ends.count (p, writable) := by
        intro p writable
        rw [File.isEnd, if_neg fun is => pipe is.1, zero_add]
      refine (un.filed inv alive running one count (inv.nodes.held pid) (fun _ member => member) ends).ends_done inv
        alive ?_
      rw [← un.ends]
      cases type : (st.ftable f).type with
      | none =>
        simp only [Dropped, Closed, type]
        rfl
      | pipe => exact absurd type pipe
      | inode | device =>
        rw [File.node, type] at node
        cases node

theorem unreferred_file (inv : Inv cfg st share) (alive : (st.procs pid).stage = .live) (member : f ∈ (share pid).files) :
    Unreferred st share pid f { share pid with files := (share pid).files.erase f, fresh := (share pid).fresh.erase f } := by
  refine ⟨shares_of_file member, fun g => ?_, rfl, rfl, rfl,
    { inv.procs.each pid with idle := fun rest => absurd alive rest }, fun jp => inv.locks jp pid⟩
  have files := count_less member g
  rw [Own.shares, Own.shares]
  simp only
  omega

theorem fileclose_does (member : f ∈ g.share.files) : Does (logic cfg) pid (.fileclose f) g
    (Dropped g { g.share with files := g.share.files.erase f, fresh := g.share.fresh.erase f }) := by
  refine does_run (fun _ _ _ _ => trivial) ?_
  rintro st share inv rfl alive running choice
  change f ∈ (share pid).files at member
  exact fileclose_ends (unreferred_file inv alive member) inv alive running

theorem fileclose_fresh (member : f ∈ g.share.files) (fresh : f ∈ g.share.fresh) :
    Does (logic cfg) pid (.fileclose f) g fun reply after =>
      (∀ file, reply = some file → file.type = .none) ∧
      after = g.gives { g.share with files := g.share.files.erase f, fresh := g.share.fresh.erase f } := by
  refine does_run (fun _ _ _ _ => trivial) ?_
  rintro st share inv rfl alive running choice
  change f ∈ (share pid).files at member
  change f ∈ (share pid).fresh at fresh
  have known := inv.files.fresh pid f fresh
  have node : (st.ftable f).node = none := by rw [File.node, known.type]
  have un := unreferred_file inv alive member
  have count : ∀ jp, (st.procs pid).count jp = (st.procs pid).count jp + points (st.ftable f).node jp := by
    intro jp
    rw [node, points_none, add_zero]
  have ends : ∀ p writable, (share pid).ends.count (p, writable) =
      (st.ftable f).isEnd p writable + (share pid).ends.count (p, writable) := by
    intro p writable
    simp [File.isEnd, known.type]
  simp only [run, unrefFile, known.ref, node]
  rw [if_neg (by decide), if_neg (by decide), ← own_self (st.setFile f _) pid]
  refine (un.filed inv alive running known.ref count (inv.nodes.held pid) (fun _ member => member) ends).ends_done inv alive
    ⟨fun file is => ?_, rfl⟩
  cases is
  exact known.type

theorem fileclose_early (member : u ∈ g.share.uses) (counted : g.share.pending = none) (fresh : g.share.fresh = [])
    (unlocked : ∀ jp, g.locks jp = false) :
    Does (logic cfg) pid (.fileclose u.f) g (Dropped g { g.share with pending := some (u.fd, u.f), uses := [] }) := by
  refine does_run (fun _ _ _ _ => trivial) ?_
  rintro st share inv rfl alive running choice
  change u ∈ (share pid).uses at member
  change (share pid).pending = none at counted
  change (share pid).fresh = [] at fresh
  have each := inv.procs.each pid
  obtain ⟨inside, here, _⟩ := each.uses u member
  rw [counted, slot_none] at here
  have un : Unreferred st share pid u.f { share pid with pending := some (u.fd, u.f), uses := [] } := by
    refine ⟨inv.procs.shares_use member, fun g => ?_, ?_, rfl, rfl, ?_, fun jp locked => ?_⟩
    · have hide := slots_hide inside here g
      rw [Own.shares, shares_counted counted]
      simp only
      omega
    · rw [fresh]
      rfl
    · refine .of_live alive (fun fd f is => ?_) (by rintro _ ⟨⟩) each.slots each.cwd
      cases is
      exact ⟨inside, here⟩
    · have free := unlocked jp
      simp [ghost, locked] at free
  exact fileclose_ends un inv alive running

theorem openFile_does {ip i : Nat} {device readable writable : Bool} (use : ⟨fd, f, none⟩ ∈ g.share.uses)
    (fresh : f ∈ g.share.fresh) (member : (ip, i) ∈ g.held) :
    Does (logic cfg) pid (.openFile f ip device readable writable) g fun _ after => after = (g.unhold ip i).gives
      { g.share with fresh := g.share.fresh.erase f
                     uses := ⟨fd, f, some ip⟩ :: g.share.uses.filter fun u => u.f ≠ f } := by
  refine does_run (fun _ _ _ _ => trivial) ?_
  rintro st share inv rfl alive running choice
  change _ ∈ (share pid).uses at use
  change f ∈ (share pid).fresh at fresh
  change (ip, i) ∈ (st.procs pid).held at member
  have inum : (st.itable ip).inum = i := inv.nodes.held pid (ip, i) member
  subst inum
  have known := inv.files.fresh pid f fresh
  have each := inv.procs.each pid
  have none : (st.ftable f).node = none := by rw [File.node, known.type]
  simp only [run, openFile]
  generalize is : { st.ftable f with
    type := if device = true then FdType.device else FdType.inode, ip := ip, readable := readable, writable := writable } = file
  have ref : file.ref = 1 := by rw [← is, ← known.ref]
  have node : file.node = some ip := by
    rw [← is]
    cases device <;> rfl
  have type : file.type ≠ .pipe := by
    rw [← is]
    cases device <;> rintro ⟨⟩
  have filed : Filed cfg st share pid f file ((st.procs pid).unhold ip (st.itable ip).inum)
      { share pid with fresh := (share pid).fresh.erase f
                       uses := ⟨fd, f, some ip⟩ :: (share pid).uses.filter fun u => u.f ≠ f } := by
    refine ⟨inv.low_share running known.mine, .inr known.mine, fun jp => ?_, fun r old => ?_, fun g => ?_,
      fun zero => ?_, fun g old => ?_, (inv.files.distinct pid).erase f, fun pipe => absurd pipe type, fun p writable => ?_,
      ?_, .inr (by rw [known.ref]), rfl, fun jp locked => ?_⟩
    · rw [none, node, count_unhold member, points_none, add_zero]
    · exact inv.nodes.held pid r (mem_of_mem_erase old)
    · by_cases here : g = f
      · rw [here, update_self, ref, known.ref]
        rfl
      · rw [update_of_ne here]
        rfl
    · rw [ref] at zero
      cases zero
    · have other : g ≠ f := fun same => (inv.files.distinct pid).not_mem_erase (same ▸ old)
      have before := inv.files.fresh pid g (mem_of_mem_erase old)
      rw [update_of_ne other]
      exact ⟨before.ref, before.type, before.mine⟩
    · rw [File.isEnd, File.isEnd, known.type, if_neg fun pipe => type pipe.1, if_neg fun pipe => by cases pipe.1]
    · refine .of_live alive each.pending (fun u used => ?_) each.slots each.cwd
      rcases mem_cons.mp used with rfl | old
      · obtain ⟨low, slot, _⟩ := each.uses _ use
        exact ⟨low, slot, by rw [update_self, node]⟩
      obtain ⟨before, other⟩ := mem_filter.mp old
      have different : u.f ≠ f := by simpa using other
      rw [update_of_ne different]
      exact each.uses u before
    · by_cases here : jp = ip
      · exact .inr ⟨_, mem_cons_self, by rw [here]⟩
      rcases inv.locks jp pid locked with ⟨k, found⟩ | ⟨u, used, points⟩
      · exact .inl ⟨k, (mem_erase_of_ne fun equal => here (congrArg Prod.fst equal)).mpr found⟩
      refine .inr ⟨u, mem_cons_of_mem _ (mem_filter.mpr ⟨used, ?_⟩), points⟩
      have file := (each.uses u used).2.2
      simp only [ne_eq, decide_not, Bool.not_eq_eq_eq_not, Bool.not_true, decide_eq_false_iff_not]
      intro same
      rw [same, none, points] at file
      cases file
  exact filed.ends_done inv alive rfl

theorem FilesOk.set {ftable : Nat → File} {procs : Nat → Own} (files : FilesOk cfg ftable procs share)
    (running : pid < cfg.nproc) (fresh : f ∈ (share pid).fresh) (others : ∀ r, r ≠ pid → f ∉ (share r).fresh)
    (ref : file.ref = (ftable f).ref) :
    FilesOk cfg (update ftable f file) procs (update share pid { share pid with fresh := (share pid).fresh.erase f }) := by
  have known := files.fresh pid f fresh
  have changed : FilesOk cfg (update ftable f file) (update procs pid (procs pid))
      (update share pid { share pid with fresh := (share pid).fresh.erase f }) := by
    refine files.changed running (fun g => ?_) (fun some => ?_) (fun none => ?_) others (fun g old => ?_)
      ((files.distinct pid).erase f)
    · rw [update_part File.ref ref]
      rfl
    · exact files.inside f (by rwa [← ref])
    · rw [ref, known.ref] at none
      cases none
    · have other : g ≠ f := fun same => (files.distinct pid).not_mem_erase (same ▸ old)
      have before := files.fresh pid g (mem_of_mem_erase old)
      rw [update_of_ne other]
      exact ⟨before.ref, before.type, before.mine⟩
  rwa [update_id] at changed

end Xv6.Names

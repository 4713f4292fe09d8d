import Xv6.Names.FileActs

/-!
What the actions on pipes and on the children of `kfork` do.
-/

namespace Xv6.Names

open Lib Lib.Interleave List
open Function

variable {ftable : Nat → File} {pipes : Nat → Pipe} {p : Nat} {writable : Bool}

variable {cfg : Config} {st : State} {share : Nat → Share} {pid f fd : Nat} {g : Ghost}

theorem NodesOk.same_nodes {itable : Nat → Inode} {ftable' : Nat → File} {procs : Nat → Own}
    (nodes : NodesOk cfg itable ftable procs) (same : ∀ f, (ftable' f).node = (ftable f).node) :
    NodesOk cfg itable ftable' procs := by
  refine { nodes with count := fun jp => ?_ }
  simp only [same]
  exact nodes.count jp

theorem PipesOk.made {rf wf : Nat} {reading writing : File} {pipe : Pipe} (ok : PipesOk cfg ftable pipes share)
    (unused : (pipes p).used = false) (low : rf < nfile) (also : wf < nfile) (different : wf ≠ rf)
    (first : (ftable rf).type = .none) (second : (ftable wf).type = .none)
    (reads : reading.type = .pipe ∧ reading.readable = true ∧ reading.writable = false ∧ reading.pipe = p)
    (writes : writing.type = .pipe ∧ writing.readable = false ∧ writing.writable = true ∧ writing.pipe = p)
    (opened : pipe.readopen = true ∧ pipe.writeopen = true ∧ pipe.used = true ∧ pipe.allocs = (pipes p).allocs + 1 ∧ pipe.frees = (pipes p).frees) :
    PipesOk cfg (update (update ftable rf reading) wf writing) (update pipes p pipe) share := by
  have closed : ∀ writable, (pipes p).isOpen writable = false := by
    have used := ok.used p
    rw [unused] at used
    obtain ⟨reads, writes⟩ := Bool.or_eq_false_iff.mp used.symm
    intro writable
    cases writable
    · exact reads
    · exact writes
  refine ⟨fun f is => ?_, fun q writable => ?_, fun q => ?_, fun q => ?_⟩
  · by_cases here : f = wf
    · rw [here, update_self, writes.2.1, writes.2.2.1]
      rfl
    rw [update_of_ne here] at is ⊢
    by_cases there : f = rf
    · rw [there, update_self, reads.2.1, reads.2.2.1]
      rfl
    · rw [update_of_ne there] at is ⊢
      exact ok.sides f is
  · have one := total_update ftable reading (fun file => file.isEnd q writable) low
    have two := total_update (update ftable rf reading) writing (fun file => file.isEnd q writable) also
    have before := ok.ends q writable
    rw [update_of_ne different] at two
    have empty : (ftable rf).isEnd q writable = 0 := if_neg fun is => by
      rw [first] at is
      cases is.1
    have blank : (ftable wf).isEnd q writable = 0 := if_neg fun is => by
      rw [second] at is
      cases is.1
    obtain rfl | here := eq_or_ne q p
    · rw [closed writable] at before
      rw [update_self]
      cases writable
      · have start : reading.isEnd q false = 1 := if_pos ⟨reads.1, reads.2.2.2, reads.2.2.1⟩
        have end_ : writing.isEnd q false = 0 := if_neg fun is => by
          rw [writes.2.2.1] at is
          cases is.2.2
        simp only [Pipe.isOpen, opened.1, Bool.false_eq_true, if_false, Bool.toNat_true]
        simp only [Bool.toNat_false] at before
        omega
      · have start : reading.isEnd q true = 0 := if_neg fun is => by
          rw [reads.2.2.1] at is
          cases is.2.2
        have end_ : writing.isEnd q true = 1 := if_pos ⟨writes.1, writes.2.2.2, writes.2.2.1⟩
        simp only [Pipe.isOpen, opened.2.1, if_true, Bool.toNat_true]
        simp only [Bool.toNat_false] at before
        omega
    · have start : reading.isEnd q writable = 0 := if_neg fun is => here (is.2.1.symm.trans reads.2.2.2)
      have end_ : writing.isEnd q writable = 0 := if_neg fun is => here (is.2.1.symm.trans writes.2.2.2)
      rw [update_of_ne here]
      omega
  · by_cases here : q = p
    · rw [here, update_self, opened.1, opened.2.2.1]
      rfl
    · rw [update_of_ne here]
      exact ok.used q
  · by_cases here : q = p
    · have before := ok.freed p
      rw [unused] at before
      rw [here, update_self, opened.2.2.1, opened.2.2.2.1, opened.2.2.2.2, before]
      rfl
    · rw [update_of_ne here]
      exact ok.freed q

theorem pipealloc_does {rf wf : Nat} (first : rf ∈ g.share.fresh) (second : wf ∈ g.share.fresh) (different : wf ≠ rf) :
    Does (logic cfg) pid (.pipealloc rf wf) g fun reply after =>
      after = if reply then g.gives { g.share with fresh := (g.share.fresh.erase rf).erase wf } else g := by
  refine does_run (fun _ _ _ _ => trivial) ?_
  rintro st share inv rfl alive running choice
  change rf ∈ (share pid).fresh at first
  change wf ∈ (share pid).fresh at second
  simp only [run, makePipe]
  by_cases room : choice.room = true
  · rw [if_pos room]
    by_cases unused : (st.pipes choice.slot).used = true
    · rw [if_pos unused]
      trivial
    rw [if_neg unused]
    have before := inv.files.fresh pid rf first
    have also := inv.files.fresh pid wf second
    generalize readIs : { st.ftable rf with type := FdType.pipe, readable := true, writable := false, pipe := choice.slot } =
      reading
    generalize writeIs : { st.ftable wf with type := FdType.pipe, readable := false, writable := true, pipe := choice.slot } =
      writing
    have alone : ∀ f ∈ (share pid).fresh, ∀ r, r ≠ pid → f ∉ (share r).fresh := fun f fresh r other member =>
      inv.files.alone running (inv.files.fresh pid f fresh).mine (inv.procs.runs_fresh member) other member
    have one : FilesOk cfg (update st.ftable rf reading) st.procs
        (update share pid { share pid with fresh := (share pid).fresh.erase rf }) :=
      inv.files.set running first (alone rf first) (by rw [← readIs])
    have two : FilesOk cfg (update (update st.ftable rf reading) wf writing) st.procs
        (update share pid { share pid with fresh := ((share pid).fresh.erase rf).erase wf }) := by
      have rest : wf ∈ (update share pid { share pid with fresh := (share pid).fresh.erase rf } pid).fresh := by
        rw [update_self]
        exact (mem_erase_of_ne different).mpr second
      have ref : writing.ref = (update st.ftable rf reading wf).ref := by rw [update_of_ne different, ← writeIs]
      have set := one.set running rest (fun r other => ?_) ref
      · rwa [update_idem, update_self] at set
      · rw [update_of_ne other]
        exact alone wf second r other
    have nodes : ∀ f, (update (update st.ftable rf reading) wf writing f).node = (st.ftable f).node := by
      intro f
      have outer : writing.node = (update st.ftable rf reading wf).node := by
        rw [update_of_ne different, ← writeIs, File.node, File.node, also.type]
      have inner : reading.node = (st.ftable rf).node := by rw [← readIs, File.node, File.node, before.type]
      rw [update_part File.node outer, update_part File.node inner]
    refine ⟨update share pid { share pid with fresh := ((share pid).fresh.erase rf).erase wf },
      ⟨inv.nodes.same_nodes nodes, two, ?_, ?_, ?_, inv.running⟩, fun other apart => ?_, ?_⟩
    · have made : PipesOk cfg (update (update st.ftable rf reading) wf writing) (update st.pipes choice.slot
          { st.pipes choice.slot with
            readopen := true, writeopen := true, used := true, allocs := (st.pipes choice.slot).allocs + 1 }) share :=
        inv.pipes.made (by simpa using unused) (inv.low_share running before.mine) (inv.low_share running also.mine)
          different before.type also.type (by rw [← readIs]; exact ⟨rfl, rfl, rfl, rfl⟩)
          (by rw [← writeIs]; exact ⟨rfl, rfl, rfl, rfl⟩) ⟨rfl, rfl, rfl, rfl, rfl⟩
      exact made.congr (update_part Share.ends (by rfl))
    · have each := inv.procs.each pid
      have procs : ProcsOk cfg (update (update st.ftable rf reading) wf writing) (update st.procs pid (st.procs pid))
          (update share pid { share pid with fresh := ((share pid).fresh.erase rf).erase wf }) := by
        refine inv.procs.changed alive ?_ (fun r _ u _ => nodes u.f) rfl
        refine .of_live alive each.pending (fun u used => ?_) each.slots each.cwd
        rw [nodes]
        exact each.uses u used
      rwa [update_id] at procs
    · have locks : LocksOk st.itable (update st.procs pid (st.procs pid))
          (update share pid { share pid with fresh := ((share pid).fresh.erase rf).erase wf }) :=
        inv.locks.changed (fun _ _ _ locked => locked) fun jp => inv.locks jp pid
      rwa [update_id] at locks
    · exact ghost_other rfl (fun _ => Iff.rfl) (update_of_ne apart _ _)
    · exact ghost_gives rfl fun _ => Iff.rfl
  · rw [if_neg room]
    refine does_same inv ?_
    rfl

theorem PipesOk.open_end (ok : PipesOk cfg ftable pipes share) (running : pid < cfg.nproc)
    (member : (p, writable) ∈ (share pid).ends) : (pipes p).isOpen writable = true := by
  have before := ok.ends p writable
  have part := le_total (fun q => (share q).ends.count (p, writable)) running
  have some := count_pos_iff.mpr member
  by_contra shut
  rw [Bool.not_eq_true] at shut
  rw [shut, Bool.toNat_false] at before
  omega

theorem PipesOk.shut {pipe : Pipe} (ok : PipesOk cfg ftable pipes share) (running : pid < cfg.nproc)
    (member : (p, writable) ∈ (share pid).ends) (this : pipe.isOpen writable = false)
    (other : pipe.isOpen (!writable) = (pipes p).isOpen (!writable))
    (used : pipe.used = (pipe.readopen || pipe.writeopen))
    (freed : pipe.allocs + (pipes p).frees + (pipes p).used.toNat = (pipes p).allocs + pipe.frees + pipe.used.toNat)
    {sh : Share} (ends : sh.ends = (share pid).ends.erase (p, writable)) :
    PipesOk cfg ftable (update pipes p pipe) (update share pid sh) := by
  refine ⟨ok.sides, fun q side => ?_, fun q => ?_, fun q => ?_⟩
  · have before := ok.ends q side
    have shares := total_update share sh (fun sh => sh.ends.count (q, side)) running
    have erased := (perm_cons_erase member).count_eq (q, side)
    rw [ends] at shares
    obtain rfl | here := eq_or_ne q p
    · rw [update_self]
      obtain rfl | same := eq_or_ne side writable
      · rw [ok.open_end running member, Bool.toNat_true] at before
        rw [count_cons_self] at erased
        rw [this, Bool.toNat_false]
        omega
      have opposite : side = !writable := Bool.eq_not_of_ne same
      rw [opposite] at before shares erased ⊢
      rw [count_cons_of_ne (by simp)] at erased
      rw [other]
      omega
    · rw [count_cons_of_ne fun equal => here (congrArg Prod.fst equal).symm] at erased
      rw [update_of_ne here]
      omega
  · by_cases here : q = p
    · rw [here, update_self, used]
    · rw [update_of_ne here]
      exact ok.used q
  · have before := ok.freed q
    obtain rfl | here := eq_or_ne q p
    · rw [update_self]
      omega
    · rw [update_of_ne here]
      exact before

theorem pipeclose_does (member : (p, writable) ∈ g.share.ends) :
    Does (logic cfg) pid (.pipeclose p writable) g fun _ after => after = g.gives
      { g.share with ends := g.share.ends.erase (p, writable) } := by
  refine does_run (fun _ _ _ _ => trivial) ?_
  rintro st share inv rfl alive running choice
  change (p, writable) ∈ (share pid).ends at member
  have ready : ∀ pipe : Pipe, pipe.isOpen writable = false →
      pipe.isOpen (!writable) = (st.pipes p).isOpen (!writable) → pipe.used = (pipe.readopen || pipe.writeopen) →
      pipe.allocs + (st.pipes p).frees + (st.pipes p).used.toNat = (st.pipes p).allocs + pipe.frees + pipe.used.toNat →
      (logic cfg).Ends pid st share (fun (_ : Unit) after => after = (ghost st share pid).gives
        { share pid with ends := (share pid).ends.erase (p, writable) }) (.done (st.setPipe p pipe) ()) := by
    intro pipe this other used freed
    have each := inv.procs.each pid
    refine ⟨update share pid { share pid with ends := (share pid).ends.erase (p, writable) },
      ⟨inv.nodes, ?_, inv.pipes.shut running member this other used freed rfl, ?_, ?_, inv.running⟩, fun other apart => ?_,
      ghost_gives rfl fun _ => Iff.rfl⟩
    · refine inv.files.congr (fun q f => ?_) (update_part Share.fresh (by rfl))
      have parts : ∀ r, (update share pid { share pid with ends := (share pid).ends.erase (p, writable) } r).pending =
          (share r).pending := fun r => update_part Share.pending (by rfl) r
      have files : ∀ r, (update share pid { share pid with ends := (share pid).ends.erase (p, writable) } r).files =
          (share r).files := fun r => update_part Share.files (by rfl) r
      rw [Own.shares, Own.shares, parts, files]
      rfl
    · have procs : ProcsOk cfg st.ftable (update st.procs pid (st.procs pid))
          (update share pid { share pid with ends := (share pid).ends.erase (p, writable) }) :=
        inv.procs.changed alive (.of_live alive each.pending each.uses each.slots each.cwd) (fun _ _ _ _ => rfl) rfl
      rwa [update_id] at procs
    · have locks : LocksOk st.itable (update st.procs pid (st.procs pid))
          (update share pid { share pid with ends := (share pid).ends.erase (p, writable) }) :=
        inv.locks.changed (fun _ _ _ locked => locked) fun jp => inv.locks jp pid
      rwa [update_id] at locks
    · exact ghost_other rfl (fun _ => Iff.rfl) (update_of_ne apart _ _)
  have used := inv.pipes.used p
  have was := inv.pipes.open_end running member
  simp only [run, pipeclose]
  cases writable with
  | true =>
    simp only [Pipe.isOpen, if_true] at was
    rw [was, Bool.or_true] at used
    rw [if_pos rfl]
    by_cases last : (st.pipes p).readopen = false
    · rw [if_pos ⟨last, rfl⟩]
      refine ready _ rfl rfl ?_ ?_
      · simp [last]
      · simp [used]
        omega
    · rw [if_neg fun both => last both.1]
      refine ready _ rfl rfl ?_ rfl
      simpa [used] using last
  | false =>
    simp only [Pipe.isOpen, Bool.false_eq_true, if_false] at was
    rw [was, Bool.true_or] at used
    rw [if_neg Bool.false_ne_true]
    by_cases last : (st.pipes p).writeopen = false
    · rw [if_pos ⟨rfl, last⟩]
      refine ready _ rfl rfl ?_ ?_
      · simp [last]
      · simp [used]
        omega
    · rw [if_neg fun both => last both.2]
      refine ready _ rfl rfl ?_ rfl
      simpa [used] using last

end Xv6.Names

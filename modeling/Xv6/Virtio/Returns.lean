import Xv6.Virtio.Protocol

/-!
What the device has done for a call: nothing before its request is published, exactly what it
asked for when it returns. The lock of the buffer keeps calls with the same buffer apart.
-/

namespace Xv6.Virtio

open Function List State Pc
open Xv6.Lib

variable {s next : State}

namespace Pc

variable {pc : Pc} {r : Request} {o : Op}

theorem op_of_early (is : pc.early = some o) : pc.op = some o := by
  cases pc <;> first | exact is | cases is

theorem early_of_published (is : pc.published = some r) : pc.early = none := by
  cases pc <;> first | rfl | cases is

end Pc

theorem doneSince_append {op : Op} {done : Done} (mark : op.mark ≤ s.performed.length)
    (grown : next.performed = s.performed ++ [done]) :
    next.doneSince op = s.doneSince op ++ if done.b = some op.b then [done] else [] := by
  rw [doneSince, grown, drop_append_of_le_length mark, filter_append, doneSince,
    filter_singleton]
  simp only [decide_eq_true_eq, Bool.cond_eq_ite]

theorem History.keep (history : History s) (performed : next.performed = s.performed) (returns : next.returns = s.returns)
    (ops : ∀ q op, (next.pcs q).op = some op → (s.pcs q).op = some op)
    (early : ∀ q op, (next.pcs q).early = some op → (s.pcs q).early = some op)
    (waiting : ∀ q req, (next.pcs q).published = some req → (s.pcs q).published = some req ∧
      next.busy req.op.b = s.busy req.op.b)
    (finished : next.finished = s.finished)
    (spent : ∀ q req, next.pcs q = .free req → s.pcs q = .free req ∨ next.busy req.op.b = false)
    (late : ∀ q op, next.pcs q = .unlock op → s.pcs q = .unlock op) : History next := by
  have same : ∀ op, next.doneSince op = s.doneSince op := fun op => by rw [doneSince, performed, doneSince]
  refine ⟨fun q op is => ?_, fun q op is => ?_, fun q req is => ?_, fun q req is => ?_, fun q op is => ?_, ?_⟩
  · rw [performed]
    exact history.mark q op (ops q op is)
  · rw [same]
    exact history.early q op (early q op is)
  · obtain ⟨published, busy⟩ := waiting q req is
    rw [same, busy, finished]
    exact history.waiting q req published
  · rcases spent q req is with old | idle
    · have published : (next.pcs q).published = some req := by rw [is]; rfl
      rw [(waiting q req published).2]
      exact history.spent q req old
    · exact idle
  · rw [same]
    exact history.late q op (late q op is)
  · rw [returns]
    exact history.returns

theorem History.move (history : History s) {p : Nat} {pc old : Pc} (place : s.pcs p = old)
    (pcs : next.pcs = update s.pcs p pc) (ops : ∀ op, pc.op = some op → old.op = some op)
    (early : ∀ op, pc.early = some op → old.early = some op)
    (published : ∀ req, pc.published = some req → old.published = some req)
    (spent : ∀ req, pc = .free req → s.busy req.op.b = false) (late : ∀ op, pc ≠ .unlock op)
    (performed : next.performed = s.performed) (returns : next.returns = s.returns) (busy : next.busy = s.busy)
    (finished : next.finished = s.finished) : History next := by
  refine history.keep performed returns (fun q op is => ?_) (fun q op is => ?_) (fun q req is => ⟨?_, by rw [busy]⟩)
    finished (fun q req is => ?_) fun q op is => ?_
  · rw [pcs] at is
    exact goto_sub Pc.op place ops q op is
  · rw [pcs] at is
    exact goto_sub Pc.early place early q op is
  · rw [pcs] at is
    exact goto_sub Pc.published place published q req is
  · rw [pcs] at is
    by_cases this : q = p
    · rw [this, update_self] at is
      rw [busy]
      exact .inr (spent req is)
    · rw [update_of_ne this] at is
      exact .inl is
  · rw [pcs] at is
    exact goto_at is (late op)

theorem Act.history (inv : Inv s) (act : Act s next) : History next := by
  have history := inv.history
  cases act with
  | lockBuf | unlockBuf | take =>
    exact ⟨history.mark, history.early, history.waiting, history.spent, history.late, history.returns⟩
  | intr p place | drained p place | leave p place =>
    exact history.move place rfl (fun _ => nofun) (fun _ => nofun) (fun _ => nofun) (fun _ => nofun) (fun _ => nofun)
      rfl rfl rfl rfl
  | allocated p _ _ _ _ place | refused p _ _ place | ring p _ place | sleep p _ place =>
    exact history.move place rfl (fun _ => id) (fun _ => id) (fun _ => id) (fun _ => nofun) (fun _ => nofun) rfl rfl
      rfl rfl
  | enter p pc free place =>
    rcases place with ⟨op, place, rfl⟩ | ⟨req, place, rfl⟩ | ⟨place, rfl⟩ <;>
      exact history.move place rfl (fun _ => id) (fun _ => id) (fun _ => id) (fun _ => nofun) (fun _ => nofun) rfl rfl
        rfl rfl
  | answered p req place idle =>
    refine history.move place rfl (fun _ => id) (fun _ => id) (fun _ => id) (fun other is => ?_) (fun _ => nofun) rfl rfl
      rfl rfl
    cases is
    exact idle
  | format p req place =>
    have here : (s.pcs p).op = some req.op := by rw [place]; rfl
    have published : ∀ q, (update s.pcs p (.ring req) q).published = (s.pcs q).published := goto_same _ place rfl
    refine history.keep rfl rfl (goto_sub _ place fun _ => id) (goto_sub _ place fun _ => id)
      (fun q other is => ?_) rfl (fun q other is => .inl (goto_at is nofun)) fun q op is => goto_at is nofun
    have before : (s.pcs q).published = some other := (published q).symm.trans is
    have apart : q ≠ p := by
      rintro rfl
      rw [place] at before
      cases before
    exact ⟨before, update_of_ne (inv.owned.buffers_ne (op_of_published before) here apart) _ _⟩
  | call p op place mine mark =>
    refine ⟨fun q other is => ?_, fun q other is => ?_, fun q other is => ?_, fun q other is => ?_, fun q other is => ?_,
      history.returns⟩
    · rcases goto_cases Pc.op is with ⟨_, new⟩ | ⟨_, kept⟩
      · cases new
        exact mark.le
      · exact history.mark q other kept
    · rcases goto_cases Pc.early is with ⟨_, new⟩ | ⟨_, kept⟩
      · cases new
        change (s.performed.drop op.mark).filter _ = []
        rw [mark, drop_length]
        rfl
      · exact history.early q other kept
    · rcases goto_cases Pc.published is with ⟨_, new⟩ | ⟨_, kept⟩
      · cases new
      · exact history.waiting q other kept
    · exact history.spent q other (goto_at is nofun)
    · exact history.late q other (goto_at is nofun)
  | bump p req place =>
    have here : (s.pcs p).req = some req := by rw [place]; rfl
    have fresh := inv.not_mem_flight here (place ▸ rfl)
    have busy := inv.flight.armed p req (place ▸ rfl)
    have ops : ∀ q op, (update s.pcs p (.check req) q).op = some op → (s.pcs q).op = some op := goto_sub _ place fun _ => id
    have early : ∀ q op, (update s.pcs p (.check req) q).early = some op → (s.pcs q).early = some op :=
      goto_sub _ place fun _ => nofun
    refine ⟨fun q op is => history.mark q op (ops q op is), fun q op is => history.early q op (early q op is),
      fun q other is => ?_, fun q other is => history.spent q other (goto_at is nofun),
      fun q op is => history.late q op (goto_at is nofun), history.returns⟩
    rcases goto_cases Pc.published is with ⟨_, new⟩ | ⟨_, kept⟩
    · cases new
      have outside : req.i0 ∉ s.finished := fun member =>
        fresh (mem_append_right _ (mem_append_right _ member))
      exact (history.early p req.op (place ▸ rfl)).trans (if_pos ⟨busy, outside⟩).symm
    · exact history.waiting q other kept
  | free p req place =>
    have spent := history.spent p req place
    have done := history.waiting p req (place ▸ rfl)
    rw [if_neg (by rw [spent]; exact fun both => nomatch both.1)] at done
    have ops : ∀ q op, (update s.pcs p (.unlock req.op) q).op = some op → (s.pcs q).op = some op :=
      goto_sub _ place fun _ => id
    have early : ∀ q op, (update s.pcs p (.unlock req.op) q).early = some op → (s.pcs q).early = some op :=
      goto_sub _ place fun _ => nofun
    have waiting : ∀ q other, (update s.pcs p (.unlock req.op) q).published = some other →
        (s.pcs q).published = some other :=
      goto_sub _ place fun _ => nofun
    refine ⟨fun q op is => history.mark q op (ops q op is), fun q op is => history.early q op (early q op is),
      fun q other is => history.waiting q other (waiting q other is),
      fun q other is => history.spent q other (goto_at is nofun), fun q op is => ?_, history.returns⟩
    obtain rfl | this := eq_or_ne q p
    · cases (update_self _ _ _).symm.trans is
      exact done
    · exact history.late q op ((update_of_ne this _ _).symm.trans is)
  | unlock p op place =>
    have done := history.late p op place
    have ops : ∀ q other, (update s.pcs p .idle q).op = some other → (s.pcs q).op = some other :=
      goto_sub _ place fun _ => nofun
    have early : ∀ q other, (update s.pcs p .idle q).early = some other → (s.pcs q).early = some other :=
      goto_sub _ place fun _ => nofun
    have waiting : ∀ q other, (update s.pcs p .idle q).published = some other → (s.pcs q).published = some other :=
      goto_sub _ place fun _ => nofun
    refine ⟨fun q op is => history.mark q op (ops q op is), fun q op is => history.early q op (early q op is),
      fun q other is => history.waiting q other (waiting q other is),
      fun q other is => history.spent q other (goto_at is nofun),
      fun q op is => history.late q op (goto_at is nofun), fun ret member => ?_⟩
    rcases mem_append.mp member with old | new
    · exact history.returns ret old
    · rw [mem_singleton.mp new]
      exact done
  | consume p q req place some published entry =>
    have popped := finished_consume some
    rw [entry] at popped
    have before := history.waiting q req published
    rw [if_neg fun both => both.2 (by rw [popped]; exact mem_cons_self)] at before
    have others : ∀ r other, (s.pcs r).published = .some other → r ≠ q →
        update s.busy req.op.b false other.op.b = s.busy other.op.b := fun r other is apart =>
      update_of_ne (inv.owned.buffers_ne (op_of_published is) (op_of_published published) apart) _ _
    refine ⟨history.mark, history.early, fun r other is => ?_, fun r other is => ?_, history.late, history.returns⟩
    · obtain rfl | this := eq_or_ne r q
      · cases published.symm.trans is
        refine before.trans (if_neg fun both => ?_).symm
        exact absurd ((update_self _ _ _).symm.trans both.1) nofun
      have head := inv.owned.heads_ne (req_of_published is) (req_of_published published) this
      refine (history.waiting r other is).trans ?_
      change _ = if update s.busy req.op.b false other.op.b = true ∧
        other.i0 ∉ Ring.contents num s.usedRing (s.seenUsed + 1#16) s.usedIdx then [] else [other.op.done]
      rw [others r other is this, popped]
      simp only [mem_cons, head, false_or]
    · have waiting : (s.pcs r).published = .some other := by rw [is]; rfl
      obtain rfl | this := eq_or_ne r q
      · cases published.symm.trans waiting
        exact update_self _ _ _
      · exact (others r other waiting this).trans (history.spent r other is)
  | complete p req published member =>
    have grown := inv.finished_complete member
    have fresh : req.i0 ∉ s.finished := by
      have nodup := (nodup_append.mp inv.flight.nodup).2.1
      exact fun finished => (nodup_append.mp nodup).2.2 _ member _ finished rfl
    have busy : s.busy req.op.b = true := by
      obtain ⟨q, other, is, same, busy⟩ := inv.flight.live req.i0 (mem_append_right _ (mem_append_left _ member))
      obtain rfl : q = p := by
        by_contra apart
        exact inv.owned.heads_ne (req_of_published is) (req_of_published published) apart same
      cases published.symm.trans is
      exact busy
    have mine := history.waiting p req published
    rw [if_pos ⟨busy, fresh⟩] at mine
    -- another call has another buffer, so that this completion is not one of its own
    have others : ∀ q op, (s.pcs q).op = some op → q ≠ p →
        s.doneSince op ++ (if req.op.done.b = some op.b then [req.op.done] else []) = s.doneSince op := by
      intro q op is apart
      have other := inv.owned.buffers_ne (op_of_published published) is (Ne.symm apart)
      have foreign : req.op.done.b ≠ some op.b := fun same => other (Option.some.inj same)
      rw [if_neg foreign, append_nil]
    refine ⟨fun q op is => ?_, fun q op is => ?_, fun q other is => ?_, history.spent, fun q op is => ?_, history.returns⟩
    · exact (history.mark q op is).trans (length_append ▸ Nat.le_add_right _ _)
    · have apart : q ≠ p := by
        rintro rfl
        rw [Pc.early_of_published published] at is
        cases is
      have op_is := Pc.op_of_early is
      exact (doneSince_append (history.mark q op op_is) rfl).trans ((others q op op_is apart).trans (history.early q op is))
    · have op_is := op_of_published is
      refine (doneSince_append (history.mark q other.op op_is) rfl).trans ?_
      change _ = if s.busy other.op.b = true ∧ other.i0 ∉ Ring.contents num
        (update s.usedRing (Ring.index num s.usedIdx) req.i0) s.seenUsed (s.usedIdx + 1#16) then [] else [other.op.done]
      rw [grown]
      obtain rfl | this := eq_or_ne q p
      · cases published.symm.trans is
        have own : req.op.done.b = some req.op.b := rfl
        rw [mine, if_pos own, if_neg fun both => both.2 (mem_append_right _ mem_cons_self)]
        rfl
      · have head := inv.owned.heads_ne (req_of_published is) (req_of_published published) this
        rw [others q other.op op_is this, history.waiting q other is]
        simp only [mem_append, mem_singleton, head, or_false]
    · have op_is : (s.pcs q).op = some op := by rw [is]; rfl
      have apart : q ≠ p := by
        rintro rfl
        rw [is] at published
        cases published
      exact (doneSince_append (history.mark q op op_is) rfl).trans ((others q op op_is apart).trans (history.late q op is))

theorem step_inv {label : Label} (inv : Inv s) (stepped : step s label = some next) : Inv next := by
  have act := step_act inv stepped
  refine ⟨act.locked inv.guarded, act.owned inv, act.flight inv, act.history inv, ?_⟩
  cases act <;> exact inv.running

theorem reaches_inv {admits : State → Label → Prop} (reached : Reaches step admits boot s) : Inv s :=
  reached.invariant Inv boot_inv fun _ _ _ inv _ stepped => step_inv inv stepped

/-- Outstanding requests own their descriptors, no entry of a ring is lost or seen twice, and a
call returns when the device has done what it asked for, once. -/
structure Protocol (s : State) : Prop where
  distinct : ∀ p req, (s.pcs p).req = some req → req.idx.Nodup ∧ ∀ i ∈ req.idx, i < num ∧ s.disk.free i = false
  disjoint : ∀ p q req other, (s.pcs p).req = some req → (s.pcs q).req = some other → p ≠ q → req.idx.Disjoint other.idx
  /-- the device gets the heads as they were offered, each outstanding one once -/
  avail : s.offered = s.accepted ++ s.pending ∧ s.pending.length ≤ num
  /-- `virtio_disk_intr` gets the heads as they were returned -/
  used : s.returned = s.consumed ++ s.finished ∧ s.finished.length ≤ num
  once : (s.pending ++ (s.taken ++ s.finished)).Nodup
  returns : ∀ ret ∈ s.returns, ret.done = [ret.op.done]
  running : s.panic = none

theorem Inv.protocol (inv : Inv s) : Protocol s where
  distinct p req is := ⟨inv.owned.nodup p req is, inv.owned.used p req is⟩
  disjoint := inv.owned.apart
  avail := by
    have bound := inv.length_flight
    rw [State.flight, length_append] at bound
    exact ⟨inv.flight.offered, by omega⟩
  used := by
    have bound := inv.length_flight
    rw [State.flight, length_append, length_append] at bound
    exact ⟨inv.flight.returned, by omega⟩
  once := inv.flight.nodup
  returns := inv.history.returns
  running := inv.running

theorem alloc3Desc_failed {disk after : Disk} (failed : disk.alloc3Desc = .ok (after, none)) : after.free = disk.free := by
  rcases disk.alloc3Desc_spec with ⟨i0, i1, i2, ran, _⟩ | ⟨taken, ran, _⟩
  · rw [ran] at failed
    cases failed
  · rw [ran] at failed
    cases failed
    rfl

theorem requests_protocol (reached : Reaches step (fun _ _ => True) boot s) :
    Protocol s ∧ ∀ after, s.disk.alloc3Desc = .ok (after, none) → after.free = s.disk.free :=
  ⟨(reaches_inv reached).protocol, fun _ failed => alloc3Desc_failed failed⟩

theorem requests_protocol_reordered :
    ∃ s, Reaches step (fun _ _ => True) boot s ∧ s.returns.map (fun ret => ret.op.b) = [9] ∧ s.taken = [0] ∧
      Protocol s ∧ ∀ after, s.disk.alloc3Desc = .ok (after, none) → after.free = s.disk.free := by
  obtain ⟨s, reached, seen⟩ := reaches_seen (show
    (runLabels step boot
      [.acquiresleep 0 5, .acquiresleep 1 9, .rw 0 5 7 true, .rw 1 9 8 true,
        .exec 0, .exec 0, .exec 0, .exec 0, .exec 0, .exec 0, .exec 1, .exec 1, .exec 1, .exec 1, .exec 1, .exec 1,
        .take, .take, .complete 3, .intr 2, .exec 2, .exec 2, .exec 2, .exec 2,
        .exec 1, .exec 1, .exec 1, .exec 1]).map (fun s => (s.returns.map (fun ret => ret.op.b), s.taken)) =
      some ([9], [0]) by decide +kernel)
  exact ⟨s, reached, congrArg Prod.fst seen, congrArg Prod.snd seen, requests_protocol reached⟩

end Xv6.Virtio

import Xv6.Virtio.Requests

/-!
Every step keeps the invariants of the requests, so that they hold in whatever order
processes, interrupt handlers and the device take their turns.
-/

namespace Xv6.Virtio

open List Pc

open Function (update update_self update_of_ne)
open Xv6.Lib

variable {s next : State} {β : Type}

theorem goto_cases (f : Pc → Option β) {p q : Nat} {pc : Pc} {x : β} (here : f (update s.pcs p pc q) = some x) :
    q = p ∧ f pc = some x ∨ q ≠ p ∧ f (s.pcs q) = some x := by
  by_cases same : q = p
  · rw [same, update_self] at here
    exact .inl ⟨same, here⟩
  · rw [update_of_ne same] at here
    exact .inr ⟨same, here⟩

theorem goto_sub (f : Pc → Option β) {p : Nat} {pc old : Pc} (place : s.pcs p = old)
    (sub : ∀ x, f pc = some x → f old = some x) (q : Nat) (x : β) (here : f (update s.pcs p pc q) = some x) :
    f (s.pcs q) = some x := by
  rcases goto_cases f here with ⟨rfl, new⟩ | ⟨_, kept⟩
  · rw [place]
    exact sub x new
  · exact kept

theorem goto_same (f : Pc → Option β) {p : Nat} {pc old : Pc} (place : s.pcs p = old) (same : f pc = f old) (q : Nat) :
    f (update s.pcs p pc q) = f (s.pcs q) := by
  by_cases this : q = p
  · rw [this, update_self, place, same]
  · rw [update_of_ne this]

theorem goto_at {p q : Nat} {pc x : Pc} (here : update s.pcs p pc q = x) (other : pc ≠ x) : s.pcs q = x := by
  by_cases same : q = p
  · rw [same, update_self] at here
    exact absurd here other
  · rwa [update_of_ne same] at here

section Lock

variable (guarded : Guarded (fun _ : Unit => s.lock) fun p => (s.pcs p).inside) {p : Nat} {pc old : Pc}
include guarded

theorem guarded_stay (place : s.pcs p = old) (same : pc.inside = old.inside) :
    Guarded (fun _ : Unit => s.lock) fun q => (update s.pcs p pc q).inside :=
  guarded.keep (fun _ => rfl) (goto_same Pc.inside place same)

theorem guarded_enter (free : s.lock = none) (place : s.pcs p = old) (outside : old.inside = none)
    (inside : pc.inside = some ()) : Guarded (fun _ : Unit => some p) fun q => (update s.pcs p pc q).inside := by
  have out : (s.pcs p).inside = none := by rw [place, outside]
  have places : (fun q => (update s.pcs p pc q).inside) = update (fun q => (s.pcs q).inside) p pc.inside :=
    Function.comp_update Pc.inside s.pcs p pc
  rw [inside] at places
  exact guarded.take free out (funext fun _ => (update_self () (some p) fun _ => s.lock).symm) places

theorem guarded_leave (place : s.pcs p = old) (inside : old.inside = some ()) (outside : pc.inside = none) :
    Guarded (fun _ : Unit => none) fun q => (update s.pcs p pc q).inside := by
  have here : (s.pcs p).inside = some () := by rw [place, inside]
  have places : (fun q => (update s.pcs p pc q).inside) = update (fun q => (s.pcs q).inside) p pc.inside :=
    Function.comp_update Pc.inside s.pcs p pc
  rw [outside] at places
  exact guarded.drop here (funext fun _ => (update_self () none fun _ => s.lock).symm) places

theorem Act.locked (act : Act s next) : Guarded (fun _ : Unit => next.lock) fun p => (next.pcs p).inside := by
  cases act with
  | lockBuf | unlockBuf | consume | take | complete => exact guarded
  | call _ _ place | intr _ place | allocated _ _ _ _ _ place | format _ _ place | ring _ _ place | bump _ _ place
  | answered _ _ place | free _ _ place | drained _ place => exact guarded_stay guarded place rfl
  | enter p pc free place =>
    rcases place with ⟨op, place, rfl⟩ | ⟨req, place, rfl⟩ | ⟨place, rfl⟩
    all_goals exact guarded_enter guarded free place rfl rfl
  | refused _ _ _ place | sleep _ _ place | unlock _ _ place | leave _ place =>
    exact guarded_leave guarded place rfl rfl

end Lock

namespace Owned

variable (owned : Owned s)
include owned

theorem buffers_ne {p q : Nat} {op other : Op} (here : (s.pcs p).op = some op) (there : (s.pcs q).op = some other)
    (apart : p ≠ q) : op.b ≠ other.b := by
  intro same
  have mine := owned.buffers p op here
  rw [same, owned.buffers q other there] at mine
  exact apart (Option.some.inj mine).symm

theorem heads_ne {p q : Nat} {req other : Request} (here : (s.pcs p).req = some req) (there : (s.pcs q).req = some other)
    (apart : p ≠ q) : req.i0 ≠ other.i0 := by
  intro same
  exact owned.apart p q req other here there apart mem_cons_self (same ▸ mem_cons_self)

theorem keep (owner : next.owner = s.owner)
    (reqs : ∀ q req, (next.pcs q).req = some req → (s.pcs q).req = some req)
    (formatted : ∀ q req, (next.pcs q).formatted = some req → (s.pcs q).formatted = some req)
    (ops : ∀ q op, (next.pcs q).op = some op → (s.pcs q).op = some op)
    (free : ∀ q req, (next.pcs q).req = some req → ∀ i ∈ req.idx, next.disk.free i = s.disk.free i)
    (chains : ∀ q req, (next.pcs q).formatted = some req → Chain s.disk req → Chain next.disk req) : Owned next where
  nodup q req is := owned.nodup q req (reqs q req is)
  used q req is i member := by
    rw [free q req is i member]
    exact owned.used q req (reqs q req is) i member
  apart p q req other is also := owned.apart p q req other (reqs p req is) (reqs q other also)
  chain q req is := chains q req is (owned.chain q req (formatted q req is))
  buffers q op is := by
    rw [owner]
    exact owned.buffers q op (ops q op is)

end Owned

variable {req : Request}

theorem Chain.keep {disk other : Disk} (chain : Chain disk req)
    (desc : ∀ i ∈ req.idx, other.desc i = disk.desc i) (ops : other.ops req.i0 = disk.ops req.i0)
    (info : (other.info req.i0).b = (disk.info req.i0).b) : Chain other req where
  first := (desc req.i0 (by simp [Request.idx])).trans chain.first
  second := (desc req.i1 (by simp [Request.idx])).trans chain.second
  third := (desc req.i2 (by simp [Request.idx])).trans chain.third
  op := ops.trans chain.op
  b := info.trans chain.b

theorem format_chain (disk : Disk) (nodup : req.idx.Nodup) : Chain (disk.format req) req := by
  simp only [Request.idx, nodup_cons, mem_cons, not_mem_nil, or_false, not_or, nodup_nil, and_true,
    not_false_eq_true] at nodup
  obtain ⟨⟨one, two⟩, three⟩ := nodup
  refine ⟨?_, ?_, update_self _ _ _, update_self _ _ _, ?_⟩
  · simp only [Disk.format, update_of_ne one, update_of_ne two, update_self]
  · simp only [Disk.format, update_of_ne three, update_self]
  · simp only [Disk.format, update_self]

theorem format_desc (disk : Disk) {i : Nat} (outside : i ∉ req.idx) :
    (disk.format req).desc i = disk.desc i ∧ (disk.format req).ops i = disk.ops i ∧ (disk.format req).info i = disk.info i := by
  simp only [Request.idx, mem_cons, not_mem_nil, or_false, not_or] at outside
  obtain ⟨zero, one, two⟩ := outside
  simp only [Disk.format, update_of_ne zero, update_of_ne one, update_of_ne two, and_self]

theorem Act.owned (inv : Inv s) (act : Act s next) : Owned next := by
  have owned := inv.owned
  cases act with
  | lockBuf p b free =>
    refine ⟨owned.nodup, owned.used, owned.apart, owned.chain, fun q op is => ?_⟩
    have mine := owned.buffers q op is
    have other : op.b ≠ b := by
      rintro rfl
      rw [free] at mine
      cases mine
    exact (update_of_ne other _ _).trans mine
  | unlockBuf p b mine place =>
    refine ⟨owned.nodup, owned.used, owned.apart, owned.chain, fun q op is => ?_⟩
    have theirs := owned.buffers q op is
    have other : op.b ≠ b := by
      rintro rfl
      obtain rfl : p = q := Option.some.inj (mine.symm.trans theirs)
      rw [place] at is
      cases is
    exact (update_of_ne other _ _).trans theirs
  | consume | take => exact ⟨owned.nodup, owned.used, owned.apart, owned.chain, owned.buffers⟩
  | call p op place mine mark =>
    have reqs : ∀ q req, (update s.pcs p (.acquire op) q).req = some req → (s.pcs q).req = some req :=
      goto_sub _ place fun _ => by rintro ⟨⟩
    have formatted : ∀ q req, (update s.pcs p (.acquire op) q).formatted = some req → (s.pcs q).formatted = some req :=
      goto_sub _ place fun _ => by rintro ⟨⟩
    refine ⟨fun q req is => owned.nodup q req (reqs q req is), fun q req is => owned.used q req (reqs q req is),
      fun p q req other is also => owned.apart p q req other (reqs p req is) (reqs q other also),
      fun q req is => owned.chain q req (formatted q req is), fun q other is => ?_⟩
    · rcases goto_cases Pc.op is with ⟨rfl, new⟩ | ⟨_, kept⟩
      · cases new
        exact mine
      · exact owned.buffers q other kept
  | intr _ place | drained _ place | leave _ place | unlock _ _ place =>
    exact owned.keep rfl (goto_sub _ place fun _ => by rintro ⟨⟩) (goto_sub _ place fun _ => by rintro ⟨⟩)
      (goto_sub _ place fun _ => by rintro ⟨⟩) (fun _ _ _ _ _ => rfl) fun _ _ _ chain => chain
  | enter p pc free place =>
    rcases place with ⟨op, place, rfl⟩ | ⟨req, place, rfl⟩ | ⟨place, rfl⟩
    all_goals
      exact owned.keep rfl (goto_sub _ place fun _ => id) (goto_sub _ place fun _ => id)
        (goto_sub _ place fun _ => id) (fun _ _ _ _ _ => rfl) fun _ _ _ chain => chain
  | ring p req place | bump p req place | sleep p req place | answered p req place =>
    exact owned.keep rfl (goto_sub _ place fun _ => id) (goto_sub _ place fun _ => id)
      (goto_sub _ place fun _ => id) (fun _ _ _ _ _ => rfl) fun _ _ _ chain => chain
  | refused p op idx place free =>
    have same : ∀ q req, (update s.pcs p (.acquire op) q).formatted = some req → (s.pcs q).formatted = some req :=
      goto_sub _ place fun _ => by rintro ⟨⟩
    refine owned.keep rfl (goto_sub _ place fun _ => by rintro ⟨⟩) same (goto_sub _ place fun _ => id)
      (fun _ _ _ _ _ => rfl) fun q req is chain => chain.keep (fun i member => ?_) rfl rfl
    have used := (owned.used q req (req_of_formatted (same q req is)) i member).2
    have outside : i ∉ idx := by
      intro inside
      rw [free i inside] at used
      cases used
    exact if_neg outside
  | allocated p op i0 i1 i2 place available =>
    have others : ∀ q req, (s.pcs q).req = some req → ∀ i ∈ req.idx, i ∉ [i0, i1, i2] := by
      intro q req is i member inside
      have used := (owned.used q req is i member).2
      rw [available.free i inside] at used
      cases used
    have ops : ∀ q other, (update s.pcs p (.format ⟨op, i0, i1, i2⟩) q).op = some other → (s.pcs q).op = some other :=
      goto_sub _ place fun _ => id
    have formatted : ∀ q req, (update s.pcs p (.format ⟨op, i0, i1, i2⟩) q).formatted = some req →
        (s.pcs q).formatted = some req :=
      goto_sub _ place fun _ => by rintro ⟨⟩
    refine ⟨fun q req is => ?_, fun q req is i member => ?_, fun q r req other is also apart => ?_,
      fun q req is => (owned.chain q req (formatted q req is)).keep (fun _ _ => rfl) rfl rfl,
      fun q other is => owned.buffers q other (ops q other is)⟩
    · rcases goto_cases Pc.req is with ⟨rfl, new⟩ | ⟨_, kept⟩
      · cases new
        exact available.nodup
      · exact owned.nodup q req kept
    · rcases goto_cases Pc.req is with ⟨rfl, new⟩ | ⟨_, kept⟩
      · cases new
        refine ⟨available.inside i member, ?_⟩
        simp only [Disk.mark, Bool.and_eq_false_iff, decide_eq_false_iff_not, not_not]
        exact .inr member
      · obtain ⟨low, used⟩ := owned.used q req kept i member
        exact ⟨low, by simp only [Disk.mark, used, Bool.false_and]⟩
    · rcases goto_cases Pc.req is with ⟨rfl, new⟩ | ⟨_, kept⟩
      · rcases goto_cases Pc.req also with ⟨rfl, _⟩ | ⟨_, theirs⟩
        · exact absurd rfl apart
        · cases new
          exact fun i inside member => others r other theirs i member inside
      rcases goto_cases Pc.req also with ⟨rfl, new⟩ | ⟨_, theirs⟩
      · cases new
        exact fun i member inside => others q req kept i member inside
      · exact owned.apart q r req other kept theirs apart
  | format p req place =>
    have here : (s.pcs p).req = some req := by rw [place]; rfl
    have reqs : ∀ q other, (update s.pcs p (.ring req) q).req = some other → (s.pcs q).req = some other :=
      goto_sub _ place fun _ => id
    have ops : ∀ q op, (update s.pcs p (.ring req) q).op = some op → (s.pcs q).op = some op := goto_sub _ place fun _ => id
    refine ⟨fun q other is => owned.nodup q other (reqs q other is), fun q other is => owned.used q other (reqs q other is),
      fun q r one two is also => owned.apart q r one two (reqs q one is) (reqs r two also), fun q other is => ?_,
      fun q op is => owned.buffers q op (ops q op is)⟩
    rcases goto_cases Pc.formatted is with ⟨rfl, new⟩ | ⟨apart, kept⟩
    · cases new
      exact format_chain s.disk (owned.nodup q req here)
    have disjoint := owned.apart q p other req (req_of_formatted kept) here apart
    have head := format_desc s.disk (disjoint (mem_cons_self))
    exact (owned.chain q other kept).keep (fun i member => (format_desc s.disk (disjoint member)).1) head.2.1
      (congrArg Info.b head.2.2)
  | free p req place =>
    have here : (s.pcs p).req = some req := by rw [place]; rfl
    have others : ∀ q other, (update s.pcs p (.unlock req.op) q).req = some other → ∀ i ∈ other.idx, i ∉ req.idx := by
      intro q other is i member inside
      rcases goto_cases Pc.req is with ⟨_, new⟩ | ⟨apart, kept⟩
      · cases new
      · exact owned.apart q p other req kept here apart member inside
    refine owned.keep rfl (goto_sub _ place fun _ => by rintro ⟨⟩) (goto_sub _ place fun _ => by rintro ⟨⟩)
      (goto_sub _ place fun _ => id) (fun q other is i member => ?_) fun q other is chain =>
        chain.keep (fun i member => ?_) rfl ?_
    · simp only [Disk.unmark, Disk.wipe, others q other is i member, decide_false, Bool.or_false]
    · exact if_neg (others q other (req_of_formatted is) i member)
    · have head : other.i0 ≠ req.i0 := by
        intro same
        exact others q other (req_of_formatted is) other.i0 mem_cons_self (same ▸ mem_cons_self)
      exact congrArg Info.b (update_of_ne head _ _)
  | complete p req published member =>
    refine owned.keep rfl (fun _ _ => id) (fun _ _ => id) (fun _ _ => id) (fun _ _ _ _ _ => rfl)
      fun q other is chain => chain.keep (fun _ _ => rfl) rfl ?_
    by_cases same : other.i0 = req.i0
    · simp only [same, update_self]
    · exact congrArg Info.b (update_of_ne same _ _)

namespace Inv

variable (inv : Inv s)
include inv

variable {head : Nat} {req : Request}

theorem low_of_flight (member : head ∈ s.flight) : head < num := by
  obtain ⟨p, req, published, rfl, _⟩ := inv.flight.live head member
  exact (inv.owned.used p req (req_of_published published) req.i0 mem_cons_self).1

theorem not_mem_flight {p : Nat} (is : (s.pcs p).req = some req) (early : (s.pcs p).published = none) :
    req.i0 ∉ s.flight := by
  intro member
  obtain ⟨q, other, published, same, _⟩ := inv.flight.live req.i0 member
  refine inv.owned.heads_ne (req_of_published published) is ?_ same
  rintro rfl
  rw [early] at published
  cases published

theorem length_flight : s.flight.length ≤ num := by
  have inside : s.flight ⊆ List.range num := fun head member => mem_range.mpr (inv.low_of_flight member)
  have bound := (inv.flight.nodup.subperm inside).length_le
  rwa [length_range] at bound

theorem length_flight_lt {p : Nat} (is : (s.pcs p).req = some req) (early : (s.pcs p).published = none) :
    s.flight.length < num := by
  have nodup : (req.i0 :: s.flight).Nodup := nodup_cons.mpr ⟨inv.not_mem_flight is early, inv.flight.nodup⟩
  have inside : req.i0 :: s.flight ⊆ List.range num := by
    intro head member
    rcases mem_cons.mp member with rfl | old
    · exact mem_range.mpr (inv.owned.used p req is req.i0 mem_cons_self).1
    · exact mem_range.mpr (inv.low_of_flight old)
  have bound := (nodup.subperm inside).length_le
  rw [length_range, length_cons] at bound
  omega

theorem pending_room {p : Nat} (is : (s.pcs p).req = some req) (early : (s.pcs p).published = none) :
    Ring.count s.seenAvail s.availIdx < num := by
  have room := inv.length_flight_lt is early
  rw [State.flight, length_append, State.pending, Ring.length_contents] at room
  omega

theorem finished_room (member : head ∈ s.taken) : Ring.count s.seenUsed s.usedIdx < num := by
  have room := inv.length_flight
  have some := length_pos_of_mem member
  rw [State.flight, length_append, length_append, State.finished, Ring.length_contents] at room
  omega

theorem pending_bump {p : Nat} (place : s.pcs p = .bump req) :
    Ring.contents num s.availRing s.seenAvail (s.availIdx + 1#16) = s.pending ++ [req.i0] := by
  have is : (s.pcs p).req = some req := by rw [place]; rfl
  have room := inv.pending_room is (place ▸ rfl)
  have extended := Ring.contents_extend (by decide : num ∣ 2 ^ 16) s.availRing s.seenAvail s.availIdx
    (by simp only [num] at room; omega)
  rw [inv.flight.ring p req place] at extended
  exact extended

theorem finished_complete (member : head ∈ s.taken) :
    Ring.contents num (update s.usedRing (Ring.index num s.usedIdx) head) s.seenUsed (s.usedIdx + 1#16) =
      s.finished ++ [head] := by
  have room := inv.finished_room member
  exact Ring.contents_push (by decide) s.usedRing s.seenUsed s.usedIdx head room (by simp only [num] at room; omega)

end Inv

theorem pending_take (some : s.seenAvail ≠ s.availIdx) :
    s.pending = s.availRing (Ring.index num s.seenAvail) ::
      Ring.contents num s.availRing (s.seenAvail + 1#16) s.availIdx :=
  Ring.contents_pop (by decide) s.availRing s.seenAvail s.availIdx some

theorem finished_consume (some : s.seenUsed ≠ s.usedIdx) :
    s.finished = s.usedRing (Ring.index num s.seenUsed) ::
      Ring.contents num s.usedRing (s.seenUsed + 1#16) s.usedIdx :=
  Ring.contents_pop (by decide) s.usedRing s.seenUsed s.usedIdx some

theorem Flight.keep (flight : Flight s) (same : next.flight.Perm s.flight)
    (live : ∀ q req, (s.pcs q).published = some req → s.busy req.op.b = true →
      (next.pcs q).published = some req ∧ next.busy req.op.b = true)
    (status : ∀ head ∈ next.finished, (next.disk.info head).status = 0)
    (armed : ∀ q req, (next.pcs q).armed = some req → next.busy req.op.b = true)
    (ring : ∀ q req, next.pcs q = .bump req → next.availRing (Ring.index num next.availIdx) = req.i0)
    (offered : next.offered = next.accepted ++ next.pending) (returned : next.returned = next.consumed ++ next.finished) :
    Flight next where
  nodup := same.nodup_iff.mpr flight.nodup
  live head member := by
    obtain ⟨p, req, published, first, busy⟩ := flight.live head (same.mem_iff.mp member)
    obtain ⟨still, also⟩ := live p req published busy
    exact ⟨p, req, still, first, also⟩
  status := status
  armed := armed
  ring := ring
  offered := offered
  returned := returned

theorem Flight.move (flight : Flight s) {p : Nat} {pc old : Pc} (place : s.pcs p = old)
    (pcs : next.pcs = update s.pcs p pc) (published : pc.published = old.published) (armed : ∀ req, pc.armed = some req → old.armed = some req)
    (calm : ∀ req, pc ≠ .bump req) (same : next.flight = s.flight) (busy : next.busy = s.busy)
    (status : ∀ head, (next.disk.info head).status = (s.disk.info head).status) (finished : next.finished = s.finished)
    (ring : next.availRing (Ring.index num next.availIdx) = s.availRing (Ring.index num s.availIdx))
    (offered : next.offered = next.accepted ++ next.pending) (returned : next.returned = next.consumed ++ next.finished) :
    Flight next := by
  refine flight.keep (.of_eq same) (fun q req is on => ?_) (fun head member => ?_) (fun q req is => ?_) (fun q req is => ?_)
    offered returned
  · rw [pcs, busy]
    exact ⟨(goto_same Pc.published place published q).trans is, on⟩
  · rw [finished] at member
    rw [status]
    exact flight.status head member
  · rw [pcs] at is
    rw [busy]
    exact flight.armed q req (goto_sub Pc.armed place armed q req is)
  · rw [pcs] at is
    rw [ring]
    exact flight.ring q req (goto_at is (calm req))

theorem Inv.only_bump (inv : Inv s) {p q : Nat} (inside : (s.pcs p).inside = some ())
    (place : s.pcs q = .bump req) : q = p :=
  inv.guarded.only inside (by simp only [place]; rfl)

theorem Act.flight (inv : Inv s) (act : Act s next) : Flight next := by
  have flight := inv.flight
  cases act with
  | lockBuf | unlockBuf => exact ⟨flight.nodup, flight.live, flight.status, flight.armed, flight.ring, flight.offered, flight.returned⟩
  | call p _ place | intr p place | allocated p _ _ _ _ place | refused p _ _ place | sleep p _ place | answered p _ place
  | unlock p _ place | drained p place | leave p place =>
    exact flight.move place rfl rfl (fun _ => nofun) (fun _ => nofun) rfl rfl (fun _ => rfl) rfl rfl flight.offered
      flight.returned
  | enter p pc free place =>
    rcases place with ⟨op, place, rfl⟩ | ⟨req, place, rfl⟩ | ⟨place, rfl⟩ <;>
      exact flight.move place rfl rfl (fun _ => nofun) (fun _ => nofun) rfl rfl (fun _ => rfl) rfl rfl flight.offered
        flight.returned
  | format p req place =>
    have here : (s.pcs p).req = some req := by rw [place]; rfl
    have still : ∀ b, s.busy b = true → update s.busy req.op.b true b = true := by
      intro b busy
      by_cases same : b = req.op.b
      · rw [same, update_self]
      · rw [update_of_ne same, busy]
    have published : ∀ q, (update s.pcs p (.ring req) q).published = (s.pcs q).published := goto_same _ place rfl
    refine flight.keep (.refl _) (fun q other is busy => ⟨(published q).trans is, still _ busy⟩) (fun head member => ?_)
      (fun q other is => ?_) (fun q other is => ?_) flight.offered flight.returned
    · have outside := inv.not_mem_flight here (place ▸ rfl)
      have apart : head ≠ req.i0 := by
        rintro rfl
        exact outside (mem_append_right _ (mem_append_right _ member))
      exact (congrArg Info.status (update_of_ne apart _ _)).trans (flight.status head member)
    · rcases goto_cases Pc.armed is with ⟨_, new⟩ | ⟨_, kept⟩
      · cases new
        exact update_self _ _ _
      · exact still _ (flight.armed q other kept)
    · have same : s.pcs q = .bump other := goto_at is nofun
      exact flight.ring q other same
  | ring p req place =>
    have here : (s.pcs p).req = some req := by rw [place]; rfl
    have room := inv.pending_room here (place ▸ rfl)
    have same : Ring.contents num (update s.availRing (Ring.index num s.availIdx) req.i0) s.seenAvail s.availIdx = s.pending :=
      Ring.contents_update (by decide) s.availRing req.i0 le_rfl room
    have published : ∀ q, (update s.pcs p (.bump req) q).published = (s.pcs q).published := goto_same _ place rfl
    have armed : ∀ q other, (update s.pcs p (.bump req) q).armed = some other → (s.pcs q).armed = some other :=
      goto_sub _ place fun _ => id
    refine flight.keep (.of_eq (congrArg (· ++ (s.taken ++ s.finished)) same))
      (fun q other is busy => ⟨(published q).trans is, busy⟩) flight.status
      (fun q other is => flight.armed q other (armed q other is)) (fun q other is => ?_)
      (flight.offered.trans (congrArg (s.accepted ++ ·) same.symm)) flight.returned
    obtain rfl | this := eq_or_ne q p
    · cases (update_self _ _ _).symm.trans is
      exact update_self _ _ _
    · exact absurd (inv.only_bump (place ▸ rfl) ((update_of_ne this _ _).symm.trans is)) this
  | bump p req place =>
    have here : (s.pcs p).req = some req := by rw [place]; rfl
    have fresh := inv.not_mem_flight here (place ▸ rfl)
    have grown := inv.pending_bump place
    have perm : ((s.pending ++ [req.i0]) ++ (s.taken ++ s.finished)).Perm (req.i0 :: s.flight) := by
      rw [append_assoc]
      exact perm_middle
    have published : ∀ q other, (s.pcs q).published = some other →
        (update s.pcs p (.check req) q).published = some other := by
      intro q other is
      by_cases this : q = p
      · rw [this, place] at is
        cases is
      · rwa [update_of_ne this]
    rw [← grown] at perm
    refine ⟨?_, fun head member => ?_, flight.status, fun q other is => ?_, fun q other is => ?_, ?_, flight.returned⟩
    · exact perm.nodup_iff.mpr (nodup_cons.mpr ⟨fresh, flight.nodup⟩)
    · rcases mem_cons.mp (perm.mem_iff.mp member) with rfl | old
      · have now : (update s.pcs p (.check req) p).published = some req := by rw [update_self]; rfl
        exact ⟨p, req, now, rfl, flight.armed p req (place ▸ rfl)⟩
      · obtain ⟨q, other, is, first, busy⟩ := flight.live head old
        exact ⟨q, other, published q other is, first, busy⟩
    · rcases goto_cases Pc.armed is with ⟨_, new⟩ | ⟨_, kept⟩
      · cases new
      · exact flight.armed q other kept
    · have same : s.pcs q = .bump other := goto_at is nofun
      obtain rfl := inv.only_bump (by rw [place]; rfl) same
      cases (update_self _ _ _).symm.trans is
    · exact (congrArg (· ++ [req.i0]) flight.offered).trans ((append_assoc _ _ _).trans
        (congrArg (s.accepted ++ ·) grown.symm))
  | free p req place =>
    have spent := inv.history.spent p req place
    have armed : ∀ q other, (update s.pcs p (.unlock req.op) q).armed = some other → (s.pcs q).armed = some other :=
      goto_sub _ place fun _ => nofun
    refine flight.keep (.refl _) (fun q other is busy => ⟨?_, busy⟩) (fun head member => ?_)
      (fun q other is => flight.armed q other (armed q other is)) (fun q other is => ?_) flight.offered flight.returned
    · by_cases this : q = p
      · rw [this, place] at is
        cases is
        rw [spent] at busy
        cases busy
      · exact (congrArg Pc.published (update_of_ne this _ _)).trans is
    · have status := flight.status head member
      obtain rfl | this := eq_or_ne head req.i0
      · change (update s.disk.info req.i0 { s.disk.info req.i0 with b := none } req.i0).status = 0
        rw [update_self]
        exact status
      · exact (congrArg Info.status (update_of_ne this _ _)).trans status
    · have same : s.pcs q = .bump other := goto_at is nofun
      exact flight.ring q other same
  | consume p q req place some published entry =>
    have popped := finished_consume some
    rw [entry] at popped
    have perm : s.flight.Perm (req.i0 :: (s.pending ++ (s.taken ++
        Ring.contents num s.usedRing (s.seenUsed + 1#16) s.usedIdx))) := by
      rw [State.flight, popped, ← append_assoc, ← append_assoc]
      exact perm_middle
    obtain ⟨gone, nodup⟩ := nodup_cons.mp (perm.nodup_iff.mp flight.nodup)
    refine ⟨nodup, fun head member => ?_, fun head member => ?_, fun r other is => ?_, flight.ring, flight.offered, ?_⟩
    · obtain ⟨r, other, is, rfl, busy⟩ := flight.live head (perm.mem_iff.mpr (mem_cons_of_mem _ member))
      refine ⟨r, other, is, rfl, ?_⟩
      have apart : r ≠ q := by
        rintro rfl
        rw [published] at is
        cases is
        exact gone member
      exact (update_of_ne (inv.owned.buffers_ne (op_of_published is) (op_of_published published) apart) _ _).trans busy
    · exact flight.status head (by rw [popped]; exact mem_cons_of_mem _ member)
    · have apart : r ≠ q := by
        rintro rfl
        exact absurd (is.symm.trans (armed_of_published published)) nofun
      have busy := flight.armed r other is
      exact (update_of_ne (inv.owned.buffers_ne (op_of_req (req_of_formatted (formatted_of_armed is)))
        (op_of_published published) apart) _ _).trans busy
    · refine flight.returned.trans ?_
      rw [popped]
      exact append_cons _ _ _
  | take head some entry =>
    have popped := pending_take some
    rw [entry] at popped
    refine flight.keep ?_ (fun q other is busy => ⟨is, busy⟩) flight.status flight.armed flight.ring ?_ flight.returned
    · change (Ring.contents num s.availRing (s.seenAvail + 1#16) s.availIdx ++ ((s.taken ++ [head]) ++ s.finished)).Perm
        (s.pending ++ (s.taken ++ s.finished))
      rw [popped, append_assoc, ← append_assoc, cons_append, ← append_assoc]
      exact perm_middle
    · refine flight.offered.trans ?_
      rw [popped]
      exact append_cons _ _ _
  | complete p req published member =>
    have grown := inv.finished_complete member
    have perm : (s.taken.erase req.i0 ++ (s.finished ++ [req.i0])).Perm (s.taken ++ s.finished) := by
      have moved : (s.taken.erase req.i0 ++ (s.finished ++ [req.i0])).Perm
          (req.i0 :: s.taken.erase req.i0 ++ s.finished) := by
        rw [← append_assoc]
        exact perm_append_singleton _ _
      exact moved.trans ((perm_cons_erase member).symm.append_right _)
    refine flight.keep ?_ (fun q other is busy => ⟨is, busy⟩) (fun head finished => ?_) flight.armed flight.ring
      flight.offered ?_
    · rw [← grown] at perm
      exact perm.append_left s.pending
    · have either : head ∈ s.finished ++ [req.i0] := grown ▸ finished
      obtain rfl | this := eq_or_ne head req.i0
      · change (update s.disk.info req.i0 { s.disk.info req.i0 with status := 0 } req.i0).status = 0
        rw [update_self]
      · rcases mem_append.mp either with old | new
        · exact (congrArg Info.status (update_of_ne this _ _)).trans (flight.status head old)
        · exact absurd (mem_singleton.mp new) this
    · refine (congrArg (· ++ [req.i0]) flight.returned).trans ((append_assoc _ _ _).trans ?_)
      exact congrArg (s.consumed ++ ·) grown.symm

end Xv6.Virtio

import Xv6.Fs.Entries

/-!
Path names and system calls over the block layer. A call holds some references of its own,
listed with repetitions in `held`, on top of the `base` references that others hold.
-/

namespace Xv6.Fs

open Function List
open Lib.Hoare

variable {held' : List Nat} {value : Slot} {after : State} {inum type major minor : Nat} {path : List UInt8}

def Counts (st : State) (base : Nat → Nat) (held : List Nat) : Prop :=
  ∀ jp, (st.itable jp).ref = base jp + held.count jp

structure Step (sb : Superblock) (base : Nat → Nat) (held : List Nat) (st after : State) : Prop where
  inv : Inv sb after
  counts : Counts after base held
  stays : ∀ jp ∈ held, Ready st jp → Ready after jp

variable {sb : Superblock} {st : State} {stop : Stop → Prop} {ip dp : Nat}
variable {base : Nat → Nat} {held : List Nat}

theorem Counts.live (counts : Counts st base held) (mem : ip ∈ held) : 0 < (st.itable ip).ref := by
  rw [counts ip]
  have positive := count_pos_iff.mpr mem
  omega

theorem Counts.set (counts : Counts st base held) (table : after.itable = update st.itable ip value)
    (here : value.ref = base ip + held'.count ip) (others : ∀ jp, jp ≠ ip → held'.count jp = held.count jp) :
    Counts after base held' := by
  intro jp
  rw [table]
  obtain rfl | same := eq_or_ne jp ip
  · rw [update_self, here]
  · rw [update_of_ne same, counts jp, others jp same]

theorem ready_set {jp : Nat} (table : after.itable = update st.itable ip value) (ready : Ready st jp)
    (here : jp = ip → 0 < value.ref ∧ value.valid = true) : Ready after jp := by
  rw [Ready, table]
  obtain rfl | same := eq_or_ne jp ip
  · rw [update_self]
    exact here rfl
  · rw [update_of_ne same]
    exact ready

theorem Step.refl (inv : Inv sb st) (counts : Counts st base held) : Step sb base held st st :=
  ⟨inv, counts, fun _ _ ready => ready⟩

theorem Got.step {r : Nat} (counts : Counts st base held) (got : Got st r inum after) (inv : Inv sb after) :
    Step sb base (r :: held) st after := by
  obtain ⟨table, hit⟩ := got
  refine ⟨inv, counts.set table ?_ fun jp other => ?_, fun jp _ ready => ready_set table ready fun same => ?_⟩
  · simp only [Slot.got, counts r, count_cons_self]
    omega
  · exact count_cons_of_ne other.symm
  · subst same
    exact ⟨Nat.succ_pos _, by simp [Slot.got, ready.1, ready.2]⟩

theorem put_step (inv : Inv sb st) (counts : Counts st base held) (mem : ip ∈ held)
    (inum : value.inum = (st.itable ip).inum) (valid : value.valid = (st.itable ip).valid)
    (copy : value.d = (st.itable ip).d) (here : value.ref = base ip + held'.count ip)
    (others : ∀ jp, jp ≠ ip → held'.count jp = held.count jp) : Step sb base held' st (st.put ip value) := by
  refine ⟨⟨inv.good.put (counts.live mem) inum valid copy, inv.listed⟩, counts.set rfl here others,
    fun jp kept ready => ready_set rfl ready fun same => ?_⟩
  subst same
  refine ⟨?_, valid.trans ready.2⟩
  rw [here]
  have positive := count_pos_iff.mpr kept
  omega

theorem Renewed.step {d : Dinode} (counts : Counts st base held) (renewed : Renewed sb st ip d after)
    (inv : Inv sb after) : Step sb base held st after := by
  have same : ∀ jp, (after.itable jp).ref = (st.itable jp).ref ∧
      (after.itable jp).valid = (st.itable jp).valid := by
    intro jp
    rw [renewed.table]
    obtain rfl | here := eq_or_ne jp ip
    · rw [update_self]
      exact ⟨rfl, rfl⟩
    · rw [update_of_ne here]
      exact ⟨rfl, rfl⟩
  refine ⟨inv, fun jp => (same jp).1.trans (counts jp), fun jp _ ready => ?_⟩
  rw [Ready, (same jp).1, (same jp).2]
  exact ready

section Primitives

variable (inv : Inv sb st) (counts : Counts st base held)
include inv counts

theorem iget_step (bound : inum < sb.ninodes) :
    Ends (iget inum) st Safe fun r after => Step sb base (r :: held) st after := by
  refine (iget_ends inv.good bound).mono fun r after facts => ?_
  obtain ⟨rfl, hit, good⟩ := facts
  exact Got.step counts ⟨rfl, hit⟩ ⟨good, inv.listed⟩

variable (mem : ip ∈ held)
include mem

theorem ilock_step : Ends (ilock sb ip) st Safe fun _ after =>
    Step sb base held st after ∧ Ready after ip := by
  have live := counts.live mem
  refine (ilock_ends inv.good live).mono fun _ after facts => ?_
  obtain ⟨d, rfl, _, _, good⟩ := facts
  refine ⟨⟨⟨good, inv.listed⟩, counts.set rfl (counts ip) fun _ _ => rfl,
    fun jp _ ready => ready_set rfl ready fun _ => ⟨live, rfl⟩⟩, ?_⟩
  rw [Ready, put_self]
  exact ⟨live, rfl⟩

theorem iunlock_step : Ends (iunlock ip) st Safe fun _ after => Step sb base held st after := by
  refine (iunlock_ends inv.good (counts.live mem)).mono fun _ after facts => ?_
  obtain ⟨rfl, _⟩ := facts
  exact put_step inv counts mem rfl rfl rfl (counts ip) fun _ _ => rfl

theorem iput_step : Ends (iput sb ip) st Safe fun _ after => Step sb base (held.erase ip) st after := by
  have live := counts.live mem
  have here : (st.itable ip).ref - 1 = base ip + (held.erase ip).count ip := by
    have positive := count_pos_iff.mpr mem
    rw [counts ip, count_erase_self]
    omega
  have others : ∀ jp, jp ≠ ip → (held.erase ip).count jp = held.count jp :=
    fun jp other => count_erase_of_ne other
  refine (iput_ends inv.good live).mono fun _ after facts => ?_
  obtain ⟨good, rfl | freed⟩ := facts
  · exact put_step inv counts mem rfl rfl rfl here others
  have single := freed.last.1
  have gone := freed.slot.1
  have count : ∀ jp, (after.itable jp).ref = base jp + (held.erase ip).count jp := by
    intro jp
    obtain rfl | same := eq_or_ne jp ip
    · omega
    · rw [freed.others jp same, counts jp, others jp same]
  refine ⟨⟨good, ?_⟩, count, fun jp kept ready => ?_⟩
  · rw [freed.files]
    exact inv.listed.update (by simp)
  obtain rfl | same := eq_or_ne jp ip
  · have positive := count_pos_iff.mpr kept
    have now := count jp
    omega
  · rw [Ready, freed.others jp same]
    exact ready

theorem iunlockput_step :
    Ends (iunlockput sb ip) st Safe fun _ after => Step sb base (held.erase ip) st after := by
  rw [iunlockput]
  refine (iunlock_step inv counts mem).seq fun _ middle first => ?_
  refine (iput_step first.inv first.counts mem).mono fun _ after second => ?_
  exact ⟨second.inv, second.counts,
    fun jp kept ready => second.stays jp kept (first.stays jp (mem_of_mem_erase kept) ready)⟩

end Primitives

structure Mild (change : Dinode → Dinode) : Prop where
  addrs : ∀ d, (change d).addrs = d.addrs
  size : ∀ d, (change d).size = d.size
  type : ∀ d, (change d).type = d.type
  fits : ∀ d, d.Fits → (change d).Fits

theorem mod_short (n : Nat) : n % 2 ^ 16 < 2 ^ 16 := Nat.mod_lt n (by decide)

theorem Mild.of_nlink {change : Dinode → Dinode}
    (sets : ∀ d, ∃ n < 2 ^ 16, change d = { d with nlink := n }) : Mild change := by
  refine ⟨fun d => ?_, fun d => ?_, fun d => ?_, fun d fits => ?_⟩
  all_goals
    obtain ⟨n, narrow, same⟩ := sets d
    rw [same]
  exact ⟨fits.type, fits.major, fits.minor, narrow, fits.size, fits.addrs⟩

theorem addLink_mild : Mild addLink := .of_nlink fun _ => ⟨_, mod_short _, rfl⟩

theorem dropLink_mild : Mild dropLink := .of_nlink fun _ => ⟨_, mod_short _, rfl⟩

theorem clearLink_mild : Mild fun d => { d with nlink := 0 } := .of_nlink fun _ => ⟨0, mod_short 0, rfl⟩

theorem setNumbers_mild (major minor : Nat) :
    Mild fun d => { d with major := major % 2 ^ 16, minor := minor % 2 ^ 16, nlink := 1 } where
  addrs _ := rfl
  size _ := rfl
  type _ := rfl
  fits _ fits := ⟨fits.type, mod_short _, mod_short _, mod_short 1, fits.size, fits.addrs⟩

section Inodes

variable (inv : Inv sb st) (counts : Counts st base held)
include inv counts

theorem ialloc_step (narrow : type < 2 ^ 16) :
    Ends (ialloc sb type) st Safe fun result after =>
      (result = none ∧ after = st) ∨ ∃ r, result = some r ∧ Step sb base (r :: held) st after := by
  refine (ialloc_ends inv.good narrow).mono fun result after facts => ?_
  obtain ⟨good, same | ⟨i, r, rfl, allocated⟩⟩ := facts
  · exact .inl same
  refine .inr ⟨r, rfl, ?_⟩
  have listed : Listed sb (sb.fileOf after.disk) := by
    rw [allocated.files]
    refine inv.listed.update fun f made _ off _ inside => ?_
    split at made
    · cases made
      simp [newFile, direntSize] at inside
    · exact absurd made (by simp)
  exact Got.step counts ⟨allocated.slot, allocated.hit⟩ ⟨good, listed⟩

variable (ready : Ready st ip)
include ready

theorem update_step {change : Dinode → Dinode} (mild : Mild change) :
    Ends (setDinode ip change >>= fun _ => iupdate sb ip) st Safe fun _ after =>
      Step sb base held st after := by
  have opened := inv.opened ready
  obtain ⟨_, used, stored⟩ := Superblock.nodeOf_eq_some (opened.synced inv.good)
  have fits : (st.itable ip).d.Fits := stored ▸ sb.dinodeOf_fits st.disk _
  refine (update_ends inv.good opened (mild.addrs _) (mild.size _) (by rwa [mild.type])
    (mild.fits _ fits)).mono fun _ after facts => ?_
  obtain ⟨renewed, file⟩ := facts
  refine renewed.step counts ⟨renewed.good inv.good ready.1, ?_⟩
  rw [renewed.files, file]
  refine inv.listed.update fun f made dir off aligned inside => ?_
  cases made
  exact inv.listed _ _ opened.file ((mild.type _).symm.trans dir) off aligned inside

theorem itrunc_step : Ends (itrunc sb ip) st stop fun _ after => Step sb base held st after := by
  refine (itrunc_renews inv.good ready.1 ready.2).mono fun _ after renewed => ?_
  refine renewed.step counts ⟨renewed.good inv.good ready.1, ?_⟩
  rw [renewed.files]
  refine inv.listed.update fun f made _ off _ inside => ?_
  cases made
  simp [Dinode.empty, direntSize] at inside

end Inodes

section Directory

variable (inv : Inv sb st) (counts : Counts st base held) (ready : Ready st dp)
include inv counts ready

theorem dirlookup_step (name : Name) :
    Ends (dirlookup sb dp name) st Safe fun result after =>
      (result = none ∧ after = st) ∨ ∃ r o, result = some (r, o) ∧ o % direntSize = 0 ∧
        o < 2 ^ 32 ∧ Step sb base (r :: held) st after := by
  have limit := inv.size_lt ready
  refine (dirlookup_ends inv ready name).mono fun result after facts => ?_
  obtain ⟨inv', _, same | ⟨r, o, inum, rfl, found⟩⟩ := facts
  · exact .inl same
  · have inside := found.inside
    exact .inr ⟨r, o, rfl, found.aligned, by omega, found.got.step counts inv'⟩

theorem entry_step {src : Nat → Option UInt8} (total : ∀ k < direntSize, src k ≠ none)
    (entry : ((src 0).getD 0).toNat + 256 * ((src 1).getD 0).toNat < sb.ninodes) {off : Nat}
    (aligned : off % direntSize = 0) (narrow : off < 2 ^ 32) :
    Ends (writei sb dp src off direntSize) st Safe fun _ after => Step sb base held st after := by
  refine (entry_write inv ready total entry aligned narrow).mono fun _ after facts => ?_
  obtain ⟨inv', rfl | ⟨d, renewed⟩⟩ := facts
  · exact .refl inv counts
  · exact renewed.step counts inv'

theorem dirlink_step (name : Name) (bound : inum < sb.ninodes) :
    Ends (dirlink sb dp name inum) st Safe fun _ after => Step sb base held st after := by
  rw [dirlink]
  refine (dirlookup_step inv counts ready name).seq fun result middle outcome => ?_
  rcases outcome with ⟨rfl, rfl⟩ | ⟨r, o, rfl, _, _, step⟩
  · have limit := inv.size_lt ready
    simp only [ends_bind, ends_slot]
    refine (dirlinkFrom_ends inv ready _ 0 rfl (Nat.zero_le _)).mono fun off after facts => ?_
    obtain ⟨rfl, aligned, near⟩ := facts
    have entry : (((direntBytes inum name)[0]?).getD 0).toNat +
        256 * (((direntBytes inum name)[1]?).getD 0).toNat < sb.ninodes := by
      rw [direntBytes_inum]
      exact (Nat.mod_le ..).trans_lt bound
    exact entry_step inv counts ready (fun _ low => direntBytes_some inum name low) entry aligned (by omega)
  · simp only [ends_bind]
    refine (iput_step step.inv step.counts mem_cons_self).mono fun _ after last => ?_
    rw [erase_cons_head] at last
    rw [ends_pure]
    exact ⟨last.inv, last.counts, fun jp kept ready =>
      last.stays jp kept (step.stays jp (mem_cons_of_mem _ kept) ready)⟩

end Directory

def heldWith {α : Type} (result : Option (Nat × α)) (held : List Nat) : List Nat :=
  match result with
  | none => held
  | some (r, _) => r :: held

theorem erase_second (next ip : Nat) (held : List Nat) : (next :: ip :: held).erase ip = next :: held := by
  by_cases same : next = ip
  · rw [same, erase_cons_head]
  · rw [erase_cons_tail (by simpa using same), erase_cons_head]

theorem namexFrom_step (parent : Bool) (fuel : Nat) (path : List UInt8) (name : Name)
    (inv : Inv sb st) (counts : Counts st base (ip :: held)) (enough : path.length < fuel) :
    Ends (namexFrom sb parent fuel ip path name) st Safe fun result after =>
      Inv sb after ∧ Counts after base (heldWith result held) := by
  induction fuel generalizing st ip path name with
  | zero => omega
  | succ fuel ih =>
    have mem : ip ∈ ip :: held := mem_cons_self
    -- giving `ip` up ends the walk without a result
    have fails : ∀ middle : State, Inv sb middle → Counts middle base (ip :: held) →
        Ends (iunlockput sb ip >>= fun _ => pure none) middle Safe fun result after =>
          Inv sb after ∧ Counts after base (heldWith (result : Option (Nat × Name)) held) := by
      intro middle inv' counts'
      refine (iunlockput_step inv' counts' mem).seq fun _ after step => ?_
      rw [ends_pure]
      have counts'' := step.counts
      rw [erase_cons_head] at counts''
      exact ⟨step.inv, counts''⟩
    rw [namexFrom]
    cases next : skipelem path with
    | none =>
      dsimp only
      split
      · refine (iput_step inv counts mem).seq fun _ after step => ?_
        rw [ends_pure]
        have counts' := step.counts
        rw [erase_cons_head] at counts'
        exact ⟨step.inv, counts'⟩
      · exact ⟨inv, counts⟩
    | some element =>
      obtain ⟨name, rest⟩ := element
      have shorter := skipelem_shorter next
      dsimp only
      refine (ilock_step inv counts mem).seq fun _ middle facts => ?_
      obtain ⟨locked, ready⟩ := facts
      simp only [ends_bind, ends_slot]
      split
      · exact fails middle locked.inv locked.counts
      split
      · exact fails middle locked.inv locked.counts
      split
      · refine (iunlock_step locked.inv locked.counts mem).seq fun _ after step => ?_
        exact ⟨step.inv, step.counts⟩
      refine (dirlookup_step locked.inv locked.counts ready name).seq fun result after outcome => ?_
      rcases outcome with ⟨rfl, rfl⟩ | ⟨r, o, rfl, _, _, step⟩
      · exact fails after locked.inv locked.counts
      dsimp only
      refine (iunlockput_step step.inv step.counts (mem_cons_of_mem _ mem)).seq
        fun _ last unlocked => ?_
      have counts' := unlocked.counts
      rw [erase_second] at counts'
      exact ih rest name unlocked.inv counts' (by omega)

def Rooted (st : State) (cwd : Nat) (path : List UInt8) : Prop :=
  path.head? = some slash ∨ 0 < (st.itable cwd).ref

theorem namex_step {cwd : Nat} (path : List UInt8) (parent : Bool) (inv : Inv sb st)
    (counts : Counts st base held) (rooted : Rooted st cwd path) :
    Ends (namex sb cwd path parent) st Safe fun result after =>
      Inv sb after ∧ Counts after base (heldWith result held) := by
  rw [namex]
  split
  · refine (iget_step inv counts sb.root).seq fun r after step => ?_
    exact namexFrom_step parent _ path [] step.inv step.counts (Nat.lt_succ_self _)
  next relative =>
  refine (idup_ends inv.good (rooted.resolve_left relative)).seq fun r after facts => ?_
  obtain ⟨rfl, rfl, good⟩ := facts
  refine namexFrom_step parent _ path [] ⟨good, inv.listed⟩ (counts.set rfl ?_ fun jp other => ?_)
    (Nat.lt_succ_self _)
  · have before := counts r
    rw [count_cons_self]
    dsimp only
    omega
  · exact count_cons_of_ne other.symm

theorem namei_step {cwd : Nat} (path : List UInt8) (inv : Inv sb st) (counts : Counts st base held)
    (rooted : Rooted st cwd path) :
    Ends (namei sb cwd path) st Safe fun result after =>
      Inv sb after ∧ Counts after base (result.toList ++ held) := by
  rw [namei]
  refine (namex_step path false inv counts rooted).seq fun result after facts => ?_
  rw [ends_pure]
  cases result with
  | none | some _ => exact facts

theorem Step.trans {middle : State} (first : Step sb base held st middle) (second : Step sb base held' middle after)
    (fewer : ∀ jp ∈ held', jp ∈ held) : Step sb base held' st after :=
  ⟨second.inv, second.counts,
    fun jp kept ready => second.stays jp kept (first.stays jp (fewer jp kept) ready)⟩

section Calls

variable {cwd : Nat}

theorem unlinkEntry_step (inv : Inv sb st) (counts : Counts st base [ip, dp]) (readyDp : Ready st dp)
    (readyIp : Ready st ip) {off : Nat} (aligned : off % direntSize = 0) (narrow : off < 2 ^ 32) :
    Ends (unlinkEntry sb dp ip off) st Safe fun _ after => Inv sb after ∧ Counts after base [] := by
  have root := sb.root
  have dpIn : dp ∈ [ip, dp] := by simp
  have ipIn : ip ∈ [ip, dp] := by simp
  -- the end of the call, from the state in which `dp` is given up
  have ends : ∀ middle : State, Inv sb middle → Counts middle base [ip, dp] → Ready middle ip →
      Ends (do iunlockput sb dp; setDinode ip dropLink; iupdate sb ip; iunlockput sb ip; return true)
        middle Safe fun _ after => Inv sb after ∧ Counts after base [] := by
    intro middle inv counts ready
    refine (iunlockput_step inv counts dpIn).seq fun _ first step => ?_
    have only : ([ip, dp] : List Nat).erase dp = [ip] := erase_second ip dp []
    rw [only] at step
    have here : ip ∈ [ip] := mem_singleton_self ip
    refine (update_step step.inv step.counts (step.stays ip here ready) dropLink_mild).seqPair
      fun _ second step => ?_
    refine (iunlockput_step step.inv step.counts here).seq fun _ last step => ?_
    rw [ends_pure]
    exact ⟨step.inv, by simpa using step.counts⟩
  rw [unlinkEntry]
  refine (entry_step inv counts readyDp (fun k low => ?_) ?_ aligned narrow).seq fun written middle step => ?_
  · rw [List.getElem?_replicate, if_pos low]
    simp
  · exact Nat.lt_of_le_of_lt (Nat.zero_le _) root
  split
  · rw [ends_throw]
    simp [Safe]
  simp only [ends_bind, ends_slot]
  split
  · refine (update_step step.inv step.counts (step.stays dp dpIn readyDp) dropLink_mild).seqPair
      fun _ after next => ?_
    exact ends after next.inv next.counts (next.stays ip ipIn (step.stays ip ipIn readyIp))
  · exact ends middle step.inv step.counts (step.stays ip ipIn readyIp)

theorem sysUnlink_step (path : List UInt8) (inv : Inv sb st) (counts : Counts st base [])
    (rooted : Rooted st cwd path) :
    Ends (sysUnlink sb cwd path) st Safe fun _ after => Inv sb after ∧ Counts after base [] := by
  rw [sysUnlink]
  refine (namex_step path true inv counts rooted).seq fun result middle facts => ?_
  obtain ⟨inv, counts⟩ := facts
  cases result with
  | none => exact ⟨inv, counts⟩
  | some found =>
    obtain ⟨dp, name⟩ := found
    have counts : Counts middle base [dp] := counts
    have here : dp ∈ [dp] := mem_singleton_self dp
    have fails : ∀ middle : State, Inv sb middle → Counts middle base [dp] →
        Ends (iunlockput sb dp >>= fun _ => pure false) middle Safe fun _ after =>
          Inv sb after ∧ Counts after base [] := by
      intro middle inv counts
      refine (iunlockput_step inv counts here).seq fun _ after step => ?_
      rw [ends_pure]
      exact ⟨step.inv, by simpa using step.counts⟩
    dsimp only
    refine (ilock_step inv counts here).seq fun _ locked facts => ?_
    obtain ⟨step, ready⟩ := facts
    split
    · exact fails locked step.inv step.counts
    refine (dirlookup_step step.inv step.counts ready name).seq fun result looked outcome => ?_
    rcases outcome with ⟨rfl, rfl⟩ | ⟨ip, off, rfl, aligned, narrow, next⟩
    · exact fails looked step.inv step.counts
    have dpIn : dp ∈ [ip, dp] := by simp
    have ipIn : ip ∈ [ip, dp] := by simp
    dsimp only
    refine (ilock_step next.inv next.counts ipIn).seq fun _ both facts => ?_
    obtain ⟨last, readyIp⟩ := facts
    have readyDp := last.stays dp dpIn (next.stays dp dpIn ready)
    simp only [ends_bind, ends_slot]
    split
    · rw [ends_throw]
      simp [Safe]
    split
    · refine (isdirempty_ends last.inv readyIp).seq fun empty after same => ?_
      subst same
      split
      · exact unlinkEntry_step last.inv last.counts readyDp readyIp aligned narrow
      · refine (iunlockput_step last.inv last.counts ipIn).seq fun _ first step => ?_
        refine fails first step.inv ?_
        simpa using step.counts
    · exact unlinkEntry_step last.inv last.counts readyDp readyIp aligned narrow

structure Made (sb : Superblock) (base : Nat → Nat) (result : Option Nat) (after : State) : Prop where
  inv : Inv sb after
  counts : Counts after base result.toList
  ready : ∀ r, result = some r → Ready after r

theorem Made.none (inv : Inv sb st) (counts : Counts st base []) : Made sb base .none st :=
  ⟨inv, counts, by simp⟩

theorem createUndo_step (inv : Inv sb st) (counts : Counts st base [ip, dp]) (ready : Ready st ip) :
    Ends (createUndo sb dp ip) st Safe fun result after => Made sb base result after := by
  have ipIn : ip ∈ [ip, dp] := by simp
  rw [createUndo]
  refine (update_step inv counts ready clearLink_mild).seqPair fun _ middle step => ?_
  refine (iunlockput_step step.inv step.counts ipIn).seq fun _ after next => ?_
  rw [erase_cons_head] at next
  refine (iunlockput_step next.inv next.counts (mem_singleton_self dp)).seq fun _ last step => ?_
  rw [ends_pure]
  exact .none step.inv (by simpa using step.counts)

theorem createDots_step (inv : Inv sb st) (counts : Counts st base [ip, dp]) (ready : Ready st ip) :
    Ends (createDots sb dp ip) st Safe fun _ after => Step sb base [ip, dp] st after := by
  have ipIn : ip ∈ [ip, dp] := by simp
  have dpIn : dp ∈ [ip, dp] := by simp
  simp only [createDots, ends_bind, ends_slot]
  refine (dirlink_step inv counts ready dot (inv.good.table.inum ip (counts.live ipIn))).mono
    fun self middle step => ?_
  split
  · simp only [ends_bind, ends_slot]
    refine (dirlink_step step.inv step.counts (step.stays ip ipIn ready) dotdot
      (step.inv.good.table.inum dp (step.counts.live dpIn))).mono fun _ after next => ?_
    exact step.trans next fun _ kept => kept
  · exact step

theorem createNew_step {name : Name} (narrow : type < 2 ^ 16) (inv : Inv sb st) (counts : Counts st base [dp])
    (ready : Ready st dp) :
    Ends (createNew sb dp name type major minor) st Safe fun result after => Made sb base result after := by
  rw [createNew]
  refine (ialloc_step inv counts narrow).seq fun result middle outcome => ?_
  rcases outcome with ⟨rfl, rfl⟩ | ⟨ip, rfl, step⟩
  · refine (iunlockput_step inv counts (mem_singleton_self dp)).seq fun _ after step => ?_
    rw [ends_pure]
    exact .none step.inv (by simpa using step.counts)
  have ipIn : ip ∈ [ip, dp] := by simp
  have dpIn : dp ∈ [ip, dp] := by simp
  dsimp only
  refine (ilock_step step.inv step.counts ipIn).seq fun _ locked facts => ?_
  obtain ⟨lock, readyIp⟩ := facts
  refine (update_step lock.inv lock.counts readyIp (setNumbers_mild major minor)).seqPair
    fun _ made next => ?_
  have readyDp := next.stays dp dpIn (lock.stays dp dpIn (step.stays dp dpIn ready))
  have readyIp := next.stays ip ipIn readyIp
  have filling : Ends (if type = tDir then createDots sb dp ip else pure true) made Safe
      fun _ after => Step sb base [ip, dp] made after := by
    split
    · exact createDots_step next.inv next.counts readyIp
    · exact .refl next.inv next.counts
  refine filling.seqIf fun filled after dots => ?_
  have readyDp := dots.stays dp dpIn readyDp
  have readyIp := dots.stays ip ipIn readyIp
  split
  · simp only [ends_bind, ends_slot]
    refine (dirlink_step dots.inv dots.counts readyDp name
      (dots.inv.good.table.inum ip (dots.counts.live ipIn))).mono fun linked last link => ?_
    split
    · -- with or without the link for the new `..`, the parent is given up and `ip` stays
      have gives : ∀ last : State, Step sb base [ip, dp] after last →
          Ends (iunlockput sb dp >>= fun _ => pure (some ip)) last Safe fun result final =>
            Made sb base result final := by
        intro last link
        refine (iunlockput_step link.inv link.counts dpIn).seq fun _ final step => ?_
        rw [erase_second ip dp []] at step
        rw [ends_pure]
        refine ⟨step.inv, step.counts, fun r same => ?_⟩
        cases same
        exact step.stays _ (mem_singleton_self _) (link.stays _ ipIn readyIp)
      split
      · refine (update_step link.inv link.counts (link.stays dp dpIn readyDp) addLink_mild).seqPair
          fun _ final step => ?_
        exact gives final (link.trans step fun _ kept => kept)
      · exact gives last link
    · exact createUndo_step link.inv link.counts (link.stays ip ipIn readyIp)
  · exact createUndo_step dots.inv dots.counts readyIp

theorem create_step (narrow : type < 2 ^ 16) (inv : Inv sb st) (counts : Counts st base [])
    (rooted : Rooted st cwd path) :
    Ends (create sb cwd path type major minor) st Safe fun result after => Made sb base result after := by
  rw [create]
  refine (namex_step path true inv counts rooted).seq fun result middle facts => ?_
  obtain ⟨inv, counts⟩ := facts
  cases result with
  | none => exact .none inv counts
  | some found =>
    obtain ⟨dp, name⟩ := found
    have counts : Counts middle base [dp] := counts
    have here : dp ∈ [dp] := mem_singleton_self dp
    have fails : ∀ (r : Nat) (middle : State), Inv sb middle → Counts middle base [r] →
        Ends (iunlockput sb r >>= fun _ => pure none) middle Safe fun result after =>
          Made sb base result after := by
      intro r middle inv counts
      refine (iunlockput_step inv counts (mem_singleton_self r)).seq fun _ after step => ?_
      rw [ends_pure]
      exact .none step.inv (by simpa using step.counts)
    dsimp only
    refine (ilock_step inv counts here).seq fun _ locked facts => ?_
    obtain ⟨step, ready⟩ := facts
    simp only [ends_bind, ends_slot]
    split
    · exact fails dp locked step.inv step.counts
    refine (dirlookup_step step.inv step.counts ready name).seq fun result looked outcome => ?_
    rcases outcome with ⟨rfl, rfl⟩ | ⟨ip, off, rfl, _, _, next⟩
    · exact createNew_step narrow step.inv step.counts ready
    dsimp only
    refine (iunlockput_step next.inv next.counts (by simp)).seq fun _ single last => ?_
    rw [erase_second ip dp []] at last
    refine (ilock_step last.inv last.counts (mem_singleton_self ip)).seq fun _ final facts => ?_
    obtain ⟨lock, readyIp⟩ := facts
    simp only [ends_bind, ends_slot]
    split
    · refine ⟨lock.inv, lock.counts, fun r same => ?_⟩
      cases same
      exact readyIp
    · exact fails ip final lock.inv lock.counts

theorem linkUndo_step (inv : Inv sb st) (counts : Counts st base [ip]) :
    Ends (linkUndo sb ip) st Safe fun _ after => Inv sb after := by
  have here : ip ∈ [ip] := mem_singleton_self ip
  rw [linkUndo]
  refine (ilock_step inv counts here).seq fun _ locked facts => ?_
  obtain ⟨lock, ready⟩ := facts
  refine (update_step lock.inv lock.counts ready dropLink_mild).seqPair fun _ after step => ?_
  refine (iunlockput_step step.inv step.counts here).seq fun _ last step => ?_
  exact step.inv

theorem sysLink_step {old new : List UInt8} (inv : Inv sb st) (counts : Counts st base [])
    (rooted : Rooted st cwd old) (rooted' : Rooted st cwd new) :
    Ends (sysLink sb cwd old new) st Safe fun _ after => Inv sb after := by
  have later : ∀ (held : List Nat) (after : State), Counts after base held → Rooted after cwd new := by
    intro held after counts'
    refine rooted'.imp_right fun live => ?_
    rw [counts cwd] at live
    rw [counts' cwd]
    simp only [count_nil] at live
    omega
  rw [sysLink]
  refine (namei_step old inv counts rooted).seq fun result found facts => ?_
  obtain ⟨inv, counts⟩ := facts
  cases result with
  | none => exact inv
  | some ip =>
    have counts : Counts found base [ip] := counts
    have here : ip ∈ [ip] := mem_singleton_self ip
    dsimp only
    refine (ilock_step inv counts here).seq fun _ locked facts => ?_
    obtain ⟨lock, ready⟩ := facts
    simp only [ends_bind, ends_slot]
    split
    · refine (iunlockput_step lock.inv lock.counts here).seq fun _ after step => ?_
      exact step.inv
    refine (update_step lock.inv lock.counts ready addLink_mild).seqPair fun _ counted step => ?_
    refine (iunlock_step step.inv step.counts here).seq fun _ free step => ?_
    refine (namex_step new true step.inv step.counts (later _ _ step.counts)).seq
      fun result looked facts => ?_
    obtain ⟨inv, counts⟩ := facts
    cases result with
    | none => exact linkUndo_step inv counts
    | some found =>
      obtain ⟨dp, name⟩ := found
      have counts : Counts looked base [dp, ip] := counts
      have dpIn : dp ∈ [dp, ip] := by simp
      have ipIn : ip ∈ [dp, ip] := by simp
      dsimp only
      refine (ilock_step inv counts dpIn).seq fun _ locked facts => ?_
      obtain ⟨lock, ready⟩ := facts
      simp only [ends_bind, ends_slot]
      refine (dirlink_step lock.inv lock.counts ready name
        (lock.inv.good.table.inum ip (lock.counts.live ipIn))).mono fun linked after link => ?_
      split
      · refine (iunlockput_step link.inv link.counts dpIn).seq fun _ last step => ?_
        rw [erase_cons_head] at step
        refine (iput_step step.inv step.counts here).seq fun _ final step => ?_
        exact step.inv
      · refine (iunlockput_step link.inv link.counts dpIn).seq fun _ last step => ?_
        rw [erase_cons_head] at step
        exact linkUndo_step step.inv step.counts

theorem createPut_step (narrow : type < 2 ^ 16) (inv : Inv sb st) (counts : Counts st base [])
    (rooted : Rooted st cwd path) {rest : Option Nat → K Bool} (missing : rest none = pure false)
    (found : ∀ ip, rest (some ip) = (iunlockput sb ip >>= fun _ => pure true)) :
    Ends (create sb cwd path type major minor >>= rest) st Safe fun _ after => Inv sb after := by
  refine (create_step narrow inv counts rooted).seq fun result after made => ?_
  cases result with
  | none =>
    rw [missing]
    exact made.inv
  | some ip =>
    rw [found]
    refine (iunlockput_step made.inv made.counts (mem_singleton_self ip)).seq fun _ last step => ?_
    exact step.inv

theorem sysMkdir_step (inv : Inv sb st) (counts : Counts st base []) (rooted : Rooted st cwd path) :
    Ends (sysMkdir sb cwd path) st Safe fun _ after => Inv sb after :=
  createPut_step (by decide) inv counts rooted rfl fun _ => rfl

theorem sysMknod_step (inv : Inv sb st) (counts : Counts st base []) (rooted : Rooted st cwd path) :
    Ends (sysMknod sb cwd path major minor) st Safe fun _ after => Inv sb after :=
  createPut_step (by decide) inv counts rooted rfl fun _ => rfl

theorem sysOpenCreate_step {trunc fileFree : Bool} (inv : Inv sb st) (counts : Counts st base [])
    (rooted : Rooted st cwd path) :
    Ends (sysOpenCreate sb cwd path trunc fileFree) st Safe fun _ after => Inv sb after := by
  rw [sysOpenCreate]
  refine (create_step (by decide) inv counts rooted).seq fun result after made => ?_
  cases result with
  | none => exact made.inv
  | some ip =>
    have here : ip ∈ [ip] := mem_singleton_self ip
    have counts : Counts after base [ip] := made.counts
    dsimp only
    simp only [ends_bind, ends_slot]
    split
    · refine (iunlockput_step made.inv counts here).seq fun _ last step => ?_
      exact step.inv
    split
    · refine (iunlockput_step made.inv counts here).seq fun _ last step => ?_
      exact step.inv
    split
    · refine (itrunc_step made.inv counts (made.ready ip rfl)).seq fun _ last step => ?_
      refine (iunlock_step step.inv step.counts here).seq fun _ final step => ?_
      exact step.inv
    · refine (iunlock_step made.inv counts here).seq fun _ final step => ?_
      exact step.inv

end Calls

end Xv6.Fs

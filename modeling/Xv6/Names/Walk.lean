import Xv6.Names.ForkActs

/-!
The references and locks of a call along the programs of `kernel/fs.c` and the calls on
names: what it takes it gives back, whichever way it ends.
-/

namespace Xv6.Names

open Lib Lib.Interleave List
open Function
open Fs (Name Dinode tDir tFile tDevice belowOne dot dotdot rootIno skipelem)

variable {cfg : Config} {pid ip dp i d : Nat} {g : Ghost} {held : List (Nat × Nat)} {locks : List Nat} {share : Share}

def At (held : List (Nat × Nat)) (locks : List Nat) (share : Share) : Ghost := ⟨held, fun jp => decide (jp ∈ locks), share⟩

theorem At.locked (jp : Nat) : (At held locks share).locks jp = decide (jp ∈ locks) := rfl

theorem At.free (out : ip ∉ locks) : (At held locks share).locks ip = false := by
  rw [At.locked]
  exact decide_eq_false out

theorem At.lock : (At held locks share).lock ip = At held (ip :: locks) share := by
  rw [Ghost.lock, At, At]
  congr 1
  funext jp
  obtain rfl | here := eq_or_ne jp ip
  · simp
  · simp [Function.update_of_ne here, here]

theorem At.unlock {rest : List Nat} (remain : ∀ jp, jp ∈ rest ↔ jp ∈ locks ∧ jp ≠ ip) :
    (At held locks share).unlock ip = At held rest share := by
  rw [Ghost.unlock, At, At]
  congr 1
  funext jp
  obtain rfl | here := eq_or_ne jp ip
  · simp [remain]
  · simp [Function.update_of_ne here, here, remain]

theorem erase_second {α : Type} [BEq α] [LawfulBEq α] (first second : α) (rest : List α) :
    (first :: second :: rest).erase second = first :: rest := by
  by_cases same : first = second
  · rw [same, erase_cons_head]
  · rw [erase_cons_tail (by simpa using same), erase_cons_head]

section Rules

variable {α : Type} {post : α → Ghost → Prop}

theorem quiet_then {action : Act} {rest : action.Reply → P α} (quiet : action.quiet = true)
    (continues : ∀ reply, Holds (logic cfg) pid (rest reply) g post) :
    Holds (logic cfg) pid (act action >>= rest) g post := by
  refine (does_quiet quiet).then fun reply after same => ?_
  subst same
  exact continues reply

theorem quiet_last {action : Act} (quiet : action.quiet = true) :
    Holds (logic cfg) pid (act action) g fun _ after => after = g := (does_quiet quiet).holds

theorem after_then {β : Type} {program : P β} {rest : β → P α} {g' : Ghost}
    (holds : Holds (logic cfg) pid program g fun _ after => after = g')
    (continues : ∀ value, Holds (logic cfg) pid (rest value) g' post) :
    Holds (logic cfg) pid (program >>= rest) g post := by
  refine holds.bind fun value after same => ?_
  subst same
  exact continues value

theorem panic_then {reason : Reason} {rest : Unit → P α} (other : reason ≠ .filedup ∧ reason ≠ .fileclose) :
    Holds (logic cfg) pid (act (.panic reason) >>= rest) g post := by
  have stops : Does (logic cfg) pid (.panic reason) g fun _ _ => False :=
    does_run (fun _ _ _ _ => trivial) fun _ _ _ _ _ _ _ => ⟨reason, rfl, other⟩
  exact stops.then fun _ _ never => never.elim

end Rules

theorem iunlock_holds (rest : List Nat) (remain : ∀ jp, jp ∈ rest ↔ jp ∈ locks ∧ jp ≠ ip) :
    Holds (logic cfg) pid (act (.iunlock ip)) (At held locks share) fun _ after => after = At held rest share := by
  refine iunlock_does.holds.mono fun _ after known => ?_
  rw [known, At.unlock remain]

theorem ilock_holds (refers : Refers held share ip) :
    Holds (logic cfg) pid (ilock ip) (At held locks share) fun _ after =>
      ip ∉ locks ∧ after = At held (ip :: locks) share := by
  refine (acquiresleep_does refers).then fun _ after known => ?_
  obtain ⟨free, rfl⟩ := known
  rw [At.lock]
  refine (quiet_last rfl).mono fun _ after same => ⟨?_, same⟩
  simpa [At] using free

theorem ilock_then {α : Type} {rest : Unit → P α} {post : α → Ghost → Prop} (continues : ip ∉ locks →
    Holds (logic cfg) pid (rest ()) (At ((ip, i) :: held) (ip :: locks) share) post) :
    Holds (logic cfg) pid (ilock ip >>= rest) (At ((ip, i) :: held) locks share) post := by
  refine (ilock_holds (.inl ⟨i, mem_cons_self⟩)).bind fun _ after known => ?_
  obtain ⟨free, rfl⟩ := known
  exact continues free

theorem iput_holds (member : (ip, i) ∈ held) (free : ip ∉ locks) :
    Holds (logic cfg) pid (iput ip) (At held locks share) fun _ after =>
      after = At (held.erase (ip, i)) locks share := by
  have unlocked : (At held locks share).locks ip = false := At.free free
  refine (lastRef_does member unlocked).then fun reply after known => ?_
  cases reply with
  | none => exact known
  | some inum =>
    simp only at known
    subst known
    refine quiet_then rfl fun _ => quiet_then rfl fun _ => quiet_then rfl fun _ => ?_
    refine iunlock_does.then fun _ after known => ?_
    rw [Ghost.unlock_lock unlocked] at known
    subst known
    refine (drop_does member unlocked).then fun _ after known => ?_
    subst known
    exact quiet_last rfl

theorem iput_twice {j : Nat} (member : (ip, i) ∈ held) (also : (ip, j) ∈ held.erase (ip, i)) :
    Holds (logic cfg) pid (iput ip) (At held locks share) fun _ after =>
      after = At (held.erase (ip, i)) locks share := by
  refine (lastRef_twice member also).then fun reply after known => ?_
  obtain ⟨rfl, rfl⟩ := known
  rfl

theorem iunlockput_holds (rest : List Nat) (member : (ip, i) ∈ held)
    (remain : ∀ jp, jp ∈ rest ↔ jp ∈ locks ∧ jp ≠ ip) :
    Holds (logic cfg) pid (iunlockput ip) (At held locks share) fun _ after =>
      after = At (held.erase (ip, i)) rest share := by
  refine after_then (iunlock_holds rest remain) fun _ => ?_
  exact iput_holds member fun inside => ((remain ip).mp inside).2 rfl

theorem iunlockput_first (rest : List Nat) (remain : ∀ jp, jp ∈ rest ↔ jp ∈ locks ∧ jp ≠ ip) :
    Holds (logic cfg) pid (iunlockput ip) (At ((ip, i) :: held) locks share) fun _ after =>
      after = At held rest share := by
  refine (iunlockput_holds rest mem_cons_self remain).mono fun _ after known => ?_
  rwa [erase_cons_head] at known

theorem iunlockput_only : Holds (logic cfg) pid (iunlockput ip) (At ((ip, i) :: held) [ip] share) fun _ after =>
    after = At held [] share := iunlockput_first [] (by simp)

theorem iunlockput_second {r : Nat × Nat} (rest : List Nat) (remain : ∀ jp, jp ∈ rest ↔ jp ∈ locks ∧ jp ≠ ip) :
    Holds (logic cfg) pid (iunlockput ip) (At (r :: (ip, i) :: held) locks share) fun _ after =>
      after = At (r :: held) rest share := by
  have member : (ip, i) ∈ r :: (ip, i) :: held := mem_cons_of_mem _ mem_cons_self
  refine (iunlockput_holds rest member remain).mono fun _ after known => ?_
  rwa [erase_second] at known

theorem iput_head (refs : ip ∈ locks → ∃ k, (ip, k) ∈ held) :
    Holds (logic cfg) pid (iput ip) (At ((ip, i) :: held) locks share) fun _ after => after = At held locks share := by
  have first : (ip, i) ∈ (ip, i) :: held := mem_cons_self
  have rest : ((ip, i) :: held).erase (ip, i) = held := erase_cons_head _ _
  by_cases inside : ip ∈ locks
  · obtain ⟨k, also⟩ := refs inside
    refine (iput_twice first (rest.symm ▸ also)).mono fun _ after known => ?_
    rwa [rest] at known
  · refine (iput_holds first inside).mono fun _ after known => ?_
    rwa [rest] at known

def Found (held : List (Nat × Nat)) (locks : List Nat) (share : Share) : Option Nat → Ghost → Prop
  | none, after => after = At held locks share
  | some ip, after => ∃ i, after = At ((ip, i) :: held) locks share

theorem iallocFrom_holds (ninodes type : Nat) : ∀ fuel inum,
    Holds (logic cfg) pid (iallocFrom ninodes type fuel inum) (At held locks share) (Found held locks share) := by
  intro fuel
  induction fuel with
  | zero => exact fun _ => rfl
  | succ fuel ih =>
    intro inum
    rw [iallocFrom]
    by_cases inside : inum < ninodes
    · rw [if_pos inside]
      refine quiet_then rfl fun marked => ?_
      cases marked with
      | true =>
        refine iget_does.then fun ip after known => ?_
        subst known
        exact ⟨inum, rfl⟩
      | false => exact ih (inum + 1)
    · rw [if_neg inside]
      rfl

theorem dirlookup_holds (dp : Nat) (name : Name) (insert : Bool) :
    Holds (logic cfg) pid (dirlookup dp name insert) (At held locks share) fun found =>
      Found held locks share (found.map Prod.fst) := by
  refine quiet_then rfl fun reply => ?_
  cases reply with
  | none => rfl
  | some entry =>
    refine iget_does.then fun ip after known => ?_
    subst known
    exact ⟨entry.1, rfl⟩

theorem writei_holds (dp index : Nat) (entry : Dirent) :
    Holds (logic cfg) pid (writei dp index entry) g fun _ after => after = g := by
  refine quiet_then rfl fun reply => ?_
  cases reply with
  | none => rfl
  | some done => exact quiet_then rfl fun _ => rfl

theorem dirlink_holds (dp : Nat) (name : Name) (inum : Nat) (refs : ∀ jp ∈ locks, ∃ k, (jp, k) ∈ held) :
    Holds (logic cfg) pid (dirlink dp name inum) (At held locks share) fun _ after => after = At held locks share := by
  refine (dirlookup_holds dp name true).bind fun found after known => ?_
  match found with
  | none =>
    subst known
    exact quiet_then rfl fun index => writei_holds dp index _
  | some (ip, index) =>
    obtain ⟨i, rfl⟩ := known
    -- the entry may name the directory itself, which is locked
    exact after_then (iput_head (refs ip)) fun _ => rfl

theorem namexFrom_holds (parent : Bool) : ∀ fuel ip i path name, path.length < fuel →
    Holds (logic cfg) pid (namexFrom parent fuel ip path name) (At ((ip, i) :: held) [] share) fun found =>
      Found held [] share (found.map Prod.fst) := by
  intro fuel
  induction fuel with
  | zero => exact fun _ _ _ _ short => absurd short (Nat.not_lt_zero _)
  | succ fuel ih =>
    intro ip i path name short
    rw [namexFrom]
    cases next : skipelem path with
    | none =>
      cases parent with
      | true => exact after_then (iput_head nofun) fun _ => rfl
      | false => exact ⟨i, rfl⟩
    | some element =>
      obtain ⟨name, rest⟩ := element
      have shorter := Fs.skipelem_shorter next
      refine ilock_then fun _ => ?_
      refine quiet_then rfl fun d => ?_
      have back : Holds (logic cfg) pid (iunlockput ip) (At ((ip, i) :: held) [ip] share) fun _ after =>
          after = At held [] share := iunlockput_only
      split
      · exact after_then back fun _ => rfl
      split
      · exact after_then back fun _ => rfl
      split
      · exact after_then (iunlock_holds [] (by simp)) fun _ => ⟨i, rfl⟩
      refine (dirlookup_holds ip name false).bind fun found after known => ?_
      match found with
      | none =>
        subst known
        exact after_then back fun _ => rfl
      | some (next, index) =>
        obtain ⟨j, rfl⟩ := known
        exact after_then (iunlockput_second [] (by simp)) fun _ => ih next j rest name (by omega)

theorem namex_holds (path : List UInt8) (parent : Bool) :
    Holds (logic cfg) pid (namex path parent) (At held [] share) fun found =>
      Found held [] share (found.map Prod.fst) := by
  rw [namex]
  by_cases absolute : path.head? = some Fs.slash
  · rw [if_pos absolute]
    refine iget_does.then fun ip after known => ?_
    subst known
    exact namexFrom_holds parent _ ip _ path [] (Nat.lt_succ_self _)
  rw [if_neg absolute]
  refine idupCwd_does.then fun ip after known => ?_
  obtain ⟨i, rfl⟩ := known
  exact namexFrom_holds parent _ ip i path [] (Nat.lt_succ_self _)

theorem namei_holds (path : List UInt8) :
    Holds (logic cfg) pid (namei path) (At held [] share) (Found held [] share) :=
  (namex_holds path false).bind fun _ _ known => known

theorem linkUndo_holds : Holds (logic cfg) pid (linkUndo ip) (At ((ip, i) :: held) [] share) fun _ after =>
    after = At held [] share := by
  refine ilock_then fun _ => ?_
  refine quiet_then rfl fun _ => quiet_then rfl fun _ => ?_
  exact after_then iunlockput_only fun _ => rfl

theorem sysLink_holds (old new : List UInt8) :
    Holds (logic cfg) pid (sysLink old new) (At [] [] share) fun _ after => after = At [] [] share := by
  refine quiet_then rfl fun _ => ?_
  refine (namei_holds old).bind fun found after known => ?_
  match found with
  | none => exact known
  | some ip =>
    obtain ⟨i, rfl⟩ := known
    refine ilock_then fun _ => ?_
    refine quiet_then rfl fun node => ?_
    split
    · exact after_then iunlockput_only fun _ => rfl
    refine quiet_then rfl fun _ => quiet_then rfl fun _ => ?_
    refine after_then (iunlock_holds [] (by simp)) fun _ => ?_
    refine (namex_holds new true).bind fun found after known => ?_
    match found with
    | none =>
      subst known
      exact linkUndo_holds
    | some (dp, name) =>
      obtain ⟨d, rfl⟩ := known
      refine ilock_then fun _ => ?_
      refine quiet_then rfl fun inum => ?_
      have refs : ∀ jp ∈ [dp], ∃ k, (jp, k) ∈ [(dp, d), (ip, i)] := by simp
      refine after_then (dirlink_holds dp name inum refs) fun linked => ?_
      cases linked with
      | true =>
        refine after_then iunlockput_only fun _ => ?_
        exact after_then (iput_head nofun) fun _ => rfl
      | false => exact after_then iunlockput_only fun _ => linkUndo_holds

section Two

variable (different : ip ≠ dp)
include different

theorem without_first (jp : Nat) : jp ∈ [dp] ↔ jp ∈ [ip, dp] ∧ jp ≠ ip := by
  simp only [mem_cons, not_mem_nil, or_false]
  constructor
  · rintro rfl
    exact ⟨.inr rfl, different.symm⟩
  · rintro ⟨rfl | rfl, other⟩
    · exact absurd rfl other
    · rfl

theorem without_second (jp : Nat) : jp ∈ [ip] ↔ jp ∈ [ip, dp] ∧ jp ≠ dp := by
  simp only [mem_cons, not_mem_nil, or_false]
  constructor
  · rintro rfl
    exact ⟨.inl rfl, different⟩
  · rintro ⟨rfl | rfl, other⟩
    · rfl
    · exact absurd rfl other

theorem unlinkEntry_holds (index : Nat) (node : Dinode) :
    Holds (logic cfg) pid (unlinkEntry dp ip index node) (At [(ip, i), (dp, d)] [ip, dp] share) fun _ after =>
      after = At [] [] share := by
  have put : Holds (logic cfg) pid (iunlockput dp) (At [(ip, i), (dp, d)] [ip, dp] share) fun _ after =>
      after = At [(ip, i)] [ip] share := iunlockput_second [ip] (without_second different)
  have rest : ∀ (_ : Unit), Holds (logic cfg) pid (do
      act (.change ip .dropLink)
      act (.iupdate ip)
      iunlockput ip
      return (0 : Int)) (At [(ip, i)] [ip] share) fun _ after => after = At [] [] share := fun _ =>
    quiet_then rfl fun _ => quiet_then rfl fun _ => after_then iunlockput_only fun _ => rfl
  refine after_then (writei_holds dp index _) fun cleared => ?_
  cases cleared with
  | true =>
    rw [if_pos rfl]
    split
    · refine quiet_then rfl fun _ => quiet_then rfl fun _ => ?_
      exact after_then put rest
    · exact after_then put rest
  | false => exact panic_then ⟨nofun, nofun⟩

theorem createUndo_holds : Holds (logic cfg) pid (createUndo dp ip) (At [(ip, i), (dp, d)] [ip, dp] share) fun made after =>
    made = none ∧ after = At [] [] share := by
  refine quiet_then rfl fun _ => quiet_then rfl fun _ => ?_
  refine after_then (iunlockput_first [dp] (without_first different)) fun _ => ?_
  exact after_then iunlockput_only fun _ => ⟨rfl, rfl⟩

end Two

def Made (share : Share) : Option Nat → Ghost → Prop
  | none, after => after = At [] [] share
  | some ip, after => ∃ i, after = At [(ip, i)] [ip] share

theorem refs_two : ∀ jp ∈ [ip, dp], ∃ k, (jp, k) ∈ [(ip, i), (dp, d)] := by
  intro jp member
  simp only [mem_cons, not_mem_nil, or_false] at member
  rcases member with rfl | rfl
  · exact ⟨i, mem_cons_self⟩
  · exact ⟨d, mem_cons_of_mem _ mem_cons_self⟩

theorem createLink_holds (different : ip ≠ dp) (name : Name) (type : Nat) :
    Holds (logic cfg) pid (createLink dp ip name type) (At [(ip, i), (dp, d)] [ip, dp] share) (Made share) := by
  have put : Holds (logic cfg) pid (iunlockput dp) (At [(ip, i), (dp, d)] [ip, dp] share) fun _ after =>
      after = At [(ip, i)] [ip] share := iunlockput_second [ip] (without_second different)
  refine quiet_then rfl fun inum => ?_
  refine after_then (dirlink_holds dp name inum refs_two) fun linked => ?_
  cases linked with
  | true =>
    rw [if_pos rfl]
    split
    · refine quiet_then rfl fun _ => quiet_then rfl fun _ => ?_
      exact after_then put fun _ => ⟨i, rfl⟩
    · exact after_then put fun _ => ⟨i, rfl⟩
  | false =>
    refine (createUndo_holds different).mono fun made after known => ?_
    obtain ⟨rfl, known⟩ := known
    exact known

theorem createNew_holds (ninodes dp d : Nat) (name : Name) (type major minor : Nat) :
    Holds (logic cfg) pid (createNew ninodes dp name type major minor) (At [(dp, d)] [dp] share) (Made share) := by
  refine (iallocFrom_holds ninodes type ninodes 1).bind fun found after known => ?_
  match found with
  | none =>
    subst known
    exact after_then iunlockput_only fun _ => rfl
  | some ip =>
    obtain ⟨i, rfl⟩ := known
    refine ilock_then fun apart => ?_
    have different : ip ≠ dp := by simpa using apart
    refine quiet_then rfl fun _ => quiet_then rfl fun _ => ?_
    split
    · have dots : Holds (logic cfg) pid (createDots dp ip) (At [(ip, i), (dp, d)] [ip, dp] share) fun _ after =>
          after = At [(ip, i), (dp, d)] [ip, dp] share := by
        refine quiet_then rfl fun self => ?_
        refine after_then (dirlink_holds ip dot self refs_two) fun linked => ?_
        cases linked with
        | true => exact quiet_then rfl fun above => dirlink_holds ip dotdot above refs_two
        | false => rfl
      refine after_then dots fun linked => ?_
      cases linked with
      | true => exact createLink_holds different name type
      | false =>
        refine (createUndo_holds different).mono fun made after known => ?_
        obtain ⟨rfl, known⟩ := known
        exact known
    · exact createLink_holds different name type

theorem create_holds (ninodes : Nat) (path : List UInt8) (type major minor : Nat) :
    Holds (logic cfg) pid (create ninodes path type major minor) (At [] [] share) (Made share) := by
  refine (namex_holds path true).bind fun found after known => ?_
  match found with
  | none => exact known
  | some (dp, name) =>
    obtain ⟨d, rfl⟩ := known
    refine ilock_then fun _ => ?_
    refine quiet_then rfl fun parent => ?_
    split
    · exact after_then iunlockput_only fun _ => rfl
    refine (dirlookup_holds dp name false).bind fun found after known => ?_
    match found with
    | none =>
      subst known
      exact createNew_holds ninodes dp d name type major minor
    | some (ip, index) =>
      obtain ⟨i, rfl⟩ := known
      refine after_then (iunlockput_second [] (by simp)) fun _ => ?_
      refine ilock_then fun _ => ?_
      refine quiet_then rfl fun node => ?_
      split
      · exact ⟨i, rfl⟩
      · exact after_then iunlockput_only fun _ => rfl

theorem sysMake_holds (ninodes : Nat) (path : List UInt8) (type major minor : Nat) :
    Holds (logic cfg) pid (sysMake ninodes path type major minor) (At [] [] share) fun _ after =>
      after = At [] [] share := by
  refine quiet_then rfl fun _ => ?_
  refine (create_holds ninodes path type major minor).bind fun made after known => ?_
  match made with
  | none => exact known
  | some ip =>
    obtain ⟨i, rfl⟩ := known
    exact after_then iunlockput_only fun _ => rfl

theorem sysExec_holds (path : List UInt8) :
    Holds (logic cfg) pid (sysExec path) (At [] [] share) fun _ after => after = At [] [] share := by
  refine quiet_then rfl fun _ => ?_
  refine (namei_holds path).bind fun found after known => ?_
  match found with
  | none => exact known
  | some ip =>
    obtain ⟨i, rfl⟩ := known
    refine ilock_then fun _ => ?_
    exact after_then iunlockput_only fun _ => rfl

theorem sysChdir_holds (path : List UInt8) (here : share.away = false) :
    Holds (logic cfg) pid (sysChdir path) (At [] [] share) fun _ after => after = At [] [] share := by
  refine quiet_then rfl fun _ => ?_
  refine (namei_holds path).bind fun found after known => ?_
  match found with
  | none => exact known
  | some ip =>
    obtain ⟨i, rfl⟩ := known
    refine ilock_then fun _ => ?_
    refine quiet_then rfl fun node => ?_
    split
    · exact after_then iunlockput_only fun _ => rfl
    refine after_then (iunlock_holds [] (by simp)) fun _ => ?_
    refine takeCwd_does.then fun cwd after known => ?_
    obtain ⟨c, rfl⟩ := known
    have put : Holds (logic cfg) pid (iput cwd) (At [(cwd, c), (ip, i)] [] { share with away := true }) fun _ after =>
        after = At [(ip, i)] [] { share with away := true } := iput_head nofun
    refine after_then put fun _ => ?_
    have member : (ip, i) ∈ (At [(ip, i)] [] { share with away := true }).held := mem_cons_self
    refine (setCwd_does member (At.free not_mem_nil) rfl).then fun _ after known => ?_
    subst known
    change At ([(ip, i)].erase (ip, i)) [] { share with away := false } = At [] [] share
    rw [erase_cons_head, ← here]

theorem sysUnlink_holds (path : List UInt8) :
    Holds (logic cfg) pid (sysUnlink path) (At [] [] share) fun _ after => after = At [] [] share := by
  refine quiet_then rfl fun _ => ?_
  refine (namex_holds path true).bind fun found after known => ?_
  match found with
  | none => exact known
  | some (dp, name) =>
    obtain ⟨d, rfl⟩ := known
    refine ilock_then fun _ => ?_
    split
    · exact after_then iunlockput_only fun _ => rfl
    refine (dirlookup_holds dp name false).bind fun found after known => ?_
    match found with
    | none =>
      subst known
      exact after_then iunlockput_only fun _ => rfl
    | some (ip, index) =>
      obtain ⟨i, rfl⟩ := known
      refine ilock_then fun apart => ?_
      have different : ip ≠ dp := by simpa using apart
      refine quiet_then rfl fun node => ?_
      split
      · exact panic_then ⟨nofun, nofun⟩
      split
      · refine quiet_then rfl fun empty => ?_
        cases empty with
        | true => exact unlinkEntry_holds different index node
        | false =>
          refine after_then (iunlockput_first [dp] (without_first different)) fun _ => ?_
          exact after_then iunlockput_only fun _ => rfl
      · exact unlinkEntry_holds different index node

end Xv6.Names

import Xv6.Threads.Safety

/-!
How often a thread function starts. The first switch to a thread loads `ra` with its
function and `ret` jumps there, so the function has its own address to return to.
-/

namespace Xv6.Threads

open Function
open Xv6.Lib ThreadPool

/-- The function a slot's thread was started in, the address it is to return to, and how
often it was entered and has returned since its `thread_create`. -/
structure Llamada where
  funcion : BitVec 64
  ra : BitVec 64
  entradas : Nat
  vueltas : Nat

structure Historia where
  world : World
  llamada : Slot → Option Llamada

def Historia.entra (h : Historia) (i : Slot) (machine : Machine) : Slot → Option Llamada :=
  match h.world.resume i with
  | some (.start funcion) =>
    let antes := (h.llamada i).getD ⟨funcion, 0, 0, 0⟩
    update h.llamada i (some ⟨funcion, machine.regs .ra, antes.entradas + 1, antes.vueltas⟩)
  | _ => h.llamada

def Historia.anota (pool : ThreadPool) (h : Historia) (next : World) : Label → Slot → Option Llamada
  | .compute .. => h.llamada
  | .threadCreate _ =>
    match pool.firstInState h.world.machine.mem .libre with
    | some slot => update h.llamada slot none
    | none => h.llamada
  | .threadSchedule _ =>
    match pool.pickThreads h.world.machine.mem with
    | some (i, _) => h.entra i next.machine
    | none => h.llamada

/-- A function that returns jumps to the `ra` it was entered with. -/
def Llamada.vuelve (c : Llamada) : Llamada :=
  { c with
    entradas := if c.ra = c.funcion then c.entradas + 1 else c.entradas
    vueltas := c.vueltas + 1 }

inductive Paso
  | lib (label : Label)
  | vuelve

def paso (pool : ThreadPool) (h : Historia) : Paso → Option Historia
  | .lib label => (step pool h.world label).map fun next => ⟨next, h.anota pool next label⟩
  | .vuelve =>
    (h.llamada h.world.owner).map fun c =>
      let machine := h.world.machine
      ⟨{ h.world with machine := ⟨update machine.regs .ra c.ra, machine.mem, c.ra⟩ },
        update h.llamada h.world.owner (some c.vuelve)⟩

/-- A thread that `thread_create` made ready and no switch has reached yet. -/
def Pending (pool : ThreadPool) (world : World) (slot : Slot) : Prop :=
  pool.estadoThread world.machine.mem slot = EstadoThread.listaParaCorrer.code ∧
    ∃ funcion, world.resume slot = some (.start funcion)

def Llamada.Counted (c : Llamada) : Prop := c.ra = c.funcion ∧ c.entradas = c.vueltas + 1

structure Counted (pool : ThreadPool) (h : Historia) : Prop where
  inv : Inv pool h.world
  fresh : ∀ slot, Pending pool h.world slot → h.llamada slot = none
  counts : ∀ slot c, h.llamada slot = some c → c.Counted

variable {pool : ThreadPool} {h next : Historia} {world : World} {regs : Registers} {slot i x : Slot}

theorem Counted.keep (counted : Counted pool h) (inv : Inv pool world)
    (pending : ∀ slot, Pending pool world slot → Pending pool h.world slot) : Counted pool ⟨world, h.llamada⟩ :=
  ⟨inv, fun slot waiting => counted.fresh slot (pending slot waiting), counted.counts⟩

theorem Counted.set (counted : Counted pool h) (inv : Inv pool world) {entry : Option Llamada}
    (here : Pending pool world slot → entry = none)
    (others : ∀ other ≠ slot, Pending pool world other → Pending pool h.world other)
    (counts : ∀ c, entry = some c → c.Counted) : Counted pool ⟨world, update h.llamada slot entry⟩ := by
  refine ⟨inv, fun other waiting => ?_, fun other c entered => ?_⟩
  all_goals obtain rfl | different := eq_or_ne other slot
  · exact (update_self ..).trans (here waiting)
  · exact (update_of_ne different _ _).trans (counted.fresh other (others other different waiting))
  · exact counts c (by simpa using entered)
  · exact counted.counts other c ((update_of_ne different _ _).symm.trans entered)

theorem pending_threadSchedule (slot : Slot) (picked : pool.pickThreads h.world.machine.mem = some (i, x))
    (stepped : step pool h.world (.threadSchedule regs) = some world) (waiting : Pending pool world slot) :
    slot ≠ i ∧ Pending pool h.world slot := by
  rw [step_threadSchedule picked] at stepped
  cases stepped
  obtain ⟨ready, funcion, starts⟩ := waiting
  have other : slot ≠ x := by
    rintro rfl
    simp at starts
  simp only [(handedOver_switchTo pool _ i x).estados slot, if_neg other] at ready
  split at ready
  · simp [EstadoThread.code] at ready
  · exact ⟨‹_›, ready, funcion, (update_of_ne other _ _).symm.trans starts⟩

theorem counted_entra (counted : Counted pool h) (picked : pool.pickThreads h.world.machine.mem = some (i, x))
    (stepped : step pool h.world (.threadSchedule regs) = some world) :
    Counted pool ⟨world, h.entra i world.machine⟩ := by
  have inv := inv_step counted.inv stepped
  have pending := fun slot => pending_threadSchedule slot picked stepped
  obtain ⟨_, resume, same, _, known, restored, _⟩ := @restored_of_inv regs _ _ _ _ counted.inv picked
  obtain rfl := Option.some.inj (stepped.symm.trans same)
  rw [Historia.entra, known]
  cases resume with
  | yielded => exact counted.keep inv fun slot waiting => (pending slot waiting).2
  | start funcion =>
    refine counted.set inv (fun waiting => absurd rfl (pending i waiting).1) (fun slot _ waiting => (pending slot waiting).2) ?_
    rintro _ ⟨⟩
    have fresh := counted.fresh i ⟨(pickThreads_some picked).1, funcion, known⟩
    exact ⟨restored.1, by simp [fresh]⟩

theorem counted_paso {label : Paso} (counted : Counted pool h) (stepped : paso pool h label = some next) :
    Counted pool next := by
  cases label with
  | vuelve =>
    obtain ⟨c, active, rfl⟩ := Option.map_eq_some_iff.mp stepped
    obtain ⟨back, count⟩ := counted.counts _ c active
    refine counted.set ?_ (fun waiting => ?_) (fun _ _ waiting => waiting) ?_
    · exact ⟨counted.inv.running, counted.inv.ready⟩
    · have ready := waiting.1
      rw [(counted.inv.running _).mpr rfl] at ready
      simp [EstadoThread.code] at ready
    · rintro _ ⟨⟩
      simp [Llamada.Counted, Llamada.vuelve, back, count]
  | lib label =>
    obtain ⟨world, moved, rfl⟩ := Option.map_eq_some_iff.mp stepped
    have inv := inv_step counted.inv moved
    cases label with
    | compute regs pc writes =>
      obtain ⟨allowed, moved⟩ := Option.ite_none_right_eq_some.mp moved
      cases moved
      refine counted.keep inv fun slot waiting => ⟨?_, waiting.2⟩
      exact (estadoThread_writeBytes (List.all_eq_true.mp allowed) _ slot).symm.trans waiting.1
    | threadCreate funcion =>
      simp only [step] at moved
      cases moved
      simp only [Historia.anota, threadCreate] at inv ⊢
      cases first : pool.firstInState h.world.machine.mem .libre with
      | none => exact counted
      | some free =>
        rw [first] at inv
        refine counted.set inv (fun _ => rfl) (fun slot other waiting => ?_) (by rintro _ ⟨⟩)
        simpa only [Pending, estadoThread_fillSlot, if_neg other, update_of_ne other] using waiting
    | threadSchedule regs =>
      rw [Historia.anota]
      cases picked : pool.pickThreads h.world.machine.mem with
      | none =>
        simp only [step, threadSchedule, picked] at moved
        cases moved
        exact counted.keep inv fun _ waiting => waiting
      | some pair => exact counted_entra counted picked moved

/-- In every run after `thread_init`, no function was entered twice for one `thread_create`
exactly when no thread function has returned. -/
theorem entered_once_iff {start : Historia} (initial : World.Initial pool start.world)
    (none : ∀ slot, start.llamada slot = none) (reached : Reaches (paso pool) (fun _ _ => True) start h) :
    (∀ slot c, h.llamada slot = some c → c.entradas ≤ 1) ↔ ∀ slot c, h.llamada slot = some c → c.vueltas = 0 := by
  have counted : Counted pool h := by
    refine reached.invariant (Counted pool) ⟨inv_initial initial, fun slot _ => none slot, ?_⟩ ?_
    · simp [none]
    · exact fun state label next holds _ stepped => counted_paso holds stepped
  refine forall₂_congr fun slot c => forall_congr' fun entered => ?_
  have count := (counted.counts slot c entered).2
  omega

def initialHistoria : Historia := ⟨initialWorld, fun _ => none⟩

/-- A thread is created for the function at `256` and dispatched, and the function returns. -/
def returning : List Paso := [.lib (.threadCreate 256), .lib (.threadSchedule fun _ => 7), .vuelve]

theorem function_starts_again :
    (runLabels (paso lowPool) initialHistoria returning).map
      (fun h => (h.world.owner, h.world.machine.pc, (h.llamada 1).map Llamada.entradas)) = some (1, 256, some 2) := by
  decide +kernel

theorem entered_once_iff_returning : ∃ h : Historia, (h.llamada 1).map Llamada.vueltas = some 1 ∧
    ((∀ slot c, h.llamada slot = some c → c.entradas ≤ 1) ↔ ∀ slot c, h.llamada slot = some c → c.vueltas = 0) := by
  obtain ⟨h, reached, seen⟩ := reaches_seen (show (runLabels (paso lowPool) initialHistoria returning).map
    (fun h => (h.llamada 1).map Llamada.vueltas) = some (some 1) by decide +kernel)
  have initial : World.Initial lowPool initialHistoria.world := ⟨⟨fun _ => 0, rfl, fun _ _ _ => rfl⟩, rfl⟩
  exact ⟨h, seen, entered_once_iff initial (fun _ => rfl) reached⟩

end Xv6.Threads

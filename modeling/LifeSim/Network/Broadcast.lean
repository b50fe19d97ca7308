import LifeSim.Network.Routing
import LifeSim.Lib.Machine

/-!
# The broadcast tree

A router forwards a broadcast packet away from the sender's row and column. It does so at the edges of the mesh too,
where the coordinate of the neighbour is reduced modulo the size: a router that has a row above or below it always
forwards.
-/

namespace LifeSim.Network

open LifeSim.Lib

/-- A hop of a broadcast; the final destination is `BROADCAST` or a core. -/
structure BroadcastHop where
  direction : OutputDirection
  finalDest : Option ℕ
  nextDest : ℕ
  deriving DecidableEq

namespace Mesh

/-- `routePacket` for a broadcast at a core, with the broadcast tree enabled. A core that is not a master sends to all
cores. -/
def routeBroadcast (m : Mesh) (sender core : ℕ) : List BroadcastHop :=
  if m.isFake core = true then (List.range m.applicationCores).map fun i => ⟨.destination, some i, i⟩
  else
  let s := m.computePosition sender
  let c := m.computePosition core
  (if s.2 ≤ c.2 then [⟨.up, none, m.computeCoreId c.1 (c.2 + 1)⟩] else []) ++
  (if c.2 ≤ s.2 then [⟨.down, none, m.computeCoreId c.1 (c.2 - 1)⟩] else []) ++
  if c.2 = s.2 then
    (if s.1 ≤ c.1 then [⟨.right, none, m.computeCoreId (c.1 + 1) c.2⟩] else []) ++
    (if c.1 ≤ s.1 then [⟨.left, none, m.computeCoreId (c.1 - 1) c.2⟩] else []) ++
    (if c.1 = s.1 then [⟨.self, some core, core⟩] else [])
  else []

/-- The packets on their way, and the cores that have been sent one. -/
structure Flight where
  inFlight : List BroadcastHop
  sent : List ℕ

/-- Put packets on their way. -/
def Flight.add (f : Flight) (hops : List BroadcastHop) : Flight :=
  ⟨f.inFlight ++ hops, f.sent ++ hops.map BroadcastHop.nextDest⟩

/-- What the core that is reached forwards: `netPullFromTransport` routes a packet whose receiver is not the core
itself. -/
def forwarded (m : Mesh) (sender : ℕ) (hop : BroadcastHop) : List BroadcastHop :=
  match hop.finalDest with
  | none => m.routeBroadcast sender hop.nextDest
  | some _ => []

/-- There is no such packet. -/
inductive FlightFault
  | noPacket

/-- The packets arrive in any order. -/
def broadcastMachine (m : Mesh) (sender : ℕ) : Machine Flight ℕ FlightFault where
  step f i :=
    match f.inFlight[i]? with
    | some hop => .ok (Flight.add { f with inFlight := f.inFlight.eraseIdx i } (m.forwarded sender hop))
    | none => .error .noPacket

/-- The sender has routed its packet. -/
def broadcastStart (m : Mesh) (sender : ℕ) : Flight := Flight.add ⟨[], []⟩ (m.routeBroadcast sender sender)

/-- For some order of the arrivals, forwarding ends, and every core has been sent the packet once. -/
def BroadcastDelivers (m : Mesh) (sender : ℕ) : Prop :=
  ∃ order f, (m.broadcastMachine sender).run (m.broadcastStart sender) order = .ok f ∧ f.inFlight = [] ∧
    ∀ core < m.applicationCores, f.sent.count core = 1

/-! ### Forwarding -/

variable {m : Mesh} {sender core : ℕ}

/-- A router forwards up or down, to a router. -/
theorem routeBroadcast_forwards (sender : ℕ) (hcore : m.isFake core = false) :
    ∃ hop ∈ m.routeBroadcast sender core, hop.finalDest = none ∧ m.isFake hop.nextDest = false := by
  have hx := computePosition_fst_lt m core
  rw [routeBroadcast, hcore, if_neg Bool.false_ne_true]
  dsimp only
  rcases Nat.le_total (m.computePosition sender).2 (m.computePosition core).2 with hup | hdown
  · refine ⟨⟨.up, none, m.computeCoreId (m.computePosition core).1 ((m.computePosition core).2 + 1)⟩, ?_, rfl, ?_⟩
    · rw [if_pos hup]
      exact List.mem_append_left _ (List.mem_append_left _ (List.mem_singleton_self _))
    · rw [computeCoreId_up hx]
      exact master_isFake hx (RingWalk.above_lt m.height_pos)
  · refine ⟨⟨.down, none, m.computeCoreId (m.computePosition core).1 ((m.computePosition core).2 - 1)⟩, ?_, rfl, ?_⟩
    · rw [if_pos hdown]
      exact List.mem_append_left _ (List.mem_append_right _ (List.mem_singleton_self _))
    · rw [computeCoreId_down hx]
      exact master_isFake hx (RingWalk.below_lt m.height_pos)

/-- A broadcast packet is on its way to a router. -/
def Flight.Broadcasting (m : Mesh) (f : Flight) : Prop :=
  ∃ hop ∈ f.inFlight, hop.finalDest = none ∧ m.isFake hop.nextDest = false

theorem broadcasting_start (hsender : m.isFake sender = false) : (m.broadcastStart sender).Broadcasting m := by
  obtain ⟨hop, hhop, hall⟩ := routeBroadcast_forwards sender hsender
  exact ⟨hop, hhop, hall⟩

/-- A packet that arrives leaves another one on its way. -/
theorem Flight.Broadcasting.step {f f' : Flight} {i : ℕ} (h : f.Broadcasting m)
    (hstep : (m.broadcastMachine sender).step f i = .ok f') : f'.Broadcasting m := by
  rw [broadcastMachine] at hstep
  dsimp only at hstep
  cases hget : f.inFlight[i]? with
  | none =>
    rw [hget] at hstep
    cases hstep
  | some arriving =>
    rw [hget] at hstep
    cases hstep
    obtain ⟨hop, hhop, hnone, hinside⟩ := h
    by_cases harrives : arriving = hop
    · rw [harrives, forwarded, hnone]
      obtain ⟨next, hnext, hall⟩ := routeBroadcast_forwards sender hinside
      exact ⟨next, List.mem_append_right _ hnext, hall⟩
    · refine ⟨hop, List.mem_append_left _ ?_, hnone, hinside⟩
      obtain ⟨j, hj⟩ := List.mem_iff_getElem?.1 hhop
      apply List.mem_eraseIdx_iff_getElem?.2
      refine ⟨j, ?_, hj⟩
      rintro rfl
      rw [hget] at hj
      exact harrives (Option.some.inj hj)

/-- Forwarding never ends, from no core of any mesh. -/
theorem broadcast_never_delivers (m : Mesh) (hconcentration : m.concentration = 1) (sender : Fin m.applicationCores) :
    ¬ m.BroadcastDelivers sender := by
  rintro ⟨order, f, hrun, hnone, -⟩
  have hsender : m.isFake sender = false :=
    isFake_eq_false.2 ⟨by rw [hconcentration, Nat.mod_one], sender.isLt⟩
  obtain ⟨hop, hhop, -⟩ := (m.broadcastMachine sender).run_induction (P := Flight.Broadcasting m)
    (fun _ _ _ h hstep => h.step hstep) (broadcasting_start hsender) hrun
  rw [hnone] at hhop
  cases hhop

/-- Two rows of two cores. -/
def fourCores : Mesh where
  width := 2
  height := 2
  concentration := 1
  wrapAround := false
  width_pos := Nat.two_pos
  height_pos := Nat.two_pos
  concentration_pos := Nat.one_pos

theorem fourCores_first : 0 < fourCores.applicationCores := Nat.succ_pos 3

theorem broadcast_never_delivers_fourCores : ¬ fourCores.BroadcastDelivers 0 :=
  broadcast_never_delivers fourCores rfl ⟨0, fourCores_first⟩

/-- In a single row every router is above itself. -/
theorem broadcast_threeRing : ¬ threeRing.BroadcastDelivers 0 := by
  rintro ⟨order, f, hrun, hnone, -⟩
  obtain ⟨hop, hhop, -⟩ := (threeRing.broadcastMachine 0).run_induction (P := Flight.Broadcasting threeRing)
    (fun _ _ _ h hstep => h.step hstep) (broadcasting_start (by decide)) hrun
  rw [hnone] at hhop
  cases hhop

end Mesh

end LifeSim.Network

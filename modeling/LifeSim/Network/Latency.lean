import LifeSim.Network.Routing

/-!
# Packet latencies

Every router that forwards a packet over a link adds its hop latency and the delay of the link's queue; the sender's
router adds the delay of its injection port. The receiver subtracts what the distance accounts for. Cores that are not
masters send directly to the receiver.
-/

namespace LifeSim.Network

/-- `NetPacket`, with the sum of its injection and link queue delays. -/
structure Packet where
  sender : ℕ
  receiver : ℕ
  requester : ℕ
  startTime : ℕ
  time : ℕ
  queueDelay : ℕ

/-- A packet that passes a queue. -/
def Packet.delay (p : Packet) (delay : ℕ) : Packet :=
  { p with time := p.time + delay, queueDelay := p.queueDelay + delay }

/-- What the queue models answer, for a packet that reaches them at a time. -/
structure Queues where
  injectionPort : ℕ → ℕ → ℕ
  link : ℕ → OutputDirection → ℕ → ℕ

/-- The network models of the cores. -/
structure MeshNetwork where
  mesh : Mesh
  enabled : Bool
  queueModelEnabled : Bool
  /-- `m_hop_latency.getLatency()`, in the clock domain of each core. -/
  hopLatency : ℕ → ℕ

namespace MeshNetwork

variable (n : MeshNetwork) (q : Queues)

/-- `computeInjectionPortQueueDelay`. -/
def computeInjectionPortQueueDelay (core receiver time : ℕ) : ℕ :=
  if n.queueModelEnabled = false then 0
  else if receiver = core then 0
  else q.injectionPort core time

/-- The delay of the queue of a link. -/
def linkQueueDelay (core : ℕ) (direction : OutputDirection) (time : ℕ) : ℕ :=
  if n.queueModelEnabled = true then q.link core direction time else 0

/-- `addHop` with `computeLatency`: a link costs time while the model is enabled. -/
def addHop (core : ℕ) (direction : OutputDirection) (p : Packet) : Packet :=
  if direction.isLink = false then p
  else if n.enabled = false ∨ n.mesh.applicationCores ≤ p.requester then p
  else
    let delayed := Packet.delay p (n.linkQueueDelay q core direction p.time)
    { delayed with time := delayed.time + n.hopLatency core }

/-- `routePacket` for a unicast packet: the next core, and the packet on its way there. -/
def routePacket (core : ℕ) (p : Packet) : ℕ × Packet :=
  if n.mesh.isFake core = true then (p.receiver, n.addHop q core .destination p)
  else
    let injected :=
      if p.sender = core then Packet.delay p (n.computeInjectionPortQueueDelay q core p.receiver p.time) else p
    let next := n.mesh.getNextDest core p.receiver
    (next.2, n.addHop q core next.1 injected)

/-- The loop of `netSend`. -/
def netSend : ℕ → ℕ → Packet → Option Packet
  | 0, _, _ => none
  | fuel + 1, core, p =>
    let hop := n.routePacket q core p
    if hop.1 = p.receiver then some hop.2 else netSend fuel hop.1 hop.2

/-- A packet that is sent at a time. -/
def newPacket (sender receiver requester time : ℕ) : Packet where
  sender := sender
  receiver := receiver
  requester := requester
  startTime := time
  time := time
  queueDelay := 0

/-- `packet_latency` in `processReceivedPacket`. -/
def packetLatency (p : Packet) : ℕ := p.time - p.startTime

/-- `contention_delay`, before the ejection port. The unsigned difference wraps around where this one is negative. -/
def contentionDelay (p : Packet) : ℤ :=
  (p.time : ℤ) - p.startTime - n.mesh.computeDistance p.sender p.receiver * n.hopLatency p.receiver

/-- A packet arrives, its latency covers the distance, and on a shortest route the rest is what it has waited. -/
def Accounted (sender receiver requester time : ℕ) : Prop :=
  ∃ p, (∀ fuel, n.mesh.width + n.mesh.height < fuel →
      n.netSend q fuel sender (newPacket sender receiver requester time) = some p) ∧
    n.mesh.computeDistance sender receiver * n.hopLatency receiver ≤ packetLatency p ∧ 0 ≤ n.contentionDelay p ∧
    (n.mesh.RoutesShortest sender receiver → n.contentionDelay p = p.queueDelay)

/-- The hop latencies of the routers that forward a packet over a link. -/
def routeLatency (finalDest : ℕ) : ℕ → ℕ → ℕ
  | 0, _ => 0
  | fuel + 1, core =>
    let next := n.mesh.getNextDest core finalDest
    (if next.1.isLink = true then n.hopLatency core else 0) + if next.2 = finalDest then 0 else routeLatency finalDest fuel next.2

/-- The two cores share a router; or the sender is no master and hops cost nothing; or it is one, and the routers on the
way cost at least what the receiver reckons for the distance, and exactly that on a shortest route. -/
def CostsDistance (sender receiver : ℕ) : Prop :=
  sender / n.mesh.concentration = receiver / n.mesh.concentration ∨
  if n.mesh.isFake sender = true then n.hopLatency receiver = 0
  else
    let cost := n.routeLatency receiver (n.mesh.width + n.mesh.height + 1) sender
    n.mesh.computeDistance sender receiver * n.hopLatency receiver ≤ cost ∧
      (n.mesh.OffHalf sender receiver → cost = n.mesh.computeDistance sender receiver * n.hopLatency receiver)

/-! ### The way of a packet -/

variable {n q} {core : ℕ} {p : Packet}

/-- What a packet keeps on its way. -/
structure SamePacket (p p' : Packet) : Prop where
  sender : p'.sender = p.sender
  receiver : p'.receiver = p.receiver
  requester : p'.requester = p.requester
  startTime : p'.startTime = p.startTime

theorem SamePacket.refl (p : Packet) : SamePacket p p := ⟨rfl, rfl, rfl, rfl⟩

theorem SamePacket.trans {a b c : Packet} (h : SamePacket a b) (h' : SamePacket b c) : SamePacket a c :=
  ⟨h'.sender.trans h.sender, h'.receiver.trans h.receiver, h'.requester.trans h.requester,
    h'.startTime.trans h.startTime⟩

/-- A packet has taken a time, apart from what it has waited; without delays it has not waited. -/
structure Took (q : Queues) (p p' : Packet) (cost : ℕ) : Prop where
  same : SamePacket p p'
  time : p'.time + p.queueDelay = p.time + cost + p'.queueDelay
  empty : (∀ core time, q.injectionPort core time = 0) → (∀ core direction time, q.link core direction time = 0) →
    p'.queueDelay = p.queueDelay

theorem Took.refl (q : Queues) (p : Packet) : Took q p p 0 := ⟨.refl p, rfl, fun _ _ => rfl⟩

theorem Took.trans {a b c : Packet} {s t : ℕ} (h : Took q a b s) (h' : Took q b c t) : Took q a c (s + t) where
  same := h.same.trans h'.same
  time := by
    have htime := h.time
    have htime' := h'.time
    omega
  empty hinjection hlink := (h'.empty hinjection hlink).trans (h.empty hinjection hlink)

/-- The injection port. -/
theorem Took.injected (n : MeshNetwork) (q : Queues) (core : ℕ) (p : Packet) :
    Took q p (if p.sender = core then Packet.delay p (n.computeInjectionPortQueueDelay q core p.receiver p.time) else p) 0 := by
  split_ifs
  · refine ⟨⟨rfl, rfl, rfl, rfl⟩, ?_, fun hinjection _ => ?_⟩
    · simp only [Packet.delay]
      omega
    · rw [Packet.delay, computeInjectionPortQueueDelay, hinjection]
      simp
  · exact .refl q p

/-- A hop. -/
theorem Took.addHop (henabled : n.enabled = true) (hrequester : p.requester < n.mesh.applicationCores)
    (core : ℕ) (direction : OutputDirection) :
    Took q p (n.addHop q core direction p) (if direction.isLink = true then n.hopLatency core else 0) := by
  rw [MeshNetwork.addHop]
  cases direction.isLink with
  | false => exact .refl q p
  | true =>
    have hcosts : ¬ (n.enabled = false ∨ n.mesh.applicationCores ≤ p.requester) := by
      rw [henabled]
      rintro (hfalse | hle)
      · cases hfalse
      · omega
    rw [if_neg Bool.true_eq_false_eq_False, if_neg hcosts, if_pos rfl]
    refine ⟨⟨rfl, rfl, rfl, rfl⟩, ?_, fun _ hlink => ?_⟩
    · simp only [Packet.delay]
      omega
    · rw [Packet.delay, linkQueueDelay, hlink]
      simp

/-- What the receiver computes for a new packet. -/
theorem Took.accounts {sender receiver requester time cost : ℕ} (h : Took q
    (newPacket sender receiver requester time) p cost) :
    packetLatency p = cost + p.queueDelay ∧
      n.contentionDelay p = cost + p.queueDelay - n.mesh.computeDistance sender receiver * n.hopLatency receiver := by
  have htime := h.time
  have hstart := h.same.startTime
  have hsender := h.same.sender
  have hreceiver := h.same.receiver
  simp only [newPacket, Nat.add_zero] at htime hstart hsender hreceiver
  rw [packetLatency, contentionDelay, hstart, hsender, hreceiver, htime]
  constructor
  · omega
  · push_cast
    ring

/-- Queues without delays. -/
def emptyQueues : Queues := ⟨fun _ _ => 0, fun _ _ _ => 0⟩

/-- A packet at a master: one call of `routePacket`. -/
theorem Took.routePacket (henabled : n.enabled = true) (hrequester : p.requester < n.mesh.applicationCores)
    (hcore : n.mesh.isFake core = false) :
    (n.routePacket q core p).1 = (n.mesh.getNextDest core p.receiver).2 ∧
      Took q p (n.routePacket q core p).2
        (if (n.mesh.getNextDest core p.receiver).1.isLink = true then n.hopLatency core else 0) := by
  have hinjected := Took.injected n q core p
  have hadd := Took.addHop (q := q) henabled (hinjected.same.requester.symm ▸ hrequester) core
    (n.mesh.getNextDest core p.receiver).1
  rw [MeshNetwork.routePacket, hcore, if_neg Bool.false_ne_true]
  refine ⟨rfl, ?_⟩
  have htook := hinjected.trans hadd
  rwa [Nat.zero_add] at htook

/-- From a master a packet takes the hop latencies of its route. -/
theorem netSend_took (henabled : n.enabled = true) (hrequester : p.requester < n.mesh.applicationCores)
    (hcore : n.mesh.isFake core = false) (hdest : p.receiver < n.mesh.applicationCores) :
    ∃ p' cost, Took q p p' cost ∧ ∀ fuel, n.mesh.linksLeft core p.receiver < fuel →
      n.netSend q fuel core p = some p' ∧ n.routeLatency p.receiver fuel core = cost := by
  generalize hleft : n.mesh.linksLeft core p.receiver = left
  induction left using Nat.strong_induction_on generalizing core p with
  | _ left ih =>
    obtain ⟨hnext, htook⟩ := Took.routePacket (q := q) henabled hrequester hcore
    by_cases harrived : (n.mesh.getNextDest core p.receiver).2 = p.receiver
    · refine ⟨_, _, htook, fun fuel hfuel => ?_⟩
      obtain ⟨fuel, rfl⟩ := Nat.exists_eq_add_one.2 (Nat.zero_lt_of_lt hfuel)
      constructor
      · rw [netSend, hnext]
        exact if_pos harrived
      · rw [routeLatency, if_pos harrived, Nat.add_zero]
    · have hother : core / n.mesh.concentration ≠ p.receiver / n.mesh.concentration := by
        intro hsame
        rw [Mesh.getNextDest_sameRouter hsame] at harrived
        exact harrived rfl
      obtain ⟨hmaster, -, hless⟩ := Mesh.getNextDest_linkHop hcore hdest hother
      have hreceiver := htook.same.receiver
      have hrequester' := htook.same.requester.symm ▸ hrequester
      have hdest' := hreceiver.symm ▸ hdest
      have hless' : n.mesh.linksLeft (n.mesh.getNextDest core p.receiver).2
        (n.routePacket q core p).2.receiver < left := by
        rw [hreceiver]
        omega
      obtain ⟨p', cost, htook', hsend⟩ := ih _ hless' hrequester' hmaster hdest' rfl
      rw [hreceiver] at hsend
      refine ⟨p', _, htook.trans htook', fun fuel hfuel => ?_⟩
      obtain ⟨fuel, rfl⟩ := Nat.exists_eq_add_one.2 (Nat.zero_lt_of_lt hfuel)
      obtain ⟨hrest, hcost⟩ := hsend fuel (by omega)
      constructor
      · rw [netSend, hnext, if_neg harrived]
        exact hrest
      · rw [routeLatency, if_neg harrived, hcost]

/-- A packet of a core that is not a master takes no time. -/
theorem netSend_fake (hfake : n.mesh.isFake core = true) {fuel : ℕ} : n.netSend q (fuel + 1) core p = some p := by
  rw [netSend, MeshNetwork.routePacket, if_pos hfake]
  exact if_pos rfl

/-- A packet from a master. -/
theorem accounted_master_iff {sender receiver requester : ℕ} (henabled : n.enabled = true)
    (hmaster : n.mesh.isFake sender = false) (hreceiver : receiver < n.mesh.applicationCores)
    (hrequester : requester < n.mesh.applicationCores) :
    (∀ q time, n.Accounted q sender receiver requester time) ↔
      n.mesh.computeDistance sender receiver * n.hopLatency receiver ≤
          n.routeLatency receiver (n.mesh.width + n.mesh.height + 1) sender ∧
        (n.mesh.OffHalf sender receiver → n.routeLatency receiver (n.mesh.width + n.mesh.height + 1) sender =
          n.mesh.computeDistance sender receiver * n.hopLatency receiver) := by
  have hsender := (Mesh.isFake_eq_false.1 hmaster).2
  have hbound := Mesh.linksLeft_le n.mesh sender receiver hsender hreceiver
  have hshort := Mesh.routesShortest_iff hsender hreceiver
  generalize hcost : n.routeLatency receiver (n.mesh.width + n.mesh.height + 1) sender = cost
  have hall : ∀ q time, ∃ p, Took q (newPacket sender receiver requester time) p cost ∧
      ∀ fuel, n.mesh.width + n.mesh.height < fuel →
        n.netSend q fuel sender (newPacket sender receiver requester time) = some p := by
    intro q time
    obtain ⟨p, cost', htook, hsend⟩ :=
      netSend_took (q := q) (p := newPacket sender receiver requester time) henabled hrequester hmaster hreceiver
    have hsame := (hsend (n.mesh.width + n.mesh.height + 1) (by exact Nat.lt_succ_of_le hbound)).2
    rw [← hcost, show receiver = (newPacket sender receiver requester time).receiver from rfl, hsame]
    exact ⟨p, htook, fun fuel hfuel => (hsend fuel (hbound.trans_lt hfuel)).1⟩
  constructor
  · intro h
    obtain ⟨p, htook, hsend⟩ := hall emptyQueues 0
    obtain ⟨p', hsend', hcovers, -, hexact⟩ := h emptyQueues 0
    have hsame := (hsend _ (Nat.lt_succ_self _)).symm.trans (hsend' _ (Nat.lt_succ_self _))
    cases hsame
    obtain ⟨hlatency, hcontention⟩ := htook.accounts
    have hwaited : p.queueDelay = 0 := htook.empty (fun _ _ => rfl) fun _ _ _ => rfl
    rw [hlatency, hwaited, Nat.add_zero] at hcovers
    refine ⟨hcovers, fun hoff => ?_⟩
    have hzero := hexact (hshort.2 hoff)
    rw [hcontention, hwaited] at hzero
    push_cast at hzero
    have hcast : (cost : ℤ) = (n.mesh.computeDistance sender receiver * n.hopLatency receiver : ℕ) := by
      push_cast
      omega
    exact_mod_cast hcast
  · rintro ⟨hcovers, hexact⟩ q time
    obtain ⟨p, htook, hsend⟩ := hall q time
    obtain ⟨hlatency, hcontention⟩ := htook.accounts
    have hcast : (n.mesh.computeDistance sender receiver : ℤ) * n.hopLatency receiver ≤ cost := by exact_mod_cast hcovers
    refine ⟨p, hsend, hlatency ▸ hcovers.trans (Nat.le_add_right ..), ?_, fun hroutes => ?_⟩
    · rw [hcontention]
      omega
    · rw [hcontention, hexact (hshort.1 hroutes)]
      push_cast
      omega

/-- On the receiver's router no link is taken. -/
theorem routeLatency_sameRouter {core finalDest fuel : ℕ} (hsame : core / n.mesh.concentration = finalDest / n.mesh.concentration) :
    n.routeLatency finalDest (fuel + 1) core = 0 := by
  rw [routeLatency, Mesh.getNextDest_sameRouter hsame]
  simp [OutputDirection.isLink]

/-- A packet from a core that is not a master. -/
theorem accounted_fake_iff {sender receiver requester : ℕ} (hfake : n.mesh.isFake sender = true)
    (hsender : sender < n.mesh.applicationCores) (hreceiver : receiver < n.mesh.applicationCores) :
    (∀ q time, n.Accounted q sender receiver requester time) ↔
      sender / n.mesh.concentration = receiver / n.mesh.concentration ∨ n.hopLatency receiver = 0 := by
  rw [← Mesh.computeDistance_eq_zero_iff hsender hreceiver, ← Nat.mul_eq_zero]
  constructor
  · intro h
    obtain ⟨p, hsend, hcovers, -⟩ := h emptyQueues 0
    have hsame := hsend _ (Nat.lt_succ_self _)
    rw [netSend_fake hfake] at hsame
    cases hsame
    exact Nat.le_zero.1 hcovers
  · intro hzero q time
    obtain ⟨hlatency, hcontention⟩ := (Took.refl q (newPacket sender receiver requester time)).accounts (n := n)
    have hcontention' : n.contentionDelay (newPacket sender receiver requester time) = 0 := by
      rw [hcontention, ← Nat.cast_mul, hzero]
      rfl
    refine ⟨newPacket sender receiver requester time, fun fuel hfuel => ?_, ?_, ?_, fun _ => hcontention'⟩
    · obtain ⟨fuel, rfl⟩ := Nat.exists_eq_add_one.2 (Nat.zero_lt_of_lt hfuel)
      exact netSend_fake hfake
    · rw [hzero]
      exact Nat.zero_le _
    · exact hcontention'.ge

/-- The latency of every packet between two cores is accounted for exactly if the routers on its way cost the distance. -/
theorem accounted_iff (n : MeshNetwork) (henabled : n.enabled = true) (sender receiver requester : Fin n.mesh.applicationCores) :
    (∀ q time, n.Accounted q sender receiver requester time) ↔ n.CostsDistance sender receiver := by
  rw [CostsDistance]
  cases hfake : n.mesh.isFake sender with
  | true =>
    rw [if_pos rfl]
    exact accounted_fake_iff hfake sender.isLt receiver.isLt
  | false =>
    rw [if_neg Bool.false_ne_true, accounted_master_iff henabled hfake receiver.isLt requester.isLt]
    refine (or_iff_right_of_imp fun hsame => ?_).symm
    have hnone := (Mesh.computeDistance_eq_zero_iff sender.isLt receiver.isLt).2 hsame
    rw [hnone, routeLatency_sameRouter hsame, Nat.zero_mul]
    exact ⟨Nat.le_refl 0, fun _ => rfl⟩

/-! ### Equal hop latencies -/

/-- Routers with the same hop latency cost one hop latency for each link. -/
theorem routeLatency_const {latency core finalDest : ℕ} (hconst : ∀ core, n.hopLatency core = latency)
    (hcore : n.mesh.isFake core = false) (hdest : finalDest < n.mesh.applicationCores) {fuel : ℕ}
    (hfuel : n.mesh.linksLeft core finalDest < fuel) :
    n.routeLatency finalDest fuel core = n.mesh.linksLeft core finalDest * latency := by
  induction fuel generalizing core with
  | zero => exact absurd hfuel (Nat.not_lt_zero _)
  | succ fuel ih =>
    by_cases hsame : core / n.mesh.concentration = finalDest / n.mesh.concentration
    · rw [routeLatency_sameRouter hsame, (Mesh.linksLeft_eq_zero_iff (Mesh.isFake_eq_false.1 hcore).2 hdest).2 hsame,
        Nat.zero_mul]
    · obtain ⟨hmaster, hadjacent, hless⟩ := Mesh.getNextDest_linkHop hcore hdest hsame
      rw [routeLatency, if_pos hadjacent.isLink, hconst, ← hless, Nat.add_mul, Nat.one_mul, Nat.add_comm]
      congr 1
      by_cases harrived : (n.mesh.getNextDest core finalDest).2 = finalDest
      · rw [if_pos harrived, harrived, (Mesh.linksLeft_eq_zero_iff hdest hdest).2 rfl, Nat.zero_mul]
      · rw [if_neg harrived]
        exact ih hmaster (by omega)

/-- With one hop latency for all cores, the latencies of all packets between routers are accounted for exactly if the
sender is a master, or a hop takes no time. -/
theorem costsDistance_const_iff {latency sender receiver : ℕ} (hconst : ∀ core, n.hopLatency core = latency)
    (hsender : sender < n.mesh.applicationCores) (hreceiver : receiver < n.mesh.applicationCores) :
    n.CostsDistance sender receiver ↔
      sender / n.mesh.concentration = receiver / n.mesh.concentration ∨ n.mesh.isFake sender = false ∨ latency = 0 := by
  rw [CostsDistance]
  refine or_congr_right' fun _ => ?_
  cases hfake : n.mesh.isFake sender with
  | true =>
    rw [if_pos rfl, hconst]
    simp
  | false =>
    have hbound := Mesh.linksLeft_le n.mesh sender receiver hsender hreceiver
    have hdistance := Mesh.linksLeft_eq_distance_iff hsender hreceiver
    rw [if_neg Bool.false_ne_true, routeLatency_const hconst hfake hreceiver (Nat.lt_succ_of_le hbound), hconst]
    have hle := Mesh.computeDistance_le_linksLeft n.mesh sender receiver
    refine iff_of_true ⟨Nat.mul_le_mul_right _ hle, fun hoff => ?_⟩ (.inl rfl)
    rw [hdistance.2 hoff]

/-- Two routers with two cores each, and hops of 1000 femtoseconds. -/
def twoRouters : MeshNetwork where
  mesh :=
    { width := 2
      height := 1
      concentration := 2
      wrapAround := false
      width_pos := Nat.two_pos
      height_pos := Nat.one_pos
      concentration_pos := Nat.two_pos }
  enabled := true
  queueModelEnabled := true
  hopLatency := fun _ => 1000

theorem twoRouters_inside (core : ℕ) (hcore : core < 4) : core < twoRouters.mesh.applicationCores := hcore

theorem accounted_twoRouters :
    (∀ q time, twoRouters.Accounted q 0 2 0 time) ↔ twoRouters.CostsDistance 0 2 :=
  accounted_iff twoRouters rfl ⟨0, twoRouters_inside 0 (by decide)⟩ ⟨2, twoRouters_inside 2 (by decide)⟩
    ⟨0, twoRouters_inside 0 (by decide)⟩

/-- A packet from core 1 to core 2 arrives at once, and the receiver subtracts one hop. -/
theorem accounted_secondCore : ¬ ∀ q time, twoRouters.Accounted q 1 2 1 time := by
  intro h
  obtain ⟨p, hsend, hcovers, -⟩ := h emptyQueues 0
  have hsame := hsend 4 (by decide)
  have harrives : twoRouters.netSend emptyQueues 4 1 (newPacket 1 2 1 0) = some (newPacket 1 2 1 0) := rfl
  rw [harrives] at hsame
  cases hsame
  revert hcovers
  decide

end MeshNetwork

end LifeSim.Network

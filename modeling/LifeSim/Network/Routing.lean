import LifeSim.Lib.RingWalk

/-!
# Routing in the mesh

`NetworkModelEMeshHopByHop`: several cores share a router, the first of them is its master and stands for it. A packet
goes along the row and then along the column, and every router decides anew which neighbour is next.
-/

namespace LifeSim.Network

open LifeSim.Lib

/-- `OutputDirection`. -/
inductive OutputDirection
  | up
  | down
  | left
  | right
  | self
  | peer
  | destination
  deriving DecidableEq

/-- The directions that have a link and a queue. -/
def OutputDirection.isLink : OutputDirection → Bool
  | .up | .down | .left | .right => true
  | .self | .peer | .destination => false

/-- A mesh with its number of cores per router. -/
structure Mesh where
  width : ℕ
  height : ℕ
  concentration : ℕ
  wrapAround : Bool
  width_pos : 0 < width
  height_pos : 0 < height
  concentration_pos : 0 < concentration

namespace Mesh

variable (m : Mesh)

/-- `getApplicationCores()`, as `computeMeshDimensions` requires it. -/
def applicationCores : ℕ := m.concentration * m.height * m.width

/-- `computePosition`. -/
def computePosition (core : ℕ) : ℕ × ℕ :=
  (core / m.concentration % m.width, core / m.concentration / m.width)

/-- `computeCoreId`. -/
def computeCoreId (x y : ℤ) : ℕ :=
  (((y + m.height) % m.height * m.width + (x + m.width) % m.width) * m.concentration).toNat

/-- `computeDistance`. -/
def computeDistance (sender receiver : ℕ) : ℕ :=
  let s := m.computePosition sender
  let d := m.computePosition receiver
  if m.wrapAround = true then
    min (Nat.dist s.1 d.1) (m.width - Nat.dist s.1 d.1) + min (Nat.dist s.2 d.2) (m.height - Nat.dist s.2 d.2)
  else Nat.dist s.1 d.1 + Nat.dist s.2 d.2

/-- `m_fake_node`: a core that is not the master of a router. -/
def isFake (core : ℕ) : Bool := decide (core % m.concentration ≠ 0 ∨ m.applicationCores ≤ core)

/-- `getNextDest`, at a core. -/
def getNextDest (core finalDest : ℕ) : OutputDirection × ℕ :=
  let s := m.computePosition core
  let d := m.computePosition finalDest
  if m.applicationCores ≤ finalDest then (.destination, finalDest)
  else if core / m.concentration = finalDest / m.concentration then (.destination, finalDest)
  else if m.isFake core = true then (.peer, core - core % m.concentration)
  else if xor (decide (d.1 < s.1)) (m.wrapAround && decide ((m.width + 1) / 2 < Nat.dist s.1 d.1)) = true then
    (.left, m.computeCoreId (s.1 - 1) s.2)
  else if s.1 ≠ d.1 then (.right, m.computeCoreId (s.1 + 1) s.2)
  else if xor (decide (d.2 < s.2)) (m.wrapAround && decide ((m.height + 1) / 2 < Nat.dist s.2 d.2)) = true then
    (.down, m.computeCoreId s.1 (s.2 - 1))
  else if s.2 ≠ d.2 then (.up, m.computeCoreId s.1 (s.2 + 1))
  else (.self, core)

/-- The master of a core's router. -/
def router (core : ℕ) : ℕ := core - core % m.concentration

/-- A hop, and the core that it leads to. -/
structure Hop where
  direction : OutputDirection
  nextDest : ℕ
  deriving DecidableEq

/-- The loop of `netSend`: ask the core of the last hop for the next one, until it is the receiver. -/
def route (finalDest : ℕ) : ℕ → ℕ → Option (List Hop)
  | 0, _ => none
  | fuel + 1, core =>
    let next := m.getNextDest core finalDest
    if next.2 = finalDest then some [⟨next.1, next.2⟩]
    else (route finalDest fuel next.2).map fun hops => ⟨next.1, next.2⟩ :: hops

/-- One position is the neighbour of another in a direction. -/
def Adjacent (direction : OutputDirection) (p q : ℕ × ℕ) : Prop :=
  match direction with
  | .up => q.1 = p.1 ∧ q.2 = if m.wrapAround = true then (p.2 + 1) % m.height else p.2 + 1
  | .down => q.1 = p.1 ∧ p.2 = if m.wrapAround = true then (q.2 + 1) % m.height else q.2 + 1
  | .left => p.1 = (if m.wrapAround = true then (q.1 + 1) % m.width else q.1 + 1) ∧ q.2 = p.2
  | .right => q.1 = (if m.wrapAround = true then (p.1 + 1) % m.width else p.1 + 1) ∧ q.2 = p.2
  | .self | .peer | .destination => False

/-- The hops lead from a core to the receiver. All but the last one lead over a link to the master of the adjacent
router; the last one does so too, or leads to the receiver on the router reached. -/
def Follows (finalDest : ℕ) : ℕ → List Hop → Prop
  | core, [] => core = finalDest
  | core, hop :: rest =>
    (m.isFake hop.nextDest = false ∧ m.Adjacent hop.direction (m.computePosition core) (m.computePosition hop.nextDest) ∨
      hop.direction = .destination ∧ core / m.concentration = finalDest / m.concentration ∧ rest = []) ∧
    Follows finalDest hop.nextDest rest

/-- The number of links in a route. -/
def links (hops : List Hop) : ℕ := hops.countP fun hop => hop.direction.isLink

/-- The route from the sender's router reaches the receiver over adjacent routers, and has as many links as the distance
says. -/
def RoutesShortest (sender receiver : ℕ) : Prop :=
  ∃ hops, (∀ fuel, m.width + m.height < fuel → m.route receiver fuel (m.router sender) = some hops) ∧
    m.Follows receiver (m.router sender) hops ∧ links hops = m.computeDistance sender receiver

/-- Neither coordinate differs by half of a size plus one on a closed ring. -/
def OffHalf (sender receiver : ℕ) : Prop :=
  m.wrapAround = true →
    2 * Nat.dist (m.computePosition sender).1 (m.computePosition receiver).1 ≠ m.width + 1 ∧
    2 * Nat.dist (m.computePosition sender).2 (m.computePosition receiver).2 ≠ m.height + 1

instance (sender receiver : ℕ) : Decidable (m.OffHalf sender receiver) := inferInstanceAs (Decidable (_ → _))

/-! ### Positions -/

variable {m} {core finalDest x y : ℕ}

theorem computePosition_fst_lt (m : Mesh) (core : ℕ) : (m.computePosition core).1 < m.width := Nat.mod_lt _ m.width_pos

theorem computePosition_snd_lt (hcore : core < m.applicationCores) : (m.computePosition core).2 < m.height := by
  rw [applicationCores, Nat.mul_assoc] at hcore
  exact Nat.div_lt_of_lt_mul (Nat.mul_comm m.width m.height ▸ Nat.div_lt_of_lt_mul hcore)

/-- The master of the router at a position. -/
def master (m : Mesh) (x y : ℕ) : ℕ := (y * m.width + x) * m.concentration

theorem master_div (hx : x < m.width) : m.computePosition (m.master x y) = (x, y) := by
  rw [computePosition, master, Nat.mul_div_cancel _ m.concentration_pos, Nat.mul_comm y, Nat.mul_add_mod,
    Nat.mod_eq_of_lt hx,
    Nat.mul_add_div m.width_pos, Nat.div_eq_of_lt hx, Nat.add_zero]

theorem master_lt (hx : x < m.width) (hy : y < m.height) : m.master x y < m.applicationCores := by
  have hbelow : y * m.width + x < m.height * m.width := by
    calc
      y * m.width + x < y * m.width + m.width := Nat.add_lt_add_left hx _
      _ = (y + 1) * m.width := (Nat.succ_mul ..).symm
      _ ≤ m.height * m.width := Nat.mul_le_mul_right _ hy
  rw [applicationCores, Nat.mul_assoc, Nat.mul_comm m.concentration, master]
  exact Nat.mul_lt_mul_of_pos_right hbelow m.concentration_pos

theorem isFake_eq_false : m.isFake core = false ↔ core % m.concentration = 0 ∧ core < m.applicationCores := by
  rw [isFake, decide_eq_false_iff_not]
  omega

theorem master_isFake (hx : x < m.width) (hy : y < m.height) : m.isFake (m.master x y) = false :=
  isFake_eq_false.2 ⟨Nat.mul_mod_left .., master_lt hx hy⟩

/-- The position says which router a core is on. -/
theorem router_eq_iff {core other : ℕ} :
    core / m.concentration = other / m.concentration ↔ m.computePosition core = m.computePosition other := by
  rw [computePosition, computePosition, Prod.mk.injEq]
  constructor
  · intro h
    rw [h]
    exact ⟨rfl, rfl⟩
  · rintro ⟨hx, hy⟩
    rw [← Nat.div_add_mod (core / m.concentration) m.width, hx, hy, Nat.div_add_mod]

theorem emod_pred {n s : ℕ} (hn : 0 < n) : ((s : ℤ) - 1 + n) % n = (RingWalk.below n s : ℕ) := by
  rw [RingWalk.below, Int.natCast_emod, Nat.cast_sub (by omega)]
  congr 1
  push_cast
  ring

theorem emod_succ (n s : ℕ) : ((s : ℤ) + 1 + n) % n = (RingWalk.above n s : ℕ) := by
  rw [Int.add_emod_right, RingWalk.above, Int.natCast_emod]
  rfl

theorem computeCoreId_left (hy : y < m.height) : m.computeCoreId (x - 1) y = m.master (RingWalk.below m.width x) y := by
  rw [computeCoreId, emod_pred m.width_pos, Int.add_emod_right, Int.emod_eq_of_lt (by omega) (by omega)]
  exact Int.toNat_natCast _

theorem computeCoreId_right (hy : y < m.height) : m.computeCoreId (x + 1) y = m.master (RingWalk.above m.width x) y := by
  rw [computeCoreId, emod_succ, Int.add_emod_right, Int.emod_eq_of_lt (by omega) (by omega)]
  exact Int.toNat_natCast _

theorem computeCoreId_down (hx : x < m.width) : m.computeCoreId x (y - 1) = m.master x (RingWalk.below m.height y) := by
  rw [computeCoreId, emod_pred m.height_pos, Int.add_emod_right, Int.emod_eq_of_lt (by omega) (by omega)]
  exact Int.toNat_natCast _

theorem computeCoreId_up (hx : x < m.width) : m.computeCoreId x (y + 1) = m.master x (RingWalk.above m.height y) := by
  rw [computeCoreId, emod_succ, Int.add_emod_right, Int.emod_eq_of_lt (by omega) (by omega)]
  exact Int.toNat_natCast _

/-! ### One hop -/

/-- The number of links that are left on the way. -/
def linksLeft (m : Mesh) (core finalDest : ℕ) : ℕ :=
  RingWalk.remaining m.wrapAround m.width ((m.width + 1) / 2) (m.computePosition core).1 (m.computePosition finalDest).1 +
    RingWalk.remaining m.wrapAround m.height ((m.height + 1) / 2) (m.computePosition core).2
      (m.computePosition finalDest).2

/-- The neighbour below is adjacent in the direction that leads down. -/
theorem below_adjacent {closed : Bool} {n s d : ℕ} (hs : s < n)
    (h : RingWalk.descends closed ((n + 1) / 2) s d = true) :
    s = if closed = true then (RingWalk.below n s + 1) % n else RingWalk.below n s + 1 := by
  split_ifs with hclosed
  · exact (RingWalk.above_below hs).symm
  · have hlt : d < s := (RingWalk.descends_iff.1 h).2 fun hfar => hclosed hfar.1
    rw [RingWalk.below_of_pos (by omega) hs]
    omega

/-- The neighbour above is adjacent in the direction that leads up. -/
theorem above_adjacent {closed : Bool} {n s d : ℕ} (hd : d < n) (hne : s ≠ d)
    (h : RingWalk.descends closed ((n + 1) / 2) s d = false) :
    RingWalk.above n s = if closed = true then (s + 1) % n else s + 1 := by
  split_ifs with hclosed
  · rfl
  · rw [← Bool.not_eq_true, RingWalk.descends_iff] at h
    have hlt : s < d := by
      by_contra hnot
      exact h (iff_of_true (by omega) fun hfar => hclosed hfar.1)
    exact RingWalk.above_of_lt (by omega)

/-- A hop from a master to another router: a link to the master of an adjacent router, with one link less left. -/
structure LinkHop (m : Mesh) (core finalDest : ℕ) (next : OutputDirection × ℕ) : Prop where
  master : m.isFake next.2 = false
  adjacent : m.Adjacent next.1 (m.computePosition core) (m.computePosition next.2)
  less : m.linksLeft next.2 finalDest + 1 = m.linksLeft core finalDest

/-- A hop to the master at an adjacent position from which one link less is left. -/
theorem LinkHop.of_position {direction : OutputDirection} (hx : x < m.width) (hy : y < m.height)
    (hadjacent : m.Adjacent direction (m.computePosition core) (x, y))
    (hless : RingWalk.remaining m.wrapAround m.width ((m.width + 1) / 2) x (m.computePosition finalDest).1 +
      RingWalk.remaining m.wrapAround m.height ((m.height + 1) / 2) y (m.computePosition finalDest).2 + 1 =
        m.linksLeft core finalDest) : m.LinkHop core finalDest (direction, m.master x y) where
  master := master_isFake hx hy
  adjacent := by rwa [master_div hx]
  less := by rwa [linksLeft, master_div hx]

theorem getNextDest_linkHop (hcore : m.isFake core = false) (hdest : finalDest < m.applicationCores)
    (hother : core / m.concentration ≠ finalDest / m.concentration) :
    m.LinkHop core finalDest (m.getNextDest core finalDest) := by
  have hlt := (isFake_eq_false.1 hcore).2
  have hsx := computePosition_fst_lt m core
  have hsy := computePosition_snd_lt hlt
  have hdx := computePosition_fst_lt m finalDest
  have hdy := computePosition_snd_lt hdest
  have hposition := mt router_eq_iff.2 hother
  have hreal : ¬ m.isFake core = true := by rw [hcore]; exact Bool.false_ne_true
  rw [getNextDest, if_neg (Nat.not_le.2 hdest), if_neg hother, if_neg hreal]
  generalize hs : m.computePosition core = s at hsx hsy hposition ⊢
  generalize hd : m.computePosition finalDest = d at hdx hdy hposition ⊢
  change LinkHop m core finalDest (if RingWalk.descends m.wrapAround ((m.width + 1) / 2) s.1 d.1 = true then _ else
    if _ then _ else if RingWalk.descends m.wrapAround ((m.height + 1) / 2) s.2 d.2 = true then _ else _)
  split_ifs with hleft hright hdown hup
  · rw [computeCoreId_left hsy]
    apply LinkHop.of_position (RingWalk.below_lt m.width_pos) hsy
    · rw [hs]
      exact ⟨below_adjacent hsx hleft, rfl⟩
    · have hless := RingWalk.remaining_below (by omega) hsx hdx hleft
      rw [linksLeft, hs, hd]
      omega
  · rw [Bool.not_eq_true] at hleft
    rw [computeCoreId_right hsy]
    apply LinkHop.of_position (RingWalk.above_lt m.width_pos) hsy
    · rw [hs]
      exact ⟨above_adjacent hdx hright hleft, rfl⟩
    · have hless := RingWalk.remaining_above (by omega) hsx hdx hright hleft
      rw [linksLeft, hs, hd]
      omega
  · rw [computeCoreId_down hsx]
    apply LinkHop.of_position hsx (RingWalk.below_lt m.height_pos)
    · rw [hs]
      exact ⟨rfl, below_adjacent hsy hdown⟩
    · have hless := RingWalk.remaining_below (by omega) hsy hdy hdown
      rw [linksLeft, hs, hd]
      omega
  · rw [Bool.not_eq_true] at hdown
    rw [computeCoreId_up hsx]
    apply LinkHop.of_position hsx (RingWalk.above_lt m.height_pos)
    · rw [hs]
      exact ⟨rfl, above_adjacent hdy hup hdown⟩
    · have hless := RingWalk.remaining_above (by omega) hsy hdy hup hdown
      rw [linksLeft, hs, hd]
      omega
  · exact absurd (Prod.ext (not_not.1 hright) (not_not.1 hup)) hposition

/-- A hop on the receiver's router. -/
theorem getNextDest_sameRouter (hsame : core / m.concentration = finalDest / m.concentration) :
    m.getNextDest core finalDest = (.destination, finalDest) := by
  rw [getNextDest]
  split_ifs
  · rfl
  · rfl

/-- No links are left exactly on the receiver's router. -/
theorem linksLeft_eq_zero_iff (hcore : core < m.applicationCores) (hdest : finalDest < m.applicationCores) :
    m.linksLeft core finalDest = 0 ↔ core / m.concentration = finalDest / m.concentration := by
  rw [router_eq_iff, linksLeft, Nat.add_eq_zero_iff,
    RingWalk.remaining_eq_zero_iff (computePosition_fst_lt ..) (computePosition_fst_lt ..),
    RingWalk.remaining_eq_zero_iff (computePosition_snd_lt hcore) (computePosition_snd_lt hdest), Prod.ext_iff]

/-! ### The route -/

theorem Adjacent.isLink {direction : OutputDirection} {p q : ℕ × ℕ} (h : m.Adjacent direction p q) :
    direction.isLink = true := by
  cases direction with
  | up | down | left | right => rfl
  | self | peer | destination => exact h.elim

/-- From a master, the route reaches the receiver and takes as many links as were left. -/
theorem route_reaches (hcore : m.isFake core = false) (hdest : finalDest < m.applicationCores) :
    ∃ hops, (∀ fuel, m.linksLeft core finalDest < fuel → m.route finalDest fuel core = some hops) ∧
      m.Follows finalDest core hops ∧ links hops = m.linksLeft core finalDest := by
  generalize hleft : m.linksLeft core finalDest = left
  induction left generalizing core with
  | zero =>
    have hsame := (linksLeft_eq_zero_iff (isFake_eq_false.1 hcore).2 hdest).1 hleft
    refine ⟨[⟨.destination, finalDest⟩], fun fuel hfuel => ?_, ⟨.inr ⟨rfl, hsame, rfl⟩, rfl⟩, rfl⟩
    obtain ⟨fuel, rfl⟩ := Nat.exists_eq_add_one.2 hfuel
    rw [route, getNextDest_sameRouter hsame]
    exact if_pos rfl
  | succ left ih =>
    have hother : core / m.concentration ≠ finalDest / m.concentration := by
      rw [Ne, ← linksLeft_eq_zero_iff (isFake_eq_false.1 hcore).2 hdest, hleft]
      exact Nat.succ_ne_zero left
    obtain ⟨hmaster, hadjacent, hless⟩ := getNextDest_linkHop hcore hdest hother
    have hcount := hadjacent.isLink
    by_cases harrived : (m.getNextDest core finalDest).2 = finalDest
    · have hzero : left = 0 := by
        have hnone := (linksLeft_eq_zero_iff hdest hdest).2 rfl
        rw [harrived, hnone, hleft] at hless
        omega
      refine ⟨[⟨(m.getNextDest core finalDest).1, (m.getNextDest core finalDest).2⟩], fun fuel hfuel => ?_,
        ⟨.inl ⟨hmaster, hadjacent⟩, harrived⟩, ?_⟩
      · obtain ⟨fuel, rfl⟩ := Nat.exists_eq_add_one.2 (Nat.zero_lt_of_lt hfuel)
        rw [route]
        exact if_pos harrived
      · rw [hzero]
        exact List.countP_cons_of_pos hcount
    · obtain ⟨hops, hroute, hfollows, hlinks⟩ := ih hmaster (by omega)
      refine ⟨⟨(m.getNextDest core finalDest).1, (m.getNextDest core finalDest).2⟩ :: hops, fun fuel hfuel => ?_,
        ⟨.inl ⟨hmaster, hadjacent⟩, hfollows⟩, ?_⟩
      · obtain ⟨fuel, rfl⟩ := Nat.exists_eq_add_one.2 (Nat.zero_lt_of_lt hfuel)
        rw [route, if_neg harrived, hroute fuel (by omega)]
        rfl
      · rw [links, List.countP_cons_of_pos (by exact hcount), ← hlinks]
        rfl

/-! ### Shortest routes -/

theorem router_div (m : Mesh) (core : ℕ) : m.router core / m.concentration = core / m.concentration := by
  rw [router, ← Nat.div_mul_self_eq_mod_sub_self, Nat.mul_div_cancel _ m.concentration_pos]

theorem router_isFake (hcore : core < m.applicationCores) : m.isFake (m.router core) = false := by
  refine isFake_eq_false.2 ⟨?_, (Nat.sub_le ..).trans_lt hcore⟩
  exact Nat.mod_eq_zero_of_dvd (Nat.dvd_sub_mod core)

theorem linksLeft_router (m : Mesh) (core finalDest : ℕ) : m.linksLeft (m.router core) finalDest = m.linksLeft core finalDest := by
  rw [linksLeft, linksLeft, router_eq_iff.1 (router_div m core)]

theorem linksLeft_le (m : Mesh) (core finalDest : ℕ) (hcore : core < m.applicationCores)
    (hdest : finalDest < m.applicationCores) :
    m.linksLeft core finalDest ≤ m.width + m.height := by
  apply Nat.add_le_add
  · exact RingWalk.remaining_le (computePosition_fst_lt ..) (computePosition_fst_lt ..)
  · exact RingWalk.remaining_le (computePosition_snd_lt hcore) (computePosition_snd_lt hdest)

theorem computeDistance_eq (m : Mesh) (sender receiver : ℕ) :
    m.computeDistance sender receiver =
      RingWalk.distance m.wrapAround m.width (m.computePosition sender).1 (m.computePosition receiver).1 +
        RingWalk.distance m.wrapAround m.height (m.computePosition sender).2 (m.computePosition receiver).2 := by
  rw [computeDistance, RingWalk.distance, RingWalk.distance]
  split_ifs
  · rfl
  · rfl

/-- The way is never shorter than the distance. -/
theorem computeDistance_le_linksLeft (m : Mesh) (sender receiver : ℕ) :
    m.computeDistance sender receiver ≤ m.linksLeft sender receiver := by
  rw [computeDistance_eq]
  exact Nat.add_le_add (RingWalk.distance_le_remaining ..) (RingWalk.distance_le_remaining ..)

/-- Only cores of one router have no distance. -/
theorem computeDistance_eq_zero_iff {sender receiver : ℕ} (hsender : sender < m.applicationCores)
    (hreceiver : receiver < m.applicationCores) :
    m.computeDistance sender receiver = 0 ↔ sender / m.concentration = receiver / m.concentration := by
  rw [router_eq_iff, computeDistance_eq, Nat.add_eq_zero_iff,
    RingWalk.distance_eq_zero_iff (computePosition_fst_lt ..) (computePosition_fst_lt ..),
    RingWalk.distance_eq_zero_iff (computePosition_snd_lt hsender) (computePosition_snd_lt hreceiver), Prod.ext_iff]

/-- The links on the way are as many as the distance says exactly if no coordinate is off by half of a ring. -/
theorem linksLeft_eq_distance_iff {sender receiver : ℕ} (hsender : sender < m.applicationCores)
    (hreceiver : receiver < m.applicationCores) :
    m.linksLeft sender receiver = m.computeDistance sender receiver ↔ m.OffHalf sender receiver := by
  have hx := RingWalk.remaining_half_eq_distance_iff m.wrapAround
    (computePosition_fst_lt m sender) (computePosition_fst_lt m receiver)
  have hy := RingWalk.remaining_half_eq_distance_iff m.wrapAround
    (computePosition_snd_lt hsender) (computePosition_snd_lt hreceiver)
  have hlex := RingWalk.distance_le_remaining m.wrapAround m.width ((m.width + 1) / 2)
    (m.computePosition sender).1 (m.computePosition receiver).1
  have hley := RingWalk.distance_le_remaining m.wrapAround m.height ((m.height + 1) / 2)
    (m.computePosition sender).2 (m.computePosition receiver).2
  rw [OffHalf, imp_and, ← hx, ← hy, computeDistance_eq, linksLeft]
  omega

theorem routesShortest_iff {sender receiver : ℕ} (hsender : sender < m.applicationCores)
    (hreceiver : receiver < m.applicationCores) : m.RoutesShortest sender receiver ↔ m.OffHalf sender receiver := by
  rw [← linksLeft_eq_distance_iff hsender hreceiver]
  obtain ⟨hops, hroute, hfollows, hlinks⟩ := route_reaches (router_isFake hsender) hreceiver
  rw [linksLeft_router] at hroute hlinks
  have hbound := linksLeft_le m sender receiver hsender hreceiver
  constructor
  · rintro ⟨hops', hroute', -, hlinks'⟩
    have hsame := (hroute (m.width + m.height + 1) (by omega)).symm.trans (hroute' (m.width + m.height + 1) (by omega))
    cases hsame
    rw [← hlinks, hlinks']
  · intro hdistance
    exact ⟨hops, fun fuel hfuel => hroute fuel (by omega), hfollows, hlinks.trans hdistance⟩

/-- The route is a shortest one exactly if no coordinate is off by half of a ring. -/
theorem route_shortest_iff (m : Mesh) (sender receiver : Fin m.applicationCores) :
    m.RoutesShortest sender receiver ↔ m.OffHalf sender receiver :=
  routesShortest_iff sender.isLt receiver.isLt

/-- Three cores in a ring. -/
def threeRing : Mesh where
  width := 3
  height := 1
  concentration := 1
  wrapAround := true
  width_pos := Nat.succ_pos 2
  height_pos := Nat.one_pos
  concentration_pos := Nat.one_pos

/-- From core 0 to core 2 there is a link, but the packet goes over core 1. -/
theorem route_threeRing : ¬ threeRing.RoutesShortest 0 2 := by
  rintro ⟨hops, hroute, -, hlinks⟩
  have hsame := hroute 5 (by decide)
  have htwo : threeRing.route 2 5 (threeRing.router 0) = some [⟨.right, 1⟩, ⟨.right, 2⟩] := by decide
  rw [htwo] at hsame
  cases hsame
  revert hlinks
  decide

end Mesh

end LifeSim.Network

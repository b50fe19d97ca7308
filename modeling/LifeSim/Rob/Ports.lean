import LifeSim.Lib.Assignment
import LifeSim.Lib.Machine
import LifeSim.Rob.Uop

/-!
# Execution ports

What the counters of the contention models stand for: an assignment of micro-ops to the execution ports of their classes.
By Hall's theorem it exists when five classes of one port each, the classes inside ports 0 and 5, and the classes inside
ports 0, 1 and 5 have no more micro-ops than their ports have cycles.

`RobContentionNehalem` counts the micro-ops of the last group without those of `PORT05`, so that it may accept a fourth
one in a cycle. It takes the port before it looks at the arithmetic unit, so that a micro-op that is rejected then keeps
its port.
-/

namespace LifeSim.Rob

open LifeSim.Lib

/-- The ports themselves. -/
inductive ExecutionPort
  | p0
  | p1
  | p2
  | p34
  | p5
  deriving DecidableEq, Repr

instance : Fintype ExecutionPort := ⟨{.p0, .p1, .p2, .p34, .p5}, fun u => by cases u <;> decide⟩

instance : Fintype Port :=
  ⟨{.port0, .port1, .port2, .port34, .port5, .port05, .port015}, fun c => by cases c <;> decide⟩

/-- The ports that can execute the micro-ops of a class. -/
def Port.executionPorts : Port → Finset ExecutionPort
  | .port0 => {.p0}
  | .port1 => {.p1}
  | .port2 => {.p2}
  | .port34 => {.p34}
  | .port5 => {.p5}
  | .port05 => {.p0, .p5}
  | .port015 => {.p0, .p1, .p5}

/-- The micro-ops that use ports 0 and 5 only. -/
def use05 (count : Port → ℕ) : ℕ := count .port0 + count .port5 + count .port05

/-- The micro-ops that use ports 0, 1 and 5 only. -/
def use015 (count : Port → ℕ) : ℕ := count .port0 + count .port1 + count .port5 + count .port05 + count .port015

/-- No group of classes has more micro-ops than its ports have cycles. -/
structure WithinPorts (count : Port → ℕ) (k : ℕ) : Prop where
  port0 : count .port0 ≤ k
  port1 : count .port1 ≤ k
  port2 : count .port2 ≤ k
  port34 : count .port34 ≤ k
  port5 : count .port5 ≤ k
  ports05 : use05 count ≤ 2 * k
  ports015 : use015 count ≤ 3 * k

/-- Seven groups of classes decide about all of them. -/
theorem withinPorts_iff (count : Port → ℕ) (k : ℕ) :
    (∀ S : Finset Port, ∑ c ∈ S, count c ≤ k * (S.biUnion Port.executionPorts).card) ↔ WithinPorts count k := by
  constructor
  · intro h
    have h05 := h {.port0, .port5, .port05}
    have h015 := h {.port0, .port1, .port5, .port05, .port015}
    have hone (c : Port) : count c ≤ k * c.executionPorts.card := by
      simpa using h {c}
    have hcard05 : (Finset.biUnion {.port0, .port5, .port05} Port.executionPorts).card = 2 := by decide
    have hcard015 : (Finset.biUnion {.port0, .port1, .port5, .port05, .port015} Port.executionPorts).card = 3 := by decide
    have hsum05 : ∑ c ∈ ({.port0, .port5, .port05} : Finset Port), count c = use05 count := by
      simp [use05, add_assoc]
    have hsum015 : ∑ c ∈ ({.port0, .port1, .port5, .port05, .port015} : Finset Port), count c = use015 count := by
      simp [use015, add_assoc]
    rw [hcard05, hsum05, Nat.mul_comm] at h05
    rw [hcard015, hsum015, Nat.mul_comm] at h015
    have hsingle (c : Port) (hc : c.executionPorts.card = 1) : count c ≤ k := by
      simpa [hc] using hone c
    exact ⟨hsingle _ rfl, hsingle _ rfl, hsingle _ rfl, hsingle _ rfl, hsingle _ rfl, h05, h015⟩
  · intro h S
    obtain ⟨h0, h1, h2, h34, h5, h05, h015⟩ := h
    have hsum : ∑ c ∈ S, count c = ∑ c : Port, if c ∈ S then count c else 0 := by
      rw [← Finset.sum_filter, Finset.filter_mem_eq_inter, Finset.univ_inter]
    have hcard : (S.biUnion Port.executionPorts).card =
        ∑ u : ExecutionPort, if u ∈ S.biUnion Port.executionPorts then 1 else 0 := by
      rw [Finset.sum_boole, Finset.filter_mem_eq_inter, Finset.univ_inter, Nat.cast_id]
    have hports (f : Port → ℕ) : ∑ c, f c =
        f .port0 + f .port1 + f .port2 + f .port34 + f .port5 + f .port05 + f .port015 := by
      change ∑ c ∈ ({.port0, .port1, .port2, .port34, .port5, .port05, .port015} : Finset Port), f c = _
      simp [add_assoc]
    have hunits (f : ExecutionPort → ℕ) : ∑ u, f u = f .p0 + f .p1 + f .p2 + f .p34 + f .p5 := by
      change ∑ u ∈ ({.p0, .p1, .p2, .p34, .p5} : Finset ExecutionPort), f u = _
      simp [add_assoc]
    have hmem (u : ExecutionPort) : u ∈ S.biUnion Port.executionPorts ↔ ∃ c ∈ S,
      u ∈ c.executionPorts := Finset.mem_biUnion
    have hclass0 : ∀ c : Port, .p0 ∈ c.executionPorts ↔ c = .port015 ∨ c = .port05 ∨ c = .port0 := by decide
    have hclass1 : ∀ c : Port, .p1 ∈ c.executionPorts ↔ c = .port015 ∨ c = .port1 := by decide
    have hclass5 : ∀ c : Port, .p5 ∈ c.executionPorts ↔ c = .port015 ∨ c = .port05 ∨ c = .port5 := by decide
    have hclass2 : ∀ c : Port, .p2 ∈ c.executionPorts ↔ c = .port2 := by decide
    have hclass34 : ∀ c : Port, .p34 ∈ c.executionPorts ↔ c = .port34 := by decide
    have hp0 : .p0 ∈ S.biUnion Port.executionPorts ↔ .port015 ∈ S ∨ .port05 ∈ S ∨ .port0 ∈ S := by
      simp only [hmem, hclass0, and_or_left, exists_or, exists_eq_right]
    have hp1 : .p1 ∈ S.biUnion Port.executionPorts ↔ .port015 ∈ S ∨ .port1 ∈ S := by
      simp only [hmem, hclass1, and_or_left, exists_or, exists_eq_right]
    have hp5 : .p5 ∈ S.biUnion Port.executionPorts ↔ .port015 ∈ S ∨ .port05 ∈ S ∨ .port5 ∈ S := by
      simp only [hmem, hclass5, and_or_left, exists_or, exists_eq_right]
    have hp2 : .p2 ∈ S.biUnion Port.executionPorts ↔ .port2 ∈ S := by
      simp only [hmem, hclass2, exists_eq_right]
    have hp34 : .p34 ∈ S.biUnion Port.executionPorts ↔ .port34 ∈ S := by
      simp only [hmem, hclass34, exists_eq_right]
    -- what a class has and what its own port has, if the class is there
    obtain ⟨used, hused⟩ : ∃ used : Port → ℕ, ∀ c, (if c ∈ S then count c else 0) = used c := ⟨_, fun _ => rfl⟩
    obtain ⟨room, hroom⟩ : ∃ room : Port → ℕ, ∀ c, (if c ∈ S then k else 0) = room c := ⟨_, fun _ => rfl⟩
    have hle (c : Port) : used c ≤ count c := by
      rw [← hused]
      split_ifs <;> omega
    have hown (c : Port) (hc : count c ≤ k) : used c ≤ room c := by
      rw [← hused, ← hroom]
      split_ifs <;> omega
    have hnone (c : Port) (hc : c ∉ S) : used c = 0 := by
      rw [← hused, if_neg hc]
    have hown0 := hown _ h0
    have hown1 := hown _ h1
    have hown2 := hown _ h2
    have hown34 := hown _ h34
    have hown5 := hown _ h5
    have hle0 := hle .port0
    have hle1 := hle .port1
    have hle5 := hle .port5
    have hle05 := hle .port05
    have hle015 := hle .port015
    rw [hsum, hports, hcard, hunits]
    simp only [hp0, hp1, hp5, hp2, hp34, mul_add, mul_ite, mul_one, mul_zero, hused]
    rw [use05] at h05
    rw [use015] at h015
    -- the largest group that is there decides
    by_cases hS015 : .port015 ∈ S
    · simp only [hS015, true_or, if_true, hroom]
      omega
    · have hno015 := hnone _ hS015
      by_cases hS05 : .port05 ∈ S
      · simp only [hS015, hS05, true_or, false_or, if_true, hroom]
        omega
      · have hno05 := hnone _ hS05
        simp only [hS015, hS05, false_or, hroom]
        omega

/-! ### The ports of a cycle -/

/-- How many of some micro-ops are of a class. -/
def countPort (uops : List DynamicMicroOp) (c : Port) : ℕ := uops.countP fun u => u.port = c

/-- Micro-ops can have ports of their own in one cycle when no group of classes has too many of them. -/
theorem exists_ports_iff (uops : List DynamicMicroOp) :
    (∃ assign : Fin uops.length → ExecutionPort, Function.Injective assign ∧
      ∀ i, assign i ∈ (uops.get i).port.executionPorts) ↔ WithinPorts (countPort uops) 1 := by
  have hsum (S : Finset Port) : (uops.countP fun u => u.port ∈ S) = ∑ c ∈ S, countPort uops c := by
    induction uops with
    | nil => simp [countPort]
    | cons u uops ih =>
      simp only [countPort, List.countP_cons, Finset.sum_add_distrib, decide_eq_true_eq] at ih ⊢
      rw [ih, Finset.sum_ite_eq]
  rw [← assignable_one_iff, assignable_list_iff, ← withinPorts_iff]
  simp only [hsum]

/-- A micro-op that is offered, and when the arithmetic unit is free. -/
structure Offer where
  uop : DynamicMicroOp
  aluUsedUntil : ℕ

/-- The ports of a cycle and the micro-ops for which `tryIssue` returned true. -/
abbrev Cycle := Ports × List DynamicMicroOp

/-- One call of `tryIssue`. -/
def offer (now : ℕ) (x : Cycle) (o : Offer) : Cycle :=
  let (issued, ports) := x.1.tryIssue o.uop o.aluUsedUntil now
  (ports, if issued then x.2 ++ [o.uop] else x.2)

/-- The calls after `initCycle`. -/
def issuing (now : ℕ) : Machine Cycle Offer Empty where
  step x o := .ok (offer now x o)

theorem guarded_cons {now : ℕ} {P : Cycle → Offer → Prop} {x : Cycle} {o : Offer} {offers : List Offer} :
    (issuing now).Guarded P x (o :: offers) ↔ P x o ∧ (issuing now).Guarded P (offer now x o) offers := by
  simp [Machine.Guarded, issuing]

/-- A call that returns false leaves the ports as they are. -/
def KeepsPorts (now : ℕ) (x : Cycle) (o : Offer) : Prop :=
  (x.1.tryIssue o.uop o.aluUsedUntil now).1 = false → (x.1.tryIssue o.uop o.aluUsedUntil now).2 = x.1

/-- The micro-ops that are accepted have ports of their own, at most three of them use ports 0, 1 and 5, and no call that
returns false takes a port. -/
def PortsSound (now : ℕ) (offers : List Offer) : Prop :=
  let accepted := (offers.foldl (offer now) (.init, [])).2
  (∃ assign : Fin accepted.length → ExecutionPort, Function.Injective assign ∧
      ∀ i, assign i ∈ (accepted.get i).port.executionPorts) ∧
    use015 (countPort accepted) ≤ 3 ∧ (issuing now).Guarded (KeepsPorts now) (.init, []) offers

/-- The class uses ports 0, 1 and 5 only. -/
def Port.Shared (c : Port) : Prop := c ≠ .port2 ∧ c ≠ .port34

instance : DecidablePred Port.Shared := fun _ => inferInstanceAs (Decidable (_ ∧ _))

/-- The micro-ops on ports 0, 1 and 5 by the counters: those of `ports_generic`, and those of `ports_generic05` without the
ones on port 0 or 5 alone, which are in both. -/
def Ports.sharedTaken (p : Ports) : ℕ :=
  p.generic + (p.generic05 - ((if p.used .port0 then 1 else 0) + if p.used .port5 then 1 else 0))

/-- If the counters have a port for the micro-op, its arithmetic unit is free and, if it uses ports 0, 1 and 5, the two
counters have fewer than three micro-ops there. -/
def RoomFor (now : ℕ) (p : Ports) (o : Offer) : Prop :=
  (p.take o.uop.port).isSome → ¬ (o.uop.alu ∧ now < o.aluUsedUntil) ∧ (o.uop.port.Shared → p.sharedTaken < 3)

theorem countPort_cons (u : DynamicMicroOp) (uops : List DynamicMicroOp) (c : Port) :
    countPort (u :: uops) c = countPort uops c + if u.port = c then 1 else 0 := by
  simp [countPort, List.countP_cons]

theorem countPort_append (uops : List DynamicMicroOp) (u : DynamicMicroOp) (c : Port) :
    countPort (uops ++ [u]) c = countPort uops c + if u.port = c then 1 else 0 := by
  simp [countPort, List.countP_append, List.countP_cons]

/-- The counters as numbers of accepted micro-ops. -/
structure Counted (x : Cycle) : Prop where
  generic : x.1.generic + countPort x.2 .port05 = use015 (countPort x.2)
  generic05 : x.1.generic05 = use05 (countPort x.2)
  generic_le : x.1.generic ≤ 3
  generic05_le : x.1.generic05 ≤ 2
  used : ∀ c, c ≠ .port05 → c ≠ .port015 → countPort x.2 c = if x.1.used c then 1 else 0

/-- Together the two counters have all micro-ops on ports 0, 1 and 5. -/
theorem Counted.sharedTaken {x : Cycle} (h : Counted x) : x.1.sharedTaken = use015 (countPort x.2) := by
  have hgeneric := h.generic
  have hgeneric05 := h.generic05
  have h0 := h.used .port0 (by decide) (by decide)
  have h5 := h.used .port5 (by decide) (by decide)
  rw [use05] at hgeneric05
  rw [Ports.sharedTaken, ← h0, ← h5]
  omega

/-- A port that is taken counts for the micro-op. -/
theorem Counted.take {p p' : Ports} {accepted : List DynamicMicroOp} {u : DynamicMicroOp} (h : Counted (p, accepted))
    (htake : p.take u.port = some p') : Counted (p', accepted ++ [u]) := by
  obtain ⟨hgeneric, hgeneric05, hle, hle05, hused⟩ := h
  dsimp only at hgeneric hgeneric05 hle hle05 hused
  rw [use015] at hgeneric
  rw [use05] at hgeneric05
  have hport (c : Port) : countPort (accepted ++ [u]) c = countPort accepted c + if u.port = c then 1 else 0 :=
    countPort_append accepted u c
  have hother (f : Port → Bool) (c' : Port) (hf : f = Function.update p.used c' true) (hfree : p.used c' = false)
      (c : Port) (h05 : c ≠ .port05) (h015 : c ≠ .port015) :
      countPort accepted c + (if c' = c then 1 else 0) = if f c then 1 else 0 := by
    rw [hf, hused c h05 h015]
    by_cases hc : c = c'
    · rw [hc, Function.update_self, hfree]
      simp
    · rw [Function.update_of_ne hc, if_neg (Ne.symm hc), Nat.add_zero]
  cases hu : u.port with
  | port015 =>
    simp only [hu, Ports.take] at htake
    split_ifs at htake with hfull
    cases htake
    simp only [hu] at hport
    refine ⟨?_, ?_, ?_, hle05, fun c h05 h015 => ?_⟩
    · simp only [use015, hport]
      simp
      omega
    · simpa [use05, hport] using hgeneric05
    · change p.generic + 1 ≤ 3
      omega
    · rw [hport, if_neg (Ne.symm h015), hused c h05 h015]
      rfl
  | port05 =>
    simp only [hu, Ports.take] at htake
    split_ifs at htake with hfull
    cases htake
    simp only [hu] at hport
    refine ⟨?_, ?_, hle, ?_, fun c h05 h015 => ?_⟩
    · simp only [use015, hport]
      simp
      omega
    · simp only [use05, hport]
      simp
      omega
    · change p.generic05 + 1 ≤ 2
      omega
    · rw [hport, if_neg (Ne.symm h05), hused c h05 h015]
      rfl
  | port2 | port34 =>
    simp only [hu, Ports.take] at htake
    split_ifs at htake with hfull
    cases htake
    simp only [hu] at hport
    refine ⟨?_, ?_, hle, hle05, fun c h05 h015 => ?_⟩
    · simpa [use015, hport] using hgeneric
    · simpa [use05, hport] using hgeneric05
    · rw [hport]
      exact hother _ _ rfl (by simpa using hfull) c h05 h015
  | port1 =>
    simp only [hu, Ports.take] at htake
    split_ifs at htake with hfull
    cases htake
    rw [not_or] at hfull
    simp only [hu] at hport
    refine ⟨?_, ?_, ?_, hle05, fun c h05 h015 => ?_⟩
    · simp only [use015, hport]
      simp
      omega
    · simpa [use05, hport] using hgeneric05
    · change p.generic + 1 ≤ 3
      omega
    · rw [hport]
      exact hother _ _ rfl (by simpa using hfull.1) c h05 h015
  | port0 | port5 =>
    simp only [hu, Ports.take] at htake
    split_ifs at htake with hfull
    cases htake
    rw [not_or, not_or] at hfull
    simp only [hu] at hport
    refine ⟨?_, ?_, ?_, ?_, fun c h05 h015 => ?_⟩
    · simp only [use015, hport]
      simp
      omega
    · simp only [use05, hport]
      simp
      omega
    · change p.generic + 1 ≤ 3
      omega
    · change p.generic05 + 1 ≤ 2
      omega
    · rw [hport]
      exact hother _ _ rfl (by simpa using hfull.1) c h05 h015

/-- A port that is taken was free. -/
theorem take_ne {p p' : Ports} {c : Port} (htake : p.take c = some p') : p' ≠ p := by
  rintro rfl
  cases c with
  | port015 =>
    rw [Ports.take] at htake
    split_ifs at htake
    have hgeneric := congrArg Ports.generic (Option.some.inj htake)
    exact Nat.succ_ne_self _ hgeneric
  | port05 =>
    rw [Ports.take] at htake
    split_ifs at htake
    have hgeneric := congrArg Ports.generic05 (Option.some.inj htake)
    exact Nat.succ_ne_self _ hgeneric
  | port2 =>
    rw [Ports.take] at htake
    split_ifs at htake with hfull
    have hused : Function.update p'.used .port2 true .port2 = p'.used .port2 :=
      congrFun (congrArg Ports.used (Option.some.inj htake)) .port2
    rw [Function.update_self] at hused
    exact hfull hused.symm
  | port34 =>
    rw [Ports.take] at htake
    split_ifs at htake with hfull
    have hused : Function.update p'.used .port34 true .port34 = p'.used .port34 :=
      congrFun (congrArg Ports.used (Option.some.inj htake)) .port34
    rw [Function.update_self] at hused
    exact hfull hused.symm
  | port1 =>
    rw [Ports.take] at htake
    split_ifs at htake
    have hgeneric := congrArg Ports.generic (Option.some.inj htake)
    exact Nat.succ_ne_self _ hgeneric
  | port0 =>
    simp only [Ports.take] at htake
    split_ifs at htake
    have hgeneric := congrArg Ports.generic (Option.some.inj htake)
    exact Nat.succ_ne_self _ hgeneric
  | port5 =>
    simp only [Ports.take] at htake
    split_ifs at htake
    have hgeneric := congrArg Ports.generic (Option.some.inj htake)
    exact Nat.succ_ne_self _ hgeneric

variable {now : ℕ} {x : Cycle} {o : Offer}

/-- A call without a free port changes nothing. -/
theorem offer_none (htake : x.1.take o.uop.port = none) : offer now x o = x := by
  rw [offer, Ports.tryIssue, htake]
  rfl

/-- A call with a free port takes it. -/
theorem offer_some {p : Ports} (htake : x.1.take o.uop.port = some p) :
    offer now x o = (p, if o.uop.alu ∧ now < o.aluUsedUntil then x.2 else x.2 ++ [o.uop]) := by
  rw [offer, Ports.tryIssue, htake]
  by_cases hbusy : o.uop.alu ∧ now < o.aluUsedUntil
  · rw [if_pos hbusy]
    simp [hbusy.1, hbusy.2]
  · rw [if_neg hbusy]
    cases halu : o.uop.alu with
    | false => simp
    | true => simp_all

/-- Exactly the calls that find the arithmetic unit busy return false and take a port. -/
theorem keepsPorts_iff : KeepsPorts now x o ↔
    ((x.1.take o.uop.port).isSome → ¬ (o.uop.alu ∧ now < o.aluUsedUntil)) := by
  rw [KeepsPorts, Ports.tryIssue]
  cases htake : x.1.take o.uop.port with
  | none => simp
  | some p =>
    have hne := take_ne htake
    by_cases hbusy : o.uop.alu ∧ now < o.aluUsedUntil
    · simp [hbusy.1, hbusy.2, hne]
    · have hfree : (o.uop.alu && decide (now < o.aluUsedUntil)) = false := by
        simpa using hbusy
      simp [hfree, hbusy]

/-- Calls that keep the ports keep the counters right. -/
theorem Counted.offer (h : Counted x) (hkeeps : KeepsPorts now x o) : Counted (offer now x o) := by
  cases htake : x.1.take o.uop.port with
  | none => rwa [offer_none htake]
  | some p =>
    have hfree := keepsPorts_iff.1 hkeeps (by rw [htake]; rfl)
    rw [offer_some htake, if_neg hfree]
    exact h.take htake

/-- At the start of a cycle nothing is taken. -/
theorem Counted.init : Counted (.init, []) :=
  ⟨rfl, rfl, Nat.zero_le _, Nat.zero_le _, fun _ _ _ => rfl⟩

/-- The counters are right for ports 2 and 34, and for ports 0, 1 and 5 unless there is a fourth micro-op. -/
theorem Counted.withinPorts_iff (h : Counted x) : WithinPorts (countPort x.2) 1 ↔ use015 (countPort x.2) ≤ 3 := by
  have hown (c : Port) (h05 : c ≠ .port05) (h015 : c ≠ .port015) : countPort x.2 c ≤ 1 := by
    rw [h.used c h05 h015]
    split_ifs <;> omega
  constructor
  · intro hwithin
    have h015 := hwithin.ports015
    omega
  · intro hle
    have h05 := h.generic05
    have hle05 := h.generic05_le
    exact ⟨hown _ (by decide) (by decide), hown _ (by decide) (by decide), hown _ (by decide) (by decide),
      hown _ (by decide) (by decide), hown _ (by decide) (by decide), by omega, by omega⟩

/-- Accepted micro-ops stay accepted. -/
theorem use015_offers (x : Cycle) (offers : List Offer) :
    use015 (countPort x.2) ≤ use015 (countPort (offers.foldl (offer now) x).2) := by
  induction offers generalizing x with
  | nil => exact le_refl _
  | cons o offers ih =>
    refine le_trans ?_ (ih (offer now x o))
    cases htake : x.1.take o.uop.port with
    | none => rw [offer_none htake]
    | some p =>
      rw [offer_some htake]
      dsimp only
      split_ifs
      · exact le_refl _
      · simp only [use015, countPort_append]
        omega

/-- A class with a free port that shares ports 0, 1 and 5 has one more micro-op then. -/
theorem use015_append (uops : List DynamicMicroOp) (u : DynamicMicroOp) :
    use015 (countPort (uops ++ [u])) = use015 (countPort uops) + if u.port.Shared then 1 else 0 := by
  simp only [use015, countPort_append, Port.Shared]
  cases u.port <;> simp <;> omega

/-- From right counters on, the calls are sound exactly when there was room for every micro-op. -/
theorem guarded_roomFor_iff (hcounted : Counted x) (hle : use015 (countPort x.2) ≤ 3) (offers : List Offer) :
    (use015 (countPort (offers.foldl (offer now) x).2) ≤ 3 ∧ (issuing now).Guarded (KeepsPorts now) x offers) ↔
      (issuing now).Guarded (fun x => RoomFor now x.1) x offers := by
  induction offers generalizing x with
  | nil => exact iff_of_true ⟨hle, trivial⟩ trivial
  | cons o offers ih =>
    rw [List.foldl_cons, guarded_cons, guarded_cons]
    -- one call
    have hstep (hkeeps : KeepsPorts now x o) :
        RoomFor now x.1 o ↔ use015 (countPort (offer now x o).2) ≤ 3 := by
      have hfree := keepsPorts_iff.1 hkeeps
      rw [RoomFor, hcounted.sharedTaken]
      cases htake : x.1.take o.uop.port with
      | none =>
        rw [offer_none htake]
        exact iff_of_true (fun h => by cases h) hle
      | some p =>
        have hfree := hfree (by rw [htake]; rfl)
        rw [offer_some htake, if_neg hfree]
        dsimp only
        rw [use015_append]
        by_cases hshared : o.uop.port.Shared
        · simp only [Option.isSome_some, hshared, if_true, forall_const]
          exact ⟨fun h => h.2, fun h => ⟨hfree, h⟩⟩
        · simp only [Option.isSome_some, hshared, if_false, forall_const, false_implies]
          exact ⟨fun _ => hle, fun _ => ⟨hfree, trivial⟩⟩
    constructor
    · rintro ⟨hend, hkeeps, hrest⟩
      have hnext : use015 (countPort (offer now x o).2) ≤ 3 := (use015_offers _ offers).trans hend
      exact ⟨(hstep hkeeps).2 hnext, (ih (hcounted.offer hkeeps) hnext).1 ⟨hend, hrest⟩⟩
    · rintro ⟨hroom, hrest⟩
      have hkeeps : KeepsPorts now x o := keepsPorts_iff.2 fun htake => (hroom htake).1
      obtain ⟨hend, hguarded⟩ := (ih (hcounted.offer hkeeps) ((hstep hkeeps).1 hroom)).2 hrest
      exact ⟨hend, hkeeps, hguarded⟩

/-- Calls that keep the ports keep the counters right to the end. -/
theorem Counted.offers (hcounted : Counted x) (offers : List Offer)
    (hkeeps : (issuing now).Guarded (KeepsPorts now) x offers) : Counted (offers.foldl (Rob.offer now) x) := by
  induction offers generalizing x with
  | nil => exact hcounted
  | cons o offers ih =>
    rw [guarded_cons] at hkeeps
    exact ih (hcounted.offer hkeeps.1) hkeeps.2

/-- The ports of a cycle are sound exactly when each call for which the counters have a port finds the arithmetic unit
free and, if it needs one of ports 0, 1 and 5, fewer than three micro-ops there in the two counters together. -/
theorem portsSound_iff (now : ℕ) (offers : List Offer) :
    PortsSound now offers ↔ (issuing now).Guarded (fun x => RoomFor now x.1) (.init, []) offers := by
  rw [← guarded_roomFor_iff .init (Nat.zero_le _), PortsSound, exists_ports_iff]
  constructor
  · exact fun h => ⟨h.2.1, h.2.2⟩
  · intro h
    have hcounted := Counted.init.offers offers h.2
    exact ⟨hcounted.withinPorts_iff.2 h.1, h.1, h.2⟩

/-- Two micro-ops for ports 0 and 5 and three for ports 0, 1 and 5. -/
def fiveOffers : List Offer :=
  [.port05, .port05, .port015, .port015, .port015].map fun c => ⟨{ DynamicMicroOp.plain with port := c }, 0⟩

/-- All five are accepted in one cycle. -/
theorem five_on_three_ports : ¬ ∀ now offers, PortsSound now offers := by
  intro h
  have hthree : use015 (countPort (fiveOffers.foldl (offer 0) (.init, [])).2) ≤ 3 := (h 0 fiveOffers).2.1
  exact absurd hthree (by decide)

end LifeSim.Rob

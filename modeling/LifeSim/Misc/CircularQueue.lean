import Mathlib
import LifeSim.Lib.CircularArray
import LifeSim.Lib.Transducer

/-!
# The circular queue

`circular_queue.h`: a queue in an array with one place more than it can have elements, so that it is empty exactly when
its two places are the same. The indices are 32-bit numbers. What the array holds at first is not known.
-/

namespace LifeSim.Misc

open LifeSim.Lib

variable {α : Type*}

/-- Why an operation on the queue does not return. -/
inductive QueueFault
  | assertion
  | endless
  deriving DecidableEq

/-- `CircularQueue`, with its `m_size`, `m_first`, `m_last` and `m_queue`. -/
structure CircularQueue (α : Type*) where
  mSize : ℕ
  /-- Next element to be inserted here. -/
  first : ℕ
  /-- Last element is here. -/
  last : ℕ
  queue : ℕ → α

/-- What is asked of a queue. `next` is followed by an assignment. -/
inductive QueueOp (α : Type*)
  | push (t : α)
  | pushCircular (t : α)
  | next (t : α)
  | pop
  | front
  | back
  | subscript (idx : ℕ)
  | checked (idx : ℕ)
  | iterate
  | size
  | full
  | empty

/-- What a queue answers. -/
inductive QueueAnswer (α : Type*)
  | done
  | element (t : α)
  | elements (l : List α)
  | number (n : ℕ)
  | flag (b : Bool)
  deriving DecidableEq

namespace CircularQueue

variable (q : CircularQueue α)

/-- The constructor. -/
def new (size : ℕ) (queue : ℕ → α) : CircularQueue α := ⟨(size + 1) % 2 ^ 32, 0, 0, queue⟩

/-- `full`. -/
def isFull : Bool := (q.first + 1) % 2 ^ 32 % q.mSize = q.last

/-- `empty`. -/
def isEmpty : Bool := q.first = q.last

def size : ℕ := (q.first + q.mSize + (2 ^ 32 - q.last)) % 2 ^ 32 % q.mSize

/-- An assignment to an element. -/
def assign (idx : ℕ) (t : α) : CircularQueue α := { q with queue := Function.update q.queue idx t }

def push (t : α) : Except QueueFault (CircularQueue α) :=
  if q.isFull then .error .assertion
  else .ok { q.assign q.first t with first := (q.first + 1) % 2 ^ 32 % q.mSize }

/-- `next`. It returns a reference to an element. -/
def next : Except QueueFault (CircularQueue α × ℕ) :=
  if q.isFull then .error .assertion
  else .ok ({ q with first := (q.first + 1) % 2 ^ 32 % q.mSize }, q.first)

def pop : Except QueueFault (CircularQueue α × α) :=
  if q.isEmpty then .error .assertion
  else .ok ({ q with last := (q.last + 1) % 2 ^ 32 % q.mSize }, q.queue q.last)

def pushCircular (t : α) : Except QueueFault (CircularQueue α) :=
  if q.isFull then
    match q.pop with
    | .ok (r, _) => r.push t
    | .error f => .error f
  else q.push t

def front : Except QueueFault α := if q.isEmpty then .error .assertion else .ok (q.queue q.last)

def back : Except QueueFault α :=
  if q.isEmpty then .error .assertion
  else .ok (q.queue ((q.first + q.mSize + (2 ^ 32 - 1)) % 2 ^ 32 % q.mSize))

/-- `operator[]`. -/
def subscript (idx : ℕ) : α := q.queue ((q.last + idx) % 2 ^ 32 % q.mSize)

/-- `at`. -/
def checked (idx : ℕ) : Except QueueFault α := if idx < q.size then .ok (q.subscript idx) else .error .assertion

/-- The elements from an iterator to the end. -/
def iterateFrom : ℕ → ℕ → Except QueueFault (List α)
  | 0, _ => .error .endless
  | fuel + 1, idx =>
    if idx = q.size then .ok []
    else match q.checked idx, iterateFrom fuel ((idx + 1) % 2 ^ 32) with
      | .ok t, .ok l => .ok (t :: l)
      | .ok _, .error f => .error f
      | .error f, _ => .error f

/-- A walk from `begin` to `end`. -/
def iterate : Except QueueFault (List α) := q.iterateFrom q.mSize 0

/-- One operation. -/
def step : QueueOp α → Except QueueFault (CircularQueue α × QueueAnswer α)
  | .push t => (q.push t).map fun r => (r, .done)
  | .pushCircular t => (q.pushCircular t).map fun r => (r, .done)
  | .next t => q.next.map fun p => (p.1.assign p.2 t, .done)
  | .pop => q.pop.map fun p => (p.1, .element p.2)
  | .front => q.front.map fun t => (q, .element t)
  | .back => q.back.map fun t => (q, .element t)
  | .subscript idx => .ok (q, .element (q.subscript idx))
  | .checked idx => (q.checked idx).map fun t => (q, .element t)
  | .iterate => q.iterate.map fun l => (q, .elements l)
  | .size => .ok (q, .number q.size)
  | .full => .ok (q, .flag q.isFull)
  | .empty => .ok (q, .flag q.isEmpty)

end CircularQueue

/-- The queue as a machine. -/
def circularQueue (α : Type*) : Transducer (CircularQueue α) (QueueOp α) (QueueAnswer α) QueueFault :=
  ⟨CircularQueue.step⟩

/-! ### A list with a bound -/

/-- The operation must not be called. -/
inductive NotAllowed
  | notAllowed
  deriving DecidableEq

/-- What the operations mean for the list of elements, the oldest one first, of which there are at most so many. -/
def fifoStep (capacity : ℕ) (l : List α) : QueueOp α → Except NotAllowed (List α × QueueAnswer α)
  | .push t => if l.length = capacity then .error .notAllowed else .ok (l ++ [t], .done)
  | .pushCircular t => .ok ((if l.length = capacity then l.tail else l) ++ [t], .done)
  | .next t => if l.length = capacity then .error .notAllowed else .ok (l ++ [t], .done)
  | .pop => match l with
    | [] => .error .notAllowed
    | t :: rest => .ok (rest, .element t)
  | .front => match l.head? with
    | none => .error .notAllowed
    | some t => .ok (l, .element t)
  | .back => match l.getLast? with
    | none => .error .notAllowed
    | some t => .ok (l, .element t)
  | .subscript idx => match l[idx]? with
    | none => .error .notAllowed
    | some t => .ok (l, .element t)
  | .checked idx => match l[idx]? with
    | none => .error .notAllowed
    | some t => .ok (l, .element t)
  | .iterate => .ok (l, .elements l)
  | .size => .ok (l, .number l.length)
  | .full => .ok (l, .flag (l.length = capacity))
  | .empty => .ok (l, .flag (l.length = 0))

/-- The list as a machine. -/
def boundedFifo (α : Type*) (capacity : ℕ) : Transducer (List α) (QueueOp α) (QueueAnswer α) NotAllowed :=
  ⟨fifoStep capacity⟩

/-- The queue holds the elements of the list, from its last place on. -/
structure Represents (capacity : ℕ) (q : CircularQueue α) (l : List α) : Prop where
  mSize : q.mSize = capacity + 1
  length : l.length ≤ capacity
  last : q.last < capacity + 1
  first : q.first = (q.last + l.length) % (capacity + 1)
  elements : circularRead q.queue (capacity + 1) q.last l.length = l

variable {capacity : ℕ} {q : CircularQueue α} {l : List α}

theorem represents_new (hcapacity : capacity + 1 < 2 ^ 31) (queue : ℕ → α) :
    Represents capacity (.new capacity queue) [] where
  mSize := Nat.mod_eq_of_lt (by omega)
  length := Nat.zero_le _
  last := Nat.succ_pos _
  first := (Nat.zero_mod _).symm
  elements := rfl

namespace Represents

variable (h : Represents capacity q l)
include h

theorem first_lt : q.first < capacity + 1 := by
  rw [h.first]
  exact Nat.mod_lt _ (Nat.succ_pos _)

/-- The next place, round the end. -/
theorem next_first (hcapacity : capacity + 1 < 2 ^ 31) :
    (q.first + 1) % 2 ^ 32 % q.mSize = (q.last + (l.length + 1)) % (capacity + 1) := by
  have hlt := h.first_lt
  rw [Nat.mod_eq_of_lt (b := 2 ^ 32) (by omega), h.mSize, h.first, Nat.mod_add_mod, Nat.add_assoc]

theorem isFull_iff (hcapacity : capacity + 1 < 2 ^ 31) : q.isFull = true ↔ l.length = capacity := by
  rw [CircularQueue.isFull, decide_eq_true_eq, h.next_first hcapacity]
  constructor
  · intro heq
    by_contra hne
    have hlt := h.length
    have hzero : (q.last + (l.length + 1)) % (capacity + 1) = (q.last + 0) % (capacity + 1) := by
      rw [heq, Nat.add_zero, Nat.mod_eq_of_lt h.last]
    have hinj := add_mod_injective (by omega) (by omega) hzero
    omega
  · intro heq
    rw [heq, Nat.add_mod_right, Nat.mod_eq_of_lt h.last]

theorem isEmpty_iff : q.isEmpty = true ↔ l = [] := by
  rw [CircularQueue.isEmpty, decide_eq_true_eq, h.first, ← List.length_eq_zero_iff]
  constructor
  · intro heq
    have hlt := h.length
    have hzero : (q.last + l.length) % (capacity + 1) = (q.last + 0) % (capacity + 1) := by
      rw [heq, Nat.add_zero, Nat.mod_eq_of_lt h.last]
    exact add_mod_injective (by omega) (by omega) hzero
  · intro heq
    rw [heq, Nat.add_zero, Nat.mod_eq_of_lt h.last]

theorem size_eq (hcapacity : capacity + 1 < 2 ^ 31) : q.size = l.length := by
  have hfirst := h.first_lt
  have hlast := h.last
  have hlength := h.length
  have hsum : q.first + (capacity + 1) + (2 ^ 32 - q.last) = q.first + (capacity + 1) - q.last + 2 ^ 32 := by omega
  rw [CircularQueue.size, h.mSize, hsum, Nat.add_mod_right, Nat.mod_eq_of_lt (b := 2 ^ 32) (by omega), h.first]
  exact add_sub_mod hlast (by omega)

/-- The element at a distance from the last place. -/
theorem subscript_eq (hcapacity : capacity + 1 < 2 ^ 31) {idx : ℕ} (hidx : idx < l.length) :
    l[idx]? = some (q.subscript idx) := by
  have hlast := h.last
  have hlength := h.length
  have hread : (circularRead q.queue (capacity + 1) q.last l.length)[idx]? =
      some (q.queue ((q.last + idx) % (capacity + 1))) := getElem?_circularRead hidx
  rw [h.elements] at hread
  rw [hread, CircularQueue.subscript, h.mSize, Nat.mod_eq_of_lt (b := 2 ^ 32) (by omega)]

/-- An element is written to the first place, which is moved on. -/
theorem append (hcapacity : capacity + 1 < 2 ^ 31) (hroom : l.length ≠ capacity) (t : α) :
    Represents capacity { q.assign q.first t with first := (q.first + 1) % 2 ^ 32 % q.mSize } (l ++ [t]) where
  mSize := h.mSize
  length := by
    have hlength := h.length
    rw [List.length_append, List.length_singleton]
    omega
  last := h.last
  first := by
    rw [List.length_append, List.length_singleton]
    exact h.next_first hcapacity
  elements := by
    have hlength := h.length
    rw [List.length_append, List.length_singleton]
    change circularRead (Function.update q.queue q.first t) _ q.last _ = _
    rw [h.first, circularRead_push (by omega), h.elements]

omit h in
/-- The last place is moved on. -/
theorem drop {a : α} {rest : List α} (h : Represents capacity q (a :: rest)) (hcapacity : capacity + 1 < 2 ^ 31) :
    q.queue q.last = a ∧ Represents capacity { q with last := (q.last + 1) % 2 ^ 32 % q.mSize } rest := by
  have hlast := h.last
  have hlength := h.length
  have helements := h.elements
  rw [List.length_cons] at hlength
  rw [List.length_cons, circularRead_succ, List.cons.injEq, Nat.mod_eq_of_lt hlast] at helements
  have hmove : (q.last + 1) % 2 ^ 32 % q.mSize = (q.last + 1) % (capacity + 1) := by
    rw [Nat.mod_eq_of_lt (b := 2 ^ 32) (by omega), h.mSize]
  refine ⟨helements.1, h.mSize, by omega, ?_, ?_, ?_⟩
  · change (q.last + 1) % 2 ^ 32 % q.mSize < _
    rw [hmove]
    exact Nat.mod_lt _ (Nat.succ_pos _)
  · change q.first = ((q.last + 1) % 2 ^ 32 % q.mSize + _) % _
    rw [hmove, Nat.mod_add_mod, h.first, List.length_cons, Nat.add_right_comm, Nat.add_assoc]
  · change circularRead q.queue _ ((q.last + 1) % 2 ^ 32 % q.mSize) _ = _
    rw [hmove, circularRead_mod]
    exact helements.2

theorem push (hcapacity : capacity + 1 < 2 ^ 31) (hroom : l.length ≠ capacity) (t : α) :
    ∃ r, q.push t = .ok r ∧ Represents capacity r (l ++ [t]) := by
  have hfull : ¬ q.isFull = true := fun hfull => hroom ((h.isFull_iff hcapacity).1 hfull)
  exact ⟨_, if_neg hfull, h.append hcapacity hroom t⟩

theorem next (hcapacity : capacity + 1 < 2 ^ 31) (hroom : l.length ≠ capacity) (t : α) :
    ∃ p, q.next = .ok p ∧ Represents capacity (p.1.assign p.2 t) (l ++ [t]) := by
  have hfull : ¬ q.isFull = true := fun hfull => hroom ((h.isFull_iff hcapacity).1 hfull)
  exact ⟨_, if_neg hfull, h.append hcapacity hroom t⟩

omit h in
theorem pop {a : α} {rest : List α} (h : Represents capacity q (a :: rest)) (hcapacity : capacity + 1 < 2 ^ 31) :
    ∃ r, q.pop = .ok (r, a) ∧ Represents capacity r rest := by
  have hempty : ¬ q.isEmpty = true := fun hempty => List.cons_ne_nil a rest (h.isEmpty_iff.1 hempty)
  obtain ⟨ha, hdrop⟩ := h.drop hcapacity
  refine ⟨_, ?_, hdrop⟩
  rw [CircularQueue.pop, if_neg hempty, ha]

/-- The oldest element makes room for the new one. -/
theorem pushCircular (hcapacity : capacity + 1 < 2 ^ 31) (hpos : 1 ≤ capacity) (t : α) :
    ∃ r, q.pushCircular t = .ok r ∧
      Represents capacity r ((if l.length = capacity then l.tail else l) ++ [t]) := by
  by_cases hlength : l.length = capacity
  · cases l with
    | nil =>
      rw [List.length_nil] at hlength
      omega
    | cons a rest =>
      obtain ⟨r, hpop, hrest⟩ := h.pop hcapacity
      have hroom : rest.length ≠ capacity := by
        rw [List.length_cons] at hlength
        omega
      obtain ⟨u, hpush, hu⟩ := hrest.push hcapacity hroom t
      refine ⟨u, ?_, by rwa [if_pos hlength]⟩
      rw [CircularQueue.pushCircular, if_pos ((h.isFull_iff hcapacity).2 hlength), hpop]
      exact hpush
  · obtain ⟨r, hpush, hr⟩ := h.push hcapacity hlength t
    refine ⟨r, ?_, by rwa [if_neg hlength]⟩
    rw [CircularQueue.pushCircular, if_neg fun hfull => hlength ((h.isFull_iff hcapacity).1 hfull)]
    exact hpush

theorem front {a : α} (ha : l.head? = some a) : q.front = .ok a := by
  obtain ⟨rest, rfl⟩ := List.head?_eq_some_iff.1 ha
  have hempty : ¬ q.isEmpty = true := fun hempty => List.cons_ne_nil a rest (h.isEmpty_iff.1 hempty)
  have helements := h.elements
  rw [List.length_cons, circularRead_succ, List.cons.injEq, Nat.mod_eq_of_lt h.last] at helements
  rw [CircularQueue.front, if_neg hempty, helements.1]

theorem back (hcapacity : capacity + 1 < 2 ^ 31) {a : α} (ha : l.getLast? = some a) : q.back = .ok a := by
  have hnil : l ≠ [] := by
    intro hnil
    rw [hnil] at ha
    cases ha
  have hempty : ¬ q.isEmpty = true := fun hempty => hnil (h.isEmpty_iff.1 hempty)
  have hpos := List.length_pos_of_ne_nil hnil
  have hlength := h.length
  have hfirst := h.first_lt
  have hread : (circularRead q.queue (capacity + 1) q.last l.length)[l.length - 1]? =
      some (q.queue ((q.last + (l.length - 1)) % (capacity + 1))) := getElem?_circularRead (by omega)
  have hplace : (q.first + q.mSize + (2 ^ 32 - 1)) % 2 ^ 32 % q.mSize = (q.last + (l.length - 1)) % (capacity + 1) := by
    have hsum : q.first + (capacity + 1) + (2 ^ 32 - 1) = q.first + capacity + 2 ^ 32 := by omega
    have hadd : q.last + l.length + capacity = q.last + (l.length - 1) + (capacity + 1) := by omega
    rw [h.mSize, hsum, Nat.add_mod_right, Nat.mod_eq_of_lt (b := 2 ^ 32) (by omega), h.first, Nat.mod_add_mod, hadd,
      Nat.add_mod_right]
  rw [h.elements, ← List.getLast?_eq_getElem?, ha, Option.some.injEq] at hread
  rw [CircularQueue.back, if_neg hempty, hplace, hread]

theorem checked (hcapacity : capacity + 1 < 2 ^ 31) {idx : ℕ} {a : α} (ha : l[idx]? = some a) :
    q.checked idx = .ok a := by
  have hidx : idx < l.length := (List.getElem?_eq_some_iff.1 ha).1
  have heq := h.subscript_eq hcapacity hidx
  rw [ha, Option.some.injEq] at heq
  rw [CircularQueue.checked, if_pos (by rwa [h.size_eq hcapacity]), heq]

/-- A walk returns the elements from a place on. -/
theorem iterateFrom (hcapacity : capacity + 1 < 2 ^ 31) {fuel idx : ℕ} (hidx : idx ≤ l.length)
    (hfuel : l.length - idx < fuel) : q.iterateFrom fuel idx = .ok (l.drop idx) := by
  induction fuel generalizing idx with
  | zero => omega
  | succ fuel ih =>
    have hlength := h.length
    rw [CircularQueue.iterateFrom, h.size_eq hcapacity]
    by_cases hend : idx = l.length
    · rw [if_pos hend, hend, List.drop_length]
    · have hlt : idx < l.length := by omega
      have hget : l[idx]? = some l[idx] := List.getElem?_eq_getElem hlt
      rw [if_neg hend, h.checked hcapacity hget, Nat.mod_eq_of_lt (by omega), ih (by omega) (by omega),
        List.drop_eq_getElem_cons hlt]

theorem iterate (hcapacity : capacity + 1 < 2 ^ 31) : q.iterate = .ok l := by
  have hlength := h.length
  rw [CircularQueue.iterate, h.mSize, h.iterateFrom hcapacity (Nat.zero_le _) (by omega), List.drop_zero]

/-- Every operation that is allowed returns what the list says. -/
theorem step (hcapacity : capacity + 1 < 2 ^ 31) (hpos : 1 ≤ capacity) {op : QueueOp α} {l' : List α}
    {answer : QueueAnswer α} (hop : fifoStep capacity l op = .ok (l', answer)) :
    ∃ r, q.step op = .ok (r, answer) ∧ Represents capacity r l' := by
  cases op with
  | push t =>
    rw [fifoStep] at hop
    split_ifs at hop with hfull
    cases hop
    obtain ⟨r, hr, hrep⟩ := h.push hcapacity hfull t
    exact ⟨r, by rw [CircularQueue.step, hr]; rfl, hrep⟩
  | pushCircular t =>
    cases hop
    obtain ⟨r, hr, hrep⟩ := h.pushCircular hcapacity hpos t
    exact ⟨r, by rw [CircularQueue.step, hr]; rfl, hrep⟩
  | next t =>
    rw [fifoStep] at hop
    split_ifs at hop with hfull
    cases hop
    obtain ⟨p, hp, hrep⟩ := h.next hcapacity hfull t
    exact ⟨_, by rw [CircularQueue.step, hp]; rfl, hrep⟩
  | pop =>
    cases l with
    | nil => cases hop
    | cons a rest =>
      cases hop
      obtain ⟨r, hr, hrep⟩ := h.pop hcapacity
      exact ⟨r, by rw [CircularQueue.step, hr]; rfl, hrep⟩
  | front =>
    rw [fifoStep] at hop
    split at hop
    · cases hop
    · rename_i a ha
      cases hop
      exact ⟨q, by rw [CircularQueue.step, h.front ha]; rfl, h⟩
  | back =>
    rw [fifoStep] at hop
    split at hop
    · cases hop
    · rename_i a ha
      cases hop
      exact ⟨q, by rw [CircularQueue.step, h.back hcapacity ha]; rfl, h⟩
  | subscript idx =>
    rw [fifoStep] at hop
    split at hop
    · cases hop
    · rename_i a ha
      cases hop
      have heq := h.subscript_eq hcapacity (List.getElem?_eq_some_iff.1 ha).1
      rw [ha, Option.some.injEq] at heq
      exact ⟨q, by rw [CircularQueue.step, heq], h⟩
  | checked idx =>
    rw [fifoStep] at hop
    split at hop
    · cases hop
    · rename_i a ha
      cases hop
      exact ⟨q, by rw [CircularQueue.step, h.checked hcapacity ha]; rfl, h⟩
  | iterate =>
    cases hop
    exact ⟨q, by rw [CircularQueue.step, h.iterate hcapacity]; rfl, h⟩
  | size =>
    cases hop
    exact ⟨q, by rw [CircularQueue.step, h.size_eq hcapacity], h⟩
  | full =>
    cases hop
    refine ⟨q, ?_, h⟩
    rw [CircularQueue.step, Bool.eq_iff_iff.2 ((h.isFull_iff hcapacity).trans decide_eq_true_iff.symm)]
  | empty =>
    cases hop
    refine ⟨q, ?_, h⟩
    have hlength : q.isEmpty = true ↔ l.length = 0 := h.isEmpty_iff.trans List.length_eq_zero_iff.symm
    rw [CircularQueue.step, Bool.eq_iff_iff.2 (hlength.trans decide_eq_true_iff.symm)]

end Represents

/-- **The circular queue is a list with a bound.** Whatever is asked of a new queue, as long as nothing is pushed onto a
full one by `push` or `next`, nothing is taken from an empty one and no index is beyond the elements, it answers as a list
does to whose end the elements are appended and from whose front they are taken. Afterwards it holds the elements
of the list in their order, its size is the length of the list, and it is full or empty when the list is. -/
theorem circularQueue_refines (capacity : ℕ) (hpos : 1 ≤ capacity) (hcapacity : capacity + 1 < 2 ^ 31) (queue : ℕ → α)
    (ops : List (QueueOp α)) (l : List α) (answers : List (QueueAnswer α))
    (hrun : (boundedFifo α capacity).run [] ops = .ok (l, answers)) :
    ∃ q, (circularQueue α).run (.new capacity queue) ops = .ok (q, answers) ∧ q.iterate = .ok l ∧
      (∀ i < l.length, l[i]? = some (q.subscript i)) ∧ q.size = l.length ∧
      (q.isFull = true ↔ l.length = capacity) ∧ (q.isEmpty = true ↔ l.length = 0) := by
  obtain ⟨q, hq, hrep⟩ := Transducer.run_refines (M := boundedFifo α capacity) (N := circularQueue α)
    (R := Represents capacity) (fun l q op l' answer hrep hop => hrep.step hcapacity hpos hop)
    (represents_new hcapacity queue) hrun
  exact ⟨q, hq, hrep.iterate hcapacity, fun i hi => hrep.subscript_eq hcapacity hi, hrep.size_eq hcapacity,
    hrep.isFull_iff hcapacity, hrep.isEmpty_iff.trans List.length_eq_zero_iff.symm⟩

/-- A queue for two elements goes round the end of its array. -/
def roundTheEnd : List (QueueOp ℕ) :=
  [.push 1, .next 2, .full, .pushCircular 3, .pop, .pushCircular 4, .back, .checked 1, .iterate]

theorem circularQueue_refines_roundTheEnd :
    ∃ q, (circularQueue ℕ).run (.new 2 fun _ => 0) roundTheEnd = .ok (q, [.done, .done, .flag true, .done, .element 2,
        .done, .element 4, .element 4, .elements [3, 4]]) ∧ q.iterate = .ok [3, 4] ∧
      (∀ i < 2, [3, 4][i]? = some (q.subscript i)) ∧ q.size = 2 ∧ (q.isFull = true ↔ 2 = 2) ∧
      (q.isEmpty = true ↔ 2 = 0) :=
  circularQueue_refines 2 (by decide) (by decide) (fun _ => 0) roundTheEnd [3, 4] _ rfl

end LifeSim.Misc

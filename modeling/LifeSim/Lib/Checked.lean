import Mathlib.Data.List.Basic
import Mathlib.Logic.Function.Basic

/-!
# Reasoning about checked computations

A checked computation returns a value or stops with a fault. `Ensures x Q F` says
what holds of the value in the first case and which faults are possible in the second.
The rules follow the structure of the computation, so that a function is analysed through
the specifications of the functions it calls and never by unfolding them.
-/

namespace LifeSim.Lib

universe u

variable {α β : Type u} {φ : Type*}

/-- A computation that returns at once hands its value on. -/
@[simp] theorem ok_bind (a : α) (f : α → Except φ β) : (.ok a >>= f) = f a := rfl

/-- A computation that stops at once does not come to the next one. -/
@[simp] theorem error_bind (e : φ) (f : α → Except φ β) : (.error e >>= f) = .error e := rfl

/-- A sequence of two computations that returns a value is two that do. -/
theorem exists_of_bind_ok {x : Except φ α} {f : α → Except φ β} {b : β} (h : (x >>= f) = .ok b) :
    ∃ a, x = .ok a ∧ f a = .ok b := by
  cases x with
  | ok a => exact ⟨a, rfl, h⟩
  | error e => cases h

/-- A function of the last value goes inside. -/
theorem map_bind_eq {γ : Type u} (x : Except φ α) (f : α → Except φ β) (g : β → γ) :
    (x >>= f).map g = x >>= fun a => (f a).map g := by
  cases x with
  | ok a => rfl
  | error e => rfl

/-- A function of the value does not change the fault. -/
theorem map_eq_error_iff {x : Except φ α} {f : α → β} {e : φ} : x.map f = .error e ↔ x = .error e := by
  cases x with
  | ok a =>
    constructor
    · intro h
      cases h
    · intro h
      cases h
  | error g =>
    constructor
    · intro h
      cases h
      rfl
    · intro h
      cases h
      rfl

/-- A sequence of two computations that stops has stopped in one of them. -/
theorem cases_of_bind_error {x : Except φ α} {f : α → Except φ β} {e : φ} (h : (x >>= f) = .error e) :
    x = .error e ∨ ∃ a, x = .ok a ∧ f a = .error e := by
  cases x with
  | ok a => exact .inr ⟨a, rfl, h⟩
  | error g =>
    cases h
    exact .inl rfl

/-- A computation whose second result is wanted has a first one as well. -/
theorem exists_of_map_snd_ok {x : Except φ (α × β)} {b : β} (h : Prod.snd <$> x = .ok b) : ∃ a, x = .ok (a, b) := by
  cases x with
  | ok p =>
    cases h
    exact ⟨p.1, rfl⟩
  | error e => cases h

theorem exists_of_isOk {x : Except φ α} (h : x.isOk = true) : ∃ a, x = .ok a := by
  cases x with
  | ok a => exact ⟨a, rfl⟩
  | error e => cases h

/-- The value meets `Q`, or the computation stopped with a fault that `F` allows. -/
def Ensures (x : Except φ α) (Q : α → Prop) (F : φ → Prop) : Prop :=
  match x with
  | .ok a => Q a
  | .error f => F f

namespace Ensures

variable {x : Except φ α} {Q R : α → Prop} {F G : φ → Prop}

/-- A computation that returns at once. -/
theorem ok {a : α} (h : Q a) : Ensures (.ok a : Except φ α) Q F := h

/-- A computation that stops at once. -/
theorem error {f : φ} (h : F f) : Ensures (.error f : Except φ α) Q F := h

/-- Sequencing: the second computation starts from what the first one ensures. -/
theorem bind {f : α → Except φ β} {R : β → Prop} (hx : Ensures x Q F)
    (hf : ∀ a, Q a → Ensures (f a) R F) : Ensures (x >>= f) R F := by
  cases x with
  | ok a => exact hf a hx
  | error e => exact hx

/-- A first computation of which nothing is asked. -/
theorem bind_any {f : α → Except φ β} {R : β → Prop} (hf : ∀ a, Ensures (f a) R fun _ => True) :
    Ensures (x >>= f) R fun _ => True := by
  cases x with
  | ok a => exact hf a
  | error e => trivial

/-- A function of the value. -/
theorem map {f : α → β} {R : β → Prop} (hx : Ensures x (fun a => R (f a)) F) : Ensures (f <$> x) R F := by
  cases x with
  | ok a => exact hx
  | error e => exact hx

/-- What is ensured may be weakened. -/
theorem mono (hx : Ensures x Q F) (hpost : ∀ a, Q a → R a)
    (hfault : ∀ f, F f → G f) : Ensures x R G := by
  cases x with
  | ok a => exact hpost a hx
  | error e => exact hfault e hx

/-- A second fact about the value, whatever it says about faults. -/
theorem and {G : φ → Prop} (hx : Ensures x Q F) (hx' : Ensures x R G) :
    Ensures x (fun a => Q a ∧ R a) F := by
  cases x with
  | ok a => exact ⟨hx, hx'⟩
  | error e => exact hx

/-- The value of a successful computation meets the postcondition. -/
theorem of_ok (hx : Ensures x Q F) {a : α} (h : x = .ok a) : Q a := by
  subst h
  exact hx

/-- A computation without faults returns a value. -/
theorem exists_ok (hx : Ensures x Q fun _ => False) : ∃ a, x = .ok a ∧ Q a := by
  cases x with
  | ok a => exact ⟨a, rfl, hx⟩
  | error e => exact hx.elim

/-- The fault of a failed computation is an allowed one. -/
theorem of_error (hx : Ensures x Q F) {f : φ} (h : x = .error f) : F f := by
  subst h
  exact hx

/-- A loop over a list keeps what each of its rounds keeps. -/
theorem foldlM {σ : Type u} {ι : Type*} {f : σ → ι → Except φ σ} {inv : σ → Prop} {l : List ι} {s : σ}
    (hf : ∀ s, ∀ b ∈ l, inv s → Ensures (f s b) inv F) (hs : inv s) :
    Ensures (l.foldlM f s) inv F := by
  induction l generalizing s with
  | nil => exact hs
  | cons b l ih =>
    rw [List.foldlM_cons]
    refine (hf s b (List.mem_cons_self ..) hs).bind fun s' hs' => ih (fun a c hc => ?_) hs'
    exact hf a c (List.mem_cons_of_mem b hc)

end Ensures

/-- What every round of a loop keeps, a loop without faults keeps. -/
theorem foldlM_ok_invariant {σ : Type u} {ι : Type*} {f : σ → ι → Except φ σ} {P : σ → Prop}
    (hf : ∀ s b t, P s → f s b = .ok t → P t) {l : List ι} {s t : σ} (hs : P s) (h : l.foldlM f s = .ok t) :
    P t := by
  induction l generalizing s with
  | nil =>
    cases h
    exact hs
  | cons b l ih =>
    rw [List.foldlM_cons] at h
    obtain ⟨s', hs', hrest⟩ := exists_of_bind_ok h
    exact ih (hf s b s' hs hs') hrest

/-- The fault of a computation, if it stops with one. -/
def faultOf : Except φ α → Option φ
  | .ok _ => none
  | .error f => some f

theorem faultOf_eq_some {x : Except φ α} {f : φ} : faultOf x = some f ↔ x = .error f := by
  cases x with
  | ok a => exact ⟨nofun, nofun⟩
  | error e => simp [faultOf]

end LifeSim.Lib

import Mathlib

/-!
# Little-endian bytes and exact parsers

Numbers are written with their low byte first. A parser reads from the front of a byte list and hands on what is left.
`Parses p b a` says that `p` reads exactly the bytes `b` and returns `a`, whatever follows them, and
`Rejects p b f` that it stops with the fault `f` as soon as it has seen `b`. Both are shown along the
structure of a parser, so that a record is decoded field by field.
-/

namespace LifeSim.Lib

/-- The low bytes of a number, lowest first. -/
def leBytes : ℕ → ℕ → List (BitVec 8)
  | 0, _ => []
  | n + 1, v => BitVec.ofNat 8 v :: leBytes n (v / 256)

/-- The number whose bytes these are. -/
def ofLeBytes : List (BitVec 8) → ℕ
  | [] => 0
  | b :: bs => b.toNat + 256 * ofLeBytes bs

@[simp] theorem length_leBytes (n v : ℕ) : (leBytes n v).length = n := by
  induction n generalizing v with
  | zero => rfl
  | succ n ih => simp [leBytes, ih]

/-- Reading back what was written loses only what did not fit. -/
theorem ofLeBytes_leBytes (n v : ℕ) : ofLeBytes (leBytes n v) = v % 256 ^ n := by
  induction n generalizing v with
  | zero => simp [leBytes, ofLeBytes, Nat.mod_one]
  | succ n ih =>
    have hpow : 256 ^ (n + 1) = 256 * 256 ^ n := by rw [Nat.pow_succ, Nat.mul_comm]
    rw [leBytes, ofLeBytes, ih, BitVec.toNat_ofNat, hpow, Nat.mod_mul]

/-- A machine word comes back from its bytes. -/
theorem ofNat_ofLeBytes {w n : ℕ} (hw : 2 ^ w = 256 ^ n) (v : BitVec w) :
    BitVec.ofNat w (ofLeBytes (leBytes n v.toNat)) = v := by
  apply BitVec.eq_of_toNat_eq
  rw [ofLeBytes_leBytes, BitVec.toNat_ofNat, ← hw, Nat.mod_mod, Nat.mod_eq_of_lt v.isLt]

variable {φ : Type} {α β : Type}

/-- A parser over bytes that may stop with a fault. -/
abbrev Parser (φ : Type) := StateT (List (BitVec 8)) (Except φ)

namespace Parser

/-- Stop with a fault. -/
def fail (f : φ) : Parser φ α := fun _ => .error f

/-- Check a condition on what was read. -/
def check (c : Prop) [Decidable c] (f : φ) : Parser φ Unit := if c then pure () else fail f

/-- Read a number of bytes. -/
def read (n : ℕ) (f : φ) : Parser φ (List (BitVec 8)) := fun input =>
  if n ≤ input.length then .ok (input.take n, input.drop n) else .error f

end Parser

/-- The parser reads exactly these bytes and returns this value. -/
def Parses (p : Parser φ α) (b : List (BitVec 8)) (a : α) : Prop :=
  ∀ rest, p (b ++ rest) = .ok (a, rest)

/-- The parser stops with a fault after these bytes. -/
def Rejects (p : Parser φ α) (b : List (BitVec 8)) (f : φ) : Prop :=
  ∀ rest, p (b ++ rest) = .error f

namespace Parses

variable {p : Parser φ α} {q : α → Parser φ β} {b c : List (BitVec 8)} {a : α} {x : β} {f : φ}

/-- Nothing is read. -/
theorem pure (a : α) : Parses (Pure.pure a : Parser φ α) [] a := fun _ => rfl

/-- One parser after the other. -/
theorem bind (hp : Parses p b a) (hq : Parses (q a) c x) : Parses (p >>= q) (b ++ c) x := by
  intro rest
  have hfirst := hp (c ++ rest)
  rw [← List.append_assoc] at hfirst
  change (p (b ++ c ++ rest) >>= fun r => q r.1 r.2) = _
  rw [hfirst]
  exact hq rest

/-- The value of a parser is processed further without reading. -/
theorem bind_nil (hp : Parses p b a) (hq : Parses (q a) [] x) : Parses (p >>= q) b x := by
  have h := hp.bind hq
  rwa [List.append_nil] at h

/-- The value of a parser is changed by a function. -/
theorem map (hp : Parses p b a) (g : α → β) : Parses (p >>= fun a => Pure.pure (g a)) b (g a) :=
  hp.bind_nil (q := fun a => Pure.pure (g a)) (pure (g a))

/-- A check that holds. -/
theorem check {c : Prop} [Decidable c] (h : c) : Parses (Parser.check c f) [] () := by
  rw [Parser.check, if_pos h]
  exact pure ()

/-- A check that holds, and what comes after it. -/
theorem check_bind {c : Prop} [Decidable c] {p : Unit → Parser φ α} (h : c) (hp : Parses (p ()) b a) :
    Parses (Parser.check c f >>= p) b a :=
  (check h).bind hp

/-- As many bytes as there are. -/
theorem read {n : ℕ} (h : b.length = n) : Parses (Parser.read n f) b b := by
  intro rest
  subst h
  simp [Parser.read]

end Parses

namespace Rejects

variable {p : Parser φ α} {q : α → Parser φ β} {b c : List (BitVec 8)} {a : α} {f : φ}

/-- The first parser is through, and the second stops. -/
theorem bind (hp : Parses p b a) (hq : Rejects (q a) c f) : Rejects (p >>= q) (b ++ c) f := by
  intro rest
  have hfirst := hp (c ++ rest)
  rw [← List.append_assoc] at hfirst
  change (p (b ++ c ++ rest) >>= fun r => q r.1 r.2) = _
  rw [hfirst]
  exact hq rest

/-- A check that fails. -/
theorem check_bind {c : Prop} [Decidable c] {p : Unit → Parser φ α} (h : ¬ c) :
    Rejects (Parser.check c f >>= p) [] f := by
  intro rest
  rw [Parser.check, if_neg h]
  rfl

/-- What comes later does not matter. -/
theorem append (hp : Rejects p b f) (c : List (BitVec 8)) : Rejects p (b ++ c) f := by
  intro rest
  rw [List.append_assoc]
  exact hp (c ++ rest)

end Rejects

end LifeSim.Lib

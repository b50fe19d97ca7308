import LifeSim.Sift.Protocol
import LifeSim.Sift.Stream

/-!
# Requests are procedure calls

The two processes of the protocol do what direct calls of the handlers would do: every call returns the value of
its handler, and every access of a handler reaches the memory of the traced program once and in its order. In every
interleaving at most one record of an exchange is in flight, and `Stage` says which one it is and who reads it.

That holds when the size field of every record can count its data. A system call with `2 ^ 32 - 2` bytes of data or more
is refused by the reader, and a memory write of `2 ^ 32 - 20` bytes or more by the writer, since the size wraps around.
And a call of `SYS_futex` or `SYS_write` must come with the argument that is an address, at which the writer can read.
-/

namespace LifeSim.Sift

open LifeSim.Lib

variable {α σ μ : Type}

/-! ### The calls without the protocol -/

/-- An access to the memory of the traced program, and the data that it reads. -/
def Memory.perform (M : Memory μ) (m : μ) : Access → μ × List Byte
  | .read mode addr size => M.read m mode addr size.toNat
  | .write mode addr data => (M.write m mode addr data, [])

/-- A handler as a procedure: its result, the memory after it, and its accesses. -/
def Prog.exec (M : Memory μ) : Prog α → μ → α × μ × List (Access × List Byte)
  | .ret a, m => (a, m, [])
  | .access a k, m =>
    let (m, data) := M.perform m a
    let (x, m, performed) := (k data).exec M m
    (x, m, (a, data) :: performed)

/-- What a sequence of calls comes to. -/
structure Outcome (σ μ : Type) where
  instructions : List Insn
  returned : List (Request × Value)
  performed : List (Access × List Byte)
  handlerState : σ
  memory : μ

/-- The outcome when other things have happened before. -/
def Outcome.after (instructions : List Insn) (returned : List (Request × Value)) (performed : List (Access × List Byte))
    (o : Outcome σ μ) : Outcome σ μ :=
  { o with
    instructions := instructions ++ o.instructions
    returned := returned ++ o.returned
    performed := performed ++ o.performed }

/-- The calls as procedure calls. -/
def Context.direct (ctx : Context σ μ) : List ClientCall → σ → μ → Outcome σ μ
  | [], h, m => ⟨[], [], [], h, m⟩
  | .instruction i _ :: calls, h, m => (ctx.direct calls h m).after [i] [] []
  | .request q _ _ :: calls, h, m =>
    let ((h, v), m, performed) := (ctx.handler h q).exec ctx.memory m
    (ctx.direct calls h m).after [] [(q, v)] performed

/-- The rest of a handler, and the calls after it. -/
def Context.resume (ctx : Context σ μ) (q : Request) (p : Prog (σ × Value)) (calls : List ClientCall) (m : μ) :
    Outcome σ μ :=
  let ((h, v), m, performed) := p.exec ctx.memory m
  (ctx.direct calls h m).after [] [(q, v)] performed

theorem Outcome.after_after (o : Outcome σ μ) (is is' : List Insn) (rs rs' : List (Request × Value))
    (ps ps' : List (Access × List Byte)) :
    (o.after is rs ps).after is' rs' ps' = o.after (is' ++ is) (rs' ++ rs) (ps' ++ ps) := by
  simp [Outcome.after, List.append_assoc]

namespace Context

variable (ctx : Context σ μ)

theorem resume_ret (q : Request) (h : σ) (v : Value) (calls : List ClientCall) (m : μ) :
    ctx.resume q (.ret (h, v)) calls m = (ctx.direct calls h m).after [] [(q, v)] [] := rfl

theorem resume_access (q : Request) (a : Access) (k : List Byte → Prog (σ × Value)) (calls : List ClientCall) (m : μ) :
    ctx.resume q (.access a k) calls m
      = (ctx.resume q (k (ctx.memory.perform m a).2) calls (ctx.memory.perform m a).1).after [] []
          [(a, (ctx.memory.perform m a).2)] := by
  rw [resume, resume, Outcome.after_after]
  rfl

end Context

/-- `handleAccessMemoryFunc` is called and its result is reported. -/
theorem System.serve_eq (ctx : Context σ μ) (a : Access) (s : System σ μ) : s.serve ctx a =
    { s with
      memory := (ctx.memory.perform s.memory a).1
      requests := s.requests ++ memoryResponse a.addrOf a.opCode (ctx.memory.perform s.memory a).2
      served := s.served ++ [(a, (ctx.memory.perform s.memory a).2)] } := by
  cases a <;> rfl

/-! ### Data that fits -/

/-- The data of a request can be counted by the size field. -/
def Request.Fits : Request → Prop
  | .syscall _ data => 0 < data.length ∧ data.length < 2 ^ 32 - 2
  | _ => True

/-- The data of an access can be counted by the size field. -/
def Access.Fits : Access → Prop
  | .read _ _ size => 0 < size.toNat
  | .write _ _ data => 0 < data.length ∧ data.length < 2 ^ 32 - 20

/-- The number of bytes that an access gives back. -/
def Access.resultSize : Access → ℕ
  | .read _ _ size => size.toNat
  | .write _ _ _ => 0

/-- A handler returns what the call expects. Before that it makes accesses that fit, if the writer handles any. -/
def Prog.Handles (q : Request) : Prog (σ × Value) → Prop
  | .ret (_, v) => q.Returns v
  | .access a k => q.handlesMemory = true ∧ a.Fits ∧ ∀ data, data.length = a.resultSize → (k data).Handles q

theorem Memory.length_perform (M : Memory μ) (m : μ) (a : Access) : (M.perform m a).2.length = a.resultSize := by
  cases a with
  | read mode addr size => exact M.length_read m mode addr size.toNat
  | write mode addr data => rfl

/-! ### Records of an exchange -/

namespace Response

theorem parses_bytes {n : ℕ} {b : List Byte} (h : b.length = n) : Parses (bytes n) b b := Parses.read h

theorem parses_number {n v : ℕ} (h : v < 256 ^ n) : Parses (number n) (leBytes n v) v := by
  have hmap := (parses_bytes (length_leBytes n v)).map ofLeBytes
  rw [ofLeBytes_leBytes, Nat.mod_eq_of_lt h] at hmap
  exact hmap

theorem parses_code (b : Byte) : Parses (number 1) [b] b.toNat := (parses_bytes (b := [b]) rfl).map ofLeBytes

theorem parses_word (v : Word) : Parses word (wordBytes v) v := by
  have hmap := (parses_number (n := 8) v.isLt).map (BitVec.ofNat 64)
  rw [BitVec.ofNat_toNat, BitVec.setWidth_eq] at hmap
  exact hmap

/-- The header of a record, whatever is done with it. -/
theorem parses_header {type : RecOtherType} {size : ℕ} {b : List Byte} {x : α}
    {p : ℕ → ℕ → ℕ → Parser ProtocolFault α} (h : Parses (p 0 type.code.toNat (size % 2 ^ 32)) b x) :
    Parses (do let first ← number 1; let code ← number 1; let size ← number 4; p first code size)
      (otherHeader type size ++ b) x := by
  have hsize : Parses (number 4) (leBytes 4 size) (size % 2 ^ 32) := by
    have hmap := (parses_bytes (length_leBytes 4 size)).map ofLeBytes
    rw [ofLeBytes_leBytes] at hmap
    exact hmap
  exact (parses_code 0).bind (c := type.code :: leBytes 4 size ++ b)
    ((parses_code type.code).bind (c := leBytes 4 size ++ b) (hsize.bind h))

end Response

theorem LockType.ofCode_code (mode : LockType) : ofCode mode.code = mode := by
  cases mode <;> rfl

/-- A machine word is not changed by its width in bytes. -/
theorem ofNat_mod {w n : ℕ} (hw : 2 ^ w = 256 ^ n) (v : BitVec w) : BitVec.ofNat w (v.toNat % 256 ^ n) = v := by
  rw [← hw, Nat.mod_eq_of_lt v.isLt, BitVec.ofNat_toNat, BitVec.setWidth_eq]

theorem ofNat_wordBytes (v : Word) : BitVec.ofNat 64 (ofLeBytes (wordBytes v)) = v := ofNat_ofLeBytes rfl v

/-- The reader recognises a request. -/
theorem Request.parses_record (r : Reader) {q : Request} (hq : q.Fits) :
    ∃ item, item.request = some q ∧ Parses (Reader.readRecord r) q.record (r, some item) := by
  cases q with
  | instructionCount icount =>
    have hbody : Parses (Reader.readBody .instructionCount (4 % 2 ^ 32) r) (leBytes 4 icount.toNat)
        (r, some (.instructionCount (BitVec.ofNat 32 (icount.toNat % 256 ^ 4)))) :=
      Parses.check_bind rfl ((Reader.parses_number 4 icount.toNat).bind_nil (Parses.pure _))
    refine ⟨_, ?_, Reader.parses_other hbody⟩
    rw [ofNat_mod rfl]
    rfl
  | newThread => exact ⟨.newThread, rfl, Reader.parses_other (b := []) (Parses.check_bind rfl (Parses.pure _))⟩
  | join thread =>
    have hbody : Parses (Reader.readBody .join (4 % 2 ^ 32) r) (leBytes 4 thread.toNat)
        (r, some (.join (BitVec.ofNat 32 (thread.toNat % 256 ^ 4)))) :=
      Parses.check_bind rfl ((Reader.parses_number 4 thread.toNat).bind_nil (Parses.pure _))
    refine ⟨_, ?_, Reader.parses_other hbody⟩
    rw [ofNat_mod rfl]
    rfl
  | fork => exact ⟨.fork, rfl, Reader.parses_other (b := []) (Parses.check_bind rfl (Parses.pure _))⟩
  | sync => exact ⟨.sync, rfl, Reader.parses_other (b := []) (Parses.check_bind rfl (Parses.pure _))⟩
  | syscall number data =>
    obtain ⟨hpos, hlt⟩ := hq
    have hsize : (2 + data.length) % 2 ^ 32 = 2 + data.length := Nat.mod_eq_of_lt (by omega)
    have hbody : Parses (Reader.readBody .syscallRequest ((2 + data.length) % 2 ^ 32) r)
        (leBytes 2 number.toNat ++ data) (r, some (.syscall (BitVec.ofNat 16 (number.toNat % 256 ^ 2)) data)) := by
      rw [hsize]
      refine Parses.check_bind (show 2 + data.length > 2 by omega) ((Reader.parses_number 2 number.toNat).bind ?_)
      exact (Reader.parses_bytes (by omega)).bind_nil (Parses.pure _)
    refine ⟨.syscall (BitVec.ofNat 16 (number.toNat % 256 ^ 2)) data, ?_, ?_⟩
    · rw [ofNat_mod rfl]
      rfl
    · rw [record, List.append_assoc]
      exact Reader.parses_other hbody
  | magic a b c =>
    refine ⟨.magic a b c, rfl, ?_⟩
    rw [record, List.append_assoc, List.append_assoc]
    exact Reader.parses_other (Parses.check_bind rfl ((Reader.parses_word a).bind ((Reader.parses_word b).bind
      ((Reader.parses_word c).bind_nil (Parses.pure _)))))
  | emulate type req =>
    have hlength : (wordBytes req).length = Reader.sizeMinus ((2 + 8) % 2 ^ 32) 2 := by
      rw [length_wordBytes, Reader.sizeMinus]
      decide
    have hbody : Parses (Reader.readBody .emu ((2 + 8) % 2 ^ 32) r) (leBytes 2 type.toNat ++ wordBytes req)
        (r, some (.emu (BitVec.ofNat 16 (type.toNat % 256 ^ 2)) (wordBytes req))) :=
      Parses.check_bind (by decide) ((Reader.parses_number 2 type.toNat).bind
        ((Reader.parses_bytes hlength).bind_nil (Parses.pure _)))
    rw [ofNat_mod (w := 16) rfl] at hbody
    have hitem : (Item.emu type (wordBytes req)).request = some (.emulate type req) :=
      congrArg (fun v => some (emulate type v)) (ofNat_wordBytes req)
    have hrecord : Parses (Reader.readRecord r) (emulate type req).record (r, some (.emu type (wordBytes req))) := by
      rw [record, List.append_assoc]
      exact Reader.parses_other hbody
    exact ⟨.emu type (wordBytes req), hitem, hrecord⟩

/-- The bytes of a value are understood as that value. -/
theorem Request.parses_value {q : Request} {v : Value} (h : q.Returns v) :
    Parses (q.readValue v.bytes.length) v.bytes v := by
  have hnumber : ∀ {β : Type} (f : ℕ → β) (v : BitVec 32),
      Parses (do return f (← Response.number 4)) (leBytes 4 v.toNat) (f v.toNat) := by
    intro β f v
    exact (Response.parses_number (n := 4) v.isLt).map f
  have hmode : ∀ v : BitVec 32, Value.mode (BitVec.ofNat 32 v.toNat) = .mode v := by simp
  have hint : ∀ v : BitVec 32, Value.int (BitVec.ofNat 32 v.toNat) = .int v := by simp
  cases q <;> cases v <;> try exact h.elim
  case instructionCount.mode _ m =>
    have hvalue := hnumber (fun n => Value.mode (BitVec.ofNat 32 n)) m
    rw [hmode] at hvalue
    exact Parses.check_bind (length_leBytes 4 m.toNat) hvalue
  case sync.mode m =>
    have hvalue := hnumber (fun n => Value.mode (BitVec.ofNat 32 n)) m
    rw [hmode] at hvalue
    exact Parses.check_bind (length_leBytes 4 m.toNat) hvalue
  case newThread.int v =>
    have hvalue := hnumber (fun n => Value.int (BitVec.ofNat 32 n)) v
    rw [hint] at hvalue
    exact Parses.check_bind (length_leBytes 4 v.toNat) hvalue
  case join.int _ v =>
    have hvalue := hnumber (fun n => Value.int (BitVec.ofNat 32 n)) v
    rw [hint] at hvalue
    exact Parses.check_bind (length_leBytes 4 v.toNat) hvalue
  case fork.int v =>
    have hvalue := hnumber (fun n => Value.int (BitVec.ofNat 32 n)) v
    rw [hint] at hvalue
    exact Parses.check_bind (length_leBytes 4 v.toNat) hvalue
  case syscall.word _ _ v => exact Parses.check_bind (length_wordBytes v) ((Response.parses_word v).map Value.word)
  case magic.word _ _ _ v => exact Parses.check_bind (length_wordBytes v) ((Response.parses_word v).map Value.word)
  case emulate.emu _ _ handled a b c =>
    obtain ⟨x, hx⟩ : ∃ x : Byte, x = if handled then 1 else 0 := ⟨_, rfl⟩
    have hhandled : decide (x.toNat ≠ 0) = handled := by
      rw [hx]
      cases handled <;> rfl
    have hbytes : (Value.emu handled a b c).bytes = [x] ++ (wordBytes a ++ (wordBytes b ++ wordBytes c)) := by
      rw [Value.bytes, ← hx, List.append_assoc, List.append_assoc]
    rw [hbytes]
    have hlength : ([x] ++ (wordBytes a ++ (wordBytes b ++ wordBytes c))).length = 25 := by simp
    rw [hlength]
    refine Parses.check_bind (by decide) ((Response.parses_code x).bind ((Response.parses_bytes (by simp)).bind_nil ?_))
    have hvalue : Value.emu (decide (x.toNat ≠ 0))
        (BitVec.ofNat 64 (ofLeBytes ((wordBytes a ++ (wordBytes b ++ wordBytes c)).take 8)))
        (BitVec.ofNat 64 (ofLeBytes (((wordBytes a ++ (wordBytes b ++ wordBytes c)).drop 8).take 8)))
        (BitVec.ofNat 64 (ofLeBytes (((wordBytes a ++ (wordBytes b ++ wordBytes c)).drop 16).take 8)))
        = .emu handled a b c := by
      have hdrop : (wordBytes a ++ (wordBytes b ++ wordBytes c)).drop 16 = wordBytes c := by
        rw [← List.append_assoc, List.drop_left' (by simp)]
      have htake : (wordBytes c).take 8 = wordBytes c := List.take_of_length_le (by simp)
      rw [List.take_left' (length_wordBytes a), List.drop_left' (length_wordBytes a),
        List.take_left' (length_wordBytes b), hdrop, htake, ofNat_wordBytes, ofNat_wordBytes, ofNat_wordBytes, hhandled]
    rw [← hvalue]
    exact Parses.pure _

/-- A waiting call gets the value that its handler returned. -/
theorem Request.parses_response {q : Request} {v : Value} (h : q.Returns v) :
    Parses q.readAnswer (q.response v) (.value v) := by
  have hsize : v.bytes.length % 2 ^ 32 = v.bytes.length := by
    cases v <;> simp [Value.bytes]
  refine Response.parses_header (Parses.check_bind rfl ?_)
  rw [if_pos rfl, hsize]
  exact (parses_value h).map Answer.value

/-- A waiting call gets the access that a handler asks for. -/
theorem Request.parses_access {q : Request} (hq : q.handlesMemory = true) {a : Access} (ha : a.Fits) :
    Parses q.readAnswer a.record (.access a) := by
  have hcode : ∀ mode : LockType, mode.code < 256 ^ 4 := by
    intro mode
    cases mode <;> decide
  have htype : RecOtherType.memoryRequest.code.toNat ≠ q.responseType.code.toNat := by
    cases q <;> rw [responseType] <;> decide
  have hread : Parses (readAccess ((20 + a.payload.length) % 2 ^ 32))
      (wordBytes a.addrOf ++ (leBytes 4 a.dataSize ++ (leBytes 4 a.lockOf.code ++
        (leBytes 4 a.opCode ++ a.payload)))) a := by
    cases a with
    | read mode addr size =>
      have hsize : (20 + (Access.read mode addr size).payload.length) % 2 ^ 32 = 20 := rfl
      rw [hsize]
      refine Parses.check_bind (by decide) ((Response.parses_word addr).bind ((Response.parses_number size.isLt).bind
        ((Response.parses_number (hcode mode)).bind ((Response.parses_number (show 1 < 256 ^ 4 by decide)).bind ?_))))
      rw [if_pos rfl, LockType.ofCode_code, Access.dataSize, BitVec.ofNat_toNat, BitVec.setWidth_eq]
      exact Parses.check_bind ⟨rfl, ha⟩ (Parses.pure _)
    | write mode addr data =>
      obtain ⟨hpos, hlt⟩ := ha
      have hsize : (20 + (Access.write mode addr data).payload.length) % 2 ^ 32 = 20 + data.length :=
        Nat.mod_eq_of_lt (by rw [Access.payload]; omega)
      rw [hsize]
      refine Parses.check_bind (by omega) ((Response.parses_word addr).bind
        ((Response.parses_number (show data.length < 256 ^ 4 by omega)).bind ((Response.parses_number (hcode mode)).bind
          ((Response.parses_number (show 2 < 256 ^ 4 by decide)).bind ?_))))
      rw [if_neg (by decide), if_pos rfl, LockType.ofCode_code]
      refine Parses.check_bind (by omega) ((Response.parses_bytes ?_).bind_nil (Parses.pure _))
      rw [Access.payload]
      omega
  refine Response.parses_header (Parses.check_bind rfl ?_)
  rw [if_neg htype, if_pos ⟨rfl, hq⟩]
  exact hread.map Answer.access

/-- A handler gets the result of its access. -/
theorem Access.parses_result (a : Access) {data : List Byte} (h : data.length = a.resultSize) :
    Parses a.readResult (memoryResponse a.addrOf a.opCode data) data := by
  have hopCode : a.opCode < 256 ^ 4 := by
    cases a <;> rw [opCode] <;> decide
  have hsize : ((12 + data.length) % 2 ^ 32 + 2 ^ 64 - 12) % 2 ^ 32 = data.length % 2 ^ 32 := by omega
  refine Response.parses_header (Parses.check_bind rfl ((Response.parses_word _).bind
    ((Response.parses_number hopCode).bind (Parses.check_bind rfl ?_))))
  rw [hsize, h]
  cases a with
  | read mode addr size =>
    exact Parses.check_bind (Nat.mod_eq_of_lt size.isLt).symm (Response.parses_bytes h)
  | write mode addr data =>
    rw [List.length_eq_zero_iff.1 h]
    exact Parses.check_bind rfl (Parses.pure _)

end LifeSim.Sift

import LifeSim.Sift.Lockstep

/-!
# Whole traces

A sequence of one-way calls of the writer, followed by the end record, is read by calls of `Read` until the end is seen.
The reader returns the instructions and calls the handlers in the order of the writer's calls. That holds for
instructions in both modes of sending code. Among the other calls it holds for an output that is neither empty nor as long
as 32 bits can count, and for routine names whose length fits into 16 bits with the final zero.
-/

namespace LifeSim.Sift

open LifeSim.Lib

/-! ### The calls -/

/-- The one-way calls of the writer. -/
inductive Call
  | instruction (i : Insn)
  | cacheOnly (icount : Byte) (type : CacheOnlyType) (eip address : Word)
  | output (fd : Byte) (data : Payload)
  | routineChange (event : RoutineOpType) (eip esp callEip : Word)
  | routineAnnounce (routine : Routine)
  deriving DecidableEq

/-- A call with the page map that it finds. -/
structure TimedCall where
  call : Call
  pagemap : Word → Word

/-- What a call appends to the trace. -/
def Writer.call (cfg : Config) (code : Word → Byte) (c : TimedCall) (w : Writer) :
    Except WriterFault (Writer × List Byte) :=
  match c.call with
  | .instruction i => w.instruction code c.pagemap cfg i
  | .cacheOnly icount type eip address => .ok (w.cacheOnly c.pagemap cfg icount type eip address)
  | .output fd data => .ok (w, Writer.output fd data)
  | .routineChange event eip esp callEip => .ok (w, Writer.routineChange event eip esp callEip)
  | .routineAnnounce routine => .ok (w, Writer.routineAnnounce routine)

/-- A sequence of calls, with all that it appends to the trace. -/
def Writer.calls (cfg : Config) (code : Word → Byte) : List TimedCall → Writer → Except WriterFault (Writer × List Byte)
  | [], w => .ok (w, [])
  | c :: cs, w =>
    match w.call cfg code c with
    | .error f => .error f
    | .ok (w, sent) =>
      match Writer.calls cfg code cs w with
      | .error f => .error f
      | .ok (w, rest) => .ok (w, sent ++ rest)

/-- The trace of a sequence of calls. -/
def Writer.trace (cfg : Config) (code : Word → Byte) (cs : List TimedCall) : Except WriterFault (List Byte) :=
  match Writer.calls cfg code cs .new with
  | .error f => .error f
  | .ok (_, sent) => .ok (Writer.header cfg ++ (sent ++ Writer.finish))

namespace Reader

/-- Calls of `Read` until the end has been seen, and what each of them leads to. -/
def readAll : ℕ → Reader → List Byte → Except ReaderFault (List (List Item))
  | 0, _, _ => .error .endOfStream
  | fuel + 1, r, input =>
    match read r input with
    | .error f => .error f
    | .ok (r, items, rest) =>
      if r.seenEnd then .ok [items]
      else
        match readAll fuel r rest with
        | .error f => .error f
        | .ok calls => .ok (items :: calls)

/-- The records of a trace up to its end: the bytes that were read for each, and what it led to. -/
def readRecords : ℕ → Reader → List Byte → Except ReaderFault (List (List Byte × Option Item))
  | 0, _, _ => .error .endOfStream
  | fuel + 1, r, input =>
    match readRecord r input with
    | .error f => .error f
    | .ok ((r, item), rest) =>
      if r.seenEnd then .ok [(input.take (input.length - rest.length), item)]
      else
        match readRecords fuel r rest with
        | .error f => .error f
        | .ok records => .ok ((input.take (input.length - rest.length), item) :: records)

end Reader

/-- The reader on a trace, as calls of `Read`. -/
def readTrace (input : List Byte) : Except ReaderFault (List (List Item)) :=
  match Reader.initStream .new input with
  | .error f => .error f
  | .ok (r, rest) => Reader.readAll (rest.length + 1) r rest

/-- The records of a trace after its header. -/
def traceRecords (input : List Byte) : Except ReaderFault (List (List Byte × Option Item)) :=
  match Reader.initStream .new input with
  | .error f => .error f
  | .ok (r, rest) => Reader.readRecords (rest.length + 1) r rest

/-- The C string in a buffer, if there is one. -/
def cString (buffer : List Byte) : Option (List Byte) :=
  if (0 : Byte) ∈ buffer then some (buffer.takeWhile fun b => b ≠ 0) else none

/-- A handler gets the arguments of the call. -/
def Call.Shown (code : Word → Byte) : Call → Item → Prop
  | .instruction i, .instruction inst sinst => i.Shown code inst sinst
  | .cacheOnly icount type eip address, item => item = .cacheOnly icount type.code eip address
  | .output fd data, item => item = .output fd data.bytes
  | .routineChange event eip esp callEip, item => item = .routineChange event.code eip esp callEip
  | .routineAnnounce routine, .routineAnnounce eip name imgname offset line column filename =>
    eip = routine.eip ∧ cString name = some routine.name.chars ∧ cString imgname = some routine.imgname.chars ∧
      offset = routine.offset ∧ line = routine.line ∧ column = routine.column ∧
      cString filename = some routine.filename.chars
  | _, _ => False

/-- The data of the call fits into the fields that describe it. -/
def Call.Fits : Call → Prop
  | .output _ data => 0 < data.bytes.length ∧ data.bytes.length < 2 ^ 32 - 1
  | .routineAnnounce routine =>
    routine.name.chars.length < 2 ^ 16 - 1 ∧ routine.imgname.chars.length < 2 ^ 16 - 1 ∧
      routine.filename.chars.length < 2 ^ 16 - 1
  | _ => True

/-- The instructions among the calls are within the limits of the format, and an address has one size. -/
structure InsnsOk (sizeAt : Word → Byte) (c : Call) : Prop where
  wellFormed : ∀ i, c = .instruction i → i.WellFormed
  size : ∀ i, c = .instruction i → sizeAt i.addr = i.size

/-! ### One call -/

namespace CString

variable (s : CString)

/-- The bytes that are written of a string. -/
def buffer : List Byte := (s.chars ++ [0]).take s.len

theorem len_lt : s.len < 2 ^ 16 := Nat.mod_lt _ (by decide)

@[simp] theorem length_buffer : s.buffer.length = s.len := by
  have hle : s.len ≤ s.chars.length + 1 := Nat.mod_le ..
  rw [buffer, List.length_take, List.length_append, List.length_singleton]
  omega

@[simp] theorem length_bytes : s.bytes.length = 2 + s.len := by
  rw [bytes, List.length_append, length_leBytes]
  exact congrArg (2 + ·) s.length_buffer

/-- The reader gets the bytes that were written. -/
theorem parses : Parses Reader.readString s.bytes s.buffer := by
  have hnumber := Reader.parses_number 2 s.len
  rw [Nat.mod_eq_of_lt (show s.len < 256 ^ 2 from s.len_lt)] at hnumber
  exact hnumber.bind (Reader.parses_bytes s.length_buffer)

/-- They are the string again exactly when its length with the final zero fits into 16 bits. -/
theorem cString_buffer : cString s.buffer = some s.chars ↔ s.chars.length < 2 ^ 16 - 1 := by
  by_cases hshort : s.chars.length < 2 ^ 16 - 1
  · have hlen : s.len = s.chars.length + 1 := Nat.mod_eq_of_lt (by omega)
    have hbuffer : s.buffer = s.chars ++ [0] := by
      rw [buffer, hlen, List.take_of_length_le (by simp)]
    have hall : ∀ b ∈ s.chars, decide (b ≠ 0) = true := by
      intro b hb
      refine decide_eq_true fun hzero => s.noZero ?_
      rw [← hzero]
      exact hb
    rw [hbuffer, cString, if_pos (by simp), List.takeWhile_append_of_pos hall]
    exact ⟨fun _ => hshort, fun _ => by simp⟩
  · have hlt : s.len ≤ s.chars.length := by
      have hlen := s.len_lt
      omega
    have hzero : (0 : Byte) ∉ s.buffer := by
      rw [buffer, List.take_append_of_le_length hlt]
      exact fun hmem => s.noZero (List.mem_of_mem_take hmem)
    rw [cString, if_neg hzero]
    exact ⟨fun hnone => (by cases hnone), fun hlt => absurd hlt hshort⟩

end CString

open Reader

section Call

variable {cfg : Config} {code : Word → Byte} {sizeAt : Word → Byte} {w : Writer} {r : Reader}

/-- `CacheOnly`. -/
theorem cacheOnly_delivers (h : Lock cfg code sizeAt w r) (pagemap : Word → Word) (icount : Byte) (type : CacheOnlyType)
    (eip address : Word) : ∃ r', Delivers r (w.cacheOnly pagemap cfg icount type eip address).2
        [.cacheOnly icount type.code eip address] r' ∧
      Lock cfg code sizeAt (w.cacheOnly pagemap cfg icount type eip address).1 r' := by
  obtain ⟨-, r₁, hdelivers, hlock, -⟩ := inStep_sendVa2pas pagemap [eip, address] w r h
  have hparses : Parses (readBody .cacheOnly (18 % 2 ^ 32) r₁)
      ([icount] ++ ([type.code] ++ (wordBytes eip ++ wordBytes address)))
      (r₁, some (.cacheOnly icount type.code eip address)) :=
    Parses.check_bind rfl ((parses_byte _).bind ((parses_byte _).bind ((parses_word _).bind
      ((parses_word _).bind_nil (Parses.pure _)))))
  have hrecord := Delivers.other (by simp) hparses hlock.seenEnd
  refine ⟨r₁, ?_, hlock⟩
  have hall := hdelivers.append hrecord
  simpa [Writer.cacheOnly] using hall

/-- `RoutineChange`. -/
theorem routineChange_delivers (hopen : r.seenEnd = false) (event : RoutineOpType) (eip esp callEip : Word) :
    Delivers r (Writer.routineChange event eip esp callEip) [.routineChange event.code eip esp callEip] r := by
  have hparses : Parses (readBody .routineChange (25 % 2 ^ 32) r)
      ([event.code] ++ (wordBytes eip ++ (wordBytes esp ++ wordBytes callEip)))
      (r, some (.routineChange event.code eip esp callEip)) :=
    Parses.check_bind rfl ((parses_byte _).bind ((parses_word _).bind ((parses_word _).bind
      ((parses_word _).bind_nil (Parses.pure _)))))
  simpa [Writer.routineChange] using Delivers.other (by simp) hparses hopen

/-- `Output` of data that the size field can count. -/
theorem output_delivers (hopen : r.seenEnd = false) (fd : Byte) (data : Payload) (hpos : 0 < data.bytes.length)
    (hlt : data.bytes.length < 2 ^ 32 - 1) : Delivers r (Writer.output fd data) [.output fd data.bytes] r := by
  have hsize : (1 + data.bytes.length) % 2 ^ 32 = 1 + data.bytes.length := Nat.mod_eq_of_lt (by omega)
  have hparses : Parses (readBody .output ((1 + data.bytes.length) % 2 ^ 32) r) ([fd] ++ data.bytes)
      (r, some (.output fd data.bytes)) := by
    rw [hsize]
    refine Parses.check_bind (show 1 + data.bytes.length > 1 by omega) ((parses_byte _).bind ?_)
    exact (parses_bytes (by omega)).bind_nil (Parses.pure _)
  have hdelivers := Delivers.other (by rw [hsize]; simp [Nat.add_comm]) hparses hopen
  rw [← List.append_assoc] at hdelivers
  exact hdelivers

/-- The reader refuses an empty output and one whose size wraps around. -/
theorem output_rejected (r : Reader) (fd : Byte) (data : Payload)
    (h : ¬ (0 < data.bytes.length ∧ data.bytes.length < 2 ^ 32 - 1)) :
    Rejects (readRecord r) (Writer.output fd data) (.recordSize .output) := by
  have hfits := data.fits
  have hsize : ¬ (1 + data.bytes.length) % 2 ^ 32 > 1 := by omega
  rw [Writer.output, List.append_assoc]
  exact rejects_other ((Rejects.check_bind hsize).append ([fd] ++ data.bytes))

/-- `RoutineAnnounce`. -/
theorem routineAnnounce_delivers (hopen : r.seenEnd = false) (x : Routine) :
    Delivers r (Writer.routineAnnounce x) [.routineAnnounce x.eip x.name.buffer x.imgname.buffer x.offset x.line x.column
      x.filename.buffer] r := by
  have hnumber : ∀ v : BitVec 32, Parses (number 4) (leBytes 4 v.toNat) v.toNat := by
    intro v
    have h := parses_number 4 v.toNat
    rwa [Nat.mod_eq_of_lt (show v.toNat < 256 ^ 4 from v.isLt)] at h
  have hparses : ∀ size, Parses (readBody .routineAnnounce size r)
      (wordBytes x.eip ++ (x.name.bytes ++ (x.imgname.bytes ++ (wordBytes x.offset ++ (leBytes 4 x.line.toNat ++
        (leBytes 4 x.column.toNat ++ x.filename.bytes))))))
      (r, some (.routineAnnounce x.eip x.name.buffer x.imgname.buffer x.offset (BitVec.ofNat 32 x.line.toNat)
        (BitVec.ofNat 32 x.column.toNat) x.filename.buffer)) := fun size =>
    (parses_word _).bind (x.name.parses.bind (x.imgname.parses.bind ((parses_word _).bind ((hnumber _).bind
      ((hnumber _).bind (x.filename.parses.bind_nil (Parses.pure _)))))))
  have hname := x.name.len_lt
  have himgname := x.imgname.len_lt
  have hfilename := x.filename.len_lt
  have hlength : (wordBytes x.eip ++ (x.name.bytes ++ (x.imgname.bytes ++ (wordBytes x.offset ++
    (leBytes 4 x.line.toNat ++
      (leBytes 4 x.column.toNat ++ x.filename.bytes)))))).length
      = (8 + 2 + x.name.len + 2 + x.imgname.len + 8 + 4 + 4 + 2 + x.filename.len) % 2 ^ 32 := by
    simp only [List.length_append, length_wordBytes, CString.length_bytes, length_leBytes]
    omega
  have hdelivers := Delivers.other hlength (hparses _) hopen
  simpa [Writer.routineAnnounce] using hdelivers

/-- What a call leads to: an item that shows it when its data fits, or else an item that does not, or a refusal. -/
theorem call_delivers (h : Lock cfg code sizeAt w r) (c : TimedCall) (hinsns : InsnsOk sizeAt c.call) :
    ∃ w' bytes, w.call cfg code c = .ok (w', bytes) ∧
      ((∃ r' item, Delivers r bytes [item] r' ∧ Lock cfg code sizeAt w' r' ∧ (c.call.Shown code item ↔ c.call.Fits)) ∨
      (Rejects (readRecord r) bytes (.recordSize .output) ∧ ¬ c.call.Fits)) := by
  obtain ⟨call, pagemap⟩ := c
  cases call with
  | instruction i =>
    obtain ⟨w', bytes, r', inst, sinst, hcall, hdelivers, hlock, hshown⟩ :=
      instruction_delivers (hinsns.wellFormed i rfl) (hinsns.size i rfl) pagemap h
    exact ⟨w', bytes, hcall, .inl ⟨r', _, hdelivers, hlock, iff_of_true hshown trivial⟩⟩
  | cacheOnly icount type eip address =>
    obtain ⟨r', hdelivers, hlock⟩ := cacheOnly_delivers h pagemap icount type eip address
    exact ⟨_, _, rfl, .inl ⟨r', _, hdelivers, hlock, iff_of_true rfl trivial⟩⟩
  | output fd data =>
    refine ⟨w, _, rfl, ?_⟩
    by_cases hfits : (Call.output fd data).Fits
    · exact .inl ⟨r, _, output_delivers h.seenEnd fd data hfits.1 hfits.2, h, iff_of_true rfl hfits⟩
    · exact .inr ⟨output_rejected r fd data hfits, hfits⟩
  | routineChange event eip esp callEip =>
    exact ⟨w, _, rfl, .inl ⟨r, _, routineChange_delivers h.seenEnd event eip esp callEip, h, iff_of_true rfl trivial⟩⟩
  | routineAnnounce x =>
    refine ⟨w, _, rfl, .inl ⟨r, _, routineAnnounce_delivers h.seenEnd x, h, ?_⟩⟩
    simp only [Call.Shown, Call.Fits, CString.cString_buffer, true_and]

end Call

/-! ### Calls of `Read` -/

section Reads

variable {r r₁ r' : Reader} {b c : List Byte} {items : List Item}

/-- An item is added in front of the items of the next calls of `Read`. -/
def addItem : Option Item → List (List Item) → List (List Item)
  | none, calls => calls
  | some item, calls => if item.isLast then [item] :: calls else (item :: calls.headD []) :: calls.tail

theorem flatten_addItem (item : Option Item) (calls : List (List Item)) :
    (addItem item calls).flatten = item.toList ++ calls.flatten := by
  cases item with
  | none => rfl
  | some item =>
    rw [addItem]
    split
    · rfl
    · cases calls <;> rfl

/-- The rest of a call of `Read`, and the calls after it. -/
def readFrom (f g : ℕ) (r : Reader) (input : List Byte) : Except ReaderFault (List (List Item)) :=
  match readLoop f r input with
  | .error e => .error e
  | .ok (r, items, rest) =>
    if r.seenEnd then .ok [items]
    else
      match readAll g r rest with
      | .error e => .error e
      | .ok calls => .ok (items :: calls)

theorem readAll_succ (g : ℕ) (hopen : r.seenEnd = false) (input : List Byte) :
    readAll (g + 1) r input = readFrom (input.length + 1) g r input := by
  rw [readAll, Reader.read, hopen, readFrom]
  rfl

/-- One record more: the items of later records come after its own. -/
theorem readFrom_record {item : Option Item} {input rest : List Byte} (f g : ℕ)
    (h : readRecord r input = .ok ((r₁, item), rest)) (hopen : r₁.seenEnd = false) :
    (g = 0 ∧ readFrom (f + 1) g r input = .error .endOfStream) ∨
    ∃ f' g', (f' = f ∨ f' = rest.length + 1) ∧ g ≤ g' + 1 ∧
      readFrom (f + 1) g r input =
        match readFrom f' g' r₁ rest with
        | .error e => .error e
        | .ok calls => .ok (addItem item calls) := by
  cases item with
  | none =>
    refine .inr ⟨f, g, .inl rfl, Nat.le_succ g, ?_⟩
    rw [readFrom, readLoop, h]
    change readFrom f g r₁ rest = _
    cases readFrom f g r₁ rest <;> rfl
  | some item =>
    by_cases hlast : item.isLast = true
    · cases g with
      | zero =>
        refine .inl ⟨rfl, ?_⟩
        simp [readFrom, readLoop, h, hlast, hopen, readAll]
      | succ g =>
        refine .inr ⟨rest.length + 1, g, .inr rfl, Nat.le_refl _, ?_⟩
        rw [readFrom, readLoop, h]
        simp only [hlast, if_true, hopen, readAll_succ g hopen, addItem]
        rfl
    · refine .inr ⟨f, g, .inl rfl, Nat.le_succ g, ?_⟩
      rw [readFrom, readLoop, h]
      simp only [hlast, readFrom]
      cases readLoop f r₁ rest with
      | error e => rfl
      | ok x =>
        obtain ⟨r₂, items, rest'⟩ := x
        by_cases hend : r₂.seenEnd = true
        · simp [hend, addItem, hlast]
        · cases hall : readAll g r₂ rest' with
          | error e => simp [hend, hall]
          | ok calls => simp [hend, hall, addItem, hlast]

/-- What has been delivered comes first, whatever the rest of the trace is. -/
theorem readFrom_delivers (h : Delivers r b items r') (c : List Byte) (f g : ℕ) {calls : List (List Item)}
    (hread : readFrom f g r (b ++ c) = .ok calls) :
    ∃ f' g' calls', readFrom f' g' r' c = .ok calls' ∧ calls.flatten = items ++ calls'.flatten := by
  induction h generalizing f g calls with
  | nil r => exact ⟨f, g, calls, hread, rfl⟩
  | @cons r r₁ r₂ b d item items hne hsize hb hopen _ ih =>
    rw [List.append_assoc] at hread
    cases f with
    | zero => cases hread
    | succ f =>
      rcases readFrom_record f g (hb (d ++ c)) hopen with ⟨-, herror⟩ | ⟨f', g', -, -, heq⟩
      · rw [herror] at hread
        cases hread
      · rw [heq] at hread
        cases hrest : readFrom f' g' r₁ (d ++ c) with
        | error e =>
          rw [hrest] at hread
          cases hread
        | ok calls₁ =>
          rw [hrest] at hread
          cases hread
          obtain ⟨f'', g'', calls', hcalls', hflat⟩ := ih f' g' hrest
          exact ⟨f'', g'', calls', hcalls', by rw [flatten_addItem, hflat, List.append_assoc]⟩

/-- The calls of `Read` that items make, up to the end of the trace. -/
def groups (items : List Item) : List (List Item) :=
  items.foldr (fun item calls => addItem (some item) calls) [[.end]]

/-- The whole trace is read when what was delivered is followed by the end record. -/
theorem readFrom_finish (h : Delivers r b items r') (f g : ℕ) (hf : (b ++ Writer.finish).length < f)
    (hg : (b ++ Writer.finish).length ≤ g) :
    readFrom f g r (b ++ Writer.finish) = .ok (groups items) := by
  induction h generalizing f g with
  | nil r =>
    have hend : Parses (readRecord r) (otherHeader .end 0 ++ []) ({ r with seenEnd := true }, some .end) :=
      parses_other (Parses.check_bind rfl (Parses.pure _))
    cases f with
    | zero => exact absurd hf (Nat.not_lt_zero _)
    | succ f =>
      have hread := hend []
      simp only [List.append_nil] at hread
      simp [readFrom, readLoop, Writer.finish, hread, Item.isLast, groups]
  | @cons r r₁ r₂ b d item items hne hsize hb hopen _ ih =>
    have hpos := List.length_pos_iff.2 hne
    rw [List.append_assoc] at hf hg ⊢
    rw [List.length_append] at hf hg
    cases f with
    | zero => exact absurd hf (Nat.not_lt_zero _)
    | succ f =>
      rcases readFrom_record f g (hb (d ++ Writer.finish)) hopen with ⟨hzero, -⟩ | ⟨f', g', hf', hg', heq⟩
      · omega
      · have hrest := ih f' g' (by rcases hf' with rfl | rfl <;> omega) (by omega)
        rw [heq, hrest]
        cases item <;> rfl

theorem flatten_groups (items : List Item) : (groups items).flatten = items ++ [.end] := by
  induction items with
  | nil => rfl
  | cons item items ih =>
    rw [groups, List.foldr_cons, flatten_addItem, ← groups, ih]
    rfl

/-- Items that all end a call make a call each. -/
theorem groups_eq_map {items : List Item} (h : ∀ item ∈ items, item.isLast = true) :
    groups items = (items.map fun item => [item]) ++ [[.end]] := by
  induction items with
  | nil => rfl
  | cons item items ih =>
    have hrest := ih fun x hx => h x (List.mem_cons_of_mem item hx)
    rw [groups, List.foldr_cons, ← groups, hrest, addItem, if_pos (h item (List.mem_cons_self ..))]
    rfl

/-- A trace is read as its records were delivered. -/
theorem readTrace_eq {header : List Byte} (hheader : Parses (initStream .new) header r) (hopen : r.seenEnd = false)
    (h : Delivers r b items r') : readTrace (header ++ (b ++ Writer.finish)) = .ok (groups items) := by
  rw [readTrace, hheader (b ++ Writer.finish)]
  dsimp only
  rw [readAll_succ _ hopen]
  exact readFrom_finish h _ _ (Nat.lt_succ_self _) (Nat.le_refl _)

/-- A refused record after what has been delivered. -/
theorem readFrom_rejects (h : Delivers r b items r') {e : ReaderFault} (hc : Rejects (readRecord r') c e)
    (t : List Byte) (f g : ℕ) (calls : List (List Item)) : readFrom f g r (b ++ (c ++ t)) ≠ .ok calls := by
  intro hread
  obtain ⟨f', g', calls', hcalls', -⟩ := readFrom_delivers h (c ++ t) f g hread
  cases f' with
  | zero => cases hcalls'
  | succ f' =>
    rw [readFrom, readLoop, hc t] at hcalls'
    cases hcalls'

/-- The records of the whole trace are as long as they say. -/
theorem readRecords_finish (h : Delivers r b items r') (f : ℕ) (hf : (b ++ Writer.finish).length < f) :
    ∃ records, readRecords f r (b ++ Writer.finish) = .ok records ∧
      records.filterMap Prod.snd = items ++ [.end] ∧ ∀ x ∈ records, Announced x.1 := by
  induction h generalizing f with
  | nil r =>
    have hend : Parses (readRecord r) (otherHeader .end 0 ++ []) ({ r with seenEnd := true }, some .end) :=
      parses_other (Parses.check_bind rfl (Parses.pure _))
    cases f with
    | zero => exact absurd hf (Nat.not_lt_zero _)
    | succ f =>
      have hread := hend []
      simp only [List.append_nil] at hread
      refine ⟨[(Writer.finish, some .end)], ?_, rfl, fun x hx => ?_⟩
      · simp [readRecords, Writer.finish, hread]
      · rw [List.mem_singleton.1 hx]
        exact @announced_other .end 0 [] rfl
  | @cons r r₁ r₂ b d item items hne hsize hb hopen _ ih =>
    have hpos := List.length_pos_iff.2 hne
    rw [List.append_assoc] at hf ⊢
    rw [List.length_append] at hf
    cases f with
    | zero => exact absurd hf (Nat.not_lt_zero _)
    | succ f =>
      obtain ⟨records, hrecords, hitems, hall⟩ := ih f (by omega)
      refine ⟨(b, item) :: records, ?_, ?_, fun x hx => ?_⟩
      · simp [readRecords, hb (d ++ Writer.finish), hopen, hrecords]
      · rw [List.append_assoc, ← hitems]
        cases item <;> rfl
      · rcases List.mem_cons.1 hx with rfl | hmem
        · exact hsize
        · exact hall x hmem

end Reads

/-! ### Sequences of calls -/

section Sequence

variable {cfg : Config} {code : Word → Byte} {sizeAt : Word → Byte}

/-- The header is accepted, and then nothing has been read yet. -/
theorem header_accepted (cfg : Config) (code : Word → Byte) (sizeAt : Word → Byte) :
    ∃ r, Parses (initStream .new) (Writer.header cfg) r ∧ Lock cfg code sizeAt .new r := by
  obtain ⟨o, ho⟩ : ∃ o : Word, o = (if cfg.arch32 then 2 else 0) ||| (if cfg.icachePerInsn then 4 else 0) |||
    (if cfg.sendVa2pa then 8 else 0) := ⟨_, rfl⟩
  have hzlib : o &&& 1#64 = 0#64 := by
    rw [ho]
    cases cfg.arch32 <;> cases cfg.icachePerInsn <;> cases cfg.sendVa2pa <;> decide
  have hknown : o &&& ~~~(0xf#64) = 0#64 := by
    rw [ho]
    cases cfg.arch32 <;> cases cfg.icachePerInsn <;> cases cfg.sendVa2pa <;> decide
  have hlock := lock_new cfg code sizeAt
  refine ⟨{ Reader.new with traceHasPa := o &&& 8#64 ≠ 0#64 }, ?_, hlock.last, hlock.insns, hlock.pages, hlock.static,
    hlock.seenEnd⟩
  have hparses : Parses (initStream .new) (leBytes 4 magicNumber ++ (leBytes 4 0 ++ wordBytes o))
      { Reader.new with traceHasPa := o &&& 8#64 ≠ 0#64 } := by
    refine (parses_number 4 magicNumber).bind ((parses_number 4 0).bind ((parses_word o).bind_nil ?_))
    exact Parses.check_bind ⟨rfl, rfl⟩ (Parses.check_bind hzlib (Parses.check_bind hknown (Parses.pure _)))
  rw [Writer.header]
  dsimp only
  rw [← ho, List.append_assoc]
  exact hparses

/-- The reader follows a sequence of calls whose data fits. -/
theorem calls_deliver (cs : List TimedCall) (hinsns : ∀ c ∈ cs, InsnsOk sizeAt c.call) (hfits : ∀ c ∈ cs, c.call.Fits)
    (w : Writer) (r : Reader) (h : Lock cfg code sizeAt w r) :
    ∃ w' bytes r' items, Writer.calls cfg code cs w = .ok (w', bytes) ∧ Delivers r bytes items r' ∧
      Lock cfg code sizeAt w' r' ∧ List.Forall₂ (fun c item => c.call.Shown code item) cs items := by
  induction cs generalizing w r with
  | nil => exact ⟨w, [], r, [], rfl, .nil r, h, .nil⟩
  | cons c cs ih =>
    obtain ⟨w₁, bytes, hcall, ⟨r₁, item, hdelivers, hlock, hshown⟩ | ⟨-, hbad⟩⟩ :=
      call_delivers h c (hinsns c (List.mem_cons_self ..))
    · obtain ⟨w₂, bytes', r₂, items, hcalls, hdelivers', hlock', hall⟩ :=
        ih (fun d hd => hinsns d (List.mem_cons_of_mem c hd)) (fun d hd => hfits d
          (List.mem_cons_of_mem c hd)) w₁ r₁ hlock
      refine ⟨w₂, bytes ++ bytes', r₂, item :: items, ?_, hdelivers.append hdelivers', hlock', .cons ?_ hall⟩
      · rw [Writer.calls, hcall]
        simp only [hcalls]
      · exact hshown.2 (hfits c (List.mem_cons_self ..))
    · exact absurd (hfits c (List.mem_cons_self ..)) hbad

/-- A call whose data does not fit is not shown by what the reader returns, if it returns anything. -/
theorem calls_not_shown (cs : List TimedCall) (hinsns : ∀ c ∈ cs, InsnsOk sizeAt c.call) (hbad : ∃ c ∈ cs, ¬ c.call.Fits)
    (w w' : Writer) (r : Reader) (h : Lock cfg code sizeAt w r) (bytes : List Byte)
    (hcalls : Writer.calls cfg code cs w = .ok (w', bytes)) (f g : ℕ) (calls : List (List Item))
    (hread : readFrom f g r (bytes ++ Writer.finish) = .ok calls) (items : List Item)
    (hitems : calls.flatten = items ++ [.end]) : ¬ List.Forall₂ (fun c item => c.call.Shown code item) cs items := by
  induction cs generalizing w r bytes f g calls items with
  | nil =>
    obtain ⟨c, hc, -⟩ := hbad
    cases hc
  | cons c cs ih =>
    intro hall
    obtain ⟨w₁, b, hcall, hcase⟩ := call_delivers h c (hinsns c (List.mem_cons_self ..))
    rw [Writer.calls, hcall] at hcalls
    dsimp only at hcalls
    cases hrest : Writer.calls cfg code cs w₁ with
    | error e =>
      rw [hrest] at hcalls
      cases hcalls
    | ok x =>
      obtain ⟨w₂, b'⟩ := x
      rw [hrest] at hcalls
      cases hcalls
      rw [List.append_assoc] at hread
      rcases hcase with ⟨r₁, item, hdelivers, hlock, hshown⟩ | ⟨hrejects, -⟩
      · obtain ⟨f', g', calls', hread', hflat⟩ := readFrom_delivers hdelivers (b' ++ Writer.finish) f g hread
        cases hall with
        | @cons _ x _ items' hx hall =>
          obtain ⟨rfl, hitems'⟩ := List.cons.inj (show item :: calls'.flatten = x :: (items' ++ [.end]) from
            hflat.symm.trans hitems)
          obtain ⟨d, hd, hdbad⟩ := hbad
          rcases List.mem_cons.1 hd with rfl | hmem
          · exact hdbad (hshown.1 hx)
          · exact ih (fun d hd => hinsns d (List.mem_cons_of_mem c hd)) ⟨d, hmem, hdbad⟩ w₁ r₁ hlock b' hrest f' g' calls'
              hread' items' hitems' hall
      · exact readFrom_rejects (.nil r) hrejects (b' ++ Writer.finish) f g calls hread

/-- What shows an instruction is an instruction. -/
theorem Call.Shown.instruction {i : Insn} {item : Item} (h : (Call.instruction i).Shown code item) :
    ∃ inst sinst, item = .instruction inst sinst ∧ i.Shown code inst sinst := by
  cases item with
  | instruction inst sinst => exact ⟨inst, sinst, rfl, h⟩
  | _ => exact h.elim

/-- Instructions end a call of `Read`. -/
theorem isLast_of_shown {is : List Insn} {items : List Item}
    (h : List.Forall₂ (fun i item => (Call.instruction i).Shown code item) is items) :
    ∀ item ∈ items, item.isLast = true := by
  induction h with
  | nil =>
    intro item hitem
    cases hitem
  | cons hshown _ ih =>
    intro item hitem
    rcases List.mem_cons.1 hitem with rfl | hmem
    · obtain ⟨inst, sinst, rfl, -⟩ := hshown.instruction
      rfl
    · exact ih item hmem

/-- The instructions among the calls. -/
def insns (cs : List TimedCall) : List Insn :=
  cs.filterMap fun c =>
    match c.call with
    | .instruction i => some i
    | _ => none

/-- The size of the first instruction at an address. -/
def firstSize (is : List Insn) (a : Word) : Byte := ((is.find? fun i => i.addr = a).map Insn.size).getD 0

theorem firstSize_eq {is : List Insn} (hsize : ∀ i ∈ is, ∀ j ∈ is, i.addr = j.addr → i.size = j.size) {i : Insn}
    (hi : i ∈ is) : firstSize is i.addr = i.size := by
  rw [firstSize]
  cases hfind : is.find? fun j => j.addr = i.addr with
  | none =>
    have hnone := List.find?_eq_none.1 hfind i hi
    simp at hnone
  | some j =>
    have haddr := List.find?_some hfind
    exact hsize j (List.mem_of_find?_eq_some hfind) i hi (by simpa using haddr)

/-- Calls whose instructions are within the limits and agree about sizes. -/
theorem insnsOk_of {cs : List TimedCall} (hwf : ∀ i ∈ insns cs, i.WellFormed)
    (hsize : ∀ i ∈ insns cs, ∀ j ∈ insns cs, i.addr = j.addr → i.size = j.size) :
    ∀ c ∈ cs, InsnsOk (firstSize (insns cs)) c.call := by
  intro c hc
  have hmem : ∀ i, c.call = .instruction i → i ∈ insns cs := by
    intro i hi
    exact List.mem_filterMap.2 ⟨c, hc, by rw [hi]⟩
  exact ⟨fun i hi => hwf i (hmem i hi), fun i hi => firstSize_eq hsize (hmem i hi)⟩

end Sequence

/-! ### Results -/

/-- In both modes of sending code, the calls of `Read` return the instructions that were written, one each and
in their order, and then the end. Between them no handler is called. -/
theorem instructions_roundTrip (cfg : Config) (code : Word → Byte) (is : List (Insn × (Word → Word)))
    (hwf : ∀ i ∈ is, i.1.WellFormed) (hsize : ∀ i ∈ is, ∀ j ∈ is, i.1.addr = j.1.addr → i.1.size = j.1.size) :
    ∃ input calls, Writer.trace cfg code (is.map fun i => ⟨.instruction i.1, i.2⟩) = .ok input ∧
      readTrace input = .ok (calls ++ [[.end]]) ∧
      List.Forall₂ (fun i items => ∃ inst sinst, items = [.instruction inst sinst] ∧ i.1.Shown code inst sinst) is
        calls := by
  obtain ⟨cs, hcs⟩ : ∃ cs : List TimedCall, cs = is.map fun i => ⟨.instruction i.1, i.2⟩ := ⟨_, rfl⟩
  have hmem : ∀ j ∈ insns cs, ∃ i ∈ is, i.1 = j := by
    intro j hj
    obtain ⟨c, hc, hinsn⟩ := List.mem_filterMap.1 hj
    rw [hcs] at hc
    obtain ⟨i, hi, rfl⟩ := List.mem_map.1 hc
    exact ⟨i, hi, Option.some.inj hinsn⟩
  have hinsns : ∀ c ∈ cs, InsnsOk (firstSize (insns cs)) c.call := by
    refine insnsOk_of (fun j hj => ?_) fun j hj k hk haddr => ?_
    · obtain ⟨i, hi, rfl⟩ := hmem j hj
      exact hwf i hi
    · obtain ⟨i, hi, rfl⟩ := hmem j hj
      obtain ⟨i', hi', rfl⟩ := hmem k hk
      exact hsize i hi i' hi' haddr
  have hfits : ∀ c ∈ cs, c.call.Fits := by
    intro c hc
    rw [hcs] at hc
    obtain ⟨i, -, rfl⟩ := List.mem_map.1 hc
    exact trivial
  obtain ⟨r, hheader, hlock⟩ := header_accepted cfg code (firstSize (insns cs))
  obtain ⟨w, bytes, r', items, hcalls, hdelivers, -, hall⟩ := calls_deliver cs hinsns hfits .new r hlock
  rw [hcs, List.forall₂_map_left_iff] at hall
  have hread := readTrace_eq hheader hlock.seenEnd hdelivers
  rw [groups_eq_map] at hread
  · refine ⟨_, items.map fun item => [item], by rw [← hcs, Writer.trace, hcalls], hread, ?_⟩
    rw [List.forall₂_map_right_iff]
    exact hall.imp fun i item hshown => by
      obtain ⟨inst, sinst, rfl, hinsn⟩ := Call.Shown.instruction hshown
      exact ⟨inst, sinst, rfl, hinsn⟩
  · have hall' : List.Forall₂ (fun i item => (Call.instruction i).Shown code item) (is.map Prod.fst) items := by
      rw [List.forall₂_map_left_iff]
      exact hall
    exact isLast_of_shown hall'

/-- An instruction across two pages, one after it, and the first one again. -/
def straddlingInsns : List (Insn × (Word → Word)) :=
  [(⟨0xffe, 4, [0x8000, 0x9008], false, false, true, false⟩, id), (⟨0x1002, 2, [], true, true, false, true⟩, fun _ => 0),
    (⟨0xffe, 4, [0x8000, 0x9008], false, false, true, true⟩, id)]

theorem instructions_roundTrip_straddling : ∃ input calls,
    Writer.trace ⟨false, false, true⟩ (fun a => a.setWidth 8)
      (straddlingInsns.map fun i => ⟨.instruction i.1, i.2⟩) = .ok input ∧
    readTrace input = .ok (calls ++ [[.end]]) ∧
    List.Forall₂ (fun i items => ∃ inst sinst, items = [.instruction inst sinst] ∧
      i.1.Shown (fun a => a.setWidth 8) inst sinst) straddlingInsns calls := by
  refine instructions_roundTrip ⟨false, false, true⟩ (fun a => a.setWidth 8) straddlingInsns (fun i hi => ?_)
    fun i hi j hj => ?_
  · simp only [straddlingInsns, List.mem_cons, List.not_mem_nil, or_false] at hi
    rcases hi with rfl | rfl | rfl <;> exact ⟨⟨by decide, by decide, by decide⟩, by decide⟩
  · simp only [straddlingInsns, List.mem_cons, List.not_mem_nil, or_false] at hi hj
    rcases hi with rfl | rfl | rfl <;> rcases hj with rfl | rfl | rfl <;> decide

/-- The reader accepts a trace and calls the handlers with the arguments of the calls, and every record is as long as it
says. -/
def Accepted (cfg : Config) (code : Word → Byte) (cs : List TimedCall) : Prop :=
  ∃ input calls items records, Writer.trace cfg code cs = .ok input ∧ readTrace input = .ok calls ∧
    calls.flatten = items ++ [.end] ∧ List.Forall₂ (fun c item => c.call.Shown code item) cs items ∧
    traceRecords input = .ok records ∧ records.filterMap Prod.snd = items ++ [.end] ∧ ∀ x ∈ records, Announced x.1

section Accepted

variable {cfg : Config} {code : Word → Byte} {cs : List TimedCall} (hwf : ∀ i ∈ insns cs, i.WellFormed)
  (hsize : ∀ i ∈ insns cs, ∀ j ∈ insns cs, i.addr = j.addr → i.size = j.size)

include hwf hsize

/-- In an accepted trace all data fits. -/
theorem Accepted.fits (h : Accepted cfg code cs) : ∀ c ∈ cs, c.call.Fits := by
  obtain ⟨r, hheader, hlock⟩ := header_accepted cfg code (firstSize (insns cs))
  obtain ⟨input, calls, items, records, htrace, hread, hflat, hall, -⟩ := h
  by_contra hnot
  simp only [not_forall, exists_prop] at hnot
  rw [Writer.trace] at htrace
  cases hcalls : Writer.calls cfg code cs .new with
  | error e =>
    rw [hcalls] at htrace
    cases htrace
  | ok x =>
    obtain ⟨w, bytes⟩ := x
    rw [hcalls] at htrace
    cases htrace
    rw [readTrace, hheader (bytes ++ Writer.finish)] at hread
    dsimp only at hread
    rw [readAll_succ _ hlock.seenEnd] at hread
    exact calls_not_shown cs (insnsOk_of hwf hsize) hnot .new w r hlock bytes hcalls _ _ calls hread items hflat hall

/-- A trace whose data fits is accepted. -/
theorem accepted_of_fits (hfits : ∀ c ∈ cs, c.call.Fits) : Accepted cfg code cs := by
  obtain ⟨r, hheader, hlock⟩ := header_accepted cfg code (firstSize (insns cs))
  obtain ⟨w, bytes, r', items, hcalls, hdelivers, -, hall⟩ :=
    calls_deliver cs (insnsOk_of hwf hsize) hfits .new r hlock
  obtain ⟨records, hrecords, hitems, hsizes⟩ := readRecords_finish hdelivers _ (Nat.lt_succ_self _)
  refine ⟨Writer.header cfg ++ (bytes ++ Writer.finish), groups items, items, records, ?_, ?_, ?_, hall, ?_, hitems,
    hsizes⟩
  · rw [Writer.trace, hcalls]
  · exact readTrace_eq hheader hlock.seenEnd hdelivers
  · exact flatten_groups items
  · rw [traceRecords, hheader (bytes ++ Writer.finish)]
    exact hrecords

end Accepted

/-- Events come through unchanged exactly when their data fits into the fields that describe it. -/
theorem events_roundTrip (cfg : Config) (code : Word → Byte) (cs : List TimedCall)
    (hwf : ∀ i ∈ insns cs, i.WellFormed)
    (hsize : ∀ i ∈ insns cs, ∀ j ∈ insns cs, i.addr = j.addr → i.size = j.size) :
    Accepted cfg code cs ↔ ∀ c ∈ cs, c.call.Fits :=
  ⟨Accepted.fits hwf hsize, accepted_of_fits hwf hsize⟩

/-- An output between an instruction and a routine announcement. -/
def outputCalls : List TimedCall :=
  [⟨.instruction ⟨0x400, 3, [], false, false, false, true⟩, id⟩, ⟨.output 1 ⟨[0x68, 0x69], by decide⟩, id⟩,
    ⟨.routineAnnounce ⟨0x400, ⟨[0x6d], by decide⟩, ⟨[], by decide⟩, 0, 7, 1, ⟨[0x63], by decide⟩⟩, id⟩]

theorem events_roundTrip_output : Accepted ⟨false, true, false⟩ (fun a => a.setWidth 8) outputCalls := by
  refine (events_roundTrip ⟨false, true, false⟩ (fun a => a.setWidth 8) outputCalls (fun i hi => ?_)
    fun i hi j hj => ?_).2 fun c hc => ?_
  · rw [List.mem_singleton.1 (show i ∈ [(⟨0x400, 3, [], false, false, false, true⟩ : Insn)] from hi)]
    exact ⟨⟨by decide, by decide, by decide⟩, by decide⟩
  · rw [List.mem_singleton.1 (show i ∈ [(⟨0x400, 3, [], false, false, false, true⟩ : Insn)] from hi),
      List.mem_singleton.1 (show j ∈ [(⟨0x400, 3, [], false, false, false, true⟩ : Insn)] from hj)]
    exact fun _ => rfl
  · simp only [outputCalls, List.mem_cons, List.not_mem_nil, or_false] at hc
    rcases hc with rfl | rfl | rfl
    · exact trivial
    · exact ⟨by decide, by decide⟩
    · exact ⟨by decide, by decide, by decide⟩

/-- A routine name of 65535 characters. -/
def longName : CString := ⟨List.replicate 65535 0x61, fun h => absurd (List.eq_of_mem_replicate h) (by decide)⟩

/-- The reader refuses an output without data, and of the long name it gets nothing. -/
theorem events_roundTrip_unfit :
    ¬ Accepted ⟨false, false, false⟩ (fun a => a.setWidth 8) [⟨.output 1 ⟨[], by decide⟩, id⟩] ∧
    ¬ Accepted ⟨false, false, false⟩ (fun a => a.setWidth 8)
      [⟨.routineAnnounce ⟨0x400, longName, ⟨[], by decide⟩, 0, 7, 1, ⟨[0x63], by decide⟩⟩, id⟩] := by
  constructor
  · intro haccepted
    obtain ⟨input, calls, items, records, htrace, hread, -⟩ := haccepted
    cases htrace
    cases hread
  · intro haccepted
    have hfits := haccepted.fits (fun _ hi => (by cases hi)) (fun _ hi => (by cases hi)) _ (List.mem_singleton.2 rfl)
    have hlength : longName.chars.length < 2 ^ 16 - 1 := hfits.1
    rw [longName, List.length_replicate] at hlength
    exact absurd hlength (by decide)

end LifeSim.Sift

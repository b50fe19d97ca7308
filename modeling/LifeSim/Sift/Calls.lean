import Mathlib.Data.Prod.Lex
import Mathlib.Order.WellFounded
import LifeSim.Sift.Exchange

/-!
# Every interleaving of the two processes

`Stage` says what is in flight between writer and reader. In each stage a process is blocked or its step leads to the next
stage, and the direct outcome of the calls does not change. Every step lowers the rank of the state, so that
a run ends, and it ends only after all calls have returned.
-/

namespace LifeSim.Sift

open LifeSim.Lib

variable {σ μ : Type}

/-! ### Stages -/

/-- The reader has instructions to read before it is in step with the writer. -/
def System.Pending (ctx : Context σ μ) (sizeAt : Word → Byte) (s : System σ μ) (pend : List Byte) : Prop :=
  ∃ items r, Delivers s.reader pend items r ∧ Lock ctx.cfg ctx.code sizeAt s.writer r ∧
    List.Forall₂ (fun i item => (Call.instruction i).Shown ctx.code item) s.written (s.seen ++ items)

/-- What is in flight, given the outcome of all calls. -/
inductive Stage (ctx : Context σ μ) (sizeAt : Word → Byte) (o : Outcome σ μ) (s : System σ μ) : Prop
  /-- No call waits. -/
  | idle (hwaiting : s.waiting = none) (hphase : s.phase = .reading) (hresponses : s.responses = [])
      (hpending : s.Pending ctx sizeAt s.requests) (hanswered : s.answered = s.returned)
      (haccessed : s.accessed = s.served)
      (ho : (ctx.direct s.calls s.handlerState s.memory).after s.written s.returned s.served = o)
  /-- A request is on its way to the reader. -/
  | asked (q : Request) (pend : List Byte) (hwaiting : s.waiting = some q) (hphase : s.phase = .reading)
      (hresponses : s.responses = []) (hrequests : s.requests = pend ++ q.record) (hq : q.Fits)
      (hhandler : (ctx.handler s.handlerState q).Handles q)
      (hpending : s.Pending ctx sizeAt pend) (hanswered : s.answered = s.returned) (haccessed : s.accessed = s.served)
      (ho : (ctx.resume q (ctx.handler s.handlerState q) s.calls s.memory).after s.written s.returned s.served = o)
  /-- A handler runs. -/
  | handling (q : Request) (p : Prog (σ × Value)) (hwaiting : s.waiting = some q) (hphase : s.phase = .handling q p)
      (hresponses : s.responses = []) (hrequests : s.requests = []) (hp : p.Handles q)
      (hpending : s.Pending ctx sizeAt []) (hanswered : s.answered = s.returned) (haccessed : s.accessed = s.served)
      (ho : (ctx.resume q p s.calls s.memory).after s.written s.returned s.served = o)
  /-- The request for a memory access is on its way to the writer. -/
  | asking (q : Request) (a : Access) (k : List Byte → Prog (σ × Value)) (hwaiting : s.waiting = some q)
      (hphase : s.phase = .accessing q a k) (hresponses : s.responses = a.record) (hrequests : s.requests = [])
      (hp : (Prog.access a k).Handles q)
      (hpending : s.Pending ctx sizeAt []) (hanswered : s.answered = s.returned) (haccessed : s.accessed = s.served)
      (ho : (ctx.resume q (.access a k) s.calls s.memory).after s.written s.returned s.served = o)
  /-- The result of a memory access is on its way to the reader. -/
  | reported (q : Request) (a : Access) (k : List Byte → Prog (σ × Value)) (data : List Byte)
      (hwaiting : s.waiting = some q) (hphase : s.phase = .accessing q a k) (hresponses : s.responses = [])
      (hrequests : s.requests = memoryResponse a.addrOf a.opCode data) (hdata : data.length = a.resultSize)
      (hp : (k data).Handles q) (hpending : s.Pending ctx sizeAt []) (hanswered : s.answered = s.returned)
      (haccessed : s.accessed ++ [(a, data)] = s.served)
      (ho : (ctx.resume q (k data) s.calls s.memory).after s.written s.returned s.served = o)
  /-- The value of a call is on its way to the writer. -/
  | answered (q : Request) (v : Value) (hwaiting : s.waiting = some q) (hphase : s.phase = .reading)
      (hresponses : s.responses = q.response v) (hrequests : s.requests = []) (hv : q.Returns v)
      (hpending : s.Pending ctx sizeAt []) (hanswered : s.answered = s.returned ++ [(q, v)])
      (haccessed : s.accessed = s.served)
      (ho : (ctx.direct s.calls s.handlerState s.memory).after s.written s.answered s.served = o)

/-- A call that the protocol can carry, with a handler that keeps to the rules. -/
def ClientCall.Ok (ctx : Context σ μ) (sizeAt : Word → Byte) : ClientCall → Prop
  | .instruction i _ => i.WellFormed ∧ sizeAt i.addr = i.size
  | .request q _ readable => q.Fits ∧ q.ForceRead readable ∧ ∀ h, (ctx.handler h q).Handles q

/-- The invariant of the two processes. -/
structure InExchange (ctx : Context σ μ) (sizeAt : Word → Byte) (o : Outcome σ μ) (s : System σ μ) : Prop where
  calls : ∀ c ∈ s.calls, c.Ok ctx sizeAt
  stage : Stage ctx sizeAt o s

/-! ### The rank of a state -/

/-- How far the current call is from its return, with the memory accesses left out. -/
def System.distance (s : System σ μ) : ℕ :=
  match s.phase with
  | .reading => if s.waiting.isSome ∧ s.responses = [] then 4 else 0
  | .handling _ _ => 3
  | .accessing _ _ _ => if s.responses = [] then 1 else 2

/-- What is left to do: calls, then values and accesses, then stages, then bytes in the trace. -/
def System.rank (o : Outcome σ μ) (s : System σ μ) : ℕ ×ₗ ℕ ×ₗ ℕ ×ₗ ℕ :=
  toLex (s.calls.length, toLex ((o.returned.length - s.returned.length) + (o.performed.length - s.accessed.length),
    toLex (s.distance, s.requests.length)))

section Rank

variable {o : Outcome σ μ} {s s' : System σ μ}

theorem rank_lt_of_calls (h : s'.calls.length < s.calls.length) : s'.rank o < s.rank o :=
  Prod.Lex.toLex_lt_toLex.2 (.inl h)

theorem rank_lt_of_work (hcalls : s'.calls = s.calls)
    (h : (o.returned.length - s'.returned.length) + (o.performed.length - s'.accessed.length)
      < (o.returned.length - s.returned.length) + (o.performed.length - s.accessed.length)) : s'.rank o < s.rank o :=
  Prod.Lex.toLex_lt_toLex.2 (.inr ⟨by rw [hcalls], Prod.Lex.toLex_lt_toLex.2 (.inl h)⟩)

theorem rank_lt_of_distance (hcalls : s'.calls = s.calls) (hreturned : s'.returned = s.returned)
    (haccessed : s'.accessed = s.accessed) (h : s'.distance < s.distance) : s'.rank o < s.rank o :=
  Prod.Lex.toLex_lt_toLex.2 (.inr ⟨by rw [hcalls], Prod.Lex.toLex_lt_toLex.2 (.inr ⟨by rw [hreturned, haccessed],
    Prod.Lex.toLex_lt_toLex.2 (.inl h)⟩)⟩)

theorem rank_lt_of_requests (hcalls : s'.calls = s.calls) (hreturned : s'.returned = s.returned)
    (haccessed : s'.accessed = s.accessed) (hdistance : s'.distance = s.distance)
    (h : s'.requests.length < s.requests.length) : s'.rank o < s.rank o :=
  Prod.Lex.toLex_lt_toLex.2 (.inr ⟨by rw [hcalls], Prod.Lex.toLex_lt_toLex.2 (.inr ⟨by rw [hreturned, haccessed],
    Prod.Lex.toLex_lt_toLex.2 (.inr ⟨hdistance, h⟩)⟩)⟩)

end Rank

/-! ### Steps -/

section Steps

variable {ctx : Context σ μ} {sizeAt : Word → Byte} {o : Outcome σ μ} {s : System σ μ}

/-- The step leads on: the invariant holds again and less is left to do. -/
def Advances (ctx : Context σ μ) (sizeAt : Word → Byte) (o : Outcome σ μ) (s : System σ μ)
    (x : Except ProtocolFault (System σ μ)) : Prop :=
  ∃ s', x = .ok s' ∧ InExchange ctx sizeAt o s' ∧ s'.rank o < s.rank o

/-- A waiting writer finds nothing. -/
theorem readAnswer_nil (q : Request) : q.readAnswer [] = .error .blocked := rfl

/-- A waiting handler finds nothing. -/
theorem readResult_nil (a : Access) : a.readResult [] = .error .blocked := rfl

theorem writerStep_blocked {q : Request} (hwaiting : s.waiting = some q) (hresponses : s.responses = []) :
    s.writerStep ctx = .error .blocked := by
  simp only [System.writerStep, hwaiting, hresponses, readAnswer_nil]

theorem readerStep_blocked (hphase : s.phase = .reading) (hrequests : s.requests = []) :
    s.readerStep ctx = .error .blocked := by
  simp only [System.readerStep, hphase, hrequests]
  rfl

/-- The writer makes a call while no other call waits. -/
theorem idle_writer (hcalls : ∀ c ∈ s.calls, c.Ok ctx sizeAt) (hwaiting : s.waiting = none) (hphase : s.phase = .reading)
    (hresponses : s.responses = []) (hpending : s.Pending ctx sizeAt s.requests) (hanswered : s.answered = s.returned)
    (haccessed : s.accessed = s.served)
    (ho : (ctx.direct s.calls s.handlerState s.memory).after s.written s.returned s.served = o) :
    (s.calls = [] ∧ s.writerStep ctx = .error .blocked) ∨ Advances ctx sizeAt o s (s.writerStep ctx) := by
  obtain ⟨items, r, hdelivers, hlock, hshown⟩ := hpending
  cases hc : s.calls with
  | nil =>
    refine .inl ⟨rfl, ?_⟩
    simp only [System.writerStep, hwaiting, System.nextCall, hc]
  | cons c calls =>
    have hok := hcalls c (by rw [hc]; exact List.mem_cons_self ..)
    have hrest : ∀ d ∈ calls, d.Ok ctx sizeAt := fun d hd => hcalls d (by rw [hc]; exact List.mem_cons_of_mem c hd)
    rw [hc] at ho
    right
    cases c with
    | instruction i pagemap =>
      obtain ⟨w, bytes, r', inst, sinst, hcall, hdelivers', hlock', hinsn⟩ :=
        instruction_delivers hok.1 hok.2 pagemap hlock
      refine ⟨{ s with calls := calls, writer := w, requests := s.requests ++ bytes, written := s.written ++ [i] }, ?_,
        ⟨hrest, ?_⟩, rank_lt_of_calls (by rw [hc]; exact Nat.lt_succ_self _)⟩
      · simp only [System.writerStep, hwaiting, System.nextCall, hc, hcall]
      · refine .idle hwaiting hphase hresponses ⟨items ++ [.instruction inst sinst], r', hdelivers.append hdelivers',
          hlock', ?_⟩
          hanswered haccessed ?_
        · rw [← List.append_assoc]
          exact List.rel_append hshown (.cons hinsn .nil)
        · rw [← ho, Context.direct, Outcome.after_after, List.append_nil, List.append_nil]
    | request q pagemap readable =>
      have hstep := inStep_sendVa2pas pagemap q.addresses s.writer r hlock
      cases hsend : s.writer.sendVa2pas pagemap ctx.cfg q.addresses with
      | mk w sent =>
      rw [hsend] at hstep
      obtain ⟨-, r', hdelivers', hlock', -⟩ := hstep
      refine ⟨{ s with calls := calls, writer := w, waiting := some q, requests := s.requests ++ (sent ++ q.record) }, ?_,
        ⟨hrest, ?_⟩, rank_lt_of_calls (by rw [hc]; exact Nat.lt_succ_self _)⟩
      · simp only [System.writerStep, hwaiting, System.nextCall, hc, if_pos hok.2.1, hsend]
      · refine .asked q (s.requests ++ sent) rfl hphase hresponses (List.append_assoc ..).symm hok.1 (hok.2.2 _)
          ⟨items, r', ?_, hlock', hshown⟩ hanswered haccessed ho
        have hall := hdelivers.append hdelivers'
        rwa [List.append_nil] at hall

/-- The reader reads a record of what is pending. -/
theorem pending_reader {pend tail : List Byte} (hphase : s.phase = .reading) (hrequests : s.requests = pend ++ tail)
    (hpending : s.Pending ctx sizeAt pend) (hne : pend ≠ []) :
    ∃ r seen pend', s.readerStep ctx = .ok { s with reader := r, requests := pend' ++ tail, seen := seen } ∧
      { s with reader := r, requests := pend' ++ tail, seen := seen }.Pending ctx sizeAt pend' ∧
      pend'.length < pend.length := by
  obtain ⟨items, r, hdelivers, hlock, hshown⟩ := hpending
  cases hdelivers with
  | nil => exact absurd rfl hne
  | @cons _ r₁ _ b c item items hb hsize hparses hopen hc =>
    have hread := hparses (c ++ tail)
    rw [← List.append_assoc, ← hrequests] at hread
    have hlt : c.length < (b ++ c).length := by
      have hpos := List.length_pos_iff.2 hb
      rw [List.length_append]
      omega
    cases item with
    | none =>
      refine ⟨r₁, s.seen, c, ?_, ⟨items, r, hc, hlock, hshown⟩, hlt⟩
      simp only [System.readerStep, hphase, hread]
    | some item =>
      have hlast := isLast_of_shown hshown item (by simp)
      have hrequest : item.request = none := by
        cases item <;> first | rfl | cases hlast
      refine ⟨r₁, s.seen ++ [item], c, ?_, ⟨items, r, hc, hlock, ?_⟩, hlt⟩
      · simp only [System.readerStep, hphase, hread, hrequest]
      · rw [List.append_assoc]
        exact hshown

/-- A handler is called when the reader has read all that was pending. -/
theorem asked_reader {q : Request} (hcalls : ∀ c ∈ s.calls, c.Ok ctx sizeAt) (hwaiting : s.waiting = some q)
    (hphase : s.phase = .reading) (hresponses : s.responses = []) (hrequests : s.requests = q.record) (hq : q.Fits)
    (hhandler : (ctx.handler s.handlerState q).Handles q) (hpending : s.Pending ctx sizeAt [])
    (hanswered : s.answered = s.returned) (haccessed : s.accessed = s.served)
    (ho : (ctx.resume q (ctx.handler s.handlerState q) s.calls s.memory).after s.written s.returned s.served = o) :
    Advances ctx sizeAt o s (s.readerStep ctx) := by
  obtain ⟨item, hitem, hparses⟩ := Request.parses_record s.reader hq
  have hread := hparses []
  rw [List.append_nil, ← hrequests] at hread
  refine ⟨{ s with requests := [], phase := .handling q (ctx.handler s.handlerState q) }, ?_, ⟨hcalls, ?_⟩, ?_⟩
  · simp only [System.readerStep, hphase, hread, hitem]
  · exact .handling q _ hwaiting rfl hresponses rfl hhandler hpending hanswered haccessed ho
  · refine rank_lt_of_distance rfl rfl rfl ?_
    simp [System.distance, hphase, hwaiting, hresponses]

/-- A handler returns or asks for an access. -/
theorem handling_reader {q : Request} {p : Prog (σ × Value)} (hcalls : ∀ c ∈ s.calls, c.Ok ctx sizeAt)
    (hwaiting : s.waiting = some q) (hphase : s.phase = .handling q p) (hresponses : s.responses = [])
    (hrequests : s.requests = []) (hp : p.Handles q) (hpending : s.Pending ctx sizeAt [])
    (hanswered : s.answered = s.returned) (haccessed : s.accessed = s.served)
    (ho : (ctx.resume q p s.calls s.memory).after s.written s.returned s.served = o) :
    Advances ctx sizeAt o s (s.readerStep ctx) := by
  cases p with
  | ret x =>
    obtain ⟨h, v⟩ := x
    have hresponse : q.response v ≠ [] := by simp [Request.response, otherHeader]
    refine ⟨{ s with
        phase := .reading, handlerState := h, responses := s.responses ++ q.response v
        answered := s.answered ++ [(q, v)] }, ?_, ⟨hcalls, ?_⟩, ?_⟩
    · simp only [System.readerStep, hphase]
    · refine .answered q v hwaiting rfl ?_ hrequests hp hpending ?_ haccessed ?_
      · rw [hresponses]
        rfl
      · rw [hanswered]
      · rw [← ho, Context.resume_ret, Outcome.after_after, List.append_nil, List.append_nil, hanswered]
    · refine rank_lt_of_distance rfl rfl rfl ?_
      simp [System.distance, hphase, hresponses, hresponse]
  | access a k =>
    have hrecord : a.record ≠ [] := by simp [Access.record, otherHeader]
    refine ⟨{ s with phase := .accessing q a k, responses := s.responses ++ a.record }, ?_, ⟨hcalls, ?_⟩, ?_⟩
    · simp only [System.readerStep, hphase]
    · refine .asking q a k hwaiting rfl ?_ hrequests hp hpending hanswered haccessed ho
      rw [hresponses]
      rfl
    · refine rank_lt_of_distance rfl rfl rfl ?_
      simp [System.distance, hphase, hresponses, hrecord]

/-- The writer carries out an access. -/
theorem asking_writer {q : Request} {a : Access} {k : List Byte → Prog (σ × Value)}
    (hcalls : ∀ c ∈ s.calls, c.Ok ctx sizeAt) (hwaiting : s.waiting = some q) (hphase : s.phase = .accessing q a k)
    (hresponses : s.responses = a.record) (hrequests : s.requests = []) (hp : (Prog.access a k).Handles q)
    (hpending : s.Pending ctx sizeAt []) (hanswered : s.answered = s.returned) (haccessed : s.accessed = s.served)
    (ho : (ctx.resume q (.access a k) s.calls s.memory).after s.written s.returned s.served = o) :
    Advances ctx sizeAt o s (s.writerStep ctx) := by
  obtain ⟨hmemory, hfits, hk⟩ := hp
  have hread := Request.parses_access hmemory hfits []
  rw [List.append_nil, ← hresponses] at hread
  have hlength := ctx.memory.length_perform s.memory a
  refine ⟨{ s with responses := [] }.serve ctx a, ?_, ?_⟩
  · simp only [System.writerStep, hwaiting, hread]
  · rw [System.serve_eq]
    refine ⟨⟨hcalls, .reported q a k (ctx.memory.perform s.memory a).2 hwaiting hphase rfl ?_ hlength (hk _ hlength)
      hpending hanswered ?_ ?_⟩, ?_⟩
    · rw [hrequests]
      rfl
    · rw [haccessed]
    · rw [← ho, Context.resume_access, Outcome.after_after, List.append_nil, List.append_nil]
    · have hrecord : a.record ≠ [] := by simp [Access.record, otherHeader]
      refine rank_lt_of_distance rfl rfl rfl ?_
      simp [System.distance, hphase, hresponses, hrecord]

/-- A handler goes on with the result of its access. -/
theorem reported_reader {q : Request} {a : Access} {k : List Byte → Prog (σ × Value)} {data : List Byte}
    (hcalls : ∀ c ∈ s.calls, c.Ok ctx sizeAt) (hwaiting : s.waiting = some q) (hphase : s.phase = .accessing q a k)
    (hresponses : s.responses = []) (hrequests : s.requests = memoryResponse a.addrOf a.opCode data)
    (hdata : data.length = a.resultSize) (hp : (k data).Handles q) (hpending : s.Pending ctx sizeAt [])
    (hanswered : s.answered = s.returned) (haccessed : s.accessed ++ [(a, data)] = s.served)
    (ho : (ctx.resume q (k data) s.calls s.memory).after s.written s.returned s.served = o) :
    Advances ctx sizeAt o s (s.readerStep ctx) := by
  have hread := a.parses_result hdata []
  rw [List.append_nil, ← hrequests] at hread
  refine ⟨{ s with phase := .handling q (k data), requests := [], accessed := s.accessed ++ [(a, data)] }, ?_,
    ⟨hcalls, ?_⟩, rank_lt_of_work rfl ?_⟩
  · simp only [System.readerStep, hphase, hread]
  · exact .handling q (k data) hwaiting rfl hresponses rfl hp hpending hanswered haccessed ho
  · have hlength : s.accessed.length < o.performed.length := by
      rw [← ho, Outcome.after, ← haccessed]
      simp only [List.length_append, List.length_singleton]
      omega
    simp only [List.length_append, List.length_singleton]
    omega

/-- A call returns. -/
theorem answered_writer {q : Request} {v : Value} (hcalls : ∀ c ∈ s.calls, c.Ok ctx sizeAt)
    (hwaiting : s.waiting = some q)
    (hphase : s.phase = .reading) (hresponses : s.responses = q.response v) (hrequests : s.requests = [])
    (hv : q.Returns v) (hpending : s.Pending ctx sizeAt []) (hanswered : s.answered = s.returned ++ [(q, v)])
    (haccessed : s.accessed = s.served)
    (ho : (ctx.direct s.calls s.handlerState s.memory).after s.written s.answered s.served = o) :
    Advances ctx sizeAt o s (s.writerStep ctx) := by
  have hread := Request.parses_response hv []
  rw [List.append_nil, ← hresponses] at hread
  rw [hanswered] at ho
  refine ⟨{ s with waiting := none, responses := [], returned := s.returned ++ [(q, v)] }, ?_, ⟨hcalls, ?_⟩,
    rank_lt_of_work rfl ?_⟩
  · simp only [System.writerStep, hwaiting, hread]
  · refine .idle rfl hphase rfl ?_ hanswered haccessed ho
    rw [hrequests]
    exact hpending
  · have hlength : s.returned.length < o.returned.length := by
      rw [← ho, Outcome.after]
      simp only [List.length_append, List.length_singleton]
      omega
    simp only [List.length_append, List.length_singleton]
    omega

/-- All calls have returned and nothing is in flight. -/
structure System.Finished (code : Word → Byte) (o : Outcome σ μ) (s : System σ μ) : Prop where
  calls : s.calls = []
  waiting : s.waiting = none
  phase : s.phase = .reading
  requests : s.requests = []
  responses : s.responses = []
  seen : List.Forall₂ (fun i item => (Call.instruction i).Shown code item) o.instructions s.seen
  returned : s.returned = o.returned
  answered : s.answered = o.returned
  served : s.served = o.performed
  accessed : s.accessed = o.performed
  memory : s.memory = o.memory
  handlerState : s.handlerState = o.handlerState

/-- Each process is blocked or goes on, and one of them goes on until everything is finished. -/
theorem InExchange.steps (h : InExchange ctx sizeAt o s) :
    (s.writerStep ctx = .error .blocked ∨ Advances ctx sizeAt o s (s.writerStep ctx)) ∧
    (s.readerStep ctx = .error .blocked ∨ Advances ctx sizeAt o s (s.readerStep ctx)) ∧
    (Advances ctx sizeAt o s (s.writerStep ctx) ∨ Advances ctx sizeAt o s (s.readerStep ctx) ∨
      s.Finished ctx.code o) := by
  obtain ⟨hcalls, hstage⟩ := h
  cases hstage with
  | idle hwaiting hphase hresponses hpending hanswered haccessed ho =>
    have hwriter := idle_writer hcalls hwaiting hphase hresponses hpending hanswered haccessed ho
    by_cases hrequests : s.requests = []
    · have hreader : s.readerStep ctx = .error .blocked := readerStep_blocked hphase hrequests
      refine ⟨hwriter.imp_left And.right, .inl hreader, ?_⟩
      rcases hwriter with ⟨hnil, -⟩ | hadvances
      · rw [hrequests] at hpending
        obtain ⟨items, r, hdelivers, -, hshown⟩ := hpending
        have hitems : items = [] := by
          generalize hb : ([] : List Byte) = b at hdelivers
          cases hdelivers with
          | nil => rfl
          | cons hne => exact absurd (List.append_eq_nil_iff.1 hb.symm).1 hne
        rw [hitems, List.append_nil] at hshown
        rw [hnil] at ho
        subst ho
        refine .inr (.inr ⟨hnil, hwaiting, hphase, hrequests, hresponses, ?_, ?_, ?_, ?_, ?_, rfl, rfl⟩)
        all_goals simp only [Context.direct, Outcome.after, List.append_nil, hanswered, haccessed]
        exact hshown
      · exact .inl hadvances
    · obtain ⟨r, seen, pend, hstep, hpending', hlt⟩ :=
        pending_reader hphase (List.append_nil s.requests).symm hpending hrequests
      rw [List.append_nil] at hstep hpending'
      have hreader : Advances ctx sizeAt o s (s.readerStep ctx) :=
        ⟨_, hstep, ⟨hcalls, .idle hwaiting hphase hresponses hpending' hanswered haccessed ho⟩,
          rank_lt_of_requests rfl rfl rfl rfl hlt⟩
      exact ⟨hwriter.imp_left And.right, .inr hreader, .inr (.inl hreader)⟩
  | asked q pend hwaiting hphase hresponses hrequests hq hhandler hpending hanswered haccessed ho =>
    have hreader : Advances ctx sizeAt o s (s.readerStep ctx) := by
      by_cases hpend : pend = []
      · rw [hpend] at hpending hrequests
        exact asked_reader hcalls hwaiting hphase hresponses hrequests hq hhandler hpending hanswered haccessed ho
      · obtain ⟨r, seen, pend', hstep, hpending', hlt⟩ := pending_reader hphase hrequests hpending hpend
        refine ⟨_, hstep, ⟨hcalls, .asked q pend' hwaiting hphase hresponses rfl hq hhandler hpending' hanswered haccessed ho⟩,
          rank_lt_of_requests rfl rfl rfl rfl ?_⟩
        rw [hrequests, List.length_append, List.length_append]
        omega
    exact ⟨.inl (writerStep_blocked hwaiting hresponses), .inr hreader, .inr (.inl hreader)⟩
  | handling q p hwaiting hphase hresponses hrequests hp hpending hanswered haccessed ho =>
    have hreader := handling_reader hcalls hwaiting hphase hresponses hrequests hp hpending hanswered haccessed ho
    exact ⟨.inl (writerStep_blocked hwaiting hresponses), .inr hreader, .inr (.inl hreader)⟩
  | asking q a k hwaiting hphase hresponses hrequests hp hpending hanswered haccessed ho =>
    have hwriter := asking_writer hcalls hwaiting hphase hresponses hrequests hp hpending hanswered haccessed ho
    refine ⟨.inr hwriter, .inl ?_, .inl hwriter⟩
    simp only [System.readerStep, hphase, hrequests, readResult_nil]
  | reported q a k data hwaiting hphase hresponses hrequests hdata hp hpending hanswered haccessed ho =>
    have hreader := reported_reader hcalls hwaiting hphase hresponses hrequests hdata hp hpending hanswered haccessed ho
    exact ⟨.inl (writerStep_blocked hwaiting hresponses), .inr hreader, .inr (.inl hreader)⟩
  | answered q v hwaiting hphase hresponses hrequests hv hpending hanswered haccessed ho =>
    have hwriter := answered_writer hcalls hwaiting hphase hresponses hrequests hv hpending hanswered haccessed ho
    exact ⟨.inr hwriter, .inl (readerStep_blocked hphase hrequests), .inl hwriter⟩

end Steps

/-! ### Runs -/

/-- What both sides have seen is part of the outcome, and the reader is never ahead of the writer. -/
structure System.Consistent (code : Word → Byte) (o : Outcome σ μ) (s : System σ μ) : Prop where
  written : s.written <+: o.instructions
  seen : ∃ unseen, List.Forall₂ (fun i item => (Call.instruction i).Shown code item) s.written (s.seen ++ unseen)
  returned : s.returned <+: s.answered
  answered : s.answered <+: o.returned
  accessed : s.accessed <+: s.served
  served : s.served <+: o.performed

section Runs

variable {ctx : Context σ μ} {sizeAt : Word → Byte} {o : Outcome σ μ} {s : System σ μ}

/-- The invariant, read as a statement about what has happened. -/
theorem InExchange.consistent (h : InExchange ctx sizeAt o s) : s.Consistent ctx.code o := by
  have hseen : ∀ pend, s.Pending ctx sizeAt pend →
      ∃ unseen, List.Forall₂ (fun i item => (Call.instruction i).Shown ctx.code item) s.written (s.seen ++ unseen) := by
    intro pend hpending
    obtain ⟨items, -, -, -, hshown⟩ := hpending
    exact ⟨items, hshown⟩
  cases h.stage with
  | idle hwaiting hphase hresponses hpending hanswered haccessed ho =>
    subst ho
    exact ⟨List.prefix_append .., hseen _ hpending, by rw [hanswered], by rw [hanswered]; exact List.prefix_append ..,
      by rw [haccessed], List.prefix_append ..⟩
  | asked q pend hwaiting hphase hresponses hrequests hq hhandler hpending hanswered haccessed ho =>
    subst ho
    exact ⟨List.prefix_append .., hseen _ hpending, by rw [hanswered], by rw [hanswered]; exact List.prefix_append ..,
      by rw [haccessed], List.prefix_append ..⟩
  | handling q p hwaiting hphase hresponses hrequests hp hpending hanswered haccessed ho =>
    subst ho
    exact ⟨List.prefix_append .., hseen _ hpending, by rw [hanswered], by rw [hanswered]; exact List.prefix_append ..,
      by rw [haccessed], List.prefix_append ..⟩
  | asking q a k hwaiting hphase hresponses hrequests hp hpending hanswered haccessed ho =>
    subst ho
    exact ⟨List.prefix_append .., hseen _ hpending, by rw [hanswered], by rw [hanswered]; exact List.prefix_append ..,
      by rw [haccessed], List.prefix_append ..⟩
  | reported q a k data hwaiting hphase hresponses hrequests hdata hp hpending hanswered haccessed ho =>
    subst ho
    exact ⟨List.prefix_append .., hseen _ hpending, by rw [hanswered], by rw [hanswered]; exact List.prefix_append ..,
      by rw [← haccessed]; exact List.prefix_append .., List.prefix_append ..⟩
  | answered q v hwaiting hphase hresponses hrequests hv hpending hanswered haccessed ho =>
    subst ho
    exact ⟨List.prefix_append .., hseen _ hpending, by rw [hanswered]; exact List.prefix_append ..,
      List.prefix_append .., by rw [haccessed], List.prefix_append ..⟩

/-- A step that succeeds leads on. -/
theorem InExchange.step (h : InExchange ctx sizeAt o s) {side : Side} {s' : System σ μ}
    (hs' : (protocol ctx).step s side = .ok s') : InExchange ctx sizeAt o s' ∧ s'.rank o < s.rank o := by
  obtain ⟨hwriter, hreader, -⟩ := h.steps
  cases side with
  | writer =>
    change s.writerStep ctx = .ok s' at hs'
    rw [hs'] at hwriter
    rcases hwriter with hblocked | ⟨t, ht, hinv, hrank⟩
    · cases hblocked
    · cases ht
      exact ⟨hinv, hrank⟩
  | reader =>
    change s.readerStep ctx = .ok s' at hs'
    rw [hs'] at hreader
    rcases hreader with hblocked | ⟨t, ht, hinv, hrank⟩
    · cases hblocked
    · cases ht
      exact ⟨hinv, hrank⟩

/-- A step that does not succeed is blocked. -/
theorem InExchange.blocked (h : InExchange ctx sizeAt o s) {side : Side} {f : ProtocolFault}
    (hf : (protocol ctx).step s side = .error f) : f = .blocked := by
  obtain ⟨hwriter, hreader, -⟩ := h.steps
  cases side with
  | writer =>
    change s.writerStep ctx = .error f at hf
    rw [hf] at hwriter
    rcases hwriter with hblocked | ⟨t, ht, -⟩
    · exact Except.error.inj hblocked
    · cases ht
  | reader =>
    change s.readerStep ctx = .error f at hf
    rw [hf] at hreader
    rcases hreader with hblocked | ⟨t, ht, -⟩
    · exact Except.error.inj hblocked
    · cases ht

/-- A run that stops is blocked. -/
theorem InExchange.run_blocked (h : InExchange ctx sizeAt o s) {es : List Side} {f : ProtocolFault}
    (hf : (protocol ctx).run s es = .error f) : f = .blocked := by
  induction es generalizing s with
  | nil => cases hf
  | cons side es ih =>
    rw [Machine.run] at hf
    split at hf
    · rename_i s' hs'
      exact ih (h.step hs').1 hf
    · rename_i g hg
      cases hf
      exact h.blocked hg

/-- There is no run without end. -/
theorem InExchange.terminates (h : InExchange ctx sizeAt o s) :
    Acc (fun s' s => ∃ side, (protocol ctx).step s side = .ok s') s := by
  induction hrank : s.rank o using WellFoundedLT.induction generalizing s with
  | ind rank ih =>
    refine ⟨s, fun s' hs' => ?_⟩
    obtain ⟨side, hstep⟩ := hs'
    obtain ⟨hinv, hlt⟩ := h.step hstep
    exact ih (s'.rank o) (hrank ▸ hlt) hinv rfl

/-- Some process can go on unless everything is finished. -/
theorem InExchange.progress (h : InExchange ctx sizeAt o s) :
    s.Finished ctx.code o ∨ ∃ side s', (protocol ctx).step s side = .ok s' := by
  obtain ⟨-, -, ⟨t, ht, -⟩ | ⟨t, ht, -⟩ | hfinished⟩ := h.steps
  · exact .inr ⟨.writer, t, ht⟩
  · exact .inr ⟨.reader, t, ht⟩
  · exact .inl hfinished

end Runs

/-- The instructions among the calls. -/
def insnsOf (calls : List ClientCall) : List Insn :=
  calls.filterMap fun c =>
    match c with
    | .instruction i _ => some i
    | _ => none

/-- The requests among the calls. -/
def requestsOf (calls : List ClientCall) : List Request :=
  calls.filterMap fun c =>
    match c with
    | .request q _ _ => some q
    | _ => none

/-- Before the first call. -/
theorem inExchange_start {ctx : Context σ μ} {calls : List ClientCall} (hwf : ∀ i ∈ insnsOf calls, i.WellFormed)
    (hsize : ∀ i ∈ insnsOf calls, ∀ j ∈ insnsOf calls, i.addr = j.addr → i.size = j.size)
    (hfits : ∀ q ∈ requestsOf calls, q.Fits)
    (hreads : ∀ q pagemap readable, .request q pagemap readable ∈ calls → q.ForceRead readable)
    (hhandler : ∀ q ∈ requestsOf calls, ∀ h, (ctx.handler h q).Handles q) (h : σ) (m : μ) :
    InExchange ctx (firstSize (insnsOf calls)) (ctx.direct calls h m) (.start calls m h) := by
  refine ⟨fun c hc => ?_, .idle rfl rfl rfl ⟨[], .new, .nil _, lock_new .., .nil⟩ rfl rfl rfl⟩
  cases c with
  | instruction i pagemap =>
    have hi : i ∈ insnsOf calls := List.mem_filterMap.2 ⟨_, hc, rfl⟩
    exact ⟨hwf i hi, firstSize_eq hsize hi⟩
  | request q pagemap readable =>
    have hq : q ∈ requestsOf calls := List.mem_filterMap.2 ⟨_, hc, rfl⟩
    exact ⟨hfits q hq, hreads q pagemap readable hc, hhandler q hq⟩

/-- In every interleaving the two processes do what direct calls of the handlers do: no assertion fails, calls
return the values of their handlers, accesses reach the memory once and in order, and every run ends with all calls
returned. -/
theorem exchange_direct (ctx : Context σ μ) (calls : List ClientCall) (h : σ) (m : μ)
    (hwf : ∀ i ∈ insnsOf calls, i.WellFormed)
    (hsize : ∀ i ∈ insnsOf calls, ∀ j ∈ insnsOf calls, i.addr = j.addr → i.size = j.size)
    (hfits : ∀ q ∈ requestsOf calls, q.Fits)
    (hreads : ∀ q pagemap readable, .request q pagemap readable ∈ calls → q.ForceRead readable)
    (hhandler : ∀ q ∈ requestsOf calls, ∀ h, (ctx.handler h q).Handles q) :
    (∀ es f, (protocol ctx).run (.start calls m h) es = .error f → f = .blocked) ∧
    (∀ s, (protocol ctx).Reachable (.start calls m h) s →
      s.Consistent ctx.code (ctx.direct calls h m) ∧
      (s.Finished ctx.code (ctx.direct calls h m) ∨ ∃ side s', (protocol ctx).step s side = .ok s')) ∧
    Acc (fun s' s => ∃ side, (protocol ctx).step s side = .ok s') (.start calls m h) := by
  have hstart := inExchange_start hwf hsize hfits hreads hhandler h m
  refine ⟨fun es f hf => hstart.run_blocked hf, fun s hs => ?_, hstart.terminates⟩
  have hinv : InExchange ctx (firstSize (insnsOf calls)) (ctx.direct calls h m) s :=
    hs.invariant hstart fun s side s' hs hstep => (hs.step hstep).1
  exact ⟨hinv.consistent, hinv.progress⟩

/-- A memory of one byte per address, and a handler of system calls that copies two bytes before it returns. -/
def copyContext : Context Unit (Word → Byte) where
  cfg := ⟨false, false, true⟩
  code := fun a => a.setWidth 8
  memory := ⟨fun m _ addr n => (m, (List.range n).map fun k => m (addr + BitVec.ofNat 64 k)),
    fun m _ addr data x => data.getD (x - addr).toNat (m x), by simp⟩
  handler _ q :=
    match q with
    | .syscall _ _ => .access (.read .noLock 0x100 2) fun data => .access (.write .noLock 0x200 (data ++ [7])) fun _ =>
        .ret ((), .word 42)
    | .instructionCount _ | .sync => .ret ((), .mode 1)
    | .newThread | .join _ | .fork => .ret ((), .int 3)
    | .magic a _ _ => .ret ((), .word a)
    | .emulate _ req => .ret ((), .emu true req 0 0)

/-- A call of `SYS_futex` about the address 0x100. -/
def futexCall : Request := .syscall 202 (wordBytes 0x100 ++ wordBytes 1)

/-- An instruction, a system call, and an instruction count. The program has the page from 0 to 0xfff. -/
def copyCalls : List ClientCall :=
  [.instruction ⟨0x400, 3, [], false, false, false, true⟩ id, .request futexCall id fun a => a < 0xffd,
    .request (.instructionCount 9) id fun _ => false]

theorem exchange_direct_copy : Acc (fun s' s => ∃ side, (protocol copyContext).step s side = .ok s')
    (.start copyCalls (fun a => a.setWidth 8) ()) := by
  refine (exchange_direct copyContext copyCalls () (fun a => a.setWidth 8) (fun i hi => ?_) (fun i hi j hj => ?_)
    (fun q hq => ?_) (fun q pagemap readable hq => ?_) fun q hq _ => ?_).2.2
  · rw [List.mem_singleton.1 (show i ∈ [(⟨0x400, 3, [], false, false, false, true⟩ : Insn)] from hi)]
    exact ⟨⟨by decide, by decide, by decide⟩, by decide⟩
  · rw [List.mem_singleton.1 (show i ∈ [(⟨0x400, 3, [], false, false, false, true⟩ : Insn)] from hi),
      List.mem_singleton.1 (show j ∈ [(⟨0x400, 3, [], false, false, false, true⟩ : Insn)] from hj)]
    exact fun _ => rfl
  · rcases List.mem_cons.1 (show q ∈ [futexCall, .instructionCount 9] from hq) with rfl | hq
    · exact ⟨by decide, by decide⟩
    · rw [List.mem_singleton.1 hq]
      exact trivial
  · rcases List.mem_cons.1 ((List.mem_cons.1 hq).resolve_left nofun) with heq | hq
    · cases heq
      decide
    · cases List.mem_singleton.1 hq
      exact trivial
  · rcases List.mem_cons.1 (show q ∈ [futexCall, .instructionCount 9] from hq) with rfl | hq
    · refine ⟨rfl, show 0 < (2 : BitVec 32).toNat by decide, fun data hdata => ⟨rfl, ?_, fun _ _ => trivial⟩⟩
      rw [Access.resultSize] at hdata
      refine ⟨by simp, ?_⟩
      rw [List.length_append, hdata]
      decide
    · rw [List.mem_singleton.1 hq]
      exact trivial

/-- A system call whose size wraps around is refused by the reader. -/
theorem exchange_long_syscall : (protocol copyContext).run
    (.start [.request (.syscall 0 (List.replicate (2 ^ 32 - 2) 0)) id fun _ => false] (fun a => a.setWidth 8) ()) [.writer, .reader]
    = .error (.reader (.recordSize .syscallRequest)) := by
  obtain ⟨data, hdata⟩ : ∃ data : List Byte, data = List.replicate (2 ^ 32 - 2) 0 := ⟨_, rfl⟩
  have hlength : data.length = 2 ^ 32 - 2 := by rw [hdata, List.length_replicate]
  rw [← hdata]
  have hsize : ¬ (2 + data.length) % 2 ^ 32 > 2 := by omega
  have hrejects : Rejects (Reader.readRecord .new) (Request.syscall 0 data).record (.recordSize .syscallRequest) := by
    rw [Request.record, List.append_assoc]
    exact Reader.rejects_other ((Rejects.check_bind hsize).append (leBytes 2 (0 : BitVec 16).toNat ++ data))
  have hread := hrejects []
  rw [List.append_nil] at hread
  obtain ⟨s, hs⟩ : ∃ s : System Unit (Word → Byte), s = { System.start [] (fun a => a.setWidth 8) () with
      waiting := some (.syscall 0 data), requests := (Request.syscall 0 data).record } := ⟨_, rfl⟩
  have hwriter : (protocol copyContext).step (.start [.request (.syscall 0 data) id fun _ => false] (fun a => a.setWidth 8) ()) .writer
      = .ok s := by
    rw [hs]
    rfl
  have hreader : (protocol copyContext).step s .reader = .error (.reader (.recordSize .syscallRequest)) := by
    have hphase : s.phase = .reading := by
      rw [hs]
      rfl
    have hrecord : s.reader.readRecord s.requests = .error (.recordSize .syscallRequest) := by
      rw [hs]
      exact hread
    change s.readerStep copyContext = _
    simp only [System.readerStep, hphase, hrecord]
  rw [Machine.run, hwriter]
  dsimp only
  rw [Machine.run, hreader]

end LifeSim.Sift

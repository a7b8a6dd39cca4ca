import OnlineChat.Lib.Exec
import OnlineChat.RecvLoop

/-!
# GaussConnector

`GaussConnector.hpp` and `GaussConnector.cpp`, with the part of `libpq` they call. What `PQexec`
comes to is given by an `Outcome`; as `libpq-fe.h` has it, the statuses `PGRES_COMMAND_OK` and
`PGRES_TUPLES_OK` mean that the command was executed and all others that it was not. A `Session`
is a caller with one buffer for error messages, which it passes to a call or does not.

`executed` is what the database has done for the connector, and `trace` is a history of the
results it got and cleared; no part of the program reads either.
-/

namespace OnlineChat.Gauss
open Lib

inductive ConnStatusType
  | CONNECTION_OK
  | CONNECTION_BAD
  | CONNECTION_STARTED
  | CONNECTION_MADE
  | CONNECTION_AWAITING_RESPONSE
  | CONNECTION_AUTH_OK
  | CONNECTION_SETENV
  | CONNECTION_SSL_STARTUP
  | CONNECTION_NEEDED
  | CONNECTION_CHECK_WRITABLE
  | CONNECTION_CONSUME
  | CONNECTION_CHECK_TARGET
  | CONNECTION_CHECK_STANDBY
  deriving DecidableEq

inductive ExecStatusType
  | PGRES_EMPTY_QUERY
  | PGRES_COMMAND_OK
  | PGRES_TUPLES_OK
  | PGRES_COPY_OUT
  | PGRES_COPY_IN
  | PGRES_BAD_RESPONSE
  | PGRES_NONFATAL_ERROR
  | PGRES_FATAL_ERROR
  | PGRES_COPY_BOTH
  | PGRES_SINGLE_TUPLE
  deriving DecidableEq

/-- A command that returns rows or none was executed properly. -/
def ExecStatusType.executed : ExecStatusType → Bool
  | PGRES_COMMAND_OK | PGRES_TUPLES_OK => true
  | _ => false

/-- A command in SQL. -/
abbrev Cmd := List Byte

/-- A `PGresult` that `PQexec` has made. -/
abbrev ResultId := Nat

/-- What `PQexec` comes to. -/
structure Outcome where
  /-- The status of the result; `none` when `PQexec` cannot make one and returns a null pointer. -/
  result : Option ExecStatusType
  /-- `PQerrorMessage` after the call. -/
  message : List Byte
  message_str : (0 : Byte) ∉ message

/-- A result with no message. -/
def Outcome.quiet (status : ExecStatusType) : Outcome := ⟨some status, [], List.not_mem_nil⟩

/-- `PQresultStatus` of the result, which takes a null pointer for a fatal error. -/
def Outcome.PQresultStatus (o : Outcome) : ExecStatusType := o.result.getD .PGRES_FATAL_ERROR

inductive Event
  | obtained (r : ResultId)
  | cleared (r : ResultId)
  | finished
  deriving DecidableEq

structure GaussConnector where
  /-- The commands the database has executed for this connector, oldest first. -/
  executed : List Cmd
  /-- The member `res`; the constructor does not set it. -/
  res : Option ResultId
  nextRes : ResultId
  trace : List Event

namespace GaussConnector
variable {n : Nat} (g : GaussConnector)

/-- The constructor, on an uninitialised `res`; without a connection it ends the process. -/
def new (res : Option ResultId) (status : ConnStatusType) : Option GaussConnector :=
  if status ≠ .CONNECTION_OK then none else some ⟨[], res, 0, []⟩

theorem new_eq {g : GaussConnector} {res : Option ResultId} {status : ConnStatusType}
    (hg : new res status = some g) : g = ⟨[], res, 0, []⟩ := by
  simp only [new, Option.ite_none_left_eq_some, Option.some.injEq] at hg
  exact hg.2.symm

/-- The destructor, with `PQfinish`. -/
def finish : GaussConnector := { g with trace := g.trace ++ [.finished] }

/-- `res = PQexec(conn, cmd)`. -/
def PQexec (cmd : Cmd) (o : Outcome) : GaussConnector :=
  let g := if o.PQresultStatus.executed then { g with executed := g.executed ++ [cmd] } else g
  match o.result with
  | none => { g with res := none }
  | some _ => { g with
    res := some g.nextRes
    nextRes := g.nextRes + 1
    trace := g.trace ++ [.obtained g.nextRes] }

/-- `PQclear(res)`, which ignores a null pointer. -/
def PQclear : GaussConnector :=
  match g.res with
  | none => g
  | some r => { g with trace := g.trace ++ [.cleared r] }

/-- `if(errmsgBuffer != nullptr) strcat(errmsgBuffer, PQerrorMessage(conn))`. -/
def appendMessage (errmsgBuffer : Option (Buf n)) (o : Outcome) : Except Fault (Option (Buf n)) :=
  match errmsgBuffer with
  | none => .ok none
  | some b =>
    match b.strcat? o.message with
    | some b => .ok (some b)
    | none => .error .outOfBounds

/-- The body that `insert`, `update` and `omit` share, with the value it returns. -/
def run (cmd : Cmd) (o : Outcome) (errmsgBuffer : Option (Buf n)) :
    Except Fault (Int × Option (Buf n) × GaussConnector) := do
  let g := g.PQexec cmd o
  if o.PQresultStatus ≠ .PGRES_COMMAND_OK then
    let errmsgBuffer ← appendMessage errmsgBuffer o
    pure (-1, errmsgBuffer, g.PQclear)
  else
    pure (0, errmsgBuffer, g)

def insert (cmd : Cmd) (o : Outcome) (errmsgBuffer : Option (Buf n)) :
    Except Fault (Int × Option (Buf n) × GaussConnector) := g.run cmd o errmsgBuffer

def update (cmd : Cmd) (o : Outcome) (errmsgBuffer : Option (Buf n)) :
    Except Fault (Int × Option (Buf n) × GaussConnector) := g.run cmd o errmsgBuffer

def «omit» (cmd : Cmd) (o : Outcome) (errmsgBuffer : Option (Buf n)) :
    Except Fault (Int × Option (Buf n) × GaussConnector) := g.run cmd o errmsgBuffer

end GaussConnector

/-! ## A caller -/

inductive Method
  | insert
  | update
  | «omit»
  deriving DecidableEq

structure Call where
  method : Method
  cmd : Cmd
  outcome : Outcome
  /-- The caller passes its buffer; otherwise there is the default argument, or a null `char *`. A
  literal `nullptr` is neither, it selects the variadic template. -/
  buffered : Bool

/-- The connector takes the call for a failure. -/
def Call.fails (c : Call) : Bool := c.outcome.PQresultStatus ≠ .PGRES_COMMAND_OK

theorem Call.fails_iff {c : Call} :
    c.fails = true ↔ c.outcome.PQresultStatus ≠ .PGRES_COMMAND_OK := decide_eq_true_iff

theorem Call.fails_eq_false {c : Call} :
    c.fails = false ↔ c.outcome.PQresultStatus = .PGRES_COMMAND_OK := by
  rw [← Bool.not_eq_true, Call.fails_iff, not_ne_iff]

def Method.invoke {n : Nat} : Method → GaussConnector → Cmd → Outcome → Option (Buf n) →
    Except Fault (Int × Option (Buf n) × GaussConnector)
  | insert => GaussConnector.insert
  | update => GaussConnector.update
  | «omit» => GaussConnector.omit

structure Session (n : Nat) where
  gauss : GaussConnector
  errmsgBuffer : Buf n
  /-- The calls so far, with what they returned. -/
  returned : List (Cmd × Int)

namespace Session
variable {n : Nat} (s : Session n)

/-- One call. -/
def step (c : Call) : Except Fault (Session n) := do
  let (ret, buf, g) ← c.method.invoke s.gauss c.cmd c.outcome
    (if c.buffered then some s.errmsgBuffer else none)
  pure ⟨g, buf.getD s.errmsgBuffer, s.returned ++ [(c.cmd, ret)]⟩

def Step (c : Call) (s' : Session n) : Prop := s.step c = .ok s'

theorem step_of_toOption {s s' : Session n} {c : Call} (h : (s.step c).toOption = some s') :
    s.Step c s' := by
  cases hs : s.step c with
  | error => simp [hs, Except.toOption] at h
  | ok v => exact hs.trans (by simpa [hs, Except.toOption] using h)

/-- A caller that has made no call yet. -/
def start (g : GaussConnector) (errmsgBuffer : Buf n) : Session n := ⟨g, errmsgBuffer, []⟩

/-- The commands whose call returned 0. -/
def succeeded : List Cmd := (s.returned.filter (·.2 = 0)).map Prod.fst

/-! ## What a call does -/

section
variable {s} {c : Call}

theorem invoke_eq (m : Method) (g : GaussConnector) (cmd : Cmd) (o : Outcome)
    (b : Option (Buf n)) : m.invoke g cmd o b = g.run cmd o b := by
  cases m <;> rfl

theorem step_ok (h : c.fails = false) : s.step c =
    .ok ⟨s.gauss.PQexec c.cmd c.outcome, s.errmsgBuffer, s.returned ++ [(c.cmd, 0)]⟩ := by
  have hst := Call.fails_eq_false.mp h
  simp only [step, invoke_eq, GaussConnector.run, hst, ne_eq, not_true_eq_false, if_false]
  cases c.buffered <;> rfl

/-- A failing call without a buffer. -/
theorem step_fail (h : c.fails = true) (hb : c.buffered = false) : s.step c =
    .ok ⟨(s.gauss.PQexec c.cmd c.outcome).PQclear, s.errmsgBuffer,
      s.returned ++ [(c.cmd, -1)]⟩ := by
  have hst := Call.fails_iff.mp h
  simp only [step, invoke_eq, GaussConnector.run, if_pos hst, hb]
  rfl

/-- A failing call with a buffer appends to what is in it. -/
theorem step_append (h : c.fails = true) (hb : c.buffered = true) : s.step c =
    match s.errmsgBuffer.strcat? c.outcome.message with
    | some b => .ok ⟨(s.gauss.PQexec c.cmd c.outcome).PQclear, b, s.returned ++ [(c.cmd, -1)]⟩
    | none => .error .outOfBounds := by
  have hst := Call.fails_iff.mp h
  simp only [step, invoke_eq, GaussConnector.run, if_pos hst, hb, if_true,
    GaussConnector.appendMessage]
  cases s.errmsgBuffer.strcat? c.outcome.message <;> rfl

/-- What a call that returns makes of the connector, and the value it returns. -/
theorem Step.inv {s' : Session n} (h : s.Step c s') :
    s'.gauss = (if c.fails then (s.gauss.PQexec c.cmd c.outcome).PQclear
      else s.gauss.PQexec c.cmd c.outcome) ∧
    s'.returned = s.returned ++ [(c.cmd, if c.fails then -1 else 0)] := by
  cases hf : c.fails with
  | false =>
    cases (step_ok hf).symm.trans h
    exact ⟨rfl, rfl⟩
  | true =>
    cases hb : c.buffered with
    | false =>
      cases (step_fail hf hb).symm.trans h
      exact ⟨rfl, rfl⟩
    | true =>
      have hstep := (step_append hf hb).symm.trans h
      split at hstep
      · cases hstep
        exact ⟨rfl, rfl⟩
      · cases hstep

/-- The run of a list of calls on a new connector, with an empty buffer. -/
theorem new_run {calls : List Call} {P : Session n → Prop}
    (h : ∃ s, Exec.runs (fun s c => (Session.step s c).toOption)
      (start ⟨[], none, 0, []⟩ (.zero n)) calls = some s ∧ P s) :
    ∃ g xs s, GaussConnector.new none .CONNECTION_OK = some g ∧
      Exec Step (start g (.zero n)) xs s ∧ xs.map Prod.snd = calls ∧ P s := by
  obtain ⟨s, hs, hP⟩ := h
  obtain ⟨xs, hx, hcalls⟩ := Exec.of_runs step_of_toOption hs
  exact ⟨_, xs, s, rfl, hx, hcalls, hP⟩

end
end Session
end OnlineChat.Gauss

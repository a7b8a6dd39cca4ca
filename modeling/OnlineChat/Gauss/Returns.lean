import OnlineChat.Gauss.Connector

/-!
# What the caller is told and what the database did

A call returns 0 for `PGRES_COMMAND_OK` alone. A command that changes data and returns rows has the
status `PGRES_TUPLES_OK`: it is executed and the caller is told that it was not.
-/

namespace OnlineChat.Gauss
open Lib

namespace Session
variable {n : Nat} {s s' : Session n} {c : Call}

/-- A step adds its command to what has been executed, or nothing, and says so or not. -/
theorem Step.records (h : s.Step c s') :
    s'.gauss.executed =
      s.gauss.executed ++ (if c.outcome.PQresultStatus.executed then [c.cmd] else []) ∧
    s'.returned = s.returned ++ [(c.cmd, if c.fails then -1 else 0)] := by
  have hexec : (s.gauss.PQexec c.cmd c.outcome).executed =
      s.gauss.executed ++ (if c.outcome.PQresultStatus.executed then [c.cmd] else []) := by
    unfold GaussConnector.PQexec
    cases c.outcome.result <;> cases c.outcome.PQresultStatus.executed <;> simp
  have hclear : ∀ g : GaussConnector, g.PQclear.executed = g.executed := by
    intro g
    unfold GaussConnector.PQclear
    split <;> rfl
  obtain ⟨hgauss, hret⟩ := h.inv
  refine ⟨?_, hret⟩
  rw [hgauss]
  cases c.fails with
  | false => exact hexec
  | true => exact (hclear _).trans hexec

/-- The call returned -1. -/
theorem Step.failed (h : s.Step c s') (hr : s'.returned = s.returned ++ [(c.cmd, -1)]) :
    c.fails = true := by
  rw [h.records.2] at hr
  have hpair := List.append_cancel_left hr
  cases hf : c.fails with
  | true => rfl
  | false =>
    rw [hf] at hpair
    simp at hpair

theorem succeeded_snoc {xs : List (Cmd × Int)} {cmd : Cmd} {ret : Int}
    (h : s.returned = xs ++ [(cmd, ret)]) :
    s.succeeded = (xs.filter (·.2 = 0)).map Prod.fst ++ (if ret = 0 then [cmd] else []) := by
  rw [succeeded, h, List.filter_append, List.map_append]
  by_cases hr : ret = 0 <;> simp [hr]

theorem executed_of_ok (h : c.fails = false) : c.outcome.PQresultStatus.executed = true := by
  rw [Call.fails_eq_false.mp h]
  rfl

/-- A failing call whose command was executed anyway. -/
theorem executed_of_fails (h : c.fails = true) :
    c.outcome.PQresultStatus.executed = true ↔ c.outcome.PQresultStatus = .PGRES_TUPLES_OK := by
  have hst := Call.fails_iff.mp h
  cases hs : c.outcome.PQresultStatus <;> simp_all [ExecStatusType.executed]

variable {g : GaussConnector} {b : Buf n} {xs : List (Session n × Call)}

/-- The database has executed the commands of the calls that returned 0 and of those that had rows
to return. -/
theorem executed_length (hg : g.executed = []) (hx : Exec Step (start g b) xs s) :
    s.gauss.executed.length = s.succeeded.length +
      xs.countP (fun x => x.2.outcome.PQresultStatus = .PGRES_TUPLES_OK) := by
  induction hx with
  | nil => simp [start, hg, succeeded]
  | @snoc xs t c u _ hst ih =>
    obtain ⟨hexec, hret⟩ := hst.records
    rw [succeeded_snoc hret, hexec, List.countP_append, List.countP_singleton,
      List.length_append, List.length_append, ih]
    change t.succeeded.length + _ + _ = t.succeeded.length + _ + _
    cases hf : c.fails with
    | false =>
      have hst := Call.fails_eq_false.mp hf
      rw [executed_of_ok hf]
      simp [hst]
      omega
    | true =>
      by_cases ht : c.outcome.PQresultStatus = .PGRES_TUPLES_OK
      · rw [(executed_of_fails hf).mpr ht]
        simp [ht]
        omega
      · have hno : c.outcome.PQresultStatus.executed = false :=
          Bool.eq_false_iff.mpr (mt (executed_of_fails hf).mp ht)
        rw [hno]
        simp [ht]

/-- As long as no command returns rows. -/
theorem executed_eq (hg : g.executed = []) (hx : Exec Step (start g b) xs s)
    (hno : ∀ x ∈ xs, x.2.outcome.PQresultStatus ≠ .PGRES_TUPLES_OK) :
    s.gauss.executed = s.succeeded := by
  induction hx with
  | nil => simp [start, hg, succeeded]
  | @snoc xs t c u _ hst ih =>
    have ih := ih fun x hx => hno x (List.mem_append_left _ hx)
    have hc := hno (t, c) (by simp)
    obtain ⟨hexec, hret⟩ := hst.records
    rw [succeeded_snoc hret, hexec, ih]
    change t.succeeded ++ _ = t.succeeded ++ _
    cases hf : c.fails with
    | false => rw [executed_of_ok hf]; rfl
    | true => rw [Bool.eq_false_iff.mpr (mt (executed_of_fails hf).mp hc)]; rfl

/-- The return values agree with the database exactly in the runs in which no command has rows to
return. -/
theorem returns_iff {res : Option ResultId} {status : ConnStatusType}
    (hg : GaussConnector.new res status = some g) (hx : Exec Step (start g b) xs s) :
    (s.gauss.executed = s.succeeded ∧ ∀ x ∈ xs, ∀ u, x.1.Step x.2 u →
      u.returned = x.1.returned ++ [(x.2.cmd, -1)] →
      u.gauss.executed = x.1.gauss.executed) ↔
    ∀ x ∈ xs, x.2.outcome.PQresultStatus ≠ .PGRES_TUPLES_OK := by
  have hempty : g.executed = [] := congrArg _ (GaussConnector.new_eq hg)
  constructor
  · rintro ⟨heq, -⟩
    have hlen := executed_length hempty hx
    rw [heq, Nat.left_eq_add, List.countP_eq_zero] at hlen
    intro x hm ht
    exact hlen x hm (decide_eq_true ht)
  · intro hno
    refine ⟨executed_eq hempty hx hno, ?_⟩
    intro x hm u hst hret
    have hf := hst.failed hret
    rw [hst.records.1, Bool.eq_false_iff.mpr (mt (executed_of_fails hf).mp (hno x hm))]
    exact List.append_nil _

/-- A row is inserted and a second command refused. -/
def twoCalls : List Call :=
  [⟨.insert, "INSERT INTO t VALUES (1)".toUTF8.toList, .quiet .PGRES_COMMAND_OK, false⟩,
   ⟨.update, "UPDATE u SET x = 1".toUTF8.toList, ⟨some .PGRES_FATAL_ERROR, [69], by decide⟩, true⟩]

theorem returns_iff_two : ∃ g xs s, GaussConnector.new none .CONNECTION_OK = some g ∧
    Exec Step (start g (.zero 4)) xs s ∧ xs.map Prod.snd = twoCalls ∧
    s.gauss.executed = s.succeeded := by
  obtain ⟨g, xs, s, hnew, hx, hcalls, -⟩ :=
    @new_run 4 twoCalls (fun _ => True) ⟨_, rfl, trivial⟩
  have hall : ∀ c ∈ twoCalls, c.outcome.PQresultStatus ≠ .PGRES_TUPLES_OK := by decide
  exact ⟨g, xs, s, hnew, hx, hcalls,
    ((returns_iff hnew hx).mpr (Exec.forall_labels hcalls hall)).1⟩

/-- A row is inserted and its number returned. -/
def insertReturning : Call :=
  ⟨.insert, "INSERT INTO t VALUES (1) RETURNING id".toUTF8.toList,
    .quiet .PGRES_TUPLES_OK, false⟩

theorem inserted_returning : ∃ g xs s, GaussConnector.new none .CONNECTION_OK = some g ∧
    Exec Step (start g (.zero 4)) xs s ∧ xs.map Prod.snd = [insertReturning] ∧
    s.returned = [(insertReturning.cmd, -1)] ∧ s.gauss.executed = [insertReturning.cmd] ∧
    s.gauss.executed ≠ s.succeeded := by
  have hstep : (start ⟨[], none, 0, []⟩ (.zero 4)).Step insertReturning
      ⟨⟨[insertReturning.cmd], some 0, 1, [.obtained 0, .cleared 0]⟩, .zero 4,
        [(insertReturning.cmd, -1)]⟩ := rfl
  exact ⟨_, _, _, rfl, .single hstep, rfl, rfl, rfl, List.cons_ne_nil _ _⟩

end Session
end OnlineChat.Gauss

import OnlineChat.Lib.Ledger
import OnlineChat.Gauss.Connector

/-!
# The results a connector holds

A call keeps the result of `PQexec` in `res` and passes it to `PQclear` if it fails. A call that
succeeds leaves it there. The next call puts its own result in its place, and the destructor does
not clear the last one, so every call that succeeds leaves one more result behind.
-/

namespace OnlineChat.Gauss
open Lib

/-- The result that `PQexec` has returned. -/
def Event.obtains : Event → Option ResultId
  | obtained r => some r
  | cleared _ | finished => none

/-- The result that was passed to `PQclear`. -/
def Event.clears : Event → Option ResultId
  | cleared r => some r
  | obtained _ | finished => none

theorem Event.obtains_obtained {r : ResultId} : (obtained r).obtains = some r := rfl

theorem Event.obtains_cleared {r : ResultId} : (cleared r).obtains = none := rfl

theorem Event.clears_cleared {r : ResultId} : (cleared r).clears = some r := rfl

namespace GaussConnector
variable (g : GaussConnector)

def obtained : List ResultId := g.trace.filterMap Event.obtains

def cleared : List ResultId := g.trace.filterMap Event.clears

/-- The results that have been obtained and not cleared. -/
def outstanding : List ResultId := Lib.outstanding Event.obtains Event.clears g.trace

/-- No result is cleared twice, and `nextRes` is a fresh name. -/
structure Accounted : Prop where
  account : Account Event.obtains Event.clears g.trace
  made : ∀ r ∈ g.obtained, r < g.nextRes

variable (cmd : Cmd) {o : Outcome}

theorem PQexec_none (h : o.result = none) : (g.PQexec cmd o).trace = g.trace ∧
    (g.PQexec cmd o).nextRes = g.nextRes ∧ (g.PQexec cmd o).res = none := by
  unfold PQexec
  rw [h]
  cases o.PQresultStatus.executed <;> exact ⟨rfl, rfl, rfl⟩

theorem PQexec_some {status : ExecStatusType} (h : o.result = some status) :
    (g.PQexec cmd o).trace = g.trace ++ [.obtained g.nextRes] ∧
    (g.PQexec cmd o).nextRes = g.nextRes + 1 ∧ (g.PQexec cmd o).res = some g.nextRes := by
  unfold PQexec
  rw [h]
  cases o.PQresultStatus.executed <;> exact ⟨rfl, rfl, rfl⟩

variable {g}

theorem Accounted.outstanding_lt (h : g.Accounted) {r : ResultId} (hr : r ∈ g.outstanding) :
    r < g.nextRes := h.made r (mem_outstanding.mp hr).1

/-- `PQexec` adds the result it returns, which is a new one. -/
theorem Accounted.PQexec (h : g.Accounted) (o : Outcome) : (g.PQexec cmd o).Accounted ∧
    (g.PQexec cmd o).outstanding = g.outstanding ++ (g.PQexec cmd o).res.toList ∧
    ∀ r ∈ g.outstanding, (g.PQexec cmd o).res ≠ some r := by
  cases hres : o.result with
  | none =>
    obtain ⟨htrace, hnext, hres⟩ := PQexec_none g cmd hres
    refine ⟨⟨?_, ?_⟩, ?_, ?_⟩
    · rw [htrace]; exact h.account
    · rw [obtained, htrace, hnext]; exact h.made
    · rw [outstanding, htrace, hres]; exact (List.append_nil _).symm
    · intro r _
      rw [hres]
      exact Option.some_ne_none r |>.symm
  | some status =>
    obtain ⟨htrace, hnext, hres⟩ := PQexec_some g cmd hres
    have hfresh : g.nextRes ∉ g.obtained := fun hm => Nat.lt_irrefl _ (h.made _ hm)
    refine ⟨⟨?_, ?_⟩, ?_, ?_⟩
    · rw [htrace]
      exact h.account.opens rfl rfl hfresh
    · intro r hr
      rw [obtained, htrace, filterMap_snoc_some Event.obtains_obtained] at hr
      rw [hnext]
      rcases List.mem_append.mp hr with hr | hr
      · exact Nat.lt_succ_of_lt (h.made r hr)
      · cases List.mem_singleton.mp hr
        exact Nat.lt_succ_self _
    · rw [outstanding, htrace, hres]
      exact h.account.outstanding_open rfl rfl hfresh
    · intro r hr heq
      rw [hres] at heq
      cases heq
      exact Nat.lt_irrefl _ (h.outstanding_lt hr)

/-- `PQclear` takes away the result in `res`. -/
theorem Accounted.PQclear (h : g.Accounted) (hres : ∀ r, g.res = some r → r ∈ g.outstanding) :
    g.PQclear.Accounted ∧ g.PQclear.outstanding = g.outstanding.filter (g.res ≠ some ·) := by
  unfold GaussConnector.PQclear
  cases hr : g.res with
  | none =>
    refine ⟨h, ?_⟩
    simp
  | some r =>
    obtain ⟨hopened, hclosed⟩ := mem_outstanding.mp (hres r hr)
    refine ⟨⟨h.account.closes rfl rfl hopened hclosed, ?_⟩, ?_⟩
    · rw [obtained, filterMap_snoc_none Event.obtains_cleared]
      exact h.made
    · refine (outstanding_close Event.obtains_cleared Event.clears_cleared).trans ?_
      refine List.filter_congr fun x _ => ?_
      simp [eq_comm]

/-- The two together leave what was outstanding. -/
theorem Accounted.PQexec_PQclear (h : g.Accounted) (o : Outcome) : (g.PQexec cmd o).PQclear.Accounted ∧
    (g.PQexec cmd o).PQclear.outstanding = g.outstanding := by
  obtain ⟨hexec, hout, hnew⟩ := h.PQexec cmd o
  have hres : ∀ r, (g.PQexec cmd o).res = some r → r ∈ (g.PQexec cmd o).outstanding := by
    intro r hr
    rw [hout, hr]
    exact List.mem_append_right _ (List.mem_singleton_self r)
  obtain ⟨hclear, hout'⟩ := hexec.PQclear hres
  refine ⟨hclear, ?_⟩
  rw [hout', hout, List.filter_append]
  have hold : g.outstanding.filter ((g.PQexec cmd o).res ≠ some ·) = g.outstanding :=
    List.filter_eq_self.mpr fun r hr => decide_eq_true (hnew r hr)
  have hgone : (g.PQexec cmd o).res.toList.filter ((g.PQexec cmd o).res ≠ some ·) = [] := by
    cases (g.PQexec cmd o).res <;> simp
  rw [hold, hgone, List.append_nil]

theorem Accounted.finish (h : g.Accounted) :
    g.finish.Accounted ∧ g.finish.outstanding = g.outstanding := by
  refine ⟨⟨h.account.skip rfl rfl, ?_⟩, outstanding_skip rfl rfl⟩
  rw [obtained, GaussConnector.finish, filterMap_snoc_none rfl]
  exact h.made

theorem Accounted.new {res : Option ResultId} {status : ConnStatusType}
    (hg : GaussConnector.new res status = some g) : g.Accounted ∧ g.outstanding = [] := by
  cases GaussConnector.new_eq hg
  exact ⟨⟨.nil, fun r hr => absurd hr List.not_mem_nil⟩, rfl⟩

end GaussConnector

/-- A result that stands for success is there to be held. -/
theorem Outcome.result_of_ok {o : Outcome} (h : o.PQresultStatus = .PGRES_COMMAND_OK) :
    o.result = some .PGRES_COMMAND_OK := by
  cases hres : o.result with
  | none =>
    rw [PQresultStatus, hres] at h
    cases h
  | some status =>
    rw [PQresultStatus, hres] at h
    exact congrArg some h

namespace Session
variable {n : Nat} {s s' : Session n} {c : Call}

/-- A call leaves its result behind when it succeeds, and nothing when it fails. -/
theorem Step.results (ha : s.gauss.Accounted) (h : s.Step c s') : s'.gauss.Accounted ∧
    s'.gauss.outstanding.length = s.gauss.outstanding.length +
      (if c.outcome.PQresultStatus = .PGRES_COMMAND_OK then 1 else 0) := by
  rw [h.inv.1]
  by_cases hst : c.outcome.PQresultStatus = .PGRES_COMMAND_OK
  · have hf := Call.fails_eq_false.mpr hst
    obtain ⟨hexec, hout, -⟩ := ha.PQexec c.cmd c.outcome
    obtain ⟨-, -, hres⟩ :=
      GaussConnector.PQexec_some s.gauss c.cmd (Outcome.result_of_ok hst)
    rw [hf, if_pos hst]
    refine ⟨hexec, ?_⟩
    rw [if_neg Bool.false_ne_true, hout, hres, List.length_append]
    rfl
  · have hf := Call.fails_iff.mpr hst
    obtain ⟨hclear, hout⟩ := ha.PQexec_PQclear c.cmd c.outcome
    rw [hf, if_neg hst]
    exact ⟨hclear, congrArg List.length hout⟩

variable {g : GaussConnector} {b : Buf n} {xs : List (Session n × Call)}
  {res : Option ResultId} {status : ConnStatusType}

/-- No run clears a result twice, or one that it has not obtained. -/
theorem accounted (hg : GaussConnector.new res status = some g)
    (hx : Exec Step (start g b) xs s) : s.gauss.Accounted :=
  hx.invariant (P := fun s => s.gauss.Accounted) (GaussConnector.Accounted.new hg).1
    fun ha hst => (hst.results ha).1

/-- A run leaves as many results behind as it has calls that succeed. -/
theorem outstanding_length (hg : GaussConnector.new res status = some g)
    (hx : Exec Step (start g b) xs s) : s.gauss.outstanding.length =
      xs.countP (fun x => x.2.outcome.PQresultStatus = .PGRES_COMMAND_OK) := by
  induction hx with
  | nil => exact congrArg List.length (GaussConnector.Accounted.new hg).2
  | @snoc xs t c u hx hst ih =>
    rw [(hst.results (accounted hg hx)).2, ih, List.countP_append, List.countP_singleton]
    simp

theorem outstanding_eq_nil (hg : GaussConnector.new res status = some g)
    (hx : Exec Step (start g b) xs s) : s.gauss.outstanding = [] ↔
      ∀ x ∈ xs, x.2.outcome.PQresultStatus ≠ .PGRES_COMMAND_OK := by
  rw [← List.length_eq_zero_iff, outstanding_length hg hx, List.countP_eq_zero]
  simp

/-- Every result the run has obtained is cleared exactly once when the destructor has run, and none
is outstanding then; between calls none is outstanding but the one in `res`. -/
structure Releases (xs : List (Session n × Call)) (s : Session n) : Prop where
  cleared_once : ∀ r ∈ s.gauss.finish.obtained, s.gauss.finish.cleared.count r = 1
  between : ∀ t ∈ xs.map Prod.fst ++ [s], t.gauss.outstanding = [] ∨
    ∃ r, t.gauss.res = some r ∧ t.gauss.outstanding = [r]
  none_left : s.gauss.finish.outstanding = []

/-- The results are released exactly in the runs in which every call fails. -/
theorem releases_iff (hg : GaussConnector.new res status = some g)
    (hx : Exec Step (start g b) xs s) :
    Releases xs s ↔ ∀ x ∈ xs, x.2.outcome.PQresultStatus ≠ .PGRES_COMMAND_OK := by
  obtain ⟨hfin, hout⟩ := (accounted hg hx).finish
  constructor
  · intro h
    rw [← outstanding_eq_nil hg hx, ← hout]
    exact h.none_left
  · intro hall
    have hnone : s.gauss.finish.outstanding = [] :=
      hout.trans ((outstanding_eq_nil hg hx).mpr hall)
    refine ⟨fun r hr => hfin.account.closed_once hnone hr, fun t ht => .inl ?_, hnone⟩
    rcases List.mem_append.mp ht with ht | ht
    · obtain ⟨x, hm, rfl⟩ := List.mem_map.mp ht
      obtain ⟨ys, zs, rfl⟩ := List.append_of_mem hm
      exact (outstanding_eq_nil hg hx.before).mpr fun y hy => hall y (List.mem_append_left _ hy)
    · rw [List.mem_singleton.mp ht]
      exact hout ▸ hnone

/-- A command is refused, and then `PQexec` has no memory for a result. -/
def twoRefused : List Call :=
  [⟨.insert, "INSERT INTO t VALUES (1)".toUTF8.toList, ⟨some .PGRES_FATAL_ERROR, [82], by decide⟩,
    true⟩,
   ⟨.omit, "DELETE FROM t".toUTF8.toList, ⟨none, [70], by decide⟩, true⟩]

theorem releases_iff_refused : ∃ g xs s, GaussConnector.new none .CONNECTION_OK = some g ∧
    Exec Step (start g (.zero 4)) xs s ∧ xs.map Prod.snd = twoRefused ∧ Releases xs s := by
  obtain ⟨g, xs, s, hnew, hx, hcalls, -⟩ :=
    @new_run 4 twoRefused (fun _ => True) ⟨_, rfl, trivial⟩
  have hall : ∀ c ∈ twoRefused, c.outcome.PQresultStatus ≠ .PGRES_COMMAND_OK := by decide
  exact ⟨g, xs, s, hnew, hx, hcalls, (releases_iff hnew hx).mpr (Exec.forall_labels hcalls hall)⟩

/-- Two rows are inserted. -/
def twoInserts : List Call :=
  [⟨.insert, "INSERT INTO t VALUES (1)".toUTF8.toList, .quiet .PGRES_COMMAND_OK, false⟩,
   ⟨.insert, "INSERT INTO t VALUES (2)".toUTF8.toList, .quiet .PGRES_COMMAND_OK, false⟩]

/-- Neither result is ever cleared. -/
theorem results_kept : ∃ g xs s, GaussConnector.new none .CONNECTION_OK = some g ∧
    Exec Step (start g (.zero 4)) xs s ∧ xs.map Prod.snd = twoInserts ∧
    s.gauss.outstanding = [0, 1] ∧ s.gauss.finish.outstanding = [0, 1] ∧
    s.gauss.finish.cleared = [] ∧ ¬ Releases xs s := by
  obtain ⟨g, xs, s, hnew, hx, hcalls, hout, hfin, hclear⟩ :=
    @new_run 4 twoInserts (fun s => s.gauss.outstanding = [0, 1] ∧
      s.gauss.finish.outstanding = [0, 1] ∧ s.gauss.finish.cleared = []) ⟨_, rfl, rfl, rfl, rfl⟩
  refine ⟨g, xs, s, hnew, hx, hcalls, hout, hfin, hclear, ?_⟩
  intro h
  have hnone := h.none_left
  rw [hfin] at hnone
  cases hnone

end Session
end OnlineChat.Gauss

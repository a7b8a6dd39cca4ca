import OnlineChat.Gauss.Errmsg

/-!
# When the error messages overrun the buffer

The messages of all failing calls that pass the buffer are joined in it, and no call looks at its
size. So a sequence of calls comes to its end exactly if everything that was ever appended fits, and
otherwise runs to the first message that does not.
-/

namespace OnlineChat.Gauss
open Lib

/-- What a call appends to the caller's buffer. -/
def Call.appends (c : Call) : List Byte := if c.fails && c.buffered then c.message else []

/-- What a sequence of calls appends. -/
def appended (cs : List Call) : List Byte := cs.flatMap Call.appends

theorem appended_cons {c : Call} {cs : List Call} :
    appended (c :: cs) = c.appends ++ appended cs := List.flatMap_cons

namespace Session
variable {n : Nat} {s s' : Session n} {c : Call} {t : List Byte}

/-- A string in a buffer leaves room for its terminator. -/
theorem length_lt_of_str {b : Buf n} (h : b.Str t) : t.length < n := by
  obtain ⟨hz, rfl⟩ := h
  exact (length_cstr_lt hz).trans_eq b.size

theorem Step.appends (h : s.Step c s') (hs : s.errmsgBuffer.Str t) :
    s'.errmsgBuffer.Str (t ++ c.appends) := by
  unfold Call.appends
  cases hf : c.fails with
  | false =>
    cases (step_ok hf).symm.trans h
    simpa using hs
  | true =>
    cases hb : c.buffered with
    | false =>
      cases (step_fail hf hb).symm.trans h
      simpa using hs
    | true =>
      have hstep := (step_append hf hb).symm.trans h
      split at hstep
      next b hcat =>
        cases hstep
        rw [← hs.2]
        exact (Buf.strcat?_eq_some hcat c.outcome.message_str).2
      · cases hstep

/-- A call with room for its message returns. -/
theorem step_of_room (hs : s.errmsgBuffer.Str t) (hlen : t.length + c.appends.length < n) :
    ∃ s', s.Step c s' := by
  cases hf : c.fails with
  | false => exact ⟨_, step_ok hf⟩
  | true =>
    cases hb : c.buffered with
    | false => exact ⟨_, step_fail hf hb⟩
    | true =>
      have happ : c.appends = c.outcome.message := by simp [Call.appends, hf, hb, Call.message]
      rw [happ] at hlen
      obtain ⟨b, hcat, -⟩ := hs.strcat c.outcome.message_str hlen
      have hstep := step_append (s := s) hf hb
      rw [hcat] at hstep
      exact ⟨_, hstep⟩

/-- One without room writes behind the buffer. -/
theorem step_of_no_room (hs : s.errmsgBuffer.Str t) (hlen : n ≤ t.length + c.appends.length) :
    s.step c = .error .outOfBounds := by
  have hlt := length_lt_of_str hs
  cases hstep : s.step c with
  | ok s' =>
    have hlt' := length_lt_of_str (Step.appends hstep hs)
    rw [List.length_append] at hlt'
    omega
  | error f =>
    have happ : c.appends ≠ [] := by
      intro he
      rw [he, List.length_nil] at hlen
      omega
    have hcall : c.fails = true ∧ c.buffered = true := by
      unfold Call.appends at happ
      split at happ
      next hc => simpa using hc
      · exact absurd rfl happ
    have herr := (step_append hcall.1 hcall.2).symm.trans hstep
    split at herr <;> cases herr
    rfl

/-- What a sequence of calls comes to, with the string `t` in the buffer at its start. -/
structure Overruns (s : Session n) (t : List Byte) (cs : List Call) : Prop where
  /-- It comes to its end if everything fits, and then everything is in the buffer. -/
  returns : t.length + (appended cs).length < n → ∃ xs s', Exec Step s xs s' ∧
    xs.map Prod.snd = cs ∧ s'.errmsgBuffer.Str (t ++ appended cs)
  /-- Otherwise it ends in the first call whose message does not. -/
  fault : n ≤ t.length + (appended cs).length → ∃ ys c zs xs s', cs = ys ++ c :: zs ∧
    Exec Step s xs s' ∧ xs.map Prod.snd = ys ∧ t.length + (appended ys).length < n ∧
    s'.step c = .error .outOfBounds

/-- The calls after one that returns. -/
theorem Overruns.cons {cs : List Call} (h : s.Step c s')
    (hcs : s'.Overruns (t ++ c.appends) cs) : s.Overruns t (c :: cs) := by
  have hsplit : ∀ ds, (t ++ c.appends).length + (appended ds).length =
      t.length + (appended (c :: ds)).length := by
    intro ds
    rw [appended_cons, List.length_append, List.length_append, Nat.add_assoc]
  constructor
  · intro hlen
    obtain ⟨xs, u, hx, rfl, hu⟩ := hcs.returns ((hsplit cs).trans_lt hlen)
    refine ⟨(s, c) :: xs, u, (Exec.single h).trans hx, rfl, ?_⟩
    rwa [appended_cons, ← List.append_assoc]
  · intro hlen
    obtain ⟨ys, d, zs, xs, u, rfl, hx, rfl, hroom, hfault⟩ := hcs.fault (hlen.trans_eq (hsplit cs).symm)
    exact ⟨_, d, zs, (s, c) :: xs, u, rfl, (Exec.single h).trans hx, rfl,
      (hsplit _).symm.trans_lt hroom, hfault⟩

/-- A sequence of calls on a buffer with a string in it comes to its end exactly if the messages of
all its failing calls fit behind that string. -/
theorem overruns {s : Session n} {t : List Byte} (hs : s.errmsgBuffer.Str t) (cs : List Call) :
    s.Overruns t cs := by
  induction cs generalizing s t with
  | nil =>
    refine ⟨fun _ => ⟨[], s, .nil, rfl, by simpa [appended] using hs⟩, fun hlen => ?_⟩
    exact absurd (length_lt_of_str hs) (Nat.not_lt.mpr hlen)
  | cons c cs ih =>
    rcases Nat.lt_or_ge (t.length + c.appends.length) n with hlt | hge
    · obtain ⟨s', hst⟩ := step_of_room hs hlt
      exact .cons hst (ih (hst.appends hs))
    · have hlen : t.length + c.appends.length ≤ t.length + (appended (c :: cs)).length := by
        rw [appended_cons, List.length_append]
        omega
      refine ⟨fun hlt => absurd (hge.trans hlen) (Nat.not_le.mpr hlt), fun _ => ?_⟩
      exact ⟨[], c, cs, [], s, rfl, .nil, rfl, length_lt_of_str hs, step_of_no_room hs hge⟩

/-- Two messages of two bytes need a buffer of five. -/
theorem overruns_two : (start ⟨[], none, 0, []⟩ (.zero 4)).Overruns [] twoFailures ∧
    4 ≤ ([] : List Byte).length + (appended twoFailures).length :=
  ⟨overruns (by decide) twoFailures, by decide⟩

end Session
end OnlineChat.Gauss

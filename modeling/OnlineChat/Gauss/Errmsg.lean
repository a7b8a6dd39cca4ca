import OnlineChat.Gauss.Connector

/-!
# The error message buffer

A failing call appends its message to what the caller's buffer holds. So the buffer holds the
message of the last failure alone only if it held the empty string when the call was made.
-/

namespace OnlineChat.Gauss
open Lib

/-- The message of a failing call. -/
def Call.message (c : Call) : List Byte := c.outcome.message

namespace Session
variable {n : Nat}

/-- Every call of the sequence returns; a failing one leaves its own message in the buffer, and one
that succeeds leaves the buffer alone. -/
def Reports (s : Session n) : List Call → Prop
  | [] => True
  | c :: cs => ∃ s', s.step c = .ok s' ∧
    (if c.fails then s'.errmsgBuffer.Str c.message else s'.errmsgBuffer = s.errmsgBuffer) ∧
    s'.Reports cs

/-- The buffer holds the empty string at the start, if a call fails at all, and only the last
failure has a message. -/
def OneMessage (b : Buf n) (cs : List Call) : Prop :=
  ∀ ys c zs, cs = ys ++ c :: zs → c.fails = true →
    b.Str [] ∧ ∀ y ∈ ys, y.fails = true → y.message = []

theorem oneMessage_nil {b : Buf n} : OneMessage b [] := by
  intro ys c zs h
  simp at h

theorem oneMessage_cons {b : Buf n} {c : Call} {cs : List Call} :
    OneMessage b (c :: cs) ↔ (c.fails = true → b.Str []) ∧ OneMessage b cs ∧
      (c.fails = true → (∃ d ∈ cs, d.fails = true) → c.message = []) := by
  constructor
  · intro h
    refine ⟨?_, ?_, ?_⟩
    · exact fun hf => (h [] c cs rfl hf).1
    · intro ys d zs heq hd
      obtain ⟨hb, hys⟩ := h (c :: ys) d zs (by rw [heq]; rfl) hd
      exact ⟨hb, fun y hy => hys y (List.mem_cons_of_mem _ hy)⟩
    · rintro hf ⟨d, hd, hdf⟩
      obtain ⟨ys, zs, rfl⟩ := List.append_of_mem hd
      exact (h (c :: ys) d zs rfl hdf).2 c List.mem_cons_self hf
  · rintro ⟨hb, hcs, hc⟩ ys d zs heq hd
    cases ys with
    | nil =>
      cases heq
      exact ⟨hb hd, fun y hy => absurd hy List.not_mem_nil⟩
    | cons y ys =>
      cases heq
      obtain ⟨hb, hys⟩ := hcs ys d zs rfl hd
      refine ⟨hb, ?_⟩
      intro z hz hzf
      rcases List.mem_cons.mp hz with rfl | hz
      · exact hc hzf ⟨d, by simp, hd⟩
      · exact hys z hz hzf

section
variable {s s' : Session n} {c : Call}

/-- On an empty string a failing call leaves its own message. -/
theorem step_message (hf : c.fails = true) (hb : c.buffered = true) (h : s.errmsgBuffer.Str [])
    (hlen : c.message.length < n) : ∃ s', s.Step c s' ∧ s'.errmsgBuffer.Str c.message := by
  have hroom : ([] : List Byte).length + c.outcome.message.length < n := by
    rw [List.length_nil, Nat.zero_add]
    exact hlen
  obtain ⟨b', hb', hstr⟩ := h.strcat c.outcome.message_str hroom
  have hstep := step_append (s := s) hf hb
  rw [hb'] at hstep
  exact ⟨_, hstep, hstr⟩

/-- It leaves no more than its own message on an empty string only. -/
theorem Step.str_nil (h : s.Step c s') (hf : c.fails = true) (hb : c.buffered = true)
    (hmsg : s'.errmsgBuffer.Str c.message) : s.errmsgBuffer.Str [] := by
  have hstep := (step_append hf hb).symm.trans h
  split at hstep
  next b hcat =>
    cases hstep
    obtain ⟨hstr, hstr'⟩ := Buf.strcat?_eq_some hcat c.outcome.message_str
    have hnil : cstr s.errmsgBuffer.bytes = [] := List.append_left_eq_self.mp (hstr'.inj hmsg)
    rwa [hnil] at hstr
  · cases hstep

end

/-- A sequence with a buffer is reported right exactly when `OneMessage` holds. -/
theorem reports_iff {cs : List Call} {s : Session n} (hbuf : ∀ c ∈ cs, c.buffered = true)
    (hlen : ∀ c ∈ cs, c.message.length < n) :
    s.Reports cs ↔ OneMessage s.errmsgBuffer cs := by
  induction cs generalizing s with
  | nil => exact iff_of_true trivial oneMessage_nil
  | cons c cs ih =>
    have ih {t : Session n} := @ih t (fun d hd => hbuf d (List.mem_cons_of_mem _ hd))
      fun d hd => hlen d (List.mem_cons_of_mem _ hd)
    have hc := hlen c List.mem_cons_self
    rw [oneMessage_cons]
    cases hf : c.fails with
    | false =>
      simp only [Reports, step_ok hf, hf, Except.ok.injEq, exists_eq_left', ih]
      simp
    | true =>
      have hcb := hbuf c List.mem_cons_self
      constructor
      · rintro ⟨s', hs', hmsg, hrest⟩
        rw [hf, if_pos rfl] at hmsg
        have hstr := Step.str_nil hs' hf hcb hmsg
        have hrest := ih.mp hrest
        refine ⟨fun _ => hstr, ?_, ?_⟩
        · intro ys d zs heq hd
          exact ⟨hstr, (hrest ys d zs heq hd).2⟩
        · rintro - ⟨d, hd, hdf⟩
          obtain ⟨ys, zs, rfl⟩ := List.append_of_mem hd
          exact hmsg.inj (hrest ys d zs rfl hdf).1
      · rintro ⟨hb, hcs, hmsg⟩
        obtain ⟨s', hs', hstr⟩ := step_message hf hcb (hb rfl) hc
        refine ⟨s', hs', ?_, ?_⟩
        · rw [hf, if_pos rfl]
          exact hstr
        · refine ih.mpr ?_
          intro ys d zs heq hd
          refine ⟨?_, (hcs ys d zs heq hd).2⟩
          rw [hmsg rfl ⟨d, by rw [heq]; simp, hd⟩] at hstr
          exact hstr

/-- A failure between two calls that succeed. -/
def oneFailure : List Call :=
  [⟨.insert, [73], .quiet .PGRES_COMMAND_OK, true⟩,
   ⟨.update, [85], ⟨some .PGRES_FATAL_ERROR, [69, 49], by decide⟩, true⟩,
   ⟨.omit, [68], .quiet .PGRES_COMMAND_OK, true⟩]

theorem reports_iff_one : (start ⟨[], none, 0, []⟩ (.zero 4)).Reports oneFailure := by
  refine (reports_iff (by decide) (by decide)).mpr ?_
  intro ys c zs heq hc
  have hstr : (Buf.zero 4).Str [] := by decide
  refine ⟨hstr, ?_⟩
  intro y hy hyf
  have hcount : oneFailure.countP Call.fails = 1 := by decide
  rw [heq, List.countP_append, List.countP_cons_of_pos hc] at hcount
  have hpos : 0 < ys.countP Call.fails := List.countP_pos_iff.mpr ⟨y, hy, hyf⟩
  omega

/-- Two calls fail on an empty buffer with room for either message. -/
def twoFailures : List Call :=
  [⟨.insert, [73], ⟨some .PGRES_FATAL_ERROR, [69, 49], by decide⟩, true⟩,
   ⟨.update, [85], ⟨some .PGRES_FATAL_ERROR, [69, 50], by decide⟩, true⟩]

/-- The second message is read behind the first. -/
theorem messages_joined : ∃ s : Session 8, ∃ xs, Exec Step (start ⟨[], none, 0, []⟩ (.zero 8)) xs s ∧
    xs.map Prod.snd = twoFailures ∧ s.errmsgBuffer.Str [69, 49, 69, 50] ∧
    ¬ (start ⟨[], none, 0, []⟩ (.zero 8)).Reports twoFailures := by
  have hrun : (Exec.runs (fun s c => (Session.step s c).toOption)
      (start ⟨[], none, 0, []⟩ (.zero 8)) twoFailures).any fun s =>
      s.errmsgBuffer.Str [69, 49, 69, 50] := by decide
  obtain ⟨s, hs, hrun⟩ := (Option.any_eq_true ..).mp hrun
  obtain ⟨xs, hx, hcalls⟩ := Exec.of_runs step_of_toOption hs
  refine ⟨s, xs, hx, hcalls, of_decide_eq_true hrun, ?_⟩
  rintro ⟨s₁, hs₁, -, s₂, hs₂, hmsg, -⟩
  have hs : s = s₂ := by
    simp only [Exec.runs, twoFailures, List.foldlM_cons, List.foldlM_nil] at hs
    simp only [hs₁, Except.toOption, bind, Option.bind, hs₂, pure, Option.some.injEq] at hs
    exact hs.symm
  subst hs
  have hlast : s.errmsgBuffer.Str [69, 50] := hmsg
  have := (of_decide_eq_true hrun : s.errmsgBuffer.Str [69, 49, 69, 50]).inj hlast
  simp at this

end Session
end OnlineChat.Gauss

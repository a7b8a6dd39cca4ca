import OnlineChat.Terminated
import OnlineChat.Typed

/-!
# The client as a dialogue

What `apps/client.cpp` is for, without buffer, loop and system calls: it has the lines of its input
to send, one for each answer of the server, and after the last of them it repeats the answers. The
first string it repeats, when there is no input at all, is whatever was in the uninitialised buffer.
A repeated string that does not end in the buffer (`Dialogue.Terminated`) is where the client goes
wrong.
-/

namespace OnlineChat.Client
open Lib

/-! ## The lines of the input -/

/-- The pieces in which `fgets` reads its input: lines with their newlines, the long ones cut. -/
def lines (bs : List Byte) : List (List Byte) :=
  if bs = [] then []
  else fgetsLine (BUFFER_LENGTH - 1) bs :: lines (bs.drop (fgetsLine (BUFFER_LENGTH - 1) bs).length)
termination_by bs.length
decreasing_by
  rename_i h
  rw [List.length_drop]
  have hline := List.length_pos_iff.mpr (mt fgetsLine_eq_nil.mp h)
  have hbs := List.length_pos_iff.mpr h
  omega

theorem lines_nil : lines [] = [] := by
  rw [lines]
  exact if_pos rfl

theorem lines_of_ne {bs : List Byte} (h : bs ≠ []) :
    lines bs = fgetsLine (BUFFER_LENGTH - 1) bs ::
      lines (bs.drop (fgetsLine (BUFFER_LENGTH - 1) bs).length) := by
  rw [lines, if_neg h]

/-- Nothing of the input is lost between the lines. -/
theorem lines_flatten (bs : List Byte) : (lines bs).flatten = bs := by
  induction bs using lines.induct with
  | case1 => rw [lines_nil]; rfl
  | case2 bs h ih =>
    rw [lines_of_ne h, List.flatten_cons, ih]
    have hpre := fgetsLine_isPrefix (BUFFER_LENGTH - 1) bs
    conv => rhs; rw [← List.take_append_drop (fgetsLine (BUFFER_LENGTH - 1) bs).length bs]
    rw [← List.prefix_iff_eq_take.mp hpre]

/-! ## The dialogue -/

structure Dialogue where
  /-- The lines still to be sent. -/
  lines : List (List Byte)
  /-- What has been heard since the last string was sent. -/
  heard : List Byte
  sent : List (List Byte)

namespace Dialogue

def act (d : Dialogue) : Act → Dialogue
  | .send => ⟨d.lines.tail, [], d.sent ++ [d.lines.headD (cstr d.heard)]⟩
  | .recv r => { d with heard := d.heard ++ r.data }
  | .connect | .fgets => d

/-- What is to be sent next ends in the buffer: a line always does, and what has been heard does
unless it fills the buffer and has no NUL in it. -/
def Terminated (d : Dialogue) : Prop :=
  d.lines ≠ [] ∨ d.heard.length < BUFFER_LENGTH ∨ 0 ∈ d.heard

/-- The dialogue on the input `stdin`, when the buffer holds `heard` at its beginning. -/
def run (stdin heard : List Byte) (as : List Act) : Dialogue :=
  as.foldl act ⟨Client.lines stdin, heard, []⟩

variable {stdin heard : List Byte} {as : List Act} {a : Act}

theorem run_snoc : run stdin heard (as ++ [a]) = (run stdin heard as).act a := by
  rw [run, List.foldl_append]
  rfl

/-- The lines are sent in order before anything is repeated. -/
theorem run_lines : (run stdin heard as).lines =
      (Client.lines stdin).drop (run stdin heard as).sent.length ∧
    (run stdin heard as).sent.take (Client.lines stdin).length =
      (Client.lines stdin).take (run stdin heard as).sent.length := by
  induction as using List.reverseRecOn with
  | nil => simp [run]
  | append_singleton as a ih =>
    rw [run_snoc]
    generalize run stdin heard as = d at ih
    obtain ⟨hl, hs⟩ := ih
    cases a with
    | connect | fgets | recv => exact ⟨hl, hs⟩
    | send =>
      simp only [act, List.length_append, List.length_singleton]
      refine ⟨by rw [hl, List.tail_drop], ?_⟩
      rcases Nat.lt_or_ge d.sent.length (Client.lines stdin).length with hlt | hge
      · have hhead : d.lines.headD (cstr d.heard) = (Client.lines stdin)[d.sent.length] := by
          rw [hl, List.drop_eq_getElem_cons hlt]
          rfl
        rw [List.take_of_length_le (Nat.le_of_lt hlt)] at hs
        rw [hhead, List.take_succ_eq_append_getElem hlt, ← hs, List.take_of_length_le]
        rw [List.length_append, List.length_singleton]
        exact hlt
      · rw [List.take_append_of_le_length hge, hs, List.take_of_length_le hge,
          List.take_of_length_le (Nat.le_succ_of_le hge)]

end Dialogue

/-! ## The client follows it -/

/-- The client is where the dialogue is. -/
structure Follows (c : Client) (d : Dialogue) : Prop where
  str : (0 : Byte) ∉ c.stdin
  sent : c.sent = d.sent
  idle : c.pc ≠ .sending → lines c.stdin = d.lines
  heard : c.pc = .connecting ∨ c.pc = .reading → c.buffer.Holds d.heard
  sending : c.pc = .sending → lines c.stdin = d.lines.tail ∧ c.rlen = 0 ∧
    cstr c.buffer.bytes = d.lines.headD (cstr d.heard) ∧ (0 ∈ c.buffer.bytes ↔ d.Terminated)
  receiving : c.pc = .receiving → c.recvBuf.Holds d.heard

section
variable {stdin : List Byte} {buffer : Buf BUFFER_LENGTH} {c c' : Client} {d : Dialogue}
  {xs : List (Client × Act)} {a : Act}

theorem Follows.fgets (h : c.Follows d) (hpc : c.pc = .reading) : c.fgets.Follows d := by
  have hlines := h.idle (by rw [hpc]; decide)
  have hheard := h.heard (.inr hpc)
  by_cases heof : c.stdin = []
  · rw [fgets_eof heof]
    have hnil : d.lines = [] := by rw [← hlines, heof, lines_nil]
    refine ⟨h.str, h.sent, fun hne => absurd rfl hne, ?_, fun _ => ⟨?_, rfl, ?_, ?_⟩, nofun⟩
    · rintro (h | h) <;> cases h
    · rw [hnil, heof, lines_nil]
      rfl
    · rw [hnil]
      exact hheard.cstr_bytes
    · rw [Dialogue.Terminated, hnil]
      simpa using hheard.zero_mem_iff
  · have hline : fgetsLine (BUFFER_LENGTH - 1) c.stdin ≠ [] := mt fgetsLine_eq_nil.mp heof
    have hpre := fgetsLine_isPrefix (BUFFER_LENGTH - 1) c.stdin
    obtain ⟨hpc', hrlen, hsent, hterm, hcstr⟩ := fgets_line hline fun hm => h.str (hpre.subset hm)
    have hstdin : c.fgets.stdin = c.stdin.drop (fgetsLine (BUFFER_LENGTH - 1) c.stdin).length := by
      simp only [Client.fgets, if_neg hline]
    rw [lines_of_ne heof] at hlines
    refine ⟨?_, hsent.trans h.sent, fun hne => absurd hpc' hne, ?_, fun _ => ⟨?_, hrlen, ?_, ?_⟩, ?_⟩
    · rw [hstdin]
      exact fun hm => h.str (List.mem_of_mem_drop hm)
    · rw [hpc']
      rintro (h | h) <;> cases h
    · rw [hstdin, ← hlines]
      rfl
    · rw [hcstr, ← hlines]
      rfl
    · rw [Dialogue.Terminated, ← hlines]
      simpa using hterm
    · rw [hpc']
      intro h
      cases h

theorem Follows.send (h : c.Follows d) (hst : c.Step .send c') : c'.Follows (d.act .send) := by
  obtain ⟨hpc, hst⟩ := hst
  obtain ⟨hlines, hrlen, hcstr, -⟩ := h.sending hpc
  obtain ⟨p, hp, hc⟩ := bind_eq_ok hst
  cases hc
  unfold Client.send at hp
  split at hp <;> cases hp
  refine ⟨h.str, ?_, fun _ => hlines, ?_, fun hpc' => ?_, fun _ => ⟨Buf.zero_holds, hrlen⟩⟩
  · show c.sent ++ [cstr c.buffer.bytes] = d.sent ++ [_]
    rw [hcstr, h.sent]
  · rintro (h | h) <;> cases h
  · cases hpc'

theorem Follows.recv {r : RecvResult} (h : c.Follows d) (hst : c.Step (.recv r) c')
    (hr : r.Clean) : c'.Follows (d.act (.recv r)) := by
  have hpc : c.pc = .receiving := hst.1.1
  have hlines := h.idle (by rw [hpc]; decide)
  have hholds : c'.recvBuf.Holds (d.heard ++ r.data) := hst.receiver.holds hr (h.receiving hpc)
  obtain ⟨p, -, hc⟩ := bind_eq_ok hst.2
  cases hc
  refine ⟨h.str, h.sent, fun _ => hlines, fun _ => hholds.1, fun hpc' => ?_, fun _ => hholds⟩
  dsimp only at hpc'
  split at hpc' <;> cases hpc'

theorem Follows.step (h : c.Follows d) (hst : c.Step a c') (ha : a.CleanRecv) :
    c'.Follows (d.act a) := by
  cases a with
  | connect =>
    have hpc : c.pc = .connecting := hst.1
    have hlines := h.idle (by rw [hpc]; decide)
    cases hst.2
    refine ⟨h.str, h.sent, fun _ => hlines, fun _ => h.heard (.inl hpc), fun hpc' => ?_, fun hpc' => ?_⟩
    · cases hpc'
    · cases hpc'
  | fgets =>
    cases hst.2
    exact h.fgets hst.1
  | send => exact h.send hst
  | recv r => exact h.recv hst ha

/-- The client goes wrong where it sends a string that does not end in its buffer, and nowhere
else. -/
theorem Follows.step_ok_iff (h : c.Follows d) (hl : c.Legal a) :
    (∃ c', c.step a = .ok c') ↔ (a = .send → d.Terminated) := by
  cases a with
  | connect | fgets =>
    refine iff_of_true ⟨_, rfl⟩ ?_
    intro h
    cases h
  | send =>
    rw [← (h.sending hl).2.2.2]
    constructor
    · rintro ⟨c', hc⟩ -
      obtain ⟨p, hp, -⟩ := bind_eq_ok hc
      unfold Client.send at hp
      split at hp
      · assumption
      · cases hp
    · intro hz
      simp only [Client.step, send_string (hz rfl), bind, Except.bind]
      exact ⟨_, rfl⟩
  | recv r =>
    obtain ⟨p, hp⟩ := RecvBuf.pass_ok (h.receiving hl.1).gathers (by decide) hl.2
    refine iff_of_true ?_ ?_
    · simp only [Client.step, Client.recv, hp, bind, Except.bind]
      exact ⟨_, rfl⟩
    · intro h
      cases h

theorem follows (hz : (0 : Byte) ∉ stdin) (hx : Exec Step (start stdin buffer) xs c)
    (hclean : ∀ x ∈ xs, x.2.CleanRecv) :
    c.Follows (Dialogue.run stdin buffer.bytes (xs.map Prod.snd)) := by
  induction hx with
  | nil =>
    refine ⟨hz, rfl, fun _ => rfl, fun _ => ?_, fun hpc => ?_, fun hpc => ?_⟩
    · simp [Buf.Holds, Dialogue.run, start, buffer.size]
    · cases hpc
    · cases hpc
  | @snoc xs t a u _ hst ih =>
    rw [List.map_append, List.map_singleton, Dialogue.run_snoc]
    have ih := ih fun x hx => hclean x (List.mem_append_left _ hx)
    exact ih.step hst (hclean (t, a) (by simp))

/-- The client sends what the dialogue says: the lines of its input one by one, and then for each
answer of the server the string in it, as long as that ends in the buffer. What it prints between
is the answer. -/
theorem dialogue (hz : (0 : Byte) ∉ stdin) (hx : Exec Step (start stdin buffer) xs c)
    (hclean : ∀ x ∈ xs, x.2.CleanRecv) :
    c.sent = (Dialogue.run stdin buffer.bytes (xs.map Prod.snd)).sent ∧
      c.sent.take (lines stdin).length = (lines stdin).take c.sent.length ∧
      (lines stdin).flatten = stdin ∧
      (∀ a, c.Legal a → ((∃ c', c.step a = .ok c') ↔
        (a = .send → (Dialogue.run stdin buffer.bytes (xs.map Prod.snd)).Terminated))) ∧
      (c.pc = .reading →
        c.buffer.Holds (Dialogue.run stdin buffer.bytes (xs.map Prod.snd)).heard) := by
  have hfollows := follows hz hx hclean
  refine ⟨hfollows.sent, ?_, lines_flatten stdin, fun a hl => hfollows.step_ok_iff hl, ?_⟩
  · rw [hfollows.sent]
    exact Dialogue.run_lines.2
  · exact fun hpc => hfollows.heard (.inr hpc)

/-- The line "hi", and then the answer "yo" is repeated. -/
theorem dialogue_reply : ∃ c xs, Exec Step (start [104, 105, 10] (.zero _)) xs c ∧
    xs.map Prod.snd = replyRun ∧ c.sent = [[104, 105, 10], [121, 111]] ∧
    c.sent = (Dialogue.run [104, 105, 10] (Buf.zero BUFFER_LENGTH).bytes (xs.map Prod.snd)).sent ∧
    c.sent.take (lines [104, 105, 10]).length = (lines [104, 105, 10]).take c.sent.length ∧
    (lines [104, 105, 10]).flatten = [104, 105, 10] ∧
    (∀ a, c.Legal a → ((∃ c', c.step a = .ok c') ↔ (a = .send → (Dialogue.run [104, 105, 10]
      (Buf.zero BUFFER_LENGTH).bytes (xs.map Prod.snd)).Terminated))) ∧
    (c.pc = .reading → c.buffer.Holds (Dialogue.run [104, 105, 10]
      (Buf.zero BUFFER_LENGTH).bytes (xs.map Prod.snd)).heard) := by
  have hrun : (Exec.runs step? (start [104, 105, 10] (.zero _)) replyRun).any fun c =>
      c.sent = [[104, 105, 10], [121, 111]] := by decide +kernel
  obtain ⟨c, hc, hsent⟩ := (Option.any_eq_true ..).mp hrun
  obtain ⟨xs, hx, hacts⟩ := Exec.of_runs step_of_step? hc
  have hclean : ∀ x ∈ xs, x.2.CleanRecv := Exec.forall_labels hacts (by simp [replyRun,
    Act.CleanRecv, RecvResult.Clean])
  exact ⟨c, xs, hx, hacts, of_decide_eq_true hsent, dialogue (by decide) hx hclean⟩

end
end OnlineChat.Client

import Mathlib.Data.List.Infix
import OnlineChat.Client

/-!
# What the client sends

`main` of `apps/client.cpp` does not look at what `fgets` returns. At the end of the input the
buffer is left as it is, and the client sends what is in it: the server's last reply, or before
the first line whatever the uninitialised buffer holds. What it has sent is a prefix of the
standard input as long as that is the empty string. The reply is read off the results of the calls
(`Reply.act`), with the place at which the loop stores what it receives.
-/

namespace OnlineChat.Client
open Lib

/-! ## The reply -/

/-- What has been received since the last `send`, and the place of the next byte. -/
structure Reply where
  bytes : List Byte
  len : Int

/-- Bytes go to their place. An error that the loop does not look for counts as -1, so what comes
after it takes the place of the last byte. -/
def Reply.act (r : Reply) : Act → Reply
  | .send => ⟨[], 0⟩
  | .recv x =>
    if x.stops then r
    else
      ⟨r.bytes.take r.len.toNat ++ x.data ++ r.bytes.drop (r.len.toNat + x.data.length),
        r.len + x.ret⟩
  | .connect | .fgets => r

/-- The reply after `as`; before the first `send` it is what the uninitialised buffer holds. -/
def reply (buffer : Buf BUFFER_LENGTH) (as : List Act) : Reply := as.foldl Reply.act ⟨buffer.bytes, 0⟩

/-- The reply is in the buffer, except between `fgets` and `send`. -/
structure Replied (r : Reply) (c : Client) : Prop where
  holds : c.pc ≠ .sending → c.buffer.Holds r.bytes
  sending : c.pc = .sending → c.rlen = 0
  receiving : c.pc = .receiving → c.rlen = r.len ∧ r.len ≤ r.bytes.length

section
variable {stdin : List Byte} {buffer : Buf BUFFER_LENGTH} {xs : List (Client × Act)}
  {c c' : Client} {a : Act} {r : Reply}

theorem reply_snoc {as : List Act} : reply buffer (as ++ [a]) = (reply buffer as).act a := by
  rw [reply, List.foldl_append]
  rfl

theorem Replied.recv {x : RecvResult} (h : Replied r c) (hst : c.Step (.recv x) c') :
    Replied (r.act (.recv x)) c' := by
  obtain ⟨⟨hpc, hfit⟩, hst⟩ := hst
  have hholds := h.holds (by rw [hpc]; decide)
  obtain ⟨hlen, hle⟩ := h.receiving hpc
  have hlen : c.recvBuf.len = r.len := hlen
  obtain ⟨⟨stop, s⟩, hp, hc⟩ := bind_eq_ok hst
  cases hc
  have hstop := RecvBuf.pass_stops hp
  simp only [Reply.act, ← hstop]
  rcases RecvBuf.pass_cases hfit.ne_nil hp with ⟨rfl, -, rfl⟩ | ⟨bs, buf, rfl, rfl, hbuf, rfl⟩ |
    ⟨e, rfl, -, -, rfl, rfl⟩
  · exact ⟨fun _ => hholds, fun hpc' => (by cases hpc'), fun hpc' => (by cases hpc')⟩
  · rw [hlen] at hbuf
    refine ⟨fun _ => hholds.store?_at hle hbuf, fun hpc' => (by cases hpc'),
      fun _ => ⟨congrArg (· + _) hlen, ?_⟩⟩
    simp only [Bool.false_eq_true, if_false, RecvResult.ret, RecvResult.data, List.length_append,
      List.length_take, List.length_drop]
    omega
  · simp only [Bool.false_eq_true, if_false, RecvResult.data, RecvResult.ret, List.append_nil,
      List.length_nil, Nat.add_zero, List.take_append_drop]
    refine ⟨fun _ => hholds, fun hpc' => (by cases hpc'),
      fun _ => ⟨congrArg (· - 1) hlen, ?_⟩⟩
    show r.len + -1 ≤ (r.bytes.length : Int)
    omega

theorem Replied.step (h : Replied r c) (hst : c.Step a c') : Replied (r.act a) c' := by
  cases a with
  | recv x => exact h.recv hst
  | connect =>
    have hpc : c.pc = .connecting := hst.1
    cases hst.2
    exact ⟨fun _ => h.holds (by rw [hpc]; decide), nofun, nofun⟩
  | fgets =>
    cases hst.2
    refine ⟨fun hne => absurd fgets_pc hne, fun _ => fgets_rlen, fun hpc => ?_⟩
    rw [fgets_pc] at hpc
    cases hpc
  | send =>
    have hlen := h.sending hst.1
    obtain ⟨p, hp, hc⟩ := bind_eq_ok hst.2
    cases hc
    unfold Client.send at hp
    split at hp <;> cases hp
    exact ⟨fun _ => Buf.zero_holds, nofun, fun _ => ⟨hlen, Int.le_refl 0⟩⟩

theorem replied (hx : Exec Step (start stdin buffer) xs c) :
    Replied (reply buffer (xs.map Prod.snd)) c := by
  induction hx with
  | nil => exact ⟨fun _ => by simp [Buf.Holds, reply, start, buffer.size], nofun, nofun⟩
  | snoc _ hst ih =>
    rw [List.map_append, List.map_singleton, reply_snoc]
    exact ih.step hst

/-- When `fgets` is called, the string in the buffer is the one in the reply. -/
theorem cstr_fgets {ys : List (Client × Act)} {t : Client}
    (hx : Exec Step (start stdin buffer) (ys ++ [(t, .fgets)]) c) :
    cstr t.buffer.bytes = cstr (reply buffer (ys.map Prod.snd)).bytes := by
  obtain ⟨hy, hl, -⟩ := hx.snoc_inv
  have hpc : t.pc = .reading := hl
  exact ((replied hy).holds (by rw [hpc]; decide)).cstr_bytes

end

/-! ## The input -/

/-- Whenever the client sends after `fgets` found the end of the input, there was no string in the
reply. -/
def QuietAtEof (buffer : Buf BUFFER_LENGTH) (xs : List (Client × Act)) : Prop :=
  ∀ ys t u zs, xs = ys ++ (t, .fgets) :: (u, .send) :: zs → t.stdin = [] →
    cstr (reply buffer (ys.map Prod.snd)).bytes = []

/-- What has been sent and what is still to be read are the input, except between `fgets` and
`send`. -/
structure Typed (stdin : List Byte) (xs : List (Client × Act)) (c : Client) : Prop where
  idle : c.pc ≠ .sending → c.sent.flatten ++ c.stdin = stdin
  sending : c.pc = .sending → ∃ ys t, xs = ys ++ [(t, .fgets)] ∧ c = t.fgets ∧
    t.sent.flatten ++ t.stdin = stdin

section
variable {stdin : List Byte} {buffer : Buf BUFFER_LENGTH} {xs : List (Client × Act)}
  {c c' : Client} {a : Act}

theorem QuietAtEof.init {x : Client × Act} (h : QuietAtEof buffer (xs ++ [x])) :
    QuietAtEof buffer xs := by
  intro ys t u zs heq
  exact h ys t u (zs ++ [x]) (by rw [heq]; simp)

/-- Only a `send` right after an `fgets` can be at fault. -/
theorem quietAtEof_snoc : QuietAtEof buffer (xs ++ [(c, a)]) ↔ QuietAtEof buffer xs ∧
    (a = .send → ∀ ys t, xs = ys ++ [(t, .fgets)] → t.stdin = [] →
      cstr (reply buffer (ys.map Prod.snd)).bytes = []) := by
  constructor
  · intro h
    refine ⟨h.init, ?_⟩
    rintro rfl ys t rfl
    exact h ys t c [] (by simp)
  · rintro ⟨h, hsend⟩ ys t u zs heq
    obtain ⟨h0, -⟩ | ⟨zs', hzs, heq'⟩ := snoc_eq_cons heq
    · cases h0
    · cases zs' with
      | nil =>
        cases hzs
        exact hsend rfl ys t heq'
      | cons z zs' =>
        cases hzs
        exact h ys t u zs' heq'

/-- What the client has sent stays sent. -/
theorem Step.sent (h : c.Step a c') : c.sent <+: c'.sent := by
  obtain ⟨-, h⟩ := h
  cases a with
  | connect =>
    cases h
    exact List.prefix_rfl
  | fgets =>
    cases h
    exact fgets_sent.symm ▸ List.prefix_rfl
  | send =>
    obtain ⟨p, hp, h⟩ := bind_eq_ok h
    cases h
    unfold send at hp
    split at hp <;> cases hp
    exact List.prefix_append ..
  | recv r =>
    obtain ⟨p, -, h⟩ := bind_eq_ok h
    cases h
    exact List.prefix_rfl

/-- A line that is sent is the next of the input. -/
theorem fgets_stdin (hz : (0 : Byte) ∉ c.stdin) (hne : c.stdin ≠ []) :
    cstr c.fgets.buffer.bytes ++ c.fgets.stdin = c.stdin := by
  have hline : fgetsLine (BUFFER_LENGTH - 1) c.stdin ≠ [] := mt fgetsLine_eq_nil.mp hne
  have hpre := fgetsLine_isPrefix (BUFFER_LENGTH - 1) c.stdin
  have hstr := (fgets_line hline fun hm => hz (hpre.subset hm)).2.2.2.2
  rw [hstr]
  simp only [fgets, if_neg hline]
  conv => rhs; rw [← List.take_append_drop (fgetsLine (BUFFER_LENGTH - 1) c.stdin).length c.stdin]
  rw [← List.prefix_iff_eq_take.mp hpre]

theorem fgets_eof (h : c.stdin = []) :
    c.fgets = { c with rlen := 0, pc := .sending } := by
  simp only [fgets, if_pos (fgetsLine_eq_nil.mpr h)]

/-- What `send` sends is the next of the input, or at its end the string left in the buffer. -/
theorem Typed.send (h : Typed stdin xs c) (hz : (0 : Byte) ∉ stdin) (hs : c.Step .send c') :
    c'.pc = .receiving ∧ ∃ ys t, xs = ys ++ [(t, .fgets)] ∧
      if t.stdin = [] then c'.sent.flatten = stdin ++ cstr t.buffer.bytes ∧ c'.stdin = []
      else c'.sent.flatten ++ c'.stdin = stdin := by
  obtain ⟨hpc, hs⟩ := hs
  obtain ⟨ys, t, hxs, rfl, htyped⟩ := h.sending hpc
  obtain ⟨p, hp, hs⟩ := bind_eq_ok hs
  cases hs
  unfold Client.send at hp
  split at hp <;> cases hp
  refine ⟨rfl, ys, t, hxs, ?_⟩
  simp only [fgets_sent, List.flatten_append, List.flatten_singleton]
  split
  next heof =>
    rw [heof, List.append_nil] at htyped
    rw [fgets_eof heof, htyped]
    exact ⟨rfl, heof⟩
  next hne =>
    have hz' : (0 : Byte) ∉ t.stdin := fun hm => hz (htyped ▸ List.mem_append_right _ hm)
    rw [List.append_assoc, fgets_stdin hz' hne, htyped]

/-- Every step but a `send` keeps what has been sent. -/
theorem Typed.other (h : Typed stdin xs c) (hs : c.Step a c') (ha : a ≠ .send) :
    Typed stdin (xs ++ [(c, a)]) c' := by
  obtain ⟨hl, hs⟩ := hs
  cases a with
  | connect =>
    cases hs
    have hpc : c.pc = .connecting := hl
    exact ⟨fun _ => h.idle (by rw [hpc]; decide), nofun⟩
  | fgets =>
    cases hs
    have hpc : c.pc = .reading := hl
    exact ⟨fun hne => absurd fgets_pc hne, fun _ => ⟨xs, c, rfl, rfl, h.idle (by rw [hpc]; decide)⟩⟩
  | send => exact absurd rfl ha
  | recv r =>
    obtain ⟨p, -, hs⟩ := bind_eq_ok hs
    cases hs
    have hpc : c.pc = .receiving := hl.1
    refine ⟨fun _ => h.idle (by rw [hpc]; decide), ?_⟩
    intro hpc'
    dsimp only at hpc'
    split at hpc' <;> cases hpc'

/-- As long as the client is quiet at the end of the input. -/
theorem Typed.exec (hz : (0 : Byte) ∉ stdin) (hx : Exec Step (start stdin buffer) xs c)
    (hq : QuietAtEof buffer xs) : Typed stdin xs c := by
  induction hx with
  | nil => exact ⟨fun _ => rfl, nofun⟩
  | @snoc xs t a u hx hst ih =>
    obtain ⟨hq, hsend⟩ := quietAtEof_snoc.mp hq
    have ht := ih hq
    by_cases ha : a = .send
    · subst ha
      obtain ⟨hpc, ys, v, hxs, hsent⟩ := ht.send hz hst
      refine ⟨fun _ => ?_, fun h => absurd h (by rw [hpc]; decide)⟩
      split at hsent
      next heof =>
        have hquiet := hsend rfl ys v hxs heof
        rw [← cstr_fgets (hxs ▸ hx)] at hquiet
        rw [hsent.1, hsent.2, hquiet, List.append_nil, List.append_nil]
      · exact hsent
    · exact ht.other hst ha

theorem Typed.sent_isPrefix (h : Typed stdin xs c) : c.sent.flatten <+: stdin := by
  by_cases hpc : c.pc = .sending
  · obtain ⟨ys, t, -, rfl, ht⟩ := h.sending hpc
    rw [fgets_sent]
    exact ⟨_, ht⟩
  · exact ⟨_, h.idle hpc⟩

/-- What the client has sent is a prefix of the standard input exactly in the runs in which there is
no string in the reply when `fgets` finds the end of the input. -/
theorem typed_iff (hz : (0 : Byte) ∉ stdin) (hx : Exec Step (start stdin buffer) xs c) :
    c.sent.flatten <+: stdin ↔ QuietAtEof buffer xs := by
  refine ⟨?_, fun hq => (Typed.exec hz hx hq).sent_isPrefix⟩
  intro hpre
  induction hx with
  | nil =>
    intro ys t u zs heq
    simp at heq
  | @snoc xs t a u hx hst ih =>
    have hq := ih (hst.sent.flatten.trans hpre)
    refine quietAtEof_snoc.mpr ⟨hq, ?_⟩
    rintro rfl ys v hxs heof
    obtain ⟨-, ys', v', hxs', hsent⟩ := (Typed.exec hz hx hq).send hz hst
    cases (List.append_inj' (hxs.symm.trans hxs') rfl).2
    rw [if_pos heof] at hsent
    rw [hsent.1] at hpre
    have hlen := hpre.length_le
    rw [List.length_append] at hlen
    rw [← cstr_fgets (hxs ▸ hx)]
    exact List.eq_nil_of_length_eq_zero (by omega)

/-- The line "hi", then the end of the input; the server closes without a reply. -/
def eofRun : List Act := [.connect, .fgets, .send, .recv .eof, .fgets, .send]

theorem typed_iff_eof : ∃ c xs, Exec Step (start [104, 105, 10] (.zero _)) xs c ∧
    xs.map Prod.snd = eofRun ∧ c.sent = [[104, 105, 10], []] ∧ QuietAtEof (.zero _) xs := by
  have hrun : (Exec.runs step? (start [104, 105, 10] (.zero _)) eofRun).any fun c =>
      c.sent = [[104, 105, 10], []] := by decide +kernel
  obtain ⟨c, hc, hsent⟩ := (Option.any_eq_true ..).mp hrun
  have hsent := of_decide_eq_true hsent
  obtain ⟨xs, hx, hacts⟩ := Exec.of_runs step_of_step? hc
  refine ⟨c, xs, hx, hacts, hsent, (typed_iff (by decide) hx).mp ?_⟩
  rw [hsent]
  exact ⟨[], rfl⟩

/-- The same input, and the server replies "yo". -/
def replyRun : List Act :=
  [.connect, .fgets, .send, .recv (.bytes [121, 111]), .recv .eof, .fgets, .send]

theorem reply_sent : ∃ c xs, Exec Step (start [104, 105, 10] (.zero _)) xs c ∧
    xs.map Prod.snd = replyRun ∧ c.sent = [[104, 105, 10], [121, 111]] ∧
    ¬ c.sent.flatten <+: [104, 105, 10] := by
  have hrun : (Exec.runs step? (start [104, 105, 10] (.zero _)) replyRun).any fun c =>
      c.sent = [[104, 105, 10], [121, 111]] := by decide +kernel
  obtain ⟨c, hc, hsent⟩ := (Option.any_eq_true ..).mp hrun
  have hsent := of_decide_eq_true hsent
  obtain ⟨xs, hx, hacts⟩ := Exec.of_runs step_of_step? hc
  refine ⟨c, xs, hx, hacts, hsent, ?_⟩
  rw [hsent]
  decide

end
end OnlineChat.Client

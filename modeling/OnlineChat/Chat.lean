import OnlineChat.ChatServer.Visits
import OnlineChat.Network
import OnlineChat.Typed

/-!
# The single-threaded server and its clients

The network of `apps/server.cpp`. The server never answers: whatever errors a client's `recv`
reports, it hears nothing, and so it has nothing to send but what its user types.
-/

namespace OnlineChat
open Lib Function ChatServer

/-! ## A client that hears nothing -/

namespace Client

/-- What a client sends that hears nothing: its input, or, when there is none, the string that its
uninitialised buffer begins with. -/
def typed (stdin : List Byte) (buffer : Buf BUFFER_LENGTH) : List Byte :=
  if stdin = [] then cstr buffer.bytes else stdin

/-- The client is where it gets to without hearing anything. -/
structure Unanswered (stdin : List Byte) (buffer : Buf BUFFER_LENGTH) (c : Client) : Prop where
  str : (0 : Byte) ∉ c.stdin
  idle : c.pc = .connecting ∨ c.pc = .reading →
    (c.sent = [] ∧ c.stdin = stdin ∧ c.buffer = buffer) ∨
      c.buffer = .zero _ ∧ c.sent.flatten ++ c.stdin = typed stdin buffer
  sending : c.pc = .sending →
    c.sent.flatten ++ cstr c.buffer.bytes ++ c.stdin = typed stdin buffer
  receiving : c.pc = .receiving →
    c.buffer = .zero _ ∧ c.sent.flatten ++ c.stdin = typed stdin buffer

section
variable {stdin : List Byte} {buffer : Buf BUFFER_LENGTH} {c c' : Client} {a : Act}

theorem cstr_zero : cstr (Buf.zero BUFFER_LENGTH).bytes = [] :=
  Buf.zero_holds.cstr_bytes

theorem Unanswered.fgets (h : c.Unanswered stdin buffer) (hpc : c.pc = .reading) :
    c.fgets.Unanswered stdin buffer := by
  refine ⟨fgets_str h.str, ?_, fun _ => ?_, ?_⟩
  · rw [fgets_pc]
    rintro (h | h) <;> cases h
  · rw [fgets_sent]
    by_cases heof : c.stdin = []
    · rw [fgets_eof heof]
      rcases h.idle (.inr hpc) with ⟨hsent, hin, hbuf⟩ | ⟨hbuf, hflat⟩
      · rw [hsent, hbuf, heof, typed, if_pos (hin ▸ heof)]
        simp
      · rw [hbuf, cstr_zero, List.append_nil]
        exact hflat
    · rw [List.append_assoc, fgets_stdin h.str heof]
      rcases h.idle (.inr hpc) with ⟨hsent, hin, -⟩ | ⟨-, hflat⟩
      · rw [hsent, hin, typed, if_neg (hin ▸ heof)]
        rfl
      · exact hflat
  · rw [fgets_pc]
    intro h
    cases h

/-- One step of a client that hears nothing in it. -/
theorem Unanswered.step (h : c.Unanswered stdin buffer) (hst : c.Step a c')
    (ha : ∀ r, a = .recv r → r.data = []) : c'.Unanswered stdin buffer := by
  obtain ⟨hl, hst⟩ := hst
  cases a with
  | connect =>
    have hpc : c.pc = .connecting := hl
    cases hst
    refine ⟨h.str, fun _ => h.idle (.inl hpc), ?_, ?_⟩
    · intro h
      cases h
    · intro h
      cases h
  | fgets =>
    cases hst
    exact h.fgets hl
  | send =>
    have hpc : c.pc = .sending := hl
    have hflat := h.sending hpc
    obtain ⟨p, hp, hc⟩ := bind_eq_ok hst
    cases hc
    unfold Client.send at hp
    split at hp <;> cases hp
    refine ⟨h.str, ?_, ?_, fun _ => ⟨rfl, ?_⟩⟩
    · rintro (h | h) <;> cases h
    · intro h
      cases h
    · show (c.sent ++ [cstr c.buffer.bytes]).flatten ++ c.stdin = _
      rw [List.flatten_append, List.flatten_singleton]
      exact hflat
  | recv r =>
    have hpc : c.pc = .receiving := hl.1
    have hd := ha r rfl
    obtain ⟨hbuf, hflat⟩ := h.receiving hpc
    obtain ⟨⟨stop, b⟩, hp, hc⟩ := bind_eq_ok hst
    cases hc
    have hb : b.buf = c.buffer := by
      rcases RecvBuf.pass_cases hl.2.ne_nil hp with ⟨-, -, rfl⟩ | ⟨bs, b', rfl, -⟩ |
        ⟨e, -, -, -, -, rfl⟩
      · rfl
      · exact absurd (congrArg RecvResult.bytes hd) hl.2.ne_nil
      · rfl
    have hbuf : b.buf = .zero _ := hb.trans hbuf
    refine ⟨h.str, fun _ => .inr ⟨hbuf, hflat⟩, ?_, fun _ => ⟨hbuf, hflat⟩⟩
    intro hpc'
    dsimp only at hpc'
    split at hpc' <;> cases hpc'

theorem Unanswered.sent_isPrefix (h : c.Unanswered stdin buffer) :
    c.sent.flatten <+: typed stdin buffer := by
  cases hpc : c.pc with
  | connecting =>
    rcases h.idle (.inl hpc) with ⟨hsent, -⟩ | ⟨-, hflat⟩
    · rw [hsent]
      exact List.nil_prefix
    · exact ⟨_, hflat⟩
  | reading =>
    rcases h.idle (.inr hpc) with ⟨hsent, -⟩ | ⟨-, hflat⟩
    · rw [hsent]
      exact List.nil_prefix
    · exact ⟨_, hflat⟩
  | sending => exact ⟨_, (List.append_assoc ..).symm.trans (h.sending hpc)⟩
  | receiving => exact ⟨_, (h.receiving hpc).2⟩

end
end Client

/-! ## The system -/

namespace ChatServer

/-- The steps of the server that are not the arrival of something from a client. -/
def Act.Own : Act → Prop
  | .connect | .segment .. => False
  | .recv r => r.Clean
  | .wait _ | .next | .accept _ => True

instance : DecidablePred Act.Own
  | .connect | .segment .. => .isFalse id
  | .recv r => inferInstanceAs (Decidable r.Clean)
  | .wait _ | .next | .accept _ => .isTrue trivial

def program : Program Server Act where
  kernel := Server.kernel
  Legal := Server.Legal
  step := Server.step
  connect := .connect
  segment := .segment
  Own := Act.Own
  Reached := Server.Inv
  connected h hl hs := by
    have hinv := h.step ⟨hl, hs⟩
    cases hs
    exact ⟨hinv, rfl⟩
  arrived h hl hs := by
    have hinv := h.step ⟨hl, hs⟩
    cases hs
    exact ⟨hinv, rfl⟩
  ran {s s' a} h ha hl hs := by
    have hstep : s.Step a s' := ⟨hl, hs⟩
    refine ⟨h.step hstep, fun k => ?_⟩
    apply (hstep.trans.sock h k).2
    rintro bs rfl
    exact ha

instance (s : Server) (a : Act) : Decidable (program.Legal s a) :=
  inferInstanceAs (Decidable (s.Legal a))

instance : DecidablePred program.Own := inferInstanceAs (DecidablePred Act.Own)

theorem cleanRecv_of_sees {a : Act} (h : program.Sees a) : a.CleanRecv := by
  cases h with
  | connect | segment => trivial
  | own h =>
    cases a with
    | recv r => exact h
    | _ => trivial

end ChatServer

namespace Chat
open Network

/-- The server writes nothing, and no client hears anything. -/
structure Inv (stdin : SockId → List Byte) (buffer : SockId → Buf Client.BUFFER_LENGTH)
    (s : Network Server) : Prop where
  reached : s.server.Inv
  carried : s.Carried program
  silent (k : SockId) : (s.server.kernel.socks k).written = []
  client (k : SockId) : (s.client k).Unanswered (stdin k) (buffer k)

section
variable {stdin : SockId → List Byte} {buffer : SockId → Buf Client.BUFFER_LENGTH}
  {s s' : Network Server} {a : Network.Act ChatServer.Act} {k : SockId}

/-- What a client hears of a server that has written nothing. -/
theorem data_nil {r : RecvResult} (h : s.Hears program k r)
    (hw : (s.server.kernel.socks k).written = []) : r.data = [] := by
  cases r with
  | bytes bs =>
    have hpre : bs <+: ((s.server.kernel.socks k).written).drop (s.taken k) :=
      List.isPrefixOf_iff_prefix.mp h
    rw [hw, List.drop_nil] at hpre
    exact List.prefix_nil.mp hpre
  | eof | fail => rfl

theorem Inv.client_step (h : Inv stdin buffer s) (hs : s.Step program a s') (k : SockId) :
    (s'.client k).Unanswered (stdin k) (buffer k) := by
  rcases hs.at k with ⟨hc, -⟩ | ⟨b, hb, hst, -⟩
  · rw [hc]
    exact h.client k
  · apply (h.client k).step hst
    rintro r rfl
    exact data_nil (hs.1.hears hb) (h.silent k)

theorem Inv.silent_step (h : Inv stdin buffer s) (hs : s.Step program a s') (k : SockId) :
    (s'.server.kernel.socks k).written = [] := by
  rcases hs.server with ⟨-, he⟩ | ⟨b, -, -, hst⟩
  · rw [he]
    exact h.silent k
  · have hst : s.server.Step b s'.server := hst
    exact (hst.trans.sock h.reached k).1.trans (h.silent k)

theorem Inv.step (h : Inv stdin buffer s) (hs : s.Step program a s') : Inv stdin buffer s' :=
  ⟨hs.reached h.reached, hs.carried h.reached h.carried, h.silent_step hs, h.client_step hs⟩

end

section
variable {e : ChatServer.Boot} {s₀ : Server} {s : Network Server} {stdin : SockId → List Byte}
  {buffer : SockId → Buf Client.BUFFER_LENGTH}
  {xs : List (Network Server × Network.Act ChatServer.Act)}

theorem start_inv (hb : e.main = some s₀) (hz : ∀ k, (0 : Byte) ∉ stdin k) :
    Inv stdin buffer (.start s₀ stdin buffer) := by
  have hinv : s₀.Inv := (Boot.exec hb .nil).1
  obtain ⟨-, rfl⟩ := Boot.main_eq hb
  have hsocks : e.started.kernel.socks = fun _ => {} :=
    (Kernel.ctl_socks ..).1.trans (Kernel.setFile_socks _)
  refine ⟨hinv, carried_start fun k => ?_, fun k => ?_, fun k => ?_⟩
  · exact congrArg Sock.sent (congrFun hsocks k)
  · exact congrArg Sock.written (congrFun hsocks k)
  · refine ⟨hz k, fun _ => .inl ⟨rfl, rfl, rfl⟩, ?_, ?_⟩
    · intro hpc
      cases hpc
    · intro hpc
      cases hpc

theorem inv (hb : e.main = some s₀) (hz : ∀ k, (0 : Byte) ∉ stdin k)
    (hx : Exec (Network.Step program) (.start s₀ stdin buffer) xs s) : Inv stdin buffer s :=
  hx.invariant (start_inv hb hz) Inv.step

/-- What a client sends is the beginning of what its user types, and what the server prints for it,
at most one buffer, is the beginning of that. -/
theorem prints_typed (hb : e.main = some s₀) (hz : ∀ k, (0 : Byte) ∉ stdin k)
    (hx : Exec (Network.Step program) (.start s₀ stdin buffer) xs s) (k : SockId) :
    (s.client k).sent.flatten <+: Client.typed (stdin k) (buffer k) ∧
    ((s.client k).sent ≠ [] → (s.client k).pc ≠ .sending → (s.client k).buffer = .zero _) ∧
    (Visit.printed (visitActs (serverRun program xs) k)).length ≤ 1 ∧
    ∀ b ∈ Visit.printed (visitActs (serverRun program xs) k), ∃ bs,
      bs <+: Client.typed (stdin k) (buffer k) ∧ bs.length ≤ ChatServer.BUFFER_LENGTH ∧
      b.Holds bs := by
  have hinv := inv hb hz hx
  obtain ⟨hrun, hsees⟩ := server_exec hx
  have htranscript := Boot.transcript hb hrun (fun x hx => cleanRecv_of_sees (hsees x hx)) k
  have hclient := hinv.client k
  refine ⟨hclient.sent_isPrefix, ?_, ?_⟩
  · intro hsent hpc
    cases hpc' : (s.client k).pc with
    | connecting => exact ((hclient.idle (.inl hpc')).resolve_left fun h => hsent h.1).1
    | reading => exact ((hclient.idle (.inr hpc')).resolve_left fun h => hsent h.1).1
    | sending => exact absurd hpc' hpc
    | receiving => exact (hclient.receiving hpc').1
  · by_cases hk : (s.server.visit k).station = .closed
    · obtain ⟨b, hb, hholds⟩ := htranscript.once hk
      rw [hb]
      refine ⟨Nat.le_refl 1, ?_⟩
      intro b' hb'
      rw [List.mem_singleton.mp hb']
      refine ⟨_, ?_, htranscript.room, hholds⟩
      rw [← htranscript.taken]
      have hstream : (s.server.visit k).sent <+: (s.client k).sent.flatten := ⟨_, hinv.carried k⟩
      exact ((List.take_prefix ..).trans hstream).trans hclient.sent_isPrefix
    · rw [htranscript.silent hk]
      exact ⟨Nat.zero_le 1, fun b hb => by cases hb⟩

/-- The lines "hi" and "!" of two users, the second of whom gets the descriptor of the first. -/
def twoUsers (k : SockId) : List Byte :=
  if k = 0 then [104, 105, 10] else if k = 1 then [33, 10] else []

/-- The server reads a client that has sent `bs` and closes it. -/
def served (bs : List Byte) : List (Network.Act ChatServer.Act) :=
  [.wait [(4, EPOLLIN)], .next, .accept 5, .next, .wait [(5, EPOLLIN)], .next, .recv (.bytes bs),
    .recv (.fail .EAGAIN), .next].map .server

def twoRun : List (Network.Act ChatServer.Act) :=
  [.connect, .fgets 0, .send 0, .deliver 0 3] ++ served [104, 105, 10] ++
    [.recv 0 .eof, .fgets 0, .send 0, .connect, .fgets 1, .send 1, .deliver 1 2] ++
    served [33, 10]

theorem prints_typed_two : ∃ s₀ s xs, ChatServer.Boot.plain.main = some s₀ ∧
    Exec (Network.Step program) (.start s₀ twoUsers fun _ => .zero _) xs s ∧
    xs.map Prod.snd = twoRun ∧
    (s.client 0).sent = [[104, 105, 10], []] ∧ (s.client 1).sent = [[33, 10]] ∧
    ∀ k, ∀ b ∈ Visit.printed (visitActs (serverRun program xs) k), ∃ bs,
      bs <+: Client.typed (twoUsers k) (.zero _) ∧ bs.length ≤ ChatServer.BUFFER_LENGTH ∧
      b.Holds bs := by
  obtain ⟨s₀, h₀⟩ : ∃ s₀, ChatServer.Boot.plain.main = some s₀ := ⟨_, rfl⟩
  obtain ⟨-, rfl⟩ := Boot.main_eq h₀
  have hrun : (Exec.runs (Network.step? program)
      (.start ChatServer.Boot.plain.started twoUsers fun _ => .zero _) twoRun).any fun s =>
        (s.client 0).sent = [[104, 105, 10], []] ∧ (s.client 1).sent = [[33, 10]] := by
    decide +kernel
  obtain ⟨s, hs, hsent⟩ := (Option.any_eq_true ..).mp hrun
  obtain ⟨h0, h1⟩ := of_decide_eq_true hsent
  obtain ⟨xs, hx, hacts⟩ := Exec.of_runs step_of_step? hs
  have hz : ∀ k, (0 : Byte) ∉ twoUsers k := by
    intro k
    unfold twoUsers
    split_ifs <;> decide
  exact ⟨_, s, xs, h₀, hx, hacts, h0, h1, fun k => (prints_typed h₀ hz hx k).2.2.2⟩

end
end Chat
end OnlineChat

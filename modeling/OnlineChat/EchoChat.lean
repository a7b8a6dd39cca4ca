import OnlineChat.Network
import OnlineChat.Reactor.Returns
import OnlineChat.Typed

/-!
# The reactor and its clients

The network of the reactor. It answers a client once and then closes, so a client goes through the
phases of `Client.Phase`: it sends the first line of its input, it gathers the answer until the end
of the connection, and whatever it sends after that nobody hears, until SIGPIPE ends it. In no phase
does it or the server go wrong.
-/

namespace OnlineChat
open Lib Function Reactor

/-! ## A client that is answered once -/

namespace Client

/-- What the client sends first: a line of its input, or, when there is none, the string that its
uninitialised buffer begins with. -/
def opening (stdin : List Byte) (buffer : Buf BUFFER_LENGTH) : List Byte :=
  if stdin = [] then cstr buffer.bytes else fgetsLine (BUFFER_LENGTH - 1) stdin

/-- Where a client is that has received `taken` bytes from the connection `x`. -/
inductive Phase (stdin : List Byte) (buffer : Buf BUFFER_LENGTH) (c : Client) (x : Sock)
    (taken : Nat) : Prop
  | fresh : c.pc = .connecting ∨ c.pc = .reading → c.sent = [] → c.stdin = stdin →
    c.buffer = buffer → taken = 0 → Phase stdin buffer c x taken
  | typed : c.pc = .sending → c.sent = [] → c.rlen = 0 → (0 : Byte) ∈ c.buffer.bytes →
    cstr c.buffer.bytes = opening stdin buffer → taken = 0 → Phase stdin buffer c x taken
  | listening : c.pc = .receiving → c.sent = [opening stdin buffer] →
    c.buffer.Holds (x.written.take taken) → (¬ x.Over taken → c.rlen = taken) →
    Phase stdin buffer c x taken
  | answered : c.pc = .reading → c.sent = [opening stdin buffer] → x.Over taken →
    c.buffer.Holds x.written → Phase stdin buffer c x taken
  | again {ls} : c.pc = .sending → c.sent = opening stdin buffer :: ls → x.Over taken →
    (0 : Byte) ∈ c.buffer.bytes → Phase stdin buffer c x taken
  | ignored {ls} : c.pc = .receiving ∨ c.pc = .reading → c.sent = opening stdin buffer :: ls →
    ls ≠ [] → x.Over taken → c.buffer = .zero _ → Phase stdin buffer c x taken

structure Answered (stdin : List Byte) (buffer : Buf BUFFER_LENGTH) (c : Client) (x : Sock)
    (taken : Nat) : Prop where
  str : (0 : Byte) ∉ c.stdin
  written : x.written <+: opening stdin buffer
  le : taken ≤ x.written.length
  phase : Phase stdin buffer c x taken

section
variable {stdin : List Byte} {buffer : Buf BUFFER_LENGTH} {c c' : Client} {x x' : Sock}
  {taken : Nat}

theorem opening_str (hz : (0 : Byte) ∉ stdin) : (0 : Byte) ∉ opening stdin buffer := by
  unfold opening
  split
  · exact zero_notMem_cstr _
  · exact fun hm => hz ((fgetsLine_isPrefix ..).subset hm)

theorem length_opening_lt (h : stdin = [] → (0 : Byte) ∈ buffer.bytes) :
    (opening stdin buffer).length < BUFFER_LENGTH := by
  unfold opening
  split
  next hnil =>
    have hlt := length_cstr_lt (h hnil)
    rwa [buffer.size] at hlt
  · exact Nat.lt_succ_of_le (length_fgetsLine_le ..)

/-- `fgets` leaves a string in the buffer when there was one. -/
theorem fgets_terminated (hz : (0 : Byte) ∉ c.stdin)
    (h : c.stdin = [] → (0 : Byte) ∈ c.buffer.bytes) : (0 : Byte) ∈ c.fgets.buffer.bytes := by
  by_cases heof : c.stdin = []
  · rw [fgets_eof heof]
    exact h heof
  · have hline : fgetsLine (BUFFER_LENGTH - 1) c.stdin ≠ [] := mt fgetsLine_eq_nil.mp heof
    have hpre := fgetsLine_isPrefix (BUFFER_LENGTH - 1) c.stdin
    exact (fgets_line hline fun hm => hz (hpre.subset hm)).2.2.2.1

/-- The first string in the buffer. -/
theorem fgets_opening (hz : (0 : Byte) ∉ c.stdin) :
    cstr c.fgets.buffer.bytes = opening c.stdin c.buffer := by
  unfold opening
  split
  next heof => rw [fgets_eof heof]
  next heof =>
    have hline : fgetsLine (BUFFER_LENGTH - 1) c.stdin ≠ [] := mt fgetsLine_eq_nil.mp heof
    have hpre := fgetsLine_isPrefix (BUFFER_LENGTH - 1) c.stdin
    exact (fgets_line hline fun hm => hz (hpre.subset hm)).2.2.2.2

/-! ### Its phases -/

theorem Phase.reading (h : Phase stdin buffer c x taken) (hpc : c.pc = .reading) :
    (c.sent = [] ∧ c.stdin = stdin ∧ c.buffer = buffer ∧ taken = 0) ∨
    ∃ ls, c.sent = opening stdin buffer :: ls ∧ x.Over taken ∧
      (ls = [] ∧ c.buffer.Holds x.written ∨ ls ≠ [] ∧ c.buffer = .zero _) := by
  cases h with
  | fresh _ hsent hin hbuf htaken => exact .inl ⟨hsent, hin, hbuf, htaken⟩
  | answered _ hsent hover hholds => exact .inr ⟨[], hsent, hover, .inl ⟨rfl, hholds⟩⟩
  | ignored _ hsent hne hover hbuf => exact .inr ⟨_, hsent, hover, .inr ⟨hne, hbuf⟩⟩
  | typed hpc' | listening hpc' | again hpc' =>
    rw [hpc] at hpc'
    cases hpc'

theorem Phase.sending (h : Phase stdin buffer c x taken) (hpc : c.pc = .sending) :
    (0 : Byte) ∈ c.buffer.bytes ∧
      ((c.sent = [] ∧ c.rlen = 0 ∧ cstr c.buffer.bytes = opening stdin buffer ∧ taken = 0) ∨
      ∃ ls, c.sent = opening stdin buffer :: ls ∧ x.Over taken) := by
  cases h with
  | typed _ hsent hrlen hterm hcstr htaken => exact ⟨hterm, .inl ⟨hsent, hrlen, hcstr, htaken⟩⟩
  | again _ hsent hover hterm => exact ⟨hterm, .inr ⟨_, hsent, hover⟩⟩
  | listening hpc' | answered hpc' =>
    rw [hpc] at hpc'
    cases hpc'
  | fresh hpc' | ignored hpc' =>
    rw [hpc] at hpc'
    rcases hpc' with h | h <;> cases h

theorem Phase.receiving (h : Phase stdin buffer c x taken) (hpc : c.pc = .receiving) :
    (c.sent = [opening stdin buffer] ∧ c.buffer.Holds (x.written.take taken) ∧
      (¬ x.Over taken → c.rlen = taken)) ∨
    ∃ ls, c.sent = opening stdin buffer :: ls ∧ ls ≠ [] ∧ x.Over taken ∧ c.buffer = .zero _ := by
  cases h with
  | listening _ hsent hholds hcount => exact .inl ⟨hsent, hholds, hcount⟩
  | ignored _ hsent hne hover hbuf => exact .inr ⟨_, hsent, hne, hover, hbuf⟩
  | typed hpc' | answered hpc' | again hpc' =>
    rw [hpc] at hpc'
    cases hpc'
  | fresh hpc' =>
    rw [hpc] at hpc'
    rcases hpc' with h | h <;> cases h

theorem Phase.head_sent (h : Phase stdin buffer c x taken) :
    ∀ l ∈ c.sent.head?, l = opening stdin buffer := by
  cases h with
  | fresh _ hsent | typed _ hsent =>
    rw [hsent]
    intro l hl
    cases hl
  | listening _ hsent | answered _ hsent | again _ hsent | ignored _ hsent =>
    rw [hsent]
    intro l hl
    exact (Option.some.inj hl).symm

/-- The client sends nothing more until the server has closed. -/
theorem Phase.over (h : Phase stdin buffer c x taken) (hlen : 1 < c.sent.length) :
    x.Over taken := by
  cases h with
  | answered _ _ hover | again _ _ hover | ignored _ _ _ hover => exact hover
  | fresh _ hsent | typed _ hsent | listening _ hsent =>
    rw [hsent] at hlen
    simp at hlen

/-- What the client prints: the answer after its first line, and nothing after the others. -/
theorem Phase.shown (h : Phase stdin buffer c x taken) (hpc : c.pc = .reading) :
    (c.sent.length = 1 → c.buffer.Holds x.written) ∧
      (1 < c.sent.length → c.buffer = .zero _) := by
  rcases h.reading hpc with ⟨hsent, -⟩ | ⟨ls, hsent, -, ⟨rfl, hholds⟩ | ⟨hne, hzero⟩⟩
  · simp [hsent]
  · simp [hsent, hholds]
  · simp [hsent, hne, hzero]

/-- Before the end of the connection a client that receives gathers the answer. -/
theorem Answered.gathering (h : c.Answered stdin buffer x taken) (hpc : c.pc = .receiving)
    (hover : ¬ x.Over taken) :
    c.sent = [opening stdin buffer] ∧ c.recvBuf.Holds (x.written.take taken) := by
  rcases h.phase.receiving hpc with ⟨hsent, hholds, hcount⟩ | ⟨ls, -, -, hover', -⟩
  · refine ⟨hsent, hholds, ?_⟩
    rw [List.length_take_of_le h.le]
    exact hcount hover
  · exact absurd hover' hover

/-! ### Its steps -/

theorem Answered.connect (h : c.Answered stdin buffer x taken) (hst : c.Step .connect c') :
    c'.Answered stdin buffer x taken := by
  have hpc : c.pc = .connecting := hst.1
  cases hst.2
  refine ⟨h.str, h.written, h.le, ?_⟩
  cases h.phase with
  | fresh _ hsent hin hbuf htaken => exact .fresh (.inr rfl) hsent hin hbuf htaken
  | typed hpc' | listening hpc' | answered hpc' | again hpc' =>
    rw [hpc] at hpc'
    cases hpc'
  | ignored hpc' =>
    rw [hpc] at hpc'
    rcases hpc' with h | h <;> cases h

theorem Answered.fgets (h : c.Answered stdin buffer x taken)
    (hbuf : stdin = [] → (0 : Byte) ∈ buffer.bytes) (hst : c.Step .fgets c') :
    c'.Answered stdin buffer x taken := by
  have hpc : c.pc = .reading := hst.1
  cases hst.2
  refine ⟨fgets_str h.str, h.written, h.le, ?_⟩
  rcases h.phase.reading hpc with ⟨hsent, hin, hbuf', htaken⟩ | ⟨ls, hsent, hover, hshown⟩
  · subst hin hbuf'
    exact .typed fgets_pc (fgets_sent.trans hsent) fgets_rlen (fgets_terminated h.str hbuf)
      (fgets_opening h.str) htaken
  · have hterm : (0 : Byte) ∈ c.buffer.bytes := by
      rcases hshown with ⟨-, hholds⟩ | ⟨-, hzero⟩
      · apply hholds.zero_mem
        exact Nat.lt_of_le_of_lt h.written.length_le (length_opening_lt hbuf)
      · rw [hzero]
        exact Buf.zero_holds.zero_mem (by decide)
    exact .again fgets_pc (fgets_sent.trans hsent) hover (fgets_terminated h.str fun _ => hterm)

theorem Answered.send (h : c.Answered stdin buffer x taken) (hst : c.Step .send c') :
    c'.Answered stdin buffer x taken := by
  have hpc : c.pc = .sending := hst.1
  obtain ⟨p, hp, hc⟩ := bind_eq_ok hst.2
  cases hc
  unfold Client.send at hp
  split at hp <;> cases hp
  refine ⟨h.str, h.written, h.le, ?_⟩
  rcases (h.phase.sending hpc).2 with ⟨hsent, hrlen, hcstr, rfl⟩ | ⟨ls, hsent, hover⟩
  · refine .listening rfl ?_ ?_ fun _ => hrlen
    · show c.sent ++ [cstr c.buffer.bytes] = _
      rw [hsent, hcstr]
      rfl
    · rw [List.take_zero]
      exact Buf.zero_holds
  · have hsent' : c.sent ++ [cstr c.buffer.bytes] =
        opening stdin buffer :: (ls ++ [cstr c.buffer.bytes]) := by
      rw [hsent]
      rfl
    exact .ignored (.inl rfl) hsent' (by simp) hover rfl

/-- While the connection has something for the client it is not over. -/
theorem not_over_of_hands {bs : List Byte} (hbs : bs ≠ []) (h : x.Hands taken (.bytes bs)) :
    ¬ x.Over taken := by
  rintro ⟨-, rfl⟩
  have hpre : bs <+: x.written.drop x.written.length := List.isPrefixOf_iff_prefix.mp h
  rw [List.drop_length] at hpre
  exact hbs (List.prefix_nil.mp hpre)

/-- The next bytes of the answer. -/
theorem Answered.bytes {bs : List Byte} (h : c.Answered stdin buffer x taken)
    (hst : c.Step (.recv (.bytes bs)) c') (hr : x.Hands taken (.bytes bs)) :
    c'.Answered stdin buffer x (taken + bs.length) := by
  obtain ⟨⟨hpc, hbs, -⟩, hst⟩ := hst
  have hpre : bs <+: x.written.drop taken := List.isPrefixOf_iff_prefix.mp hr
  have hle : taken + bs.length ≤ x.written.length := by
    have hlen := hpre.length_le
    have htaken := h.le
    rw [List.length_drop] at hlen
    omega
  obtain ⟨hsent, hholds⟩ := h.gathering hpc (not_over_of_hands hbs hr)
  obtain ⟨hholds', hpc', hsent'⟩ := recv_bytes hbs hholds hst
  have hnext : x.written.take taken ++ bs = x.written.take (taken + bs.length) := by
    rw [List.take_add, ← List.prefix_iff_eq_take.mp hpre]
  rw [hnext] at hholds'
  have hstdin : c'.stdin = c.stdin := by
    obtain ⟨p, -, hc⟩ := bind_eq_ok hst
    cases hc
    rfl
  refine ⟨hstdin ▸ h.str, h.written, hle, .listening hpc' (hsent'.trans hsent) hholds'.1 ?_⟩
  intro _
  have hcount := hholds'.2
  rwa [List.length_take_of_le hle] at hcount

/-- The end of the connection, or an error after it. -/
theorem Answered.ended {r : RecvResult} (h : c.Answered stdin buffer x taken)
    (hst : c.Step (.recv r) c') (hd : r.data = []) (hover : x.Over taken) :
    c'.Answered stdin buffer x taken := by
  obtain ⟨⟨hpc, hfit⟩, hst⟩ := hst
  obtain ⟨⟨stop, b⟩, hp, hc⟩ := bind_eq_ok hst
  cases hc
  have hbuf : b.buf = c.buffer := by
    rcases RecvBuf.pass_cases hfit.ne_nil hp with ⟨-, -, rfl⟩ | ⟨bs, b', rfl, -⟩ |
      ⟨e, -, -, -, -, rfl⟩
    · rfl
    · exact absurd (congrArg RecvResult.bytes hd) hfit.ne_nil
    · rfl
  refine ⟨h.str, h.written, h.le, ?_⟩
  rcases h.phase.receiving hpc with ⟨hsent, hholds, -⟩ | ⟨ls, hsent, hne, -, hzero⟩
  · rw [← hbuf] at hholds
    cases stop with
    | true =>
      rw [hover.2, List.take_length] at hholds
      exact .answered rfl hsent hover hholds
    | false => exact .listening rfl hsent hholds fun hno => absurd hover hno
  · rw [← hbuf] at hzero
    cases stop with
    | true => exact .ignored (.inr rfl) hsent hne hover hzero
    | false => exact .ignored (.inl rfl) hsent hne hover hzero

/-- One step of the client. -/
theorem Answered.step {a : Act} (h : c.Answered stdin buffer x taken)
    (hbuf : stdin = [] → (0 : Byte) ∈ buffer.bytes) (hst : c.Step a c')
    (ha : ∀ r, a = .recv r → x.Hands taken r) :
    c'.Answered stdin buffer x (taken + a.data.length) := by
  cases a with
  | connect => exact h.connect hst
  | fgets => exact h.fgets hbuf hst
  | send => exact h.send hst
  | recv r =>
    have hr := ha r rfl
    cases r with
    | bytes bs => exact h.bytes hst hr
    | eof | fail => exact h.ended hst rfl hr

/-- The client goes wrong nowhere. -/
theorem Answered.step_ok {a : Act} (h : c.Answered stdin buffer x taken) (hl : c.Legal a)
    (ha : ∀ r, a = .recv r → x.Hands taken r) : ∃ c', c.step a = .ok c' := by
  cases a with
  | connect | fgets => exact ⟨_, rfl⟩
  | send =>
    simp only [Client.step, send_string (h.phase.sending hl).1, bind, Except.bind]
    exact ⟨_, rfl⟩
  | recv r =>
    have hok : ∃ p, c.recvBuf.pass r = .ok p := by
      cases r with
      | eof => exact ⟨_, rfl⟩
      | fail e =>
        simp only [RecvBuf.pass, RecvBuf.fill, bind, Except.bind]
        split <;> exact ⟨_, rfl⟩
      | bytes bs =>
        have hover := not_over_of_hands hl.2.1 (ha _ rfl)
        exact RecvBuf.pass_ok (h.gathering hl.1 hover).2.gathers (by decide) hl.2
    obtain ⟨p, hp⟩ := hok
    simp only [Client.step, Client.recv, hp, bind, Except.bind]
    exact ⟨_, rfl⟩

/-! ### The steps of the server -/

theorem Answered.of_sock (h : c.Answered stdin buffer x taken) (hw : x'.written = x.written)
    (hc : x'.closed = x.closed) : c.Answered stdin buffer x' taken := by
  obtain ⟨sent, got, written, closed⟩ := x
  obtain ⟨sent', got', written', closed'⟩ := x'
  cases hw
  cases hc
  refine ⟨h.str, h.written, h.le, ?_⟩
  cases h.phase with
  | fresh hpc hsent hin hbuf htaken => exact .fresh hpc hsent hin hbuf htaken
  | typed hpc hsent hrlen hterm hcstr htaken => exact .typed hpc hsent hrlen hterm hcstr htaken
  | listening hpc hsent hholds hcount => exact .listening hpc hsent hholds hcount
  | answered hpc hsent hover hholds => exact .answered hpc hsent hover hholds
  | again hpc hsent hover hterm => exact .again hpc hsent hover hterm
  | ignored hpc hsent hne hover hbuf => exact .ignored hpc hsent hne hover hbuf

/-- Before it is answered the client has sent its first line at most. -/
theorem Phase.sent_isPrefix (h : Phase stdin buffer c x taken) (hover : ¬ x.Over taken) :
    c.sent.flatten <+: opening stdin buffer := by
  cases h with
  | fresh _ hsent | typed _ hsent =>
    rw [hsent]
    exact List.nil_prefix
  | listening _ hsent =>
    rw [hsent, List.flatten_singleton]
  | answered _ _ hover' | again _ _ hover' | ignored _ _ _ hover' => exact absurd hover' hover

/-- The answer. -/
theorem Answered.put (h : c.Answered stdin buffer x taken) (hopen : x.closed ≠ true)
    (hnone : x.written = []) (hpre : x'.written <+: opening stdin buffer) :
    c.Answered stdin buffer x' taken := by
  have hover : ¬ x.Over taken := fun h => hopen h.1
  have htaken : taken = 0 := by
    have hle := h.le
    rw [hnone] at hle
    exact Nat.le_zero.mp hle
  subst htaken
  refine ⟨h.str, hpre, Nat.zero_le _, ?_⟩
  cases h.phase with
  | fresh hpc hsent hin hbuf htaken => exact .fresh hpc hsent hin hbuf htaken
  | typed hpc hsent hrlen hterm hcstr htaken => exact .typed hpc hsent hrlen hterm hcstr htaken
  | listening hpc hsent hholds hcount => exact .listening hpc hsent hholds fun _ => hcount hover
  | answered _ _ hover' | again _ _ hover' | ignored _ _ _ hover' => exact absurd hover' hover

/-- What the server writes to a client that it has heard only this client's first line from. -/
theorem Answered.served {w : World} {k : SockId} {b : Reactor.Act} (hw : w.Sound)
    (hz : (0 : Byte) ∉ stdin) (hbuf : stdin = [] → (0 : Byte) ∈ buffer.bytes)
    (h : c.Answered stdin buffer (w.kernel.socks k) taken) (hst : SockStep w k b x)
    (hsent : (w.kernel.socks k).sent <+: c.sent.flatten) : c.Answered stdin buffer x taken := by
  cases hst with
  | same => exact h
  | arrive | take => exact h.of_sock rfl rfl
  | @put d todo conn n past hpc hc hf hn =>
    obtain ⟨hcs, -, he⟩ := hw.inv.writing hpc hc
    have hstr := hw.streams.conn hcs hc hf
    rw [World.stage_sending hc he (by rw [hpc]; rfl)] at hstr
    have hopen : (w.kernel.socks k).closed ≠ true := fun hclosed =>
      (hw.streams.closed hclosed).2.2 _ hf
    have hpre : (w.kernel.socks k).sent <+: opening stdin buffer :=
      hsent.trans (h.phase.sent_isPrefix fun h => hopen h.1)
    have hlen : (w.kernel.socks k).sent.length < RECV_BUFFER_LENGTH :=
      Nat.lt_of_le_of_lt hpre.length_le ((length_opening_lt hbuf).trans (by decide))
    obtain ⟨-, htake⟩ := hstr.write (fun hm => opening_str hz (hpre.subset hm)) hlen hn past
    apply h.put hopen hstr.written
    rw [htake, hstr.written]
    exact (List.take_prefix ..).trans hpre

end
end Client

/-! ## The system -/

namespace Reactor

/-- The steps of the server that are not the arrival of something from a client. -/
def Act.Own : Act → Prop
  | .connect | .segment .. => False
  | .recv r => r.Clean
  | .wait _ | .next | .accept .. | .write .. => True

instance : DecidablePred Act.Own
  | .connect | .segment .. => .isFalse id
  | .recv r => inferInstanceAs (Decidable r.Clean)
  | .wait _ | .next | .accept .. | .write .. => .isTrue trivial

theorem Act.Own.cleanRecv {a : Act} (h : a.Own) : a.CleanRecv := by
  cases a with
  | recv r => exact Act.cleanRecv_of_clean h
  | _ => trivial

def program : Program World Act where
  kernel := World.kernel
  Legal := World.Legal
  step := World.step
  connect := .connect
  segment := .segment
  Own := Act.Own
  Reached := World.Sound
  connected h hl hs := by
    have hsound := h.step ⟨hl, hs⟩ trivial
    cases hs
    exact ⟨hsound, rfl⟩
  arrived h hl hs := by
    have hsound := h.step ⟨hl, hs⟩ trivial
    cases hs
    exact ⟨hsound, rfl⟩
  ran {w w' a} h ha hl hs := by
    have hstep : w.Step a w' := ⟨hl, hs⟩
    refine ⟨h.step hstep ha.cleanRecv, fun k => ?_⟩
    apply ((h.inv.trans hstep).sockStep h.inv k).sent_eq
    rintro bs rfl
    exact ha

instance (w : World) (a : Act) : Decidable (program.Legal w a) :=
  inferInstanceAs (Decidable (w.Legal a))

instance : DecidablePred program.Own := inferInstanceAs (DecidablePred Act.Own)

end Reactor

namespace EchoChat
open Network Reactor

/-- Every client is where it gets to with one answer. -/
structure Inv (stdin : SockId → List Byte) (buffer : SockId → Buf Client.BUFFER_LENGTH)
    (s : Network World) : Prop where
  sound : s.server.Sound
  carried : s.Carried program
  client (k : SockId) :
    (s.client k).Answered (stdin k) (buffer k) (s.sock program k) (s.taken k)
  ended (k : SockId) : s.ended k = true → (s.sock program k).closed = true

section
variable {stdin : SockId → List Byte} {buffer : SockId → Buf Client.BUFFER_LENGTH}
  {s s' : Network World} {a : Network.Act Reactor.Act} {k : SockId}

theorem sent_isPrefix (hs : s.Step program a s') (k : SockId) :
    (s.client k).sent.flatten <+: (s'.client k).sent.flatten := by
  rcases hs.at k with ⟨hc, -⟩ | ⟨b, -, hst, -⟩
  · rw [hc]
  · obtain ⟨ls, hls⟩ := hst.sent
    rw [← hls, List.flatten_append]
    exact List.prefix_append ..

theorem Inv.client_step (h : Inv stdin buffer s) (hz : ∀ k, (0 : Byte) ∉ stdin k)
    (hbuf : ∀ k, stdin k = [] → (0 : Byte) ∈ (buffer k).bytes) (ho : s.Orderly program a)
    (hs : s.Step program a s') (k : SockId) :
    (s'.client k).Answered (stdin k) (buffer k) (s'.sock program k) (s'.taken k) := by
  have hclient : (s'.client k).Answered (stdin k) (buffer k) (s.sock program k) (s'.taken k) := by
    rcases hs.at k with ⟨hc, ht⟩ | ⟨b, hb, hst, ht⟩
    · rw [hc, ht]
      exact h.client k
    · rw [ht]
      apply (h.client k).step (hbuf k) hst
      rintro r rfl
      exact ho.hands hb
  rcases hs.server with ⟨-, he⟩ | ⟨b, -, -, hst⟩
  · rw [sock, he]
    exact hclient
  · have hst : s.server.Step b s'.server := hst
    have hsent : (s.sock program k).sent <+: (s.client k).sent.flatten := ⟨_, h.carried k⟩
    exact hclient.served h.sound (hz k) (hbuf k) ((h.sound.inv.trans hst).sockStep h.sound.inv k)
      (hsent.trans (sent_isPrefix hs k))

theorem Inv.step (h : Inv stdin buffer s) (hz : ∀ k, (0 : Byte) ∉ stdin k)
    (hbuf : ∀ k, stdin k = [] → (0 : Byte) ∈ (buffer k).bytes) (ho : s.Orderly program a)
    (hs : s.Step program a s') : Inv stdin buffer s' := by
  refine ⟨hs.reached h.sound, hs.carried h.sound h.carried, fun k => ?_, fun k hk => ?_⟩
  · exact h.client_step hz hbuf ho hs k
  · have hclosed := (hs.ended hk).elim (h.ended k) id
    rcases hs.server with ⟨-, he⟩ | ⟨b, -, -, hst⟩
    · rw [sock, he]
      exact hclosed
    · have hst : s.server.Step b s'.server := hst
      have hsock := (h.sound.inv.trans hst).sockStep h.sound.inv k
      exact ((hsock.written h.sound.streams).2 hclosed).2

/-- What the server has taken from a client that it has not closed is from its first line. -/
theorem Inv.taken_isPrefix (h : Inv stdin buffer s) {fd : Fd}
    (hf : s.server.kernel.file fd = some (.conn k)) :
    s.server.taken k <+: Client.opening (stdin k) (buffer k) := by
  have hover : ¬ (s.sock program k).Over (s.taken k) := by
    rintro ⟨hclosed, -⟩
    exact (h.sound.streams.closed hclosed).2.2 _ hf
  have hsent : (s.sock program k).sent <+: (s.client k).sent.flatten := ⟨_, h.carried k⟩
  exact ((List.take_prefix ..).trans hsent).trans ((h.client k).phase.sent_isPrefix hover)

/-- The strings that the server uses end in its buffers. -/
theorem Inv.uses (h : Inv stdin buffer s) (hbuf : ∀ k, stdin k = [] → (0 : Byte) ∈ (buffer k).bytes)
    {b : Reactor.Act} {conn : Connection} (hu : s.server.Uses b conn) :
    (0 : Byte) ∈ conn.rbuffer.bytes := by
  obtain ⟨k, hf, hfull⟩ := h.sound.uses hu
  by_contra hz
  have hle := (h.taken_isPrefix hf).length_le
  have hlt := Client.length_opening_lt (hbuf k)
  rw [(hfull.mp hz).1] at hle
  exact absurd (hle.trans_lt hlt) (by decide)

/-- The string that a client prints ends in its buffer. -/
theorem Inv.prints (h : Inv stdin buffer s) (hbuf : ∀ k, stdin k = [] → (0 : Byte) ∈ (buffer k).bytes)
    (hpc : (s.client k).pc = .reading) (hsent : (s.client k).sent ≠ []) :
    (0 : Byte) ∈ (s.client k).buffer.bytes := by
  have hclient := h.client k
  rcases hclient.phase.reading hpc with ⟨hnil, -⟩ | ⟨ls, -, -, ⟨-, hholds⟩ | ⟨-, hzero⟩⟩
  · exact absurd hnil hsent
  · exact hholds.zero_mem (hclient.written.length_le.trans_lt (Client.length_opening_lt (hbuf k)))
  · rw [hzero]
    exact Buf.zero_holds.zero_mem (by decide)

/-- Nothing goes wrong anywhere. -/
theorem Inv.step_ok (h : Inv stdin buffer s) (hl : s.Legal program a)
    (ho : s.Orderly program a) : ∃ s', s.step program a = .ok s' := by
  refine Network.step_ok (fun b hb => h.sound.step_ok hb) (fun k b hb hlb => ?_) hl
  apply (h.client k).step_ok hlb
  rintro r rfl
  exact ho.hands hb

end

section
variable {e : Reactor.Boot} {w : World} {s : Network World} {stdin : SockId → List Byte}
  {buffer : SockId → Buf Client.BUFFER_LENGTH}
  {xs : List (Network World × Network.Act Reactor.Act)}

theorem start_inv (hb : e.server = some (.ok w)) (hz : ∀ k, (0 : Byte) ∉ stdin k) :
    Inv stdin buffer (.start w stdin buffer) := by
  have hsound : w.Sound := Boot.sound hb .nil (by simp)
  obtain ⟨-, rfl⟩ := Boot.server_eq hb
  have hsock (k : SockId) : e.started.kernel.socks k = {} := congrFun e.started_socks.1 k
  refine ⟨hsound, carried_start fun k => congrArg Sock.sent (hsock k), fun k => ?_, fun k hk => ?_⟩
  · have hwritten : ((Network.start e.started stdin buffer).sock program k).written = [] :=
      congrArg Sock.written (hsock k)
    refine ⟨hz k, ?_, Nat.zero_le _, .fresh (.inl rfl) rfl rfl rfl rfl⟩
    rw [hwritten]
    exact List.nil_prefix
  · cases hk

theorem inv (hb : e.server = some (.ok w)) (hz : ∀ k, (0 : Byte) ∉ stdin k)
    (hbuf : ∀ k, stdin k = [] → (0 : Byte) ∈ (buffer k).bytes)
    (hx : Exec (Network.Step program) (.start w stdin buffer) xs s)
    (ho : ∀ x ∈ xs, x.1.Orderly program x.2) : Inv stdin buffer s :=
  hx.invariant_of (C := fun s a => s.Orderly program a) ho (start_inv hb hz)
    fun h ho hs => h.step hz hbuf ho hs

/-- Nothing goes wrong, and every client is answered once, by the beginning of its own first
line. One that goes on to send may be ended by SIGPIPE. -/
theorem hears_own (hb : e.server = some (.ok w)) (hz : ∀ k, (0 : Byte) ∉ stdin k)
    (hbuf : ∀ k, stdin k = [] → (0 : Byte) ∈ (buffer k).bytes)
    (hx : Exec (Network.Step program) (.start w stdin buffer) xs s)
    (ho : ∀ x ∈ xs, x.1.Orderly program x.2) :
    (∀ a, s.Legal program a → s.Orderly program a → ∃ s', s.step program a = .ok s') ∧
    (∀ a conn, s.server.Uses a conn → (0 : Byte) ∈ conn.rbuffer.bytes) ∧
    ∀ k, (∀ l ∈ (s.client k).sent.head?, l = Client.opening (stdin k) (buffer k)) ∧
      (s.sock program k).written <+: Client.opening (stdin k) (buffer k) ∧
      (1 < (s.client k).sent.length → (s.sock program k).Over (s.taken k)) ∧
      (s.ended k = true → (s.sock program k).closed = true) ∧
      ((s.client k).pc = .reading →
        ((s.client k).sent ≠ [] → (0 : Byte) ∈ (s.client k).buffer.bytes) ∧
        ((s.client k).sent.length = 1 →
          (s.client k).buffer.Holds (s.sock program k).written) ∧
        (1 < (s.client k).sent.length → (s.client k).buffer = .zero _)) := by
  have hinv := inv hb hz hbuf hx ho
  refine ⟨fun a hl ha => hinv.step_ok hl ha, fun a conn => hinv.uses hbuf, fun k => ?_⟩
  have hclient := hinv.client k
  refine ⟨hclient.phase.head_sent, hclient.written, hclient.phase.over, hinv.ended k, fun hpc => ?_⟩
  exact ⟨hinv.prints hbuf hpc, hclient.phase.shown hpc⟩

/-- Two users, the first with the lines "hi", "!" and "?", the second with the line "yo". -/
def twoUsers (k : SockId) : List Byte :=
  if k = 0 then [104, 105, 10, 33, 10, 63, 10] else if k = 1 then [121, 111, 10] else []

/-- The second one gets the descriptor of the first; the first has its first line echoed, an error
for its second one, and is ended by SIGPIPE at its third. -/
def echoRun : List (Network.Act Reactor.Act) :=
  [.connect, .fgets 0, .send 0, .deliver 0 2, .deliver 0 1, .connect, .fgets 1, .send 1] ++
    [.wait [(4, EPOLLIN)], .next, .accept 5 Boot.plain.junk, .next, .wait [(5, EPOLLIN)], .next,
      .recv (.bytes [104, 105, 10]), .recv (.fail .EAGAIN), .next,
      .wait [(5, EPOLLOUT), (4, EPOLLIN)], .next, .write 3 [], .next,
      .accept 5 Boot.plain.junk, .next].map .server ++
    [.recv 0 (.bytes [104, 105]), .recv 0 (.bytes [10]), .recv 0 .eof, .fgets 0, .send 0,
      .deliver 0 2, .recv 0 (.fail .ECONNRESET), .recv 0 .eof, .fgets 0, .sigpipe 0, .deliver 1 3] ++
    [.wait [(5, EPOLLIN)], .next, .recv (.bytes [121, 111, 10]), .recv (.fail .EAGAIN), .next,
      .wait [(5, EPOLLOUT)], .next, .write 3 [], .next].map .server ++
    [.recv 1 (.bytes [121, 111, 10]), .recv 1 .eof]

theorem hears_own_two : ∃ w s xs, Boot.plain.server = some (.ok w) ∧
    Exec (Network.Step program) (.start w twoUsers fun _ => .zero _) xs s ∧
    xs.map Prod.snd = echoRun ∧
    (s.client 0).sent = [[104, 105, 10], [33, 10]] ∧ s.ended 0 = true ∧
    (s.sock program 0).written = [104, 105, 10] ∧ (s.sock program 1).written = [121, 111, 10] ∧
    ∀ k, (s.sock program k).written <+: Client.opening (twoUsers k) (.zero _) := by
  obtain ⟨w, hw⟩ : ∃ w, Boot.plain.server = some (.ok w) := ⟨_, rfl⟩
  obtain ⟨-, rfl⟩ := Boot.server_eq hw
  have hrun : (Exec.runs (fun s a => if s.Orderly program a then Network.step? program s a else none)
      (.start Boot.plain.started twoUsers fun _ => .zero _) echoRun).any fun s =>
        (s.client 0).sent = [[104, 105, 10], [33, 10]] ∧ s.ended 0 = true ∧
        (s.sock program 0).written = [104, 105, 10] ∧
        (s.sock program 1).written = [121, 111, 10] := by
    decide +kernel
  obtain ⟨s, hs, hsent⟩ := (Option.any_eq_true ..).mp hrun
  obtain ⟨h0, hended, h1, h2⟩ := of_decide_eq_true hsent
  obtain ⟨xs, hx, hacts, ho⟩ := Exec.of_runs_guarded step_of_step? hs
  have hz : ∀ k, (0 : Byte) ∉ twoUsers k := by
    intro k
    unfold twoUsers
    split_ifs <;> decide
  have hbuf : ∀ k, twoUsers k = [] → (0 : Byte) ∈ (Buf.zero Client.BUFFER_LENGTH).bytes :=
    fun _ _ => Buf.zero_holds.zero_mem (by decide)
  exact ⟨_, s, xs, hw, hx, hacts, h0, hended, h1, h2,
    fun k => ((hears_own hw hz hbuf hx ho).2.2 k).2.1⟩

end
end EchoChat
end OnlineChat

import OnlineChat.Client
import OnlineChat.Lib.Interleave

/-!
# A server and its clients

One server and any number of processes of `apps/client.cpp`, connected by TCP. A `Program` is a
server as its clients see it. The clients are numbered in the order in which they connect, so a
client has the number of its connection. As in `Echo` what a client has sent is on its wire until
it arrives, and what the server has written waits until the client receives it. No client handles
or ignores SIGPIPE, which ends it when it sends on a connection that the server has closed and reset.
Nothing else ends a client, so the server never writes to a connection that is gone.
-/

namespace OnlineChat
open Lib Function

structure Program (σ α : Type) where
  kernel : σ → Kernel
  Legal : σ → α → Prop
  step : σ → α → Except Fault σ
  /-- A client connects. -/
  connect : α
  /-- A segment of a client's stream arrives. -/
  segment : SockId → List Byte → α
  /-- The steps of the program itself in which `recv` reports no error. -/
  Own : α → Prop
  /-- The states that these steps and the arrivals lead to. -/
  Reached : σ → Prop
  connected {s s'} : Reached s → Legal s connect → step s connect = .ok s' →
    Reached s' ∧ kernel s' = (kernel s).connect
  arrived {s s' k bs} : Reached s → Legal s (segment k bs) → step s (segment k bs) = .ok s' →
    Reached s' ∧ kernel s' = (kernel s).segment k bs
  ran {s s' a} : Reached s → Own a → Legal s a → step s a = .ok s' →
    Reached s' ∧ ∀ k, ((kernel s').socks k).sent = ((kernel s).socks k).sent

namespace Program
variable {σ α : Type} (P : Program σ α)

def Step (s : σ) (a : α) (s' : σ) : Prop := P.Legal s a ∧ P.step s a = .ok s'

/-- What happens to the server. -/
inductive Sees : α → Prop
  | connect : Sees P.connect
  | segment {k bs} : Sees (P.segment k bs)
  | own {a} : P.Own a → Sees a

theorem Sees.reached {P : Program σ α} {s s' : σ} {a : α} (ha : P.Sees a) (h : P.Reached s)
    (hst : P.Step s a s') : P.Reached s' := by
  cases ha with
  | connect => exact (P.connected h hst.1 hst.2).1
  | segment => exact (P.arrived h hst.1 hst.2).1
  | own ha => exact (P.ran h ha hst.1 hst.2).1

end Program

/-! ## What a client hears -/

/-- What a step of a client takes from its connection. -/
def Client.Act.data : Client.Act → List Byte
  | .recv r => r.data
  | .connect | .fgets | .send => []

namespace Sock
variable (x : Sock) (taken : Nat)

/-- A client that has received `taken` bytes has received all that the server has written to it
before closing. -/
def Over : Prop := x.closed = true ∧ taken = x.written.length

instance : Decidable (x.Over taken) := inferInstanceAs (Decidable (_ ∧ _))

/-- What the connection has for this client: the next bytes written, or, after the last of them, its
end or an error. -/
def Hands : RecvResult → Prop
  | .bytes bs => bs.isPrefixOf (x.written.drop taken)
  | .eof | .fail _ => x.Over taken

instance : DecidablePred (x.Hands taken)
  | .bytes _ => inferInstanceAs (Decidable (_ = true))
  | .eof | .fail _ => inferInstanceAs (Decidable (x.Over taken))

end Sock

/-! ## The system -/

structure Network (σ : Type) where
  server : σ
  client : SockId → Client
  /-- The bytes that a client has sent and that have not arrived. -/
  wire : SockId → List Byte
  /-- How many of the bytes that the server has written to it a client has received. -/
  taken : SockId → Nat
  /-- SIGPIPE has ended the client. -/
  ended : SockId → Bool

namespace Network

inductive Act (α : Type)
  /-- The next client connects. -/
  | connect
  | fgets (k : SockId)
  | send (k : SockId)
  /-- The first `n` bytes on the wire of a client arrive. -/
  | deliver (k : SockId) (n : Nat)
  | server (a : α)
  | recv (k : SockId) (r : RecvResult)
  /-- The `send` of a client finds its connection reset. -/
  | sigpipe (k : SockId)

variable {σ α : Type} (P : Program σ α) (s : Network σ)

/-- The connection of a client. -/
def sock (k : SockId) : Sock := (P.kernel s.server).socks k

/-- The client that connects next. -/
def next : SockId := (P.kernel s.server).nextSock

/-- What a client's `recv` may return. -/
def Hears (k : SockId) : RecvResult → Prop
  | .fail _ => True
  | r => (s.sock P k).Hands (s.taken k) r

instance (k : SockId) : DecidablePred (s.Hears P k)
  | .fail _ => .isTrue trivial
  | .bytes bs => inferInstanceAs (Decidable ((s.sock P k).Hands (s.taken k) (.bytes bs)))
  | .eof => inferInstanceAs (Decidable ((s.sock P k).Hands (s.taken k) .eof))

/-- No client's `recv` fails before the end of its connection. -/
def Orderly : Act α → Prop
  | .recv k r => (s.sock P k).Hands (s.taken k) r
  | _ => True

instance : DecidablePred (s.Orderly P)
  | .recv k r => inferInstanceAs (Decidable ((s.sock P k).Hands (s.taken k) r))
  | .connect | .fgets _ | .send _ | .deliver .. | .server _ | .sigpipe _ => .isTrue trivial

def Legal : Act α → Prop
  | .connect => P.Legal s.server P.connect ∧ (s.client (s.next P)).Legal .connect
  | .fgets k => (s.client k).Legal .fgets ∧ s.ended k = false
  | .send k => (s.client k).Legal .send ∧ s.ended k = false
  | .deliver k n => 0 < n ∧ n ≤ (s.wire k).length ∧
      P.Legal s.server (P.segment k ((s.wire k).take n))
  | .server a => P.Legal s.server a ∧ P.Own a
  | .recv k r => (s.client k).Legal (.recv r) ∧ s.Hears P k r ∧ s.ended k = false
  | .sigpipe k => (s.client k).Legal .send ∧ (s.sock P k).closed = true ∧ s.ended k = false

instance [∀ s a, Decidable (P.Legal s a)] [DecidablePred P.Own] :
    (a : Act α) → Decidable (s.Legal P a)
  | .connect | .fgets _ | .send _ | .deliver .. | .server _ | .recv .. | .sigpipe _ =>
    inferInstanceAs (Decidable (_ ∧ _))

def step : Act α → Except Fault (Network σ)
  | .connect => do
    let k := s.next P
    let server ← P.step s.server P.connect
    let client ← (s.client k).step .connect
    pure { s with server := server, client := update s.client k client }
  | .fgets k => do
    let client ← (s.client k).step .fgets
    pure { s with client := update s.client k client }
  | .send k => do
    let (bs, client) ← (s.client k).send
    pure { s with
      client := update s.client k client
      wire := update s.wire k (s.wire k ++ bs) }
  | .deliver k n => do
    let server ← P.step s.server (P.segment k ((s.wire k).take n))
    pure { s with server := server, wire := update s.wire k ((s.wire k).drop n) }
  | .server a => do
    let server ← P.step s.server a
    pure { s with server := server }
  | .recv k r => do
    let client ← (s.client k).step (.recv r)
    pure { s with
      client := update s.client k client
      taken := update s.taken k (s.taken k + r.data.length) }
  | .sigpipe k => .ok { s with ended := update s.ended k true }

def Step (s : Network σ) (a : Act α) (s' : Network σ) : Prop := s.Legal P a ∧ s.step P a = .ok s'

def step? [∀ s a, Decidable (P.Legal s a)] [DecidablePred P.Own] (s : Network σ) (a : Act α) :
    Option (Network σ) := if s.Legal P a then (s.step P a).toOption else none

/-- Before any client connects. -/
def start (server : σ) (stdin : SockId → List Byte)
    (buffer : SockId → Buf Client.BUFFER_LENGTH) : Network σ where
  server := server
  client k := .start (stdin k) (buffer k)
  wire _ := []
  taken _ := 0
  ended _ := false

/-! ## The parts of a run -/

/-- What the server sees of a step. -/
def seen : Act α → Option α
  | .connect => some P.connect
  | .deliver k n => some (P.segment k ((s.wire k).take n))
  | .server a => some a
  | .fgets _ | .send _ | .recv .. | .sigpipe _ => none

/-- The server's part of a run. -/
def serverRun (xs : List (Network σ × Act α)) : List (σ × α) :=
  xs.filterMap fun x => (x.1.seen P x.2).map fun a => (x.1.server, a)

/-- The step of a client that a step is. -/
def clientAct : Act α → Option (SockId × Client.Act)
  | .connect => some (s.next P, .connect)
  | .fgets k => some (k, .fgets)
  | .send k => some (k, .send)
  | .recv k r => some (k, .recv r)
  | .deliver .. | .server _ | .sigpipe _ => none

section
variable {P} {s} {s' s₀ : Network σ} {a : Act α} {xs : List (Network σ × Act α)}

theorem step_of_step? [∀ s a, Decidable (P.Legal s a)] [DecidablePred P.Own]
    (h : step? P s a = some s') : s.Step P a s' := by
  simp only [step?, Option.ite_none_right_eq_some] at h
  refine ⟨h.1, ?_⟩
  cases hs : s.step P a with
  | error => simp [hs, Except.toOption] at h
  | ok v => simpa [hs, Except.toOption] using h.2

theorem Step.server (h : s.Step P a s') : (s.seen P a = none ∧ s'.server = s.server) ∨
    ∃ b, s.seen P a = some b ∧ P.Sees b ∧ P.Step s.server b s'.server := by
  obtain ⟨hl, h⟩ := h
  cases a with
  | connect =>
    obtain ⟨v, hv, h⟩ := bind_eq_ok h
    obtain ⟨c, hc, h⟩ := bind_eq_ok h
    cases h
    exact .inr ⟨_, rfl, .connect, hl.1, hv⟩
  | fgets k | send k =>
    obtain ⟨c, hc, h⟩ := bind_eq_ok h
    cases h
    exact .inl ⟨rfl, rfl⟩
  | deliver k n =>
    obtain ⟨v, hv, h⟩ := bind_eq_ok h
    cases h
    exact .inr ⟨_, rfl, .segment, hl.2.2, hv⟩
  | server b =>
    obtain ⟨v, hv, h⟩ := bind_eq_ok h
    cases h
    exact .inr ⟨_, rfl, .own hl.2, hl.1, hv⟩
  | recv k r =>
    obtain ⟨c, hc, h⟩ := bind_eq_ok h
    cases h
    exact .inl ⟨rfl, rfl⟩
  | sigpipe k =>
    cases h
    exact .inl ⟨rfl, rfl⟩

/-- The server's part of a run is a run of the server. -/
theorem server_exec (hx : Exec (Step P) s₀ xs s) :
    Exec P.Step s₀.server (serverRun P xs) s.server ∧ ∀ x ∈ serverRun P xs, P.Sees x.2 := by
  have hview : Exec (fun s b s' => P.Sees b ∧ P.Step s b s') s₀.server (serverRun P xs) s.server :=
    hx.view fun hst => hst.server
  exact hview.of_guarded

theorem Step.reached (h : P.Reached s.server) (hst : s.Step P a s') : P.Reached s'.server := by
  rcases hst.server with ⟨-, he⟩ | ⟨b, -, hb, hb'⟩
  · rw [he]
    exact h
  · exact hb.reached h hb'

theorem Step.client (h : s.Step P a s') : (s.clientAct P a = none ∧ s'.client = s.client) ∨
    ∃ b, s.clientAct P a = some b ∧ Interleave Client.Step s.client b s'.client := by
  obtain ⟨hl, h⟩ := h
  cases a with
  | connect =>
    obtain ⟨v, hv, h⟩ := bind_eq_ok h
    obtain ⟨c, hc, h⟩ := bind_eq_ok h
    cases h
    exact .inr ⟨_, rfl, .update ⟨hl.2, hc⟩⟩
  | fgets k =>
    obtain ⟨c, hc, h⟩ := bind_eq_ok h
    cases h
    exact .inr ⟨_, rfl, .update ⟨hl.1, hc⟩⟩
  | send k =>
    obtain ⟨⟨bs, c⟩, hc, h⟩ := bind_eq_ok h
    cases h
    refine .inr ⟨_, rfl, .update ⟨hl.1, ?_⟩⟩
    simp only [Client.step, hc, bind, Except.bind, pure, Except.pure]
  | deliver k n =>
    obtain ⟨v, hv, h⟩ := bind_eq_ok h
    cases h
    exact .inl ⟨rfl, rfl⟩
  | server b =>
    obtain ⟨v, hv, h⟩ := bind_eq_ok h
    cases h
    exact .inl ⟨rfl, rfl⟩
  | recv k r =>
    obtain ⟨c, hc, h⟩ := bind_eq_ok h
    cases h
    exact .inr ⟨_, rfl, .update ⟨hl.1, hc⟩⟩
  | sigpipe k =>
    cases h
    exact .inl ⟨rfl, rfl⟩

theorem Step.taken (h : s.Step P a s') (k : SockId) :
    s'.taken k = s.taken k +
      (s.clientAct P a).elim 0 fun b => if b.1 = k then b.2.data.length else 0 := by
  obtain ⟨-, h⟩ := h
  cases a with
  | connect =>
    obtain ⟨v, hv, h⟩ := bind_eq_ok h
    obtain ⟨c, hc, h⟩ := bind_eq_ok h
    cases h
    simp [clientAct, Client.Act.data]
  | fgets t | send t =>
    obtain ⟨c, hc, h⟩ := bind_eq_ok h
    cases h
    simp [clientAct, Client.Act.data]
  | deliver t n | server b =>
    obtain ⟨v, hv, h⟩ := bind_eq_ok h
    cases h
    rfl
  | recv t r =>
    obtain ⟨c, hc, h⟩ := bind_eq_ok h
    cases h
    by_cases hk : k = t
    · subst hk
      simp [clientAct, Client.Act.data]
    · simp [clientAct, update_of_ne hk, Ne.symm hk]
  | sigpipe t =>
    cases h
    rfl

/-- A step as one client sees it. -/
theorem Step.at (h : s.Step P a s') (k : SockId) :
    (s'.client k = s.client k ∧ s'.taken k = s.taken k) ∨
    ∃ b, s.clientAct P a = some (k, b) ∧ (s.client k).Step b (s'.client k) ∧
      s'.taken k = s.taken k + b.data.length := by
  have htaken := h.taken k
  rcases h.client with ⟨hnone, he⟩ | ⟨⟨t, b⟩, hb, hstep, hother⟩
  · rw [hnone] at htaken
    exact .inl ⟨congrFun he k, htaken⟩
  · rw [hb] at htaken
    by_cases hk : k = t
    · subst hk
      simp only [Option.elim_some, if_true] at htaken
      exact .inr ⟨b, hb, hstep, htaken⟩
    · simp only [Option.elim_some, if_neg (Ne.symm hk)] at htaken
      exact .inl ⟨hother k hk, htaken⟩

/-- A client is ended on a connection that the server has closed. -/
theorem Step.ended (h : s.Step P a s') {k : SockId} (hk : s'.ended k = true) :
    s.ended k = true ∨ (s.sock P k).closed = true := by
  obtain ⟨hl, h⟩ := h
  cases a with
  | sigpipe t =>
    cases h
    by_cases hkt : k = t
    · subst hkt
      exact .inr hl.2.1
    · exact .inl ((update_of_ne hkt ..).symm.trans hk)
  | connect =>
    obtain ⟨v, hv, h⟩ := bind_eq_ok h
    obtain ⟨c, hc, h⟩ := bind_eq_ok h
    cases h
    exact .inl hk
  | fgets | send | deliver | server | recv =>
    obtain ⟨c, hc, h⟩ := bind_eq_ok h
    cases h
    exact .inl hk

theorem Legal.hears {k : SockId} {r : RecvResult} (hl : s.Legal P a)
    (ha : s.clientAct P a = some (k, .recv r)) : s.Hears P k r := by
  cases a with
  | recv t r' =>
    cases ha
    exact hl.2.1
  | connect | fgets | send | deliver | server | sigpipe => cases ha

theorem Orderly.hands {k : SockId} {r : RecvResult} (ho : s.Orderly P a)
    (ha : s.clientAct P a = some (k, .recv r)) : (s.sock P k).Hands (s.taken k) r := by
  cases a with
  | recv t r' =>
    cases ha
    exact ho
  | connect | fgets | send | deliver | server | sigpipe => cases ha

/-- Where neither the server nor the client can go wrong, the system cannot. -/
theorem step_ok (hserver : ∀ b, P.Legal s.server b → ∃ v, P.step s.server b = .ok v)
    (hclient : ∀ k b, s.clientAct P a = some (k, b) → (s.client k).Legal b →
      ∃ c, (s.client k).step b = .ok c) (hl : s.Legal P a) : ∃ s', s.step P a = .ok s' := by
  cases a with
  | connect =>
    obtain ⟨v, hv⟩ := hserver _ hl.1
    obtain ⟨c, hc⟩ := hclient _ _ rfl hl.2
    simp only [step, hv, hc, bind, Except.bind]
    exact ⟨_, rfl⟩
  | fgets k =>
    obtain ⟨c, hc⟩ := hclient _ _ rfl hl.1
    simp only [step, hc, bind, Except.bind]
    exact ⟨_, rfl⟩
  | send k =>
    obtain ⟨c, hc⟩ := hclient _ _ rfl hl.1
    obtain ⟨p, hp, -⟩ := bind_eq_ok hc
    simp only [step, hp, bind, Except.bind]
    exact ⟨_, rfl⟩
  | deliver k n =>
    obtain ⟨v, hv⟩ := hserver _ hl.2.2
    simp only [step, hv, bind, Except.bind]
    exact ⟨_, rfl⟩
  | server b =>
    obtain ⟨v, hv⟩ := hserver _ hl.1
    simp only [step, hv, bind, Except.bind]
    exact ⟨_, rfl⟩
  | recv k r =>
    obtain ⟨c, hc⟩ := hclient _ _ rfl hl.1
    simp only [step, hc, bind, Except.bind]
    exact ⟨_, rfl⟩
  | sigpipe k => exact ⟨_, rfl⟩

/-! ## The wires -/

/-- Nothing that a client sends is lost before it arrives. -/
def Carried (P : Program σ α) (s : Network σ) : Prop :=
  ∀ k, (s.sock P k).sent ++ s.wire k = (s.client k).sent.flatten

/-- A step that neither sends nor delivers. -/
theorem Carried.of_sent {k : SockId} (h : s.Carried P)
    (hsock : (s'.sock P k).sent = (s.sock P k).sent) (hwire : s'.wire k = s.wire k)
    (hclient : (s'.client k).sent = (s.client k).sent) :
    (s'.sock P k).sent ++ s'.wire k = (s'.client k).sent.flatten := by
  rw [hsock, hwire, hclient]
  exact h k

/-- A client that has sent nothing more. -/
theorem sent_update {f : SockId → Client} {t k : SockId} {c : Client} (h : c.sent = (f t).sent) :
    (update f t c k).sent = (f k).sent := by
  by_cases hk : k = t
  · subst hk
    rw [update_self, h]
  · rw [update_of_ne hk]

theorem Step.carried (hr : P.Reached s.server) (h : s.Carried P) (hst : s.Step P a s') :
    s'.Carried P := by
  obtain ⟨hl, hst⟩ := hst
  intro k
  cases a with
  | connect =>
    obtain ⟨v, hv, hst⟩ := bind_eq_ok hst
    obtain ⟨c, hc, hst⟩ := bind_eq_ok hst
    cases hc
    cases hst
    have hsock : (P.kernel v).socks k = (P.kernel s.server).socks k := by
      rw [(P.connected hr hl.1 hv).2]
      rfl
    exact h.of_sent (congrArg Sock.sent hsock) rfl (sent_update rfl)
  | fgets t =>
    obtain ⟨c, hc, hst⟩ := bind_eq_ok hst
    cases hc
    cases hst
    exact h.of_sent rfl rfl (sent_update Client.fgets_sent)
  | send t =>
    obtain ⟨⟨bs, c⟩, hc, hst⟩ := bind_eq_ok hst
    cases hst
    by_cases hk : k = t
    · subst hk
      unfold Client.send at hc
      split at hc <;> cases hc
      simp only [update_self, List.flatten_append, List.flatten_singleton, ← h k,
        List.append_assoc]
      rfl
    · refine h.of_sent rfl ?_ ?_
      · exact update_of_ne hk ..
      · exact congrArg Client.sent (update_of_ne hk ..)
  | deliver t n =>
    obtain ⟨v, hv, hst⟩ := bind_eq_ok hst
    cases hst
    have hkernel := (P.arrived hr hl.2.2 hv).2
    by_cases hk : k = t
    · subst hk
      have hsock : (P.kernel v).socks k =
          { s.sock P k with sent := (s.sock P k).sent ++ (s.wire k).take n } := by
        rw [hkernel]
        exact update_self ..
      simp only [sock, hsock, update_self, List.append_assoc, List.take_append_drop]
      exact h k
    · have hsock : (P.kernel v).socks k = s.sock P k := by
        rw [hkernel]
        exact update_of_ne hk ..
      exact h.of_sent (congrArg Sock.sent hsock) (update_of_ne hk ..) rfl
  | server b =>
    obtain ⟨v, hv, hst⟩ := bind_eq_ok hst
    cases hst
    exact h.of_sent ((P.ran hr hl.2 hl.1 hv).2 k) rfl rfl
  | recv t r =>
    obtain ⟨c, hc, hst⟩ := bind_eq_ok hst
    cases hst
    obtain ⟨p, -, hc⟩ := bind_eq_ok hc
    cases hc
    exact h.of_sent rfl rfl (sent_update rfl)
  | sigpipe t =>
    cases hst
    exact h.of_sent rfl rfl rfl

/-- A server that has accepted nothing yet has received nothing. -/
theorem carried_start {server : σ} {stdin : SockId → List Byte}
    {buffer : SockId → Buf Client.BUFFER_LENGTH} (h : ∀ k, ((P.kernel server).socks k).sent = []) :
    (start server stdin buffer).Carried P := by
  intro k
  exact congrArg (· ++ []) (h k)

end
end Network
end OnlineChat

import OnlineChat.Lib.Except
import OnlineChat.Kernel

/-!
# The receive loops

`recvCallback` in `src/Server.cpp` and the main loops of `apps/server.cpp` and `apps/client.cpp`
contain the same loop over buffers of different sizes:
```
while(true) {
    recv_bytes = recv(fd, buffer + len, SIZE - len, 0);
    if(recv_bytes == 0 || (recv_bytes < 0 && (errno == EAGAIN || errno == EWOULDBLOCK))) break;
    len += recv_bytes;
}
```
`RecvBuf n` is the buffer with its length, `RecvBuf.pass` one pass through the body.
-/

namespace OnlineChat
open Lib

/-- What C++ leaves undefined: a program that gets here has no behaviour to speak of. -/
inductive Fault
  | nullPointer
  | danglingPointer
  | doubleFree
  | emptyFunction
  | outOfBounds
  deriving DecidableEq

/-- A receive buffer with the length gathered so far, an `int`. -/
structure RecvBuf (n : Nat) where
  buf : Buf n
  len : Int
  deriving DecidableEq

/-- The condition of the `break`. -/
def RecvResult.stops (r : RecvResult) : Bool :=
  r.ret == 0 || decide (r.ret < 0) && (r.errno == some .EAGAIN || r.errno == some .EWOULDBLOCK)

/-- What `recv` may return when `len` bytes are asked for: some of them, the end of the stream or
any error. -/
def RecvResult.Fits (len : Nat) : RecvResult → Prop
  | .bytes bs => bs ≠ [] ∧ bs.length ≤ len
  | .eof | .fail _ => True

instance (len : Nat) : DecidablePred (RecvResult.Fits len)
  | .bytes _ => inferInstanceAs (Decidable (_ ∧ _))
  | .eof | .fail _ => .isTrue trivial

/-- The kernel stays within the request. -/
theorem Kernel.CanRecv.fits {k : Kernel} {fd : Fd} {len : Nat} {r : RecvResult}
    (h : k.CanRecv fd len r) : r.Fits len := by
  cases r with
  | bytes bs => exact ⟨h.1, h.2.1⟩
  | eof | fail => trivial

theorem RecvResult.Fits.ne_nil {len : Nat} {r : RecvResult} (h : r.Fits len) : r ≠ .bytes [] := by
  intro hr
  subst hr
  exact h.1 rfl

/-- Data, the end of the stream, or that nothing is there yet. -/
def RecvResult.Clean : RecvResult → Prop
  | .fail e => e = .EAGAIN ∨ e = .EWOULDBLOCK
  | .bytes _ | .eof => True

instance : DecidablePred RecvResult.Clean
  | .fail _ => inferInstanceAs (Decidable (_ ∨ _))
  | .bytes _ | .eof => .isTrue trivial

theorem stops_bytes {bs : List Byte} (h : bs ≠ []) : (RecvResult.bytes bs).stops = false := by
  simp [RecvResult.stops, RecvResult.ret, RecvResult.errno, h]

theorem stops_fail {e : Errno} :
    (RecvResult.fail e).stops = true ↔ e = .EAGAIN ∨ e = .EWOULDBLOCK := by
  simp [RecvResult.stops, RecvResult.ret, RecvResult.errno]

theorem clean_of_stops {r : RecvResult} (h : r.stops = true) : r.Clean := by
  cases r with
  | bytes | eof => trivial
  | fail e => exact stops_fail.mp h

namespace RecvBuf
variable {n : Nat}

/-- The third argument of `recv`, `SIZE - len` converted to `size_t`. -/
def request (s : RecvBuf n) : Nat := toSizeT (n - s.len)

/-- The kernel stores the received bytes at `buffer + len`. When errors that are not tested for have
taken `len` below 0, that is in front of the buffer. -/
def fill (s : RecvBuf n) : RecvResult → Except Fault (RecvBuf n)
  | .bytes bs =>
    match s.buf.store? s.len bs with
    | some b => .ok { s with buf := b }
    | none => .error .outOfBounds
  | _ => .ok s

/-- One pass through the loop body, with `true` when it breaks out of the loop. -/
def pass (s : RecvBuf n) (r : RecvResult) : Except Fault (Bool × RecvBuf n) := do
  let s ← s.fill r
  if r.stops then pure (true, s) else pure (false, { s with len := s.len + r.ret })

/-- The buffer holds `bs` and the length counts it. -/
def Holds (s : RecvBuf n) (bs : List Byte) : Prop := s.buf.Holds bs ∧ s.len = bs.length

/-- Storing the next bytes at the end of what is held. -/
theorem Holds.store {s : RecvBuf n} {bs cs : List Byte} {b : Buf n} (h : s.Holds bs)
    (hst : s.buf.store? s.len cs = some b) :
    (⟨b, s.len + cs.length⟩ : RecvBuf n).Holds (bs ++ cs) := by
  obtain ⟨hb, hl⟩ := h
  rw [hl] at hst
  unfold Buf.store? at hst
  split at hst
  next hle =>
    cases hst
    exact ⟨hb.store hle.2, by rw [hl, List.length_append]; exact (Int.natCast_add ..).symm⟩
  · cases hst

/-- The buffer begins with `bs` and the length counts it. -/
def Gathers (s : RecvBuf n) (bs : List Byte) : Prop := s.len = bs.length ∧ bs <+: s.buf.bytes

theorem Holds.gathers {s : RecvBuf n} {bs : List Byte} (h : s.Holds bs) : s.Gathers bs := by
  obtain ⟨hb, hl⟩ := h
  refine ⟨hl, ?_⟩
  rw [show s.buf.bytes = _ from hb]
  exact List.prefix_append ..

theorem Gathers.length_le {s : RecvBuf n} {bs : List Byte} (h : s.Gathers bs) : bs.length ≤ n :=
  h.2.length_le.trans_eq s.buf.size

theorem Gathers.store {s : RecvBuf n} {bs cs : List Byte} {b : Buf n} (h : s.Gathers bs)
    (hst : s.buf.store? s.len cs = some b) :
    (⟨b, s.len + cs.length⟩ : RecvBuf n).Gathers (bs ++ cs) := by
  obtain ⟨hl, hb⟩ := h
  rw [hl] at hst
  unfold Buf.store? at hst
  split at hst
  next hle =>
    cases hst
    refine ⟨by rw [hl, List.length_append]; exact (Int.natCast_add ..).symm, ?_⟩
    have hpre : s.buf.bytes.take bs.length = bs := (List.prefix_iff_eq_take.mp hb).symm
    simp only [Buf.store, Int.toNat_natCast, hpre]
    exact List.prefix_append ..
  · cases hst

theorem request_eq {s : RecvBuf n} {bs : List Byte} (h : s.Gathers bs) (hn : n < 2 ^ 64) :
    s.request = n - bs.length := by
  have := h.length_le
  rw [request, h.1, show ((n : Int) - bs.length) = ((n - bs.length : Nat) : Int) by omega]
  exact toSizeT_natCast (by omega)

/-- What fits the request can be stored. -/
theorem pass_ok {s : RecvBuf n} {bs : List Byte} {r : RecvResult} (h : s.Gathers bs)
    (hn : n < 2 ^ 64) (hr : r.Fits s.request) : ∃ p, s.pass r = .ok p := by
  cases r with
  | bytes cs =>
    have hle : bs.length + cs.length ≤ n := by
      have := h.length_le
      have := hr.2
      rw [request_eq h hn] at this
      omega
    have hst := @Buf.store?_of_le _ s.buf cs bs.length hle
    simp only [pass, fill, h.1, hst, stops_bytes hr.1, bind, Except.bind]
    exact ⟨_, rfl⟩
  | eof => exact ⟨_, rfl⟩
  | fail e =>
    simp only [pass, fill, bind, Except.bind]
    split <;> exact ⟨_, rfl⟩

/-- What a pass can do: break with everything as it was, store bytes and count them, or take an
error that is not tested for as a length of -1. -/
theorem pass_cases {s s' : RecvBuf n} {r : RecvResult} {stop : Bool} (hr : r ≠ .bytes [])
    (h : s.pass r = .ok (stop, s')) :
    (stop = true ∧ r.data = [] ∧ s' = s) ∨
    (∃ bs buf, r = .bytes bs ∧ stop = false ∧ s.buf.store? s.len bs = some buf ∧
      s' = ⟨buf, s.len + bs.length⟩) ∨
    (∃ e, r = .fail e ∧ e ≠ .EAGAIN ∧ e ≠ .EWOULDBLOCK ∧ stop = false ∧
      s' = { s with len := s.len - 1 }) := by
  cases r with
  | bytes bs =>
    have hbs : bs ≠ [] := fun h => hr (h ▸ rfl)
    simp only [pass, fill, stops_bytes hbs, bind, Except.bind, pure, Except.pure] at h
    split at h
    · cases h
    next heq =>
      split at heq <;> cases heq
      rename_i hst
      cases h
      exact .inr (.inl ⟨bs, _, rfl, rfl, hst, rfl⟩)
  | eof =>
    cases h
    exact .inl ⟨rfl, rfl, rfl⟩
  | fail e =>
    simp only [pass, fill, bind, Except.bind, pure, Except.pure] at h
    split at h
    · cases h
      exact .inl ⟨rfl, rfl, rfl⟩
    next hst =>
      cases h
      rw [stops_fail] at hst
      refine .inr (.inr ⟨e, rfl, fun he => hst (.inl he), fun he => hst (.inr he), rfl, rfl⟩)

/-- The pass that breaks leaves everything as it was. -/
theorem pass_true {s s' : RecvBuf n} {r : RecvResult} (hr : r ≠ .bytes [])
    (h : s.pass r = .ok (true, s')) : r.data = [] ∧ s' = s := by
  rcases pass_cases hr h with ⟨-, hd, he⟩ | ⟨_, _, -, h0, -⟩ | ⟨_, -, -, -, h0, -⟩
  · exact ⟨hd, he⟩
  · cases h0
  · cases h0

theorem pass_stops {s s' : RecvBuf n} {r : RecvResult} {stop : Bool}
    (h : s.pass r = .ok (stop, s')) : stop = r.stops := by
  obtain ⟨_, -, h⟩ := bind_eq_ok h
  cases hr : r.stops <;> rw [hr] at h <;> cases h <;> rfl

/-- A pass goes wrong only by storing outside the buffer. -/
theorem pass_error {s : RecvBuf n} {r : RecvResult} {f : Fault} (h : s.pass r = .error f) :
    f = .outOfBounds := by
  rcases bind_eq_error h with h | ⟨a, -, h⟩
  · unfold fill at h
    split at h
    · split at h <;> cases h
      rfl
    · cases h
  · split at h <;> cases h

end RecvBuf
end OnlineChat

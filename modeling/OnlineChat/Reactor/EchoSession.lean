import OnlineChat.Lib.Buf
import OnlineChat.Lib.Interleave

/-!
# One client of an echo service

What the server is for, seen from one client and without descriptors, connections or callbacks: the
client connects, sends, is read from for one turn, gets one answer and is hung up on. `Session.Step`
is that protocol for a service with room for `size` bytes; a service for many clients is the
interleaving of their sessions.
-/

namespace OnlineChat
open Lib

/-- How far the service has come with a client. -/
inductive Phase
  /-- The client has not connected yet. -/
  | unborn
  | queued
  | reading
  | answering
  | closed
  /-- The connection was taken from the queue but not accepted. -/
  | refused
  deriving DecidableEq

inductive SessionAct
  | connect
  | arrive (bs : List Byte)
  | accept
  | refuse
  | take (bs : List Byte)
  | finish
  | answer (bs : List Byte)
  deriving DecidableEq

structure Session where
  /-- The client's bytes that have arrived. -/
  sent : List Byte := []
  /-- How many of them have been taken. -/
  got : Nat := 0
  /-- The answer. -/
  written : List Byte := []
  phase : Phase := .unborn
  deriving DecidableEq

/-- An answer to `taken`: no longer than it, and the beginning of the C string in it, the NUL behind
that and anything. Where `taken` fills the room without a NUL there is no string in it, and only the
length is promised. -/
def Echoes (size : Nat) (taken out : List Byte) : Prop :=
  out.length ≤ taken.length ∧
    (taken.length < size ∨ 0 ∈ taken → ∃ past, out <+: cstr taken ++ 0 :: past)

namespace Session

/-- What has been taken from the client. -/
def taken (x : Session) : List Byte := x.sent.take x.got

inductive Step (size : Nat) (x : Session) : SessionAct → Session → Prop
  | connect : x.phase = .unborn → Step size x .connect { x with phase := .queued }
  | arrive {bs} : x.phase ≠ .unborn → Step size x (.arrive bs) { x with sent := x.sent ++ bs }
  | accept : x.phase = .queued → Step size x .accept { x with phase := .reading }
  | refuse : x.phase = .queued → Step size x .refuse { x with phase := .refused }
  | take {bs} : x.phase = .reading → bs ≠ [] → bs <+: x.sent.drop x.got →
    x.got + bs.length ≤ size → Step size x (.take bs) { x with got := x.got + bs.length }
  | finish : x.phase = .reading → Step size x .finish { x with phase := .answering }
  | answer {bs} : x.phase = .answering → Echoes size x.taken bs →
    Step size x (.answer bs) { x with written := bs, phase := .closed }

/-! ## The transcript -/

/-- The bytes that arrive in the course of `as`. -/
def arrived (as : List SessionAct) : List Byte :=
  as.flatMap fun
    | .arrive bs => bs
    | _ => []

/-- The bytes that are taken. -/
def received (as : List SessionAct) : List Byte :=
  as.flatMap fun
    | .take bs => bs
    | _ => []

/-- The answers. -/
def answers (as : List SessionAct) : List (List Byte) :=
  as.filterMap fun
    | .answer bs => some bs
    | _ => none

/-- The session and what has happened in it. -/
structure Transcript (size : Nat) (as : List SessionAct) (x : Session) : Prop where
  sent : x.sent = arrived as
  got_le : x.got ≤ x.sent.length
  taken : x.taken = received as
  room : (received as).length ≤ size
  answers : answers as = if x.phase = .closed then [x.written] else []
  echo : x.phase = .closed → Echoes size (received as) x.written

theorem Transcript.step {size : Nat} {as : List SessionAct} {x x' : Session} {a : SessionAct}
    (h : Transcript size as x) (hst : Step size x a x') : Transcript size (as ++ [a]) x' := by
  obtain ⟨hsent, hgot, htaken, hroom, hans, hecho⟩ := h
  have harr : arrived (as ++ [a]) = arrived as ++ arrived [a] := List.flatMap_append
  have hrec : received (as ++ [a]) = received as ++ received [a] := List.flatMap_append
  have happ : Session.answers (as ++ [a]) = Session.answers as ++ Session.answers [a] :=
    List.filterMap_append
  cases hst with
  | connect hp | accept hp | refuse hp | finish hp =>
    rw [hp, if_neg (by simp)] at hans
    refine ⟨?_, hgot, ?_, ?_, ?_, ?_⟩
    · rw [harr, ← hsent]
      simp [arrived]
    · rw [hrec, ← htaken]
      simp [received, Session.taken]
    · rw [hrec]
      simpa [received] using hroom
    · rw [happ, hans]
      simp [Session.answers]
    · intro hc
      cases hc
  | @arrive bs hp =>
    refine ⟨?_, ?_, ?_, ?_, ?_, ?_⟩
    · rw [harr, ← hsent]
      simp [arrived]
    · exact hgot.trans (by simp)
    · rw [hrec, ← htaken, Session.taken, List.take_append_of_le_length hgot]
      simp [received, Session.taken]
    · rw [hrec]
      simpa [received] using hroom
    · rw [happ, hans]
      simp [Session.answers]
    · rw [hrec]
      simpa [received] using hecho
  | @take bs hp hne hpre hle =>
    have hlen := hpre.length_le
    rw [List.length_drop] at hlen
    have hlt : (received as).length = x.got := by
      rw [← htaken, Session.taken, List.length_take_of_le hgot]
    refine ⟨?_, ?_, ?_, ?_, ?_, ?_⟩
    · rw [harr, ← hsent]
      simp [arrived]
    · show x.got + bs.length ≤ x.sent.length
      have := hgot
      omega
    · rw [hrec, ← htaken, Session.taken, Session.taken, List.take_add,
        ← List.prefix_iff_eq_take.mp hpre]
      simp [received]
    · rw [hrec, List.length_append, hlt]
      simpa [received] using hle
    · rw [happ, hans, hp]
      simp [Session.answers]
    · intro hc
      cases hp.symm.trans hc
  | @answer bs hp he =>
    rw [hp, if_neg (by simp)] at hans
    refine ⟨?_, hgot, ?_, ?_, ?_, ?_⟩
    · rw [harr, ← hsent]
      simp [arrived]
    · rw [hrec, ← htaken]
      simp [received, Session.taken]
    · rw [hrec]
      simpa [received] using hroom
    · rw [happ, hans]
      simp [Session.answers]
    · intro _
      rw [hrec, ← htaken]
      simpa [received] using he

/-- What has happened in a session is what it shows. -/
theorem transcript {size : Nat} {ys : List (Session × SessionAct)} {x : Session}
    (h : Exec (Step size) {} ys x) : Transcript size (ys.map Prod.snd) x := by
  induction h with
  | nil => exact ⟨rfl, Nat.le_refl _, rfl, Nat.zero_le _, rfl, fun hc => by cases hc⟩
  | snoc _ hst ih =>
    rw [List.map_append]
    exact ih.step hst

end Session
end OnlineChat

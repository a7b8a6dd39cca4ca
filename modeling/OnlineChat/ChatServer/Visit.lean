import OnlineChat.Lib.Buf
import OnlineChat.Lib.Turns

/-!
# One visitor of a desk

What the single-threaded server is for, seen from one client: the client queues, is let in, and at
its turn it is read once into the buffer of the desk, which is then printed. There is one desk with
one buffer for all clients, so a server of many clients is visits that take turns.
-/

namespace OnlineChat.ChatServer
open Lib

/-- Where a client is. -/
inductive Station
  /-- It has not connected yet. -/
  | away
  | queued
  | waiting
  /-- At the desk. -/
  | reading
  | closed
  /-- The connection was taken from the queue but not accepted. -/
  | refused
  deriving DecidableEq

/-- What happens in a visit to a desk with a buffer of `n` bytes. -/
inductive VisitAct (n : Nat)
  | connect
  | arrive (bs : List Byte)
  | accept
  | refuse
  | turn
  | take (bs : List Byte)
  | print (buffer : Buf n)
  deriving DecidableEq

structure Visit where
  /-- The client's bytes that have arrived. -/
  sent : List Byte := []
  /-- How many of them have been taken. -/
  got : Nat := 0
  station : Station := .away
  deriving DecidableEq

namespace Visit
variable {n : Nat}

def taken (x : Visit) : List Byte := x.sent.take x.got

/-- The client is at the desk. -/
def Inside (x : Visit) : Prop := x.station = .reading

inductive Step (x : Visit) : VisitAct n → Visit → Prop
  | connect : x.station = .away → Step x .connect { x with station := .queued }
  | arrive {bs} : x.station ≠ .away → Step x (.arrive bs) { x with sent := x.sent ++ bs }
  | accept : x.station = .queued → Step x .accept { x with station := .waiting }
  | refuse : x.station = .queued → Step x .refuse { x with station := .refused }
  | turn : x.station = .waiting → Step x .turn { x with station := .reading }
  | take {bs} : x.station = .reading → bs ≠ [] → bs <+: x.sent.drop x.got →
    x.got + bs.length ≤ n → Step x (.take bs) { x with got := x.got + bs.length }
  | print {b : Buf n} : x.station = .reading → b.Holds x.taken →
    Step x (.print b) { x with station := .closed }

/-! ## One visit after the other -/

/-- The uses of the buffer. -/
def AtDesk : VisitAct n → Prop
  | .take _ | .print _ => True
  | _ => False

section
variable {x : Visit} {a : VisitAct n} {y : Visit}

theorem Step.inside (h : Step x a y) (ha : AtDesk a) : x.Inside := by
  cases h with
  | take hx | print hx => exact hx
  | _ => cases ha

/-- A client leaves the desk for good. -/
theorem Step.leave (h : Step x a y) (hx : x.Inside) : y.Inside ∨ y.station = .closed := by
  cases h with
  | arrive | take => exact .inl hx
  | print => exact .inr rfl
  | connect h | accept h | refuse h | turn h => cases h.symm.trans hx

theorem Step.gone (h : Step x a y) (hx : x.station = .closed) :
    y.station = .closed ∧ ¬ x.Inside := by
  refine ⟨?_, fun hin => by cases hx.symm.trans hin⟩
  cases h with
  | arrive => exact hx
  | connect h | accept h | refuse h | turn h | take h | print h => cases h.symm.trans hx

/-- No client is read while another is. -/
theorem unmixed {ι : Type*} {f g : ι → Visit} {ys : List ((ι → Visit) × ι × VisitAct n)}
    (h : Exec (Turns Step Inside) f ys g) (hf : ∀ i, (f i).station = .away) :
    Unmixed AtDesk (ys.map Prod.snd) := by
  apply Turns.unmixed (@Step.inside n) (@Step.leave n) (@Step.gone n) h
  intro i hin
  cases (hf i).symm.trans hin

end

/-! ## The transcript -/

/-- The bytes that arrive in the course of `as`. -/
def arrived (as : List (VisitAct n)) : List Byte :=
  as.flatMap fun
    | .arrive bs => bs
    | _ => []

/-- The bytes that are taken. -/
def received (as : List (VisitAct n)) : List Byte :=
  as.flatMap fun
    | .take bs => bs
    | _ => []

/-- The buffers that are printed. -/
def printed (as : List (VisitAct n)) : List (Buf n) :=
  as.filterMap fun
    | .print b => some b
    | _ => none

/-- The visit and what has happened in it. -/
structure Transcript (as : List (VisitAct n)) (x : Visit) : Prop where
  sent : x.sent = arrived as
  got_le : x.got ≤ x.sent.length
  taken : x.taken = received as
  room : (received as).length ≤ n
  silent : x.station ≠ .closed → printed as = []
  once : x.station = .closed → ∃ b, printed as = [b] ∧ b.Holds (received as)

theorem Transcript.step {as : List (VisitAct n)} {x y : Visit} {a : VisitAct n}
    (h : Transcript as x) (hst : Step x a y) : Transcript (as ++ [a]) y := by
  obtain ⟨hsent, hgot, htaken, hroom, hsilent, honce⟩ := h
  have harr : arrived (as ++ [a]) = arrived as ++ arrived [a] := List.flatMap_append
  have hrec : received (as ++ [a]) = received as ++ received [a] := List.flatMap_append
  have hpri : printed (as ++ [a]) = printed as ++ printed [a] := List.filterMap_append
  cases hst with
  | connect hx | accept hx | refuse hx | turn hx =>
    have hnone := hsilent (by simp [hx])
    refine ⟨?_, hgot, ?_, ?_, ?_, ?_⟩
    · rw [harr, ← hsent]
      simp [arrived]
    · rw [hrec, ← htaken]
      simp [received, Visit.taken]
    · rw [hrec]
      simpa [received] using hroom
    · rw [hpri, hnone]
      simp [printed]
    · intro hc
      cases hc
  | @arrive bs hx =>
    refine ⟨?_, ?_, ?_, ?_, ?_, ?_⟩
    · rw [harr, ← hsent]
      simp [arrived]
    · exact hgot.trans (by simp)
    · rw [hrec, ← htaken, Visit.taken, List.take_append_of_le_length hgot]
      simp [received, Visit.taken]
    · rw [hrec]
      simpa [received] using hroom
    · rw [hpri]
      simpa [printed] using hsilent
    · rw [hpri, hrec]
      simpa [printed, received] using honce
  | @take bs hx hne hpre hle =>
    have hlen := hpre.length_le
    rw [List.length_drop] at hlen
    have hlt : (received as).length = x.got := by
      rw [← htaken, Visit.taken, List.length_take_of_le hgot]
    have hnone := hsilent (by simp [hx])
    refine ⟨?_, ?_, ?_, ?_, ?_, ?_⟩
    · rw [harr, ← hsent]
      simp [arrived]
    · show x.got + bs.length ≤ x.sent.length
      have := hgot
      omega
    · rw [hrec, ← htaken, Visit.taken, Visit.taken, List.take_add,
        ← List.prefix_iff_eq_take.mp hpre]
      simp [received]
    · rw [hrec, List.length_append, hlt]
      simpa [received] using hle
    · rw [hpri, hnone]
      simp [printed]
    · intro hc
      cases hx.symm.trans hc
  | @print b hx hb =>
    have hnone := hsilent (by simp [hx])
    have hsame : received (as ++ [.print b]) = received as := by simp [received]
    refine ⟨?_, hgot, ?_, ?_, ?_, ?_⟩
    · rw [harr, ← hsent]
      simp [arrived]
    · rw [hsame]
      exact htaken
    · rw [hsame]
      exact hroom
    · intro hc
      exact absurd rfl hc
    · intro _
      rw [hpri, hnone, hsame, ← htaken]
      exact ⟨b, rfl, hb⟩

/-- What has happened in a visit is what it shows. -/
theorem transcript {ys : List (Visit × VisitAct n)} {x : Visit} (h : Exec Step {} ys x) :
    Transcript (ys.map Prod.snd) x := by
  induction h with
  | nil => exact ⟨rfl, Nat.le_refl _, rfl, Nat.zero_le _, fun _ => rfl, fun hc => by cases hc⟩
  | snoc _ hst ih =>
    rw [List.map_append]
    exact ih.step hst

end Visit
end OnlineChat.ChatServer

import Mathlib.Data.List.TakeWhile

/-!
# Byte buffers of a fixed size

`Buf n` is a C array `char buf[n]`: the size is part of the value. A copy into it goes through
`store`, which asks for the proof that the window lies inside, or through `store?`, which answers
`none` where the C program would write outside the array. `Holds b s` says that `b` is `s`
followed by zeros, the state a cleared buffer is in once `s` has been gathered into it.
-/

namespace Lib

abbrev Byte := UInt8

/-- The bytes before the first NUL: what a C string function sees. -/
def cstr (bs : List Byte) : List Byte := bs.takeWhile (· != 0)

theorem cstr_isPrefix (bs : List Byte) : cstr bs <+: bs := List.takeWhile_prefix _

theorem zero_notMem_cstr (bs : List Byte) : (0 : Byte) ∉ cstr bs := by
  intro h
  simpa using List.mem_takeWhile_imp h

theorem cstr_append_zero {s : List Byte} (hs : (0 : Byte) ∉ s) (t : List Byte) :
    cstr (s ++ 0 :: t) = s := by
  induction s with
  | nil => simp [cstr]
  | cons b s ih =>
    have hb : b ≠ 0 := fun h => hs (by simp [h])
    have := ih fun h => hs (List.mem_cons_of_mem _ h)
    simpa [cstr, hb] using this

theorem cstr_of_notMem {s : List Byte} (hs : (0 : Byte) ∉ s) : cstr s = s := by
  rw [cstr, List.takeWhile_eq_self_iff]
  intro b hb
  simpa using fun h : b = 0 => hs (h ▸ hb)

theorem cstr_append_of_mem {s : List Byte} (hs : (0 : Byte) ∈ s) (t : List Byte) :
    cstr (s ++ t) = cstr s := by
  induction s with
  | nil => simp at hs
  | cons b s ih =>
    by_cases hb : b = 0
    · simp [cstr, hb]
    · have := ih (by simpa [Ne.symm hb] using hs)
      simpa [cstr, hb] using this

theorem length_cstr_lt {s : List Byte} (hs : (0 : Byte) ∈ s) : (cstr s).length < s.length := by
  rcases (cstr_isPrefix s).length_le.lt_or_eq with h | h
  · exact h
  · have he := (cstr_isPrefix s).eq_of_length h
    exact absurd (he.symm ▸ hs) (zero_notMem_cstr s)

/-- A string that ends early ends at a NUL. -/
theorem getElem?_length_cstr {s : List Byte} (h : (cstr s).length < s.length) :
    s[(cstr s).length]? = some 0 := by
  induction s with
  | nil => simp at h
  | cons b s ih =>
    by_cases hb : b = 0
    · simp [cstr, hb]
    · have hlt : (cstr s).length < s.length := by simpa [cstr, hb] using h
      simpa [cstr, hb] using ih hlt

/-- There is a NUL before the last byte exactly if the string ends before it. -/
theorem zero_mem_dropLast {s : List Byte} :
    (0 : Byte) ∈ s.dropLast ↔ (cstr s).length + 1 < s.length := by
  constructor
  · intro h
    have hlt := length_cstr_lt h
    have hcstr : cstr s = cstr s.dropLast := by
      obtain ⟨t, ht⟩ := s.dropLast_prefix
      conv => lhs; rw [← ht]
      exact cstr_append_of_mem h t
    rw [hcstr]
    rw [List.length_dropLast] at hlt
    omega
  · intro h
    have hz := getElem?_length_cstr (Nat.lt_of_succ_lt h)
    refine List.mem_of_getElem? (i := (cstr s).length) ?_
    rw [List.getElem?_dropLast, if_pos (Nat.lt_sub_of_add_lt h), hz]

/-- A C array of `n` bytes. -/
structure Buf (n : Nat) where
  bytes : List Byte
  size : bytes.length = n
  deriving DecidableEq

namespace Buf
variable {n : Nat} {b : Buf n} {s bs : List Byte}

@[ext] theorem ext {b c : Buf n} (h : b.bytes = c.bytes) : b = c := by
  cases b; cases c; cases h; rfl

/-- `memset(buf, 0, n)`. -/
def zero (n : Nat) : Buf n := ⟨List.replicate n 0, List.length_replicate ..⟩

/-- Copy `bs` to `buf + off`. -/
def store (b : Buf n) (off : Nat) (bs : List Byte) (h : off + bs.length ≤ n) : Buf n where
  bytes := b.bytes.take off ++ bs ++ b.bytes.drop (off + bs.length)
  size := by simp only [List.length_append, List.length_take, List.length_drop, b.size]; omega

/-- Copy `bs` to `buf + off` for a signed `off`; `none` when part of it falls outside the array. -/
def store? (b : Buf n) (off : Int) (bs : List Byte) : Option (Buf n) :=
  if h : 0 ≤ off ∧ off.toNat + bs.length ≤ n then some (b.store off.toNat bs h.2) else none

theorem store?_of_le {off : Nat} (h : off + bs.length ≤ n) :
    b.store? off bs = some (b.store off bs h) := by
  simp [store?, h]

/-- The buffer is `s` followed by zeros. -/
def Holds (b : Buf n) (s : List Byte) : Prop := b.bytes = s ++ List.replicate (n - s.length) 0

instance : Decidable (b.Holds s) := inferInstanceAs (Decidable (_ = _))

theorem zero_holds : (zero n).Holds [] := by simp [Holds, zero]

theorem Holds.length_le (h : b.Holds s) : s.length ≤ n := by
  have := congrArg List.length h
  simp only [b.size, List.length_append, List.length_replicate] at this
  omega

/-- No two buffers hold the same. -/
theorem Holds.unique {b' : Buf n} (h : b.Holds s) (h' : b'.Holds s) : b = b' :=
  Buf.ext (h.trans h'.symm)

/-- Storing over what is held, from a place in it or right behind it. -/
theorem Holds.store_at {off : Nat} (h : b.Holds s) (hoff : off ≤ s.length)
    (hle : off + bs.length ≤ n) :
    (b.store off bs hle).Holds (s.take off ++ bs ++ s.drop (off + bs.length)) := by
  have ht : b.bytes.take off = s.take off := by
    rw [show b.bytes = _ from h, List.take_append_of_le_length hoff]
  have hd : b.bytes.drop (off + bs.length) = s.drop (off + bs.length) ++
      List.replicate (n - (s.take off ++ bs ++ s.drop (off + bs.length)).length) 0 := by
    rw [show b.bytes = _ from h, List.drop_append, List.drop_replicate]
    simp only [List.length_append, List.length_take_of_le hoff, List.length_drop]
    congr 2
    omega
  simp only [Holds, Buf.store, ht, hd, List.append_assoc]

theorem Holds.store?_at {off : Int} {b' : Buf n} (h : b.Holds s) (hoff : off ≤ s.length)
    (hst : b.store? off bs = some b') :
    b'.Holds (s.take off.toNat ++ bs ++ s.drop (off.toNat + bs.length)) := by
  unfold store? at hst
  split at hst
  next hroom =>
    cases hst
    exact h.store_at (by omega) hroom.2
  · cases hst

/-- Appending at the end of what is held. -/
theorem Holds.store (h : b.Holds s) (hle : s.length + bs.length ≤ n) :
    (b.store s.length bs hle).Holds (s ++ bs) := by
  have hstore := h.store_at (Nat.le_refl _) hle
  rwa [List.take_length, List.drop_eq_nil_of_le (Nat.le_add_right ..), List.append_nil] at hstore

theorem Holds.cstr_eq (h : b.Holds s) (hz : (0 : Byte) ∉ s) : cstr b.bytes = s := by
  rw [show b.bytes = _ from h]
  cases n - s.length with
  | zero => simpa using cstr_of_notMem hz
  | succ k => exact cstr_append_zero hz _

theorem Holds.cstr_bytes (h : b.Holds s) : cstr b.bytes = cstr s := by
  by_cases hz : (0 : Byte) ∈ s
  · rw [show b.bytes = _ from h, cstr_append_of_mem hz]
  · rw [h.cstr_eq hz, cstr_of_notMem hz]

/-- A buffer holds one NUL-free string at most. -/
theorem Holds.inj {t : List Byte} (hs : b.Holds s) (ht : b.Holds t) (hz : (0 : Byte) ∉ s)
    (hz' : (0 : Byte) ∉ t) : s = t := (hs.cstr_eq hz).symm.trans (ht.cstr_eq hz')

/-! ## Strings in a buffer -/

/-- The buffer holds the C string `s`, with its terminator. -/
def Str (b : Buf n) (s : List Byte) : Prop := (0 : Byte) ∈ b.bytes ∧ cstr b.bytes = s

instance : Decidable (b.Str s) := inferInstanceAs (Decidable (_ ∧ _))

theorem Str.inj {t : List Byte} (hs : b.Str s) (ht : b.Str t) : s = t := hs.2.symm.trans ht.2

/-- `strcat(buf, s)`; `none` when there is no string in the array or no room behind it. -/
def strcat? (b : Buf n) (s : List Byte) : Option (Buf n) :=
  if 0 ∈ b.bytes then b.store? (cstr b.bytes).length (s ++ [0]) else none

theorem Str.strcat {t : List Byte} (h : b.Str s) (hz : (0 : Byte) ∉ t)
    (hn : s.length + t.length < n) : ∃ b', b.strcat? t = some b' ∧ b'.Str (s ++ t) := by
  obtain ⟨hmem, rfl⟩ := h
  have hle : (cstr b.bytes).length + (t ++ [0]).length ≤ n := by
    rw [List.length_append, List.length_singleton]
    exact hn
  have hpre : b.bytes.take (cstr b.bytes).length = cstr b.bytes :=
    (List.prefix_iff_eq_take.mp (cstr_isPrefix _)).symm
  refine ⟨b.store _ (t ++ [0]) hle, ?_, ?_⟩
  · rw [strcat?, if_pos hmem, store?_of_le hle]
  · have hz' : (0 : Byte) ∉ cstr b.bytes ++ t := by
      rw [List.mem_append, not_or]
      exact ⟨zero_notMem_cstr _, hz⟩
    have hbytes : (b.store (cstr b.bytes).length (t ++ [0]) hle).bytes =
        (cstr b.bytes ++ t) ++ 0 :: b.bytes.drop ((cstr b.bytes).length + (t ++ [0]).length) := by
      simp [Buf.store, hpre]
    rw [Str, hbytes]
    exact ⟨by simp, cstr_append_zero hz' _⟩

/-- `strcat` appends, when it does not run out of the array. -/
theorem strcat?_eq_some {b' : Buf n} (h : b.strcat? s = some b') (hz : (0 : Byte) ∉ s) :
    b.Str (cstr b.bytes) ∧ b'.Str (cstr b.bytes ++ s) := by
  unfold strcat? at h
  split at h
  next hmem =>
    have hstr : b.Str (cstr b.bytes) := ⟨hmem, rfl⟩
    have hn : (cstr b.bytes).length + s.length < n := by
      by_contra hn
      rw [store?, dif_neg (by simp; omega)] at h
      cases h
    obtain ⟨b'', he, hstr'⟩ := hstr.strcat hz hn
    rw [strcat?, if_pos hmem, h] at he
    cases he
    exact ⟨hstr, hstr'⟩
  · cases h

/-- A buffer that is not full ends in a terminator of its own. -/
theorem Holds.zero_mem (h : b.Holds s) (hlt : s.length < n) : (0 : Byte) ∈ b.bytes := by
  rw [show b.bytes = _ from h]
  simp; omega

theorem Holds.zero_mem_iff (h : b.Holds s) : (0 : Byte) ∈ b.bytes ↔ s.length < n ∨ 0 ∈ s := by
  refine ⟨fun hmem => ?_, fun hs => hs.elim h.zero_mem fun hs => ?_⟩
  · rw [show b.bytes = _ from h, List.mem_append] at hmem
    refine hmem.symm.imp_left fun hrep => ?_
    have hpos := (List.mem_replicate.mp hrep).1
    omega
  · rw [show b.bytes = _ from h]
    exact List.mem_append_left _ hs

theorem Holds.zero_notMem_iff (h : b.Holds s) : (0 : Byte) ∉ b.bytes ↔ s.length = n ∧ 0 ∉ s := by
  have hle := h.length_le
  rw [h.zero_mem_iff, not_or]
  refine and_congr_left fun _ => ?_
  omega

end Buf

/-- Lay `ys` over the beginning of `xs`, dropping what does not fit. -/
def overlay (xs ys : List Byte) : List Byte := ys.take xs.length ++ xs.drop ys.length

theorem length_overlay (xs ys : List Byte) : (overlay xs ys).length = xs.length := by
  simp only [overlay, List.length_append, List.length_take, List.length_drop]; omega

theorem overlay_isPrefix {xs ys : List Byte} (h : ys.length ≤ xs.length) : ys <+: overlay xs ys := by
  rw [overlay, List.take_of_length_le h]
  exact List.prefix_append ..

/-- The first `s.length` bytes after the string at the beginning of `s` is copied over `xs`. -/
theorem getElem?_overlay_cstr {xs s : List Byte} (hs : s.length < xs.length) {i : Nat}
    (hi : i < s.length) : ((overlay xs (cstr s ++ [0])).take s.length)[i]? =
      if (cstr s).length < i then xs[i]? else s[i]? := by
  have hle := (cstr_isPrefix s).length_le
  have hlen : (cstr s ++ [0]).length ≤ xs.length := by
    rw [List.length_append, List.length_singleton]
    omega
  rw [List.getElem?_take_of_lt hi, overlay, List.take_of_length_le hlen]
  split
  next hlt =>
    have hge : (cstr s ++ [0]).length ≤ i := by
      rw [List.length_append, List.length_singleton]
      exact hlt
    rw [List.getElem?_append_right hge, List.getElem?_drop, Nat.add_sub_cancel' hge]
  next hge =>
    rcases Nat.lt_or_eq_of_le (Nat.le_of_not_lt hge) with hlt | rfl
    · obtain ⟨t, ht⟩ := cstr_isPrefix s
      have hs : s[i]? = (cstr s)[i]? := by
        conv => lhs; rw [← ht]
        exact List.getElem?_append_left hlt
      rw [List.append_assoc, List.getElem?_append_left hlt, hs]
    · rw [List.append_assoc, List.getElem?_append_right (Nat.le_refl _), Nat.sub_self,
        getElem?_length_cstr hi]
      rfl

end Lib

import Dnsd.Rust.Exec

/-! Byte strings at a position of a longer buffer. The relation survives
appending to the buffer, which is what makes a writer and a later reader meet. -/

namespace Bytes

universe u
variable {ε : Type u}

/-- The bytes `bs` stand in `buf` from offset `off` on. -/
def At (buf : Bytes) (off : Nat) (bs : Bytes) : Prop :=
  ∃ before after, buf = before ++ bs ++ after ∧ before.length = off

namespace At

variable {buf bs bs' : Bytes} {off : Nat} {b : UInt8}

theorem here (before bs after : Bytes) : At (before ++ bs ++ after) before.length bs :=
  ⟨before, after, rfl, rfl⟩

theorem self (bs : Bytes) : At bs 0 bs := ⟨[], [], by simp, rfl⟩

theorem grow (h : At buf off bs) (more : Bytes) : At (buf ++ more) off bs := by
  obtain ⟨before, after, rfl, rfl⟩ := h
  exact ⟨before, after ++ more, by simp, rfl⟩

theorem length_le (h : At buf off bs) : off + bs.length ≤ buf.length := by
  obtain ⟨before, after, rfl, rfl⟩ := h
  simp

/-- A concatenation splits at the length of its first part. -/
theorem append_iff : At buf off (bs ++ bs') ↔ At buf off bs ∧ At buf (off + bs.length) bs' := by
  constructor
  · rintro ⟨before, after, rfl, rfl⟩
    exact ⟨⟨before, bs' ++ after, by simp, rfl⟩, ⟨before ++ bs, after, by simp, by simp⟩⟩
  · rintro ⟨⟨before, after, hBuf, hOff⟩, ⟨before', after', hBuf', hOff'⟩⟩
    have hLength : before'.length = (before ++ bs).length := by simp; omega
    obtain ⟨hBefore, hAfter⟩ := List.append_inj
      (show before ++ bs ++ after = before' ++ (bs' ++ after') by
        rw [← hBuf, hBuf', List.append_assoc]) hLength.symm
    exact ⟨before, after', by rw [hBuf, hAfter]; simp, hOff⟩

theorem left (h : At buf off (bs ++ bs')) : At buf off bs := (append_iff.mp h).1

theorem right (h : At buf off (bs ++ bs')) : At buf (off + bs.length) bs' := (append_iff.mp h).2

theorem head (h : At buf off (b :: bs)) : At buf off [b] := left (show At buf off ([b] ++ bs) from h)

theorem tail (h : At buf off (b :: bs)) : At buf (off + 1) bs := right (show At buf off ([b] ++ bs) from h)

theorem getElem? (h : At buf off (b :: bs)) : buf[off]? = some b := by
  obtain ⟨before, after, rfl, rfl⟩ := h
  simp

theorem of_getElem? (h : buf[off]? = some b) : At buf off [b] := by
  obtain ⟨hOff, rfl⟩ := List.getElem?_eq_some_iff.mp h
  refine ⟨buf.take off, buf.drop (off + 1), ?_, by rw [List.length_take, Nat.min_eq_left (Nat.le_of_lt hOff)]⟩
  rw [List.append_assoc, List.singleton_append, List.getElem_cons_drop, List.take_append_drop]

theorem cons (h : At buf off [b]) (hRest : At buf (off + 1) bs) : At buf off (b :: bs) :=
  append_iff.mpr ⟨h, hRest⟩

/-- What a slice hands out stands where it was taken. -/
theorem of_slice {stop : Nat} (h : (Bytes.slice buf off stop : Exec ε Bytes) = .ok bs) :
    At buf off bs ∧ off + bs.length = stop := by
  rw [Bytes.slice] at h
  split_ifs at h with hRange
  cases h
  refine ⟨⟨buf.take off, buf.drop stop, ?_, ?_⟩, ?_⟩
  · have hTake : buf.take off = (buf.take stop).take off := by
      rw [List.take_take, Nat.min_eq_left hRange.1]
    rw [hTake, List.take_append_drop, List.take_append_drop]
  · rw [List.length_take, Nat.min_eq_left (Nat.le_trans hRange.1 hRange.2)]
  · rw [List.length_drop, List.length_take, Nat.min_eq_left hRange.2, Nat.add_sub_cancel' hRange.1]

/-- An index at the start of a known string reads its first byte. -/
theorem idx (h : At buf off (b :: bs)) : (Bytes.idx buf off : Exec ε UInt8) = .ok b :=
  idx_eq_ok_iff.mpr h.getElem?

/-- A slice over a known string reads that string. -/
theorem slice (h : At buf off bs) :
    (Bytes.slice buf off (off + bs.length) : Exec ε Bytes) = .ok bs := by
  obtain ⟨before, after, rfl, rfl⟩ := h
  exact slice_append_middle ..

/-- The same, written with `take` and `drop`. -/
theorem take_drop (h : At buf off bs) {n : Nat} (hLength : bs.length = n) :
    (buf.drop off).take n = bs := by
  obtain ⟨before, after, rfl, rfl⟩ := h
  rw [List.append_assoc, List.drop_left, List.take_left' hLength]

theorem of_drop {rest : Bytes} (hOff : off ≤ buf.length) (h : buf.drop off = bs ++ rest) :
    At buf off bs := by
  refine ⟨buf.take off, rest, ?_, by rw [List.length_take, Nat.min_eq_left hOff]⟩
  rw [List.append_assoc, ← h, List.take_append_drop]

/-- The string at an offset is determined by its length. -/
theorem unique (h : At buf off bs) (h' : At buf off bs') (hLength : bs.length = bs'.length) :
    bs = bs' := by
  have hSlice := h.slice (ε := Unit)
  rw [hLength, h'.slice] at hSlice
  cases hSlice
  rfl

/-- Another buffer with the same bytes there. -/
theorem congr {buf' : Bytes} (h : At buf off (b :: bs))
    (hSame : ∀ i, off ≤ i → i < off + (b :: bs).length → buf'[i]? = buf[i]?) : At buf' off (b :: bs) := by
  induction bs generalizing off b with
  | nil => exact of_getElem? ((hSame off (Nat.le_refl _) (Nat.lt_succ_self _)).trans h.getElem?)
  | cons c bs ih =>
      have hLength : (b :: c :: bs).length = (c :: bs).length + 1 := rfl
      refine cons (of_getElem? ((hSame off (Nat.le_refl _) (by omega)).trans h.getElem?)) ?_
      exact ih h.tail fun i hFirst hLast => hSame i (by omega) (by omega)

/-- The byte at an offset is determined. -/
theorem head_unique {b' : UInt8} (h : At buf off (b :: bs)) (h' : At buf off (b' :: bs')) : b = b' :=
  List.singleton_inj.mp (h.head.unique h'.head rfl)

end At

end Bytes

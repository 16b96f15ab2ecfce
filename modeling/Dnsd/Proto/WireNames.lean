import Dnsd.Proto.Spelling

/-! Names as they are on the wire: labels of arbitrary octets, in a row or behind
a pointer. The reader is related to them, and the text it makes of a name to the
labels that the text stands for. -/

namespace Dnsd.Proto

open Bytes Exec

/-! ## Wire names -/

/-- The offset in the two bytes of a pointer. -/
def pointerTarget (high low : UInt8) : Nat := ((high &&& 0x3F).toNat <<< 8) ||| low.toNat

/-- The name at an offset: its labels, the turns it takes to read it, and the end
of its inline part, which is behind the zero byte or behind the first pointer. -/
inductive NameAt (buf : Bytes) : Nat → Nat → List Bytes → Nat → Prop where
  | root {next : Nat} (hZero : At buf next [0]) : NameAt buf 1 next [] (next + 1)
  | label {turns next stop : Nat} {raw : Bytes} {labels : List Bytes}
      (hPositive : 0 < raw.length) (hShort : raw.length ≤ 63)
      (hRaw : At buf next (UInt8.ofNat raw.length :: raw))
      (hRest : NameAt buf turns (next + 1 + raw.length) labels stop) :
      NameAt buf (turns + 1) next (raw :: labels) stop
  | pointer {turns next stop : Nat} {high low : UInt8} {labels : List Bytes}
      (hHigh : high &&& 0xC0 = 0xC0) (hBytes : At buf next [high, low])
      (hRest : NameAt buf turns (pointerTarget high low) labels stop) :
      NameAt buf (turns + 1) next labels (next + 2)

/-- What the reader makes of a label: its bytes as a text, with replacement characters, in
lower case. -/
def labelText [Unicode.Tables] (raw : Bytes) : Str := (Str.fromUtf8Lossy raw).toLowercase

theorem NameAt.labels_short {buf : Bytes} {turns next stop : Nat} {labels : List Bytes}
    (h : NameAt buf turns next labels stop) : ∀ raw ∈ labels, 0 < raw.length ∧ raw.length ≤ 63 := by
  induction h with
  | root => simp
  | label hPositive hShort _ _ ih =>
      intro raw hMem
      rcases List.mem_cons.mp hMem with rfl | hMem
      · exact ⟨hPositive, hShort⟩
      · exact ih raw hMem
  | pointer _ _ _ ih => exact ih

/-! The first byte tells the zero byte, a label and a pointer apart. -/

section FirstByte

variable {buf raw rest : Bytes} {next n : Nat} {high : UInt8}

theorem not_label_of_zero (hZero : At buf next [0]) (hPositive : 0 < n) (hShort : n ≤ 63)
    (hRaw : At buf next (UInt8.ofNat n :: raw)) : False := by
  have hValue := (lengthByte_bits hShort).2
  rw [hRaw.head_unique hZero, UInt8.toNat_zero] at hValue
  omega

theorem not_pointer_of_zero (hZero : At buf next [0]) (hHigh : high &&& 0xC0 = 0xC0)
    (hBytes : At buf next (high :: rest)) : False := by
  rw [hBytes.head_unique hZero] at hHigh
  exact absurd hHigh (by decide)

theorem not_pointer_of_label (hShort : n ≤ 63) (hRaw : At buf next (UInt8.ofNat n :: raw))
    (hHigh : high &&& 0xC0 = 0xC0) (hBytes : At buf next (high :: rest)) : False := by
  rw [hBytes.head_unique hRaw, (lengthByte_bits hShort).1] at hHigh
  exact absurd hHigh (by decide)

/-- Two labels at one offset are the same. -/
theorem label_unique {raw' : Bytes} (hShort : raw.length ≤ 63) (hShort' : raw'.length ≤ 63)
    (hRaw : At buf next (UInt8.ofNat raw.length :: raw))
    (hRaw' : At buf next (UInt8.ofNat raw'.length :: raw')) : raw = raw' := by
  have hLength := congrArg UInt8.toNat (hRaw.head_unique hRaw')
  rw [(lengthByte_bits hShort).2, (lengthByte_bits hShort').2] at hLength
  exact hRaw.tail.unique hRaw'.tail hLength

end FirstByte

/-- There is one name at an offset. -/
theorem NameAt.unique {buf : Bytes} {turns turns' next stop stop' : Nat} {labels labels' : List Bytes}
    (h : NameAt buf turns next labels stop) (h' : NameAt buf turns' next labels' stop') :
    turns = turns' ∧ labels = labels' ∧ stop = stop' := by
  induction h generalizing turns' labels' stop' with
  | root hZero =>
      cases h' with
      | root => exact ⟨rfl, rfl, rfl⟩
      | label hPositive hShort hRaw => exact (not_label_of_zero hZero hPositive hShort hRaw).elim
      | pointer hHigh hBytes => exact (not_pointer_of_zero hZero hHigh hBytes).elim
  | label hPositive hShort hRaw hRest ih =>
      cases h' with
      | root hZero => exact (not_label_of_zero hZero hPositive hShort hRaw).elim
      | label _ hShort' hRaw' hRest' =>
          obtain rfl := label_unique hShort hShort' hRaw hRaw'
          obtain ⟨rfl, rfl, rfl⟩ := ih hRest'
          exact ⟨rfl, rfl, rfl⟩
      | pointer hHigh hBytes => exact (not_pointer_of_label hShort hRaw hHigh hBytes).elim
  | pointer hHigh hBytes hRest ih =>
      cases h' with
      | root hZero => exact (not_pointer_of_zero hZero hHigh hBytes).elim
      | label _ hShort hRaw => exact (not_pointer_of_label hShort hRaw hHigh hBytes).elim
      | pointer hHigh' hBytes' hRest' =>
          cases hBytes.unique hBytes' rfl
          obtain ⟨rfl, rfl, -⟩ := ih hRest'
          exact ⟨rfl, rfl, rfl⟩

theorem NameAt.lt {buf : Bytes} {turns next stop : Nat} {labels : List Bytes}
    (h : NameAt buf turns next labels stop) : next < stop := by
  induction h with
  | root => omega
  | label _ _ _ _ ih => omega
  | pointer _ _ _ ih => omega

/-- An uncompressed name is where it was written. -/
theorem nameAt_wireName {buf : Bytes} {pos : Nat} {names : List Str}
    (hAt : At buf pos (wireName names)) (hNames : ∀ l ∈ names, l ≠ [] ∧ l.len ≤ 63) :
    NameAt buf (names.length + 1) pos (names.map Str.bytes) (pos + (wireName names).length) := by
  induction names generalizing pos with
  | nil => exact .root hAt
  | cons label rest ih =>
      obtain ⟨hNonempty, hShort⟩ := hNames label List.mem_cons_self
      have hSplit : wireName (label :: rest) = labelBytes label ++ wireName rest := by
        simp [wireName]
      rw [hSplit] at hAt ⊢
      have hRest := ih hAt.right fun l hl => hNames l (List.mem_cons_of_mem label hl)
      have hNext : pos + (labelBytes label).length = pos + 1 + label.bytes.length := by
        rw [labelBytes_length, Str.len]
        omega
      rw [List.length_append, ← Nat.add_assoc, hNext]
      rw [hNext] at hRest
      exact .label (Str.len_pos hNonempty) hShort hAt.left hRest

/-! ## Reading a name -/

variable [Unicode.Tables]

/-- One turn of the loop that ends well: at the zero byte, at a label, or at a
pointer. -/
theorem readLabels_succ_eq_ok_iff {buf : Bytes} {guard next pos p : Nat} {jumped : Bool}
    {labels ls : List Str} :
    readLabels buf (guard + 1) next jumped pos labels = .ok (ls, p) ↔
      (At buf next [0] ∧ ls = labels ∧ p = if jumped then pos else next + 1) ∨
      (∃ raw, 0 < raw.length ∧ raw.length ≤ 63 ∧ At buf next (UInt8.ofNat raw.length :: raw) ∧
        readLabels buf guard (next + 1 + raw.length) jumped pos (labels ++ [labelText raw]) =
          .ok (ls, p)) ∨
      ∃ high low, high &&& 0xC0 = 0xC0 ∧ At buf next [high, low] ∧
        readLabels buf guard (pointerTarget high low) true (if jumped then pos else next + 2)
          labels = .ok (ls, p) := by
  constructor
  · intro h
    rw [readLabels] at h
    split at h
    · cases h
    · obtain ⟨len, hLen, h⟩ := bind_eq_ok_iff.mp h
      have hFirst := At.of_getElem? (idx_eq_ok_iff.mp hLen)
      split at h
      · rename_i hPointer
        split at h
        · cases h
        · obtain ⟨low, hLow, h⟩ := bind_eq_ok_iff.mp h
          have hSecond := At.of_getElem? (idx_eq_ok_iff.mp hLow)
          exact .inr (.inr ⟨len, low, hPointer, hFirst.cons hSecond, h⟩)
      · split at h
        · cases h
        · split at h
          · rename_i hZero
            cases h
            exact .inl ⟨hZero ▸ hFirst, rfl, rfl⟩
          · rename_i hZero
            split at h
            · cases h
            · rename_i hFits
              obtain ⟨raw, hRaw, h⟩ := bind_eq_ok_iff.mp h
              obtain ⟨hAt, hStop⟩ := At.of_slice hRaw
              have hLength : raw.length = len.toNat := by omega
              have hPositive : len.toNat ≠ 0 := fun h => hZero (UInt8.toNat_inj.mp h)
              refine .inr (.inl ⟨raw, by omega, by omega, ?_, ?_⟩)
              · rw [hLength, UInt8.ofNat_toNat]
                exact hFirst.cons hAt
              · rw [hLength]
                exact h
  · rintro (⟨hZero, rfl, rfl⟩ | ⟨raw, hPositive, hShort, hRaw, hRest⟩ |
      ⟨high, low, hHigh, hBytes, hRest⟩)
    · exact readLabels_root hZero guard jumped pos ls
    · have hEnd := hRaw.length_le
      obtain ⟨hBits, hValue⟩ := lengthByte_bits hShort
      have hLen : UInt8.ofNat raw.length ≠ 0 := fun h => by simp [h] at hValue; omega
      have hSlice : (slice buf (next + 1) (next + 1 + raw.length) : Result Bytes) = .ok raw :=
        hRaw.tail.slice
      rw [List.length_cons] at hEnd
      rw [readLabels, if_neg (by omega), hRaw.idx, ok_bind, if_neg (by rw [hBits]; decide),
        if_neg (by rw [hBits]; decide), if_neg hLen, if_neg (by rw [hValue]; omega), hValue, hSlice,
        ok_bind]
      exact hRest
    · have hEnd := hBytes.length_le
      rw [List.length_cons, List.length_singleton] at hEnd
      rw [readLabels, if_neg (by omega), hBytes.idx, ok_bind, if_pos hHigh, if_neg (by omega),
        hBytes.tail.idx, ok_bind]
      exact hRest

/-- The loop ends with the labels of the name at the offset. -/
theorem readLabels_eq_ok_iff {buf : Bytes} {guard next pos p : Nat} {jumped : Bool}
    {labels ls : List Str} :
    readLabels buf guard next jumped pos labels = .ok (ls, p) ↔
      ∃ turns raws stop, NameAt buf turns next raws stop ∧ turns ≤ guard ∧
        ls = labels ++ raws.map labelText ∧ p = if jumped then pos else stop := by
  induction guard generalizing next jumped pos labels with
  | zero =>
      refine iff_of_false (by simp [readLabels]) ?_
      rintro ⟨turns, raws, stop, hName, hTurns, -⟩
      cases hName <;> omega
  | succ guard ih =>
      rw [readLabels_succ_eq_ok_iff]
      constructor
      · rintro (⟨hZero, rfl, rfl⟩ | ⟨raw, hPositive, hShort, hRaw, hRest⟩ |
          ⟨high, low, hHigh, hBytes, hRest⟩)
        · exact ⟨1, [], _, .root hZero, by omega, by simp, rfl⟩
        · obtain ⟨turns, raws, stop, hName, hTurns, rfl, rfl⟩ := ih.mp hRest
          exact ⟨_, _, _, .label hPositive hShort hRaw hName, by omega, by simp, rfl⟩
        · obtain ⟨turns, raws, stop, hName, hTurns, rfl, rfl⟩ := ih.mp hRest
          exact ⟨_, _, _, .pointer hHigh hBytes hName, by omega, rfl, rfl⟩
      · rintro ⟨turns, raws, stop, hName, hTurns, rfl, rfl⟩
        cases hName with
        | root hZero => exact .inl ⟨hZero, by simp, rfl⟩
        | label hPositive hShort hRaw hRest =>
            exact .inr (.inl ⟨_, hPositive, hShort, hRaw,
              ih.mpr ⟨_, _, _, hRest, by omega, by simp, rfl⟩⟩)
        | pointer hHigh hBytes hRest =>
            exact .inr (.inr ⟨_, _, hHigh, hBytes, ih.mpr ⟨_, _, _, hRest, by omega, rfl, rfl⟩⟩)

/-- Reading a name succeeds on a name that takes at most 256 turns. -/
theorem readName_eq_ok_iff {buf : Bytes} {pos stop : Nat} {name : Str} :
    readName buf pos = .ok (name, stop) ↔
      ∃ turns raws, NameAt buf turns pos raws stop ∧ turns ≤ 256 ∧
        name = nameText (raws.map labelText) := by
  rw [readName, bind_eq_ok_iff]
  constructor
  · rintro ⟨⟨labels, p⟩, hLabels, hPair⟩
    obtain ⟨turns, raws, stop', hName, hTurns, rfl, rfl⟩ := readLabels_eq_ok_iff.mp hLabels
    cases hPair
    exact ⟨turns, raws, hName, hTurns, rfl⟩
  · rintro ⟨turns, raws, hName, hTurns, rfl⟩
    exact ⟨_, readLabels_eq_ok_iff.mpr ⟨turns, raws, stop, hName, hTurns, rfl, rfl⟩, rfl⟩

end Dnsd.Proto

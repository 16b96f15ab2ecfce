import Dnsd.Rust.Exec
import Dnsd.Rust.UnicodeTables
import Mathlib.Data.List.DropRight

/-! Rust strings as lists of Unicode scalar values, with the `str` operations
that text protocols use. Lengths and bytes are those of the UTF-8 form. -/

/-- `String` and `&str`, character by character. Their bytes are the encoding of it. -/
abbrev Str := List Char

namespace Str

/-- `str::as_bytes`, the encoding in UTF-8. -/
def bytes (s : Str) : Bytes := s.flatMap String.utf8EncodeChar

/-- `str::len`, which counts bytes and not characters. -/
def len (s : Str) : Nat := s.bytes.length

@[simp] theorem bytes_nil : bytes [] = [] := rfl

/-- The encoding of a text is that of its parts, one behind the other. -/
@[simp] theorem bytes_append (s t : Str) : bytes (s ++ t) = bytes s ++ bytes t := by
  simp [bytes]

theorem bytes_cons (c : Char) (s : Str) : bytes (c :: s) = String.utf8EncodeChar c ++ bytes s := by
  simp [bytes]

/-- An ASCII text is encoded with one byte for each character. -/
theorem bytes_ascii {s : Str} (h : ∀ c ∈ s, c.toNat < 0x80) :
    bytes s = s.map fun c => UInt8.ofNat c.toNat := by
  induction s with
  | nil => rfl
  | cons c s ih =>
      have hc : c.val.toNat ≤ 0x7F := by
        have := h c List.mem_cons_self
        change c.val.toNat < 0x80 at this
        omega
      have hEncode : String.utf8EncodeChar c = [UInt8.ofNat c.val.toNat] := by
        simp only [String.utf8EncodeChar, if_pos hc]
      rw [bytes_cons, ih fun d hd => h d (List.mem_cons_of_mem c hd), hEncode]
      rfl

theorem len_ascii {s : Str} (h : ∀ c ∈ s, c.toNat < 0x80) : len s = s.length := by
  simp [len, bytes_ascii h]

@[simp] theorem len_append (s t : Str) : len (s ++ t) = len s + len t := by
  simp [len]

/-- Every character takes at least one byte. -/
theorem length_le_len (s : Str) : s.length ≤ len s := by
  induction s with
  | nil => simp [len]
  | cons c s ih =>
      have hChar := c.utf8Size_pos
      rw [len, bytes] at ih ⊢
      simp only [List.flatMap_cons, List.length_append, List.length_cons,
        String.length_utf8EncodeChar]
      omega

/-- A character has at most four bytes. -/
theorem len_le (s : Str) : len s ≤ 4 * s.length := by
  induction s with
  | nil => simp [len]
  | cons c s ih =>
      have hChar := c.utf8Size_le_four
      simp only [len, bytes_cons, List.length_append, String.length_utf8EncodeChar,
        List.length_cons] at ih ⊢
      omega

theorem bytes_eq_nil {s : Str} : bytes s = [] ↔ s = [] := by
  cases s with
  | nil => simp
  | cons c s => simp [bytes_cons, String.utf8EncodeChar_ne_nil]

theorem len_pos {s : Str} (h : s ≠ []) : 0 < len s :=
  List.length_pos_iff.mpr fun hNil => h (bytes_eq_nil.mp hNil)

/-! ## Lossy UTF-8 decoding -/

/-- How many bytes a well-formed sequence starting with `b` has, or 0. -/
def charWidth (b : UInt8) : Nat :=
  if b.toNat < 0x80 then 1
  else if 0xC2 ≤ b.toNat ∧ b.toNat ≤ 0xDF then 2
  else if 0xE0 ≤ b.toNat ∧ b.toNat ≤ 0xEF then 3
  else if 0xF0 ≤ b.toNat ∧ b.toNat ≤ 0xF4 then 4
  else 0

/-- A byte that stands only behind the first one of a character. -/
def isContinuation (b : UInt8) : Bool := 0x80 ≤ b.toNat && b.toNat ≤ 0xBF

/-- Whether `b` may follow the lead byte `lead` of a three- or four-byte
sequence; overlong forms, surrogates and values past U+10FFFF are cut here. -/
def secondFits (lead b : UInt8) : Bool :=
  if lead = 0xE0 then 0xA0 ≤ b.toNat && b.toNat ≤ 0xBF
  else if lead = 0xED then 0x80 ≤ b.toNat && b.toNat ≤ 0x9F
  else if lead = 0xF0 then 0x90 ≤ b.toNat && b.toNat ≤ 0xBF
  else if lead = 0xF4 then 0x80 ≤ b.toNat && b.toNat ≤ 0x8F
  else isContinuation b

/-- Low six bits of a continuation byte, which are what it carries. -/
def tail (b : UInt8) : Nat := b.toNat - 0x80

/-- U+FFFD, which stands for each ill-formed piece of the input. -/
def replacement : Char := Char.ofNat 0xFFFD

/-- `String::from_utf8_lossy`: the longest prefix of a well-formed sequence is
replaced as one piece, and decoding resumes right behind it. -/
def fromUtf8Lossy : Bytes → Str
  | [] => []
  | b :: rest =>
      match charWidth b, rest with
      | 1, rest => Char.ofNat b.toNat :: fromUtf8Lossy rest
      | 2, c :: rest' =>
          if isContinuation c then
            Char.ofNat ((b.toNat - 0xC0) * 64 + tail c) :: fromUtf8Lossy rest'
          else replacement :: fromUtf8Lossy (c :: rest')
      | 3, [c] =>
          if secondFits b c then [replacement] else replacement :: fromUtf8Lossy [c]
      | 3, c :: d :: rest' =>
          if secondFits b c then
            if isContinuation d then
              Char.ofNat ((b.toNat - 0xE0) * 4096 + tail c * 64 + tail d) :: fromUtf8Lossy rest'
            else replacement :: fromUtf8Lossy (d :: rest')
          else replacement :: fromUtf8Lossy (c :: d :: rest')
      | 4, [c] =>
          if secondFits b c then [replacement] else replacement :: fromUtf8Lossy [c]
      | 4, [c, d] =>
          if secondFits b c then
            if isContinuation d then [replacement] else replacement :: fromUtf8Lossy [d]
          else replacement :: fromUtf8Lossy [c, d]
      | 4, c :: d :: e :: rest' =>
          if secondFits b c then
            if isContinuation d then
              if isContinuation e then
                Char.ofNat ((b.toNat - 0xF0) * 262144 + tail c * 4096 + tail d * 64 + tail e) ::
                  fromUtf8Lossy rest'
              else replacement :: fromUtf8Lossy (e :: rest')
            else replacement :: fromUtf8Lossy (d :: e :: rest')
          else replacement :: fromUtf8Lossy (c :: d :: e :: rest')
      | _, rest => replacement :: fromUtf8Lossy rest

/-- An ASCII byte is read as its character, whatever is behind it. -/
theorem fromUtf8Lossy_cons_ascii {b : UInt8} (h : b.toNat < 0x80) (rest : Bytes) :
    fromUtf8Lossy (b :: rest) = Char.ofNat b.toNat :: fromUtf8Lossy rest := by
  have hWidth : charWidth b = 1 := by simp [charWidth, h]
  rw [fromUtf8Lossy.eq_def]
  simp [hWidth]

/-- Bytes never read as the empty text, unless there are none. -/
theorem fromUtf8Lossy_ne_nil (b : UInt8) (rest : Bytes) : fromUtf8Lossy (b :: rest) ≠ [] := by
  rw [fromUtf8Lossy.eq_def]
  dsimp only
  split
  all_goals try split_ifs
  all_goals exact List.cons_ne_nil _ _

/-- No ASCII byte is a continuation, so a character never ends in one. -/
theorem isContinuation_ascii {b : UInt8} (h : b.toNat < 0x80) : isContinuation b = false := by
  rw [isContinuation, Bool.and_eq_false_iff, decide_eq_false_iff_not]
  omega

theorem secondFits_ascii {b : UInt8} (h : b.toNat < 0x80) (lead : UInt8) :
    secondFits lead b = false := by
  rw [secondFits]
  split_ifs <;> simp [isContinuation] <;> omega

/-- A leading byte announces at most four bytes, or none if it cannot lead. -/
theorem charWidth_cases (b : UInt8) : charWidth b = 0 ∨ charWidth b = 1 ∨ charWidth b = 2 ∨
    charWidth b = 3 ∨ charWidth b = 4 := by
  rw [charWidth]
  split_ifs <;> omega

/-- A byte that starts no sequence is replaced alone. -/
theorem fromUtf8Lossy_cons_stray {b : UInt8} (h : charWidth b = 0) (rest : Bytes) :
    fromUtf8Lossy (b :: rest) = replacement :: fromUtf8Lossy rest := by
  rw [fromUtf8Lossy.eq_def]
  simp [h]

/-- A sequence does not run on into ASCII. -/
theorem fromUtf8Lossy_cut_ascii {lead b : UInt8} (hLead : charWidth lead ≠ 1) (h : b.toNat < 0x80)
    (rest : Bytes) :
    fromUtf8Lossy (lead :: b :: rest) = replacement :: fromUtf8Lossy (b :: rest) := by
  have hC := isContinuation_ascii h
  have hS := secondFits_ascii h lead
  obtain hZero | hOne | hTwo | hThree | hFour := charWidth_cases lead
  · exact fromUtf8Lossy_cons_stray hZero _
  · exact absurd hOne hLead
  · rw [fromUtf8Lossy.eq_def]
    simp [hTwo, hC]
  · rw [fromUtf8Lossy.eq_def]
    cases rest <;> simp [hThree, hS]
  · rw [fromUtf8Lossy.eq_def]
    rcases rest with _ | ⟨_, _ | ⟨_, _⟩⟩ <;> simp [hFour, hS]

/-- Decoding resumes at every byte of ASCII. -/
theorem fromUtf8Lossy_append_ascii {b : UInt8} (h : b.toNat < 0x80) (front rest : Bytes) :
    fromUtf8Lossy (front ++ b :: rest) =
      fromUtf8Lossy front ++ Char.ofNat b.toNat :: fromUtf8Lossy rest := by
  have hC := isContinuation_ascii h
  have hS := secondFits_ascii h
  have hA := fromUtf8Lossy_cons_ascii h
  fun_induction fromUtf8Lossy front
  case case1 => exact hA rest
  case case19 lead more h1 h2 h3 h3' h4 h4' h4'' ih =>
    rw [List.cons_append, List.cons_append, ← ih]
    cases more with
    | nil => exact fromUtf8Lossy_cut_ascii h1 h rest
    | cons c more =>
        obtain hZero | hOne | hTwo | hThree | hFour := charWidth_cases lead
        · exact fromUtf8Lossy_cons_stray hZero _
        · exact absurd hOne h1
        · exact (h2 c more hTwo rfl).elim
        · cases more with
          | nil => exact (h3 c hThree rfl).elim
          | cons d more => exact (h3' c d more hThree rfl).elim
        · match more with
          | [] => exact (h4 c hFour rfl).elim
          | [d] => exact (h4' c d hFour rfl).elim
          | d :: e :: more => exact (h4'' c d e more hFour rfl).elim
  -- each other piece of the front ends in the front
  all_goals
    simp only [List.cons_append, List.nil_append] at *
    rw [fromUtf8Lossy.eq_def]
    cases rest <;> simp_all

private theorem ofNat_toNat {c : Char} {n : Nat} (h : n = c.val.toNat) : Char.ofNat n = c := by
  subst h
  exact Char.ofNat_toNat c

private theorem toNat_ofNat {n : Nat} (h : n < 256) : (UInt8.ofNat n).toNat = n := by
  rw [UInt8.toNat_ofNat']
  exact Nat.mod_eq_of_lt h

/-- A scalar value is never a surrogate and never past U+10FFFF. -/
private theorem scalar_range (c : Char) :
    c.val.toNat < 0xD800 ∨ 0xDFFF < c.val.toNat ∧ c.val.toNat < 0x110000 := c.valid

/-- The decoder reads back one encoded character, whatever follows it. -/
theorem fromUtf8Lossy_encode (c : Char) (rest : Bytes) :
    fromUtf8Lossy (String.utf8EncodeChar c ++ rest) = c :: fromUtf8Lossy rest := by
  have hRange := scalar_range c
  unfold String.utf8EncodeChar
  generalize hv : c.val.toNat = v at hRange
  have hTail (n : Nat) : isContinuation (UInt8.ofNat (n % 64 + 128)) = true ∧
      tail (UInt8.ofNat (n % 64 + 128)) = n % 64 := by
    have hb := toNat_ofNat (show n % 64 + 128 < 256 by omega)
    unfold isContinuation tail
    rw [hb]
    exact ⟨by rw [Bool.and_eq_true, decide_eq_true_eq, decide_eq_true_eq]; omega, by omega⟩
  dsimp only
  split_ifs with h1 h2 h3
  · have hb := toNat_ofNat (show v < 256 by omega)
    rw [List.singleton_append, fromUtf8Lossy_cons_ascii (by omega), hb, ofNat_toNat hv.symm]
  · have hb := toNat_ofNat (show v / 64 % 32 + 192 < 256 by omega)
    have hWidth : charWidth (UInt8.ofNat (v / 64 % 32 + 192)) = 2 := by
      simp only [charWidth, hb]
      split_ifs <;> omega
    rw [List.cons_append, List.singleton_append, fromUtf8Lossy.eq_def]
    simp only [hWidth, hb, (hTail v).1, (hTail v).2, if_true]
    rw [ofNat_toNat (c := c) (by omega)]
  · have hb := toNat_ofNat (show v / 4096 % 16 + 224 < 256 by omega)
    have hc := toNat_ofNat (show v / 64 % 64 + 128 < 256 by omega)
    have hWidth : charWidth (UInt8.ofNat (v / 4096 % 16 + 224)) = 3 := by
      simp only [charWidth, hb]
      split_ifs <;> omega
    have hSecond : secondFits (UInt8.ofNat (v / 4096 % 16 + 224))
        (UInt8.ofNat (v / 64 % 64 + 128)) = true := by
      simp only [secondFits, isContinuation, ← UInt8.toNat_inj, hb, hc]
      split_ifs with hE0 hED <;> simp at * <;> omega
    simp only [List.cons_append, List.nil_append]
    rw [fromUtf8Lossy.eq_def]
    simp only [hWidth, hb, hSecond, (hTail v).1, (hTail v).2, (hTail (v / 64)).2, if_true]
    rw [ofNat_toNat (c := c) (by omega)]
  · have hb := toNat_ofNat (show v / 262144 % 8 + 240 < 256 by omega)
    have hc := toNat_ofNat (show v / 4096 % 64 + 128 < 256 by omega)
    have hWidth : charWidth (UInt8.ofNat (v / 262144 % 8 + 240)) = 4 := by
      simp only [charWidth, hb]
      split_ifs <;> omega
    have hSecond : secondFits (UInt8.ofNat (v / 262144 % 8 + 240))
        (UInt8.ofNat (v / 4096 % 64 + 128)) = true := by
      simp only [secondFits, isContinuation, ← UInt8.toNat_inj, hb, hc]
      split_ifs <;> simp at * <;> omega
    simp only [List.cons_append, List.nil_append]
    rw [fromUtf8Lossy.eq_def]
    simp only [hWidth, hb, hSecond, (hTail v).1, (hTail v).2, (hTail (v / 64)).1,
      (hTail (v / 64)).2, (hTail (v / 4096)).2, if_true]
    rw [ofNat_toNat (c := c) (by omega)]

/-- Decoding the bytes of a string gives the string back. -/
theorem fromUtf8Lossy_bytes (s : Str) : fromUtf8Lossy (bytes s) = s := by
  induction s with
  | nil => rfl
  | cons c s ih => rw [bytes_cons, fromUtf8Lossy_encode, ih]

/-- No two texts have the same encoding. -/
theorem bytes_injective : Function.Injective bytes := fun s t h => by
  rw [← fromUtf8Lossy_bytes s, h, fromUtf8Lossy_bytes]

/-- `String::from_utf8`: all bytes are one encoding, or nothing is returned. -/
def fromUtf8 (b : Bytes) : Option Str :=
  if bytes (fromUtf8Lossy b) = b then some (fromUtf8Lossy b) else none

/-- The bytes that read as a text are exactly its encoding. -/
theorem fromUtf8_eq_some_iff {b : Bytes} {s : Str} : fromUtf8 b = some s ↔ b = bytes s := by
  constructor
  · intro h
    rw [fromUtf8] at h
    split_ifs at h with hSame
    rw [← Option.some.inj h, hSame]
  · rintro rfl
    rw [fromUtf8, fromUtf8Lossy_bytes, if_pos rfl]

theorem utf8EncodeChar_ascii {c : Char} (h : c.toNat < 0x80) :
    String.utf8EncodeChar c = [UInt8.ofNat c.toNat] := by
  have hBytes := bytes_ascii (s := [c]) (by simpa using h)
  simpa [bytes] using hBytes

/-- The last byte of an encoded character is not of ASCII unless the character is. -/
theorem ascii_of_encode_concat {c : Char} {before : Bytes} {b : UInt8} (hAscii : b.toNat < 0x80)
    (h : String.utf8EncodeChar c = before ++ [b]) : c = Char.ofNat b.toNat ∧ before = [] := by
  have hNoTail (n : Nat) : b ≠ UInt8.ofNat (n % 64 + 128) := fun hb => by
    rw [hb, toNat_ofNat (by omega)] at hAscii
    omega
  have hRange := scalar_range c
  unfold String.utf8EncodeChar at h
  dsimp only at h
  split_ifs at h with h1 h2 h3
  · obtain ⟨hBefore, hLast⟩ := List.append_inj' (show [] ++ [_] = before ++ [b] from h) rfl
    rw [List.singleton_inj] at hLast
    refine ⟨(ofNat_toNat ?_).symm, hBefore.symm⟩
    rw [← hLast, toNat_ofNat (by omega)]
  · obtain ⟨_, hLast⟩ := List.append_inj' (show [_] ++ [_] = before ++ [b] from h) rfl
    exact absurd (List.singleton_inj.mp hLast).symm (hNoTail _)
  · obtain ⟨_, hLast⟩ := List.append_inj' (show [_, _] ++ [_] = before ++ [b] from h) rfl
    exact absurd (List.singleton_inj.mp hLast).symm (hNoTail _)
  · obtain ⟨_, hLast⟩ := List.append_inj' (show [_, _, _] ++ [_] = before ++ [b] from h) rfl
    exact absurd (List.singleton_inj.mp hLast).symm (hNoTail _)

/-- An ASCII byte at the end of a text is its last character. -/
theorem bytes_eq_concat_ascii {s : Str} {before : Bytes} {b : UInt8} (hAscii : b.toNat < 0x80)
    (h : bytes s = before ++ [b]) : ∃ t, s = t ++ [Char.ofNat b.toNat] ∧ bytes t = before := by
  rcases s.eq_nil_or_concat with rfl | ⟨t, c, rfl⟩
  · simp at h
  · rw [List.concat_eq_append] at h ⊢
    rw [bytes_append, bytes_cons, bytes_nil, List.append_nil] at h
    obtain ⟨middle, last, hEncode⟩ : ∃ middle last, String.utf8EncodeChar c = middle ++ [last] := by
      rcases (String.utf8EncodeChar c).eq_nil_or_concat with hNil | ⟨middle, last, hEq⟩
      · exact absurd hNil String.utf8EncodeChar_ne_nil
      · exact ⟨middle, last, hEq.trans List.concat_eq_append⟩
    rw [hEncode, ← List.append_assoc] at h
    obtain ⟨hBefore, hLast⟩ := List.append_inj' h rfl
    rw [List.singleton_inj] at hLast
    subst hLast
    obtain ⟨hChar, hNil⟩ := ascii_of_encode_concat hAscii hEncode
    refine ⟨t, by rw [hChar], ?_⟩
    rw [← hBefore, hNil, List.append_nil]

theorem toNat_ofNat_ascii {n : Nat} (h : n < 0x80) : (Char.ofNat n).toNat = n := by
  have hValid : n.isValidChar := Or.inl (by omega)
  rw [Char.ofNat, dif_pos hValid]
  rfl

/-- An ASCII byte at the start of a text is its first character. -/
theorem bytes_eq_cons_ascii {s : Str} {after : Bytes} {b : UInt8} (hAscii : b.toNat < 0x80)
    (h : bytes s = b :: after) : ∃ t, s = Char.ofNat b.toNat :: t ∧ bytes t = after := by
  have hDecode := congrArg fromUtf8Lossy h
  rw [fromUtf8Lossy_bytes, fromUtf8Lossy_cons_ascii hAscii] at hDecode
  refine ⟨fromUtf8Lossy after, hDecode, ?_⟩
  have hChar := toNat_ofNat_ascii hAscii
  rw [hDecode, bytes_cons, utf8EncodeChar_ascii (by omega), hChar, UInt8.ofNat_toNat] at h
  exact List.cons_injective h

/-- A byte of ASCII is in no longer encoding. -/
theorem ascii_of_mem_encode {c : Char} {b : UInt8} (hAscii : b.toNat < 0x80)
    (h : b ∈ String.utf8EncodeChar c) : c.toNat < 0x80 := by
  have hHigh (n : Nat) (hLow : 128 ≤ n) (hn : n < 256) : b ≠ UInt8.ofNat n := fun hb => by
    rw [hb, toNat_ofNat hn] at hAscii
    omega
  have hNat : c.toNat = c.val.toNat := rfl
  unfold String.utf8EncodeChar at h
  dsimp only at h
  split_ifs at h with h1 h2 h3
  · omega
  all_goals simp only [List.mem_cons, List.not_mem_nil, or_false] at h
  · rcases h with h | h
    all_goals exact absurd h (hHigh _ (by omega) (by omega))
  · rcases h with h | h | h
    all_goals exact absurd h (hHigh _ (by omega) (by omega))
  · rcases h with h | h | h | h
    all_goals exact absurd h (hHigh _ (by omega) (by omega))

/-- No text starts inside a character. -/
theorem isContinuation_head {s : Str} {b : UInt8} {rest : Bytes} (h : bytes s = b :: rest) :
    isContinuation b = false := by
  have hFirst (n : Nat) (hLow : n < 128 ∨ 192 ≤ n) (hn : n < 256) (more : Bytes)
      (hb : UInt8.ofNat n :: more = b :: rest) : isContinuation b = false := by
    rw [← (List.cons_eq_cons.mp hb).1, isContinuation, toNat_ofNat hn, Bool.and_eq_false_iff,
      decide_eq_false_iff_not, decide_eq_false_iff_not]
    omega
  cases s with
  | nil => cases h
  | cons c s =>
      rw [bytes_cons] at h
      unfold String.utf8EncodeChar at h
      dsimp only at h
      split_ifs at h with h1 h2 h3
      all_goals exact hFirst _ (by omega) (by omega) _ h

/-- A text splits at each byte of ASCII. -/
theorem bytes_split_ascii {s : Str} {before after : Bytes} {b : UInt8} (hAscii : b.toNat < 0x80)
    (h : bytes s = before ++ b :: after) :
    ∃ t u, s = t ++ Char.ofNat b.toNat :: u ∧ bytes t = before ∧ bytes u = after := by
  induction s generalizing before with
  | nil => cases before <;> cases h
  | cons c s ih =>
      rw [bytes_cons] at h
      rcases List.append_eq_append_iff.mp h with ⟨middle, hBefore, hRest⟩ | ⟨middle, hChar, hAfter⟩
      · obtain ⟨t, u, rfl, hFront, hBack⟩ := ih hRest
        exact ⟨c :: t, u, rfl, by rw [bytes_cons, hFront, hBefore], hBack⟩
      · cases middle with
        | nil =>
            obtain ⟨u, rfl, hBack⟩ := bytes_eq_cons_ascii hAscii hAfter.symm
            rw [List.append_nil] at hChar
            exact ⟨[c], u, rfl, by rw [bytes_cons, bytes_nil, List.append_nil, hChar], hBack⟩
        | cons d middle =>
            obtain ⟨rfl, hBack⟩ := List.cons_eq_cons.mp hAfter
            have hOne := ascii_of_mem_encode (c := c) hAscii (by rw [hChar]; simp)
            rw [utf8EncodeChar_ascii hOne] at hChar
            have hNil : before = [] ∧ middle = [] := by
              have hLength := congrArg List.length hChar
              simp only [List.length_append, List.length_cons, List.length_nil] at hLength
              exact ⟨List.length_eq_zero_iff.mp (by omega), List.length_eq_zero_iff.mp (by omega)⟩
            obtain ⟨rfl, rfl⟩ := hNil
            have hByte := (List.cons_eq_cons.mp hChar).1
            refine ⟨[], s, ?_, rfl, hBack.symm⟩
            rw [← hByte, toNat_ofNat (by omega), Char.ofNat_toNat]
            rfl

/-! ## Letter case -/

section LetterCase

variable [Unicode.Tables]

/-- Whether a cased character follows once ignorable ones are skipped. -/
def caseIgnorableThenCased (s : Str) : Bool :=
  match s.dropWhile Unicode.caseIgnorable with
  | c :: _ => Unicode.cased c
  | [] => false

/-- Lower-case the rest of a string whose start, reversed, is `before`. A
capital sigma that ends a word becomes the final form. -/
def lowerFrom : Str → Str → Str
  | _, [] => []
  | before, c :: after =>
      (if c.toNat = 0x3A3 then
        if caseIgnorableThenCased before && !caseIgnorableThenCased after then [Char.ofNat 0x3C2]
        else [Char.ofNat 0x3C3]
      else Unicode.toLower c) ++ lowerFrom (c :: before) after

/-- `str::to_lowercase`, which lowers the final sigma by what stands around it and all
other characters by themselves. -/
def toLowercase (s : Str) : Str := lowerFrom [] s

/-- A character that lower-casing leaves alone. -/
def CaseStable (c : Char) : Prop := c.toNat ≠ 0x3A3 ∧ Unicode.toLower c = [c]

instance (c : Char) : Decidable (CaseStable c) := inferInstanceAs (Decidable (_ ∧ _))

/-- A text of characters without another lower case stays as it is. -/
theorem toLowercase_of_stable {s : Str} (h : ∀ c ∈ s, CaseStable c) : toLowercase s = s := by
  have hFrom (before : Str) : lowerFrom before s = s := by
    induction s generalizing before with
    | nil => rfl
    | cons c s ih =>
        have hc := h c List.mem_cons_self
        rw [lowerFrom, if_neg hc.1, hc.2, ih fun d hd => h d (List.mem_cons_of_mem c hd)]
        rfl
  exact hFrom []

theorem lowerFrom_ne_nil (before : Str) (c : Char) (s : Str) : lowerFrom before (c :: s) ≠ [] := by
  rw [lowerFrom]
  split_ifs
  · simp
  · simp
  · simp [Unicode.toLower_ne_nil]

/-- The lower case of a text has at most twice its characters. -/
theorem toLowercase_length (s : Str) : (toLowercase s).length ≤ 2 * s.length := by
  have hFrom (before : Str) : (lowerFrom before s).length ≤ 2 * s.length := by
    induction s generalizing before with
    | nil => simp [lowerFrom]
    | cons c s ih =>
        have hRest := ih (c :: before)
        have hOne := Unicode.toLower_length c
        rw [lowerFrom, List.length_append, List.length_cons]
        split_ifs
        · rw [List.length_singleton]
          omega
        · rw [List.length_singleton]
          omega
        · omega
  exact hFrom []

/-- Lower-casing leaves no full stop at the end of a text that does not end in one. -/
theorem toLowercase_ends {s : Str} (h : s.getLast? ≠ some '.') :
    (toLowercase s).getLast? ≠ some '.' := by
  have hFrom (before : Str) : (lowerFrom before s).getLast? ≠ some '.' := by
    induction s generalizing before with
    | nil => simp [lowerFrom]
    | cons c s ih =>
        rw [lowerFrom]
        cases s with
        | nil =>
            have hDot : '.' ≠ c := by simpa using Ne.symm h
            rw [lowerFrom, List.append_nil]
            intro hLast
            have hMem := List.mem_of_getLast? hLast
            split_ifs at hMem with hSigma hFinal
            · exact absurd hMem (by decide)
            · exact absurd hMem (by decide)
            · exact Unicode.dot_not_mem_toLower (Ne.symm hDot) hMem
        | cons d s =>
            have hRest := ih (by simpa using h) (c :: before)
            rwa [List.getLast?_append_of_ne_nil _ (lowerFrom_ne_nil (c :: before) d s)]
  exact hFrom []

/-- An ASCII character that is not an upper-case letter has no other lower case. -/
theorem caseStable_of_ascii {c : Char} (hAscii : c.toNat < 0x80) (hLower : c.toLower = c) :
    CaseStable c :=
  ⟨by omega, by rw [Unicode.toLower_ascii hAscii, hLower]⟩

end LetterCase

/-! ## White space -/

/-- `str::trim`: white space is dropped at both ends, in the sense of Unicode. -/
def trim (s : Str) : Str := (s.dropWhile Unicode.whiteSpace).rdropWhile Unicode.whiteSpace

/-- `str::trim_end`: white space is dropped at the end alone. -/
def trimEnd (s : Str) : Str := s.rdropWhile Unicode.whiteSpace

/-- `str::trim_end_matches` for one character, of which as many are dropped as there are
at the end. -/
def trimEndMatches (s : Str) (c : Char) : Str := s.rdropWhile (· == c)

/-- Trimming makes no text longer. -/
theorem trim_length (s : Str) : (trim s).length ≤ s.length :=
  (List.rdropWhile_prefix _ _).length_le.trans (List.dropWhile_suffix _).length_le

theorem trimEndMatches_append_of_ne {s : Str} {c : Char} (sep : Char) (h : c ≠ sep) :
    trimEndMatches (s ++ [c]) sep = s ++ [c] :=
  List.rdropWhile_concat_neg _ _ _ (by simpa using h)

theorem trimEndMatches_append_self (s : Str) (sep : Char) :
    trimEndMatches (s ++ [sep]) sep = trimEndMatches s sep :=
  List.rdropWhile_concat_pos _ _ _ (by simp)

/-- Dropping characters at the end makes no text longer. -/
theorem trimEndMatches_len (s : Str) (sep : Char) : len (trimEndMatches s sep) ≤ len s := by
  obtain ⟨rest, hRest⟩ := List.rdropWhile_prefix (· == sep) s
  have hLen := congrArg len hRest
  rw [len_append] at hLen
  rw [trimEndMatches]
  omega

theorem trimEnd_append_space {s : Str} {c : Char} (h : Unicode.whiteSpace c = true) :
    trimEnd (s ++ [c]) = trimEnd s :=
  List.rdropWhile_concat_pos _ _ _ h

theorem trimEnd_append_of_not_space {s : Str} {c : Char} (h : Unicode.whiteSpace c = false) :
    trimEnd (s ++ [c]) = s ++ [c] :=
  List.rdropWhile_concat_neg _ _ _ (by simp [h])

theorem trimEnd_cons {c : Char} (h : Unicode.whiteSpace c = false) (s : Str) :
    trimEnd (c :: s) = c :: trimEnd s := by
  induction s using List.reverseRecOn with
  | nil => exact trimEnd_append_of_not_space (s := []) h
  | append_singleton s d ih =>
      cases hSpace : Unicode.whiteSpace d with
      | true => rw [← List.cons_append, trimEnd_append_space hSpace, trimEnd_append_space hSpace, ih]
      | false =>
          rw [← List.cons_append, trimEnd_append_of_not_space hSpace,
            trimEnd_append_of_not_space hSpace, List.cons_append]

/-- No trimmed text starts with white space, nor does what is in front of its end. -/
theorem head_of_prefix_trim {s t : Str} (hPrefix : t <+: trim s) {c : Char}
    (h : t.head? = some c) : Unicode.whiteSpace c = false := by
  have hStart : [c] <+: s.dropWhile Unicode.whiteSpace :=
    (List.singleton_prefix_iff_head?_eq_some.mpr h).trans
      (hPrefix.trans (List.rdropWhile_prefix _ _))
  have hNot := List.head?_dropWhile_not Unicode.whiteSpace s
  rwa [List.singleton_prefix_iff_head?_eq_some.mp hStart] at hNot

/-- Trimming touches nothing when neither end is white space. -/
theorem trim_of_ends {s : Str} (hFirst : ∀ c, s.head? = some c → Unicode.whiteSpace c = false)
    (hLast : ∀ c, s.getLast? = some c → Unicode.whiteSpace c = false) : trim s = s := by
  have hStart : s.dropWhile Unicode.whiteSpace = s := by
    cases s with
    | nil => rfl
    | cons c s => simp [hFirst c rfl]
  rw [trim, hStart, List.rdropWhile_eq_self_iff]
  intro hNil
  simp [hLast _ (List.getLast?_eq_getLast_of_ne_nil hNil)]

end Str

import Dnsd.Base.Bisect
import Dnsd.Resolve.Qqwry

/-! When a lookup in the IPv4 database ends with a result: the offsets that the search
forms, the entry that it stops at, and the record that this one leads to. -/

namespace Dnsd.Resolve

open Bytes Bisect

theorem u32_of_lt {n : Nat} (h : n < 2 ^ 32) : u32 n = .ok (UInt32.ofNat n) := if_pos h

theorem u32_of_le {n : Nat} (h : 2 ^ 32 ≤ n) : u32 n = .panicked := if_neg (by omega)

theorem u32_toNat {n : Nat} (h : n < 2 ^ 32) : (UInt32.ofNat n).toNat = n := by
  rw [UInt32.toNat_ofNat', Nat.mod_eq_of_lt h]

namespace QQwry

variable {gbk : Bytes → Str} {db : QQwry} {off : Nat}

/-! ## Reads -/

/-- The three bytes at an offset, as a number. -/
def u24 (db : QQwry) (off : Nat) : Nat := Words.leValue ((db.data.drop off).take 3)

/-- Three bytes that are in the data are read as the number that they stand for. -/
theorem readU24_ok (h : off + 3 ≤ db.data.length) :
    ∃ x : UInt32, db.readU24 off = .ok x ∧ x.toNat = db.u24 off := by
  obtain ⟨b0, b1, b2, hBytes⟩ : ∃ b0 b1 b2, (db.data.drop off).take 3 = [b0, b1, b2] :=
    List.length_eq_three.mp (by simp; omega)
  have hByte (i : Nat) (hi : i < 3) : db.data[off + i]? = [b0, b1, b2][i]? := by
    rw [← hBytes, List.getElem?_take_of_lt hi, List.getElem?_drop]
  have h0 : (idx db.data off : Result UInt8) = .ok b0 := idx_eq_ok_iff.mpr (hByte 0 (by decide))
  have h1 : (idx db.data (off + 1) : Result UInt8) = .ok b1 := idx_eq_ok_iff.mpr (hByte 1 (by decide))
  have h2 : (idx db.data (off + 2) : Result UInt8) = .ok b2 := idx_eq_ok_iff.mpr (hByte 2 (by decide))
  refine ⟨UInt32.fromLeBytes [b0, b1, b2, 0], by rw [readU24, h0, h1, h2]; rfl, ?_⟩
  have hBounds := And.intro b0.toNat_lt (And.intro b1.toNat_lt b2.toNat_lt)
  rw [u24, hBytes, UInt32.fromLeBytes, UInt32.toNat_ofNat']
  simp only [Words.leValue, UInt8.toNat_zero]
  omega

theorem readU24_panicked (h : db.data.length < off + 3) : db.readU24 off = .panicked := by
  rw [readU24]
  rcases Nat.lt_or_ge off db.data.length with h0 | h0
  · rw [idx_of_lt h0, Exec.ok_bind]
    rcases Nat.lt_or_ge (off + 1) db.data.length with h1 | h1
    · rw [idx_of_lt h1, Exec.ok_bind, idx_eq_panicked_iff.mpr (by omega), Exec.panicked_bind]
    · rw [idx_eq_panicked_iff.mpr h1, Exec.panicked_bind]
  · rw [idx_eq_panicked_iff.mpr h0, Exec.panicked_bind]

/-- A text can be read exactly from a place in the data or at their end. -/
theorem readString_ok_iff : (∃ s, db.readString gbk off = .ok s) ↔ off ≤ db.data.length := by
  have hText := (List.takeWhile_prefix (l := db.data.drop off) (· ≠ 0)).length_le
  rw [List.length_drop] at hText
  rw [readString]
  rcases Nat.lt_or_ge db.data.length off with hOutside | hInside
  · rw [slice_eq_panicked_iff.mpr (by omega), Exec.panicked_bind]
    exact iff_of_false (by simp) (by omega)
  · rw [slice_of_le (by omega) (by omega), Exec.ok_bind]
    exact iff_of_true ⟨_, rfl⟩ hInside

/-- A text at an offset that stands in the data. -/
theorem redirected_ok_iff :
    (∃ s, (db.readU24 off >>= fun redirect => db.readString gbk redirect.toNat) = .ok s) ↔
      off + 3 ≤ db.data.length ∧ db.u24 off ≤ db.data.length := by
  rcases Nat.lt_or_ge db.data.length (off + 3) with hOutside | hInside
  · rw [readU24_panicked hOutside, Exec.panicked_bind]
    exact iff_of_false (by simp) (by omega)
  · obtain ⟨redirect, hRead, hValue⟩ := readU24_ok hInside
    rw [hRead, Exec.ok_bind, readString_ok_iff, hValue]
    exact (and_iff_right hInside).symm

/-- An area that redirects has its offset in the data, and redirects into it. -/
def AreaOk (db : QQwry) (off : Nat) : Prop :=
  ∀ mode, db.data[off]? = some mode → mode = 1 ∨ mode = 2 →
    off + 1 + 3 ≤ db.data.length ∧ db.u24 (off + 1) ≤ db.data.length

/-- An area can be read exactly where it is well placed, behind a redirect or not. -/
theorem readArea_ok_iff : (∃ s, db.readArea gbk off = .ok s) ↔ db.AreaOk off := by
  rw [readArea, AreaOk]
  split_ifs with hEnd
  · refine iff_of_true ⟨[], rfl⟩ fun mode hMode => ?_
    rw [List.getElem?_eq_none hEnd] at hMode
    cases hMode
  · have hLess := Nat.lt_of_not_le hEnd
    simp only [idx_of_lt hLess, Exec.ok_bind, List.getElem?_eq_getElem hLess, Option.some.injEq,
      forall_eq']
    split_ifs with hMode
    · rw [imp_iff_right hMode, redirected_ok_iff]
    · exact iff_of_true (readString_ok_iff.mpr hLess.le) fun h => absurd h hMode

/-! ## Records -/

/-- A record that is read to its end: its redirects lead to a text, and each text is
in the data. -/
inductive Readable (db : QQwry) : Nat → Prop where
  | short (off : Nat) (hShort : db.data.length < off + 4) : Readable db off
  | redirect (off : Nat) (hLong : off + 4 ≤ db.data.length) (hMode : db.data[off]? = some 1)
      (hRest : Readable db (db.u24 (off + 1))) : Readable db off
  | country (off : Nat) (hLong : off + 4 ≤ db.data.length) (hMode : db.data[off]? = some 2)
      (hCountry : db.u24 (off + 1) ≤ db.data.length) (hArea : db.AreaOk (off + 4)) : Readable db off
  | text (off : Nat) (mode : UInt8) (hLong : off + 4 ≤ db.data.length)
      (hMode : db.data[off]? = some mode) (hPlain : mode ≠ 1 ∧ mode ≠ 2)
      (hArea : db.AreaOk (off + 1 + mode.toNat)) : Readable db off

/-- No record of a set whose records all redirect within it is ever read. -/
theorem not_readable_of_cycle {records : Nat → Prop} (hInside : ∀ off, records off → off + 4 ≤ db.data.length)
    (hRedirect : ∀ off, records off → db.data[off]? = some 1 ∧ records (db.u24 (off + 1)))
    (h : records off) : ¬db.Readable off := by
  intro hReadable
  induction hReadable with
  | short off hShort =>
      have := hInside off h
      omega
  | redirect off _ _ _ ih => exact ih (hRedirect off h).2
  | country off _ hMode =>
      rw [(hRedirect off h).1] at hMode
      exact absurd hMode (by decide)
  | text off mode _ hMode hPlain =>
      rw [(hRedirect off h).1] at hMode
      exact hPlain.1 (Option.some.inj hMode).symm

/-- Two texts, read one after the other. -/
theorem pair_ok_iff {α β : Type} {x : Result α} {y : Result β} :
    (∃ p, (x >>= fun a => y >>= fun b => .ok (a, b)) = .ok p) ↔ (∃ a, x = .ok a) ∧ ∃ b, y = .ok b := by
  simp only [Exec.bind_eq_ok_iff]
  constructor
  · rintro ⟨p, a, hx, b, hy, -⟩
    exact ⟨⟨a, hx⟩, b, hy⟩
  · rintro ⟨⟨a, hx⟩, b, hy⟩
    exact ⟨(a, b), a, hx, b, hy, rfl⟩

/-- A redirect of the first kind leads to another record, one step deeper. -/
theorem countryArea_redirect {depth : Nat} (hLong : off + 4 ≤ db.data.length)
    (hMode : db.data[off]? = some 1) :
    db.countryArea gbk (depth + 1) off = db.countryArea gbk depth (db.u24 (off + 1)) := by
  have hInside : off + 1 + 3 ≤ db.data.length := by omega
  obtain ⟨redirect, hRead, hValue⟩ := db.readU24_ok hInside
  have hIdx : (idx db.data off : Result UInt8) = .ok 1 := idx_eq_ok_iff.mpr hMode
  rw [countryArea, if_neg (by omega), hIdx]
  simp only [if_true, hRead, hValue]

/-- A redirect of the second kind leads to the text of the country, and the area is behind
it. -/
theorem countryArea_country {depth : Nat} (hLong : off + 4 ≤ db.data.length)
    (hMode : db.data[off]? = some 2) :
    (∃ texts, db.countryArea gbk (depth + 1) off = some (.ok texts)) ↔
      db.u24 (off + 1) ≤ db.data.length ∧ db.AreaOk (off + 4) := by
  have hInside : off + 1 + 3 ≤ db.data.length := by omega
  obtain ⟨redirect, hRead, hValue⟩ := db.readU24_ok hInside
  have hIdx : (idx db.data off : Result UInt8) = .ok 2 := idx_eq_ok_iff.mpr hMode
  rw [countryArea, if_neg (by omega), hIdx]
  simp only [show (2 : UInt8) ≠ 1 by decide, if_true, if_false, hRead, Exec.ok_bind, Option.some.injEq]
  rw [pair_ok_iff, readString_ok_iff, readArea_ok_iff, hValue]

/-- Without a redirect both texts stand one behind the other. -/
theorem countryArea_text {depth : Nat} {mode : UInt8} (hLong : off + 4 ≤ db.data.length)
    (hMode : db.data[off]? = some mode) (hPlain : mode ≠ 1 ∧ mode ≠ 2) :
    (∃ texts, db.countryArea gbk (depth + 1) off = some (.ok texts)) ↔
      db.AreaOk (off + 1 + mode.toNat) := by
  have hIdx : (idx db.data off : Result UInt8) = .ok mode := idx_eq_ok_iff.mpr hMode
  rw [countryArea, if_neg (by omega), hIdx]
  simp only [hPlain.1, hPlain.2, if_false, Option.some.injEq]
  rw [pair_ok_iff, readString_ok_iff, readArea_ok_iff]
  exact and_iff_right (by omega)

/-- The depth at which a record is read bounds its redirects. -/
theorem countryArea_ok_iff :
    (∃ depth texts, db.countryArea gbk depth off = some (.ok texts)) ↔ db.Readable off := by
  constructor
  · rintro ⟨depth, texts, h⟩
    induction depth generalizing off with
    | zero => cases h
    | succ depth ih =>
        by_cases hShort : db.data.length < off + 4
        · exact .short off hShort
        · have hLong : off + 4 ≤ db.data.length := by omega
          have hMode : db.data[off]? = some db.data[off] := List.getElem?_eq_getElem (by omega)
          generalize db.data[off] = mode at hMode
          by_cases hOne : mode = 1
          · subst hOne
            rw [countryArea_redirect hLong hMode] at h
            exact .redirect off hLong hMode (ih h)
          · by_cases hTwo : mode = 2
            · subst hTwo
              obtain ⟨hCountry, hArea⟩ := (countryArea_country hLong hMode).mp ⟨texts, h⟩
              exact .country off hLong hMode hCountry hArea
            · have hArea := (countryArea_text hLong hMode ⟨hOne, hTwo⟩).mp ⟨texts, h⟩
              exact .text off mode hLong hMode ⟨hOne, hTwo⟩ hArea
  · intro h
    induction h with
    | short off hShort => exact ⟨1, ([], []), by rw [countryArea, if_pos hShort]⟩
    | redirect off hLong hMode hRest ih =>
        obtain ⟨depth, texts, h⟩ := ih
        exact ⟨depth + 1, texts, by rw [countryArea_redirect hLong hMode, h]⟩
    | country off hLong hMode hCountry hArea =>
        exact ⟨1, (countryArea_country hLong hMode).mpr ⟨hCountry, hArea⟩⟩
    | text off mode hLong hMode hPlain hArea =>
        exact ⟨1, (countryArea_text hLong hMode hPlain).mpr hArea⟩

/-! ## The search -/

/-- The offset of an entry, whether or not it fits into 32 bits. -/
def offset (db : QQwry) (m : Nat) : Nat := db.firstIdx.toNat + 7 * m

/-- The start that an entry has for the search. -/
def startIp (db : QQwry) (m : Nat) : UInt32 :=
  if db.data.length < db.offset m + 4 then UInt32.ofNat (2 ^ 32 - 1)
  else UInt32.fromLeBytes ((db.data.drop (db.offset m)).take 4)

/-- The range of the entry starts at the address or below it. -/
def startsBy (db : QQwry) (ip : UInt32) (m : Nat) : Bool := db.startIp m ≤ ip

/-- The entry at an offset within 32 bits has its first address there. -/
theorem indexStartIp_ok {m : Nat} (h : db.offset m < 2 ^ 32) :
    db.indexStartIp m = .ok (db.startIp m) := by
  rw [offset] at h
  rw [indexStartIp, u32_of_lt (by omega), Exec.ok_bind, u32_toNat (by omega),
    u32_of_lt (by omega), Exec.ok_bind, u32_toNat (by omega), startIp, offset, Nat.mul_comm m]
  split_ifs <;> rfl

/-- An offset beyond 32 bits overflows, and unwinds. -/
theorem indexStartIp_panicked {m : Nat} (h : 2 ^ 32 ≤ db.offset m) :
    db.indexStartIp m = .panicked := by
  rw [offset] at h
  rw [indexStartIp]
  rcases Nat.lt_or_ge (m * 7) (2 ^ 32) with hEntries | hEntries
  · rw [u32_of_lt hEntries, Exec.ok_bind, u32_toNat hEntries, u32_of_le (by omega),
      Exec.panicked_bind]
  · rw [u32_of_le hEntries, Exec.panicked_bind]

/-- One turn of the loop, the interval being that from `lo` up to in front of `stop`. -/
theorem search_turn {ip : UInt32} {lo stop : Nat} (h : lo < stop)
    (hFits : db.offset (middle lo stop) < 2 ^ 32) (found : Option Nat) :
    db.search ip lo (stop - 1) found =
      if db.startsBy ip (middle lo stop) then
        db.search ip (middle lo stop + 1) (stop - 1) (some (middle lo stop))
      else if middle lo stop = 0 then .panicked
      else db.search ip lo (middle lo stop - 1) found := by
  have hNext : middle lo stop + 1 < 2 ^ 32 := by
    rw [offset] at hFits
    omega
  have hMiddle : lo + (stop - 1 - lo) / 2 = middle lo stop := rfl
  rw [search, dif_pos (by omega)]
  simp only [hMiddle, indexStartIp_ok hFits, hNext, if_true, startsBy, decide_eq_true_eq, dite_eq_ite]

theorem search_outside {ip : UInt32} {lo stop : Nat} (h : lo < stop)
    (hFits : 2 ^ 32 ≤ db.offset (middle lo stop)) (found : Option Nat) :
    db.search ip lo (stop - 1) found = .panicked := by
  have hMiddle : lo + (stop - 1 - lo) / 2 = middle lo stop := rfl
  rw [search, dif_pos (by omega)]
  simp only [hMiddle, indexStartIp_panicked hFits]

theorem search_empty {ip : UInt32} {lo stop : Nat} (h : ¬lo < stop) (hStop : 0 < stop)
    (found : Option Nat) : db.search ip lo (stop - 1) found = .ok found := by
  rw [search, dif_neg (by omega)]

/-- The first entry, where the search may step below it, is always taken. -/
theorem middle_ne_zero {ip : UInt32} {lo stop : Nat} (hZero : lo = 0 → db.startsBy ip 0 = true)
    (h : lo < stop) (hRefused : db.startsBy ip (middle lo stop) = false) : middle lo stop ≠ 0 := by
  intro hMiddle
  have hBounds := middle_bounds h
  rw [hMiddle, hZero (by omega)] at hRefused
  cases hRefused

/-- Where the offsets that it forms fit, the loop of the source finds what halving finds. -/
theorem search_ok {ip : UInt32} {lo stop : Nat} (hStop : 0 < stop)
    (hZero : lo = 0 → db.startsBy ip 0 = true)
    (hFits : ∀ m, Visits (db.startsBy ip) lo stop m → db.offset m < 2 ^ 32) (found : Option Nat) :
    db.search ip lo (stop - 1) found = .ok (find (db.startsBy ip) lo stop found) := by
  induction lo, stop using halving (db.startsBy ip) generalizing found with
  | empty lo stop h => rw [search_empty h hStop, find_empty h]
  | right lo stop h hAccepted ih =>
      rw [search_turn h (hFits _ (.here lo stop h)), if_pos hAccepted, find_right h hAccepted]
      exact ih hStop (fun h => absurd h (by omega))
        (fun m hVisits => hFits m (.right lo stop m h hAccepted hVisits)) _
  | left lo stop h hRefused ih =>
      have hMiddle := middle_ne_zero hZero h hRefused
      rw [search_turn h (hFits _ (.here lo stop h)), if_neg (by simp [hRefused]), if_neg hMiddle,
        find_left h hRefused]
      exact ih (Nat.pos_of_ne_zero hMiddle) hZero
        (fun m hVisits => hFits m (.left lo stop m h hRefused hVisits)) found

/-- A search that looks at a number whose offset overflows unwinds. -/
theorem search_panicked {ip : UInt32} {lo stop m : Nat} (hVisits : Visits (db.startsBy ip) lo stop m)
    (hZero : lo = 0 → db.startsBy ip 0 = true) (hOutside : 2 ^ 32 ≤ db.offset m)
    (found : Option Nat) : db.search ip lo (stop - 1) found = .panicked := by
  induction hVisits generalizing found with
  | here lo stop h => exact search_outside h hOutside found
  | right lo stop m h hAccepted hRest ih =>
      rcases Nat.lt_or_ge (db.offset (middle lo stop)) (2 ^ 32) with hFits | hFirst
      · rw [search_turn h hFits, if_pos hAccepted]
        exact ih (fun h => absurd h (by omega)) hOutside _
      · exact search_outside h hFirst found
  | left lo stop m h hRefused hRest ih =>
      rcases Nat.lt_or_ge (db.offset (middle lo stop)) (2 ^ 32) with hFits | hFirst
      · rw [search_turn h hFits, if_neg (by simp [hRefused]),
          if_neg (middle_ne_zero hZero h hRefused)]
        exact ih hZero hOutside found
      · exact search_outside h hFirst found

/-! ## The lookup -/

/-- The places that the search of a lookup looks at. -/
def Looks (db : QQwry) (ip : UInt32) (m : Nat) : Prop :=
  Visits (db.startsBy ip) db.firstIdx.toNat (db.lastIdx.toNat + 1) m

/-- The last one of them whose range starts at the address or below it. -/
def Stops (db : QQwry) (ip : UInt32) (j : Nat) : Prop :=
  Last (db.startsBy ip) db.firstIdx.toNat (db.lastIdx.toNat + 1) j

/-- The offset that stands in an entry. -/
def recordOffset (db : QQwry) (m : Nat) : Nat := db.u24 (db.offset m + 4)

/-- A file that starts with zeros has a first entry that starts at zero. -/
theorem startsBy_zero {data : Bytes} (hLoad : load data = .ok db) (ip : UInt32)
    (h : db.firstIdx.toNat = 0) : db.startsBy ip 0 = true := by
  rw [load] at hLoad
  split_ifs at hLoad with hShort
  cases hLoad
  have hFirst : UInt32.fromLeBytes (data.take 4) = 0 := UInt32.toNat_inj.mp h
  have hOffset : offset ⟨data, UInt32.fromLeBytes (data.take 4),
      UInt32.fromLeBytes ((data.drop 4).take 4)⟩ 0 = 0 := by
    rw [offset, hFirst]
    rfl
  rw [startsBy, startIp, hOffset, if_neg (by dsimp only; omega), List.drop_zero, hFirst,
    decide_eq_true_eq, UInt32.le_iff_toNat_le]
  exact Nat.zero_le _

/-- A search either looks at such a number, or ends with what halving finds. -/
theorem search_cases {data : Bytes} (hLoad : load data = .ok db) (ip : UInt32) :
    (∃ m, db.Looks ip m ∧ 2 ^ 32 ≤ db.offset m ∧
      db.search ip db.firstIdx.toNat db.lastIdx.toNat none = .panicked) ∨
    (∀ m, db.Looks ip m → db.offset m < 2 ^ 32) ∧
      db.search ip db.firstIdx.toNat db.lastIdx.toNat none =
        .ok (find (db.startsBy ip) db.firstIdx.toNat (db.lastIdx.toNat + 1) none) := by
  by_cases hFits : ∀ m, db.Looks ip m → db.offset m < 2 ^ 32
  · exact Or.inr ⟨hFits, search_ok (Nat.succ_pos _) (startsBy_zero hLoad ip) hFits none⟩
  · simp only [not_forall, not_lt] at hFits
    obtain ⟨m, hLooks, hOutside⟩ := hFits
    exact Or.inl ⟨m, hLooks, hOutside, search_panicked hLooks (startsBy_zero hLoad ip) hOutside none⟩

theorem indexRecordOffset_eq {m : Nat} (h : db.offset m + 4 < 2 ^ 32) :
    db.indexRecordOffset m = db.readU24 (db.offset m + 4) := by
  rw [offset] at h
  rw [indexRecordOffset, u32_of_lt (by omega), Exec.ok_bind, u32_toNat (by omega), u32_of_lt (by omega),
    Exec.ok_bind, u32_toNat (by omega), u32_of_lt (by omega), Exec.ok_bind, u32_toNat (by omega), offset,
    Nat.mul_comm m]

/-- The offset of a record is read where it and its entry stand in the data. -/
theorem indexRecordOffset_ok {m : Nat} (hFits : db.offset m + 4 < 2 ^ 32)
    (hInside : db.offset m + 7 ≤ db.data.length) :
    ∃ x : UInt32, db.indexRecordOffset m = .ok x ∧ x.toNat = db.recordOffset m := by
  rw [indexRecordOffset_eq hFits]
  exact readU24_ok (by omega)

/-- Elsewhere it overflows or ends behind the data, and the lookup unwinds. -/
theorem indexRecordOffset_panicked {m : Nat} (hEntry : db.offset m < 2 ^ 32)
    (h : 2 ^ 32 ≤ db.offset m + 4 ∨ db.data.length < db.offset m + 7) :
    db.indexRecordOffset m = .panicked := by
  rcases Nat.lt_or_ge (db.offset m + 4) (2 ^ 32) with hFits | hOutside
  · rw [indexRecordOffset_eq hFits]
    exact readU24_panicked (by omega)
  · rw [offset] at hEntry hOutside
    rw [indexRecordOffset, u32_of_lt (by omega), Exec.ok_bind, u32_toNat (by omega),
      u32_of_lt (by omega), Exec.ok_bind, u32_toNat (by omega), u32_of_le (by omega), Exec.panicked_bind]

/-- What a lookup needs of the file to end with a result. -/
structure Sound (db : QQwry) (ip : UInt32) : Prop where
  fits : ∀ m, db.Looks ip m → db.offset m < 2 ^ 32
  entry : ∀ j, db.Stops ip j → db.offset j + 4 < 2 ^ 32 ∧ db.offset j + 7 ≤ db.data.length ∧
    db.Readable (db.recordOffset j)

/-- A lookup that finds an entry reads its record. -/
theorem lookup_entry {depth j : Nat} {ip : Ipv4Addr}
    (hSearch : db.search ip.toU32 db.firstIdx.toNat db.lastIdx.toNat none = .ok (some j))
    (hFits : db.offset j + 4 < 2 ^ 32) (hInside : db.offset j + 7 ≤ db.data.length) :
    db.lookup gbk depth ip = (db.countryArea gbk depth (db.recordOffset j)).map fun texts =>
      texts >>= fun t => .ok (some t) := by
  obtain ⟨x, hOffset, hValue⟩ := indexRecordOffset_ok hFits hInside
  rw [lookup, hSearch]
  simp only [hOffset, hValue]

/-- Behind its search a lookup ends exactly if the entry and its record can be read. -/
theorem lookup_entry_ok_iff {depth j : Nat} {ip : Ipv4Addr} {r : Option (Str × Str)}
    (hSearch : db.search ip.toU32 db.firstIdx.toNat db.lastIdx.toNat none = .ok (some j))
    (hEntry : db.offset j < 2 ^ 32) :
    db.lookup gbk depth ip = some (.ok r) ↔ db.offset j + 4 < 2 ^ 32 ∧ db.offset j + 7 ≤ db.data.length ∧
      ∃ texts, db.countryArea gbk depth (db.recordOffset j) = some (.ok texts) ∧ r = some texts := by
  by_cases hBounds : db.offset j + 4 < 2 ^ 32 ∧ db.offset j + 7 ≤ db.data.length
  · rw [lookup_entry hSearch hBounds.1 hBounds.2, and_iff_right hBounds.1, and_iff_right hBounds.2,
      Option.map_eq_some_iff]
    constructor
    · rintro ⟨texts, hTexts, hOk⟩
      obtain ⟨t, rfl, hT⟩ := Exec.bind_eq_ok_iff.mp hOk
      cases hT
      exact ⟨t, hTexts, rfl⟩
    · rintro ⟨t, hTexts, rfl⟩
      exact ⟨.ok t, hTexts, rfl⟩
  · have hPanicked := indexRecordOffset_panicked hEntry (by omega)
    rw [lookup, hSearch]
    simp only [hPanicked, Option.some.injEq]
    exact iff_of_false (by simp) fun h => hBounds ⟨h.1, h.2.1⟩

/-- A lookup ends with a result exactly if the offsets that its search forms fit into
32 bits, and the entry that it stops at, if any, and its record stand in the data. -/
theorem lookup_ends_iff {data : Bytes} (hLoad : load data = .ok db) (gbk : Bytes → Str) (ip : Ipv4Addr) :
    (∃ depth r, db.lookup gbk depth ip = some (.ok r)) ↔ db.Sound ip.toU32 := by
  rcases search_cases hLoad ip.toU32 with ⟨m, hLooks, hOutside, hSearch⟩ | ⟨hFits, hSearch⟩
  · refine iff_of_false ?_ fun h => ?_
    · rintro ⟨depth, r, h⟩
      rw [lookup, hSearch] at h
      cases h
    · have := h.fits m hLooks
      omega
  · cases hFind : find (db.startsBy ip.toU32) db.firstIdx.toNat (db.lastIdx.toNat + 1) none with
    | none =>
        refine iff_of_true ⟨0, none, by rw [lookup, hSearch, hFind]⟩ ⟨hFits, fun j hStops => ?_⟩
        exact absurd (find_eq_none_iff.mp hFind) hStops.not_refused
    | some j =>
        have hStops : db.Stops ip.toU32 j := find_eq_some_iff.mp hFind
        rw [hFind] at hSearch
        simp only [lookup_entry_ok_iff hSearch (hFits j hStops.visits)]
        constructor
        · rintro ⟨depth, r, hOffset, hInside, texts, hTexts, -⟩
          refine ⟨hFits, fun i hStops' => ?_⟩
          obtain rfl := Option.some.inj ((find_eq_some_iff.mpr hStops').symm.trans hFind)
          exact ⟨hOffset, hInside, countryArea_ok_iff.mp ⟨depth, texts, hTexts⟩⟩
        · intro hSound
          obtain ⟨hOffset, hInside, hReadable⟩ := hSound.entry j hStops
          obtain ⟨depth, texts, hTexts⟩ := (@countryArea_ok_iff gbk _ _).mpr hReadable
          exact ⟨depth, some texts, hOffset, hInside, texts, hTexts, rfl⟩

/-! ## Two files -/

/-- A header, an index of twelve ranges, each of a first octet, and three records: two
texts, a country that is written in the first record, and a redirect to that one. -/
def locations : Bytes :=
  [8, 0, 0, 0, 85, 0, 0, 0] ++
    (List.range 12).flatMap (fun i => [0, 0, 0, UInt8.ofNat i, UInt8.ofNat (92 + 7 * (i % 3)), 0, 0]) ++
    [3, 0x43, 0x4E, 0, 0x42, 0x4A, 0] ++ [2, 93, 0, 0, 0x53, 0x48, 0] ++ [1, 92, 0, 0]

/-- The file as it is loaded. -/
def locationDb : QQwry := ⟨locations, 8, 85⟩

/-- ASCII texts are their own bytes in GBK. -/
def asciiText (bytes : Bytes) : Str := bytes.map fun b => Char.ofNat b.toNat

/-- An address of the eleventh range. -/
def tenth : Ipv4Addr := ⟨10, 9, 9, 9⟩

theorem load_locations : load locations = .ok locationDb := by rfl

/-- The way of a search that goes to the left until it is in the index. -/
theorem visits_tenth {accepts : Nat → Bool} {m : Nat}
    (hSides : [46, 26, 16, 11, 9].map accepts = [false, false, false, false, true])
    (h : Visits accepts 8 86 m) : m = 46 ∨ m = 26 ∨ m = 16 ∨ m = 11 ∨ m = 9 ∨ m = 10 := by
  simp only [List.map_cons, List.map_nil, List.cons.injEq] at hSides
  obtain ⟨h46, h26, h16, h11, h9, -⟩ := hSides
  rw [visits_left (by decide) h46] at h
  refine h.imp_right fun h => ?_
  rw [visits_left (by decide) h26] at h
  refine h.imp_right fun h => ?_
  rw [visits_left (by decide) h16] at h
  refine h.imp_right fun h => ?_
  rw [visits_left (by decide) h11] at h
  refine h.imp_right fun h => ?_
  rw [visits_right (by decide) h9] at h
  refine h.imp_right fun h => ?_
  have hBounds : 10 ≤ m ∧ m < 11 := h.bounds
  omega

theorem readable_locations : ∀ i < 12, locationDb.Readable (locationDb.recordOffset i) := by
  have hTexts : locationDb.Readable 92 := by
    refine .text 92 3 (by decide) rfl (by decide) fun mode hMode hRedirect => ?_
    obtain rfl := Option.some.inj hMode
    exact absurd hRedirect (by decide)
  have hCountry : locationDb.Readable 99 := by
    refine .country 99 (by decide) rfl (by decide) fun mode hMode hRedirect => ?_
    obtain rfl := Option.some.inj hMode
    exact absurd hRedirect (by decide)
  have hRedirect : locationDb.Readable 106 := .redirect 106 (by decide) rfl hTexts
  have hOffsets : ∀ i < 12, locationDb.recordOffset i = 92 ∨ locationDb.recordOffset i = 99 ∨
      locationDb.recordOffset i = 106 := by
    decide +kernel
  intro i hi
  rcases hOffsets i hi with h | h | h <;> rw [h]
  · exact hTexts
  · exact hCountry
  · exact hRedirect

/-- In a file with twelve entries and a redirect, an address of the eleventh range is
looked up to its end. -/
theorem lookup_ends_tenth : load locations = .ok locationDb ∧
    ∃ depth r, locationDb.lookup asciiText depth tenth = some (.ok r) := by
  refine ⟨load_locations, (lookup_ends_iff load_locations _ _).mpr ⟨fun m hLooks => ?_, fun j hStops => ?_⟩⟩
  · rcases visits_tenth (by decide +kernel) hLooks with rfl | rfl | rfl | rfl | rfl | rfl <;> decide
  · have hAccepted := hStops.accepted
    rcases visits_tenth (by decide +kernel) hStops.visits with rfl | rfl | rfl | rfl | rfl | rfl
    · exact absurd hAccepted (by decide +kernel)
    · exact absurd hAccepted (by decide +kernel)
    · exact absurd hAccepted (by decide +kernel)
    · exact absurd hAccepted (by decide +kernel)
    · exact ⟨by decide, by decide, readable_locations 9 (by decide)⟩
    · exact ⟨by decide, by decide, readable_locations 10 (by decide)⟩

/-- An index at the end of the file. -/
def emptyFile : Bytes := [8, 0, 0, 0, 8, 0, 0, 0]

/-- The file as it is loaded. -/
def emptyDb : QQwry := ⟨emptyFile, 8, 8⟩

/-- For the last address the search stops at an entry that is behind the data, and the
lookup unwinds when it reads it. -/
theorem not_lookup_ends : ¬∀ (gbk : Bytes → Str) data db ip, load data = .ok db →
    ∃ depth r, db.lookup gbk depth ip = some (.ok r) := by
  intro h
  obtain ⟨depth, r, hLookup⟩ := h (fun _ => []) emptyFile emptyDb ⟨255, 255, 255, 255⟩ (by rfl)
  have hSearch : emptyDb.search (UInt32.ofNat (2 ^ 32 - 1)) 8 8 none = .ok (some 8) := by
    have hTurn : emptyDb.search (UInt32.ofNat (2 ^ 32 - 1)) 8 (9 - 1) none = _ :=
      search_turn (by decide) (by decide) none
    rw [if_pos (by decide)] at hTurn
    have hDone : emptyDb.search (UInt32.ofNat (2 ^ 32 - 1)) 9 (9 - 1) (some 8) = .ok (some 8) :=
      search_empty (by decide) (by decide) _
    exact hTurn.trans hDone
  have hInside := ((lookup_entry_ok_iff hSearch (by decide)).mp hLookup).2.1
  exact absurd hInside (by decide)

end QQwry

end Dnsd.Resolve

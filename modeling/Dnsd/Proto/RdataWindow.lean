import Dnsd.Proto.WireNames

/-! The bytes that the data of a record is decoded from. Some decoders read through a
cursor over the RDATA alone, others from an offset of the whole message on, and it is
the RDLENGTH of the record that tells the one from the other. -/

namespace Dnsd.Proto

open Bytes Exec

/-! ## The bytes of a name -/

/-- Reading the name at an offset uses a byte of its inline part, or one that is
reached behind the first pointer, which is at `via`. -/
inductive Touches (buf : Bytes) : Nat → Option Nat → Nat → Prop where
  | zero {next : Nat} (hZero : At buf next [0]) : Touches buf next none next
  | label {next off : Nat} {raw : Bytes} (hPositive : 0 < raw.length) (hShort : raw.length ≤ 63)
      (hRaw : At buf next (UInt8.ofNat raw.length :: raw)) (hFirst : next ≤ off)
      (hLast : off < next + 1 + raw.length) : Touches buf next none off
  | rest {next off : Nat} {via : Option Nat} {raw : Bytes} (hPositive : 0 < raw.length)
      (hShort : raw.length ≤ 63) (hRaw : At buf next (UInt8.ofNat raw.length :: raw))
      (hRest : Touches buf (next + 1 + raw.length) via off) : Touches buf next via off
  | pointer {next off : Nat} {high low : UInt8} (hHigh : high &&& 0xC0 = 0xC0)
      (hBytes : At buf next [high, low]) (hFirst : next ≤ off) (hLast : off < next + 2) :
      Touches buf next none off
  | target {next off : Nat} {via : Option Nat} {high low : UInt8} (hHigh : high &&& 0xC0 = 0xC0)
      (hBytes : At buf next [high, low]) (hRest : Touches buf (pointerTarget high low) via off) :
      Touches buf next (some next) off

/-- The byte is in the window, or is reached by a pointer in it. -/
def Within (first last : Nat) (via : Option Nat) (off : Nat) : Prop :=
  match via with
  | none => first ≤ off ∧ off < last
  | some p => first ≤ p ∧ p + 2 ≤ last

/-- What is within a window is within a larger one. -/
theorem Within.mono {first last first' last' off : Nat} {via : Option Nat}
    (h : Within first last via off) (hFirst : first' ≤ first) (hLast : last ≤ last') :
    Within first' last' via off := by
  cases via with
  | none => exact ⟨Nat.le_trans hFirst h.1, Nat.lt_of_lt_of_le h.2 hLast⟩
  | some p => exact ⟨Nat.le_trans hFirst h.1, Nat.le_trans h.2 hLast⟩

/-- What reading a name uses is in its inline part, or reached by a pointer in it. -/
theorem NameAt.within {buf : Bytes} {turns next stop off : Nat} {labels : List Bytes}
    {via : Option Nat} (h : NameAt buf turns next labels stop) (hTouches : Touches buf next via off) :
    Within next stop via off := by
  induction h generalizing via off with
  | root hZero =>
      cases hTouches with
      | zero => exact ⟨Nat.le_refl _, Nat.lt_succ_self _⟩
      | label hPositive hShort hRaw => exact (not_label_of_zero hZero hPositive hShort hRaw).elim
      | rest hPositive hShort hRaw => exact (not_label_of_zero hZero hPositive hShort hRaw).elim
      | pointer hHigh hBytes => exact (not_pointer_of_zero hZero hHigh hBytes).elim
      | target hHigh hBytes => exact (not_pointer_of_zero hZero hHigh hBytes).elim
  | label hPositive hShort hRaw hRest ih =>
      cases hTouches with
      | zero hZero => exact (not_label_of_zero hZero hPositive hShort hRaw).elim
      | label _ hShort' hRaw' hFirst hLast =>
          obtain rfl := label_unique hShort hShort' hRaw hRaw'
          exact ⟨hFirst, Nat.lt_trans hLast hRest.lt⟩
      | rest _ hShort' hRaw' hTouches =>
          obtain rfl := label_unique hShort hShort' hRaw hRaw'
          exact (ih hTouches).mono (by omega) (Nat.le_refl _)
      | pointer hHigh hBytes => exact (not_pointer_of_label hShort hRaw hHigh hBytes).elim
      | target hHigh hBytes => exact (not_pointer_of_label hShort hRaw hHigh hBytes).elim
  | pointer hHigh hBytes hRest ih =>
      cases hTouches with
      | zero hZero => exact (not_pointer_of_zero hZero hHigh hBytes).elim
      | label _ hShort hRaw => exact (not_pointer_of_label hShort hRaw hHigh hBytes).elim
      | rest _ hShort hRaw => exact (not_pointer_of_label hShort hRaw hHigh hBytes).elim
      | pointer _ _ hFirst hLast => exact ⟨hFirst, hLast⟩
      | target => exact ⟨Nat.le_refl _, Nat.le_refl _⟩

/-- The bytes that are used decide what is read. -/
theorem NameAt.congr {buf buf' : Bytes} {turns next stop : Nat} {labels : List Bytes}
    (h : NameAt buf turns next labels stop)
    (hSame : ∀ via off, Touches buf next via off → buf'[off]? = buf[off]?) :
    NameAt buf' turns next labels stop := by
  induction h with
  | root hZero =>
      refine .root (hZero.congr fun i hFirst hLast => ?_)
      obtain rfl := Nat.le_antisymm (Nat.le_of_lt_succ hLast) hFirst
      exact hSame none _ (.zero hZero)
  | label hPositive hShort hRaw _ ih =>
      refine .label hPositive hShort (hRaw.congr fun i hFirst hLast => ?_) ?_
      · rw [List.length_cons] at hLast
        exact hSame none i (.label hPositive hShort hRaw hFirst (by omega))
      · exact ih fun via off h => hSame via off (.rest hPositive hShort hRaw h)
  | pointer hHigh hBytes _ ih =>
      have hRest := ih fun via off h => hSame _ off (.target hHigh hBytes h)
      exact .pointer hHigh (hBytes.congr fun i hFirst hLast =>
        hSame none i (.pointer hHigh hBytes hFirst hLast)) hRest

/-- A name is read alike from two messages that agree on what it touches. -/
theorem readName_congr {buf buf' : Bytes} {next stop : Nat} {name : Str}
    (h : readName buf next = .ok (name, stop))
    (hSame : ∀ via off, Touches buf next via off → buf'[off]? = buf[off]?) :
    readName buf' next = .ok (name, stop) := by
  obtain ⟨turns, raws, hName, hTurns, hText⟩ := readName_eq_ok_iff.mp h
  exact readName_eq_ok_iff.mpr ⟨turns, raws, hName.congr hSame, hTurns, hText⟩

/-! ## The bytes of the data -/

/-- The data has a name in it, which may be read from anywhere in the message. -/
def RdataKind.Named (kind : RdataKind) : Prop :=
  kind = .name ∨ kind = .mx ∨ kind = .soa ∨ kind = .srv ∨ kind = .rrsig ∨ kind = .nsec

/-- A field without a length of its own is behind the name. -/
def RdataKind.Tailed (kind : RdataKind) : Prop := kind = .rrsig ∨ kind = .nsec

/-- The bytes in front of the first name. -/
def RdataKind.fixedSize : RdataKind → Nat
  | .mx => 2
  | .srv => 6
  | .rrsig => 18
  | _ => 0

/-- A name is at an offset, and its inline part ends there. -/
def NameSpan (buf : Bytes) (next stop : Nat) : Prop :=
  ∃ turns labels, NameAt buf turns next labels stop

namespace NameSpan

variable {buf : Bytes} {next stop stop' off : Nat} {via : Option Nat}

theorem unique (h : NameSpan buf next stop) (h' : NameSpan buf next stop') : stop = stop' := by
  obtain ⟨_, _, hName⟩ := h
  obtain ⟨_, _, hName'⟩ := h'
  exact (hName.unique hName').2.2

theorem lt (h : NameSpan buf next stop) : next < stop := by
  obtain ⟨_, _, hName⟩ := h
  exact hName.lt

/-- A name touches its span and what its pointers lead to, and nothing else. -/
theorem within (h : NameSpan buf next stop) (hTouches : Touches buf next via off) :
    Within next stop via off := by
  obtain ⟨_, _, hName⟩ := h
  exact hName.within hTouches

/-- Every name that is read has a span. -/
theorem of_readName {name : Str} (h : readName buf next = .ok (name, stop)) :
    NameSpan buf next stop := by
  obtain ⟨turns, raws, hName, -, -⟩ := readName_eq_ok_iff.mp h
  exact ⟨turns, raws, hName⟩

end NameSpan

/-- The end of the names and the fixed fields of the data. -/
def FieldsEnd (buf : Bytes) (start : Nat) (kind : RdataKind) (stop : Nat) : Prop :=
  if kind = .soa then ∃ mid last, NameSpan buf start mid ∧ NameSpan buf mid last ∧ stop = last + 20
  else NameSpan buf (start + kind.fixedSize) stop

/-- Decoding the data uses a byte, itself or behind the pointer at `via`. -/
inductive Uses (buf : Bytes) (start len : Nat) (kind : RdataKind) : Option Nat → Nat → Prop where
  | fixed {off : Nat} (hFirst : start ≤ off) (hLast : off < start + kind.fixedSize) :
      Uses buf start len kind none off
  | name {via : Option Nat} {off : Nat} (hNamed : kind.Named)
      (hTouches : Touches buf (start + kind.fixedSize) via off) : Uses buf start len kind via off
  | second {via : Option Nat} {mid off : Nat} (hKind : kind = .soa) (hName : NameSpan buf start mid)
      (hTouches : Touches buf mid via off) : Uses buf start len kind via off
  | numbers {mid last off : Nat} (hKind : kind = .soa) (hName : NameSpan buf start mid)
      (hSecond : NameSpan buf mid last) (hFirst : last ≤ off) (hLast : off < last + 20) :
      Uses buf start len kind none off
  | tail {stop off : Nat} (hTailed : kind.Tailed) (hEnd : FieldsEnd buf start kind stop)
      (hFirst : stop ≤ off) (hLast : off < start + len) : Uses buf start len kind none off
  | window {off : Nat} (hNamed : ¬kind.Named) (hFirst : start ≤ off) (hLast : off < start + len) :
      Uses buf start len kind none off

/-- The data of the record stays in its window: what is used is in it or behind a
pointer in it, the fields end in it, and fill it where no other one follows. That
all that is used is listed shows in a buffer with other bytes elsewhere. -/
structure Windowed (buf : Bytes) (start len : Nat) (rtype : UInt16) : Prop where
  bytes : ∀ via off, Uses buf start len (rdataKind rtype) via off → Within start (start + len) via off
  ends : (rdataKind rtype).Named → ∀ stop, FieldsEnd buf start (rdataKind rtype) stop →
    stop ≤ start + len
  whole : (rdataKind rtype).Named → ¬(rdataKind rtype).Tailed →
    ∀ stop, FieldsEnd buf start (rdataKind rtype) stop → stop = start + len
  decides : ∀ buf' : Bytes, buf'.length = buf.length →
    (∀ via off, Uses buf start len (rdataKind rtype) via off → buf'[off]? = buf[off]?) →
    parseRdata buf' start len rtype = parseRdata buf start len rtype

/-- But for SOA the fields end where the one name ends, behind the fixed ones. -/
theorem fieldsEnd_iff {buf : Bytes} {start stop : Nat} {kind : RdataKind} (h : kind ≠ .soa) :
    FieldsEnd buf start kind stop ↔ NameSpan buf (start + kind.fixedSize) stop := by
  rw [FieldsEnd, if_neg h]

/-- The fields of a record end at one place. -/
theorem FieldsEnd.unique {buf : Bytes} {start stop stop' : Nat} {kind : RdataKind}
    (h : FieldsEnd buf start kind stop) (h' : FieldsEnd buf start kind stop') : stop = stop' := by
  rw [FieldsEnd] at h h'
  split_ifs at h h'
  · obtain ⟨mid, last, hFirst, hSecond, rfl⟩ := h
    obtain ⟨mid', last', hFirst', hSecond', rfl⟩ := h'
    obtain rfl := hFirst.unique hFirst'
    rw [hSecond.unique hSecond']
  · exact h.unique h'

/-! ## What is used decides -/

section Same

variable {buf buf' : Bytes} {start len : Nat}

theorem slice_congr {first last : Nat} (hLength : buf'.length = buf.length)
    (hSame : ∀ i, first ≤ i → i < last → buf'[i]? = buf[i]?) :
    (slice buf' first last : Result Bytes) = slice buf first last := by
  have hBytes : (buf'.take last).drop first = (buf.take last).drop first := by
    apply List.ext_getElem?
    intro i
    rw [List.getElem?_drop, List.getElem?_drop, List.getElem?_take, List.getElem?_take]
    split_ifs with hLast
    · exact hSame _ (Nat.le_add_right _ _) hLast
    · rfl
  rw [slice, slice, hLength, hBytes]

theorem idx_congr {i : Nat} (h : buf'[i]? = buf[i]?) : (idx buf' i : Result UInt8) = idx buf i := by
  rw [idx, idx, h]

/-- A read of so many bytes, which decide what is read. -/
def CursorReads {α : Type} (read : Cursor → Result (α × Cursor)) (n : Nat) : Prop :=
  ∀ {w : Bytes} {p : Nat} {v : α} {c : Cursor}, read ⟨w, p⟩ = .ok (v, c) →
    c = ⟨w, p + n⟩ ∧ ∀ w' : Bytes, w'.length = w.length →
      (∀ i, p ≤ i → i < p + n → w'[i]? = w[i]?) → read ⟨w', p⟩ = .ok (v, ⟨w', p + n⟩)

theorem cursorReads_u8 : CursorReads Cursor.u8 1 := by
  intro w p v c h
  rw [Cursor.u8, Cursor.remaining] at h
  split_ifs at h with hRoom
  obtain ⟨b0, h0, h⟩ := bind_eq_ok_iff.mp h
  cases h
  dsimp only at hRoom h0
  refine ⟨rfl, fun w' hLength hSame => ?_⟩
  rw [Cursor.u8, Cursor.remaining, if_neg (by dsimp only; omega)]
  dsimp only
  rw [idx_congr (hSame p (by omega) (by omega)), h0]
  rfl

theorem cursorReads_u16 : CursorReads Cursor.u16 2 := by
  intro w p v c h
  rw [Cursor.u16, Cursor.remaining] at h
  split_ifs at h with hRoom
  obtain ⟨b0, h0, h⟩ := bind_eq_ok_iff.mp h
  obtain ⟨b1, h1, h⟩ := bind_eq_ok_iff.mp h
  cases h
  dsimp only at hRoom h0 h1
  refine ⟨rfl, fun w' hLength hSame => ?_⟩
  rw [Cursor.u16, Cursor.remaining, if_neg (by dsimp only; omega)]
  dsimp only
  rw [idx_congr (hSame p (by omega) (by omega)), h0, ok_bind,
    idx_congr (hSame (p + 1) (by omega) (by omega)), h1]
  rfl

theorem cursorReads_u32 : CursorReads Cursor.u32 4 := by
  intro w p v c h
  rw [Cursor.u32, Cursor.remaining] at h
  split_ifs at h with hRoom
  obtain ⟨b0, h0, h⟩ := bind_eq_ok_iff.mp h
  obtain ⟨b1, h1, h⟩ := bind_eq_ok_iff.mp h
  obtain ⟨b2, h2, h⟩ := bind_eq_ok_iff.mp h
  obtain ⟨b3, h3, h⟩ := bind_eq_ok_iff.mp h
  cases h
  dsimp only at hRoom h0 h1 h2 h3
  refine ⟨rfl, fun w' hLength hSame => ?_⟩
  rw [Cursor.u32, Cursor.remaining, if_neg (by dsimp only; omega)]
  dsimp only
  rw [idx_congr (hSame p (by omega) (by omega)), h0, ok_bind,
    idx_congr (hSame (p + 1) (by omega) (by omega)), h1, ok_bind,
    idx_congr (hSame (p + 2) (by omega) (by omega)), h2, ok_bind,
    idx_congr (hSame (p + 3) (by omega) (by omega)), h3]
  rfl

theorem rawU32_congr {p : Nat} (hSame : ∀ i, p ≤ i → i < p + 4 → buf'[i]? = buf[i]?) :
    rawU32 buf' p = rawU32 buf p := by
  rw [rawU32, rawU32, idx_congr (hSame p (by omega) (by omega)),
    idx_congr (hSame (p + 1) (by omega) (by omega)), idx_congr (hSame (p + 2) (by omega) (by omega)),
    idx_congr (hSame (p + 3) (by omega) (by omega))]

end Same

/-! ## The decoders of names -/

section Decoders

variable {buf w : Bytes} {start len : Nat} {d : RData}

/-- The windows have the same length and the same bytes in front. -/
def FrontSame (w w' : Bytes) (n : Nat) : Prop :=
  w'.length = w.length ∧ ∀ i, i < n → w'[i]? = w[i]?

/-- The name at an offset has the same bytes in the other buffer. -/
def NameSame (buf buf' : Bytes) (next : Nat) : Prop :=
  ∀ via off, Touches buf next via off → buf'[off]? = buf[off]?

/-- A name alone reads nothing but its span and what its pointers lead to. -/
theorem parseNameRdata_reads (h : parseNameRdata buf start = .ok d) :
    (∃ stop, NameSpan buf start stop) ∧
      ∀ buf', NameSame buf buf' start → parseNameRdata buf' start = .ok d := by
  obtain ⟨⟨name, stop⟩, hName, h⟩ := bind_eq_ok_iff.mp h
  cases h
  refine ⟨⟨stop, NameSpan.of_readName hName⟩, fun buf' hSame => ?_⟩
  rw [parseNameRdata, readName_congr hName hSame]
  rfl

/-- MX data reads two bytes in front of its name. -/
theorem parseMx_reads (h : parseMx buf start ⟨w, 0⟩ = .ok d) :
    (∃ stop, NameSpan buf (start + 2) stop) ∧
      ∀ buf' w', FrontSame w w' 2 → NameSame buf buf' (start + 2) →
        parseMx buf' start ⟨w', 0⟩ = .ok d := by
  obtain ⟨⟨preference, c⟩, hPreference, h⟩ := bind_eq_ok_iff.mp h
  obtain ⟨⟨exchange, stop⟩, hName, h⟩ := bind_eq_ok_iff.mp h
  cases h
  obtain ⟨-, hSame⟩ := cursorReads_u16 hPreference
  refine ⟨⟨stop, NameSpan.of_readName hName⟩, fun buf' w' ⟨hLength, hFront⟩ hNames => ?_⟩
  rw [parseMx, hSame w' hLength fun i _ hLast => hFront i (by omega), ok_bind]
  dsimp only
  rw [readName_congr hName hNames]
  rfl

/-- SRV data reads six. -/
theorem parseSrv_reads (h : parseSrv buf start ⟨w, 0⟩ = .ok d) :
    (∃ stop, NameSpan buf (start + 6) stop) ∧
      ∀ buf' w', FrontSame w w' 6 → NameSame buf buf' (start + 6) →
        parseSrv buf' start ⟨w', 0⟩ = .ok d := by
  obtain ⟨⟨priority, c1⟩, h1, h⟩ := bind_eq_ok_iff.mp h
  obtain ⟨rfl, hSame1⟩ := cursorReads_u16 h1
  obtain ⟨⟨weight, c2⟩, h2, h⟩ := bind_eq_ok_iff.mp h
  obtain ⟨rfl, hSame2⟩ := cursorReads_u16 h2
  obtain ⟨⟨port, c3⟩, h3, h⟩ := bind_eq_ok_iff.mp h
  obtain ⟨rfl, hSame3⟩ := cursorReads_u16 h3
  obtain ⟨⟨target, stop⟩, hName, h⟩ := bind_eq_ok_iff.mp h
  cases h
  refine ⟨⟨stop, NameSpan.of_readName hName⟩, fun buf' w' ⟨hLength, hFront⟩ hNames => ?_⟩
  have hPart (p n : Nat) (hEnd : p + n ≤ 6) : ∀ i, p ≤ i → i < p + n → w'[i]? = w[i]? :=
    fun i _ hLast => hFront i (by omega)
  rw [parseSrv, hSame1 w' hLength (hPart 0 2 (by omega)), ok_bind]
  dsimp only
  rw [hSame2 w' hLength (hPart 2 2 (by omega)), ok_bind]
  dsimp only
  rw [hSame3 w' hLength (hPart 4 2 (by omega)), ok_bind]
  dsimp only
  rw [readName_congr hName hNames]
  rfl

/-- SOA data reads two names, and twenty bytes behind the second, wherever that ends. -/
theorem parseSoa_reads (h : parseSoa buf start = .ok d) :
    ∃ mid last, NameSpan buf start mid ∧ NameSpan buf mid last ∧
      ∀ buf' : Bytes, NameSame buf buf' start → NameSame buf buf' mid →
        (∀ i, last ≤ i → i < last + 20 → buf'[i]? = buf[i]?) → parseSoa buf' start = .ok d := by
  obtain ⟨⟨mname, mid⟩, hFirst, hRest⟩ := bind_eq_ok_iff.mp h
  obtain ⟨⟨rname, last⟩, hSecond, hNumbers⟩ := bind_eq_ok_iff.mp hRest
  refine ⟨mid, last, NameSpan.of_readName hFirst, NameSpan.of_readName hSecond,
    fun buf' hSame hSame' hTwenty => ?_⟩
  rw [parseSoa, readName_congr hFirst hSame, ok_bind]
  dsimp only
  rw [readName_congr hSecond hSame', ok_bind]
  dsimp only
  rw [rawU32_congr fun i hF hL => hTwenty i (by omega) (by omega),
    rawU32_congr fun i hF hL => hTwenty i (by omega) (by omega),
    rawU32_congr fun i hF hL => hTwenty i (by omega) (by omega),
    rawU32_congr fun i hF hL => hTwenty i (by omega) (by omega),
    rawU32_congr fun i hF hL => hTwenty i (by omega) (by omega)]
  exact hNumbers

/-- NSEC data reads its name and the rest of the window. -/
theorem parseNsec_reads (h : parseNsec buf start len = .ok d) :
    ∃ stop, NameSpan buf start stop ∧ stop ≤ start + len ∧
      ∀ buf' : Bytes, buf'.length = buf.length → NameSame buf buf' start →
        (∀ i, stop ≤ i → i < start + len → buf'[i]? = buf[i]?) → parseNsec buf' start len = .ok d := by
  obtain ⟨⟨name, stop⟩, hName, hRest⟩ := bind_eq_ok_iff.mp h
  obtain ⟨bitmaps, hSlice, hData⟩ := bind_eq_ok_iff.mp hRest
  refine ⟨stop, NameSpan.of_readName hName, (At.of_slice hSlice).2 ▸ Nat.le_add_right _ _,
    fun buf' hLength hSame hTail => ?_⟩
  rw [parseNsec, readName_congr hName hSame, ok_bind]
  dsimp only
  rw [slice_congr hLength hTail]
  exact hRest

/-- RRSIG data reads eighteen bytes, a name and the rest of the window. -/
theorem parseRrsig_reads (h : parseRrsig buf start len ⟨w, 0⟩ = .ok d) :
    ∃ stop, NameSpan buf (start + 18) stop ∧ stop ≤ start + len ∧
      ∀ buf' w' : Bytes, FrontSame w w' 18 → buf'.length = buf.length →
        NameSame buf buf' (start + 18) →
        (∀ i, stop ≤ i → i < start + len → buf'[i]? = buf[i]?) →
        parseRrsig buf' start len ⟨w', 0⟩ = .ok d := by
  obtain ⟨⟨covered, c1⟩, h1, h⟩ := bind_eq_ok_iff.mp h
  obtain ⟨rfl, hSame1⟩ := cursorReads_u16 h1
  obtain ⟨⟨algorithm, c2⟩, h2, h⟩ := bind_eq_ok_iff.mp h
  obtain ⟨rfl, hSame2⟩ := cursorReads_u8 h2
  obtain ⟨⟨labels, c3⟩, h3, h⟩ := bind_eq_ok_iff.mp h
  obtain ⟨rfl, hSame3⟩ := cursorReads_u8 h3
  obtain ⟨⟨originalTtl, c4⟩, h4, h⟩ := bind_eq_ok_iff.mp h
  obtain ⟨rfl, hSame4⟩ := cursorReads_u32 h4
  obtain ⟨⟨expiration, c5⟩, h5, h⟩ := bind_eq_ok_iff.mp h
  obtain ⟨rfl, hSame5⟩ := cursorReads_u32 h5
  obtain ⟨⟨inception, c6⟩, h6, h⟩ := bind_eq_ok_iff.mp h
  obtain ⟨rfl, hSame6⟩ := cursorReads_u32 h6
  obtain ⟨⟨keyTag, c7⟩, h7, h⟩ := bind_eq_ok_iff.mp h
  obtain ⟨rfl, hSame7⟩ := cursorReads_u16 h7
  obtain ⟨⟨signer, stop⟩, hName, h⟩ := bind_eq_ok_iff.mp h
  obtain ⟨signature, hSlice, hData⟩ := bind_eq_ok_iff.mp h
  refine ⟨stop, NameSpan.of_readName hName,
    (At.of_slice hSlice).2 ▸ Nat.le_add_right _ _,
    fun buf' w' ⟨hWindow, hFront⟩ hLength hNames hTail => ?_⟩
  have hPart (p n : Nat) (hEnd : p + n ≤ 18) : ∀ i, p ≤ i → i < p + n → w'[i]? = w[i]? :=
    fun i _ hLast => hFront i (by omega)
  rw [parseRrsig, hSame1 w' hWindow (hPart 0 2 (by omega)), ok_bind]
  dsimp only
  rw [hSame2 w' hWindow (hPart 2 1 (by omega)), ok_bind]
  dsimp only
  rw [hSame3 w' hWindow (hPart 3 1 (by omega)), ok_bind]
  dsimp only
  rw [hSame4 w' hWindow (hPart 4 4 (by omega)), ok_bind]
  dsimp only
  rw [hSame5 w' hWindow (hPart 8 4 (by omega)), ok_bind]
  dsimp only
  rw [hSame6 w' hWindow (hPart 12 4 (by omega)), ok_bind]
  dsimp only
  rw [hSame7 w' hWindow (hPart 16 2 (by omega)), ok_bind]
  dsimp only
  rw [readName_congr hName hNames, ok_bind]
  dsimp only
  rw [slice_congr hLength hTail, hSlice]
  exact hData

end Decoders

/-- Decoders of data without names are given the window alone. -/
theorem parseRdata_closed {buf buf' : Bytes} {start len : Nat} {rtype : UInt16}
    (hNamed : ¬(rdataKind rtype).Named)
    (hSame : (slice buf' start (start + len) : Result Bytes) = slice buf start (start + len)) :
    parseRdata buf' start len rtype = parseRdata buf start len rtype := by
  rw [parseRdata, parseRdata, hSame]
  cases hKind : rdataKind rtype
  all_goals simp only [RdataKind.Named, hKind, reduceCtorEq, or_self, or_true, true_or, not_true,
    not_false_iff] at hNamed
  case raw =>
    dsimp only [parseRaw]
    rw [hSame]
  all_goals rfl

/-- What decoding the data with success says of its fields, and that the bytes which
are used decide the outcome. -/
structure Reads (buf : Bytes) (start len : Nat) (kind : RdataKind) (rtype : UInt16) (d : RData) :
    Prop where
  fields : kind.Named → ∃ stop, FieldsEnd buf start kind stop ∧ (kind.Tailed → stop ≤ start + len)
  decides : ∀ buf' : Bytes, buf'.length = buf.length →
    (∀ via off, Uses buf start len kind via off → buf'[off]? = buf[off]?) →
    parseRdata buf' start len rtype = .ok d

/-- A window with the same fixed bytes in front is there in the other buffer. -/
theorem window_congr {buf buf' w : Bytes} {start len n : Nat}
    (hSlice : (slice buf start (start + len) : Result Bytes) = .ok w)
    (hLength : buf'.length = buf.length)
    (hFixed : ∀ i, start ≤ i → i < start + n → buf'[i]? = buf[i]?) :
    ∃ w', (slice buf' start (start + len) : Result Bytes) = .ok w' ∧ FrontSame w w' n := by
  obtain ⟨hAt, hLen⟩ := At.of_slice hSlice
  have hFits : start + len ≤ buf.length := hLen ▸ hAt.length_le
  refine ⟨_, slice_of_le (Nat.le_add_right _ _) (hLength ▸ hFits), ?_⟩
  rw [slice_of_le (Nat.le_add_right _ _) hFits] at hSlice
  cases hSlice
  refine ⟨by rw [List.length_drop, List.length_drop, List.length_take, List.length_take, hLength],
    fun i hi => ?_⟩
  rw [List.getElem?_drop, List.getElem?_drop, List.getElem?_take, List.getElem?_take,
    hFixed (start + i) (Nat.le_add_right _ _) (Nat.add_lt_add_left hi _)]

/-- Fixed fields and one name, and nothing behind it. -/
theorem Reads.of_span {buf w : Bytes} {start len : Nat} {kind : RdataKind} {rtype : UInt16}
    {d : RData} (hSlice : (slice buf start (start + len) : Result Bytes) = .ok w)
    (hNamed : kind.Named) (hTailed : ¬kind.Tailed) (hSoa : kind ≠ .soa)
    (hSpan : ∃ stop, NameSpan buf (start + kind.fixedSize) stop)
    (hSame : ∀ buf' w', (slice buf' start (start + len) : Result Bytes) = .ok w' →
      FrontSame w w' kind.fixedSize → NameSame buf buf' (start + kind.fixedSize) →
      parseRdata buf' start len rtype = .ok d) : Reads buf start len kind rtype d := by
  obtain ⟨stop, hSpan⟩ := hSpan
  refine ⟨fun _ => ⟨stop, (fieldsEnd_iff hSoa).mpr hSpan, fun h => absurd h hTailed⟩,
    fun buf' hLength hUses => ?_⟩
  obtain ⟨w', hSlice', hFront⟩ := window_congr hSlice hLength fun i hFirst hLast =>
    hUses none i (.fixed hFirst hLast)
  exact hSame buf' w' hSlice' hFront fun via off hTouches => hUses via off (.name hNamed hTouches)

theorem not_tailed {kind : RdataKind} (hRrsig : kind ≠ .rrsig) (hNsec : kind ≠ .nsec) :
    ¬kind.Tailed := by
  rintro (hKind | hKind)
  · exact hRrsig hKind
  · exact hNsec hKind

/-- Data of any type reads no more than is said of its kind. -/
theorem parseRdata_reads {buf : Bytes} {start len : Nat} {rtype : UInt16} {d : RData}
    (h : parseRdata buf start len rtype = .ok d) : Reads buf start len (rdataKind rtype) rtype d := by
  by_cases hNamed : (rdataKind rtype).Named
  · rw [parseRdata] at h
    obtain ⟨w, hSlice, h⟩ := bind_eq_ok_iff.mp h
    rcases id hNamed with hKind | hKind | hKind | hKind | hKind | hKind
    all_goals
      rw [hKind] at h hNamed ⊢
      dsimp only at h
    · obtain ⟨hSpan, hSame⟩ := parseNameRdata_reads h
      refine .of_span hSlice hNamed (not_tailed (by decide) (by decide)) (by decide) hSpan
        fun buf' w' hSlice' _ hNames => ?_
      rw [parseRdata, hSlice', ok_bind, hKind]
      exact hSame buf' hNames
    · obtain ⟨hSpan, hSame⟩ := parseMx_reads h
      refine .of_span hSlice hNamed (not_tailed (by decide) (by decide)) (by decide) hSpan
        fun buf' w' hSlice' hFront hNames => ?_
      rw [parseRdata, hSlice', ok_bind, hKind]
      exact hSame buf' w' hFront hNames
    · obtain ⟨mid, last, hFirst, hSecond, hSame⟩ := parseSoa_reads h
      refine ⟨fun _ => ⟨last + 20, ⟨mid, last, hFirst, hSecond, rfl⟩, fun hTailed =>
        absurd hTailed (not_tailed (by decide) (by decide))⟩, fun buf' hLength hUses => ?_⟩
      obtain ⟨w', hSlice', -⟩ := window_congr hSlice hLength fun i hFrom hTo =>
        hUses none i (.fixed hFrom hTo)
      rw [parseRdata, hSlice', ok_bind, hKind]
      exact hSame buf' (fun via off hTouches => hUses via off (.name hNamed hTouches))
        (fun via off hTouches => hUses via off (.second rfl hFirst hTouches))
        fun i hF hL => hUses none i (.numbers rfl hFirst hSecond hF hL)
    · obtain ⟨hSpan, hSame⟩ := parseSrv_reads h
      refine .of_span hSlice hNamed (not_tailed (by decide) (by decide)) (by decide) hSpan
        fun buf' w' hSlice' hFront hNames => ?_
      rw [parseRdata, hSlice', ok_bind, hKind]
      exact hSame buf' w' hFront hNames
    · obtain ⟨stop, hSpan, hStop, hSame⟩ := parseRrsig_reads h
      refine ⟨fun _ => ⟨stop, hSpan, fun _ => hStop⟩, fun buf' hLength hUses => ?_⟩
      obtain ⟨w', hSlice', hFront⟩ := window_congr hSlice hLength fun i hFrom hTo =>
        hUses none i (.fixed hFrom hTo)
      rw [parseRdata, hSlice', ok_bind, hKind]
      exact hSame buf' w' hFront hLength (fun via off hTouches => hUses via off (.name hNamed hTouches))
        fun i hF hL => hUses none i (.tail (.inl rfl) hSpan hF hL)
    · obtain ⟨stop, hSpan, hStop, hSame⟩ := parseNsec_reads h
      refine ⟨fun _ => ⟨stop, hSpan, fun _ => hStop⟩, fun buf' hLength hUses => ?_⟩
      obtain ⟨w', hSlice', -⟩ := window_congr hSlice hLength fun i hFrom hTo =>
        hUses none i (.fixed hFrom hTo)
      rw [parseRdata, hSlice', ok_bind, hKind]
      exact hSame buf' hLength (fun via off hTouches => hUses via off (.name hNamed hTouches))
        fun i hF hL => hUses none i (.tail (.inr rfl) hSpan hF hL)
  · refine ⟨fun h => absurd h hNamed, fun buf' hLength hUses => ?_⟩
    rw [← h]
    exact parseRdata_closed hNamed (slice_congr hLength fun i hFirst hLast =>
      hUses none i (.window hNamed hFirst hLast))

/-- Where the fields end in the window, all that is used is in it. -/
theorem FieldsEnd.within {buf : Bytes} {start len stop off : Nat} {kind : RdataKind}
    {via : Option Nat} (hEnd : FieldsEnd buf start kind stop) (hFits : stop ≤ start + len)
    (hUses : Uses buf start len kind via off) : Within start (start + len) via off := by
  by_cases hSoa : kind = .soa
  · subst hSoa
    obtain ⟨mid, last, hFirst, hSecond, rfl⟩ := id hEnd
    have hMid := hFirst.lt
    have hLast := hSecond.lt
    cases hUses with
    | fixed hFrom hTo => exact absurd hTo (Nat.not_lt.mpr hFrom)
    | name _ hTouches => exact (hFirst.within hTouches).mono (Nat.le_refl _) (by omega)
    | second _ hFirst' hTouches =>
        obtain rfl := hFirst.unique hFirst'
        exact (hSecond.within hTouches).mono (by omega) (by omega)
    | numbers _ hFirst' hSecond' hFrom hTo =>
        obtain rfl := hFirst.unique hFirst'
        obtain rfl := hSecond.unique hSecond'
        exact ⟨by omega, by omega⟩
    | tail hTailed => exact absurd hTailed (not_tailed (by decide) (by decide))
    | window _ hFrom hTo => exact ⟨hFrom, hTo⟩
  · have hSpan := (fieldsEnd_iff hSoa).mp hEnd
    have hName := hSpan.lt
    cases hUses with
    | fixed hFrom hTo => exact ⟨hFrom, by omega⟩
    | name _ hTouches => exact (hSpan.within hTouches).mono (Nat.le_add_right _ _) hFits
    | second hKind => exact absurd hKind hSoa
    | numbers hKind => exact absurd hKind hSoa
    | tail _ hEnd' hFrom hTo =>
        obtain rfl := hEnd.unique hEnd'
        exact ⟨by omega, hTo⟩
    | window _ hFrom hTo => exact ⟨hFrom, hTo⟩

/-- Without a name, all that is used is in the window. -/
theorem Uses.within {buf : Bytes} {start len off : Nat} {kind : RdataKind} {via : Option Nat}
    (hUses : Uses buf start len kind via off) (hNamed : ¬kind.Named) :
    Within start (start + len) via off := by
  cases hUses with
  | fixed hFrom hTo =>
      have hSize : kind.fixedSize = 0 := by
        cases kind <;> first | rfl | simp [RdataKind.Named] at hNamed
      omega
  | name hName => exact absurd hName hNamed
  | second hKind => exact absurd (.inr (.inr (.inl hKind))) hNamed
  | numbers hKind => exact absurd (.inr (.inr (.inl hKind))) hNamed
  | tail hTailed => exact absurd (.inr (.inr (.inr (.inr hTailed)))) hNamed
  | window _ hFrom hTo => exact ⟨hFrom, hTo⟩

/-- Data that is decoded stays in its window where its fields fill the window, and
where a field without a length of its own is behind them in any case. -/
theorem windowed_iff {buf : Bytes} {start len : Nat} {rtype : UInt16} {d : RData}
    (h : parseRdata buf start len rtype = .ok d) :
    Windowed buf start len rtype ↔ ((rdataKind rtype).Named → ¬(rdataKind rtype).Tailed →
      FieldsEnd buf start (rdataKind rtype) (start + len)) := by
  have hReads := parseRdata_reads h
  constructor
  · intro hWindowed hNamed hTailed
    obtain ⟨stop, hEnd, -⟩ := hReads.fields hNamed
    exact hWindowed.whole hNamed hTailed stop hEnd ▸ hEnd
  · intro hFills
    have hFields (hNamed : (rdataKind rtype).Named) :
        ∃ stop, FieldsEnd buf start (rdataKind rtype) stop ∧ stop ≤ start + len := by
      by_cases hTailed : (rdataKind rtype).Tailed
      · obtain ⟨stop, hEnd, hStop⟩ := hReads.fields hNamed
        exact ⟨stop, hEnd, hStop hTailed⟩
      · exact ⟨_, hFills hNamed hTailed, Nat.le_refl _⟩
    refine ⟨fun via off hUses => ?_, fun hNamed stop hEnd => ?_, fun hNamed hTailed stop hEnd =>
      hEnd.unique (hFills hNamed hTailed), fun buf' hLength hUses => ?_⟩
    · by_cases hNamed : (rdataKind rtype).Named
      · obtain ⟨stop, hEnd, hFits⟩ := hFields hNamed
        exact hEnd.within hFits hUses
      · exact hUses.within hNamed
    · obtain ⟨stop', hEnd', hFits⟩ := hFields hNamed
      exact hEnd.unique hEnd' ▸ hFits
    · rw [hReads.decides buf' hLength hUses, h]

end Dnsd.Proto

import Dnsd.Proto.Parse

/-! Which byte buffers the parser survives. Every decoder but three checks its
lengths; the exact overruns of those three are stated and collected here. -/

namespace Dnsd.Proto

open Bytes Exec

/-! ## Checked readers -/

namespace Cursor

/-- The cursor has not run past its buffer. -/
def Inside (c : Cursor) : Prop := c.pos ≤ c.buf.length

/-- What a successful read of `n` bytes does to the cursor. -/
def Advanced (c : Cursor) (n : Nat) (c' : Cursor) : Prop :=
  c'.buf = c.buf ∧ c'.pos = c.pos + n ∧ c.pos + n ≤ c.buf.length

theorem Advanced.inside {c c' : Cursor} {n : Nat} (h : c.Advanced n c') : c'.Inside := by
  obtain ⟨hBuf, hPos, hEnd⟩ := h
  rw [Inside, hBuf, hPos]
  exact hEnd

/-- Reading a byte fails at the end of the message, but never unwinds. -/
theorem u8_safe (c : Cursor) : Safe c.u8 fun r => c.Advanced 1 r.2 := by
  unfold u8 remaining
  split_ifs with h
  · trivial
  · exact (idx_safe (by omega)).bind fun _ _ => ⟨rfl, rfl, by omega⟩

theorem u16_safe (c : Cursor) : Safe c.u16 fun r => c.Advanced 2 r.2 := by
  unfold u16 remaining
  split_ifs with h
  · trivial
  · refine (idx_safe (by omega)).bind fun _ _ => ?_
    exact (idx_safe (by omega)).bind fun _ _ => ⟨rfl, rfl, by omega⟩

theorem u32_safe (c : Cursor) : Safe c.u32 fun r => c.Advanced 4 r.2 := by
  unfold u32 remaining
  split_ifs with h
  · trivial
  · refine (idx_safe (by omega)).bind fun _ _ => ?_
    refine (idx_safe (by omega)).bind fun _ _ => ?_
    refine (idx_safe (by omega)).bind fun _ _ => ?_
    exact (idx_safe (by omega)).bind fun _ _ => ⟨rfl, rfl, by omega⟩

/-- A window of any length is refused or read whole. -/
theorem bytes_safe {c : Cursor} (hInside : c.Inside) (n : Nat) :
    Safe (c.bytes n) fun r => c.Advanced n r.2 ∧ r.1.length = n := by
  unfold bytes remaining
  unfold Inside at hInside
  split_ifs with h
  · trivial
  · refine (slice_safe (by omega) (by omega)).bind fun s hLength => ?_
    exact ⟨⟨rfl, rfl, by omega⟩, by dsimp only; omega⟩

/-- A byte that is there gets read. -/
theorem u8_of_fits {c : Cursor} (h : c.pos + 1 ≤ c.buf.length) :
    ∃ v, c.u8 = .ok (v, { c with pos := c.pos + 1 }) := by
  rw [u8, if_neg (by unfold remaining; omega), idx_of_lt (by omega)]
  exact ⟨_, rfl⟩

theorem u16_of_fits {c : Cursor} (h : c.pos + 2 ≤ c.buf.length) :
    ∃ v, c.u16 = .ok (v, { c with pos := c.pos + 2 }) := by
  rw [u16, if_neg (by unfold remaining; omega), idx_of_lt (by omega), ok_bind,
    idx_of_lt (by omega)]
  exact ⟨_, rfl⟩

theorem u32_of_fits {c : Cursor} (h : c.pos + 4 ≤ c.buf.length) :
    ∃ v, c.u32 = .ok (v, { c with pos := c.pos + 4 }) := by
  rw [u32, if_neg (by unfold remaining; omega), idx_of_lt (by omega), ok_bind,
    idx_of_lt (by omega), ok_bind, idx_of_lt (by omega), ok_bind, idx_of_lt (by omega)]
  exact ⟨_, rfl⟩

end Cursor

/-- No chain of labels and pointers unwinds the reader. -/
theorem readLabels_safe (buf : Bytes) (guard next : Nat) (jumped : Bool) (pos : Nat)
    (labels : List Str) :
    Safe (readLabels buf guard next jumped pos labels) fun _ => True := by
  induction guard generalizing next jumped pos labels with
  | zero => trivial
  | succ guard ih =>
      unfold readLabels
      split
      · trivial
      · refine (idx_safe (by omega)).bind fun len _ => ?_
        split
        · split
          · trivial
          · exact (idx_safe (by omega)).bind fun _ _ => ih ..
        · split
          · trivial
          · split
            · trivial
            · split
              · trivial
              · exact (slice_safe (by omega) (by omega)).bind fun _ _ => ih ..

/-- Names are read without unwinding, from any position. -/
theorem readName_safe (buf : Bytes) (pos : Nat) : Safe (readName buf pos) fun _ => True :=
  (readLabels_safe ..).bind fun _ _ => trivial

theorem readU16At_safe (buf : Bytes) (pos : Nat) : Safe (readU16At buf pos) fun _ => True := by
  unfold readU16At
  split_ifs with h
  · trivial
  · refine (idx_safe (by omega)).bind fun _ _ => ?_
    exact (idx_safe (by omega)).bind fun _ _ => trivial

theorem readU32At_safe (buf : Bytes) (pos : Nat) : Safe (readU32At buf pos) fun _ => True := by
  unfold readU32At
  split_ifs with h
  · trivial
  · refine (idx_safe (by omega)).bind fun _ _ => ?_
    refine (idx_safe (by omega)).bind fun _ _ => ?_
    refine (idx_safe (by omega)).bind fun _ _ => ?_
    exact (idx_safe (by omega)).bind fun _ _ => trivial

theorem readQuestion_safe (buf : Bytes) (pos : Nat) :
    Safe (readQuestion buf pos) fun _ => True := by
  refine (readName_safe buf pos).bind fun _ _ => ?_
  refine (Cursor.u16_safe _).bind fun _ _ => ?_
  exact (Cursor.u16_safe _).bind fun _ _ => trivial

/-! ## Record data -/

/-- An address of a wrong length is refused, not indexed beyond its end. -/
theorem parseA_safe {c : Cursor} (hInside : c.Inside) (len : Nat) :
    Safe (parseA c len) fun _ => True := by
  unfold parseA
  split
  · trivial
  · refine (Cursor.bytes_safe hInside 4).bind fun r hr => ?_
    refine (idx_safe (by omega)).bind fun _ _ => ?_
    refine (idx_safe (by omega)).bind fun _ _ => ?_
    refine (idx_safe (by omega)).bind fun _ _ => ?_
    exact (idx_safe (by omega)).bind fun _ _ => trivial

theorem parseAaaa_safe {c : Cursor} (hInside : c.Inside) (len : Nat) :
    Safe (parseAaaa c len) fun _ => True := by
  unfold parseAaaa
  split
  · trivial
  · refine (Cursor.bytes_safe hInside 16).bind fun r hr => ?_
    simp [hr.2]

theorem parseNameRdata_safe (buf : Bytes) (start : Nat) :
    Safe (parseNameRdata buf start) fun _ => True :=
  (readName_safe ..).bind fun _ _ => trivial

theorem parseMx_safe (buf : Bytes) (start : Nat) (c : Cursor) :
    Safe (parseMx buf start c) fun _ => True :=
  c.u16_safe.bind fun _ _ => (readName_safe ..).bind fun _ _ => trivial

/-- The texts of a TXT record are read without unwinding, however many there are. -/
theorem txtStrings_safe (turns : Nat) (c : Cursor) :
    Safe (txtStrings turns c) fun _ => True := by
  induction turns generalizing c with
  | zero => trivial
  | succ turns ih =>
      unfold txtStrings
      split
      · trivial
      · refine c.u8_safe.bind fun l hl => ?_
        refine (Cursor.bytes_safe hl.inside _).bind fun s _ => ?_
        exact (ih s.2).bind fun _ _ => trivial

theorem parseSrv_safe (buf : Bytes) (start : Nat) (c : Cursor) :
    Safe (parseSrv buf start c) fun _ => True := by
  refine c.u16_safe.bind fun r _ => ?_
  refine r.2.u16_safe.bind fun r _ => ?_
  refine r.2.u16_safe.bind fun _ _ => ?_
  exact (readName_safe ..).bind fun _ _ => trivial

theorem parseCaa_safe (c : Cursor) : Safe (parseCaa c) fun _ => True := by
  refine c.u8_safe.bind fun flags _ => ?_
  refine flags.2.u8_safe.bind fun tagLen hTagLen => ?_
  refine (Cursor.bytes_safe hTagLen.inside _).bind fun tag hTag => ?_
  exact (Cursor.bytes_safe hTag.1.inside _).bind fun _ _ => trivial

/-- So are the options of an OPT record. -/
theorem optOptions_safe (turns : Nat) (c : Cursor) :
    Safe (optOptions turns c) fun _ => True := by
  induction turns generalizing c with
  | zero => trivial
  | succ turns ih =>
      unfold optOptions
      split
      · trivial
      · refine c.u16_safe.bind fun code _ => ?_
        refine code.2.u16_safe.bind fun len hLen => ?_
        refine (Cursor.bytes_safe hLen.inside _).bind fun data _ => ?_
        exact (ih data.2).bind fun _ _ => trivial

/-! ## The three unchecked decoders -/

/-- The names of an SOA record leave fewer than twenty bytes of the message
for the five numbers behind them. -/
def SoaOverrun (buf : Bytes) (start : Nat) : Prop :=
  ∃ mname p rname q, readName buf start = .ok (mname, p) ∧ readName buf p = .ok (rname, q) ∧
    buf.length < q + 20

/-- The name that starts at `nameStart` ends behind the RDATA window. -/
def NameOverrun (buf : Bytes) (nameStart windowEnd : Nat) : Prop :=
  ∃ name p, readName buf nameStart = .ok (name, p) ∧ windowEnd < p

/-- The unchecked number unwinds exactly where the message ends before it does. -/
theorem rawU32_eq_panicked_iff {buf : Bytes} {p : Nat} :
    rawU32 buf p = .panicked ↔ buf.length < p + 4 := by
  constructor
  · intro h
    by_contra hFits
    refine (show Safe _ fun _ => True from ?_).ne_panicked h
    refine (idx_safe (by omega)).bind fun _ _ => ?_
    refine (idx_safe (by omega)).bind fun _ _ => ?_
    refine (idx_safe (by omega)).bind fun _ _ => ?_
    exact (idx_safe (by omega)).bind fun _ _ => trivial
  · intro h
    unfold rawU32
    by_cases h0 : buf.length ≤ p
    · rw [idx_eq_panicked_iff.mpr h0]
      rfl
    by_cases h1 : buf.length ≤ p + 1
    · rw [idx_of_lt (by omega), ok_bind, idx_eq_panicked_iff.mpr h1]
      rfl
    by_cases h2 : buf.length ≤ p + 2
    · rw [idx_of_lt (by omega), ok_bind, idx_of_lt (by omega), ok_bind,
        idx_eq_panicked_iff.mpr h2]
      rfl
    · rw [idx_of_lt (by omega), ok_bind, idx_of_lt (by omega), ok_bind, idx_of_lt (by omega),
        ok_bind, idx_eq_panicked_iff.mpr (by omega)]
      rfl

theorem rawU32_ne_err {buf : Bytes} {p : Nat} {e : Error} : rawU32 buf p ≠ .err e := by
  unfold rawU32 idx
  cases buf[p]? <;> cases buf[p + 1]? <;> cases buf[p + 2]? <;> cases buf[p + 3]? <;> simp

theorem rawU32_of_fits {buf : Bytes} {p : Nat} (h : p + 4 ≤ buf.length) :
    ∃ x, rawU32 buf p = .ok x := by
  cases hRead : rawU32 buf p with
  | ok x => exact ⟨x, rfl⟩
  | err e => exact absurd hRead rawU32_ne_err
  | panicked =>
      have := rawU32_eq_panicked_iff.mp hRead
      omega

/-- The five numbers are read in order, so one short read unwinds the decoder
unless an earlier one already has. -/
theorem parseSoa_eq_panicked_iff {buf : Bytes} {start : Nat} :
    parseSoa buf start = .panicked ↔ SoaOverrun buf start := by
  constructor
  · intro h
    by_contra hFits
    refine (show Safe _ fun _ => True from ?_).ne_panicked h
    unfold parseSoa
    cases hm : readName buf start with
    | err e => trivial
    | panicked => exact absurd hm (readName_safe buf start).ne_panicked
    | ok m =>
        rw [ok_bind]
        dsimp only
        cases hr : readName buf m.2 with
        | err e => trivial
        | panicked => exact absurd hr (readName_safe buf m.2).ne_panicked
        | ok r =>
            have hEnd : r.2 + 20 ≤ buf.length := by
              by_contra hShort
              exact hFits ⟨m.1, m.2, r.1, r.2, hm, hr, by omega⟩
            obtain ⟨serial, hSerial⟩ := rawU32_of_fits (show r.2 + 4 ≤ buf.length by omega)
            obtain ⟨refresh, hRefresh⟩ := rawU32_of_fits (show r.2 + 4 + 4 ≤ buf.length by omega)
            obtain ⟨retry, hRetry⟩ := rawU32_of_fits (show r.2 + 8 + 4 ≤ buf.length by omega)
            obtain ⟨expire, hExpire⟩ := rawU32_of_fits (show r.2 + 12 + 4 ≤ buf.length by omega)
            obtain ⟨minimum, hMinimum⟩ := rawU32_of_fits (show r.2 + 16 + 4 ≤ buf.length by omega)
            simp only [ok_bind, hSerial, hRefresh, hRetry, hExpire, hMinimum, safe_ok]
  · rintro ⟨mname, p, rname, q, hm, hr, hShort⟩
    unfold parseSoa
    rw [hm, ok_bind]
    dsimp only
    rw [hr, ok_bind]
    dsimp only
    have hRead (k : Nat) : (∃ x, rawU32 buf (q + k) = .ok x) ∨
        rawU32 buf (q + k) = .panicked := by
      by_cases h : q + k + 4 ≤ buf.length
      · exact Or.inl (rawU32_of_fits h)
      · exact Or.inr (rawU32_eq_panicked_iff.mpr (by omega))
    have hLast : rawU32 buf (q + 16) = .panicked := rawU32_eq_panicked_iff.mpr (by omega)
    rcases hRead 0 with ⟨serial, h0⟩ | h0 <;> rw [Nat.add_zero] at h0 <;> rw [h0]
    · rcases hRead 4 with ⟨refresh, h4⟩ | h4 <;> rw [ok_bind, h4]
      · rcases hRead 8 with ⟨retry, h8⟩ | h8 <;> rw [ok_bind, h8]
        · rcases hRead 12 with ⟨expire, h12⟩ | h12 <;> rw [ok_bind, h12]
          · rw [ok_bind, hLast]
            rfl
          · rfl
        · rfl
      · rfl
    · rfl

/-- NSEC data unwind the parser exactly when the next name ends behind their window. -/
theorem parseNsec_eq_panicked_iff {buf : Bytes} {start len : Nat}
    (hWindow : start + len ≤ buf.length) :
    parseNsec buf start len = .panicked ↔ NameOverrun buf start (start + len) := by
  unfold parseNsec
  rw [bind_eq_panicked_iff]
  constructor
  · rintro (h | ⟨⟨name, p⟩, hName, h⟩)
    · exact absurd h (readName_safe buf start).ne_panicked
    · rcases bind_eq_panicked_iff.mp h with h | ⟨_, _, h⟩
      · rw [slice_eq_panicked_iff] at h
        exact ⟨name, p, hName, by omega⟩
      · cases h
  · rintro ⟨name, p, hName, hEnd⟩
    refine Or.inr ⟨(name, p), hName, bind_eq_panicked_iff.mpr (Or.inl ?_)⟩
    exact slice_eq_panicked_iff.mpr (Or.inl hEnd)

/-- The eighteen fixed bytes are read through the cursor; only a window that
holds them can get as far as the unchecked slice. -/
theorem parseRrsig_eq_panicked_iff {buf window : Bytes} {start len : Nat}
    (hWindow : start + len ≤ buf.length) (hLength : window.length = len) :
    parseRrsig buf start len ⟨window, 0⟩ = .panicked ↔
      18 ≤ len ∧ NameOverrun buf (start + 18) (start + len) := by
  constructor
  · intro h
    by_contra hFits
    refine (show Safe _ fun _ => True from ?_).ne_panicked h
    refine (Cursor.u16_safe _).bind fun r1 h1 => ?_
    refine r1.2.u8_safe.bind fun r2 h2 => ?_
    refine r2.2.u8_safe.bind fun r3 h3 => ?_
    refine r3.2.u32_safe.bind fun r4 h4 => ?_
    refine r4.2.u32_safe.bind fun r5 h5 => ?_
    refine r5.2.u32_safe.bind fun r6 h6 => ?_
    refine r6.2.u16_safe.bind fun r7 h7 => ?_
    have hFixed : 18 ≤ len := by
      simp only [Cursor.Advanced] at h1 h2 h3 h4 h5 h6 h7
      rw [h6.1, h5.1, h4.1, h3.1, h2.1, h1.1] at h7
      omega
    cases hName : readName buf (start + 18) with
    | err e => trivial
    | panicked => exact absurd hName (readName_safe buf _).ne_panicked
    | ok name =>
        have hEnd : name.2 ≤ start + len := by
          by_contra hOver
          exact hFits ⟨hFixed, name.1, name.2, hName, by omega⟩
        dsimp only
        rw [ok_bind]
        exact (slice_safe hEnd hWindow).bind fun _ _ => trivial
  · rintro ⟨hFixed, name, p, hName, hOver⟩
    obtain ⟨v1, h1⟩ := Cursor.u16_of_fits (c := ⟨window, 0⟩) (by dsimp only; omega)
    obtain ⟨v2, h2⟩ := Cursor.u8_of_fits (c := ⟨window, 2⟩) (by dsimp only; omega)
    obtain ⟨v3, h3⟩ := Cursor.u8_of_fits (c := ⟨window, 3⟩) (by dsimp only; omega)
    obtain ⟨v4, h4⟩ := Cursor.u32_of_fits (c := ⟨window, 4⟩) (by dsimp only; omega)
    obtain ⟨v5, h5⟩ := Cursor.u32_of_fits (c := ⟨window, 8⟩) (by dsimp only; omega)
    obtain ⟨v6, h6⟩ := Cursor.u32_of_fits (c := ⟨window, 12⟩) (by dsimp only; omega)
    obtain ⟨v7, h7⟩ := Cursor.u16_of_fits (c := ⟨window, 16⟩) (by dsimp only; omega)
    have hSlice : (slice buf p (start + len) : Result Bytes) = .panicked :=
      slice_eq_panicked_iff.mpr (Or.inl hOver)
    simp only [parseRrsig, h1, ok_bind, h2, h3, h4, h5, h6, h7, hName, hSlice, panicked_bind]

/-- What goes wrong in one RDATA window: only SOA, RRSIG and NSEC data can
unwind the parser, each when its names end too late. -/
def RdataOverrun (buf : Bytes) (start len : Nat) (rtype : UInt16) : Prop :=
  match rdataKind rtype with
  | .soa => SoaOverrun buf start
  | .rrsig => 18 ≤ len ∧ NameOverrun buf (start + 18) (start + len)
  | .nsec => NameOverrun buf start (start + len)
  | _ => False

/-- Data in a window unwind the parser exactly with an overrun of their type. -/
theorem parseRdata_eq_panicked_iff {buf : Bytes} {start len : Nat} {rtype : UInt16}
    (hWindow : start + len ≤ buf.length) :
    parseRdata buf start len rtype = .panicked ↔ RdataOverrun buf start len rtype := by
  have hSlice := slice_of_le (ε := Error) (Nat.le_add_right start len) hWindow
  have hLength : ((buf.take (start + len)).drop start).length = len := by
    simp only [List.length_drop, List.length_take]
    omega
  have hInside : Cursor.Inside ⟨(buf.take (start + len)).drop start, 0⟩ := Nat.zero_le _
  have hNever {x : Result RData} (h : Safe x fun _ => True) : x = .panicked ↔ False :=
    ⟨fun hx => h.ne_panicked hx, False.elim⟩
  rw [parseRdata, hSlice, ok_bind]
  unfold RdataOverrun
  cases rdataKind rtype with
  | a => exact hNever (parseA_safe hInside len)
  | aaaa => exact hNever (parseAaaa_safe hInside len)
  | name => exact hNever (parseNameRdata_safe buf start)
  | mx => exact hNever (parseMx_safe buf start _)
  | soa => exact parseSoa_eq_panicked_iff
  | txt => exact hNever ((txtStrings_safe _ _).bind fun _ _ => trivial)
  | srv => exact hNever (parseSrv_safe buf start _)
  | caa => exact hNever (parseCaa_safe _)
  | rrsig => exact parseRrsig_eq_panicked_iff hWindow hLength
  | nsec => exact parseNsec_eq_panicked_iff hWindow
  | opt => exact hNever ((optOptions_safe _ _).bind fun _ _ => trivial)
  | raw => exact hNever ((slice_safe (by omega) hWindow).bind fun _ _ => trivial)

/-! ## Records and messages -/

/-- Where the RDATA of the record at `pos` lies and which type it has, when
the fixed part of the record is complete and the window fits the message. -/
def recordWindow (buf : Bytes) (pos : Nat) : Result (Nat × Nat × UInt16) := do
  let (_, pos) ← readName buf pos
  let (rtype, pos) ← readU16At buf pos
  let (_, pos) ← readU16At buf pos
  let (_, pos) ← readU32At buf pos
  let (rdlen, pos) ← readU16At buf pos
  if buf.length < pos + rdlen.toNat then .err (.parse "rdata past end")
  else .ok (pos, rdlen.toNat, rtype)

/-- The record at `pos` has one of the three overruns. -/
def RecordOverrun (buf : Bytes) (pos : Nat) : Prop :=
  ∃ start len rtype, recordWindow buf pos = .ok (start, len, rtype) ∧
    RdataOverrun buf start len rtype

/-- And a record does exactly if its data do. -/
theorem readRecord_eq_panicked_iff {buf : Bytes} {pos : Nat} :
    readRecord buf pos = .panicked ↔ RecordOverrun buf pos := by
  unfold readRecord RecordOverrun recordWindow
  cases hName : readName buf pos with
  | err e => simp
  | panicked => exact absurd hName (readName_safe buf _).ne_panicked
  | ok name =>
  simp only [ok_bind]
  cases hType : readU16At buf name.2 with
  | err e => simp
  | panicked => exact absurd hType (readU16At_safe buf _).ne_panicked
  | ok rtype =>
  simp only [ok_bind]
  cases hClass : readU16At buf rtype.2 with
  | err e => simp
  | panicked => exact absurd hClass (readU16At_safe buf _).ne_panicked
  | ok rclass =>
  simp only [ok_bind]
  cases hTtl : readU32At buf rclass.2 with
  | err e => simp
  | panicked => exact absurd hTtl (readU32At_safe buf _).ne_panicked
  | ok ttl =>
  simp only [ok_bind]
  cases hLen : readU16At buf ttl.2 with
  | err e => simp
  | panicked => exact absurd hLen (readU16At_safe buf _).ne_panicked
  | ok rdlen =>
  simp only [ok_bind]
  by_cases hEnd : buf.length < rdlen.2 + rdlen.1.toNat
  · simp [hEnd]
  · rw [if_neg hEnd, if_neg hEnd, bind_eq_panicked_iff,
      parseRdata_eq_panicked_iff (by omega)]
    constructor
    · rintro (h | ⟨_, _, h⟩)
      · exact ⟨_, _, _, rfl, h⟩
      · cases h
    · rintro ⟨_, _, _, h, hOver⟩
      cases h
      exact Or.inl hOver

/-- Some record that parsing reaches, every record before it having been read,
has one of the three overruns. The counts come from the message header. -/
def MessageOverrun (buf : Bytes) : Prop :=
  12 ≤ buf.length ∧ ∃ questions pos,
    times (readQuestion buf) (headerWord buf 2).toNat 12 = .ok (questions, pos) ∧
    ∃ i < (headerWord buf 3).toNat + (headerWord buf 4).toNat + (headerWord buf 5).toNat,
      ∃ records at', times (readRecord buf) i pos = .ok (records, at') ∧ RecordOverrun buf at'

/-- The three record sections are read by one loop over all of their records. -/
theorem sections_eq_panicked_iff (buf : Bytes) (an ns ar pos : Nat)
    (build : List Record → List Record → List Record → Message) :
    (times (readRecord buf) an pos >>= fun answers =>
      times (readRecord buf) ns answers.2 >>= fun authority =>
        times (readAdditional buf) ar authority.2 >>= fun additional =>
          (.ok (build answers.1 authority.1 additional.1) : Result Message)) = .panicked ↔
      times (readRecord buf) (an + ns + ar) pos = .panicked := by
  rw [times_add, times_add]
  cases times (readRecord buf) an pos with
  | err e => simp
  | panicked => simp
  | ok answers =>
      simp only [ok_bind]
      cases times (readRecord buf) ns answers.2 with
      | err e => simp
      | panicked => simp
      | ok authority =>
          simp only [ok_bind, times_readAdditional]
          cases times (readRecord buf) ar authority.2 <;> simp

/-- The parser unwinds exactly on the messages with such a record. -/
theorem parse_eq_panicked_iff (buf : Bytes) :
    Message.parse buf = .panicked ↔ MessageOverrun buf := by
  unfold MessageOverrun
  by_cases hHeader : 12 ≤ buf.length
  · rw [parse_of_header hHeader]
    cases hQuestions : times (readQuestion buf) (headerWord buf 2).toNat 12 with
    | err e => simp
    | panicked =>
        obtain ⟨_, _, _, _, _, hRead⟩ := times_eq_panicked_iff.mp hQuestions
        exact absurd hRead (readQuestion_safe buf _).ne_panicked
    | ok questions =>
        refine (sections_eq_panicked_iff buf _ _ _ questions.2 fun answers authority additional =>
          foldExtRcode ⟨headerOfFlags (headerWord buf 0) (headerWord buf 1), questions.1, answers,
            authority, additional⟩).trans ?_
        rw [times_eq_panicked_iff]
        simp only [readRecord_eq_panicked_iff]
        constructor
        · intro h
          exact ⟨hHeader, questions.1, questions.2, rfl, h⟩
        · rintro ⟨_, _, _, hOk, h⟩
          cases hOk
          exact h
  · rw [parse_of_short (by omega)]
    simp [hHeader]

/-- Exactly the messages without such a record are answered by a value or an
error, never by unwinding. -/
theorem parse_returns_iff (buf : Bytes) :
    (∃ r, Message.parse buf = .ok r) ∨ (∃ e, Message.parse buf = .err e) ↔
      ¬MessageOverrun buf := by
  rw [← parse_eq_panicked_iff]
  cases Message.parse buf <;> simp

/-- A header announcing one answer, and that answer: an SOA record at the root
whose two root names fill its RDATA of two bytes. -/
def shortSoaMessage : Bytes :=
  [0, 1, 0, 0, 0, 0, 0, 1, 0, 0, 0, 0] ++ [0, 0, 6, 0, 1, 0, 0, 0, 0, 0, 2] ++ [0, 0]

/-- A message of 25 bytes: the two names of its SOA record end within it, and the five
numbers are looked up behind it, so that the parser unwinds. -/
theorem parse_shortSoaMessage :
    ¬((∃ r, Message.parse shortSoaMessage = .ok r) ∨
      ∃ e, Message.parse shortSoaMessage = .err e) := by
  have hUnwinds : Message.parse shortSoaMessage = .panicked := by decide
  simp [hUnwinds]

end Dnsd.Proto

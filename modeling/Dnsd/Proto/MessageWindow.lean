import Dnsd.Proto.RdataWindow

/-! The records of a message and their windows: whether RDLENGTH bounds what an
accepted message was decoded from. -/

namespace Dnsd.Proto

open Bytes Exec

/-- A record of the message starts at the offset, those in front of it having been
read. The counts come from the header. -/
def RecordStart (buf : Bytes) (off : Nat) : Prop :=
  ∃ questions pos, times (readQuestion buf) (headerWord buf 2).toNat 12 = .ok (questions, pos) ∧
    ∃ i < (headerWord buf 3).toNat + (headerWord buf 4).toNat + (headerWord buf 5).toNat,
      ∃ records, times (readRecord buf) i pos = .ok (records, off)

/-- Every record of the message has the property, which is one of its window. -/
def EveryWindow (buf : Bytes) (prop : Nat → Nat → UInt16 → Prop) : Prop :=
  ∀ off start len rtype, RecordStart buf off → recordWindow buf off = .ok (start, len, rtype) →
    prop start len rtype

/-- The message is accepted, and every record stays in its window, or it is rejected. -/
def WindowLaw (buf : Bytes) : Prop :=
  (∃ m, Message.parse buf = .ok m ∧ EveryWindow buf (Windowed buf)) ∨
    ∃ e, Message.parse buf = .err e

theorem readRecord_data {buf : Bytes} {off start len next : Nat} {rtype : UInt16} {r : Record}
    (h : readRecord buf off = .ok (r, next)) (hWindow : recordWindow buf off = .ok (start, len, rtype)) :
    parseRdata buf start len rtype = .ok r.data := by
  obtain ⟨⟨name, p1⟩, hName, h⟩ := bind_eq_ok_iff.mp h
  obtain ⟨⟨rtype', p2⟩, hType, h⟩ := bind_eq_ok_iff.mp h
  obtain ⟨⟨rclass, p3⟩, hClass, h⟩ := bind_eq_ok_iff.mp h
  obtain ⟨⟨ttl, p4⟩, hTtl, h⟩ := bind_eq_ok_iff.mp h
  obtain ⟨⟨rdlen, p5⟩, hLen, h⟩ := bind_eq_ok_iff.mp h
  rw [recordWindow, hName, ok_bind] at hWindow
  dsimp only at hWindow
  rw [hType, ok_bind] at hWindow
  dsimp only at hWindow
  rw [hClass, ok_bind] at hWindow
  dsimp only at hWindow
  rw [hTtl, ok_bind] at hWindow
  dsimp only at hWindow
  rw [hLen, ok_bind] at hWindow
  dsimp only at h hWindow
  split at h
  · cases h
  · rename_i hFits
    obtain ⟨data, hData, h⟩ := bind_eq_ok_iff.mp h
    cases h
    rw [if_neg hFits] at hWindow
    cases hWindow
    exact hData

/-- All records of an accepted message were read. -/
theorem parse_record {buf : Bytes} {m : Message} {off : Nat} (h : Message.parse buf = .ok m)
    (hStart : RecordStart buf off) : ∃ r next, readRecord buf off = .ok (r, next) := by
  obtain ⟨-, questions, answers, authority, records, p1, p2, p3, p4, hQuestions, hAnswers, hAuthority,
    hRecords, -⟩ := parse_eq_ok h
  obtain ⟨questions', pos, hQuestions', i, hi, before, hBefore⟩ := hStart
  rw [hQuestions] at hQuestions'
  cases hQuestions'
  have hAll : times (readRecord buf) ((headerWord buf 3).toNat + (headerWord buf 4).toNat +
      (headerWord buf 5).toNat) p1 = .ok ((answers ++ authority) ++ records, p4) := by
    rw [times_add, times_add, hAnswers, ok_bind]
    dsimp only
    rw [hAuthority, ok_bind, ok_bind]
    dsimp only
    rw [hRecords]
    rfl
  exact times_turn hAll hi hBefore

/-- The law holds where no record makes the parser unwind, and in an accepted message
the fields of every record that has a name and no field without a length of its own
take as many bytes as its RDLENGTH says. -/
theorem windowLaw_iff (buf : Bytes) :
    WindowLaw buf ↔ ¬MessageOverrun buf ∧ ∀ m, Message.parse buf = .ok m →
      EveryWindow buf fun start len rtype => (rdataKind rtype).Named → ¬(rdataKind rtype).Tailed →
        FieldsEnd buf start (rdataKind rtype) (start + len) := by
  have hRecord {m : Message} (hParse : Message.parse buf = .ok m) {off start len : Nat}
      {rtype : UInt16} (hStart : RecordStart buf off)
      (hWindow : recordWindow buf off = .ok (start, len, rtype)) :
      Windowed buf start len rtype ↔ ((rdataKind rtype).Named → ¬(rdataKind rtype).Tailed →
        FieldsEnd buf start (rdataKind rtype) (start + len)) := by
    obtain ⟨r, next, hRead⟩ := parse_record hParse hStart
    exact windowed_iff (readRecord_data hRead hWindow)
  rw [← parse_eq_panicked_iff]
  constructor
  · rintro (⟨m, hParse, hAll⟩ | ⟨e, hParse⟩)
    · refine ⟨by simp [hParse], fun _ _ off start len rtype hStart hWindow => ?_⟩
      exact (hRecord hParse hStart hWindow).mp (hAll off start len rtype hStart hWindow)
    · exact ⟨by simp [hParse], fun m hOk => by simp [hParse] at hOk⟩
  · rintro ⟨hReturns, hFill⟩
    cases hParse : Message.parse buf with
    | panicked => exact absurd hParse hReturns
    | err e => exact Or.inr ⟨e, hParse⟩
    | ok m =>
        refine Or.inl ⟨m, hParse, fun off start len rtype hStart hWindow => ?_⟩
        exact (hRecord hParse hStart hWindow).mpr (hFill m hParse off start len rtype hStart hWindow)

/-- A CNAME record with RDLENGTH 0, and a name behind it. -/
def emptyCnameMessage : Bytes :=
  [0, 1, 0x80, 0, 0, 0, 0, 1, 0, 0, 0, 0] ++ [0, 0, 5, 0, 1, 0, 0, 0, 0, 0, 0] ++ [1, 0x61, 0]

/-- Its RDLENGTH is zero, and its target is the name that stands behind its data. -/
theorem not_windowLaw_emptyCname : ¬∀ buf, WindowLaw buf := by
  intro h
  have hStart : RecordStart emptyCnameMessage 12 := ⟨[], 12, rfl, 0, by decide, [], rfl⟩
  have hWindow : recordWindow emptyCnameMessage 12 = .ok (23, 0, typeCname) := by decide
  have hParse : Message.parse emptyCnameMessage = .ok
      { header := { id := 1, qr := true }
        answers := [⟨['.'], typeCname, classIn, 0, .name "a.".toList⟩] } := by
    decide
  have hRead : readName emptyCnameMessage 23 = .ok ("a.".toList, 26) := by decide
  have hKind : rdataKind typeCname = .name := by decide
  rcases h emptyCnameMessage with ⟨m, -, hAll⟩ | ⟨e, hErr⟩
  · have hWhole := (hAll 12 23 0 typeCname hStart hWindow).whole
    rw [hKind] at hWhole
    have hStop := hWhole (.inl rfl) (not_tailed (by decide) (by decide)) 26
      (NameSpan.of_readName hRead)
    exact absurd hStop (by decide)
  · rw [hParse] at hErr
    cases hErr

end Dnsd.Proto

import Dnsd.Proto.ParseSafety

/-! How much a parsed message can hold: every item takes bytes of the buffer. -/

namespace Dnsd.Proto

open Exec

/-- Reading a name takes at least its terminator, within the buffer. -/
theorem readLabels_end {buf : Bytes} {guard next pos p : Nat} {jumped : Bool}
    {labels names : List Str} (h : readLabels buf guard next jumped pos labels = .ok (names, p)) :
    if jumped then p = pos else next < p ∧ p ≤ buf.length := by
  induction guard generalizing next jumped pos labels with
  | zero => cases h
  | succ guard ih =>
      rw [readLabels] at h
      split at h
      · cases h
      · obtain ⟨len, _, h⟩ := bind_eq_ok_iff.mp h
        split at h
        · split at h
          · cases h
          · obtain ⟨low, _, h⟩ := bind_eq_ok_iff.mp h
            have hRest := ih h
            rw [if_pos rfl] at hRest
            cases jumped with
            | true => simpa using hRest
            | false =>
                simp only [Bool.false_eq_true, if_false] at hRest ⊢
                omega
        · split at h
          · cases h
          · split at h
            · cases h
              cases jumped with
              | true => simp
              | false =>
                  simp only [Bool.false_eq_true, if_false]
                  omega
            · split at h
              · cases h
              · obtain ⟨raw, _, h⟩ := bind_eq_ok_iff.mp h
                have hRest := ih h
                cases jumped with
                | true => simpa using hRest
                | false =>
                    simp only [Bool.false_eq_true, if_false] at hRest ⊢
                    omega

theorem readName_end {buf : Bytes} {pos p : Nat} {name : Str} (h : readName buf pos = .ok (name, p)) :
    pos < p ∧ p ≤ buf.length := by
  obtain ⟨⟨labels, q⟩, hLabels, hPair⟩ := bind_eq_ok_iff.mp h
  cases hPair
  simpa using readLabels_end hLabels

theorem readU16At_end {buf : Bytes} {pos p : Nat} {x : UInt16} (h : readU16At buf pos = .ok (x, p)) :
    p = pos + 2 ∧ p ≤ buf.length := by
  rw [readU16At] at h
  split_ifs at h with hShort
  obtain ⟨_, _, h⟩ := bind_eq_ok_iff.mp h
  obtain ⟨_, _, h⟩ := bind_eq_ok_iff.mp h
  cases h
  omega

theorem readU32At_end {buf : Bytes} {pos p : Nat} {x : UInt32} (h : readU32At buf pos = .ok (x, p)) :
    p = pos + 4 ∧ p ≤ buf.length := by
  rw [readU32At] at h
  split_ifs at h with hShort
  obtain ⟨_, _, h⟩ := bind_eq_ok_iff.mp h
  obtain ⟨_, _, h⟩ := bind_eq_ok_iff.mp h
  obtain ⟨_, _, h⟩ := bind_eq_ok_iff.mp h
  obtain ⟨_, _, h⟩ := bind_eq_ok_iff.mp h
  cases h
  omega

theorem readQuestion_end {buf : Bytes} {pos p : Nat} {q : Question}
    (h : readQuestion buf pos = .ok (q, p)) : pos + 5 ≤ p ∧ p ≤ buf.length := by
  obtain ⟨⟨name, next⟩, hName, h⟩ := bind_eq_ok_iff.mp h
  obtain ⟨⟨qtype, c⟩, hType, h⟩ := bind_eq_ok_iff.mp h
  obtain ⟨⟨qclass, c'⟩, hClass, h⟩ := bind_eq_ok_iff.mp h
  cases h
  have hStart := readName_end hName
  obtain ⟨hBuf, hPos, hEnd⟩ := (Cursor.u16_safe _).of_eq_ok hType
  obtain ⟨hBuf', hPos', hEnd'⟩ := (Cursor.u16_safe _).of_eq_ok hClass
  dsimp only at hBuf hPos hEnd hBuf' hPos' hEnd' ⊢
  rw [hBuf] at hEnd'
  omega

/-- The options of an OPT record take the bytes of its RDATA. -/
theorem optOptions_length {turns : Nat} {c : Cursor} {options : List OptOption}
    (h : optOptions turns c = .ok options) :
    (options.map fun o => o.data.length + 4).sum ≤ c.remaining := by
  induction turns generalizing c options with
  | zero =>
      cases h
      simp
  | succ turns ih =>
      rw [optOptions] at h
      split_ifs at h with hShort
      · cases h
        simp
      · obtain ⟨⟨code, c1⟩, hCode, h⟩ := bind_eq_ok_iff.mp h
        obtain ⟨⟨len, c2⟩, hLen, h⟩ := bind_eq_ok_iff.mp h
        obtain ⟨⟨data, c3⟩, hData, h⟩ := bind_eq_ok_iff.mp h
        obtain ⟨rest, hRest, h⟩ := bind_eq_ok_iff.mp h
        cases h
        have hCode := (Cursor.u16_safe _).of_eq_ok hCode
        have hLen := (Cursor.u16_safe _).of_eq_ok hLen
        obtain ⟨hData, hLength⟩ := (Cursor.bytes_safe hLen.inside _).of_eq_ok hData
        have hAfter := ih hRest
        obtain ⟨hBuf1, hPos1, hEnd1⟩ := hCode
        obtain ⟨hBuf2, hPos2, hEnd2⟩ := hLen
        obtain ⟨hBuf3, hPos3, hEnd3⟩ := hData
        simp only [Cursor.remaining, List.map_cons, List.sum_cons] at hAfter ⊢
        dsimp only at *
        rw [hBuf3, hBuf2, hBuf1] at hAfter
        rw [hBuf2, hBuf1] at hEnd3
        rw [hBuf1] at hEnd2
        omega

/-- Where the fields of a record end, and where its data comes from. -/
theorem readRecord_spec {buf : Bytes} {pos p : Nat} {r : Record}
    (h : readRecord buf pos = .ok (r, p)) :
    ∃ start len, pos + 11 ≤ start ∧ p = start + len ∧ p ≤ buf.length ∧
      parseRdata buf start len r.rtype = .ok r.data := by
  obtain ⟨⟨name, p1⟩, hName, h⟩ := bind_eq_ok_iff.mp h
  obtain ⟨⟨rtype, p2⟩, hType, h⟩ := bind_eq_ok_iff.mp h
  obtain ⟨⟨rclass, p3⟩, hClass, h⟩ := bind_eq_ok_iff.mp h
  obtain ⟨⟨ttl, p4⟩, hTtl, h⟩ := bind_eq_ok_iff.mp h
  obtain ⟨⟨rdlen, p5⟩, hLen, h⟩ := bind_eq_ok_iff.mp h
  dsimp only at h
  split at h
  · cases h
  · obtain ⟨data, hData, h⟩ := bind_eq_ok_iff.mp h
    cases h
    have h1 := readName_end hName
    have h2 := readU16At_end hType
    have h3 := readU16At_end hClass
    have h4 := readU32At_end hTtl
    have h5 := readU16At_end hLen
    dsimp only at *
    exact ⟨p5, rdlen.toNat, by omega, rfl, by omega, hData⟩

theorem readRecord_end {buf : Bytes} {pos p : Nat} {r : Record}
    (h : readRecord buf pos = .ok (r, p)) : pos + 11 ≤ p ∧ p ≤ buf.length := by
  obtain ⟨start, len, hStart, hEnd, hInside, _⟩ := readRecord_spec h
  omega

theorem readRecord_options {buf : Bytes} {pos p : Nat} {r : Record}
    (h : readRecord buf pos = .ok (r, p)) (hType : r.rtype = typeOpt) :
    ∃ options, r.data = .opt 0 0 0 0 options ∧
      pos + 11 + (options.map fun o => o.data.length + 4).sum ≤ p := by
  obtain ⟨start, len, hStart, hEnd, hInside, hData⟩ := readRecord_spec h
  rw [hType, parseRdata, Bytes.slice_of_le (by omega) (by omega), ok_bind] at hData
  obtain ⟨options, hOptions, hValue⟩ := bind_eq_ok_iff.mp hData
  have hOpt := (Exec.ok.inj hValue).symm
  have hSum := optOptions_length hOptions
  simp only [Cursor.remaining, List.length_drop, List.length_take] at hSum
  exact ⟨options, hOpt, by omega⟩

/-- A loop of reads that each take so many bytes. -/
theorem times_end {α : Type} {buf : Bytes} {read : Nat → Result (α × Nat)} {room : Nat}
    (hRead : ∀ pos item p, read pos = .ok (item, p) → pos + room ≤ p ∧ p ≤ buf.length)
    {n pos p : Nat} {items : List α} (hStart : pos ≤ buf.length)
    (h : times read n pos = .ok (items, p)) :
    pos + room * items.length ≤ p ∧ p ≤ buf.length ∧
      ∀ item ∈ items, ∃ start next, pos ≤ start ∧ read start = .ok (item, next) := by
  induction n generalizing pos items with
  | zero =>
      cases h
      simpa using hStart
  | succ n ih =>
      rw [times_succ] at h
      obtain ⟨⟨item, next⟩, hFirst, h⟩ := bind_eq_ok_iff.mp h
      obtain ⟨⟨rest, last⟩, hRest, h⟩ := bind_eq_ok_iff.mp h
      cases h
      obtain ⟨hTaken, hInside⟩ := hRead pos item next hFirst
      obtain ⟨hEnd, hLast, hItems⟩ := ih hInside hRest
      refine ⟨?_, hLast, fun other hOther => ?_⟩
      · dsimp only at hEnd ⊢
        rw [List.length_cons, Nat.mul_succ]
        omega
      · rcases List.mem_cons.mp hOther with rfl | hOther
        · exact ⟨pos, next, Nat.le_refl _, hFirst⟩
        · obtain ⟨start, next', hStart', hItem⟩ := hItems other hOther
          exact ⟨start, next', by omega, hItem⟩

/-- The counts of the header have sixteen bits. -/
theorem parse_counts {buf : Bytes} {m : Message} (h : Message.parse buf = .ok m) :
    m.questions.length < 65536 ∧ m.answers.length < 65536 ∧ m.authority.length < 65536 ∧
      m.additional.length < 65536 := by
  obtain ⟨-, questions, answers, authority, records, p1, p2, p3, p4, hQuestions, hAnswers, hAuthority,
    hRecords, rfl⟩ := parse_eq_ok h
  obtain ⟨rcode, hFold⟩ := foldExtRcode_eq_withRcode ⟨headerOfFlags (headerWord buf 0)
    (headerWord buf 1), questions, answers, authority, records.map recoverOpt⟩
  rw [hFold]
  dsimp only
  rw [times_length hQuestions, times_length hAnswers, times_length hAuthority, List.length_map,
    times_length hRecords]
  exact ⟨UInt16.toNat_lt _, UInt16.toNat_lt _, UInt16.toNat_lt _, UInt16.toNat_lt _⟩

theorem recoverOpt_rtype (r : Record) : (recoverOpt r).rtype = r.rtype := by
  rw [recoverOpt]
  split_ifs
  · split <;> rfl
  · rfl

/-- A message of the buffer, its items taking their bytes behind the header. -/
theorem parse_sizes {buf : Bytes} {m : Message} (h : Message.parse buf = .ok m) :
    12 + 5 * m.questions.length +
        11 * (m.answers.length + m.authority.length + m.additional.length) ≤ buf.length ∧
      ∀ r ∈ m.additional, r.rtype = typeOpt → ∃ udpSize extRcode version flags options,
        r.data = .opt udpSize extRcode version flags options ∧
          12 + 5 * m.questions.length + 11 +
            (options.map fun o => o.data.length + 4).sum ≤ buf.length := by
  obtain ⟨hHeader, questions, answers, authority, records, p1, p2, p3, p4, hQuestions, hAnswers,
    hAuthority, hRecords, rfl⟩ := parse_eq_ok h
  obtain ⟨hEnd1, hIn1, _⟩ := times_end (fun _ _ _ => readQuestion_end) hHeader hQuestions
  obtain ⟨hEnd2, hIn2, _⟩ := times_end (fun _ _ _ => readRecord_end) hIn1 hAnswers
  obtain ⟨hEnd3, hIn3, _⟩ := times_end (fun _ _ _ => readRecord_end) hIn2 hAuthority
  obtain ⟨hEnd4, hIn4, hMem⟩ := times_end (fun _ _ _ => readRecord_end) hIn3 hRecords
  obtain ⟨rcode, hFold⟩ := foldExtRcode_eq_withRcode ⟨headerOfFlags (headerWord buf 0)
    (headerWord buf 1), questions, answers, authority, records.map recoverOpt⟩
  rw [hFold]
  dsimp only at *
  refine ⟨by simp only [List.length_map]; omega, fun r hr hType => ?_⟩
  obtain ⟨record, hRecord, rfl⟩ := List.mem_map.mp hr
  obtain ⟨start, next, hStart, hRead⟩ := hMem record hRecord
  have hRaw : record.rtype = typeOpt := recoverOpt_rtype record ▸ hType
  obtain ⟨options, hData, hOptions⟩ := readRecord_options hRead hRaw
  have hInside := (readRecord_end hRead).2
  refine ⟨_, _, _, _, options, by rw [recoverOpt, if_pos hRaw, hData], by omega⟩

end Dnsd.Proto

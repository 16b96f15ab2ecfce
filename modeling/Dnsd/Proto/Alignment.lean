import Dnsd.Proto.Headers
import Dnsd.Proto.ParseSizes
import Dnsd.Proto.Sizes
import Dnsd.Proto.Spelling

/-! Where the reader stands behind an item that was written, whatever it makes of it.
With no empty label and no data beyond its length field it keeps pace with the writer,
and the response code is read as it was given. -/

namespace Dnsd.Proto

open Bytes Exec

/-! ## Names -/

theorem pointer_marked (off : UInt16) :
    ∃ high low, (0xC000 ||| off).toBeBytes = [high, low] ∧ high &&& 0xC0 = 0xC0 := by
  have hHigh : ∀ k : Fin 64, UInt8.ofNat (192 + k.val) &&& 0xC0 = 0xC0 := by decide
  have hLarge : 0xC000 ≤ (0xC000 ||| off).toNat := by
    rw [UInt16.toNat_or]
    exact Nat.left_le_or
  have hSmall := (0xC000 ||| off).toNat_lt
  generalize hWord : (0xC000 ||| off) = word at hLarge hSmall
  refine ⟨UInt8.ofNat (word.toNat / 256), UInt8.ofNat word.toNat, rfl, ?_⟩
  have hSplit : word.toNat / 256 = 192 + (word.toNat / 256 - 192) := by omega
  rw [hSplit]
  exact hHigh ⟨word.toNat / 256 - 192, by omega⟩

/-- What ends the labels of a written name. -/
inductive Ending : Bytes → Prop where
  | root : Ending [0]
  | pointer (off : UInt16) : Ending (0xC000 ||| off).toBeBytes

theorem writePrefix_eq_ok {names : List Str} {enc enc' : Encoder}
    (h : writePrefix enc names = .ok enc') :
    (∀ l ∈ names, l.len ≤ 63) ∧ enc'.out = enc.out ++ names.flatMap labelBytes := by
  induction names generalizing enc with
  | nil =>
      cases h
      simp
  | cons label rest ih =>
      rw [writePrefix] at h
      split_ifs at h with hLong
      obtain ⟨hShort, hOut⟩ := ih h
      exact ⟨List.forall_mem_cons.mpr ⟨Nat.not_lt.mp hLong, hShort⟩, by rw [hOut]; simp⟩

theorem writeFull_eq_ok {names : List Str} {enc enc' : Encoder}
    (h : writeFull enc names = .ok enc') :
    (∀ l ∈ names, l.len ≤ 63) ∧ enc'.out = enc.out ++ names.flatMap labelBytes := by
  have hShort : ∀ l ∈ names, l.len ≤ 63 := fun l hl => by
    by_contra hLong
    rw [writeFull_long ⟨l, hl, Nat.not_le.mp hLong⟩] at h
    cases h
  obtain ⟨full, hFull, hOut, -⟩ := writeFull_ok hShort enc
  cases h.symm.trans hFull
  exact ⟨hShort, hOut⟩

/-- Some labels of the name and what ends them. -/
theorem writeName_form {enc enc' : Encoder} {name : Str} (h : enc.writeName name = .ok enc') :
    ∃ (before : List Str) (tail : Bytes), (∀ l ∈ before, l ∈ wireLabels name ∧ l.len ≤ 63) ∧
      Ending tail ∧ enc'.out = enc.out ++ (before.flatMap labelBytes ++ tail) := by
  rw [Encoder.writeName] at h
  rw [wireLabels]
  dsimp only at h ⊢
  split_ifs at h ⊢
  · cases h
    exact ⟨[], [0], by simp, .root, rfl⟩
  · split at h
    · rename_i before off hFind
      obtain ⟨after, -, hSplit, -⟩ := findSuffix_some hFind
      obtain ⟨mid, hWrite, h⟩ := bind_eq_ok_iff.mp h
      cases h
      obtain ⟨hShort, hOut⟩ := writePrefix_eq_ok hWrite
      refine ⟨before, _, fun l hl => ⟨?_, hShort l hl⟩, .pointer off, by simp [hOut]⟩
      rw [hSplit]
      exact List.mem_append_left _ hl
    · obtain ⟨mid, hWrite, h⟩ := bind_eq_ok_iff.mp h
      cases h
      obtain ⟨hShort, hOut⟩ := writeFull_eq_ok hWrite
      exact ⟨_, [0], fun l hl => ⟨hl, hShort l hl⟩, .root, by simp [hOut]⟩

/-- Reading ends where the labels and their ending do. -/
theorem readLabels_ending {buf : Bytes} {next : Nat} {before : List Str} {tail : Bytes}
    (hAt : At buf next (before.flatMap labelBytes ++ tail)) (hEnding : Ending tail)
    (hBefore : ∀ l ∈ before, l ≠ [] ∧ l.len ≤ 63) {guard pos p : Nat} {labels names : List Str}
    (h : readLabels buf guard next false pos labels = .ok (names, p)) :
    p = next + (before.flatMap labelBytes ++ tail).length := by
  induction before generalizing guard next labels with
  | nil =>
      cases guard with
      | zero => cases h
      | succ guard =>
          cases hEnding with
          | root =>
              rw [readLabels_root hAt] at h
              cases h
              rfl
          | pointer off =>
              have hEnd := hAt.length_le
              obtain ⟨high, low, hBytes, hHigh⟩ := pointer_marked off
              rw [List.flatMap_nil, List.nil_append, hBytes] at hAt hEnd ⊢
              rw [List.length_cons, List.length_singleton] at hEnd
              rw [readLabels, if_neg (by omega), hAt.idx, ok_bind, if_pos hHigh, if_neg (by omega),
                (At.tail hAt).idx, ok_bind] at h
              exact readLabels_end h
  | cons label rest ih =>
      cases guard with
      | zero => cases h
      | succ guard =>
          obtain ⟨hNonempty, hShort⟩ := hBefore label List.mem_cons_self
          rw [List.flatMap_cons, List.append_assoc] at hAt ⊢
          rw [readLabels_written hAt.left hNonempty hShort, ← labelBytes_length] at h
          have hRest := ih hAt.right (fun l hl => hBefore l (List.mem_cons_of_mem label hl)) h
          rw [hRest]
          simp only [List.length_append, Nat.add_assoc]

/-- The writer of a name appends, and a reader that returns stands behind it. -/
theorem readName_behind {enc enc' : Encoder} {name got : Str} {buf : Bytes} {p : Nat}
    (hLabels : [] ∉ wireLabels name) (hWrite : enc.writeName name = .ok enc')
    (hPrefix : enc'.out <+: buf) (hRead : readName buf enc.out.length = .ok (got, p)) :
    p = enc'.out.length := by
  obtain ⟨before, tail, hBefore, hEnding, hOut⟩ := writeName_form hWrite
  obtain ⟨rest, rfl⟩ := hPrefix
  have hAt : At (enc'.out ++ rest) enc.out.length (before.flatMap labelBytes ++ tail) := by
    rw [hOut]
    exact At.here ..
  obtain ⟨⟨labels, q⟩, hLoop, hPair⟩ := bind_eq_ok_iff.mp hRead
  cases hPair
  rw [readLabels_ending hAt hEnding (fun l hl => ⟨fun hNil => hLabels (hNil ▸ (hBefore l hl).1),
    (hBefore l hl).2⟩) hLoop, hOut]
  exact List.length_append.symm

/-! ## Questions and records -/

theorem readQuestion_behind {enc enc' : Encoder} {q got : Question} {buf : Bytes} {p : Nat}
    (hLabels : [] ∉ wireLabels q.name) (hWrite : enc.writeQuestion q = .ok enc')
    (hPrefix : enc'.out <+: buf) (hRead : readQuestion buf enc.out.length = .ok (got, p)) :
    p = enc'.out.length := by
  obtain ⟨mid, hName, hWrite⟩ := bind_eq_ok_iff.mp hWrite
  cases hWrite
  obtain ⟨⟨name, next⟩, hNameRead, hRead⟩ := bind_eq_ok_iff.mp hRead
  obtain ⟨⟨qtype, c⟩, hType, hRead⟩ := bind_eq_ok_iff.mp hRead
  obtain ⟨⟨qclass, c'⟩, hClass, hRead⟩ := bind_eq_ok_iff.mp hRead
  cases hRead
  have hNext := readName_behind hLabels hName
    (((push_start mid _).trans (push_start _ _)).trans hPrefix) hNameRead
  obtain ⟨-, hPos, -⟩ := (Cursor.u16_safe _).of_eq_ok hType
  obtain ⟨-, hPos', -⟩ := (Cursor.u16_safe _).of_eq_ok hClass
  dsimp only at hPos hPos' ⊢
  rw [hPos', hPos, hNext]
  simp

theorem rdataBytes_size {r : Record} {e : Bytes} (h : rdataBytes r = .ok e) :
    r.dataSize = some e.length := by
  rw [rdataBytes] at h
  rw [Record.dataSize]
  split_ifs at h ⊢
  · rw [encodeOptRdata] at h
    rw [Record.optSize]
    cases hData : r.data with
    | opt udpSize extRcode version flags options =>
        rw [hData] at h
        cases h
        refine congrArg some (flatMap_length (fun o => ?_) options).symm
        simp only [encodeOption, List.length_append, UInt16.toBeBytes_length]
    | _ => simp [hData] at h
  · exact (encodeRdata_size r.data).of_ok h

/-- What the reader keeps of a record whatever becomes of its name and its data. -/
structure ReadFor (got r : Record) : Prop where
  rtype : got.rtype = r.rtype
  ttl : got.ttl = r.onWire.ttl
  opt : got.rtype = typeOpt → ∃ options, got.data = .opt 0 0 0 0 options

theorem readRecord_behind {enc enc' : Encoder} {r got : Record} {buf : Bytes} {p : Nat}
    (hLabels : [] ∉ wireLabels r.name) (hSize : ∀ n, r.dataSize = some n → n < 65536)
    (hOpt : r.rtype = typeOpt → r.data.kind = .opt) (hWrite : enc.writeRecord r = .ok enc')
    (hPrefix : enc'.out <+: buf) (hRead : readRecord buf enc.out.length = .ok (got, p)) :
    p = enc'.out.length ∧ ReadFor got r := by
  obtain ⟨mid, hName, hBody⟩ := bind_eq_ok_iff.mp hWrite
  obtain ⟨e, hEncode⟩ : ∃ e, rdataBytes r = .ok e := by
    rw [rdataBytes]
    dsimp only at hBody
    split_ifs at hBody ⊢ with hType
    · rw [encodeOptRdata]
      cases hData : r.data with
      | opt => exact ⟨_, rfl⟩
      | _ => simp [hData, RData.kind] at hOpt; exact absurd hType hOpt
    · obtain ⟨e, hEncode, -⟩ := bind_eq_ok_iff.mp hBody
      exact ⟨e, hEncode⟩
  obtain ⟨enc'', hAgain, -, hOut⟩ := writeRecord_bytes hName hEncode
  cases hWrite.symm.trans hAgain
  obtain ⟨⟨name, next⟩, hNameRead, -⟩ := bind_eq_ok_iff.mp hRead
  have hMid : mid.out <+: enc'.out := ⟨_, hOut.symm⟩
  cases readName_behind hLabels hName (hMid.trans hPrefix) hNameRead
  obtain ⟨rest, rfl⟩ := hPrefix
  have hAt : At (enc'.out ++ rest) mid.out.length _ := hOut ▸ At.here mid.out _ rest
  have hFields := readRecord_fields hNameRead (hSize _ (rdataBytes_size hEncode)) hAt
  obtain ⟨d, -, hPair⟩ := bind_eq_ok_iff.mp (hFields.symm.trans hRead)
  have hOptions := readRecord_options hRead
  cases hPair
  refine ⟨?_, ⟨r.onWire_rtype, rfl, fun hType => ?_⟩⟩
  · rw [hOut]
    simp
    omega
  · obtain ⟨options, hData, -⟩ := hOptions hType
    exact ⟨options, hData⟩

/-- A reader that returns from a written section stands behind it. -/
theorem writeAll_behind {α : Type} {write : Encoder → α → Result Encoder}
    {read : Nat → Result (α × Nat)} {rel : α → α → Prop} {buf : Bytes} {items : List α}
    (hExtends : ∀ enc item, Extends enc (write enc item))
    (hItem : ∀ item ∈ items, ∀ enc enc' got p, write enc item = .ok enc' → enc'.out <+: buf →
      read enc.out.length = .ok (got, p) → p = enc'.out.length ∧ rel got item)
    {enc enc' : Encoder} (hWrite : Encoder.writeAll write enc items = .ok enc')
    (hPrefix : enc'.out <+: buf) {got : List α} {p : Nat}
    (hRead : Exec.times read items.length enc.out.length = .ok (got, p)) :
    p = enc'.out.length ∧ List.Forall₂ rel got items := by
  induction items generalizing enc got with
  | nil =>
      cases hWrite
      cases hRead
      exact ⟨rfl, .nil⟩
  | cons item rest ih =>
      obtain ⟨mid, hFirst, hRest⟩ := bind_eq_ok_iff.mp hWrite
      rw [List.length_cons, times_succ] at hRead
      obtain ⟨⟨head, next⟩, hHead, hRead⟩ := bind_eq_ok_iff.mp hRead
      obtain ⟨⟨tail, last⟩, hTail, hPair⟩ := bind_eq_ok_iff.mp hRead
      cases hPair
      have hMid : mid.out <+: buf := (writeAll_extends hExtends mid rest enc' hRest).trans hPrefix
      obtain ⟨rfl, hRel⟩ := hItem item List.mem_cons_self enc mid head next hFirst hMid hHead
      obtain ⟨hEnd, hRels⟩ :=
        ih (fun other hOther => hItem other (List.mem_cons_of_mem item hOther)) hRest hTail
      exact ⟨hEnd, .cons hRel hRels⟩

/-! ## Messages -/

/-- The reader can follow the writer through the whole message. -/
structure Message.Aligned (m : Message) : Prop where
  questions : ∀ q ∈ m.questions, [] ∉ wireLabels q.name
  names : ∀ r ∈ m.answers ++ m.authority ++ m.additional, [] ∉ wireLabels r.name
  sizes : ∀ r ∈ m.answers ++ m.authority ++ m.additional, ∀ n, r.dataSize = some n → n < 65536
  additionalCount : m.additional.length < 65536

/-- What a parsed message has, and keeps when it is changed for a reply. -/
structure Message.Received (m : Message) : Prop where
  questionCount : m.questions.length < 65536
  answerCount : m.answers.length < 65536
  authorityCount : m.authority.length < 65536
  opt : ∀ r ∈ m.answers ++ m.authority ++ m.additional, r.rtype = typeOpt → r.data.kind = .opt
  rcode : m.header.rcode = (m.header.rcode &&& 0xF) ||| m.extRcodeBits

theorem foldExtRcode_rcode (m : Message) :
    (foldExtRcode m).header.rcode = m.header.rcode ||| m.extRcodeBits := by
  rw [foldExtRcode, Message.extRcodeBits]
  cases m.edns with
  | none => exact UInt8.or_zero.symm
  | some opt =>
      obtain ⟨name, rtype, rclass, ttl, d⟩ := opt
      cases d with
      | opt => rfl
      | _ => exact UInt8.or_zero.symm

theorem foldExtRcode_bits (m : Message) : (foldExtRcode m).extRcodeBits = m.extRcodeBits := by
  obtain ⟨rcode, hFold⟩ := foldExtRcode_eq_withRcode m
  rw [hFold]
  rfl

/-- The bits are those of the first OPT record, and the same for the record that the
reader makes of it. -/
theorem extRcodeBits_of_read {m m' : Message} {records : List Record}
    (hRead : List.Forall₂ ReadFor records m.additional)
    (hOpt : ∀ r ∈ m.additional, r.rtype = typeOpt → r.data.kind = .opt)
    (hAdditional : m'.additional = records.map recoverOpt) : m'.extRcodeBits = m.extRcodeBits := by
  rw [Message.extRcodeBits, Message.extRcodeBits, Message.edns, Message.edns, hAdditional]
  clear hAdditional
  generalize m.additional = items at hRead hOpt
  induction hRead with
  | nil => rfl
  | @cons got r _ rest hHead _ ih =>
      by_cases hType : r.rtype = typeOpt
      · have hGot : got.rtype = typeOpt := hHead.rtype.trans hType
        obtain ⟨options, hData⟩ := hHead.opt hGot
        have hTtl := hHead.ttl
        have hKind := hOpt r List.mem_cons_self hType
        obtain ⟨name, rtype, rclass, ttl, d⟩ := r
        cases d with
        | opt udpSize extRcode version flags options' =>
            obtain ⟨hExt, -, -⟩ := packOptTtl_fields extRcode version flags
            rw [List.map_cons, List.find?_cons_of_pos (by simp [recoverOpt_rtype, hGot]),
              List.find?_cons_of_pos (by simpa using hType), recoverOpt, if_pos hGot, hData]
            dsimp only
            rw [hTtl, Record.onWire, hExt]
        | _ => cases hKind
      · have hGot : got.rtype ≠ typeOpt := fun h => hType (hHead.rtype.symm.trans h)
        rw [List.map_cons, List.find?_cons_of_neg (by simpa [recoverOpt_rtype] using hGot),
          List.find?_cons_of_neg (by simpa using hType)]
        exact ih fun r hr => hOpt r (List.mem_cons_of_mem _ hr)

/-- The code of an encoded message: its own bits in the header, and those of the first
OPT record that the reader meets. -/
theorem rcode_of_parse {m m' : Message} {b : Bytes} (hEncode : m.encode = .ok b)
    (hParse : Message.parse b = .ok m') :
    m'.header.rcode = (m.header.rcode &&& 0xF) ||| m'.extRcodeBits := by
  obtain ⟨-, questions, answers, authority, records, _, _, _, _, -, -, -, -, rfl⟩ := parse_eq_ok hParse
  obtain ⟨hId, hFlags, -⟩ := headerWords (encode_header hEncode)
  rw [foldExtRcode_bits, foldExtRcode_rcode, hId, hFlags, headerOfFlags_flagsOfHeader]
  rfl

theorem extRcodeBits_of_nil {m : Message} (h : m.additional = []) : m.extRcodeBits = 0 := by
  rw [Message.extRcodeBits, Message.edns, h]
  rfl

/-- Without an additional section there is none to be read. -/
theorem extRcodeBits_of_empty {m m' : Message} {b : Bytes} (hEncode : m.encode = .ok b)
    (hParse : Message.parse b = .ok m') (h : m.additional = []) : m'.extRcodeBits = 0 := by
  obtain ⟨-, questions, answers, authority, records, _, _, _, _, -, -, -, hRecords, rfl⟩ :=
    parse_eq_ok hParse
  obtain ⟨-, -, -, -, -, hCount⟩ := headerWords (encode_header hEncode)
  rw [hCount, h] at hRecords
  cases hRecords
  rw [foldExtRcode_bits]
  exact extRcodeBits_of_nil rfl

/-- The reader of an aligned message meets the OPT record that was written first. -/
theorem extRcodeBits_of_aligned {m m' : Message} {b : Bytes} (hReceived : m.Received)
    (hAligned : m.Aligned) (hEncode : m.encode = .ok b) (hParse : Message.parse b = .ok m') :
    m'.extRcodeBits = m.extRcodeBits := by
  obtain ⟨-, questions, answers, authority, records, p1, p2, p3, p4, hQuestions, hAnswers, hAuthority,
    hRecords, rfl⟩ := parse_eq_ok hParse
  obtain ⟨-, -, hCount2, hCount3, hCount4, hCount5⟩ := headerWords (encode_header hEncode)
  obtain ⟨enc1, enc2, enc3, enc4, hWrite1, hWrite2, hWrite3, hWrite4, rfl⟩ := encode_eq_ok hEncode
  have hCount {n : Nat} (hn : n < 65536) : (UInt16.ofNat n).toNat = n := by
    rw [UInt16.toNat_ofNat']
    omega
  rw [hCount2, hCount hReceived.questionCount] at hQuestions
  rw [hCount3, hCount hReceived.answerCount] at hAnswers
  rw [hCount4, hCount hReceived.authorityCount] at hAuthority
  rw [hCount5, hCount hAligned.additionalCount] at hRecords
  have hPrefix3 := writeAll_extends writeRecord_extends _ _ _ hWrite4
  have hPrefix2 := (writeAll_extends writeRecord_extends _ _ _ hWrite3).trans hPrefix3
  have hPrefix1 := (writeAll_extends writeRecord_extends _ _ _ hWrite2).trans hPrefix2
  have hRecord (r : Record) (hr : r ∈ m.answers ++ m.authority ++ m.additional) (enc enc' : Encoder)
      (got : Record) (p : Nat) (hWrite : enc.writeRecord r = .ok enc') (hPrefix : enc'.out <+: enc4.out)
      (hRead : readRecord enc4.out enc.out.length = .ok (got, p)) :=
    readRecord_behind (hAligned.names r hr) (hAligned.sizes r hr) (hReceived.opt r hr) hWrite hPrefix
      hRead
  have hStart : (Encoder.new.push (headerBytes m)).out.length = 12 := headerBytes_length m
  rw [← hStart] at hQuestions
  have hQuestion (q : Question) (hq : q ∈ m.questions) (enc enc' : Encoder) (got : Question) (p : Nat)
      (hWrite : enc.writeQuestion q = .ok enc') (hPrefix : enc'.out <+: enc4.out)
      (hRead : readQuestion enc4.out enc.out.length = .ok (got, p)) : p = enc'.out.length ∧ True :=
    ⟨readQuestion_behind (hAligned.questions q hq) hWrite hPrefix hRead, trivial⟩
  obtain ⟨rfl, -⟩ := writeAll_behind writeQuestion_extends hQuestion hWrite1 hPrefix1 hQuestions
  obtain ⟨rfl, -⟩ := writeAll_behind writeRecord_extends
    (fun r hr => hRecord r (by simp [hr])) hWrite2 hPrefix2 hAnswers
  obtain ⟨rfl, -⟩ := writeAll_behind writeRecord_extends
    (fun r hr => hRecord r (by simp [hr])) hWrite3 hPrefix3 hAuthority
  obtain ⟨-, hRead⟩ := writeAll_behind writeRecord_extends
    (fun r hr => hRecord r (by simp [hr])) hWrite4 List.prefix_rfl hRecords
  rw [foldExtRcode_bits]
  exact extRcodeBits_of_read hRead (fun r hr => hReceived.opt r (List.mem_append_right _ hr)) rfl

/-- An aligned message is read with the response code that it was written with. -/
theorem rcode_of_aligned {m m' : Message} {b : Bytes} (hReceived : m.Received)
    (hAligned : m.additional = [] ∨ m.Aligned) (hEncode : m.encode = .ok b)
    (hParse : Message.parse b = .ok m') : m'.header.rcode = m.header.rcode := by
  have hBits : m'.extRcodeBits = m.extRcodeBits := by
    rcases hAligned with hNil | hAligned
    · rw [extRcodeBits_of_empty hEncode hParse hNil, extRcodeBits_of_nil hNil]
    · exact extRcodeBits_of_aligned hReceived hAligned hEncode hParse
  rw [rcode_of_parse hEncode hParse, hBits, ← hReceived.rcode]

/-! ## Messages that were received -/

/-- The extended bits leave the four of the header alone. -/
theorem or_extRcodeBits_and (flags : UInt16) (m : Message) :
    ((flags &&& 0xF).toUInt8 ||| m.extRcodeBits) &&& 0xF = (flags &&& 0xF).toUInt8 := by
  have hHigh : m.extRcodeBits &&& 0xF = 0 := by
    have hAll : ∀ k : Fin 256, (UInt8.ofNat k.val <<< 4) &&& 0xF = 0 := by
      decide +kernel
    rw [Message.extRcodeBits]
    split
    · rename_i extRcode _ _ _ _
      have hExt := hAll ⟨extRcode.toNat, extRcode.toNat_lt⟩
      rwa [UInt8.ofNat_toNat] at hExt
    · rfl
  have hLow : (flags &&& 0xF).toUInt8 &&& 0xF = (flags &&& 0xF).toUInt8 := by
    apply UInt8.toNat_inj.mp
    have hSmall : (flags &&& 0xF).toNat < 2 ^ 4 := by
      rw [UInt16.toNat_and]
      exact Nat.and_lt_two_pow _ (by decide)
    rw [UInt8.toNat_and, UInt16.toNat_toUInt8, Nat.mod_eq_of_lt (by omega)]
    exact Nat.and_two_pow_sub_one_of_lt_two_pow (n := 4) hSmall
  have hSplit (a b : UInt8) : (a ||| b) &&& 0xF = (a &&& 0xF) ||| (b &&& 0xF) := by
    apply UInt8.toNat_inj.mp
    simp only [UInt8.toNat_and, UInt8.toNat_or]
    exact Nat.and_or_distrib_right ..
  rw [hSplit, hHigh, hLow, UInt8.or_zero]

theorem parse_received {buf : Bytes} {m : Message} (h : Message.parse buf = .ok m) : m.Received := by
  obtain ⟨hQuestionCount, hAnswerCount, hAuthorityCount, -⟩ := parse_counts h
  obtain ⟨hHeader, questions, answers, authority, records, p1, p2, p3, p4, hQuestions, hAnswers,
    hAuthority, hRecords, rfl⟩ := parse_eq_ok h
  obtain ⟨-, hIn1, -⟩ := times_end (fun _ _ _ => readQuestion_end) hHeader hQuestions
  obtain ⟨-, hIn2, hMem2⟩ := times_end (fun _ _ _ => readRecord_end) hIn1 hAnswers
  obtain ⟨-, hIn3, hMem3⟩ := times_end (fun _ _ _ => readRecord_end) hIn2 hAuthority
  obtain ⟨-, -, hMem4⟩ := times_end (fun _ _ _ => readRecord_end) hIn3 hRecords
  have hRead {start next : Nat} {r : Record} (hRead : readRecord buf start = .ok (r, next))
      (hType : r.rtype = typeOpt) : r.data.kind = .opt := by
    obtain ⟨options, hData, -⟩ := readRecord_options hRead hType
    rw [hData, RData.kind]
  refine ⟨hQuestionCount, hAnswerCount, hAuthorityCount, fun r hr hType => ?_, ?_⟩
  · obtain ⟨rcode, hFold⟩ := foldExtRcode_eq_withRcode ⟨headerOfFlags (headerWord buf 0)
      (headerWord buf 1), questions, answers, authority, records.map recoverOpt⟩
    rw [hFold] at hr
    rcases List.mem_append.mp hr with hr | hr
    · rcases List.mem_append.mp hr with hr | hr
      · obtain ⟨_, _, _, hSelf⟩ := hMem2 r hr
        exact hRead hSelf hType
      · obtain ⟨_, _, _, hSelf⟩ := hMem3 r hr
        exact hRead hSelf hType
    · obtain ⟨record, hRecord, rfl⟩ := List.mem_map.mp hr
      obtain ⟨_, _, _, hSelf⟩ := hMem4 record hRecord
      rw [recoverOpt_rtype] at hType
      obtain ⟨options, hData, -⟩ := readRecord_options hSelf hType
      rw [recoverOpt, if_pos hType, hData]
      rfl
  · rw [foldExtRcode_bits, foldExtRcode_rcode]
    dsimp only [headerOfFlags]
    rw [or_extRcodeBits_and]

end Dnsd.Proto

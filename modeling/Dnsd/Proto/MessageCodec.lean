import Dnsd.Proto.RdataCodec

/-! Whole messages are written and read back. The map of the encoder is sound
across all four sections, and each section is one loop over its items. -/

namespace Dnsd.Proto

open Bytes Exec

/-! ## Sections -/

/-- What is written between two states of the encoder reads as the given item,
wherever the message goes on from there. -/
structure ReadsAs {α : Type} (read : Bytes → Nat → Result (α × Nat)) (enc enc' : Encoder)
    (item : α) : Prop where
  sound : MapSound enc'
  grows : ∃ bs, enc'.out = enc.out ++ bs
  reads : ∀ rest, read (enc'.out ++ rest) enc.out.length = .ok (item, enc'.out.length)

/-- A loop of writes is read back by a loop of as many reads. -/
theorem writeAll_readsAs {α : Type} {write : Encoder → α → Result Encoder}
    {read : Bytes → Nat → Result (α × Nat)} (view : α → α) (items : List α)
    (hItem : ∀ item ∈ items, ∀ enc, MapSound enc →
      ∃ enc', write enc item = .ok enc' ∧ ReadsAs read enc enc' (view item))
    {enc : Encoder} (hMap : MapSound enc) :
    ∃ enc', Encoder.writeAll write enc items = .ok enc' ∧
      ReadsAs (fun buf => Exec.times (read buf) items.length) enc enc' (items.map view) := by
  induction items generalizing enc with
  | nil => exact ⟨enc, rfl, hMap, ⟨[], by simp⟩, fun rest => rfl⟩
  | cons item rest ih =>
      obtain ⟨mid, hWrite, hFirst⟩ := hItem item List.mem_cons_self enc hMap
      obtain ⟨enc', hWriteAll, hRest⟩ :=
        ih (fun other h => hItem other (List.mem_cons_of_mem item h)) hFirst.sound
      obtain ⟨bs, hBytes⟩ := hFirst.grows
      obtain ⟨more, hMore⟩ := hRest.grows
      refine ⟨enc', by rw [Encoder.writeAll, hWrite, ok_bind, hWriteAll], hRest.sound,
        ⟨bs ++ more, by rw [hMore, hBytes, List.append_assoc]⟩, fun tail => ?_⟩
      have hHead := hFirst.reads (more ++ tail)
      rw [← List.append_assoc, ← hMore] at hHead
      exact times_succ_of_ok hHead (hRest.reads tail)

/-- A question is read back as it was written. -/
theorem writeQuestion_readsAs {q : Question} (hName : LegibleName q.name) {enc : Encoder}
    (hMap : MapSound enc) :
    ∃ enc', enc.writeQuestion q = .ok enc' ∧ ReadsAs readQuestion enc enc' q := by
  obtain ⟨name, qtype, qclass⟩ := q
  obtain ⟨names, hNames, rfl⟩ := hName
  obtain ⟨mid, bs, hWrite, hBytes, hSound, hRead⟩ := writeName_spec hMap hNames
  refine ⟨(mid.push qtype.toBeBytes).push qclass.toBeBytes, ?_, (hSound.push _).push _,
    ⟨bs ++ qtype.toBeBytes ++ qclass.toBeBytes, by simp [hBytes]⟩, fun rest => ?_⟩
  · rw [Encoder.writeQuestion, hWrite, ok_bind]
  · have hType : At (mid.out ++ qtype.toBeBytes ++ qclass.toBeBytes ++ rest) mid.out.length
        qtype.toBeBytes := ⟨mid.out, qclass.toBeBytes ++ rest, by simp, rfl⟩
    have hClass : At (mid.out ++ qtype.toBeBytes ++ qclass.toBeBytes ++ rest) (mid.out.length + 2)
        qclass.toBeBytes := ⟨mid.out ++ qtype.toBeBytes, rest, rfl, by simp⟩
    simp only [Encoder.push_out]
    rw [readQuestion, List.append_assoc, List.append_assoc, hRead, ok_bind]
    dsimp only
    rw [← List.append_assoc, ← List.append_assoc, Cursor.u16_at hType, ok_bind]
    dsimp only
    rw [Cursor.u16_at hClass, ok_bind]
    simp

/-! ## Records -/

/-- Two bytes that stand at a place are read from there. -/
theorem readU16At_at {buf : Bytes} {pos : Nat} {x : UInt16} (h : At buf pos x.toBeBytes) :
    readU16At buf pos = .ok (x, pos + 2) := by
  have hEnd := h.length_le
  obtain ⟨b0, b1, hBytes, hValue⟩ := x.exists_toBeBytes
  rw [UInt16.toBeBytes_length] at hEnd
  rw [hBytes] at h
  rw [readU16At, if_neg (by omega), h.idx, ok_bind, h.tail.idx, ok_bind, hValue]

theorem readU32At_at {buf : Bytes} {pos : Nat} {x : UInt32} (h : At buf pos x.toBeBytes) :
    readU32At buf pos = .ok (x, pos + 4) := by
  have hEnd := h.length_le
  obtain ⟨b0, b1, b2, b3, hBytes, hValue⟩ := x.exists_toBeBytes
  rw [UInt32.toBeBytes_length] at hEnd
  rw [hBytes] at h
  rw [readU32At, if_neg (by omega), h.idx, ok_bind, h.tail.idx, ok_bind, h.tail.tail.idx,
    ok_bind, h.tail.tail.tail.idx, ok_bind, hValue]

/-- The RDATA that `write_record` writes. -/
def rdataBytes (r : Record) : Result Bytes :=
  if r.rtype = typeOpt then encodeOptRdata r else encodeRdata r.data

/-- The record that `read_record` makes of a written record: an OPT record
carries its fixed fields in its class and ttl. -/
def Record.onWire (r : Record) : Record :=
  match r.data with
  | .opt udpSize extRcode version flags options =>
      { r with rclass := udpSize, ttl := packOptTtl extRcode version flags,
               data := .opt 0 0 0 0 options }
  | _ => r

/-- A record that is written and read back: legible names, data of the layout
of its type, and lengths that fit their fields. -/
structure Record.Codable (nameOk : Str → Prop) (r : Record) : Prop where
  name : nameOk r.name
  kind : r.data.kind = rdataKind r.rtype
  data : r.data.Wf nameOk
  apart : ¬SharesSuffix r.data
  length : ∀ e, rdataBytes r = .ok e → e.length < 65536

@[simp] theorem Record.onWire_name (r : Record) : r.onWire.name = r.name := by
  unfold Record.onWire
  split <;> rfl

@[simp] theorem Record.onWire_rtype (r : Record) : r.onWire.rtype = r.rtype := by
  unfold Record.onWire
  split <;> rfl

/-- A record that is no OPT record goes over the wire as it is. -/
theorem Record.onWire_of_ne {r : Record} (hKind : r.data.kind ≠ .opt) : r.onWire = r := by
  unfold Record.onWire
  split
  · rename_i hData
    exact absurd (by rw [hData, RData.kind]) hKind
  · rfl

theorem Record.Codable.onWire_of_ne {nameOk : Str → Prop} {r : Record} (h : r.Codable nameOk)
    (hOpt : r.rtype ≠ typeOpt) : r.onWire = r :=
  Record.onWire_of_ne fun hKind => hOpt (rdataKind_eq_opt_iff.mp (h.kind ▸ hKind))

/-- The fields behind the name of a record, in their order. -/
theorem readRecord_fields {buf e : Bytes} {pos next : Nat} {name : Str} {rtype rclass : UInt16}
    {ttl : UInt32} (hName : readName buf pos = .ok (name, next)) (hLength : e.length < 65536)
    (hAt : At buf next (rtype.toBeBytes ++ rclass.toBeBytes ++ ttl.toBeBytes ++
      (UInt16.ofNat e.length).toBeBytes ++ e)) :
    readRecord buf pos = parseRdata buf (next + 10) e.length rtype >>= fun d =>
      .ok (⟨name, rtype, rclass, ttl, d⟩, next + 10 + e.length) := by
  have hEnd := hAt.length_le
  have hClass : At buf (next + 2) rclass.toBeBytes := by simpa using hAt.left.left.left.right
  have hTtl : At buf (next + 2 + 2) ttl.toBeBytes := by simpa using hAt.left.left.right
  have hLen : At buf (next + 2 + 2 + 4) (UInt16.ofNat e.length).toBeBytes := by
    simpa using hAt.left.right
  have hValue : (UInt16.ofNat e.length).toNat = e.length := by
    rw [UInt16.toNat_ofNat']
    omega
  rw [readRecord, hName, ok_bind]
  dsimp only
  rw [readU16At_at hAt.left.left.left.left, ok_bind]
  dsimp only
  rw [readU16At_at hClass, ok_bind]
  dsimp only
  rw [readU32At_at hTtl, ok_bind]
  dsimp only
  rw [readU16At_at hLen, ok_bind]
  dsimp only
  have hFits : ¬buf.length < next + 2 + 2 + 4 + 2 + (UInt16.ofNat e.length).toNat := by
    simp at hEnd
    omega
  rw [if_neg hFits, hValue]

/-- Data of an OPT record, and of every other record, as `read_record` has it. -/
theorem parseRdata_rdataBytes {r : Record} (h : r.Codable LegibleName) :
    ∃ e, rdataBytes r = .ok e ∧
      ∀ buf start, At buf start e → parseRdata buf start e.length r.rtype = .ok r.onWire.data := by
  by_cases hOpt : r.rtype = typeOpt
  · have hKind := h.kind
    rw [hOpt, rdataKind_eq_opt_iff.mpr rfl] at hKind
    have hWf := h.data
    rw [rdataBytes, if_pos hOpt, encodeOptRdata, Record.onWire]
    cases hData : r.data with
    | opt udpSize extRcode version flags options =>
        rw [hData] at hWf
        refine ⟨_, rfl, fun buf start hAt => ?_⟩
        rw [parseRdata_window hAt, hOpt, rdataKind_eq_opt_iff.mpr rfl]
        exact parseOptRdata_at hWf rfl
    | _ => simp [hData, RData.kind] at hKind
  · obtain ⟨e, hEncode, hRead⟩ := parseRdata_encode h.kind hOpt h.data h.apart
    exact ⟨e, by rw [rdataBytes, if_neg hOpt, hEncode], fun buf start hAt => by
      rw [hRead buf start hAt, h.onWire_of_ne hOpt]⟩

/-- What one call appends behind the name. -/
theorem writeRecord_bytes {r : Record} {enc mid : Encoder} {e : Bytes}
    (hName : enc.writeName r.name = .ok mid) (hEncode : rdataBytes r = .ok e) :
    ∃ enc', enc.writeRecord r = .ok enc' ∧ enc'.nameMap = mid.nameMap ∧
      enc'.out = mid.out ++ (r.onWire.rtype.toBeBytes ++ r.onWire.rclass.toBeBytes ++
        r.onWire.ttl.toBeBytes ++ (UInt16.ofNat e.length).toBeBytes ++ e) := by
  rw [Encoder.writeRecord, hName, ok_bind]
  dsimp only
  rw [rdataBytes] at hEncode
  by_cases hOpt : r.rtype = typeOpt
  · rw [if_pos hOpt] at hEncode ⊢
    rw [Record.onWire]
    cases hData : r.data with
    | opt udpSize extRcode version flags options =>
        dsimp only
        rw [hEncode, ok_bind]
        exact ⟨_, rfl, rfl, by simp [Encoder.pushRdata]⟩
    | _ => simp [encodeOptRdata, hData] at hEncode
  · rw [if_neg hOpt] at hEncode ⊢
    have hKind : r.data.kind ≠ .opt := by
      intro hKind
      cases hData : r.data with
      | opt => simp [hData, encodeRdata] at hEncode
      | _ => simp [hData, RData.kind] at hKind
    rw [Encoder.writePlain, hEncode, ok_bind, Record.onWire_of_ne hKind]
    exact ⟨_, rfl, rfl, by simp [Encoder.pushRdata]⟩

/-- A record under a legible name: where its data is read from, and as what. -/
theorem writeRecord_reading {r : Record} (hName : LegibleName r.name) {e : Bytes}
    (hEncode : rdataBytes r = .ok e) (hLength : e.length < 65536) {enc : Encoder}
    (hMap : MapSound enc) :
    ∃ enc' start, enc.writeRecord r = .ok enc' ∧ MapSound enc' ∧ (∃ bs, enc'.out = enc.out ++ bs) ∧
      ∀ rest, At (enc'.out ++ rest) start e ∧
        readRecord (enc'.out ++ rest) enc.out.length =
          parseRdata (enc'.out ++ rest) start e.length r.rtype >>= fun d =>
            .ok ({ r.onWire with data := d }, enc'.out.length) := by
  obtain ⟨names, hNames, hText⟩ := hName
  obtain ⟨mid, bs, hWrite, hBytes, hSound, hRead⟩ := writeName_spec hMap hNames
  obtain ⟨enc', hWriteRecord, hSame, hOut⟩ := writeRecord_bytes (hText ▸ hWrite) hEncode
  refine ⟨enc', mid.out.length + 10, hWriteRecord, ?_,
    ⟨_, by rw [hOut, hBytes, List.append_assoc]⟩, fun rest => ?_⟩
  · intro key off hGet
    rw [hSame] at hGet
    obtain ⟨hOff, labels, hNil, hLabels, hKey, hAt⟩ := hSound key off hGet
    exact ⟨hOff, labels, hNil, hLabels, hKey, hOut ▸ hAt.grow _⟩
  · have hAt : At (enc'.out ++ rest) mid.out.length _ := hOut ▸ At.here mid.out _ rest
    have hRest := hRead (r.onWire.rtype.toBeBytes ++ r.onWire.rclass.toBeBytes ++
      r.onWire.ttl.toBeBytes ++ (UInt16.ofNat e.length).toBeBytes ++ e ++ rest)
    rw [← List.append_assoc, ← hOut] at hRest
    have hEnd : mid.out.length + 10 + e.length = enc'.out.length := by
      rw [hOut]
      simp
      omega
    refine ⟨by simpa using hAt.right, ?_⟩
    rw [readRecord_fields hRest hLength hAt, hEnd, ← hText, ← r.onWire_name, ← r.onWire_rtype]

/-- A record is read back as it goes over the wire. -/
theorem writeRecord_readsAs {r : Record} (h : r.Codable LegibleName) {enc : Encoder}
    (hMap : MapSound enc) :
    ∃ enc', enc.writeRecord r = .ok enc' ∧ ReadsAs readRecord enc enc' r.onWire := by
  obtain ⟨e, hEncode, hParse⟩ := parseRdata_rdataBytes h
  obtain ⟨enc', start, hWrite, hSound, hGrows, hRead⟩ :=
    writeRecord_reading h.name hEncode (h.length e hEncode) hMap
  refine ⟨enc', hWrite, hSound, hGrows, fun rest => ?_⟩
  obtain ⟨hAt, hEquation⟩ := hRead rest
  rw [hEquation, hParse _ _ hAt, ok_bind]

/-! ## Header bits -/

/-- Masking a flag word can be done flag by flag. -/
theorem flagBit_and (b : Bool) (m mask : UInt16) :
    flagBit b m &&& mask = flagBit b (m &&& mask) := by
  cases b <;> simp [flagBit]

theorem flagBit_shiftRight (b : Bool) (m n : UInt16) :
    flagBit b m >>> n = flagBit b (m >>> n) := by
  cases b <;> simp [flagBit]

theorem flagBit_of_zero {m : UInt16} (h : m = 0) (b : Bool) : flagBit b m = 0 := by
  cases b <;> simp [flagBit, h]

/-- A flag is read back from its place. -/
theorem flagBit_set {m : UInt16} (h : m ≠ 0) (b : Bool) : decide (flagBit b m ≠ 0) = b := by
  cases b <;> simp [flagBit, h]

/-- A mask distributes over the parts of a flag word. -/
theorem or_and_distrib (a b mask : UInt16) : (a ||| b) &&& mask = (a &&& mask) ||| (b &&& mask) := by
  apply UInt16.toNat_inj.mp
  simp only [UInt16.toNat_and, UInt16.toNat_or]
  exact Nat.and_or_distrib_right ..

/-- A word without the bits of a mask has none of a smaller mask either. -/
theorem and_eq_zero_of_sub {x m mask : UInt16} (h : x &&& m = 0) (hSub : m &&& mask = mask) :
    x &&& mask = 0 := by
  rw [← hSub, ← UInt16.and_assoc, h, UInt16.zero_and]

/-- The low half of a byte has one of sixteen values. -/
theorem nibble (x : UInt8) : ∃ k : Fin 16, x &&& 0xF = UInt8.ofNat k.val := by
  refine ⟨⟨(x &&& 0xF).toNat, ?_⟩, by simp⟩
  rw [UInt8.toNat_and]
  exact Nat.and_lt_two_pow (n := 4) _ (by decide)

/-- The four bits of the opcode, in their place among the flags. -/
theorem opcode_bits (opcode : UInt8) :
    ((opcode.toUInt16 &&& 0xF) <<< 11) &&& 0x87FF = 0 ∧
      ((((opcode.toUInt16 &&& 0xF) <<< 11) >>> 11) &&& 0xF).toUInt8 = opcode &&& 0xF := by
  have hAll : ∀ k : Fin 16, ((UInt8.ofNat k.val).toUInt16 <<< 11) &&& 0x87FF = 0 ∧
      ((((UInt8.ofNat k.val).toUInt16 <<< 11) >>> 11) &&& 0xF).toUInt8 = UInt8.ofNat k.val := by
    decide
  obtain ⟨k, hk⟩ := nibble opcode
  have hWide : opcode.toUInt16 &&& 0xF = (opcode &&& 0xF).toUInt16 := by simp
  rw [hWide, hk]
  exact hAll k

/-- The response code stays within its four bits, away from the flags and the opcode. -/
theorem rcode_bits (rcode : UInt8) :
    (rcode &&& 0xF).toUInt16 &&& 0xFFF0 = 0 ∧
      ((rcode &&& 0xF).toUInt16 &&& 0xF).toUInt8 = rcode &&& 0xF ∧
      (rcode &&& 0xF).toUInt16 >>> 11 = 0 := by
  have hAll : ∀ k : Fin 16, (UInt8.ofNat k.val).toUInt16 &&& 0xFFF0 = 0 ∧
      ((UInt8.ofNat k.val).toUInt16 &&& 0xF).toUInt8 = UInt8.ofNat k.val ∧
      (UInt8.ofNat k.val).toUInt16 >>> 11 = 0 := by
    decide
  obtain ⟨k, hk⟩ := nibble rcode
  rw [hk]
  exact hAll k

/-- A header as it arrives: opcode and response code keep four bits each. -/
def Header.onWire (h : Header) : Header :=
  { h with opcode := h.opcode &&& 0xF, rcode := h.rcode &&& 0xF }

/-- The flag word is read back as the header that goes over the wire. -/
theorem headerOfFlags_flagsOfHeader (h : Header) :
    headerOfFlags h.id (flagsOfHeader h) = h.onWire := by
  obtain ⟨hOpcode, hOpcodeValue⟩ := opcode_bits h.opcode
  obtain ⟨hRcode, hRcodeValue, hRcodeShift⟩ := rcode_bits h.rcode
  simp only [headerOfFlags, Header.onWire, Header.mk.injEq, true_and]
  refine ⟨?_, ?opcode, ?_, ?_, ?_, ?_, ?_, ?_, ?rcode⟩
  case opcode =>
    simp (disch := decide) only [flagsOfHeader, UInt16.shiftRight_or, or_and_distrib,
      flagBit_shiftRight, flagBit_and, flagBit_of_zero, hRcodeShift, UInt16.or_zero,
      UInt16.zero_or]
    exact hOpcodeValue
  case rcode =>
    simp (disch := decide) only [flagsOfHeader, or_and_distrib, flagBit_and, flagBit_of_zero,
      and_eq_zero_of_sub hOpcode, UInt16.or_zero, UInt16.zero_or]
    exact hRcodeValue
  -- Each mask of the reader meets one flag of the writer and no other bit.
  all_goals
    simp (disch := decide) only [flagsOfHeader, or_and_distrib, flagBit_and, flagBit_of_zero,
      and_eq_zero_of_sub hOpcode, and_eq_zero_of_sub hRcode, UInt16.or_zero, UInt16.zero_or]
    exact flagBit_set (by decide) _

/-- The bytes of the ttl of an OPT record, taken apart again. -/
theorem packOptTtl_fields (extRcode version : UInt8) (flags : UInt16) :
    ((packOptTtl extRcode version flags >>> 24) &&& 0xFF).toUInt8 = extRcode ∧
      ((packOptTtl extRcode version flags >>> 16) &&& 0xFF).toUInt8 = version ∧
      (packOptTtl extRcode version flags &&& 0xFFFF).toUInt16 = flags := by
  have hE := extRcode.toNat_lt
  have hV := version.toNat_lt
  have hF := flags.toNat_lt
  have hValue : (packOptTtl extRcode version flags).toNat =
      (extRcode.toNat * 2 ^ 8 + version.toNat) * 2 ^ 16 + flags.toNat := by
    have hHigh : (extRcode.toUInt32 <<< 24).toNat = extRcode.toNat <<< 24 := by
      rw [UInt32.toNat_shiftLeft, UInt8.toNat_toUInt32, Nat.mod_eq_of_lt]
      · rfl
      · rw [Nat.shiftLeft_eq]
        change extRcode.toNat * 2 ^ 24 < 2 ^ 32
        omega
    have hLow : (version.toUInt32 <<< 16).toNat = version.toNat <<< 16 := by
      rw [UInt32.toNat_shiftLeft, UInt8.toNat_toUInt32, Nat.mod_eq_of_lt]
      · rfl
      · rw [Nat.shiftLeft_eq]
        change version.toNat * 2 ^ 16 < 2 ^ 32
        omega
    have hJoin : extRcode.toNat <<< 24 ||| version.toNat <<< 16 =
        (extRcode.toNat * 2 ^ 8 + version.toNat) <<< 16 := by
      rw [← Nat.shiftLeft_add_eq_or_of_lt (by rw [Nat.shiftLeft_eq]; omega)]
      simp only [Nat.shiftLeft_eq]
      omega
    rw [packOptTtl, UInt32.toNat_or, UInt32.toNat_or, hHigh, hLow, hJoin, UInt16.toNat_toUInt32,
      ← Nat.shiftLeft_add_eq_or_of_lt hF, Nat.shiftLeft_eq]
  have hMask8 (x : Nat) : x &&& 255 = x % 256 := Nat.and_two_pow_sub_one_eq_mod x 8
  have hMask16 (x : Nat) : x &&& 65535 = x % 65536 := Nat.and_two_pow_sub_one_eq_mod x 16
  refine ⟨UInt8.toNat_inj.mp ?_, UInt8.toNat_inj.mp ?_, UInt16.toNat_inj.mp ?_⟩
  · simp [hValue, hMask8, Nat.shiftRight_eq_div_pow]
    omega
  · simp [hValue, hMask8, Nat.shiftRight_eq_div_pow]
    omega
  · simp [hValue, hMask16]

/-! ## Messages -/

/-- A message that is written and read back, up to the bits that its header and
its OPT records have no room for. -/
structure Message.Codable (nameOk : Str → Prop) (m : Message) : Prop where
  questions : ∀ q ∈ m.questions, nameOk q.name
  records : ∀ r ∈ m.answers ++ m.authority ++ m.additional, r.Codable nameOk
  questionCount : m.questions.length < 65536
  answerCount : m.answers.length < 65536
  authorityCount : m.authority.length < 65536
  additionalCount : m.additional.length < 65536

/-- What can be written with names of a class can be with names of a larger one. -/
theorem Record.Codable.mono {nameOk nameOk' : Str → Prop}
    (hNames : ∀ name, nameOk name → nameOk' name) {r : Record} (h : r.Codable nameOk) :
    r.Codable nameOk' :=
  ⟨hNames _ h.name, h.kind, h.data.mono hNames, h.apart, h.length⟩

theorem Message.Codable.mono {nameOk nameOk' : Str → Prop}
    (hNames : ∀ name, nameOk name → nameOk' name) {m : Message} (h : m.Codable nameOk) :
    m.Codable nameOk' :=
  ⟨fun q hq => hNames _ (h.questions q hq), fun r hr => (h.records r hr).mono hNames,
    h.questionCount, h.answerCount, h.authorityCount, h.additionalCount⟩

/-- The header does not matter. -/
theorem Message.Codable.withHeader {nameOk : Str → Prop} {m : Message} (h : m.Codable nameOk)
    (header : Header) : ({ m with header := header } : Message).Codable nameOk :=
  ⟨h.questions, h.records, h.questionCount, h.answerCount, h.authorityCount, h.additionalCount⟩

/-- The message before the extended response code is folded in. -/
def Message.onWire (m : Message) : Message where
  header := m.header.onWire
  questions := m.questions
  answers := m.answers.map Record.onWire
  authority := m.authority.map Record.onWire
  additional := m.additional.map fun r => recoverOpt r.onWire

theorem headerBytes_length (m : Message) : (headerBytes m).length = 12 := by
  simp [headerBytes]

/-- A word of the header is read from its place. -/
theorem headerWord_at {buf : Bytes} {k : Nat} {x : UInt16} (h : At buf (2 * k) x.toBeBytes) :
    headerWord buf k = x := by
  obtain ⟨b0, b1, hBytes, hValue⟩ := x.exists_toBeBytes
  rw [hBytes] at h
  rw [headerWord, List.getD, List.getD, h.getElem?, h.tail.getElem?]
  exact hValue

/-- A message whose items are each written and read back is so as a whole, in the
form that the format has for it. -/
theorem parse_encode_of_reads {m : Message}
    (hQuestion : ∀ q ∈ m.questions, ∀ enc, MapSound enc →
      ∃ enc', Encoder.writeQuestion enc q = .ok enc' ∧ ReadsAs readQuestion enc enc' q)
    (hRecord : ∀ r ∈ m.answers ++ m.authority ++ m.additional, ∀ enc, MapSound enc →
      ∃ enc', Encoder.writeRecord enc r = .ok enc' ∧ ReadsAs readRecord enc enc' r.onWire)
    (hQuestionCount : m.questions.length < 65536) (hAnswerCount : m.answers.length < 65536)
    (hAuthorityCount : m.authority.length < 65536)
    (hAdditionalCount : m.additional.length < 65536) :
    ∃ b, m.encode = .ok b ∧ Message.parse b = .ok (foldExtRcode m.onWire) := by
  obtain ⟨enc1, hWrite1, hRead1⟩ := writeAll_readsAs id m.questions hQuestion
    (mapSound_new.push (headerBytes m))
  obtain ⟨enc2, hWrite2, hRead2⟩ := writeAll_readsAs Record.onWire m.answers
    (fun r hr enc hMap => hRecord r (by simp [hr]) enc hMap) hRead1.sound
  obtain ⟨enc3, hWrite3, hRead3⟩ := writeAll_readsAs Record.onWire m.authority
    (fun r hr enc hMap => hRecord r (by simp [hr]) enc hMap) hRead2.sound
  obtain ⟨enc4, hWrite4, hRead4⟩ := writeAll_readsAs Record.onWire m.additional
    (fun r hr enc hMap => hRecord r (by simp [hr]) enc hMap) hRead3.sound
  obtain ⟨bs1, hOut1⟩ := hRead1.grows
  obtain ⟨bs2, hOut2⟩ := hRead2.grows
  obtain ⟨bs3, hOut3⟩ := hRead3.grows
  obtain ⟨bs4, hOut4⟩ := hRead4.grows
  refine ⟨enc4.out, by rw [Message.encode, hWrite1, ok_bind, hWrite2, ok_bind, hWrite3, ok_bind,
    hWrite4, ok_bind], ?_⟩
  have hTimes1 := hRead1.reads (bs2 ++ bs3 ++ bs4)
  have hTimes2 := hRead2.reads (bs3 ++ bs4)
  have hTimes3 := hRead3.reads bs4
  have hTimes4 := hRead4.reads []
  have hAt : At enc4.out 0 (headerBytes m) := by
    rw [hOut4, hOut3, hOut2, hOut1]
    exact (((At.self _).grow bs1).grow bs2).grow bs3 |>.grow bs4
  have hEnd := hAt.length_le
  rw [headerBytes_length] at hEnd
  rw [← List.append_assoc, ← List.append_assoc, ← hOut2, ← hOut3, ← hOut4] at hTimes1
  rw [← List.append_assoc, ← hOut3, ← hOut4] at hTimes2
  rw [← hOut4] at hTimes3
  rw [List.append_nil] at hTimes4
  have hStart : (Encoder.new.push (headerBytes m)).out.length = 12 := headerBytes_length m
  rw [hStart, List.map_id] at hTimes1
  have hCount {n : Nat} (hn : n < 65536) : (UInt16.ofNat n).toNat = n := by
    rw [UInt16.toNat_ofNat']
    omega
  have hFlags : At enc4.out 2 (flagsOfHeader m.header).toBeBytes := by
    simpa using hAt.left.left.left.left.right
  have hQuestions : At enc4.out 4 (UInt16.ofNat m.questions.length).toBeBytes := by
    simpa using hAt.left.left.left.right
  have hAnswers : At enc4.out 6 (UInt16.ofNat m.answers.length).toBeBytes := by
    simpa using hAt.left.left.right
  have hAuthority : At enc4.out 8 (UInt16.ofNat m.authority.length).toBeBytes := by
    simpa using hAt.left.right
  have hAdditional : At enc4.out 10 (UInt16.ofNat m.additional.length).toBeBytes := by
    simpa using hAt.right
  rw [parse_of_header (by omega), headerWord_at (k := 0) hAt.left.left.left.left.left,
    headerWord_at (k := 1) hFlags, headerWord_at (k := 2) hQuestions,
    headerWord_at (k := 3) hAnswers, headerWord_at (k := 4) hAuthority,
    headerWord_at (k := 5) hAdditional, hCount hQuestionCount, hCount hAnswerCount,
    hCount hAuthorityCount, hCount hAdditionalCount, hTimes1, ok_bind]
  dsimp only
  rw [hTimes2, ok_bind]
  dsimp only
  rw [hTimes3, ok_bind]
  dsimp only
  rw [times_readAdditional, hTimes4, ok_bind, ok_bind, headerOfFlags_flagsOfHeader, List.map_map]
  rfl

/-- Every message within the limits of the format is written, and parsing the
bytes gives it back in the form that the format has for it. -/
theorem parse_encode {m : Message} (h : m.Codable LegibleName) :
    ∃ b, m.encode = .ok b ∧ Message.parse b = .ok (foldExtRcode m.onWire) :=
  parse_encode_of_reads (fun q hq _ hMap => writeQuestion_readsAs (h.questions q hq) hMap)
    (fun r hr _ hMap => writeRecord_readsAs (h.records r hr) hMap) h.questionCount h.answerCount
    h.authorityCount h.additionalCount

/-! ## Well-formed messages -/

/-- The part of the response code that the first OPT record holds. -/
def Message.extRcodeBits (m : Message) : UInt8 :=
  match m.edns with
  | some ⟨_, _, _, _, .opt _ extRcode _ _ _⟩ => extRcode <<< 4
  | _ => 0

/-- A message within the limits of the format: host names, records of the layout
of their type, OPT records in the additional section alone and consistent with
their class and ttl, and a response code of four bits and those of the OPT. -/
structure Message.WellFormed (m : Message) : Prop where
  codable : m.Codable HostName
  opcode : m.header.opcode < 16
  rcode : m.header.rcode = (m.header.rcode &&& 0xF) ||| m.extRcodeBits
  noOpt : ∀ r ∈ m.answers ++ m.authority, r.rtype ≠ typeOpt
  packed : ∀ r ∈ m.additional, ∀ udpSize extRcode version flags options,
    r.data = .opt udpSize extRcode version flags options →
      r.rclass = udpSize ∧ r.ttl = packOptTtl extRcode version flags

/-- An OPT record whose fields are packed in its class and lifetime is recovered from
them. -/
theorem recoverOpt_onWire {nameOk : Str → Prop} {r : Record} (h : r.Codable nameOk)
    (hPacked : ∀ udpSize extRcode version flags options,
      r.data = .opt udpSize extRcode version flags options →
        r.rclass = udpSize ∧ r.ttl = packOptTtl extRcode version flags) :
    recoverOpt r.onWire = r := by
  by_cases hOpt : r.rtype = typeOpt
  · obtain ⟨name, rtype, rclass, ttl, d⟩ := r
    have hKind := h.kind
    dsimp only at hOpt hKind
    rw [hOpt, rdataKind_eq_opt_iff.mpr rfl] at hKind
    cases d with
    | opt udpSize extRcode version flags options =>
        obtain ⟨hClass, hTtl⟩ := hPacked _ _ _ _ _ rfl
        obtain ⟨hExt, hVersion, hFlags⟩ := packOptTtl_fields extRcode version flags
        dsimp only at hClass hTtl
        subst hClass hTtl hOpt
        simp only [recoverOpt, Record.onWire, if_true, hExt, hVersion, hFlags]
    | _ => cases hKind
  · rw [h.onWire_of_ne hOpt, recoverOpt, if_neg hOpt]

/-- Folding the extended bits into the low four gives the whole code back. -/
theorem foldExtRcode_eq {nameOk : Str → Prop} {m : Message}
    (hCodable : ∀ r ∈ m.additional, r.Codable nameOk)
    (hRcode : m.header.rcode = (m.header.rcode &&& 0xF) ||| m.extRcodeBits) :
    foldExtRcode { m with header := { m.header with rcode := m.header.rcode &&& 0xF } } = m := by
  obtain ⟨header, questions, answers, authority, additional⟩ := m
  simp only [Message.extRcodeBits, Message.edns] at hRcode
  simp only [foldExtRcode, Message.edns]
  cases hEdns : additional.find? fun r => r.rtype == typeOpt with
  | none =>
      rw [hEdns] at hRcode
      dsimp only at hRcode ⊢
      rw [UInt8.or_zero] at hRcode
      rw [← hRcode]
  | some opt =>
      have hType : opt.rtype = typeOpt := by simpa using List.find?_some hEdns
      have hKind := (hCodable opt (List.mem_of_find?_eq_some hEdns)).kind
      obtain ⟨name, rtype, rclass, ttl, d⟩ := opt
      rw [hEdns] at hRcode
      dsimp only at hType hKind hRcode ⊢
      rw [hType, rdataKind_eq_opt_iff.mpr rfl] at hKind
      cases d with
      | opt udpSize extRcode version flags options =>
          dsimp only at hRcode ⊢
          rw [← hRcode]
      | _ => cases hKind

/-- Every well-formed message survives encoding and parsing unchanged, whatever suffixes
its names share and with an OPT record or without. -/
theorem parse_encode_wellFormed {m : Message} (h : m.WellFormed) :
    ∃ b, m.encode = .ok b ∧ Message.parse b = .ok m := by
  obtain ⟨b, hEncode, hParse⟩ := parse_encode (h.codable.mono fun _ => HostName.legible)
  refine ⟨b, hEncode, ?_⟩
  have hPlain (r : Record) (hr : r ∈ m.answers ++ m.authority) : r.onWire = r :=
    (h.codable.records r (List.mem_append_left _ hr)).onWire_of_ne (h.noOpt r hr)
  have hAnswers : m.answers.map Record.onWire = m.answers :=
    List.map_congr_left (g := id) (fun r hr => hPlain r (List.mem_append_left _ hr)) |>.trans
      (List.map_id _)
  have hAuthority : m.authority.map Record.onWire = m.authority :=
    List.map_congr_left (g := id) (fun r hr => hPlain r (List.mem_append_right _ hr)) |>.trans
      (List.map_id _)
  have hAdditional : (m.additional.map fun r => recoverOpt r.onWire) = m.additional :=
    List.map_congr_left (g := id) (fun r hr => recoverOpt_onWire
      (h.codable.records r (List.mem_append_right _ hr)) (h.packed r hr)) |>.trans (List.map_id _)
  have hOpcode : m.header.opcode &&& 0xF = m.header.opcode := by
    apply UInt8.toNat_inj.mp
    have hSmall : m.header.opcode.toNat < 16 := h.opcode
    rw [UInt8.toNat_and]
    exact Nat.and_two_pow_sub_one_of_lt_two_pow (n := 4) hSmall
  rw [hParse, Message.onWire, hAnswers, hAuthority, hAdditional, Header.onWire, hOpcode]
  congr 1
  exact foldExtRcode_eq (h.codable.records · <| List.mem_append_right _ ·) h.rcode

/-- An answer with a repeated name and an OPT record that extends the code. -/
def ednsAnswer : Message where
  header := { id := 7, qr := true, rd := true, rcode := 0x10 }
  questions := [⟨['a', '.', 'b', '.'], typeA, classIn⟩]
  answers := [⟨['a', '.', 'b', '.'], typeCname, classIn, 60, .name ['c', '.', 'b', '.']⟩]
  additional := [⟨['.'], typeOpt, 1232, packOptTtl 1 0 0, .opt 1232 1 0 0 [⟨8, [0, 1, 0, 0]⟩]⟩]

theorem ednsAnswer_names :
    HostName ['a', '.', 'b', '.'] ∧ HostName ['c', '.', 'b', '.'] ∧ HostName ['.'] :=
  ⟨hostName_nameText [['a'], ['b']] (by decide) (by decide),
    hostName_nameText [['c'], ['b']] (by decide) (by decide),
    hostName_nameText [] (by decide) (by decide)⟩

theorem ednsAnswer_codable : ednsAnswer.Codable HostName := by
  obtain ⟨hAnswer, hTarget, hRoot⟩ := ednsAnswer_names
  refine ⟨?_, ?_, by decide, by decide, by decide, by decide⟩
  · intro q hq
    rw [List.mem_singleton.mp hq]
    exact hAnswer
  · intro r hr
    rcases List.mem_cons.mp hr with rfl | hr
    · refine ⟨hAnswer, by decide, hTarget, by decide, fun e he => ?_⟩
      have hBytes : encodeRdata (.name ['c', '.', 'b', '.']) = .ok [1, 99, 1, 98, 0] := by decide
      rw [rdataBytes, if_neg (by decide), hBytes] at he
      cases he
      decide
    · rw [List.mem_singleton.mp hr]
      refine ⟨hRoot, by decide, fun o ho => ?_, by decide, fun e he => ?_⟩
      · rw [List.mem_singleton.mp ho]
        decide
      · rw [rdataBytes, if_pos rfl] at he
        cases he
        decide

/-- An answer with three names and an OPT record is read back as it was written. -/
theorem parse_encode_ednsAnswer :
    ∃ b, ednsAnswer.encode = .ok b ∧ Message.parse b = .ok ednsAnswer := by
  refine parse_encode_wellFormed ⟨ednsAnswer_codable, by decide, by decide, ?_, ?_⟩
  · intro r hr
    rw [List.mem_singleton.mp hr]
    decide
  · intro r hr udpSize extRcode version flags options hData
    rw [List.mem_singleton.mp hr] at hData ⊢
    cases hData
    decide

end Dnsd.Proto

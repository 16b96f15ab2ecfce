import Dnsd.Proto.NameCodec

/-! Record data is written and read back, wherever in a message it ends up. The
exception is an SOA record whose two names share a suffix: its pointer is
relative to the RDATA and the reader takes it as relative to the message. -/

namespace Dnsd.Proto

open Bytes Exec

/-! ## Reading what is known to be there -/

namespace Cursor

variable {buf : Bytes} {pos : Nat}

/-- A byte that stands at the cursor is read, and the cursor is behind it. -/
theorem u8_at {b : UInt8} (h : At buf pos [b]) :
    u8 ⟨buf, pos⟩ = .ok (b, ⟨buf, pos + 1⟩) := by
  have hEnd := h.length_le
  have hRoom : ¬remaining ⟨buf, pos⟩ < 1 := by
    simp only [remaining]
    simp at hEnd
    omega
  rw [u8, if_neg hRoom, h.idx, ok_bind]

/-- So are two, in network order. -/
theorem u16_at {x : UInt16} (h : At buf pos x.toBeBytes) :
    u16 ⟨buf, pos⟩ = .ok (x, ⟨buf, pos + 2⟩) := by
  have hEnd := h.length_le
  obtain ⟨b0, b1, hBytes, hValue⟩ := x.exists_toBeBytes
  have hRoom : ¬remaining ⟨buf, pos⟩ < 2 := by
    simp only [remaining]
    simp at hEnd
    omega
  rw [hBytes] at h
  rw [u16, if_neg hRoom, h.idx, ok_bind, h.tail.idx, ok_bind, hValue]

theorem u32_at {x : UInt32} (h : At buf pos x.toBeBytes) :
    u32 ⟨buf, pos⟩ = .ok (x, ⟨buf, pos + 4⟩) := by
  have hEnd := h.length_le
  obtain ⟨b0, b1, b2, b3, hBytes, hValue⟩ := x.exists_toBeBytes
  have hRoom : ¬remaining ⟨buf, pos⟩ < 4 := by
    simp only [remaining]
    simp at hEnd
    omega
  rw [hBytes] at h
  rw [u32, if_neg hRoom, h.idx, ok_bind, h.tail.idx, ok_bind, h.tail.tail.idx, ok_bind,
    h.tail.tail.tail.idx, ok_bind, hValue]

/-- Bytes that stand at the cursor are read as they are, and the cursor is behind them. -/
theorem bytes_at {bs : Bytes} (h : At buf pos bs) :
    bytes ⟨buf, pos⟩ bs.length = .ok (bs, ⟨buf, pos + bs.length⟩) := by
  have hEnd := h.length_le
  have hRoom : ¬remaining ⟨buf, pos⟩ < bs.length := by
    simp only [remaining]
    omega
  rw [bytes, if_neg hRoom, h.slice, ok_bind]

end Cursor

theorem rawU32_at {buf : Bytes} {pos : Nat} {x : UInt32} (h : At buf pos x.toBeBytes) :
    rawU32 buf pos = .ok x := by
  obtain ⟨b0, b1, b2, b3, hBytes, hValue⟩ := x.exists_toBeBytes
  rw [hBytes] at h
  rw [rawU32, h.idx, ok_bind, h.tail.idx, ok_bind, h.tail.tail.idx, ok_bind,
    h.tail.tail.tail.idx, ok_bind, hValue]

/-- A string list is read back as long as each length fits its byte. -/
theorem txtStrings_at {buf : Bytes} {strings : List Bytes} (hShort : ∀ s ∈ strings, s.length ≤ 255)
    {pos turns : Nat} (hAt : At buf pos (strings.flatMap encodeTxtString))
    (hEnd : pos + (strings.flatMap encodeTxtString).length = buf.length)
    (hTurns : strings.length ≤ turns) :
    txtStrings turns ⟨buf, pos⟩ = .ok strings := by
  induction strings generalizing pos turns with
  | nil =>
      cases turns with
      | zero => rfl
      | succ turns =>
          rw [txtStrings, if_pos]
          simp only [Cursor.remaining]
          simp at hEnd
          omega
  | cons s rest ih =>
      obtain ⟨turns, rfl⟩ : ∃ t, turns = t + 1 := ⟨turns - 1, by simp at hTurns; omega⟩
      rw [List.flatMap_cons] at hAt hEnd
      have hRoom : ¬Cursor.remaining ⟨buf, pos⟩ = 0 := by
        simp only [Cursor.remaining]
        simp [encodeTxtString] at hEnd
        omega
      have hValue : (UInt8.ofNat s.length).toNat = s.length := by
        have := hShort s List.mem_cons_self
        rw [UInt8.toNat_ofNat']
        omega
      have hRest : At buf (pos + 1 + s.length) (rest.flatMap encodeTxtString) := by
        have h := hAt.right
        rwa [encodeTxtString, List.length_cons, Nat.add_comm s.length, ← Nat.add_assoc] at h
      rw [txtStrings, if_neg hRoom, Cursor.u8_at hAt.left.head, ok_bind]
      dsimp only
      rw [hValue, Cursor.bytes_at hAt.left.tail, ok_bind]
      dsimp only
      rw [ih (fun t ht => hShort t (List.mem_cons_of_mem s ht)) hRest
        (by simp [encodeTxtString] at hEnd ⊢; omega) (by simpa using hTurns), ok_bind]

/-- Options that stand one behind the other up to the end are read as they were written.
-/
theorem optOptions_at {buf : Bytes} {options : List OptOption}
    (hShort : ∀ o ∈ options, o.data.length < 65536) {pos turns : Nat}
    (hAt : At buf pos (options.flatMap encodeOption))
    (hEnd : pos + (options.flatMap encodeOption).length = buf.length)
    (hTurns : options.length ≤ turns) :
    optOptions turns ⟨buf, pos⟩ = .ok options := by
  induction options generalizing pos turns with
  | nil =>
      cases turns with
      | zero => rfl
      | succ turns =>
          rw [optOptions, if_pos]
          simp only [Cursor.remaining]
          simp at hEnd
          omega
  | cons o rest ih =>
      obtain ⟨turns, rfl⟩ : ∃ t, turns = t + 1 := ⟨turns - 1, by simp at hTurns; omega⟩
      rw [List.flatMap_cons] at hAt hEnd
      have hRoom : ¬Cursor.remaining ⟨buf, pos⟩ < 4 := by
        simp only [Cursor.remaining]
        simp [encodeOption] at hEnd
        omega
      have hValue : (UInt16.ofNat o.data.length).toNat = o.data.length := by
        have := hShort o List.mem_cons_self
        rw [UInt16.toNat_ofNat']
        omega
      have hLen : At buf (pos + 2) (UInt16.ofNat o.data.length).toBeBytes := by
        simpa using hAt.left.left.right
      have hData : At buf (pos + 2 + 2) o.data := by
        simpa using hAt.left.right
      have hRest : At buf (pos + 2 + 2 + o.data.length) (rest.flatMap encodeOption) := by
        have h := hAt.right
        simp only [encodeOption, List.length_append, UInt16.toBeBytes_length] at h
        rwa [← Nat.add_assoc] at h
      rw [optOptions, if_neg hRoom, Cursor.u16_at hAt.left.left.left, ok_bind]
      dsimp only
      rw [Cursor.u16_at hLen, ok_bind]
      dsimp only
      rw [hValue, Cursor.bytes_at hData, ok_bind]
      dsimp only
      rw [ih (fun t ht => hShort t (List.mem_cons_of_mem o ht)) hRest
        (by simp [encodeOption] at hEnd ⊢; omega) (by simpa using hTurns), ok_bind]

theorem length_le_flatMap {α : Type} (items : List α) (f : α → Bytes)
    (h : ∀ a ∈ items, 1 ≤ (f a).length) : items.length ≤ (items.flatMap f).length := by
  induction items with
  | nil => simp
  | cons a rest ih =>
      have ha := h a List.mem_cons_self
      have hRest := ih fun b hb => h b (List.mem_cons_of_mem a hb)
      simp only [List.length_cons, List.flatMap_cons, List.length_append]
      omega

/-! ## Well-formed data -/

/-- Every name is as required, and each one-byte length field holds its length. -/
def RData.Wf (nameOk : Str → Prop) : RData → Prop
  | .name target => nameOk target
  | .mx _ exchange => nameOk exchange
  | .soa mname rname .. => nameOk mname ∧ nameOk rname
  | .txt strings => ∀ s ∈ strings, s.length ≤ 255
  | .srv _ _ _ target => nameOk target
  | .caa _ tag _ => tag.len ≤ 255
  | .rrsig _ _ _ _ _ _ _ signerName _ => nameOk signerName
  | .nsec nextDomain _ => nameOk nextDomain
  | .opt _ _ _ _ options => ∀ o ∈ options, o.data.length < 65536
  | .a _ | .aaaa _ | .raw _ => True

/-- Data that is well formed with names of a class is so with names of a larger one. -/
theorem RData.Wf.mono {nameOk nameOk' : Str → Prop} (hNames : ∀ name, nameOk name → nameOk' name)
    {d : RData} (h : d.Wf nameOk) : d.Wf nameOk' := by
  cases d with
  | soa mname rname => exact ⟨hNames mname h.1, hNames rname h.2⟩
  | name target => exact hNames target h
  | mx preference exchange => exact hNames exchange h
  | srv priority weight port target => exact hNames target h
  | rrsig typeCovered algorithm labels originalTtl expiration inception keyTag signerName
      signature => exact hNames signerName h
  | nsec nextDomain typeBitmaps => exact hNames nextDomain h
  | a | aaaa | txt | caa | raw | opt => exact h

/-- The last label of a name, or nothing for the root. -/
def topLabel (name : Str) : Str := ((Str.trimEndMatches name '.').splitOn '.').getLastD []

/-- An SOA record whose names are not the root and end in the same label. -/
def SharesSuffix : RData → Prop
  | .soa mname rname .. => mname ≠ ['.'] ∧ topLabel mname = topLabel rname
  | _ => False

instance (d : RData) : Decidable (SharesSuffix d) := by
  cases d <;> unfold SharesSuffix <;> infer_instance

/-- The last label of a text is that of its list. -/
theorem topLabel_nameText {labels : List Str} (h : Legible labels) :
    topLabel (nameText labels) = labels.getLastD [] := by
  by_cases hNil : labels = []
  · subst hNil
    decide
  · rw [topLabel, h.splitOn_nameText hNil]

/-! ## Names of one RDATA -/

/-- A name that can be read has at most 254 labels of 63 octets, and its end. -/
theorem wireName_legible_length {labels : List Str} (h : Legible labels) :
    (wireName labels).length ≤ 254 * 64 + 1 := by
  have hLength : ∀ (ls : List Str), (∀ l ∈ ls, l.len ≤ 63) →
      (ls.flatMap labelBytes).length ≤ ls.length * 64 := by
    intro ls hShort
    induction ls with
    | nil => simp
    | cons l rest ih =>
        have hl := hShort l List.mem_cons_self
        have hRest := ih fun m hm => hShort m (List.mem_cons_of_mem l hm)
        simp only [List.flatMap_cons, List.length_append, labelBytes_length, List.length_cons,
          Nat.succ_mul]
        omega
  have hAll := hLength labels fun l hl => (h.label l hl).short
  have hCount := h.count
  simp only [wireName, List.length_append, List.length_singleton]
  omega

/-- Below the pointer limit a full write records every one of its suffixes. -/
theorem writeFull_records {names : List Str} (hNames : ∀ l ∈ names, l.len ≤ 63) {enc enc' : Encoder}
    (hRange : enc.out.length + (names.flatMap labelBytes).length ≤ 0x3FFF)
    (hWrite : writeFull enc names = .ok enc') :
    (∀ key, (enc.nameMap.get key).isSome → (enc'.nameMap.get key).isSome) ∧
      ∀ before after, names = before ++ after → after ≠ [] →
        (enc'.nameMap.get (dotted after)).isSome := by
  induction names generalizing enc with
  | nil =>
      cases hWrite
      refine ⟨fun key h => h, fun before after hSplit hNil => ?_⟩
      simp at hSplit
      exact absurd hSplit.2 hNil
  | cons label rest ih =>
      have hLabel := hNames label List.mem_cons_self
      rw [writeFull, if_neg (by omega)] at hWrite
      have hOut : ((enc.push (labelBytes label)).record (dotted (label :: rest))
          enc.out.length).out.length = enc.out.length + (label.len + 1) := by simp
      simp only [List.flatMap_cons, List.length_append, labelBytes_length] at hRange
      obtain ⟨hKeep, hNew⟩ := ih (fun l hl => hNames l (List.mem_cons_of_mem label hl))
        (by omega) hWrite
      have hRecord (key : Str) :
          ((enc.push (labelBytes label)).record (dotted (label :: rest))
            enc.out.length).nameMap.get key =
          if key = dotted (label :: rest) then some (UInt16.ofNat enc.out.length)
          else enc.nameMap.get key := by
        rw [Encoder.record, if_pos (by omega)]
        exact HashMap.get_insert ..
      refine ⟨fun key h => hKeep key ?_, fun before after hSplit hNil => ?_⟩
      · rw [hRecord]
        split_ifs
        · rfl
        · exact h
      · cases before with
        | nil =>
            refine hKeep _ ?_
            rw [← show label :: rest = after from hSplit, hRecord, if_pos rfl]
            rfl
        | cons b before =>
            rw [List.cons_append] at hSplit
            exact hNew before after (List.cons.inj hSplit).2 hNil

/-- A suffix that is in the map is found behind any labels. -/
theorem findSuffix_isSome {map : HashMap Str UInt16} {before after : List Str} (hNil : after ≠ [])
    (hGet : (map.get (dotted after)).isSome) : (findSuffix map (before ++ after)).isSome := by
  induction before with
  | nil =>
      obtain ⟨label, rest, rfl⟩ := List.exists_cons_of_ne_nil hNil
      obtain ⟨off, hOff⟩ := Option.isSome_iff_exists.mp hGet
      simp [findSuffix, hOff]
  | cons b before ih =>
      rw [List.cons_append, findSuffix]
      cases map.get (dotted (b :: (before ++ after))) with
      | some off => rfl
      | none => simpa using ih

/-- The encoder after the first name of an RDATA: the name stands in full, and
the map lists exactly its suffixes. -/
theorem writeName_new {names : List Str} (hNames : Legible names) :
    ∃ enc, Encoder.new.writeName (nameText names) = .ok enc ∧ enc.out = wireName names ∧
      MapSound enc ∧
      (∀ key off, enc.nameMap.get key = some off →
        ∃ before after, names = before ++ after ∧ after ≠ [] ∧ key = dotted after) ∧
      ∀ before after, names = before ++ after → after ≠ [] →
        (enc.nameMap.get (dotted after)).isSome := by
  obtain ⟨enc, bs, hWrite, _, hSound, _⟩ := writeName_spec mapSound_new hNames
  refine ⟨enc, hWrite, ?_, hSound, ?_⟩
  · have hAlone := encodeNamesAlone_one hNames
    rw [encodeNamesAlone, encodeNames, hWrite, ok_bind, encodeNames, ok_bind] at hAlone
    exact Exec.ok.inj hAlone
  · rw [Encoder.writeName] at hWrite
    dsimp only at hWrite
    rw [hNames.canonicalName_nameText] at hWrite
    by_cases hNil : names = []
    · subst hNil
      rw [if_pos (by rfl)] at hWrite
      cases hWrite
      refine ⟨fun key off h => by simp [Encoder.new] at h, fun before after hSplit hAfter => ?_⟩
      simp at hSplit
      exact absurd hSplit.2 hAfter
    · rw [if_neg (hNames.nameText_ne_root hNil), hNames.splitOn_nameText hNil,
        show Encoder.new.nameMap = ∅ from rfl, findSuffix_empty] at hWrite
      dsimp only at hWrite
      have hShort : ∀ l ∈ names, l.len ≤ 63 := fun l hl => (hNames.label l hl).short
      obtain ⟨full, hFull, _, hMap⟩ := writeFull_ok hShort Encoder.new
      rw [hFull, ok_bind] at hWrite
      cases hWrite
      refine ⟨fun key off hGet => ?_, ?_⟩
      · rcases hMap key off hGet with h | ⟨before, after, hSplit, hAfter, hKey, _⟩
        · simp [Encoder.new] at h
        · exact ⟨before, after, hSplit, hAfter, hKey⟩
      · have hLength := wireName_legible_length hNames
        simp only [wireName, List.length_append, List.length_singleton] at hLength
        exact (writeFull_records hShort (by change 0 + _ ≤ _; omega) hFull).2

/-- Two names without a common last label are both written out in full. -/
theorem encodeNamesAlone_two {mnames rnames : List Str} (hM : Legible mnames) (hR : Legible rnames)
    (hShares : ¬(mnames ≠ [] ∧ mnames.getLastD [] = rnames.getLastD [])) :
    encodeNamesAlone [nameText mnames, nameText rnames] =
      .ok (wireName mnames ++ wireName rnames) := by
  obtain ⟨enc, hWrite, hOut, _, hOnly, _⟩ := writeName_new hM
  have hFind (names : List Str) (hSuffix : ∃ before, rnames = before ++ names) :
      findSuffix enc.nameMap names = none := by
    induction names with
    | nil => rfl
    | cons label rest ih =>
        obtain ⟨before, hBefore⟩ := hSuffix
        rw [findSuffix, ih ⟨before ++ [label], by simp [hBefore]⟩]
        cases hGet : enc.nameMap.get (dotted (label :: rest)) with
        | none => rfl
        | some off =>
            obtain ⟨front, after, hSplit, hAfter, hKey⟩ := hOnly _ _ hGet
            have hSame : label :: rest = after := dotted_injective (by simp) hAfter
              (fun l hl => hR.parts l (hBefore ▸ List.mem_append_right _ hl))
              (fun l hl => hM.parts l (hSplit ▸ List.mem_append_right _ hl)) hKey
            refine absurd ⟨?_, ?_⟩ hShares
            · rw [hSplit]
              simp [hAfter]
            · rw [hSplit, hBefore, hSame, List.getLastD_eq_getLast?, List.getLastD_eq_getLast?,
                List.getLast?_append_of_ne_nil _ hAfter, List.getLast?_append_of_ne_nil _ hAfter]
  have hSecond : ∃ enc', enc.writeName (nameText rnames) = .ok enc' ∧
      enc'.out = wireName mnames ++ wireName rnames := by
    rw [Encoder.writeName]
    dsimp only
    rw [hR.canonicalName_nameText]
    by_cases hNil : rnames = []
    · subst hNil
      exact ⟨_, rfl, by simp [hOut, wireName]⟩
    rw [if_neg (hR.nameText_ne_root hNil), hR.splitOn_nameText hNil, hFind rnames ⟨[], rfl⟩]
    obtain ⟨full, hFull, hBytes, _⟩ := writeFull_ok (fun l hl => (hR.label l hl).short) enc
    dsimp only
    rw [hFull, ok_bind]
    exact ⟨_, rfl, by simp [hBytes, hOut, wireName]⟩
  obtain ⟨enc', hWrite', hOut'⟩ := hSecond
  rw [encodeNamesAlone, encodeNames, hWrite, ok_bind, encodeNames, hWrite', ok_bind, encodeNames,
    ok_bind, hOut']

/-- A shared last label makes the second name end in a pointer into the first. -/
theorem encodeNamesAlone_shared {mnames rnames : List Str} (hM : Legible mnames)
    (hR : Legible rnames) (hNil : mnames ≠ [])
    (hTop : mnames.getLastD [] = rnames.getLastD []) :
    ∃ (before after : List Str) (off : UInt16), rnames = before ++ after ∧ after ≠ [] ∧
      off.toNat ≤ 0x3FFF ∧ off.toNat < (wireName mnames).length ∧
      encodeNamesAlone [nameText mnames, nameText rnames] =
        .ok (wireName mnames ++ (before.flatMap labelBytes ++ (0xC000 ||| off).toBeBytes)) := by
  obtain ⟨enc, hWrite, hOut, hSound, _, hAll⟩ := writeName_new hM
  have hLast : mnames.getLastD [] = mnames.getLast hNil := by
    rw [List.getLastD_eq_getLast?, List.getLast?_eq_some_getLast hNil, Option.getD_some]
  have hRNil : rnames ≠ [] := by
    rintro rfl
    refine (hM.label _ (List.getLast_mem hNil)).nonempty ?_
    rw [← hLast, hTop]
    rfl
  have hRLast : rnames.getLast hRNil = mnames.getLast hNil := by
    rw [← hLast, hTop, List.getLastD_eq_getLast?, List.getLast?_eq_some_getLast hRNil,
      Option.getD_some]
  have hFind : (findSuffix enc.nameMap rnames).isSome := by
    rw [← List.dropLast_concat_getLast hRNil, hRLast]
    exact findSuffix_isSome (by simp)
      (hAll mnames.dropLast _ (List.dropLast_concat_getLast hNil).symm (by simp))
  obtain ⟨⟨before, off⟩, hFind⟩ := Option.isSome_iff_exists.mp hFind
  obtain ⟨after, hAfter, hSplit, hGet⟩ := findSuffix_some hFind
  obtain ⟨hOff, labels, _, _, _, hAt⟩ := hSound _ _ hGet
  have hEnd := hAt.length_le
  rw [hOut] at hEnd
  refine ⟨before, after, off, hSplit, hAfter, hOff, ?_, ?_⟩
  · simp only [wireName, List.length_append, List.length_singleton] at hEnd ⊢
    omega
  · have hSecond : enc.writeName (nameText rnames) =
        .ok ((enc.push (before.flatMap labelBytes)).push (0xC000 ||| off).toBeBytes) := by
      rw [Encoder.writeName]
      dsimp only
      rw [hR.canonicalName_nameText, if_neg (hR.nameText_ne_root hRNil),
        hR.splitOn_nameText hRNil, hFind]
      dsimp only
      rw [writePrefix_ok fun l hl => (hR.label l (hSplit ▸ List.mem_append_left _ hl)).short,
        ok_bind]
    rw [encodeNamesAlone, encodeNames, hWrite, ok_bind, encodeNames, hSecond, ok_bind,
      encodeNames, ok_bind]
    simp [hOut]

/-! ## Reading back each layout -/

/-- TXT data is read as the strings that it was written from. -/
theorem parseTxt_at {e : Bytes} {strings : List Bytes} (hShort : ∀ s ∈ strings, s.length ≤ 255)
    (hBytes : e = strings.flatMap encodeTxtString) : parseTxt ⟨e, 0⟩ = .ok (.txt strings) := by
  have hTurns := length_le_flatMap strings encodeTxtString
    fun s _ => by simp [encodeTxtString]
  rw [parseTxt, txtStrings_at hShort (hBytes ▸ At.self _) (by simp [hBytes])
    (by simp only [Cursor.remaining, hBytes]; omega), ok_bind]

/-- OPT data is read as its options; the fields of the record are not in it. -/
theorem parseOptRdata_at {e : Bytes} {options : List OptOption}
    (hShort : ∀ o ∈ options, o.data.length < 65536) (hBytes : e = options.flatMap encodeOption) :
    parseOptRdata ⟨e, 0⟩ = .ok (.opt 0 0 0 0 options) := by
  have hTurns := length_le_flatMap options encodeOption
    fun o _ => by simp only [encodeOption, List.length_append, UInt16.toBeBytes_length]; omega
  rw [parseOptRdata, optOptions_at hShort (hBytes ▸ At.self _) (by simp [hBytes])
    (by simp only [Cursor.remaining, hBytes]; omega), ok_bind]

/-- CAA data is read as flags, tag and value, of which the value has no length. -/
theorem parseCaa_at {flags : UInt8} {tag : Str} {value : Bytes} (hTag : tag.len ≤ 255) :
    parseCaa ⟨[flags] ++ labelBytes tag ++ value, 0⟩ = .ok (.caa flags tag value) := by
  have hValue : (UInt8.ofNat tag.len).toNat = tag.len := by
    rw [UInt8.toNat_ofNat']
    omega
  have hAt := At.self ([flags] ++ labelBytes tag ++ value)
  have hTagAt : At ([flags] ++ labelBytes tag ++ value) 1 (labelBytes tag) := hAt.left.right
  have hValueAt : At ([flags] ++ labelBytes tag ++ value) (1 + 1 + tag.bytes.length) value := by
    have hLength : 0 + ([flags] ++ labelBytes tag).length = 1 + 1 + tag.bytes.length := by
      simp only [List.length_append, labelBytes_length, Str.len, List.length_singleton]
      omega
    rw [← hLength]
    exact hAt.right
  have hRest : Cursor.remaining ⟨[flags] ++ labelBytes tag ++ value, 1 + 1 + tag.bytes.length⟩ =
      value.length := by
    simp only [Cursor.remaining, List.length_append, labelBytes_length, Str.len,
      List.length_singleton]
    omega
  rw [parseCaa, Cursor.u8_at hAt.left.left, ok_bind]
  dsimp only
  rw [Cursor.u8_at hTagAt.head, ok_bind]
  dsimp only
  rw [hValue, Str.len, Cursor.bytes_at hTagAt.tail, ok_bind]
  dsimp only
  rw [hRest, Cursor.bytes_at hValueAt, ok_bind]
  dsimp only
  rw [Str.fromUtf8Lossy_bytes]

/-- MX data is read where it stands, its name from the whole message. -/
theorem parseMx_at {buf e : Bytes} {start : Nat} {preference : UInt16} {names : List Str}
    (hNames : Legible names) (hBytes : e = preference.toBeBytes ++ wireName names)
    (hAt : At buf start e) : parseMx buf start ⟨e, 0⟩ = .ok (.mx preference (nameText names)) := by
  rw [hBytes] at hAt ⊢
  have hName : At buf (start + 2) (wireName names) := hAt.right
  rw [parseMx, Cursor.u16_at (At.self _).left, ok_bind]
  dsimp only
  rw [readName_wireName hName hNames, ok_bind]

theorem parseSrv_at {buf e : Bytes} {start : Nat} {priority weight port : UInt16}
    {names : List Str} (hNames : Legible names)
    (hBytes : e = priority.toBeBytes ++ weight.toBeBytes ++ port.toBeBytes ++ wireName names)
    (hAt : At buf start e) :
    parseSrv buf start ⟨e, 0⟩ = .ok (.srv priority weight port (nameText names)) := by
  rw [hBytes] at hAt ⊢
  have hSelf := At.self (priority.toBeBytes ++ weight.toBeBytes ++ port.toBeBytes ++ wireName names)
  have hName : At buf (start + 6) (wireName names) := hAt.right
  rw [parseSrv, Cursor.u16_at hSelf.left.left.left, ok_bind]
  dsimp only
  rw [Cursor.u16_at (by simpa using hSelf.left.left.right), ok_bind]
  dsimp only
  rw [Cursor.u16_at (by simpa using hSelf.left.right), ok_bind]
  dsimp only
  rw [readName_wireName hName hNames, ok_bind]

/-- So is NSEC data, whose bitmaps reach to the end of the window. -/
theorem parseNsec_at {buf e : Bytes} {start : Nat} {names : List Str} {typeBitmaps : Bytes}
    (hNames : Legible names) (hBytes : e = wireName names ++ typeBitmaps) (hAt : At buf start e) :
    parseNsec buf start e.length = .ok (.nsec (nameText names) typeBitmaps) := by
  rw [hBytes] at hAt ⊢
  have hRest := hAt.right.slice (ε := Error)
  rw [Nat.add_assoc, ← List.length_append] at hRest
  rw [parseNsec, readName_wireName hAt.left hNames, ok_bind]
  dsimp only
  rw [hRest, ok_bind]

/-- So is RRSIG data, whose signature does. -/
theorem parseRrsig_at {buf e : Bytes} {start : Nat} {typeCovered : UInt16}
    {algorithm labels : UInt8} {originalTtl expiration inception : UInt32} {keyTag : UInt16}
    {names : List Str} {signature : Bytes} (hNames : Legible names)
    (hBytes : e = typeCovered.toBeBytes ++ [algorithm] ++ [labels] ++ originalTtl.toBeBytes ++
      expiration.toBeBytes ++ inception.toBeBytes ++ keyTag.toBeBytes ++ wireName names ++
      signature)
    (hAt : At buf start e) :
    parseRrsig buf start e.length ⟨e, 0⟩ =
      .ok (.rrsig typeCovered algorithm labels originalTtl expiration inception keyTag
        (nameText names) signature) := by
  have hSelf := At.self e
  rw [hBytes] at hAt
  nth_rewrite 2 [hBytes] at hSelf
  have hName : At buf (start + 18) (wireName names) := hAt.left.right
  have hRest := hAt.right.slice (ε := Error)
  rw [Nat.add_assoc, ← List.length_append, ← hBytes] at hRest
  have hSig : start + 18 + (wireName names).length = start +
      (typeCovered.toBeBytes ++ [algorithm] ++ [labels] ++ originalTtl.toBeBytes ++
        expiration.toBeBytes ++ inception.toBeBytes ++ keyTag.toBeBytes ++
        wireName names).length := by
    simp
    omega
  have h2 : At e 2 [algorithm] := by simpa using hSelf.left.left.left.left.left.left.left.right
  have h3 : At e 3 [labels] := by simpa using hSelf.left.left.left.left.left.left.right
  have h4 : At e 4 originalTtl.toBeBytes := by simpa using hSelf.left.left.left.left.left.right
  have h8 : At e 8 expiration.toBeBytes := by simpa using hSelf.left.left.left.left.right
  have h12 : At e 12 inception.toBeBytes := by simpa using hSelf.left.left.left.right
  have h16 : At e 16 keyTag.toBeBytes := by simpa using hSelf.left.left.right
  rw [parseRrsig, Cursor.u16_at hSelf.left.left.left.left.left.left.left.left, ok_bind]
  dsimp only
  rw [Cursor.u8_at h2, ok_bind]
  dsimp only
  rw [Cursor.u8_at h3, ok_bind]
  dsimp only
  rw [Cursor.u32_at h4, ok_bind]
  dsimp only
  rw [Cursor.u32_at h8, ok_bind]
  dsimp only
  rw [Cursor.u32_at h12, ok_bind]
  dsimp only
  rw [Cursor.u16_at h16, ok_bind]
  dsimp only
  rw [readName_wireName hName hNames, ok_bind]
  dsimp only
  rw [hSig, hRest, ok_bind]

/-- SOA data is read back if its two names are written in full. -/
theorem parseSoa_at {buf e : Bytes} {start : Nat} {mnames rnames : List Str}
    {serial refresh retry expire minimum : UInt32} (hM : Legible mnames) (hR : Legible rnames)
    (hBytes : e = wireName mnames ++ wireName rnames ++ serial.toBeBytes ++ refresh.toBeBytes ++
      retry.toBeBytes ++ expire.toBeBytes ++ minimum.toBeBytes)
    (hAt : At buf start e) :
    parseSoa buf start =
      .ok (.soa (nameText mnames) (nameText rnames) serial refresh retry expire minimum) := by
  rw [hBytes] at hAt
  have h0 : At buf (start + (wireName mnames).length + (wireName rnames).length)
      serial.toBeBytes := by
    simpa [Nat.add_assoc] using hAt.left.left.left.left.right
  have h4 : At buf (start + (wireName mnames).length + (wireName rnames).length + 4)
      refresh.toBeBytes := by
    simpa [Nat.add_assoc] using hAt.left.left.left.right
  have h8 : At buf (start + (wireName mnames).length + (wireName rnames).length + 8)
      retry.toBeBytes := by
    simpa [Nat.add_assoc] using hAt.left.left.right
  have h12 : At buf (start + (wireName mnames).length + (wireName rnames).length + 12)
      expire.toBeBytes := by
    simpa [Nat.add_assoc] using hAt.left.right
  have h16 : At buf (start + (wireName mnames).length + (wireName rnames).length + 16)
      minimum.toBeBytes := by
    simpa [Nat.add_assoc] using hAt.right
  rw [parseSoa, readName_wireName hAt.left.left.left.left.left.left hM, ok_bind]
  dsimp only
  rw [readName_wireName hAt.left.left.left.left.left.right hR, ok_bind]
  dsimp only
  rw [rawU32_at h0, ok_bind, rawU32_at h4, ok_bind, rawU32_at h8, ok_bind, rawU32_at h12, ok_bind,
    rawU32_at h16, ok_bind]

/-! ## Round trip -/

/-- In front of its end a window is handed to the reader of its type, as a cursor or as a
place in the message. -/
theorem parseRdata_window {buf e : Bytes} {start : Nat} (hAt : At buf start e) (rtype : UInt16) :
    parseRdata buf start e.length rtype =
      match rdataKind rtype with
      | .a => parseA ⟨e, 0⟩ e.length
      | .aaaa => parseAaaa ⟨e, 0⟩ e.length
      | .name => parseNameRdata buf start
      | .mx => parseMx buf start ⟨e, 0⟩
      | .soa => parseSoa buf start
      | .txt => parseTxt ⟨e, 0⟩
      | .srv => parseSrv buf start ⟨e, 0⟩
      | .caa => parseCaa ⟨e, 0⟩
      | .rrsig => parseRrsig buf start e.length ⟨e, 0⟩
      | .nsec => parseNsec buf start e.length
      | .opt => parseOptRdata ⟨e, 0⟩
      | .raw => parseRaw buf start e.length := by
  rw [parseRdata, hAt.slice]
  exact ok_bind _ _

/-- Data without a shared suffix is written, and read back at every place. -/
theorem parseRdata_encode {d : RData} {rtype : UInt16} (hKind : d.kind = rdataKind rtype)
    (hOpt : rtype ≠ typeOpt) (hWf : d.Wf LegibleName) (hShares : ¬SharesSuffix d) :
    ∃ e, encodeRdata d = .ok e ∧
      ∀ buf start, At buf start e → parseRdata buf start e.length rtype = .ok d := by
  cases d with
  | a ip =>
      refine ⟨ip.octets, rfl, fun buf start hAt => ?_⟩
      rw [parseRdata_window hAt, ← hKind]
      rfl
  | aaaa ip =>
      refine ⟨ip.octets, rfl, fun buf start hAt => ?_⟩
      have hBytes := Cursor.bytes_at (At.self ip.octets)
      rw [ip.octets_length] at hBytes
      rw [parseRdata_window hAt, ← hKind]
      dsimp only [RData.kind]
      rw [ip.octets_length, parseAaaa, if_neg (by decide), hBytes, ok_bind]
      exact dif_pos ip.octets_length
  | name target =>
      obtain ⟨names, hNames, rfl⟩ := hWf
      refine ⟨wireName names, encodeNamesAlone_one hNames, fun buf start hAt => ?_⟩
      rw [parseRdata_window hAt, ← hKind]
      dsimp only [RData.kind]
      rw [parseNameRdata, readName_wireName hAt hNames, ok_bind]
  | mx preference exchange =>
      obtain ⟨names, hNames, rfl⟩ := hWf
      refine ⟨_, by rw [encodeRdata, encodeNamesAlone_one hNames, ok_bind],
        fun buf start hAt => ?_⟩
      rw [parseRdata_window hAt, ← hKind]
      exact parseMx_at hNames rfl hAt
  | soa mname rname serial refresh retry expire minimum =>
      obtain ⟨⟨mnames, hM, rfl⟩, ⟨rnames, hR, rfl⟩⟩ := hWf
      have hApart : ¬(mnames ≠ [] ∧ mnames.getLastD [] = rnames.getLastD []) := by
        rintro ⟨hNil, hTop⟩
        refine hShares ⟨hM.nameText_ne_root hNil, ?_⟩
        rw [topLabel_nameText hM, topLabel_nameText hR, hTop]
      refine ⟨_, by rw [encodeRdata, encodeNamesAlone_two hM hR hApart, ok_bind],
        fun buf start hAt => ?_⟩
      rw [parseRdata_window hAt, ← hKind]
      exact parseSoa_at hM hR rfl hAt
  | txt strings =>
      refine ⟨_, rfl, fun buf start hAt => ?_⟩
      rw [parseRdata_window hAt, ← hKind]
      exact parseTxt_at hWf rfl
  | srv priority weight port target =>
      obtain ⟨names, hNames, rfl⟩ := hWf
      refine ⟨_, by rw [encodeRdata, encodeNamesAlone_one hNames, ok_bind],
        fun buf start hAt => ?_⟩
      rw [parseRdata_window hAt, ← hKind]
      exact parseSrv_at hNames rfl hAt
  | caa flags tag value =>
      refine ⟨_, rfl, fun buf start hAt => ?_⟩
      rw [parseRdata_window hAt, ← hKind]
      exact parseCaa_at hWf
  | rrsig typeCovered algorithm labels originalTtl expiration inception keyTag signerName
      signature =>
      obtain ⟨names, hNames, rfl⟩ := hWf
      refine ⟨_, by rw [encodeRdata, encodeNamesAlone_one hNames, ok_bind],
        fun buf start hAt => ?_⟩
      rw [parseRdata_window hAt, ← hKind]
      exact parseRrsig_at hNames rfl hAt
  | nsec nextDomain typeBitmaps =>
      obtain ⟨names, hNames, rfl⟩ := hWf
      refine ⟨_, by rw [encodeRdata, encodeNamesAlone_one hNames, ok_bind],
        fun buf start hAt => ?_⟩
      rw [parseRdata_window hAt, ← hKind]
      exact parseNsec_at hNames rfl hAt
  | raw bytes =>
      refine ⟨bytes, rfl, fun buf start hAt => ?_⟩
      rw [parseRdata_window hAt, ← hKind]
      dsimp only [RData.kind]
      rw [parseRaw, hAt.slice, ok_bind]
  | opt udpSize extRcode version flags options =>
      exact absurd (rdataKind_eq_opt_iff.mp hKind.symm) hOpt

/-- Behind a run of zero bytes the pointer of a shared suffix meets a root. -/
theorem parseRdata_shared {mname rname : Str} {serial refresh retry expire minimum : UInt32}
    (hWf : (RData.soa mname rname serial refresh retry expire minimum).Wf LegibleName)
    (hShares : SharesSuffix (.soa mname rname serial refresh retry expire minimum)) {e : Bytes}
    (hEncode : encodeRdata (.soa mname rname serial refresh retry expire minimum) = .ok e) :
    ∃ p, parseRdata (p ++ e ++ []) p.length e.length typeSoa ≠
      .ok (.soa mname rname serial refresh retry expire minimum) := by
  obtain ⟨⟨mnames, hM, rfl⟩, ⟨rnames, hR, rfl⟩⟩ := hWf
  obtain ⟨hRoot, hTop⟩ := hShares
  rw [topLabel_nameText hM, topLabel_nameText hR] at hTop
  have hNil : mnames ≠ [] := by
    rintro rfl
    exact hRoot rfl
  obtain ⟨before, after, off, hSplit, hAfter, hOff, hRange, hNames⟩ :=
    encodeNamesAlone_shared hM hR hNil hTop
  rw [encodeRdata, hNames, ok_bind] at hEncode
  cases hEncode
  let p : Bytes := List.replicate (wireName mnames).length 0
  have hZeros : p = List.replicate off.toNat 0 ++ [0] ++
      List.replicate ((wireName mnames).length - off.toNat - 1) 0 := by
    rw [← List.replicate_one, ← List.replicate_add, ← List.replicate_add]
    exact congrArg (List.replicate · 0) (by omega)
  have hZero : At p off.toNat (wireName []) := ⟨_, _, hZeros, List.length_replicate⟩
  refine ⟨p, ?_⟩
  generalize hBody : wireName mnames ++ (before.flatMap labelBytes ++ (0xC000 ||| off).toBeBytes) ++
    serial.toBeBytes ++ refresh.toBeBytes ++ retry.toBeBytes ++ expire.toBeBytes ++
    minimum.toBeBytes = e
  have hAt : At (p ++ e ++ []) p.length e := At.here ..
  have hTarget := (hZero.grow e).grow []
  have hKind : rdataKind typeSoa = .soa := rdataKind_eq_soa_iff.mpr rfl
  rw [parseRdata_window hAt, hKind]
  dsimp only
  generalize p ++ e ++ [] = buf at hAt hTarget ⊢
  rw [← hBody] at hAt
  have hFirst := hAt.left.left.left.left.left.left
  have hSecond := hAt.left.left.left.left.left.right
  have hBefore : Legible before := ⟨fun l hl => hR.label l (hSplit ▸ List.mem_append_left _ hl),
    fun l rest c hList hc => hR.start l (rest ++ after) c (by rw [hSplit, hList]; rfl) hc, by
      have := hR.count
      simp only [hSplit, List.length_append] at this
      omega⟩
  have hRead := readName_pointer hOff hSecond hTarget (by simpa using hBefore)
  rw [List.append_nil] at hRead
  intro hParse
  rw [parseSoa, readName_wireName hFirst hM, ok_bind] at hParse
  dsimp only at hParse
  rw [hRead, ok_bind] at hParse
  have hSame : nameText before = nameText rnames := by
    obtain ⟨_, _, hParse⟩ := bind_eq_ok_iff.mp hParse
    obtain ⟨_, _, hParse⟩ := bind_eq_ok_iff.mp hParse
    obtain ⟨_, _, hParse⟩ := bind_eq_ok_iff.mp hParse
    obtain ⟨_, _, hParse⟩ := bind_eq_ok_iff.mp hParse
    obtain ⟨_, _, hParse⟩ := bind_eq_ok_iff.mp hParse
    injection hParse with hParse
    injection hParse
  have hLabels := nameText_injective hBefore.parts hR.parts hSame
  exact hAfter (by simpa [hLabels] using hSplit)

/-- Well-formed data is read back behind every prefix exactly when it is not an
SOA record whose names share a suffix. -/
theorem parseRdata_encodeRdata_iff {d : RData} {rtype : UInt16} (hKind : d.kind = rdataKind rtype)
    (hOpt : d.kind ≠ .opt) (hWf : d.Wf HostName) :
    (∃ e, encodeRdata d = .ok e ∧
      ∀ p s : Bytes, parseRdata (p ++ e ++ s) p.length e.length rtype = .ok d) ↔
      ¬SharesSuffix d := by
  have hLegible := hWf.mono fun _ => HostName.legible
  have hType : rtype ≠ typeOpt := fun h => hOpt (hKind.trans (rdataKind_eq_opt_iff.mpr h))
  constructor
  · rintro ⟨e, hEncode, hRead⟩ hShares
    cases d with
    | soa mname rname serial refresh retry expire minimum =>
        have hSoa : rtype = typeSoa := rdataKind_eq_soa_iff.mp hKind.symm
        subst hSoa
        obtain ⟨p, hFails⟩ := parseRdata_shared hLegible hShares hEncode
        exact hFails (hRead p [])
    | _ => exact hShares
  · intro hShares
    obtain ⟨e, hEncode, hRead⟩ := parseRdata_encode hKind hType hLegible hShares
    exact ⟨e, hEncode, fun p s => hRead _ _ (At.here p e s)⟩

/-- The names of an SOA record under two different top labels. -/
def apartSoa : RData :=
  .soa ['n', 's', '.', 'a', '.'] ['h', '.', 'b', '.'] 1 2 3 4 5

/-- A SOA record whose names share no suffix is read back behind every prefix. -/
theorem parseRdata_apartSoa :
    ∃ e, encodeRdata apartSoa = .ok e ∧
      ∀ p s : Bytes, parseRdata (p ++ e ++ s) p.length e.length typeSoa = .ok apartSoa := by
  have hHost : apartSoa.Wf HostName :=
    ⟨hostName_nameText [['n', 's'], ['a']] (by decide) (by decide),
      hostName_nameText [['h'], ['b']] (by decide) (by decide)⟩
  exact (parseRdata_encodeRdata_iff (by decide) (by decide) hHost).mpr (by decide)

/-- An SOA record of one zone: its names end in the same label. -/
def zoneSoa : RData :=
  .soa ['n', 's', '.', 'a', '.'] ['h', '.', 'a', '.'] 1 2 3 4 5

/-- Behind a twelve-byte prefix the second name of such a record is read short: its
pointer counts from the start of the data, and the reader counts from the start of the
message. -/
theorem parseRdata_zoneSoa :
    ¬∃ e, encodeRdata zoneSoa = .ok e ∧
      ∀ p s : Bytes, parseRdata (p ++ e ++ s) p.length e.length typeSoa = .ok zoneSoa := by
  rintro ⟨e, hEncode, hRead⟩
  have hBytes : encodeRdata zoneSoa =
      .ok ([2, 110, 115, 1, 97, 0] ++ [1, 104, 0xC0, 3] ++ [0, 0, 0, 1] ++ [0, 0, 0, 2] ++
        [0, 0, 0, 3] ++ [0, 0, 0, 4] ++ [0, 0, 0, 5]) := by
    decide
  rw [hBytes] at hEncode
  cases hEncode
  exact absurd (hRead (List.replicate 12 0) []) (by decide)

end Dnsd.Proto

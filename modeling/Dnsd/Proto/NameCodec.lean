import Dnsd.Proto.Encode
import Dnsd.Proto.Parse
import Dnsd.Rust.Window

/-! Writing a name and reading it back. The map of the encoder is sound: every
suffix it lists is spelled out, without a pointer, at the offset it gives. -/

namespace Dnsd.Proto

open Bytes Exec

/-! ## Reading -/

/-- What a length byte of at most 63 looks like to the reader. -/
theorem lengthByte_bits {n : Nat} (h : n ≤ 63) :
    UInt8.ofNat n &&& 0xC0 = 0 ∧ (UInt8.ofNat n).toNat = n := by
  have hAll : ∀ k : Fin 64, UInt8.ofNat k.val &&& 0xC0 = 0 ∧ (UInt8.ofNat k.val).toNat = k.val := by
    decide
  exact hAll ⟨n, by omega⟩

/-- The two bytes of a pointer, as the reader takes them apart. -/
theorem pointer_bits {off : UInt16} (h : off.toNat ≤ 0x3FFF) :
    ∃ high low, (0xC000 ||| off).toBeBytes = [high, low] ∧ high &&& 0xC0 = 0xC0 ∧
      ((high &&& 0x3F).toNat <<< 8) ||| low.toNat = off.toNat := by
  have hHigh : ∀ k : Fin 64, UInt8.ofNat (192 + k.val) &&& 0xC0 = 0xC0 ∧
      (UInt8.ofNat (192 + k.val) &&& 0x3F).toNat = k.val := by
    decide
  have hValue : (0xC000 ||| off).toNat = 0xC000 + off.toNat := by
    rw [UInt16.toNat_or]
    exact (Nat.shiftLeft_add_eq_or_of_lt (i := 14) (by omega) 3).symm
  have hSplit : 0xC000 + off.toNat = 256 * (192 + off.toNat / 256) + off.toNat % 256 := by omega
  refine ⟨UInt8.ofNat (192 + off.toNat / 256), UInt8.ofNat (off.toNat % 256), ?_, ?_, ?_⟩
  · simp only [UInt16.toBeBytes, Words.beBytes, Words.leBytes, hValue, List.reverse_cons,
      List.reverse_nil, List.nil_append, List.singleton_append]
    rw [show (49152 + off.toNat) / 256 = 192 + off.toNat / 256 by omega]
    congr 2
    apply UInt8.toNat_inj.mp
    simp only [UInt8.toNat_ofNat']
    omega
  · exact (hHigh ⟨off.toNat / 256, by omega⟩).1
  · rw [(hHigh ⟨off.toNat / 256, by omega⟩).2]
    have hLow : (UInt8.ofNat (off.toNat % 256)).toNat = off.toNat % 256 := by
      simp only [UInt8.toNat_ofNat']
      omega
    rw [hLow, ← Nat.shiftLeft_add_eq_or_of_lt (by omega), Nat.shiftLeft_eq]
    dsimp only
    omega

/-- One turn of the reader over a written label. -/
theorem readLabels_written {buf : Bytes} {next : Nat} {label : Str}
    (hAt : At buf next (labelBytes label)) (hNonempty : label ≠ []) (hShort : label.len ≤ 63)
    (guard : Nat) (jumped : Bool) (pos : Nat) (labels : List Str) :
    readLabels buf (guard + 1) next jumped pos labels =
      readLabels buf guard (next + (label.len + 1)) jumped pos (labels ++ [label.toLowercase]) := by
  have hEnd := hAt.length_le
  rw [labelBytes_length] at hEnd
  obtain ⟨hBits, hValue⟩ := lengthByte_bits hShort
  have hPos := Str.len_pos hNonempty
  have hLen : UInt8.ofNat label.len ≠ 0 := by
    intro h
    rw [h] at hValue
    simp at hValue
    omega
  have hFits : ¬(63 < (UInt8.ofNat label.len).toNat ∨
      buf.length < next + 1 + (UInt8.ofNat label.len).toNat) := by
    rw [hValue]
    omega
  have hRaw : (slice buf (next + 1) (next + 1 + label.len) : Result Bytes) = .ok label.bytes :=
    (At.tail hAt).slice
  rw [readLabels, if_neg (by omega), hAt.idx, ok_bind]
  rw [if_neg (by rw [hBits]; decide), if_neg (by rw [hBits]; decide), if_neg hLen,
    if_neg hFits, hValue, hRaw, ok_bind, Str.fromUtf8Lossy_bytes, Nat.add_right_comm next 1,
    Nat.add_assoc]

/-- Written labels are read in as many turns as there are labels. -/
theorem readLabels_spelled {buf : Bytes} {next : Nat} {names : List Str}
    (hAt : At buf next (names.flatMap labelBytes)) (hNames : ∀ l ∈ names, l ≠ [] ∧ l.len ≤ 63)
    (guard : Nat) (jumped : Bool) (pos : Nat) (labels : List Str) :
    readLabels buf (guard + names.length) next jumped pos labels =
      readLabels buf guard (next + (names.flatMap labelBytes).length) jumped pos
        (labels ++ names.map Str.toLowercase) := by
  induction names generalizing next labels with
  | nil => simp
  | cons label rest ih =>
      rw [List.flatMap_cons] at hAt
      obtain ⟨hNonempty, hShort⟩ := hNames label List.mem_cons_self
      rw [List.length_cons, ← Nat.add_assoc, readLabels_written hAt.left hNonempty hShort]
      have hRest : At buf (next + (label.len + 1)) (rest.flatMap labelBytes) := by
        rw [← labelBytes_length]
        exact hAt.right
      rw [ih hRest fun l hl => hNames l (List.mem_cons_of_mem label hl)]
      simp [Nat.add_assoc]

/-- Labels that do not change in lower case are read as they are. -/
theorem readLabels_labels {buf : Bytes} {next : Nat} {names : List Str}
    (hAt : At buf next (names.flatMap labelBytes)) (hNames : ∀ l ∈ names, LabelOk l)
    (guard : Nat) (jumped : Bool) (pos : Nat) (labels : List Str) :
    readLabels buf (guard + names.length) next jumped pos labels =
      readLabels buf guard (next + (names.flatMap labelBytes).length) jumped pos
        (labels ++ names) := by
  have hStable : names.map Str.toLowercase = names :=
    (List.map_congr_left fun l hl => Str.toLowercase_of_stable (hNames l hl).stable).trans
      (List.map_id names)
  rw [readLabels_spelled hAt fun l hl => ⟨(hNames l hl).nonempty, (hNames l hl).short⟩, hStable]

/-- The zero byte ends the loop. -/
theorem readLabels_root [Unicode.Tables] {buf : Bytes} {next : Nat} (hAt : At buf next [0]) (guard : Nat)
    (jumped : Bool) (pos : Nat) (labels : List Str) :
    readLabels buf (guard + 1) next jumped pos labels =
      .ok (labels, if jumped then pos else next + 1) := by
  have hEnd := hAt.length_le
  simp only [List.length_singleton] at hEnd
  rw [readLabels, if_neg (by omega), hAt.idx, ok_bind]
  simp

/-- A pointer moves the reader and fixes where reading resumes. -/
theorem readLabels_pointer {buf : Bytes} {next : Nat} {off : UInt16} (hOff : off.toNat ≤ 0x3FFF)
    (hAt : At buf next (0xC000 ||| off).toBeBytes) (guard : Nat) (jumped : Bool) (pos : Nat)
    (labels : List Str) :
    readLabels buf (guard + 1) next jumped pos labels =
      readLabels buf guard off.toNat true (if jumped then pos else next + 2) labels := by
  have hEnd := hAt.length_le
  obtain ⟨high, low, hBytes, hHigh, hTarget⟩ := pointer_bits hOff
  rw [hBytes] at hAt
  rw [UInt16.toBeBytes_length] at hEnd
  rw [readLabels, if_neg (by omega), hAt.idx, ok_bind, if_pos hHigh, if_neg (by omega),
    (At.tail hAt).idx, ok_bind]
  dsimp only
  rw [hTarget]

/-- An uncompressed name is read in full. -/
theorem readLabels_wireName {buf : Bytes} {next : Nat} {names : List Str}
    (hAt : At buf next (wireName names)) (hNames : ∀ l ∈ names, LabelOk l) {guard : Nat}
    (hGuard : names.length < guard) (jumped : Bool) (pos : Nat) (labels : List Str) :
    readLabels buf guard next jumped pos labels =
      .ok (labels ++ names, if jumped then pos else next + (wireName names).length) := by
  obtain ⟨turns, rfl⟩ : ∃ turns, guard = turns + 1 + names.length :=
    ⟨guard - 1 - names.length, by omega⟩
  rw [readLabels_labels hAt.left hNames, readLabels_root hAt.right]
  simp [wireName, Nat.add_assoc]

/-- Reading an uncompressed name. -/
theorem readName_wireName {buf : Bytes} {pos : Nat} {names : List Str}
    (hAt : At buf pos (wireName names)) (hNames : Legible names) :
    readName buf pos = .ok (nameText names, pos + (wireName names).length) := by
  have hCount := hNames.count
  rw [readName, readLabels_wireName hAt hNames.label (by omega), ok_bind]
  rfl

/-- Reading labels in front of a pointer to an uncompressed name. -/
theorem readName_pointer {buf : Bytes} {pos : Nat} {before after : List Str} {off : UInt16}
    (hOff : off.toNat ≤ 0x3FFF)
    (hAt : At buf pos (before.flatMap labelBytes ++ (0xC000 ||| off).toBeBytes))
    (hTarget : At buf off.toNat (wireName after)) (hNames : Legible (before ++ after)) :
    readName buf pos =
      .ok (nameText (before ++ after), pos + ((before.flatMap labelBytes).length + 2)) := by
  have hCount := hNames.count
  rw [List.length_append] at hCount
  obtain ⟨turns, hTurns⟩ : ∃ turns, 256 = turns + 1 + before.length :=
    ⟨255 - before.length, by omega⟩
  have hBefore : ∀ l ∈ before, LabelOk l := fun l hl => hNames.label l (List.mem_append_left _ hl)
  have hAfter : ∀ l ∈ after, LabelOk l := fun l hl => hNames.label l (List.mem_append_right _ hl)
  rw [readName, hTurns, readLabels_labels hAt.left hBefore, readLabels_pointer hOff hAt.right,
    readLabels_wireName hTarget hAfter (by omega), ok_bind]
  simp [nameText, Nat.add_assoc]

/-! ## Writing -/

/-- Every suffix in the map is spelled out at its offset, within pointer range. -/
def MapSound (enc : Encoder) : Prop :=
  ∀ key off, enc.nameMap.get key = some off →
    off.toNat ≤ 0x3FFF ∧ ∃ labels, labels ≠ [] ∧ (∀ l ∈ labels, LabelOk l) ∧
      key = dotted labels ∧ At enc.out off.toNat (wireName labels)

theorem mapSound_new : MapSound Encoder.new := by
  intro key off h
  simp [Encoder.new] at h

/-- Bytes appended by anyone leave the map sound. -/
theorem MapSound.push {enc : Encoder} (h : MapSound enc) (bs : Bytes) : MapSound (enc.push bs) := by
  intro key off hGet
  obtain ⟨hOff, labels, hNil, hLabels, hKey, hAt⟩ := h key off hGet
  exact ⟨hOff, labels, hNil, hLabels, hKey, hAt.grow bs⟩

theorem findSuffix_some {map : HashMap Str UInt16} {labels before : List Str} {off : UInt16}
    (h : findSuffix map labels = some (before, off)) :
    ∃ after, after ≠ [] ∧ labels = before ++ after ∧ map.get (dotted after) = some off := by
  induction labels generalizing before with
  | nil => simp [findSuffix] at h
  | cons label rest ih =>
      rw [findSuffix] at h
      cases hGet : map.get (dotted (label :: rest)) with
      | some off' =>
          rw [hGet] at h
          cases h
          exact ⟨label :: rest, by simp, rfl, hGet⟩
      | none =>
          rw [hGet] at h
          obtain ⟨⟨before', off'⟩, hRest, hEq⟩ := Option.map_eq_some_iff.mp h
          cases hEq
          obtain ⟨after, hNil, hSplit, hAfter⟩ := ih hRest
          exact ⟨after, hNil, by rw [hSplit, List.cons_append], hAfter⟩

theorem findSuffix_empty (labels : List Str) : findSuffix ∅ labels = none := by
  induction labels with
  | nil => rfl
  | cons label rest ih => simp [findSuffix, ih]

theorem writePrefix_ok {names : List Str} (hNames : ∀ l ∈ names, l.len ≤ 63) (enc : Encoder) :
    writePrefix enc names = .ok (enc.push (names.flatMap labelBytes)) := by
  induction names generalizing enc with
  | nil => simp [writePrefix, Encoder.push]
  | cons label rest ih =>
      have hLabel := hNames label List.mem_cons_self
      rw [writePrefix, if_neg (by omega), ih fun l hl => hNames l (List.mem_cons_of_mem label hl)]
      simp [Encoder.push]

@[simp] theorem record_out (enc : Encoder) (key : Str) (labelStart : Nat) :
    (enc.record key labelStart).out = enc.out := by
  unfold Encoder.record
  split <;> rfl

theorem record_get {enc : Encoder} {key key' : Str} {labelStart : Nat} {off : UInt16}
    (h : (enc.record key labelStart).nameMap.get key' = some off) :
    enc.nameMap.get key' = some off ∨
      key' = key ∧ off.toNat ≤ 0x3FFF ∧ off.toNat = labelStart := by
  unfold Encoder.record at h
  split_ifs at h with hStart
  · dsimp only at h
    rw [HashMap.get_insert] at h
    split_ifs at h with hKey
    · cases h
      have hValue : (UInt16.ofNat labelStart).toNat = labelStart := by
        rw [UInt16.toNat_ofNat']
        omega
      exact Or.inr ⟨hKey, by omega, hValue⟩
    · exact Or.inl h
  · exact Or.inl h

/-- What a full write appends, and which suffixes it records where. -/
theorem writeFull_ok {names : List Str} (hNames : ∀ l ∈ names, l.len ≤ 63) (enc : Encoder) :
    ∃ enc', writeFull enc names = .ok enc' ∧ enc'.out = enc.out ++ names.flatMap labelBytes ∧
      ∀ key off, enc'.nameMap.get key = some off → enc.nameMap.get key = some off ∨
        ∃ before after, names = before ++ after ∧ after ≠ [] ∧ key = dotted after ∧
          off.toNat ≤ 0x3FFF ∧ off.toNat = enc.out.length + (before.flatMap labelBytes).length := by
  induction names generalizing enc with
  | nil => exact ⟨enc, rfl, by simp, fun key off h => Or.inl h⟩
  | cons label rest ih =>
      have hLabel := hNames label List.mem_cons_self
      rw [writeFull, if_neg (by omega)]
      obtain ⟨enc', hWrite, hOut, hMap⟩ := ih (fun l hl => hNames l (List.mem_cons_of_mem label hl))
        ((enc.push (labelBytes label)).record (dotted (label :: rest)) enc.out.length)
      refine ⟨enc', hWrite, by rw [hOut]; simp, ?_⟩
      intro key off hGet
      rcases hMap key off hGet with hGet | ⟨before, after, hSplit, hNil, hKey, hRange, hOff⟩
      · rcases record_get hGet with hGet | ⟨hKey, hRange, hOff⟩
        · exact Or.inl hGet
        · exact Or.inr ⟨[], label :: rest, rfl, by simp, hKey, hRange, by simp [hOff]⟩
      · refine Or.inr ⟨label :: before, after, by rw [hSplit, List.cons_append], hNil, hKey,
          hRange, ?_⟩
        rw [hOff]
        simp
        omega

/-- The text of a legible name splits into its labels again. -/
theorem Legible.splitOn_nameText {labels : List Str} (h : Legible labels) (hNil : labels ≠ []) :
    (Str.trimEndMatches (nameText labels) '.').splitOn '.' = labels := by
  simp only [nameText, List.isEmpty_iff, hNil, if_false]
  exact splitOn_dotted hNil h.parts

theorem Legible.nameText_ne_root {labels : List Str} (h : Legible labels) (hNil : labels ≠ []) :
    nameText labels ≠ ['.'] := Proto.nameText_ne_root hNil h.parts

/-- How a name stands in a message: in full, or with its last labels spelled out
at an earlier place that a pointer gives. -/
inductive StandsAt (out : Bytes) : List Str → Nat → Nat → Prop where
  | full {names : List Str} {start : Nat} (hAt : At out start (wireName names)) :
      StandsAt out names start (start + (wireName names).length)
  | pointer {before after : List Str} {start : Nat} {off : UInt16} (hOff : off.toNat ≤ 0x3FFF)
      (hEarlier : off.toNat < start)
      (hAt : At out start (before.flatMap labelBytes ++ (0xC000 ||| off).toBeBytes))
      (hTarget : At out off.toNat (wireName after)) :
      StandsAt out (before ++ after) start (start + ((before.flatMap labelBytes).length + 2))

theorem StandsAt.grow {out : Bytes} {names : List Str} {start stop : Nat}
    (h : StandsAt out names start stop) (rest : Bytes) : StandsAt (out ++ rest) names start stop := by
  cases h with
  | full hAt => exact .full (hAt.grow rest)
  | pointer hOff hEarlier hAt hTarget =>
      exact .pointer hOff hEarlier (hAt.grow rest) (hTarget.grow rest)

/-- The reader gets the name back, and goes on behind it. -/
theorem StandsAt.readName_eq {out : Bytes} {names : List Str} {start stop : Nat}
    (h : StandsAt out names start stop) (hNames : Legible names) :
    readName out start = .ok (nameText names, stop) := by
  cases h with
  | full hAt => exact readName_wireName hAt hNames
  | pointer hOff _ hAt hTarget => exact readName_pointer hOff hAt hTarget hNames

/-- What one write of a legible name appends; the map stays sound. -/
theorem writeName_standsAt {enc : Encoder} (hMap : MapSound enc) {names : List Str}
    (hNames : Legible names) :
    ∃ enc' bs, enc.writeName (nameText names) = .ok enc' ∧ enc'.out = enc.out ++ bs ∧
      MapSound enc' ∧ StandsAt enc'.out names enc.out.length enc'.out.length := by
  rw [Encoder.writeName]
  dsimp only
  rw [hNames.canonicalName_nameText]
  by_cases hNil : names = []
  · subst hNil
    rw [if_pos (by rfl)]
    refine ⟨enc.push [0], [0], rfl, rfl, hMap.push [0], ?_⟩
    have hAt : At (enc.push [0]).out enc.out.length (wireName []) := ⟨enc.out, [], by simp [wireName], rfl⟩
    rw [Encoder.push_out, List.length_append]
    exact .full hAt
  rw [if_neg (hNames.nameText_ne_root hNil), hNames.splitOn_nameText hNil]
  have hShort : ∀ l ∈ names, l.len ≤ 63 := fun l hl => (hNames.label l hl).short
  cases hFind : findSuffix enc.nameMap names with
  | some found =>
      obtain ⟨before, off⟩ := found
      obtain ⟨after, hAfter, rfl, hGet⟩ := findSuffix_some hFind
      obtain ⟨hOff, labels, hLabelsNil, hLabels, hKey, hAt⟩ := hMap _ _ hGet
      have hSame : after = labels := dotted_injective hAfter hLabelsNil
        (fun l hl => hNames.parts l (List.mem_append_right _ hl))
        (fun l hl => ⟨(hLabels l hl).nonempty, (hLabels l hl).noDot⟩) hKey
      subst hSame
      dsimp only
      rw [writePrefix_ok fun l hl => hShort l (List.mem_append_left _ hl), ok_bind]
      refine ⟨_, before.flatMap labelBytes ++ (0xC000 ||| off).toBeBytes, rfl, by simp,
        (hMap.push _).push _, ?_⟩
      have hEnd := hAt.length_le
      have hEarlier : off.toNat < enc.out.length := by
        rw [wireName, List.length_append, List.length_singleton] at hEnd
        omega
      have hPos : At ((enc.push (before.flatMap labelBytes)).push (0xC000 ||| off).toBeBytes).out
          enc.out.length (before.flatMap labelBytes ++ (0xC000 ||| off).toBeBytes) :=
        ⟨enc.out, [], by simp, rfl⟩
      have hStands := StandsAt.pointer hOff hEarlier hPos ((hAt.grow _).grow _)
      simpa [Nat.add_assoc] using hStands
  | none =>
      obtain ⟨enc', hWrite, hOut, hNew⟩ := writeFull_ok hShort enc
      dsimp only
      rw [hWrite, ok_bind]
      have hBytes : (enc'.push [0]).out = enc.out ++ wireName names := by
        simp [hOut, wireName]
      refine ⟨_, wireName names, rfl, hBytes, ?_, ?_⟩
      · intro key off hGet
        rcases hNew key off hGet with hGet | ⟨before, after, hSplit, hAfter, hKey, hRange, hOff⟩
        · obtain ⟨hOff, labels, hNil', hLabels, hKey, hAt⟩ := hMap key off hGet
          refine ⟨hOff, labels, hNil', hLabels, hKey, ?_⟩
          rw [hBytes]
          exact hAt.grow _
        · refine ⟨hRange, after, hAfter, fun l hl => hNames.label l ?_, hKey, ?_⟩
          · rw [hSplit]
            exact List.mem_append_right _ hl
          · rw [hBytes, hOff]
            exact ⟨enc.out ++ before.flatMap labelBytes, [], by simp [wireName, hSplit], by simp⟩
      · rw [hBytes, List.length_append]
        exact .full ⟨enc.out, [], by simp, rfl⟩

/-- One write of a legible name: it succeeds, the map stays sound, and reading
at the place of the write gives the name, whatever is appended later. -/
theorem writeName_spec {enc : Encoder} (hMap : MapSound enc) {names : List Str}
    (hNames : Legible names) :
    ∃ enc' bs, enc.writeName (nameText names) = .ok enc' ∧ enc'.out = enc.out ++ bs ∧
      MapSound enc' ∧
      ∀ rest, readName (enc'.out ++ rest) enc.out.length =
        .ok (nameText names, enc'.out.length) := by
  obtain ⟨enc', bs, hWrite, hOut, hSound, hStands⟩ := writeName_standsAt hMap hNames
  exact ⟨enc', bs, hWrite, hOut, hSound, fun rest => (hStands.grow rest).readName_eq hNames⟩

/-- A fresh encoder has nothing to point at and writes the name out in full. -/
theorem encodeNamesAlone_one {names : List Str} (hNames : Legible names) :
    encodeNamesAlone [nameText names] = .ok (wireName names) := by
  have hWrite : ∃ enc', Encoder.new.writeName (nameText names) = .ok enc' ∧
      enc'.out = wireName names := by
    rw [Encoder.writeName]
    dsimp only
    rw [hNames.canonicalName_nameText]
    by_cases hNil : names = []
    · subst hNil
      exact ⟨_, rfl, rfl⟩
    rw [if_neg (hNames.nameText_ne_root hNil), hNames.splitOn_nameText hNil]
    rw [show Encoder.new.nameMap = ∅ from rfl, findSuffix_empty]
    obtain ⟨enc', hFull, hOut, _⟩ :=
      writeFull_ok (fun l hl => (hNames.label l hl).short) Encoder.new
    dsimp only
    rw [hFull, ok_bind]
    exact ⟨_, rfl, by simp [hOut, wireName, Encoder.new]⟩
  obtain ⟨enc', hWrite, hOut⟩ := hWrite
  rw [encodeNamesAlone, encodeNames, hWrite, ok_bind, encodeNames, ok_bind, hOut]

end Dnsd.Proto

import Dnsd.Proto.MessageCodec

/-! The size of an encoded message, from its names and its data alone: an encoder
that keeps the number of its bytes and the suffixes it could point at. -/

namespace Dnsd.Proto

open Exec

/-- The number of bytes so far, and the suffixes with an offset for a pointer. -/
structure Extent where
  size : Nat
  suffixes : List Str

namespace Extent

/-- So many bytes more, none of which is a name. -/
def add (x : Extent) (n : Nat) : Extent := { x with size := x.size + n }

/-- The labels in front of the longest suffix that is known. -/
def labelsBefore (suffixes : List Str) : List Str → Option (List Str)
  | [] => none
  | label :: rest =>
      if dotted (label :: rest) ∈ suffixes then some []
      else (labelsBefore suffixes rest).map (label :: ·)

/-- The bytes of labels that are written out, each behind the byte of its length. -/
def labelsSize (labels : List Str) : Nat := (labels.map fun l => l.len + 1).sum

/-- The labels in front of a pointer: each takes its length and one byte more. -/
def lead (x : Extent) (labels : List Str) : Option Extent :=
  if ∀ l ∈ labels, l.len ≤ 63 then some (x.add (labelsSize labels)) else none

/-- The labels of a name that has no known suffix. -/
def spell (x : Extent) : List Str → Option Extent
  | [] => some x
  | label :: rest =>
      if 63 < label.len then none
      else
        spell { size := x.size + (label.len + 1)
                suffixes := if x.size ≤ 0x3FFF then dotted (label :: rest) :: x.suffixes
                  else x.suffixes } rest

/-- Behind a name; `none` if one of its labels is too long. -/
def name (x : Extent) (name : Str) : Option Extent :=
  let name := canonicalName name
  if name = ['.'] then some (x.add 1)
  else
    let labels : List Str := (name.trimEndMatches '.').splitOn '.'
    match labelsBefore x.suffixes labels with
    | some before => (x.lead before).map (·.add 2)
    | none => (x.spell labels).map (·.add 1)

end Extent

/-- The size of some names of their own. -/
def namesSize (names : List Str) : Option Nat :=
  (names.foldlM Extent.name ⟨0, []⟩).map Extent.size

/-- The bytes of options with their heads, which are four for each. -/
def optionsSize (options : List OptOption) : Nat := (options.map fun o => 4 + o.data.length).sum

/-- The bytes of data, or nothing where an encoder refuses them. -/
def rdataSize : RData → Option Nat
  | .a _ => some 4
  | .aaaa _ => some 16
  | .name name => namesSize [name]
  | .mx _ exchange => (namesSize [exchange]).map (2 + ·)
  | .soa mname rname .. => (namesSize [mname, rname]).map (· + 20)
  | .txt strings => some (strings.map fun s => s.length + 1).sum
  | .srv _ _ _ target => (namesSize [target]).map (6 + ·)
  | .caa _ tag value => some (1 + (tag.len + 1) + value.length)
  | .rrsig _ _ _ _ _ _ _ signerName signature =>
      (namesSize [signerName]).map (18 + · + signature.length)
  | .nsec nextDomain typeBitmaps => (namesSize [nextDomain]).map (· + typeBitmaps.length)
  | .raw bytes => some bytes.length
  | .opt .. => none

/-- The size of the data of a record with the type of an OPT record. -/
def Record.optSize (r : Record) : Option Nat :=
  match r.data with
  | .opt _ _ _ _ options => some (optionsSize options)
  | _ => rdataSize r.data

/-- The bytes of the data of a record, with the options of an OPT record. -/
def Record.dataSize (r : Record) : Option Nat :=
  if r.rtype = typeOpt then r.optSize else rdataSize r.data

namespace Extent

/-- What a question adds: its name as it is compressed here, and four bytes. -/
def question (x : Extent) (q : Question) : Option Extent := (x.name q.name).map fun x => x.add 4

/-- What a record adds: its name as it is compressed here, ten bytes and its data. -/
def record (x : Extent) (r : Record) : Option Extent := do
  let x ← x.name r.name
  let n ← r.dataSize
  some (x.add (10 + n))

end Extent

/-- The size of a message on the wire; `none` if it has no wire form. -/
def Message.wireSize (m : Message) : Option Nat := do
  let x ← m.questions.foldlM Extent.question ⟨12, []⟩
  let x ← (m.answers ++ m.authority ++ m.additional).foldlM Extent.record x
  some x.size

/-! ## Bounds -/

namespace Extent

/-- Each dot of a text makes room for the length byte of a label. -/
theorem labelsSize_intercalate {labels : List Str} (hNil : labels ≠ []) :
    labelsSize labels = (Str.len (['.'].intercalate labels)) + 1 := by
  induction labels with
  | nil => exact absurd rfl hNil
  | cons a rest ih =>
      cases rest with
      | nil => simp [labelsSize]
      | cons b rest =>
          have hRest := ih (by simp)
          have hDot : Str.len ['.'] = 1 := by decide
          rw [labelsSize, List.map_cons, List.sum_cons, ← labelsSize, hRest,
            List.intercalate_cons_cons, Str.len_append, Str.len_append, hDot]
          omega

/-- Labels in front of a known suffix take no more room than all of them. -/
theorem labelsBefore_size {suffixes labels before : List Str}
    (h : labelsBefore suffixes labels = some before) : labelsSize before ≤ labelsSize labels := by
  induction labels generalizing before with
  | nil => cases h
  | cons label rest ih =>
      rw [labelsBefore] at h
      split_ifs at h
      · cases h
        exact Nat.zero_le _
      · obtain ⟨before', hRest, rfl⟩ := Option.map_eq_some_iff.mp h
        have hLe := ih hRest
        simp only [labelsSize, List.map_cons, List.sum_cons] at hLe ⊢
        omega

/-- A name that is spelled out takes the room of its labels. -/
theorem spell_size {x y : Extent} {labels : List Str} (h : x.spell labels = some y) :
    y.size = x.size + labelsSize labels := by
  induction labels generalizing x with
  | nil =>
      cases h
      rfl
  | cons label rest ih =>
      rw [spell] at h
      split_ifs at h <;> rw [ih h] <;> simp only [labelsSize, List.map_cons, List.sum_cons] <;> omega

/-- A name takes as many bytes as its canonical text, and at most three more. -/
theorem name_size {x y : Extent} {n : Str} (h : x.name n = some y) :
    y.size ≤ x.size + (canonicalName n).len + 3 := by
  rw [name] at h
  dsimp only at h
  split_ifs at h
  · cases h
    dsimp only [add]
    omega
  · have hTrim := Str.trimEndMatches_len (canonicalName n) '.'
    have hLabels := labelsSize_intercalate
      (List.splitOn_ne_nil '.' ((canonicalName n).trimEndMatches '.'))
    rw [List.intercalate_splitOn] at hLabels
    generalize List.splitOn '.' ((canonicalName n).trimEndMatches '.') = labels at h hLabels
    split at h
    · rename_i before hBefore
      have hLess := labelsBefore_size hBefore
      obtain ⟨mid, hLead, rfl⟩ := Option.map_eq_some_iff.mp h
      rw [lead] at hLead
      split_ifs at hLead
      cases hLead
      dsimp only [add]
      omega
    · obtain ⟨mid, hSpell, rfl⟩ := Option.map_eq_some_iff.mp h
      have hSize := spell_size hSpell
      dsimp only [add]
      omega

/-- A loop adds at most what its items need. -/
theorem foldlM_size {α : Type} {sized : Extent → α → Option Extent} {room : α → Nat}
    (hItem : ∀ x item y, sized x item = some y → y.size ≤ x.size + room item) {items : List α}
    {x y : Extent} (h : items.foldlM sized x = some y) : y.size ≤ x.size + (items.map room).sum := by
  induction items generalizing x with
  | nil =>
      cases h
      exact Nat.le_refl _
  | cons item rest ih =>
      rw [List.foldlM_cons] at h
      obtain ⟨mid, hFirst, hRest⟩ := Option.bind_eq_some_iff.mp h
      have hHead := hItem x item mid hFirst
      have hTail := ih hRest
      rw [List.map_cons, List.sum_cons]
      omega

/-- The most that a question can add, wherever it stands. -/
def questionRoom (q : Question) : Nat := (canonicalName q.name).len + 7

/-- The most that a record can add, wherever it stands. -/
def recordRoom (r : Record) : Nat := (canonicalName r.name).len + 13 + r.dataSize.getD 0

/-- A question takes at most the room that is set aside for it. -/
theorem question_size {x y : Extent} {q : Question} (h : x.question q = some y) :
    y.size ≤ x.size + questionRoom q := by
  obtain ⟨mid, hName, rfl⟩ := Option.map_eq_some_iff.mp h
  have hLe := name_size hName
  dsimp only [add, questionRoom]
  omega

theorem record_size {x y : Extent} {r : Record} (h : x.record r = some y) :
    y.size ≤ x.size + recordRoom r := by
  obtain ⟨mid, hName, h⟩ := Option.bind_eq_some_iff.mp h
  obtain ⟨n, hData, h⟩ := Option.bind_eq_some_iff.mp h
  cases h
  have hLe := name_size hName
  rw [recordRoom, hData]
  dsimp only [add, Option.getD_some]
  omega

end Extent

/-- No message is larger than one whose names are all written out. -/
theorem wireSize_le {m : Message} {n : Nat} (h : m.wireSize = some n) :
    n ≤ 12 + (m.questions.map Extent.questionRoom).sum +
      ((m.answers ++ m.authority ++ m.additional).map Extent.recordRoom).sum := by
  obtain ⟨x, hQuestions, h⟩ := Option.bind_eq_some_iff.mp h
  obtain ⟨y, hRecords, h⟩ := Option.bind_eq_some_iff.mp h
  cases h
  have hQuestion (x : Extent) (q : Question) (y : Extent) (h : x.question q = some y) :=
    Extent.question_size h
  have hRecord (x : Extent) (r : Record) (y : Extent) (h : x.record r = some y) :=
    Extent.record_size h
  have hFirst := Extent.foldlM_size hQuestion hQuestions
  have hRest := Extent.foldlM_size hRecord hRecords
  exact hRest.trans (Nat.add_le_add_right hFirst _)

/-! ## The encoder keeps to the sizes -/

/-- The bytes of an encoder are as many, and its map lists the same suffixes. -/
structure Encoder.Spans (enc : Encoder) (x : Extent) : Prop where
  size : enc.out.length = x.size
  suffixes : ∀ key, (enc.nameMap.get key).isSome ↔ key ∈ x.suffixes

/-- A call that returns does so exactly where the sizes have an outcome, and the
two outcomes are related. -/
def Sized {α β : Type} (rel : α → β → Prop) (call : Result α) (outcome : Option β) : Prop :=
  match call, outcome with
  | .ok a, some b => rel a b
  | .err _, none => True
  | _, _ => False

/-- Two calls have their sizes one behind the other. -/
theorem Sized.bind {α β α' β' : Type} {rel : α → β → Prop} {rel' : α' → β' → Prop}
    {call : Result α} {outcome : Option β} {f : α → Result α'} {g : β → Option β'}
    (h : Sized rel call outcome) (hThen : ∀ a b, rel a b → Sized rel' (f a) (g b)) :
    Sized rel' (call >>= f) (outcome >>= g) := by
  cases call <;> cases outcome <;> first | exact h.elim | exact hThen _ _ h | trivial

theorem Sized.map {α β α' β' : Type} {rel : α → β → Prop} {rel' : α' → β' → Prop}
    {call : Result α} {outcome : Option β} {f : α → α'} {g : β → β'}
    (h : Sized rel call outcome) (hThen : ∀ a b, rel a b → rel' (f a) (g b)) :
    Sized rel' (call >>= fun a => .ok (f a)) (outcome.map g) := by
  cases call <;> cases outcome <;> first | exact h.elim | exact hThen _ _ h | trivial

namespace Encoder.Spans

variable {enc : Encoder} {x : Extent}

/-- Bytes that are pushed are counted. -/
theorem push (h : enc.Spans x) (bs : Bytes) {n : Nat} (hLength : bs.length = n) :
    (enc.push bs).Spans (x.add n) :=
  ⟨by rw [push_out, List.length_append, h.size, hLength, Extent.add], h.suffixes⟩

/-- The encoder finds the suffix that the count finds. -/
theorem findSuffix (h : enc.Spans x) (labels : List Str) :
    (findSuffix enc.nameMap labels).map Prod.fst = Extent.labelsBefore x.suffixes labels := by
  induction labels with
  | nil => rfl
  | cons label rest ih =>
      have hKnown := h.suffixes (dotted (label :: rest))
      rw [Proto.findSuffix, Extent.labelsBefore]
      cases hGet : enc.nameMap.get (dotted (label :: rest)) with
      | some off =>
          rw [hGet] at hKnown
          rw [if_pos (hKnown.mp rfl)]
          rfl
      | none =>
          rw [hGet] at hKnown
          rw [if_neg fun hMem => Bool.noConfusion (hKnown.mpr hMem), ← ih]
          cases Proto.findSuffix enc.nameMap rest <;> rfl

/-- Labels in front of a suffix are written in the room that is counted for them. -/
theorem writePrefix (h : enc.Spans x) (labels : List Str) :
    Sized Spans (writePrefix enc labels) (x.lead labels) := by
  rw [Extent.lead]
  induction labels generalizing enc x with
  | nil => exact h
  | cons label rest ih =>
      rw [Proto.writePrefix]
      by_cases hLong : 63 < label.len
      · have hFails : ¬∀ l ∈ label :: rest, l.len ≤ 63 := fun hAll =>
          absurd (hAll label List.mem_cons_self) (by omega)
        rw [if_pos hLong, if_neg hFails]
        trivial
      · have hRest := ih (h.push (labelBytes label) (labelBytes_length label))
        have hAll : (∀ l ∈ label :: rest, l.len ≤ 63) ↔ ∀ l ∈ rest, l.len ≤ 63 := by
          rw [List.forall_mem_cons]
          exact and_iff_right (by omega)
        rw [if_neg hLong]
        simp only [hAll]
        rwa [Extent.add, Extent.add, Nat.add_assoc] at hRest

theorem record (h : enc.Spans x) (start : Nat) (key : Str) :
    (enc.record key start).Spans
      { x with suffixes := if start ≤ 0x3FFF then key :: x.suffixes else x.suffixes } := by
  refine ⟨by rw [record_out]; exact h.size, fun key' => ?_⟩
  rw [Encoder.record]
  dsimp only
  split_ifs
  · rw [HashMap.get_insert]
    split_ifs with hKey
    · simp [hKey]
    · rw [h.suffixes, List.mem_cons]
      exact (or_iff_right hKey).symm
  · exact h.suffixes key'

/-- So is a name in full. -/
theorem writeFull (h : enc.Spans x) (labels : List Str) :
    Sized Spans (writeFull enc labels) (x.spell labels) := by
  induction labels generalizing enc x with
  | nil => exact h
  | cons label rest ih =>
      rw [Proto.writeFull, Extent.spell]
      by_cases hLong : 63 < label.len
      · rw [if_pos hLong, if_pos hLong]
        trivial
      · have hPushed := h.push (labelBytes label) (labelBytes_length label)
        rw [if_neg hLong, if_neg hLong]
        dsimp only
        rw [h.size]
        exact ih (hPushed.record x.size _)

/-- So is a name of which the end may be known. -/
theorem writeName (h : enc.Spans x) (name : Str) :
    Sized Spans (enc.writeName name) (x.name name) := by
  rw [Encoder.writeName, Extent.name]
  dsimp only
  split_ifs
  · exact h.push _ rfl
  · have hFound := h.findSuffix ((Str.trimEndMatches (canonicalName name) '.').splitOn '.')
    split
    · rename_i before off hFind
      rw [← hFound, hFind]
      exact (h.writePrefix before).map fun _ _ hMid => hMid.push _ (UInt16.toBeBytes_length _)
    · rename_i hFind
      rw [← hFound, hFind]
      exact (h.writeFull _).map fun _ _ hMid => hMid.push _ rfl

theorem writeQuestion (h : enc.Spans x) (q : Question) :
    Sized Spans (enc.writeQuestion q) (x.question q) :=
  (h.writeName q.name).map fun _ y hMid => by
    have hType := hMid.push q.qtype.toBeBytes (UInt16.toBeBytes_length _)
    exact hType.push q.qclass.toBeBytes (UInt16.toBeBytes_length _)

end Encoder.Spans

/-- So are the names of one RDATA, by an encoder of their own. -/
theorem encodeNames_spans {enc : Encoder} {x : Extent} (h : enc.Spans x) (names : List Str) :
    Sized Encoder.Spans (encodeNames enc names) (names.foldlM Extent.name x) := by
  induction names generalizing enc x with
  | nil => exact h
  | cons name rest ih => exact (h.writeName name).bind fun _ _ hNext => ih hNext

/-- The call returns that many bytes, or fails where there is no size. -/
def OfSize (call : Result Bytes) (size : Option Nat) : Prop := Sized (fun bs n => bs.length = n) call size

theorem OfSize.of_ok {call : Result Bytes} {size : Option Nat} {e : Bytes} (h : OfSize call size)
    (hCall : call = .ok e) : size = some e.length := by
  rw [OfSize, hCall] at h
  cases size with
  | none => exact absurd h id
  | some n => exact congrArg some h.symm

theorem spans_new : Encoder.new.Spans ⟨0, []⟩ := ⟨rfl, fun key => by simp [Encoder.new]⟩

theorem encodeNamesAlone_size (names : List Str) : OfSize (encodeNamesAlone names) (namesSize names) :=
  (encodeNames_spans spans_new names).map fun _ _ h => h.size

theorem flatMap_length {α : Type} {f : α → Bytes} {g : α → Nat} (h : ∀ a, (f a).length = g a)
    (items : List α) : (items.flatMap f).length = (items.map g).sum := by
  induction items with
  | nil => rfl
  | cons a rest ih => rw [List.flatMap_cons, List.length_append, h, ih, List.map_cons, List.sum_cons]

/-- The data of a record has the size that is counted for it. -/
theorem encodeRdata_size (d : RData) : OfSize (encodeRdata d) (rdataSize d) := by
  cases d with
  | a ip => rfl
  | aaaa ip => exact ip.2
  | name n => exact encodeNamesAlone_size _
  | mx | soa => exact (encodeNamesAlone_size _).map fun bs n h => by simp [h]
  | txt strings => exact flatMap_length (fun s => by simp [encodeTxtString]) strings
  | srv | rrsig =>
      refine (encodeNamesAlone_size _).map fun bs n h => ?_
      simp only [List.length_append, UInt16.toBeBytes_length, UInt32.toBeBytes_length,
        List.length_singleton, h]
  | caa flags tag value =>
      change ([flags] ++ labelBytes tag ++ value).length = 1 + (tag.len + 1) + value.length
      rw [List.length_append, List.length_append, labelBytes_length, List.length_singleton]
  | nsec => exact (encodeNamesAlone_size _).map fun bs n h => by simp [h]
  | raw bytes => rfl
  | opt => trivial

namespace Encoder.Spans

variable {enc : Encoder} {x : Extent}

/-- Behind the type of a record: its class, its ttl, and its data with the length of it. -/
theorem pushBody (h : enc.Spans x) (rtype rclass : UInt16) (ttl : UInt32) {rdata : Bytes} {n : Nat}
    (hLength : rdata.length = n) :
    ((((enc.push rtype.toBeBytes).push rclass.toBeBytes).push ttl.toBeBytes).pushRdata rdata).Spans
      (x.add (10 + n)) := by
  refine ⟨?_, h.suffixes⟩
  have hSize := h.size
  simp only [Encoder.pushRdata, push_out, List.length_append, UInt16.toBeBytes_length,
    UInt32.toBeBytes_length, hLength, Extent.add]
  omega

/-- A record is written in the room that is counted for it. -/
theorem writeRecord (h : enc.Spans x) (r : Record) : Sized Spans (enc.writeRecord r) (x.record r) := by
  refine (h.writeName r.name).bind fun mid y hMid => ?_
  have hPlain : Sized Spans ((mid.push r.rtype.toBeBytes).writePlain r)
      ((rdataSize r.data).bind fun n => some (y.add (10 + n))) :=
    (encodeRdata_size r.data).bind fun _ _ hData => hMid.pushBody _ _ _ hData
  dsimp only
  rw [Record.dataSize]
  split_ifs
  · split
    · rename_i udpSize extRcode version flags options hOpt
      rw [encodeOptRdata, Record.optSize, hOpt]
      refine hMid.pushBody _ _ _ (flatMap_length (fun o => ?_) options)
      simp only [encodeOption, List.length_append, UInt16.toBeBytes_length]
    · rename_i hOther
      have hSize : r.optSize = rdataSize r.data := by
        rw [Record.optSize]
        split
        · rename_i hOpt
          exact absurd hOpt (hOther _ _ _ _ _)
        · rfl
      rw [hSize]
      exact hPlain
  · exact hPlain

/-- So is a section, record by record. -/
theorem writeAll {α : Type} {write : Encoder → α → Result Encoder} {sized : Extent → α → Option Extent}
    (hItem : ∀ enc x item, Spans enc x → Sized Spans (write enc item) (sized x item))
    (h : enc.Spans x) (items : List α) :
    Sized Spans (Encoder.writeAll write enc items) (items.foldlM sized x) := by
  induction items generalizing enc x with
  | nil => exact h
  | cons item rest ih => exact (hItem enc x item h).bind fun _ _ hNext => ih hNext

end Encoder.Spans

/-- A message is encoded in as many bytes as its size says, and fails to be
encoded if it has none. -/
theorem encode_size (m : Message) : OfSize m.encode m.wireSize := by
  have hStart : (Encoder.new.push (headerBytes m)).Spans ⟨12, []⟩ :=
    spans_new.push _ (headerBytes_length m)
  have hRecord (enc : Encoder) (x : Extent) (r : Record) (h : enc.Spans x) := h.writeRecord r
  rw [Message.wireSize]
  simp only [List.foldlM_append, bind_assoc]
  refine (hStart.writeAll (fun _ _ q h => h.writeQuestion q) m.questions).bind fun _ _ h1 => ?_
  refine (h1.writeAll hRecord m.answers).bind fun _ _ h2 => ?_
  refine (h2.writeAll hRecord m.authority).bind fun _ _ h3 => ?_
  exact (h3.writeAll hRecord m.additional).bind fun _ _ h4 => h4.size

end Dnsd.Proto

import Dnsd.Proto.MessageCodec

/-! Messages with their names in canonical form. The encoder writes no other
names, so that a message is written as its canonical form is. -/

namespace Dnsd.Proto

open Exec

theorem legible_canonical {name : Str} (hName : LegibleName name) : canonicalName name = name := by
  obtain ⟨labels, hLabels, rfl⟩ := hName
  exact hLabels.canonicalName_nameText

/-- The question as a reader gets it back: its name in lower case and with the dot at its
end. -/
def Question.canonical (q : Question) : Question := { q with name := canonicalName q.name }

/-- The names inside RDATA as a reader gets them back. -/
def RData.canonical : RData → RData
  | .name target => .name (canonicalName target)
  | .mx preference exchange => .mx preference (canonicalName exchange)
  | .soa mname rname serial refresh retry expire minimum =>
      .soa (canonicalName mname) (canonicalName rname) serial refresh retry expire minimum
  | .srv priority weight port target => .srv priority weight port (canonicalName target)
  | .rrsig typeCovered algorithm labels originalTtl expiration inception keyTag signerName
      signature =>
      .rrsig typeCovered algorithm labels originalTtl expiration inception keyTag
        (canonicalName signerName) signature
  | .nsec nextDomain typeBitmaps => .nsec (canonicalName nextDomain) typeBitmaps
  | .a ip => .a ip
  | .aaaa ip => .aaaa ip
  | .txt strings => .txt strings
  | .caa flags tag value => .caa flags tag value
  | .raw bytes => .raw bytes
  | .opt udpSize extRcode version flags options => .opt udpSize extRcode version flags options

/-- The record as a reader gets it back. -/
def Record.canonical (r : Record) : Record :=
  { r with name := canonicalName r.name, data := r.data.canonical }

/-- The message as a reader gets it back, in all its sections. -/
def Message.canonical (m : Message) : Message where
  header := m.header
  questions := m.questions.map Question.canonical
  answers := m.answers.map Record.canonical
  authority := m.authority.map Record.canonical
  additional := m.additional.map Record.canonical

theorem RData.canonical_eq_opt_iff {d : RData} {udpSize : UInt16} {extRcode version : UInt8}
    {flags : UInt16} {options : List OptOption} :
    d.canonical = .opt udpSize extRcode version flags options ↔
      d = .opt udpSize extRcode version flags options := by
  cases d <;> simp [RData.canonical]

namespace Encoder

variable {enc : Encoder}

theorem writeName_canonical {name : Str} (h : LegibleName (canonicalName name)) :
    enc.writeName (canonicalName name) = enc.writeName name := by
  rw [writeName, legible_canonical h]
  rfl

theorem writeQuestion_canonical {q : Question} (h : LegibleName q.canonical.name) :
    enc.writeQuestion q.canonical = enc.writeQuestion q := by
  rw [writeQuestion, Question.canonical, writeName_canonical h]
  rfl

end Encoder

theorem encodeNamesAlone_canonical (names : List Str)
    (h : ∀ name ∈ names, LegibleName (canonicalName name)) :
    encodeNamesAlone (names.map canonicalName) = encodeNamesAlone names := by
  have hNames (enc : Encoder) : encodeNames enc (names.map canonicalName) = encodeNames enc names := by
    induction names generalizing enc with
    | nil => rfl
    | cons name rest ih =>
        rw [List.map_cons, encodeNames, encodeNames,
          Encoder.writeName_canonical (h name List.mem_cons_self)]
        refine bind_congr fun next => ?_
        exact ih (fun n hn => h n (List.mem_cons_of_mem name hn)) next
  rw [encodeNamesAlone, hNames, encodeNamesAlone]

theorem encodeRdata_canonical {d : RData} (h : d.canonical.Wf LegibleName) :
    encodeRdata d.canonical = encodeRdata d := by
  have hOne {name : Str} (hName : LegibleName (canonicalName name)) :
      encodeNamesAlone [canonicalName name] = encodeNamesAlone [name] :=
    encodeNamesAlone_canonical [name] fun n hn => by
      rwa [List.mem_singleton.mp hn]
  cases d with
  | name target => exact hOne h
  | mx preference exchange => rw [RData.canonical, encodeRdata, hOne h, encodeRdata]
  | soa mname rname =>
      have hTwo : encodeNamesAlone [canonicalName mname, canonicalName rname] =
          encodeNamesAlone [mname, rname] := by
        refine encodeNamesAlone_canonical [mname, rname] fun n hn => ?_
        simp only [List.mem_cons, List.not_mem_nil, or_false] at hn
        rcases hn with rfl | rfl
        · exact h.1
        · exact h.2
      rw [RData.canonical, encodeRdata, hTwo, encodeRdata]
  | srv priority weight port target => rw [RData.canonical, encodeRdata, hOne h, encodeRdata]
  | rrsig typeCovered algorithm labels originalTtl expiration inception keyTag signerName
      signature => rw [RData.canonical, encodeRdata, hOne h, encodeRdata]
  | nsec nextDomain typeBitmaps => rw [RData.canonical, encodeRdata, hOne h, encodeRdata]
  | a | aaaa | txt | caa | raw | opt => rfl

theorem encodeOptRdata_canonical (r : Record) :
    encodeOptRdata r.canonical = encodeOptRdata r := by
  rw [encodeOptRdata, encodeOptRdata, Record.canonical]
  cases r.data <;> rfl

theorem Encoder.writeRecord_canonical {enc : Encoder} {r : Record}
    (h : r.canonical.Codable LegibleName) : enc.writeRecord r.canonical = enc.writeRecord r := by
  have hPlain (enc : Encoder) : enc.writePlain r.canonical = enc.writePlain r := by
    rw [writePlain, writePlain, ← encodeRdata_canonical h.data]
    rfl
  rw [writeRecord, writeRecord]
  have hName : enc.writeName r.canonical.name = enc.writeName r.name := writeName_canonical h.name
  rw [hName]
  refine bind_congr fun next => ?_
  simp only [encodeOptRdata_canonical, hPlain]
  rw [Record.canonical]
  cases r.data <;> rfl

theorem writeAll_map {α : Type} {write : Encoder → α → Result Encoder} {f : α → α}
    {items : List α} (h : ∀ item ∈ items, ∀ enc, write enc (f item) = write enc item)
    (enc : Encoder) :
    Encoder.writeAll write enc (items.map f) = Encoder.writeAll write enc items := by
  induction items generalizing enc with
  | nil => rfl
  | cons item rest ih =>
      rw [List.map_cons, Encoder.writeAll, Encoder.writeAll, h item List.mem_cons_self]
      refine bind_congr fun next => ?_
      exact ih (fun i hi => h i (List.mem_cons_of_mem item hi)) next

/-- A message is written as its canonical form. -/
theorem encode_canonical {m : Message} (h : m.canonical.Codable LegibleName) :
    m.canonical.encode = m.encode := by
  have hRecord (r : Record) (hr : r ∈ m.answers ++ m.authority ++ m.additional) (enc : Encoder) :
      enc.writeRecord r.canonical = enc.writeRecord r := by
    refine Encoder.writeRecord_canonical (h.records _ ?_)
    simp only [Message.canonical, ← List.map_append]
    exact List.mem_map_of_mem hr
  have hQuestion (q : Question) (hq : q ∈ m.questions) (enc : Encoder) :
      enc.writeQuestion q.canonical = enc.writeQuestion q :=
    Encoder.writeQuestion_canonical (h.questions _ (List.mem_map_of_mem hq))
  have hHeader : headerBytes m.canonical = headerBytes m := by
    simp [headerBytes, Message.canonical]
  rw [Message.encode, Message.encode, hHeader]
  simp only [Message.canonical]
  rw [writeAll_map hQuestion]
  refine bind_congr fun enc => ?_
  rw [writeAll_map fun r hr => hRecord r (by simp [hr])]
  refine bind_congr fun enc => ?_
  rw [writeAll_map fun r hr => hRecord r (by simp [hr])]
  refine bind_congr fun enc => ?_
  rw [writeAll_map fun r hr => hRecord r (by simp [hr])]

end Dnsd.Proto

import Dnsd.Proto.MessageCodec

/-! The bytes of a message: the identifier is their front and nothing behind it
depends on it, and they are not longer than their items allow. -/

namespace Dnsd.Proto

open Exec

/-! ## The identifier -/

/-- The second encoder has other bytes in front, and else the same. -/
structure Encoder.Alike (front : Bytes) (enc enc' : Encoder) : Prop where
  nameMap : enc.nameMap = enc'.nameMap
  covers : front.length ≤ enc.out.length
  out : enc'.out = front ++ enc.out.drop front.length

namespace Encoder.Alike

variable {front : Bytes} {enc enc' : Encoder}

theorem length (h : Alike front enc enc') : enc.out.length = enc'.out.length := by
  have hCovers := h.covers
  rw [h.out, List.length_append, List.length_drop]
  omega

theorem push (h : Alike front enc enc') (bs : Bytes) : Alike front (enc.push bs) (enc'.push bs) := by
  have hCovers := h.covers
  refine ⟨h.nameMap, ?_, ?_⟩
  · rw [push_out, List.length_append]
    omega
  · rw [push_out, push_out, List.drop_append_of_le_length hCovers, h.out, List.append_assoc]

theorem record (h : Alike front enc enc') (key : Str) (labelStart : Nat) :
    Alike front (enc.record key labelStart) (enc'.record key labelStart) := by
  unfold Encoder.record
  split_ifs
  · exact ⟨by dsimp only; rw [h.nameMap], h.covers, h.out⟩
  · exact h

theorem writePrefix (h : Alike front enc enc') (labels : List Str) :
    Related (Alike front) (writePrefix enc labels) (writePrefix enc' labels) := by
  induction labels generalizing enc enc' with
  | nil => exact h
  | cons label rest ih =>
      rw [Proto.writePrefix, Proto.writePrefix]
      split_ifs
      · rfl
      · exact ih (h.push _)

theorem writeFull (h : Alike front enc enc') (labels : List Str) :
    Related (Alike front) (writeFull enc labels) (writeFull enc' labels) := by
  induction labels generalizing enc enc' with
  | nil => exact h
  | cons label rest ih =>
      rw [Proto.writeFull, Proto.writeFull]
      split_ifs
      · rfl
      · dsimp only
        rw [h.length]
        exact ih ((h.push _).record _ _)

theorem writeName (h : Alike front enc enc') (name : Str) :
    Related (Alike front) (enc.writeName name) (enc'.writeName name) := by
  rw [Encoder.writeName, Encoder.writeName, h.nameMap]
  dsimp only
  split_ifs
  · exact h.push _
  · split
    · exact (h.writePrefix _).bind fun _ _ hNext => hNext.push _
    · exact (h.writeFull _).bind fun _ _ hNext => hNext.push _

theorem writeQuestion (h : Alike front enc enc') (q : Question) :
    Related (Alike front) (enc.writeQuestion q) (enc'.writeQuestion q) :=
  (h.writeName q.name).bind fun _ _ hNext => (hNext.push _).push _

/-- What does not touch the encoder ends the same way twice. -/
theorem related_self (x : Result Bytes) : Related Eq x x := by
  cases x <;> trivial

theorem writePlain (h : Alike front enc enc') (r : Record) :
    Related (Alike front) (enc.writePlain r) (enc'.writePlain r) := by
  refine (related_self (encodeRdata r.data)).bind fun e e' hSame => ?_
  subst hSame
  exact (((h.push _).push _).push _).push _

theorem writeRecord (h : Alike front enc enc') (r : Record) :
    Related (Alike front) (enc.writeRecord r) (enc'.writeRecord r) := by
  refine (h.writeName r.name).bind fun next next' hNext => ?_
  dsimp only
  split_ifs
  · split
    · refine (related_self (encodeOptRdata r)).bind fun e e' hSame => ?_
      subst hSame
      exact ((((hNext.push _).push _).push _).push _).push _
    · exact (hNext.push _).writePlain r
  · exact (hNext.push _).writePlain r

theorem writeAll {α : Type} {write : Encoder → α → Result Encoder}
    (hWrite : ∀ enc enc' item, Alike front enc enc' →
      Related (Alike front) (write enc item) (write enc' item))
    (h : Alike front enc enc') (items : List α) :
    Related (Alike front) (Encoder.writeAll write enc items) (Encoder.writeAll write enc' items) := by
  induction items generalizing enc enc' with
  | nil => exact h
  | cons item rest ih => exact (hWrite enc enc' item h).bind fun _ _ hNext => ih hNext

end Encoder.Alike

/-- Another identifier in front of the bytes of a message. -/
def patchId (bytes : Bytes) (id : UInt16) : Bytes :=
  match bytes with
  | _ :: _ :: rest => id.toBeBytes ++ rest
  | short => short

/-- The same message under another identifier, as a cached one is given to a client. -/
def Message.withId (m : Message) (id : UInt16) : Message :=
  { m with header := { m.header with id := id } }

/-- Patching the bytes is encoding the message with the other identifier. -/
theorem encode_withId {m : Message} {b : Bytes} (h : m.encode = .ok b) (id : UInt16) :
    (m.withId id).encode = .ok (patchId b id) := by
  have hStart : Encoder.Alike id.toBeBytes (Encoder.new.push (headerBytes m))
      (Encoder.new.push (headerBytes (m.withId id))) := by
    refine ⟨rfl, ?_, ?_⟩
    · rw [Encoder.push_out, List.length_append, headerBytes_length, UInt16.toBeBytes_length]
      omega
    · have hDrop : (headerBytes m).drop 2 = (flagsOfHeader m.header).toBeBytes ++
          (UInt16.ofNat m.questions.length).toBeBytes ++ (UInt16.ofNat m.answers.length).toBeBytes ++
          (UInt16.ofNat m.authority.length).toBeBytes ++
          (UInt16.ofNat m.additional.length).toBeBytes := by
        simp only [headerBytes, List.append_assoc]
        exact List.drop_left' (UInt16.toBeBytes_length _)
      change headerBytes (m.withId id) = id.toBeBytes ++ (headerBytes m).drop 2
      rw [hDrop]
      simp only [headerBytes, List.append_assoc]
      rfl
  have hEncode : Related (fun out out' => out' = patchId out id) m.encode (m.withId id).encode := by
    refine (hStart.writeAll (fun _ _ q h => h.writeQuestion q) m.questions).bind fun _ _ h1 => ?_
    refine (h1.writeAll (fun _ _ r h => h.writeRecord r) m.answers).bind fun _ _ h2 => ?_
    refine (h2.writeAll (fun _ _ r h => h.writeRecord r) m.authority).bind fun _ _ h3 => ?_
    refine (h3.writeAll (fun _ _ r h => h.writeRecord r) m.additional).bind fun enc enc' h4 => ?_
    have hCovers := h4.covers
    change enc'.out = patchId enc.out id
    rw [UInt16.toBeBytes_length] at hCovers
    rw [h4.out, UInt16.toBeBytes_length]
    -- At least the two octets of the identifier are there to be patched.
    generalize enc.out = out at hCovers ⊢
    rcases out with _ | ⟨high, _ | ⟨low, rest⟩⟩
    · simp at hCovers
    · simp at hCovers
    · rfl
  rw [h] at hEncode
  obtain ⟨b', hPatched, rfl⟩ := hEncode.ok_left
  exact hPatched

/-! ## Bounds on what is written -/

theorem writePrefix_length {enc enc' : Encoder} {labels : List Str}
    (h : writePrefix enc labels = .ok enc') :
    enc'.out.length ≤ enc.out.length + 64 * labels.length := by
  induction labels generalizing enc with
  | nil =>
      cases h
      simp
  | cons label rest ih =>
      rw [writePrefix] at h
      split_ifs at h with hLong
      have hRest := ih h
      simp only [Encoder.push_out, List.length_append, labelBytes_length, List.length_cons] at hRest ⊢
      omega

theorem writeFull_length {enc enc' : Encoder} {labels : List Str}
    (h : writeFull enc labels = .ok enc') :
    enc'.out.length ≤ enc.out.length + 64 * labels.length := by
  induction labels generalizing enc with
  | nil =>
      cases h
      simp
  | cons label rest ih =>
      rw [writeFull] at h
      split_ifs at h with hLong
      have hRest := ih h
      have hRecord (e : Encoder) (key : Str) (start : Nat) : (e.record key start).out = e.out := by
        rw [Encoder.record]
        split_ifs <;> rfl
      simp only [hRecord, Encoder.push_out, List.length_append, labelBytes_length,
        List.length_cons] at hRest ⊢
      omega

/-- The most that a legible name adds: 254 labels and what ends them. -/
def nameRoom : Nat := 64 * 254 + 2

/-- The most bytes that a question adds to a message. -/
def questionRoom : Nat := nameRoom + 4

/-- The most bytes that a record adds to a message. -/
def recordRoom : Nat := nameRoom + 10 + 65535

theorem writeName_length {enc enc' : Encoder} {name : Str} (hName : LegibleName name)
    (h : enc.writeName name = .ok enc') : enc'.out.length ≤ enc.out.length + nameRoom := by
  obtain ⟨labels, hLabels, rfl⟩ := hName
  have hCount := hLabels.count
  have hRoom : nameRoom = 64 * 254 + 2 := rfl
  rw [Encoder.writeName, hLabels.canonicalName_nameText] at h
  dsimp only at h
  split_ifs at h with hRoot
  · cases h
    simp
    omega
  · have hNil : labels ≠ [] := fun hNil => hRoot (by rw [hNil]; rfl)
    rw [hLabels.splitOn_nameText hNil] at h
    split at h
    · rename_i before off hFound
      obtain ⟨after, _, hSplit, _⟩ := findSuffix_some hFound
      obtain ⟨mid, hWrite, hPush⟩ := bind_eq_ok_iff.mp h
      cases hPush
      have hBefore := writePrefix_length hWrite
      rw [hSplit, List.length_append] at hCount
      simp
      omega
    · obtain ⟨mid, hWrite, hPush⟩ := bind_eq_ok_iff.mp h
      cases hPush
      have hFull := writeFull_length hWrite
      simp
      omega

theorem writeAll_length {α : Type} {write : Encoder → α → Result Encoder} {room : Nat}
    {items : List α} (hWrite : ∀ item ∈ items, ∀ enc enc', write enc item = .ok enc' →
      enc'.out.length ≤ enc.out.length + room)
    {enc enc' : Encoder} (h : Encoder.writeAll write enc items = .ok enc') :
    enc'.out.length ≤ enc.out.length + room * items.length := by
  induction items generalizing enc with
  | nil =>
      cases h
      simp
  | cons item rest ih =>
      obtain ⟨mid, hFirst, hRest⟩ := bind_eq_ok_iff.mp h
      have hItem := hWrite item List.mem_cons_self enc mid hFirst
      have hItems := ih (fun other hOther => hWrite other (List.mem_cons_of_mem item hOther)) hRest
      rw [List.length_cons, Nat.mul_succ]
      omega

theorem writeQuestion_length {enc enc' : Encoder} {q : Question} (hName : LegibleName q.name)
    (h : enc.writeQuestion q = .ok enc') : enc'.out.length ≤ enc.out.length + questionRoom := by
  obtain ⟨mid, hWrite, hPush⟩ := bind_eq_ok_iff.mp h
  cases hPush
  have hMid := writeName_length hName hWrite
  rw [questionRoom]
  simp
  omega

theorem writeRecord_length {enc enc' : Encoder} {r : Record} (hRecord : r.Codable LegibleName)
    (h : enc.writeRecord r = .ok enc') :
    enc'.out.length ≤ enc.out.length + recordRoom := by
  obtain ⟨mid, hWrite, _⟩ := bind_eq_ok_iff.mp h
  have hMid := writeName_length hRecord.name hWrite
  obtain ⟨e, hEncode, _⟩ := parseRdata_rdataBytes hRecord
  have hLength := hRecord.length e hEncode
  obtain ⟨enc'', hAgain, _, hOut⟩ := writeRecord_bytes hWrite hEncode
  have hSame : enc' = enc'' := Exec.ok.inj (h.symm.trans hAgain)
  have hAdded : enc'.out.length = mid.out.length + 10 + e.length := by
    rw [hSame, hOut]
    simp
    omega
  unfold recordRoom
  omega

theorem encode_length {m : Message} (hCodable : m.Codable LegibleName) {b : Bytes}
    (h : m.encode = .ok b) :
    b.length ≤ 12 + questionRoom * m.questions.length +
      recordRoom * (m.answers.length + m.authority.length + m.additional.length) := by
  have hRecord (rs : List Record) (hSub : ∀ r ∈ rs, r ∈ m.answers ++ m.authority ++ m.additional) :
      ∀ r ∈ rs, ∀ enc enc', Encoder.writeRecord enc r = .ok enc' →
        enc'.out.length ≤ enc.out.length + recordRoom :=
    fun r hr _ _ hWrite => writeRecord_length (hCodable.records r (hSub r hr)) hWrite
  obtain ⟨enc1, enc2, enc3, enc4, hWrite1, hWrite2, hWrite3, hWrite4, rfl⟩ := encode_eq_ok h
  have hLength1 := writeAll_length
    (fun q hq _ _ hWrite => writeQuestion_length (hCodable.questions q hq) hWrite) hWrite1
  have hLength2 := writeAll_length (hRecord m.answers (by simp +contextual)) hWrite2
  have hLength3 := writeAll_length (hRecord m.authority (by simp +contextual)) hWrite3
  have hLength4 := writeAll_length (hRecord m.additional (by simp +contextual)) hWrite4
  have hHeader : (Encoder.new.push (headerBytes m)).out.length = 12 := headerBytes_length m
  rw [Nat.mul_add, Nat.mul_add]
  omega

end Dnsd.Proto

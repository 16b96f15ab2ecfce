import Dnsd.Base.Runs
import Dnsd.Proto.WireNames
import Mathlib.Algebra.Group.Action.Defs
import Mathlib.Algebra.Order.BigOperators.Group.List

/-! Names that are written into one message, between other bytes: where their
pointers lead, and how the reader gets through them. -/

namespace Dnsd.Proto

open Bytes Exec

/-! ## Jumps -/

/-- How many pointers `read_name` follows from an offset on, in the turns that are
left to it. -/
def jumps (buf : Bytes) : Nat → Nat → Nat
  | 0, _ => 0
  | guard + 1, next =>
      match buf[next]? with
      | none => 0
      | some len =>
          if len &&& 0xC0 = 0xC0 then
            match buf[next + 1]? with
            | none => 0
            | some low => jumps buf guard (pointerTarget len low) + 1
          else if len &&& 0xC0 ≠ 0 ∨ len = 0 ∨ buf.length < next + 1 + len.toNat then 0
          else jumps buf guard (next + 1 + len.toNat)

/-- The label loop with a count of its jumps in place of the flag. -/
def countedLabels (buf : Bytes) : Nat → Nat → Nat → Nat → List Str → Result ((List Str × Nat) × Nat)
  | 0, _, _, _, _ => .err (.parse "name compression loop")
  | guard + 1, next, count, pos, labels =>
      if buf.length ≤ next then .err (.parse "name runs past end")
      else do
        let len ← idx buf next
        if len &&& 0xC0 = 0xC0 then
          if buf.length ≤ next + 1 then .err (.parse "truncated pointer")
          else do
            let low ← idx buf (next + 1)
            let ptr := ((len &&& 0x3F).toNat <<< 8) ||| low.toNat
            countedLabels buf guard ptr (count + 1) (if count ≠ 0 then pos else next + 2) labels
        else if len &&& 0xC0 ≠ 0 then .err (.parse "bad label length")
        else if len = 0 then .ok ((labels, if count ≠ 0 then pos else next + 1), count)
        else if 63 < len.toNat ∨ buf.length < next + 1 + len.toNat then .err (.parse "bad label")
        else do
          let raw ← slice buf (next + 1) (next + 1 + len.toNat)
          let label := (Str.fromUtf8Lossy raw).toLowercase
          countedLabels buf guard (next + 1 + len.toNat) count pos (labels ++ [label])

/-- The count changes nothing of what is read, and comes to `jumps`. -/
theorem countedLabels_eq (buf : Bytes) (guard next count pos : Nat) (labels : List Str) :
    countedLabels buf guard next count pos labels =
      readLabels buf guard next (decide (count ≠ 0)) pos labels >>=
        fun r => .ok (r, count + jumps buf guard next) := by
  induction guard generalizing next count pos labels with
  | zero => rfl
  | succ guard ih =>
      rw [countedLabels, readLabels, jumps]
      by_cases hEnd : buf.length ≤ next
      · rw [if_pos hEnd, if_pos hEnd]
        rfl
      · obtain ⟨len, hLen⟩ : ∃ len, buf[next]? = some len :=
          ⟨buf[next], List.getElem?_eq_getElem (Nat.lt_of_not_le hEnd)⟩
        have hRead : (idx buf next : Result UInt8) = .ok len := idx_eq_ok_iff.mpr hLen
        rw [if_neg hEnd, if_neg hEnd, hRead, hLen, ok_bind, ok_bind]
        dsimp only
        by_cases hPointer : len &&& 0xC0 = 0xC0
        · rw [if_pos hPointer, if_pos hPointer, if_pos hPointer]
          by_cases hCut : buf.length ≤ next + 1
          · rw [if_pos hCut, if_pos hCut]
            rfl
          · obtain ⟨low, hLow⟩ : ∃ low, buf[next + 1]? = some low :=
              ⟨buf[next + 1], List.getElem?_eq_getElem (Nat.lt_of_not_le hCut)⟩
            have hReadLow : (idx buf (next + 1) : Result UInt8) = .ok low := idx_eq_ok_iff.mpr hLow
            rw [if_neg hCut, if_neg hCut, hReadLow, hLow, ok_bind, ok_bind]
            dsimp only
            rw [ih, pointerTarget, Nat.add_assoc, Nat.add_comm 1]
            simp
        · rw [if_neg hPointer, if_neg hPointer, if_neg hPointer]
          by_cases hBits : len &&& 0xC0 = 0
          · rw [if_neg (not_not.mpr hBits), if_neg (not_not.mpr hBits)]
            by_cases hRoot : len = 0
            · simp [hRoot]
            · rw [if_neg hRoot, if_neg hRoot]
              by_cases hBad : 63 < len.toNat ∨ buf.length < next + 1 + len.toNat
              · rw [if_pos hBad, if_pos hBad]
                rfl
              · rw [if_neg hBad, if_neg hBad, if_neg]
                · cases hSlice : (slice buf (next + 1) (next + 1 + len.toNat) : Result Bytes) with
                  | ok raw => exact ih _ _ _ _
                  | err e => rfl
                  | panicked => rfl
                · rintro (hNe | hZero | hLong)
                  · exact hNe hBits
                  · exact hRoot hZero
                  · exact hBad (Or.inr hLong)
          · rw [if_pos hBits, if_pos hBits]
            rfl

section Turns

variable {buf : Bytes} {next : Nat}

theorem jumps_root (hAt : At buf next [0]) (guard : Nat) : jumps buf guard next = 0 := by
  cases guard with
  | zero => rfl
  | succ guard =>
      rw [jumps, hAt.getElem?]
      rfl

theorem jumps_label {label : Str} (hNonempty : label ≠ []) (hShort : label.len ≤ 63)
    (hAt : At buf next (labelBytes label)) (guard : Nat) :
    jumps buf (guard + 1) next = jumps buf guard (next + (labelBytes label).length) := by
  have hEnd := hAt.length_le
  rw [labelBytes_length] at hEnd ⊢
  obtain ⟨hBits, hValue⟩ := lengthByte_bits hShort
  have hPositive := Str.len_pos hNonempty
  have hLen : UInt8.ofNat label.len ≠ 0 := fun hZero => by
    rw [hZero, UInt8.toNat_zero] at hValue
    omega
  rw [jumps, hAt.getElem?]
  dsimp only
  rw [hBits, if_neg (by decide), if_neg, hValue, Nat.add_right_comm next 1, Nat.add_assoc]
  rintro (hNe | hZero | hLong)
  · exact hNe rfl
  · exact hLen hZero
  · omega

theorem jumps_pointer {off : UInt16} (hOff : off.toNat ≤ 0x3FFF)
    (hAt : At buf next (0xC000 ||| off).toBeBytes) (guard : Nat) :
    jumps buf (guard + 1) next = jumps buf guard off.toNat + 1 := by
  obtain ⟨high, low, hBytes, hHigh, hTarget⟩ := pointer_bits hOff
  rw [hBytes] at hAt
  rw [jumps, hAt.getElem?]
  dsimp only
  rw [if_pos hHigh, hAt.tail.getElem?]
  dsimp only
  rw [pointerTarget, hTarget]

/-- Labels add no jump. -/
theorem jumps_labels {names : List Str} (hNames : ∀ l ∈ names, l ≠ [] ∧ l.len ≤ 63)
    (hAt : At buf next (names.flatMap labelBytes)) {most : Nat}
    (hRest : ∀ guard, jumps buf guard (next + (names.flatMap labelBytes).length) ≤ most)
    (guard : Nat) : jumps buf guard next ≤ most := by
  induction names generalizing next guard with
  | nil => exact hRest guard
  | cons label rest ih =>
      obtain ⟨hNonempty, hShort⟩ := hNames label List.mem_cons_self
      rw [List.flatMap_cons] at hAt hRest
      cases guard with
      | zero => exact Nat.zero_le _
      | succ guard =>
          rw [jumps_label hNonempty hShort hAt.left]
          refine ih (fun l hl => hNames l (List.mem_cons_of_mem label hl)) hAt.right ?_ guard
          rw [List.length_append, ← Nat.add_assoc] at hRest
          exact hRest

theorem jumps_wireName {names : List Str} (hNames : ∀ l ∈ names, l ≠ [] ∧ l.len ≤ 63)
    (hAt : At buf next (wireName names)) (guard : Nat) : jumps buf guard next ≤ 0 :=
  jumps_labels hNames hAt.left (fun guard => (jumps_root hAt.right guard).le) guard

/-- A name that is spelled takes one jump at most. -/
theorem StandsAt.jumps_le {names : List Str} {start stop : Nat} (h : StandsAt buf names start stop)
    (hNames : Legible names) (guard : Nat) : jumps buf guard start ≤ 1 := by
  have hShort : ∀ l ∈ names, l ≠ [] ∧ l.len ≤ 63 := fun l hl =>
    ⟨(hNames.label l hl).nonempty, (hNames.label l hl).short⟩
  cases h with
  | full hAt => exact (jumps_wireName hShort hAt guard).trans (Nat.zero_le 1)
  | pointer hOff _ hAt hTarget =>
      refine jumps_labels (fun l hl => hShort l (List.mem_append_left _ hl)) hAt.left
        (fun guard => ?_) guard
      cases guard with
      | zero => exact Nat.zero_le 1
      | succ guard =>
          rw [jumps_pointer hOff hAt.right]
          exact Nat.succ_le_succ
            (jumps_wireName (fun l hl => hShort l (List.mem_append_right _ hl)) hTarget guard)

end Turns

/-! ## Messages -/

/-- A name of host labels, of at most 255 octets of text. -/
def HostText (name : Str) : Prop :=
  ∃ labels : List Str, (∀ l ∈ labels, l ≠ [] ∧ l.length ≤ 63 ∧ ∀ c ∈ l, hostChar c) ∧
    name = nameText labels ∧ name.len ≤ 255

/-- Something that is appended to a message: a name, or bytes that stand for all else. -/
inductive Emit where
  | name (name : Str)
  | bytes (bs : Bytes)

/-- The names are host names; the bytes are any. -/
def Emit.Host : Emit → Prop
  | .name text => HostText text
  | .bytes _ => True

/-- The name that is written, if it is one. -/
def Emit.text : Emit → Option Str
  | .name text => some text
  | .bytes _ => none

/-- A name that has been written, and the offsets between which it is. -/
structure Written where
  name : Str
  start : Nat
  stop : Nat

/-- An encoder, with what has been written to it, which is not in the program. -/
structure Session where
  enc : Encoder
  names : List Written

namespace Session

/-- Nothing is written yet. -/
def start : Session := ⟨Encoder.new, []⟩

/-- One more name, through the compression, or bytes that have nothing to do with names.
-/
def step (s : Session) : Emit → Option Session
  | .name name =>
      match s.enc.writeName name with
      | .ok enc => some ⟨enc, s.names ++ [⟨name, s.enc.out.length, enc.out.length⟩]⟩
      | .err _ | .panicked => none
  | .bytes bs => some { s with enc := s.enc.push bs }

/-- The map is sound, and the names are spelled where they have been written. -/
structure Compressed (s : Session) : Prop where
  map : MapSound s.enc
  names : ∀ w ∈ s.names, ∃ labels, Legible labels ∧ w.name = nameText labels ∧
    StandsAt s.enc.out labels w.start w.stop

theorem compressed_start : start.Compressed := ⟨mapSound_new, by simp [start]⟩

end Session

theorem HostText.legible {name : Str} (h : HostText name) :
    ∃ labels, Legible labels ∧ name = nameText labels := by
  obtain ⟨labels, hLabels, rfl, hLength⟩ := h
  refine ⟨labels, legible_of_host hLabels ?_, rfl⟩
  by_cases hNil : labels = []
  · simp [hNil]
  · have hSum := List.card_nsmul_le_sum (labels.map fun l => l.len + 1) 2 fun n hn => by
      obtain ⟨l, hl, rfl⟩ := List.mem_map.mp hn
      have hPositive := Str.len_pos (hLabels l hl).1
      omega
    rw [List.length_map, smul_eq_mul] at hSum
    rw [nameText, if_neg (by simpa using hNil), dotted_len hNil] at hLength
    omega

namespace Session

variable {s s' : Session}

/-- Whatever is appended, a host name can be, and the session stays compressed. -/
theorem Compressed.step (h : s.Compressed) {e : Emit} (hHost : e.Host) :
    ∃ s', s.step e = some s' ∧ s'.Compressed := by
  cases e with
  | bytes bs =>
      refine ⟨_, rfl, h.map.push bs, fun w hw => ?_⟩
      obtain ⟨labels, hLegible, hName, hStands⟩ := h.names w hw
      exact ⟨labels, hLegible, hName, hStands.grow bs⟩
  | name text =>
      obtain ⟨labels, hLegible, rfl⟩ := HostText.legible hHost
      obtain ⟨enc, bs, hWrite, hOut, hMap, hStands⟩ := writeName_standsAt h.map hLegible
      refine ⟨⟨enc, _⟩, by rw [Session.step, hWrite], hMap, fun w hw => ?_⟩
      rcases List.mem_append.mp hw with hOld | hNew
      · obtain ⟨labels', hLegible', hName, hStands'⟩ := h.names w hOld
        dsimp only
        rw [hOut]
        exact ⟨labels', hLegible', hName, hStands'.grow bs⟩
      · rw [List.mem_singleton.mp hNew]
        exact ⟨labels, hLegible, rfl, hStands⟩

theorem names_step {e : Emit} (h : s.step e = some s') :
    s'.names.map Written.name = s.names.map Written.name ++ e.text.toList := by
  cases e with
  | bytes bs =>
      cases h
      simp [Emit.text]
  | name text =>
      rw [Session.step] at h
      split at h
      · cases h
        simp [Emit.text]
      · cases h
      · cases h

/-- The names of a session are those that have been written. -/
theorem names_run {emits : List Emit} (h : Runs.run step s emits = some s') :
    s'.names.map Written.name = s.names.map Written.name ++ emits.filterMap Emit.text := by
  induction emits generalizing s with
  | nil =>
      cases h
      simp
  | cons e rest ih =>
      rw [Runs.run_cons] at h
      obtain ⟨middle, hFirst, hRest⟩ := Option.bind_eq_some_iff.mp h
      rw [ih hRest, names_step hFirst, List.append_assoc, List.filterMap_cons]
      cases e.text <;> rfl

end Session

/-- Whatever host names and other bytes are appended to a message: each suffix in
the map is spelled out at its offset, each pointer leads to a place in front of its
name, and each name is read back in 256 turns and with one jump at most, up to
where it ends. -/
theorem compression_run {emits : List Emit} (hHost : ∀ e ∈ emits, e.Host) :
    ∃ s, Runs.run Session.step Session.start emits = some s ∧
      s.names.map Written.name = emits.filterMap Emit.text ∧
      (∀ key off, s.enc.nameMap.get key = some off → off.toNat ≤ 0x3FFF ∧
        ∃ labels : List Str, labels ≠ [] ∧ (∀ l ∈ labels, l ≠ [] ∧ '.' ∉ l ∧ l.len ≤ 63) ∧
          key = dotted labels ∧ At s.enc.out off.toNat (wireName labels)) ∧
      ∀ w ∈ s.names,
        (∃ labels, w.name = nameText labels ∧ StandsAt s.enc.out labels w.start w.stop) ∧
        readName s.enc.out w.start = .ok (w.name, w.stop) ∧ jumps s.enc.out 256 w.start ≤ 1 := by
  have hStep : ∀ (s : Session) (e : Emit), s.Compressed → e.Host →
      ∃ s', s.step e = some s' ∧ s'.Compressed := fun _ _ h => h.step
  obtain ⟨s, hRun, hCompressed⟩ := Runs.run_exists hStep Session.compressed_start hHost
  refine ⟨s, hRun, Session.names_run hRun, fun key off hGet => ?_, fun w hw => ?_⟩
  · obtain ⟨hOff, labels, hNil, hLabels, hKey, hAt⟩ := hCompressed.map key off hGet
    exact ⟨hOff, labels, hNil,
      fun l hl => ⟨(hLabels l hl).nonempty, (hLabels l hl).noDot, (hLabels l hl).short⟩, hKey, hAt⟩
  · obtain ⟨labels, hLegible, hName, hStands⟩ := hCompressed.names w hw
    exact ⟨⟨labels, hName, hStands⟩, hName ▸ hStands.readName_eq hLegible,
      hStands.jumps_le hLegible 256⟩

/-- A first name of a message. -/
def www : Str := nameText ["www".toList, "example".toList, "com".toList]

/-- A second one, which shares its last two labels with the first. -/
def mail : Str := nameText ["mail".toList, "example".toList, "com".toList]

/-- Two names with two other bytes between them: the second ends in a pointer. -/
theorem compression_two : ∃ s, Runs.run Session.step Session.start
      [.name www, .bytes [0, 1], .name mail] = some s ∧
    s.names.map Written.name = [www, mail] ∧ s.names.map Written.stop = [17, 26] ∧
    ∀ w ∈ s.names, readName s.enc.out w.start = .ok (w.name, w.stop) := by
  have hHost : ∀ e ∈ [Emit.name www, .bytes [0, 1], .name mail], e.Host := by
    intro e he
    simp only [List.mem_cons, List.not_mem_nil, or_false] at he
    rcases he with rfl | rfl | rfl
    · exact ⟨_, hostLabels_of_all (by decide), rfl, by decide⟩
    · trivial
    · exact ⟨_, hostLabels_of_all (by decide), rfl, by decide⟩
  obtain ⟨s, hRun, hNames, _, hRead⟩ := compression_run hHost
  refine ⟨s, hRun, hNames, ?_, fun w hw => (hRead w hw).2.1⟩
  have hStops : (Runs.run Session.step Session.start
      [.name www, .bytes [0, 1], .name mail]).map (fun s => s.names.map Written.stop) =
        some [17, 26] := by decide +kernel
  rw [hRun] at hStops
  exact Option.some_inj.mp hStops

end Dnsd.Proto

import Dnsd.Proto.MessageCodec
import Dnsd.Proto.ParseSafety

/-! The header of an encoded message. Writers only append, so that it stays as it
is written first, whatever becomes of the records. -/

namespace Dnsd.Proto

open Exec Bytes

/-- What the call returns continues what has been written before. -/
def Extends (enc : Encoder) (x : Result Encoder) : Prop :=
  ∀ enc', x = .ok enc' → enc.out <+: enc'.out

namespace Extends

variable {enc mid : Encoder} {x : Result Encoder}

theorem self (enc : Encoder) : Extends enc (.ok enc) := by
  intro enc' h
  cases h
  exact List.prefix_rfl

theorem failed {e : Error} : Extends enc (.err e) := fun _ h => by cases h

theorem behind (hFirst : enc.out <+: mid.out) (h : Extends mid x) : Extends enc x :=
  fun enc' hx => hFirst.trans (h enc' hx)

theorem bind {f : Encoder → Result Encoder} (h : Extends enc x)
    (hThen : ∀ mid, Extends mid (f mid)) : Extends enc (x >>= f) := by
  intro enc' hBind
  obtain ⟨mid, hx, hf⟩ := bind_eq_ok_iff.mp hBind
  exact (h mid hx).trans (hThen mid enc' hf)

theorem bytes {y : Result Bytes} {f : Bytes → Result Encoder} (h : ∀ bs, Extends enc (f bs)) :
    Extends enc (y >>= f) := by
  intro enc' hBind
  obtain ⟨bs, -, hf⟩ := bind_eq_ok_iff.mp hBind
  exact h bs enc' hf

end Extends

theorem push_start (enc : Encoder) (bs : Bytes) : enc.out <+: (enc.push bs).out :=
  List.prefix_append _ _

theorem writePrefix_extends (enc : Encoder) (labels : List Str) :
    Extends enc (writePrefix enc labels) := by
  induction labels generalizing enc with
  | nil => exact .self enc
  | cons label rest ih =>
      rw [writePrefix]
      split_ifs
      · exact .failed
      · exact (ih _).behind (push_start enc _)

theorem writeFull_extends (enc : Encoder) (labels : List Str) :
    Extends enc (writeFull enc labels) := by
  induction labels generalizing enc with
  | nil => exact .self enc
  | cons label rest ih =>
      rw [writeFull]
      split_ifs
      · exact .failed
      · refine (ih _).behind ?_
        rw [record_out]
        exact push_start enc _

theorem pushed_extends (enc : Encoder) (bs : Bytes) : Extends enc (.ok (enc.push bs)) :=
  (Extends.self _).behind (push_start enc bs)

theorem writeName_extends (enc : Encoder) (name : Str) : Extends enc (enc.writeName name) := by
  rw [Encoder.writeName]
  dsimp only
  split_ifs
  · exact pushed_extends enc _
  · split
    · exact (writePrefix_extends enc _).bind fun mid => pushed_extends mid _
    · exact (writeFull_extends enc _).bind fun mid => pushed_extends mid _

theorem writeQuestion_extends (enc : Encoder) (q : Question) :
    Extends enc (enc.writeQuestion q) :=
  (writeName_extends enc q.name).bind fun mid => (pushed_extends _ _).behind (push_start mid _)

theorem writePlain_extends (enc : Encoder) (r : Record) : Extends enc (enc.writePlain r) :=
  (Extends.bytes fun _ => (pushed_extends _ _).behind (push_start _ _)).behind
    ((push_start enc _).trans (push_start _ _))

theorem writeRecord_extends (enc : Encoder) (r : Record) : Extends enc (enc.writeRecord r) := by
  refine (writeName_extends enc r.name).bind fun mid => ?_
  dsimp only
  have hType : mid.out <+: (mid.push r.rtype.toBeBytes).out := push_start mid _
  split_ifs
  · split
    · exact (Extends.bytes fun _ => (pushed_extends _ _).behind (push_start _ _)).behind
        (hType.trans ((push_start _ _).trans (push_start _ _)))
    · exact (writePlain_extends _ r).behind hType
  · exact (writePlain_extends _ r).behind hType

theorem writeAll_extends {α : Type} {write : Encoder → α → Result Encoder}
    (h : ∀ enc item, Extends enc (write enc item)) (enc : Encoder) (items : List α) :
    Extends enc (Encoder.writeAll write enc items) := by
  induction items generalizing enc with
  | nil => exact .self enc
  | cons item rest ih => exact (h enc item).bind ih

theorem encode_header {m : Message} {b : Bytes} (h : m.encode = .ok b) : headerBytes m <+: b := by
  obtain ⟨enc1, enc2, enc3, enc4, h1, h2, h3, h4, rfl⟩ := encode_eq_ok h
  exact (writeAll_extends writeQuestion_extends _ _ _ h1).trans
    ((writeAll_extends writeRecord_extends _ _ _ h2).trans
      ((writeAll_extends writeRecord_extends _ _ _ h3).trans
        (writeAll_extends writeRecord_extends _ _ _ h4)))

/-- The words of a header at the front of some bytes. -/
theorem headerWords {m : Message} {b : Bytes} (h : headerBytes m <+: b) :
    headerWord b 0 = m.header.id ∧ headerWord b 1 = flagsOfHeader m.header ∧
      headerWord b 2 = UInt16.ofNat m.questions.length ∧
      headerWord b 3 = UInt16.ofNat m.answers.length ∧
      headerWord b 4 = UInt16.ofNat m.authority.length ∧
      headerWord b 5 = UInt16.ofNat m.additional.length := by
  obtain ⟨rest, rfl⟩ := h
  have hAt : At (headerBytes m ++ rest) 0 (headerBytes m) := (At.self _).grow rest
  refine ⟨headerWord_at hAt.left.left.left.left.left, headerWord_at ?_, headerWord_at ?_,
    headerWord_at ?_, headerWord_at ?_, headerWord_at ?_⟩
  · simpa using hAt.left.left.left.left.right
  · simpa using hAt.left.left.left.right
  · simpa using hAt.left.left.right
  · simpa using hAt.left.right
  · simpa using hAt.right

/-- A message without records has none to stumble over. -/
theorem not_overrun_of_header {m : Message} {b : Bytes} (h : headerBytes m <+: b)
    (hAnswers : m.answers = []) (hAuthority : m.authority = []) (hAdditional : m.additional = []) :
    ¬MessageOverrun b := by
  obtain ⟨-, -, -, h3, h4, h5⟩ := headerWords h
  rintro ⟨-, _, _, -, i, hi, -⟩
  simp [h3, h4, h5, hAnswers, hAuthority, hAdditional] at hi

end Dnsd.Proto

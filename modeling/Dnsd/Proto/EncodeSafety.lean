import Dnsd.Proto.Encode

/-! The encoder returns: bytes or an error, for every message. -/

namespace Dnsd.Proto

open Exec

/-- The call returns a value or an error; it does not unwind. -/
def Returns {α : Type} (x : Result α) : Prop := Safe x fun _ => True

theorem Returns.bind {α β : Type} {x : Result α} {f : α → Result β} (hFirst : Returns x)
    (hThen : ∀ a, Returns (f a)) : Returns (x >>= f) :=
  Safe.bind hFirst fun a _ => hThen a

theorem writePrefix_returns (labels : List Str) (enc : Encoder) :
    Returns (writePrefix enc labels) := by
  induction labels generalizing enc with
  | nil => trivial
  | cons label rest ih =>
      rw [writePrefix]
      split_ifs
      · trivial
      · exact ih _

theorem writeFull_returns (labels : List Str) (enc : Encoder) : Returns (writeFull enc labels) := by
  induction labels generalizing enc with
  | nil => trivial
  | cons label rest ih =>
      rw [writeFull]
      split_ifs
      · trivial
      · exact ih _

theorem writeName_returns (enc : Encoder) (name : Str) : Returns (enc.writeName name) := by
  rw [Encoder.writeName]
  dsimp only
  split
  · trivial
  · split
    · exact (writePrefix_returns _ enc).bind fun _ => trivial
    · exact (writeFull_returns _ enc).bind fun _ => trivial

theorem encodeNames_returns (names : List Str) (enc : Encoder) :
    Returns (encodeNames enc names) := by
  induction names generalizing enc with
  | nil => trivial
  | cons name rest ih => exact (writeName_returns enc name).bind fun next => ih next

theorem encodeNamesAlone_returns (names : List Str) : Returns (encodeNamesAlone names) :=
  (encodeNames_returns names Encoder.new).bind fun _ => trivial

theorem encodeRdata_returns (d : RData) : Returns (encodeRdata d) := by
  cases d with
  | name => exact encodeNamesAlone_returns _
  | mx | soa | srv | rrsig | nsec => exact (encodeNamesAlone_returns _).bind fun _ => trivial
  | a | aaaa | txt | caa | raw | opt => trivial

theorem encodeOptRdata_returns (r : Record) : Returns (encodeOptRdata r) := by
  rw [encodeOptRdata]
  split <;> trivial

theorem writePlain_returns (enc : Encoder) (r : Record) : Returns (enc.writePlain r) :=
  (encodeRdata_returns r.data).bind fun _ => trivial

theorem writeRecord_returns (enc : Encoder) (r : Record) : Returns (enc.writeRecord r) := by
  refine (writeName_returns enc r.name).bind fun next => ?_
  dsimp only
  split_ifs
  · split
    · exact (encodeOptRdata_returns r).bind fun _ => trivial
    · exact writePlain_returns _ r
  · exact writePlain_returns _ r

theorem writeAll_returns {α : Type} {write : Encoder → α → Result Encoder}
    (h : ∀ enc item, Returns (write enc item)) (items : List α) (enc : Encoder) :
    Returns (Encoder.writeAll write enc items) := by
  induction items generalizing enc with
  | nil => trivial
  | cons item rest ih => exact (h enc item).bind fun next => ih next

theorem encode_returns (m : Message) : Returns m.encode := by
  have hQuestion (enc : Encoder) (q : Question) : Returns (enc.writeQuestion q) :=
    (writeName_returns enc q.name).bind fun _ => trivial
  have hQuestions := writeAll_returns hQuestion
  have hRecords := writeAll_returns writeRecord_returns
  refine (hQuestions m.questions _).bind fun enc => ?_
  refine (hRecords m.answers enc).bind fun enc => ?_
  refine (hRecords m.authority enc).bind fun enc => ?_
  exact (hRecords m.additional enc).bind fun _ => trivial

theorem encode_ne_panicked (m : Message) : m.encode ≠ .panicked := (encode_returns m).ne_panicked

end Dnsd.Proto

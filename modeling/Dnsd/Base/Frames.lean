import Mathlib.Data.List.Basic
import Mathlib.Data.List.TakeDrop
import Mathlib.Tactic.Common

/-! Bodies framed by their length, where the field for the length has room for the
numbers below a bound only, and their recovery from the stream. -/

namespace Frames

variable {α : Type}

/-- A length field of fixed width. What it holds of a number is the rest modulo the bound. -/
structure LengthField (α : Type) where
  width : Nat
  bound : Nat
  put : Nat → List α
  get : List α → Nat
  width_pos : 0 < width
  bound_pos : 0 < bound
  put_length : ∀ n, (put n).length = width
  get_put : ∀ n, get (put n) = n % bound

variable (f : LengthField α)

/-- A body behind its length, in a field of fixed size. -/
def frame (body : List α) : List α := f.put body.length ++ body

/-- The first body of a stream and the stream behind it; `none` if it is incomplete. -/
def split (stream : List α) : Option (List α × List α) :=
  if stream.length < f.width then none
  else
    let n := f.get (stream.take f.width)
    let rest := stream.drop f.width
    if rest.length < n then none else some (rest.take n, rest.drop n)

variable {f}

theorem length_of_split {stream body rest : List α} (h : split f stream = some (body, rest)) :
    rest.length < stream.length := by
  have hWidth := f.width_pos
  rw [split] at h
  dsimp only at h
  split_ifs at h with hHeader
  cases h
  rw [List.length_drop, List.length_drop]
  omega

variable (f) in
/-- All complete bodies of a stream, and none of what is cut off at its end. -/
def bodies (stream : List α) : List (List α) :=
  match h : split f stream with
  | none => []
  | some (body, rest) =>
      have := length_of_split h
      body :: bodies rest
termination_by stream.length

theorem bodies_of_none {stream : List α} (h : split f stream = none) : bodies f stream = [] := by
  rw [bodies]
  split
  · rfl
  · rename_i hSome
    rw [h] at hSome
    cases hSome

theorem bodies_of_some {stream body rest : List α} (h : split f stream = some (body, rest)) :
    bodies f stream = body :: bodies f rest := by
  rw [bodies]
  split
  · rename_i hNone
    rw [h] at hNone
    cases hNone
  · rename_i hSome
    rw [h] at hSome
    cases hSome
    rfl

/-- What the length field leaves of a body, and what it takes for the next frame. -/
theorem split_frame (body more : List α) :
    split f (frame f body ++ more) =
      some ((body ++ more).take (body.length % f.bound), (body ++ more).drop (body.length % f.bound)) := by
  have hWidth := f.put_length body.length
  have hLe := Nat.mod_le body.length f.bound
  have hTake : (frame f body ++ more).take f.width = f.put body.length := by
    rw [frame, List.append_assoc, List.take_left' hWidth]
  have hDrop : (frame f body ++ more).drop f.width = body ++ more := by
    rw [frame, List.append_assoc, List.drop_left' hWidth]
  rw [split, if_neg, hTake, hDrop, f.get_put]
  · dsimp only
    rw [if_neg]
    rw [List.length_append]
    omega
  · rw [frame, List.length_append, List.length_append, hWidth]
    omega

theorem split_frame_of_lt {body : List α} (h : body.length < f.bound) (more : List α) :
    split f (frame f body ++ more) = some (body, more) := by
  rw [split_frame, Nat.mod_eq_of_lt h, List.take_left, List.drop_left]

/-- A frame that is cut short is not read. -/
theorem split_cut {body cut : List α} (h : body.length < f.bound) (hCut : cut <+: frame f body)
    (hShort : cut.length < (frame f body).length) : split f cut = none := by
  have hWidth := f.put_length body.length
  obtain ⟨missing, hFrame⟩ := hCut
  rw [split]
  split_ifs with hHeader
  · rfl
  · have hTake : cut.take f.width = f.put body.length := by
      have hLe : f.width ≤ cut.length := by omega
      have hSame : (cut ++ missing).take f.width = cut.take f.width :=
        List.take_append_of_le_length hLe
      rw [← hSame, hFrame, frame, List.take_left' hWidth]
    dsimp only
    rw [hTake, f.get_put, Nat.mod_eq_of_lt h, if_pos]
    rw [frame, List.length_append] at hShort
    rw [List.length_drop]
    omega

/-- The bodies of some frames, with a piece behind them that is no frame, are
recovered exactly if the length field has room for each of their lengths. -/
theorem bodies_frames_iff {sent : List (List α)} {cut : List α} (hCut : split f cut = none) :
    bodies f (sent.flatMap (frame f) ++ cut) = sent ↔ ∀ body ∈ sent, body.length < f.bound := by
  induction sent with
  | nil => simp [bodies_of_none hCut]
  | cons body rest ih =>
      rw [List.flatMap_cons, List.append_assoc, List.forall_mem_cons]
      by_cases hRoom : body.length < f.bound
      · rw [bodies_of_some (split_frame_of_lt hRoom _), List.cons.injEq, ih]
        simp [hRoom]
      · rw [bodies_of_some (split_frame body _), List.cons.injEq]
        constructor
        · rintro ⟨hBody, -⟩
          exfalso
          -- the field has taken a longer body for one of another length
          have hLength := congrArg List.length hBody
          rw [List.length_take, List.length_append] at hLength
          have hMod := Nat.mod_lt body.length f.bound_pos
          omega
        · rintro ⟨hRoom', -⟩
          exact absurd hRoom' hRoom

end Frames

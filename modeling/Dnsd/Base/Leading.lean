import Mathlib.Data.List.Basic
import Mathlib.Data.List.Range
import Mathlib.Tactic.Common

/-! Lists of which only the front is kept, a blank standing for every other
entry. -/

namespace Leading

variable {α : Type} {blank : α}

/-- The first `n` entries of a list, with blanks in place of the others. -/
def keep (blank : α) (n : Nat) (l : List α) : List α :=
  l.take n ++ List.replicate (l.length - n) blank

theorem keep_length (n : Nat) (l : List α) : (keep blank n l).length = l.length := by
  rw [keep, List.length_append, List.length_take, List.length_replicate]
  omega

theorem getElem?_keep (n : Nat) (l : List α) (i : Nat) :
    (keep blank n l)[i]? = if i < n then l[i]? else if i < l.length then some blank else none := by
  rw [keep, List.getElem?_append, List.length_take]
  split_ifs with hTaken hFront hLength hFront hLength
  · rw [List.getElem?_take_of_lt hFront]
  · omega
  · omega
  · rw [List.getElem?_eq_none (l := l) (by omega), List.getElem?_eq_none]
    rw [List.length_replicate]
    omega
  · rw [List.getElem?_replicate, if_pos (by omega)]
  · rw [List.getElem?_replicate, if_neg (by omega)]

theorem keep_of_length_le {n : Nat} {l : List α} (h : l.length ≤ n) : keep blank n l = l := by
  rw [keep, List.take_of_length_le h, Nat.sub_eq_zero_of_le h, List.replicate_zero,
    List.append_nil]

/-- The smaller front is left when a list is cut twice. -/
theorem keep_keep (m n : Nat) (l : List α) :
    keep blank m (keep blank n l) = keep blank (min n m) l := by
  refine List.ext_getElem? fun i => ?_
  rw [getElem?_keep, getElem?_keep, getElem?_keep, keep_length]
  split_ifs with hM hN hBoth
  all_goals first | rfl | omega

/-- One blank at the end of the front. -/
theorem keep_set {n : Nat} {l : List α} (h : n < l.length) :
    keep blank (n + 1) (l.set n blank) = keep blank n l := by
  refine List.ext_getElem? fun i => ?_
  rw [getElem?_keep, getElem?_keep, List.length_set, List.getElem?_set]
  split_ifs
  all_goals first | rfl | omega

/-- A loop that blanks one entry after the other. -/
theorem foldl_set_eq_keep (k n : Nat) (l : List α) (h : n + k = l.length) :
    (List.range' n k).foldl (fun l i => l.set i blank) l = keep blank n l := by
  induction k generalizing n l with
  | zero => rw [keep_of_length_le (by omega), List.range'_zero, List.foldl_nil]
  | succ k ih =>
      rw [List.range'_succ, List.foldl_cons, ih (n + 1) _ (by rw [List.length_set]; omega),
        keep_set (by omega)]

/-- The list that has the same front and blanks behind. -/
theorem eq_keep_iff {n : Nat} {l l' : List α} (hLength : l'.length = l.length) :
    l' = keep blank n l ↔
      (∀ i, i < n → l'[i]? = l[i]?) ∧ ∀ i, n ≤ i → ∀ a ∈ l'[i]?, a = blank := by
  constructor
  · rintro rfl
    refine ⟨fun i hi => ?_, fun i hi a ha => ?_⟩
    · rw [getElem?_keep, if_pos hi]
    · rw [getElem?_keep, if_neg (by omega)] at ha
      split_ifs at ha
      · exact (Option.mem_some_iff.mp ha).symm
      · cases ha
  · rintro ⟨hFront, hRest⟩
    refine List.ext_getElem? fun i => ?_
    rw [getElem?_keep]
    split_ifs with hi hIn
    · exact hFront i hi
    · have hSome := List.getElem?_eq_getElem (l := l') (show i < l'.length by omega)
      rw [hSome, hRest i (by omega) _ hSome]
    · exact List.getElem?_eq_none (by omega)

/-- A shorter front is enough when the entries between the two are blank. -/
theorem keep_eq_keep_iff {m n : Nat} {l : List α} (h : m ≤ n) :
    keep blank m l = keep blank n l ↔ ∀ i, m ≤ i → i < n → ∀ a ∈ l[i]?, a = blank := by
  rw [eq_keep_iff (keep_length m l)]
  constructor
  · intro hKeep i hm hn a ha
    have hSame := hKeep.1 i hn
    have hIn := (List.getElem?_eq_some_iff.mp ha).1
    rw [getElem?_keep, if_neg (by omega), if_pos hIn, Option.mem_def.mp ha] at hSame
    exact (Option.some_inj.mp hSame).symm
  · intro hBlank
    refine ⟨fun i hi => ?_, fun i hi => ?_⟩
    · rw [getElem?_keep]
      split_ifs with hm hIn
      · rfl
      · have hSome := List.getElem?_eq_getElem hIn
        rw [hSome, hBlank i (by omega) hi _ hSome]
      · exact (List.getElem?_eq_none (by omega)).symm
    · exact ((eq_keep_iff (keep_length m l)).mp rfl).2 i (by omega)

end Leading

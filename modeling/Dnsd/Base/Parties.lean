import Mathlib.Tactic.Common

/-! The parties of a concurrent system, addressed by their position in a list. -/

namespace Parties

variable {P : Type} {l : List P} {i : Nat} {p : P}

theorem set_get (h : l[i]? = some p) (q : P) (j : Nat) :
    (l.set i q)[j]? = if j = i then some q else l[j]? := by
  obtain ⟨hLength, _⟩ := List.getElem?_eq_some_iff.mp h
  rw [List.getElem?_set]
  by_cases hj : i = j
  · simp [hj, hj ▸ hLength]
  · simp [hj, Ne.symm hj]

theorem push_get (l : List P) (q : P) (j : Nat) :
    (l ++ [q])[j]? = if j = l.length then some q else l[j]? := by
  rw [List.getElem?_append]
  split_ifs with hLess hEnd hEnd
  · omega
  · rfl
  · simp [hEnd]
  · rw [List.getElem?_eq_none (by simp; omega), List.getElem?_eq_none (by omega)]

/-- What holds of all parties holds behind a step of one of them. -/
theorem forall_set {holds : P → Prop} (hAll : ∀ q ∈ l, holds q) {q : P} (hNew : holds q) :
    ∀ r ∈ l.set i q, holds r := by
  intro r hr
  rcases List.mem_or_eq_of_mem_set hr with hOld | rfl
  · exact hAll r hOld
  · exact hNew

/-- A party that has a property keeps it when another one steps. -/
theorem exists_set {holds : P → Prop} (h : l[i]? = some p) (hSome : ∃ q ∈ l, holds q) {q : P}
    (hKeep : holds p → holds q) : ∃ r ∈ l.set i q, holds r := by
  obtain ⟨r, hr, hHolds⟩ := hSome
  obtain ⟨j, hj⟩ := List.mem_iff_getElem?.mp hr
  by_cases hi : j = i
  · subst hi
    rw [h] at hj
    cases hj
    exact ⟨q, List.mem_of_getElem? (by rw [set_get h, if_pos rfl]), hKeep hHolds⟩
  · exact ⟨r, List.mem_of_getElem? (by rw [set_get h, if_neg hi, hj]), hHolds⟩

/-- No two parties hold the same, where they hold anything. -/
def Distinct {B : Type} (f : P → Option B) (l : List P) : Prop :=
  ∀ (i j : Nat) (p q : P) (b : B),
    l[i]? = some p → l[j]? = some q → f p = some b → f q = some b → i = j

theorem distinct_push {B : Type} {f : P → Option B} (hDistinct : Distinct f l) {q : P}
    (hNone : f q = none) : Distinct f (l ++ [q]) := by
  intro i j r r' b hi hj hr hr'
  rw [push_get] at hi hj
  split_ifs at hi with hEnd
  · cases hi
    rw [hNone] at hr
    cases hr
  · split_ifs at hj with hEnd'
    · cases hj
      rw [hNone] at hr'
      cases hr'
    · exact hDistinct i j r r' b hi hj hr hr'

/-- A party that takes hold of something takes what nobody else holds. -/
theorem distinct_set {B : Type} {f : P → Option B} (hDistinct : Distinct f l) (h : l[i]? = some p)
    {q : P} (hNew : ∀ b, f q = some b → f p = some b ∨ ∀ r ∈ l, f r ≠ some b) :
    Distinct f (l.set i q) := by
  have hOther (b : B) (hq : f q = some b) (j : Nat) (r : P) (hj : l[j]? = some r)
      (hr : f r = some b) : j = i := by
    rcases hNew b hq with hOld | hFresh
    · exact hDistinct j i r p b hj h hr hOld
    · exact absurd hr (hFresh r (List.mem_of_getElem? hj))
  intro j k r r' b hj hk hr hr'
  rw [set_get h] at hj hk
  split_ifs at hj with hAt
  · cases hj
    split_ifs at hk with hAt'
    · rw [hAt, hAt']
    · rw [hAt, hOther b hr k r' hk hr']
  · split_ifs at hk with hAt'
    · cases hk
      rw [hAt', hOther b hr' j r hj hr]
    · exact hDistinct j k r r' b hj hk hr hr'

/-- A step of one party replaces what that party holds. -/
theorem perm_filterMap_set {B : Type} (h : l[i]? = some p) (f : P → Option B) (q : P) :
    ((f p).toList ++ (l.set i q).filterMap f).Perm ((f q).toList ++ l.filterMap f) := by
  have hCons (r : P) (rest : List P) :
      (r :: rest).filterMap f = (f r).toList ++ rest.filterMap f := by
    rw [List.filterMap_cons]
    cases f r <;> rfl
  induction l generalizing i with
  | nil => cases h
  | cons first rest ih =>
      cases i with
      | zero =>
          cases h
          rw [List.set_cons_zero, hCons, hCons]
          exact List.perm_append_comm_assoc _ _ _
      | succ i =>
          rw [List.set_cons_succ, hCons, hCons]
          calc
            List.Perm ((f p).toList ++ ((f first).toList ++ (rest.set i q).filterMap f))
                ((f first).toList ++ ((f p).toList ++ (rest.set i q).filterMap f)) :=
              List.perm_append_comm_assoc _ _ _
            List.Perm _ ((f first).toList ++ ((f q).toList ++ rest.filterMap f)) :=
              (ih h).append_left _
            List.Perm _ ((f q).toList ++ ((f first).toList ++ rest.filterMap f)) :=
              List.perm_append_comm_assoc _ _ _

end Parties

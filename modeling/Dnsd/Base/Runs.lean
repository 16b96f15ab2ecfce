import Mathlib.Data.List.Induction
import Mathlib.Tactic.Common

/-! Systems that take one labelled step after another, some steps being
inadmissible in some states, and what holds in every state of a run. -/

namespace Runs

variable {S A : Type} {step : S → A → Option S}

/-- The state behind a list of steps; `none` if one of them is inadmissible. -/
def run (step : S → A → Option S) (s : S) (actions : List A) : Option S :=
  actions.foldlM step s

@[simp] theorem run_nil (s : S) : run step s [] = some s := rfl

theorem run_cons (s : S) (a : A) (rest : List A) :
    run step s (a :: rest) = (step s a).bind fun s' => run step s' rest := rfl

/-- A property that every admissible step preserves holds at the end of a run. -/
theorem run_invariant {holds : S → Prop} {ok : A → Prop}
    (hStep : ∀ s a s', holds s → ok a → step s a = some s' → holds s') {s s' : S} (hStart : holds s)
    {actions : List A} (hActions : ∀ a ∈ actions, ok a) (hRun : run step s actions = some s') :
    holds s' := by
  induction actions generalizing s with
  | nil =>
      cases hRun
      exact hStart
  | cons a rest ih =>
      rw [run_cons] at hRun
      obtain ⟨middle, hFirst, hRest⟩ := Option.bind_eq_some_iff.mp hRun
      exact ih (hStep s a middle hStart (hActions a List.mem_cons_self) hFirst)
        (fun b hb => hActions b (List.mem_cons_of_mem a hb)) hRest

/-- A run ends when every step is admissible where the property holds, and keeps it. -/
theorem run_exists {holds : S → Prop} {ok : A → Prop}
    (hStep : ∀ s a, holds s → ok a → ∃ s', step s a = some s' ∧ holds s') {s : S} (hStart : holds s)
    {actions : List A} (hActions : ∀ a ∈ actions, ok a) :
    ∃ s', run step s actions = some s' ∧ holds s' := by
  induction actions generalizing s with
  | nil => exact ⟨s, rfl, hStart⟩
  | cons a rest ih =>
      obtain ⟨middle, hFirst, hMiddle⟩ := hStep s a hStart (hActions a List.mem_cons_self)
      rw [run_cons, hFirst]
      exact ih hMiddle fun b hb => hActions b (List.mem_cons_of_mem a hb)

/-- Where each step of a system is a step of another one, or none at all, so are its runs. -/
theorem run_project {T B : Type} {below : T → B → Option T} (view : S → T)
    (hStep : ∀ s a s', step s a = some s' →
      view s' = view s ∨ ∃ b, below (view s) b = some (view s')) {s s' : S} {actions : List A}
    (hRun : run step s actions = some s') :
    ∃ steps, run below (view s) steps = some (view s') := by
  induction actions generalizing s with
  | nil =>
      cases hRun
      exact ⟨[], rfl⟩
  | cons a rest ih =>
      rw [run_cons] at hRun
      obtain ⟨middle, hFirst, hRest⟩ := Option.bind_eq_some_iff.mp hRun
      obtain ⟨steps, hSteps⟩ := ih hRest
      rcases hStep s a middle hFirst with hSame | ⟨b, hBelow⟩
      · exact ⟨steps, by rw [← hSame, hSteps]⟩
      · exact ⟨b :: steps, by rw [run_cons, hBelow, Option.bind_some, hSteps]⟩

/-- Each step of a run meets a condition in the state before it. -/
def Meets (step : S → A → Option S) (ok : S → A → Prop) : S → List A → Prop
  | _, [] => True
  | s, a :: rest => ok s a ∧ match step s a with
      | some s' => Meets step ok s' rest
      | none => True

instance decidableMeets {ok : S → A → Prop} [∀ s a, Decidable (ok s a)] :
    ∀ s actions, Decidable (Meets step ok s actions)
  | _, [] => isTrue trivial
  | s, a :: rest =>
      have : Decidable (match step s a with
          | some s' => Meets step ok s' rest
          | none => True) :=
        match step s a with
        | some s' => decidableMeets s' rest
        | none => isTrue trivial
      inferInstanceAs (Decidable (_ ∧ _))

theorem meets_singleton {ok : S → A → Prop} {s : S} {a : A} : Meets step ok s [a] ↔ ok s a := by
  rw [Meets]
  refine and_iff_left ?_
  split <;> trivial

/-- A property that every step preserves under the condition holds at the end of
a run whose steps meet it. -/
theorem Meets.invariant {holds : S → Prop} {ok : S → A → Prop}
    (hStep : ∀ s a s', holds s → ok s a → step s a = some s' → holds s') {s s' : S} (hStart : holds s)
    {actions : List A} (hMeets : Meets step ok s actions) (hRun : run step s actions = some s') :
    holds s' := by
  induction actions generalizing s with
  | nil =>
      cases hRun
      exact hStart
  | cons a rest ih =>
      rw [run_cons] at hRun
      obtain ⟨middle, hFirst, hRest⟩ := Option.bind_eq_some_iff.mp hRun
      obtain ⟨hOk, hLater⟩ := hMeets
      rw [hFirst] at hLater
      exact ih (hStep s a middle hStart hOk hFirst) hLater hRest

/-! ## Steps that are always admissible -/

section Total

variable {next : S → A → S} {holds shown : S → Prop} {ok : S → A → Prop}

/-- Where each step keeps an invariant under a condition, and shows at once that
the condition was not met, all states of a run look right just when each step of
it meets the condition. -/
theorem shown_iff_ok (hShown : ∀ s, holds s → shown s)
    (hKeep : ∀ s a, holds s → ok s a → holds (next s a))
    (hBreak : ∀ s a, holds s → shown (next s a) → ok s a) {s : S} (hStart : holds s)
    (actions : List A) :
    (∀ before, before <+: actions → shown (before.foldl next s)) ↔
      ∀ before a, before ++ [a] <+: actions → ok (before.foldl next s) a := by
  have hHolds (hOk : ∀ before a, before ++ [a] <+: actions → holds (before.foldl next s) →
      ok (before.foldl next s) a) (before : List A) (hBefore : before <+: actions) :
      holds (before.foldl next s) := by
    induction before using List.reverseRecOn with
    | nil => exact hStart
    | append_singleton before a ih =>
        have hFirst := ih ((List.prefix_append before [a]).trans hBefore)
        rw [List.foldl_append]
        exact hKeep _ a hFirst (hOk before a hBefore hFirst)
  constructor
  · intro hAll
    have hOk (before : List A) (a : A) (hPrefix : before ++ [a] <+: actions)
        (hBefore : holds (before.foldl next s)) : ok (before.foldl next s) a := by
      have hNext := hAll _ hPrefix
      rw [List.foldl_append] at hNext
      exact hBreak _ a hBefore hNext
    intro before a hPrefix
    exact hOk before a hPrefix
      (hHolds hOk before ((List.prefix_append before [a]).trans hPrefix))
  · intro hOk before hBefore
    exact hShown _ (hHolds (fun before a hPrefix _ => hOk before a hPrefix) before hBefore)

end Total

end Runs

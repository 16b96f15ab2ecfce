import Dnsd.Rust.Exec

/-! Computations that ask the outside world. A question is answered by a function
of its number, so that two answers to one question may differ, and the state of
a computation is the number of its next question. A recursion without a bound of
its own is cut off at a given depth, where it has no outcome at all. -/

universe v

/-- The outcome of a computation that starts with the given question number, and
the number of the question behind its last one. -/
def Asking (ε : Type) (α : Type v) := Nat → Option (Exec ε α × Nat)

namespace Asking

variable {ε : Type} {α β : Type v}

/-- A call that asks nothing: it has its outcome whatever the answers are. -/
def lift (x : Exec ε α) : Asking ε α := fun n => some (x, n)

/-- A call that is cut off: it has no outcome, not even an error. -/
def cutOff : Asking ε α := fun _ => none

/-- One question. Each question has its number, and the next one has the next number. -/
def ask (answer : Nat → Exec ε α) : Asking ε α := fun n => some (answer n, n + 1)

/-- One computation after the other, which goes on with the numbers behind the first. -/
def bind (x : Asking ε α) (f : α → Asking ε β) : Asking ε β := fun n =>
  match x n with
  | some (.ok a, n) => f a n
  | some (.err e, n) => some (.err e, n)
  | some (.panicked, n) => some (.panicked, n)
  | none => none

instance : Monad (Asking ε) where
  pure a := lift (.ok a)
  bind := bind

/-- A call whose error the caller looks at; unwinding goes on. -/
def attempt {α : Type} (x : Asking ε α) : Asking ε (Except ε α) := fun n =>
  match x n with
  | some (.ok a, n) => some (.ok (.ok a), n)
  | some (.err e, n) => some (.ok (.error e), n)
  | some (.panicked, n) => some (.panicked, n)
  | none => none

/-- Three computations in a row can be bracketed either way. -/
theorem bind_assoc {γ : Type v} (x : Asking ε α) (f : α → Asking ε β) (g : β → Asking ε γ) :
    (x >>= f) >>= g = x >>= fun a => f a >>= g := by
  funext n
  change Asking.bind (Asking.bind x f) g n = Asking.bind x (fun a => Asking.bind (f a) g) n
  simp only [Asking.bind]
  split <;> rename_i hFirst <;> split at hFirst <;> simp_all

/-- A value of the first computation is what the second goes on with, behind the questions
that the first has asked. -/
theorem bind_of_ok {x : Asking ε α} {n m : Nat} {a : α} (h : x n = some (.ok a, m))
    (f : α → Asking ε β) : (x >>= f) n = f a m := by
  change Asking.bind x f n = _
  rw [Asking.bind, h]

/-- A computation that is cut off in its first part is cut off as a whole. -/
theorem bind_of_cut {x : Asking ε α} {n : Nat} (h : x n = none) (f : α → Asking ε β) :
    (x >>= f) n = none := by
  change Asking.bind x f n = _
  rw [Asking.bind, h]

theorem attempt_of_cut {α : Type} {x : Asking ε α} {n : Nat} (h : x n = none) :
    attempt x n = none := by
  rw [attempt, h]

/-- Two computations end with a value if the first does, and then the second. -/
theorem bind_eq_ok {x : Asking ε α} {f : α → Asking ε β} {n n' : Nat} {b : β} :
    (x >>= f) n = some (.ok b, n') ↔
      ∃ a m, x n = some (.ok a, m) ∧ f a m = some (.ok b, n') := by
  change Asking.bind x f n = _ ↔ _
  rw [Asking.bind]
  constructor
  · intro hRun
    split at hRun
    · rename_i a m hFirst
      exact ⟨a, m, hFirst, hRun⟩
    all_goals cases hRun
  · rintro ⟨a, m, hFirst, hThen⟩
    rw [hFirst]
    exact hThen

/-- They end with an error if either part does, the second only behind a value of the
first. -/
theorem bind_eq_err {x : Asking ε α} {f : α → Asking ε β} {n n' : Nat} {e : ε} :
    (x >>= f) n = some (.err e, n') ↔ x n = some (.err e, n') ∨
      ∃ a m, x n = some (.ok a, m) ∧ f a m = some (.err e, n') := by
  change Asking.bind x f n = _ ↔ _
  rw [Asking.bind]
  constructor
  · intro hRun
    split at hRun
    · rename_i a m hFirst
      exact Or.inr ⟨a, m, hFirst, hRun⟩
    · rename_i e' m hFirst
      cases hRun
      exact Or.inl hFirst
    all_goals cases hRun
  · rintro (hFirst | ⟨a, m, hFirst, hThen⟩)
    · rw [hFirst]
    · rw [hFirst]
      exact hThen

/-- An attempt has a value if the computation has it. -/
theorem attempt_eq_ok {α : Type} {x : Asking ε α} {n n' : Nat} {a : α} :
    attempt x n = some (.ok (.ok a), n') ↔ x n = some (.ok a, n') := by
  rw [attempt]
  constructor
  · intro hRun
    split at hRun
    · rename_i b m hFirst
      cases hRun
      exact hFirst
    all_goals cases hRun
  · intro hRun
    rw [hRun]

/-- An attempt itself never fails. -/
theorem attempt_ne_err {α : Type} {x : Asking ε α} {n n' : Nat} {e : ε} :
    attempt x n ≠ some (.err e, n') := by
  rw [attempt]
  intro hRun
  split at hRun <;> cases hRun

/-- It holds the error that the computation ends with. -/
theorem attempt_eq_error {α : Type} {x : Asking ε α} {n n' : Nat} {e : ε} :
    attempt x n = some (.ok (.error e), n') ↔ x n = some (.err e, n') := by
  rw [attempt]
  constructor
  · intro hRun
    split at hRun
    · cases hRun
    · rename_i e' m hFirst
      cases hRun
      exact hFirst
    all_goals cases hRun
  · intro hRun
    rw [hRun]

/-- Every value that the computation returns is as required. -/
def Ensures (x : Asking ε α) (post : α → Prop) : Prop :=
  ∀ n a n', x n = some (.ok a, n') → post a

variable {x : Asking ε α} {post : α → Prop}

theorem ensures_pure {a : α} (h : post a) : Ensures (pure a : Asking ε α) post := by
  intro n a' n' hRun
  cases hRun
  exact h

/-- A computation that fails ensures everything of its values. -/
theorem ensures_err (e : ε) : Ensures (lift (.err e) : Asking ε α) post := by
  intro n a n' hRun
  cases hRun

/-- So does one that is cut off. -/
theorem ensures_cutOff : Ensures (cutOff : Asking ε α) post := by
  intro n a n' hRun
  cases hRun

theorem ensures_lift (post : α → Prop) {y : Exec ε α} (h : ∀ a, y = .ok a → post a) :
    Ensures (lift y) post := by
  intro n a n' hRun
  cases hRun
  exact h a rfl

/-- Asking ensures what every answer has. -/
theorem ensures_ask (post : α → Prop) {answer : Nat → Exec ε α}
    (h : ∀ n a, answer n = .ok a → post a) : Ensures (ask answer) post := by
  intro n a n' hRun
  simp only [ask, Option.some.injEq, Prod.mk.injEq] at hRun
  exact h n a hRun.1

/-- The rule for sequencing: the first call establishes what the second needs. -/
theorem Ensures.bind {f : α → Asking ε β} {mid : α → Prop} {post : β → Prop}
    (hFirst : Ensures x mid) (hThen : ∀ a, mid a → Ensures (f a) post) : Ensures (x >>= f) post := by
  intro n b n' hRun
  obtain ⟨a, m, hValue, hRest⟩ := bind_eq_ok.mp hRun
  exact hThen a (hFirst n a m hValue) m b n' hRest

/-- An attempt ensures of its value, if it holds one, what the computation ensures. -/
theorem Ensures.attempt {α : Type} {x : Asking ε α} {post : α → Prop} (h : Ensures x post) :
    Ensures (attempt x) fun r => ∀ a, r = .ok a → post a := by
  intro n r n' hRun a hValue
  subst hValue
  exact h n a n' (attempt_eq_ok.mp hRun)

theorem ensures_true (x : Asking ε α) : Ensures x fun _ => True := fun _ _ _ _ => trivial

/-! ## Calls that do not unwind -/

/-- Whatever is answered, the computation does not unwind. -/
def Calm (x : Asking ε α) : Prop := ∀ n n', x n ≠ some (.panicked, n')

theorem calm_pure (a : α) : Calm (pure a : Asking ε α) := by
  intro n n' hRun
  cases hRun

theorem calm_err (e : ε) : Calm (lift (.err e) : Asking ε α) := by
  intro n n' hRun
  cases hRun

theorem calm_cutOff : Calm (cutOff : Asking ε α) := by
  intro n n' hRun
  cases hRun

/-- A computation that asks nothing is calm if it does not unwind. -/
theorem calm_lift {y : Exec ε α} (h : y ≠ .panicked) : Calm (lift y) := by
  intro n n' hRun
  cases hRun
  exact h rfl

/-- Asking is calm if no answer unwinds. -/
theorem calm_ask {answer : Nat → Exec ε α} (h : ∀ n, answer n ≠ .panicked) : Calm (ask answer) := by
  intro n n' hRun
  simp only [ask, Option.some.injEq, Prod.mk.injEq] at hRun
  exact h n hRun.1

/-- The second call may rely on what the first one establishes. -/
theorem Calm.bind {f : α → Asking ε β} {mid : α → Prop} (hFirst : Calm x) (hMid : Ensures x mid)
    (hThen : ∀ a, mid a → Calm (f a)) : Calm (x >>= f) := by
  intro n n' hRun
  change Asking.bind x f n = some (.panicked, n') at hRun
  rw [Asking.bind] at hRun
  split at hRun
  · rename_i a m hValue
    exact hThen a (hMid n a m hValue) m n' hRun
  · cases hRun
  · rename_i m hPanic
    exact hFirst n m hPanic
  · cases hRun

/-- An attempt of a calm computation is calm. -/
theorem Calm.attempt {α : Type} {x : Asking ε α} (h : Calm x) : Calm (attempt x) := by
  intro n n' hRun
  rw [Asking.attempt] at hRun
  split at hRun
  · cases hRun
  · cases hRun
  · rename_i m hPanic
    exact h n m hPanic
  · cases hRun

/-! ## Calls that are not cut off -/

/-- Whatever is answered, the computation comes to an end. -/
def Total (x : Asking ε α) : Prop := ∀ n, x n ≠ none

theorem total_lift (y : Exec ε α) : Total (lift y) := fun _ h => by cases h

theorem total_ask (answer : Nat → Exec ε α) : Total (ask answer) := fun _ h => by cases h

/-- Two total computations are total together: neither part can be cut off. -/
theorem Total.bind {x : Asking ε α} {f : α → Asking ε β} (hFirst : Total x) (hThen : ∀ a, Total (f a)) :
    Total (x >>= f) := by
  intro n hRun
  change Asking.bind x f n = none at hRun
  rw [Asking.bind] at hRun
  split at hRun
  · rename_i a m _
    exact hThen a m hRun
  · cases hRun
  · cases hRun
  · rename_i hNone
    exact hFirst n hNone

/-! ## Depths of recursion -/

/-- Where the first computation has an outcome, the second one has the same. -/
def Extends (x y : Asking ε α) : Prop := ∀ n o, x n = some o → y n = some o

theorem extends_refl (x : Asking ε α) : Extends x x := fun _ _ h => h

/-- A chain of extensions is one. -/
theorem Extends.trans {x y z : Asking ε α} (h : Extends x y) (h' : Extends y z) : Extends x z :=
  fun n o hRun => h' n o (h n o hRun)

/-- Everything extends the computation that is cut off. -/
theorem extends_cutOff (x : Asking ε α) : Extends cutOff x := by
  intro n o hRun
  cases hRun

/-- Extensions of the two parts make an extension of the whole. -/
theorem Extends.bind {x y : Asking ε α} {f g : α → Asking ε β} (hFirst : Extends x y)
    (hThen : ∀ a, Extends (f a) (g a)) : Extends (x >>= f) (y >>= g) := by
  intro n o hRun
  change Asking.bind x f n = some o at hRun
  change Asking.bind y g n = some o
  rw [Asking.bind] at hRun ⊢
  split at hRun
  · rename_i a m hValue
    rw [hFirst n _ hValue]
    exact hThen a m o hRun
  · rename_i e m hError
    rw [hFirst n _ hError]
    exact hRun
  · rename_i m hPanic
    rw [hFirst n _ hPanic]
    exact hRun
  · cases hRun

/-- An attempt extends along with its computation. -/
theorem Extends.attempt {α : Type} {x y : Asking ε α} (h : Extends x y) :
    Extends (attempt x) (attempt y) := by
  intro n o hRun
  rw [Asking.attempt] at hRun ⊢
  split at hRun
  · rename_i a m hValue
    rw [h n _ hValue]
    exact hRun
  · rename_i e m hError
    rw [h n _ hError]
    exact hRun
  · rename_i m hPanic
    rw [h n _ hPanic]
    exact hRun
  · cases hRun

end Asking

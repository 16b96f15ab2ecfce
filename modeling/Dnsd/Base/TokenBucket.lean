import Mathlib.Algebra.Order.Field.Basic
import Mathlib.Tactic.Linarith
import Mathlib.Tactic.Ring

/-! One token bucket: it fills at a steady rate up to its capacity, and a call
takes a token if a whole one is there. -/

namespace TokenBucket

variable {K : Type} [Field K] [LinearOrder K]

/-- The tokens that the last call has left, and the time of that call. -/
structure Bucket (K : Type) where
  tokens : K
  last : K

/-- What is in the bucket at a time after its last call. -/
def Bucket.level (capacity rate : K) (b : Bucket K) (now : K) : K :=
  min (b.tokens + (now - b.last) * rate) capacity

/-- A call at a time when the bucket holds `tokens`. -/
def spend (tokens now : K) : Bucket K × Bool :=
  if tokens < 1 then (⟨tokens, now⟩, false) else (⟨tokens - 1, now⟩, true)

/-- The bucket of a caller that has not called yet is full. -/
def levelOf (capacity rate : K) : Option (Bucket K) → K → K
  | some b, now => b.level capacity rate now
  | none, _ => capacity

/-- The answers to calls at the given times. -/
def answers (capacity rate : K) : Option (Bucket K) → List K → List (K × Bool)
  | _, [] => []
  | b, now :: rest =>
      let called := spend (levelOf capacity rate b now) now
      (now, called.2) :: answers capacity rate (some called.1) rest

/-- Times that do not run backwards, from `clock` on. -/
def Forward : K → List K → Prop
  | _, [] => True
  | clock, now :: rest => clock ≤ now ∧ Forward now rest

variable {capacity rate : K}

@[simp] theorem spend_last (tokens now : K) : (spend tokens now).1.last = now := by
  rw [spend]
  split_ifs <;> rfl

theorem spend_tokens (tokens now : K) :
    (spend tokens now).1.tokens = if (spend tokens now).2 then tokens - 1 else tokens := by
  rw [spend]
  split_ifs <;> simp_all

theorem spend_allowed {tokens now : K} : (spend tokens now).2 = true ↔ 1 ≤ tokens := by
  rw [spend]
  split_ifs with hEmpty
  · simpa using hEmpty
  · simpa using hEmpty

theorem spend_nonneg [IsStrictOrderedRing K] {tokens : K} (hTokens : 0 ≤ tokens) (now : K) :
    0 ≤ (spend tokens now).1.tokens := by
  rw [spend]
  split_ifs with hEmpty
  · exact hTokens
  · exact sub_nonneg.mpr (not_lt.mp hEmpty)

omit [Field K] in
theorem Forward.mono {clock earlier : K} {times : List K} (h : Forward clock times)
    (hEarlier : earlier ≤ clock) : Forward earlier times := by
  cases times with
  | nil => trivial
  | cons now rest => exact ⟨hEarlier.trans h.1, h.2⟩

variable (capacity rate) in
theorem levelOf_le (b : Option (Bucket K)) (now : K) : levelOf capacity rate b now ≤ capacity := by
  cases b with
  | none => exact le_refl _
  | some b => exact min_le_right _ _

/-- What holds of a bucket at time `now`, if it was used at all. -/
def Sound (b : Option (Bucket K)) (now : K) : Prop :=
  ∀ used, b = some used → 0 ≤ used.tokens ∧ used.last ≤ now

theorem Sound.mono {b : Option (Bucket K)} {now later : K} (h : Sound b now) (hLater : now ≤ later) :
    Sound b later :=
  fun used hUsed => ⟨(h used hUsed).1, (h used hUsed).2.trans hLater⟩

section Ordered

variable [IsStrictOrderedRing K]

theorem Sound.levelOf_nonneg {b : Option (Bucket K)} {now : K} (h : Sound b now)
    (hCapacity : 0 ≤ capacity) (hRate : 0 ≤ rate) : 0 ≤ levelOf capacity rate b now := by
  cases b with
  | none => exact hCapacity
  | some used =>
      obtain ⟨hTokens, hLast⟩ := h used rfl
      have hGain : 0 ≤ (now - used.last) * rate := mul_nonneg (sub_nonneg.mpr hLast) hRate
      exact le_min (by linarith) hCapacity

theorem Sound.spend {b : Option (Bucket K)} {now : K} (h : Sound b now)
    (hCapacity : 0 ≤ capacity) (hRate : 0 ≤ rate) :
    Sound (some (spend (levelOf capacity rate b now) now).1) now := by
  intro used hUsed
  cases hUsed
  exact ⟨spend_nonneg (h.levelOf_nonneg hCapacity hRate) now, (spend_last _ _).le⟩

variable (capacity) in
/-- Waiting adds at most the rate times the time. -/
theorem levelOf_wait (hRate : 0 ≤ rate) (b : Option (Bucket K)) {now later : K}
    (hLater : now ≤ later) :
    levelOf capacity rate b later ≤ levelOf capacity rate b now + (later - now) * rate := by
  have hGain : 0 ≤ (later - now) * rate := mul_nonneg (sub_nonneg.mpr hLater) hRate
  cases b with
  | none =>
      simp only [levelOf]
      linarith
  | some used =>
      simp only [levelOf, Bucket.level]
      rcases le_total (used.tokens + (now - used.last) * rate) capacity with hLow | hFull
      · rw [min_eq_left hLow]
        refine (min_le_left _ _).trans (le_of_eq ?_)
        ring
      · rw [min_eq_right hFull]
        exact (min_le_right _ _).trans (by linarith)

variable (rate) in
/-- A call pays for its token from the level. -/
theorem levelOf_spend {tokens : K} (hTokens : tokens ≤ capacity)
    (now : K) :
    levelOf capacity rate (some (spend tokens now).1) now + (if (spend tokens now).2 then 1 else 0) =
      tokens := by
  have hLevel : levelOf capacity rate (some (spend tokens now).1) now
      = min (spend tokens now).1.tokens capacity := by
    simp [levelOf, Bucket.level]
  rw [hLevel, spend_tokens]
  cases (spend tokens now).2 with
  | true =>
      simp only [if_true]
      rw [min_eq_left (by linarith)]
      ring
  | false => simp [hTokens]

/-- The calls allowed in a window of time. -/
def allowedIn (start stop : K) (answered : List (K × Bool)) : List (K × Bool) :=
  answered.filter fun a => a.2 ∧ start ≤ a.1 ∧ a.1 ≤ stop

omit [IsStrictOrderedRing K] in
theorem allowedIn_cons (start stop : K) (a : K × Bool) (rest : List (K × Bool)) :
    ((allowedIn start stop (a :: rest)).length : K) =
      (if a.2 ∧ start ≤ a.1 ∧ a.1 ≤ stop then 1 else 0) +
        ((allowedIn start stop rest).length : K) := by
  rw [allowedIn, List.filter_cons]
  split_ifs <;> simp_all [allowedIn, add_comm]

omit [IsStrictOrderedRing K] in
variable (capacity rate) in
theorem allowedIn_of_late {start stop clock : K} (hLate : stop < clock) {times : List K}
    (hTimes : Forward clock times) (b : Option (Bucket K)) :
    allowedIn start stop (answers capacity rate b times) = [] := by
  induction times generalizing b clock with
  | nil => rfl
  | cons now rest ih =>
      obtain ⟨hNow, hRest⟩ := hTimes
      have hOut : stop < now := hLate.trans_le hNow
      have hTail := ih hOut hRest (some (spend (levelOf capacity rate b now) now).1)
      rw [allowedIn] at hTail ⊢
      rw [answers, List.filter_cons_of_neg (by simp [hOut]), hTail]

/-- The level at a moment of a window and what flows in after it pay for all
tokens taken in the rest of the window. -/
theorem allowedIn_le_level (hCapacity : 0 ≤ capacity) (hRate : 0 ≤ rate)
    {b : Option (Bucket K)} {start stop clock : K} (hSound : Sound b clock) (hStart : start ≤ clock)
    (hStop : clock ≤ stop) {times : List K} (hTimes : Forward clock times) :
    ((allowedIn start stop (answers capacity rate b times)).length : K) ≤
      levelOf capacity rate b clock + (stop - clock) * rate := by
  induction times generalizing b clock with
  | nil =>
      have hGain : 0 ≤ (stop - clock) * rate := mul_nonneg (sub_nonneg.mpr hStop) hRate
      have hLevel := hSound.levelOf_nonneg hCapacity hRate
      simp only [answers, allowedIn, List.filter_nil, List.length_nil, Nat.cast_zero]
      linarith
  | cons now rest ih =>
      obtain ⟨hNow, hRest⟩ := hTimes
      rcases le_or_gt now stop with hIn | hOut
      · have hWait := levelOf_wait capacity hRate b hNow
        have hPaid := levelOf_spend rate (levelOf_le capacity rate b now) now
        have hLater := ih ((hSound.mono hNow).spend hCapacity hRate) (hStart.trans hNow) hIn hRest
        have hFlow : (stop - clock) * rate = (now - clock) * rate + (stop - now) * rate := by ring
        rw [answers, allowedIn_cons, hFlow]
        simp only [hStart.trans hNow, hIn, and_self, and_true]
        linarith
      · have hTimes : Forward now (now :: rest) := ⟨le_refl _, hRest⟩
        have hGain : 0 ≤ (stop - clock) * rate := mul_nonneg (sub_nonneg.mpr hStop) hRate
        have hLevel := hSound.levelOf_nonneg hCapacity hRate
        rw [allowedIn_of_late capacity rate hOut hTimes, List.length_nil, Nat.cast_zero]
        linarith

/-- In any window at most a full bucket and what flows in are taken. -/
theorem allowedIn_le (hCapacity : 0 ≤ capacity) (hRate : 0 ≤ rate) {b : Option (Bucket K)}
    {start stop clock : K} (hSound : Sound b clock) (hStop : start ≤ stop) {times : List K}
    (hTimes : Forward clock times) :
    ((allowedIn start stop (answers capacity rate b times)).length : K) ≤
      capacity + (stop - start) * rate := by
  induction times generalizing b clock with
  | nil =>
      have hGain : 0 ≤ (stop - start) * rate := mul_nonneg (sub_nonneg.mpr hStop) hRate
      simp only [answers, allowedIn, List.filter_nil, List.length_nil, Nat.cast_zero]
      linarith
  | cons now rest ih =>
      obtain ⟨hNow, hRest⟩ := hTimes
      rcases lt_or_ge now start with hEarly | hIn
      · have hLater := ih ((hSound.mono hNow).spend hCapacity hRate) hRest
        rw [answers, allowedIn_cons]
        simpa [hEarly.not_ge] using hLater
      · -- this call is the first in the window: the level here bounds the rest
        have hTimes : Forward now (now :: rest) := ⟨le_refl _, hRest⟩
        rcases le_or_gt now stop with hBefore | hOut
        · have hLevel := allowedIn_le_level hCapacity hRate (hSound.mono hNow) hIn hBefore hTimes
          have hFull := levelOf_le capacity rate b now
          have hFlow : (stop - now) * rate ≤ (stop - start) * rate :=
            mul_le_mul_of_nonneg_right (by linarith) hRate
          linarith
        · have hGain : 0 ≤ (stop - start) * rate := mul_nonneg (sub_nonneg.mpr hStop) hRate
          rw [allowedIn_of_late capacity rate hOut hTimes, List.length_nil, Nat.cast_zero]
          linarith

/-- A token has flown in once the time for one has passed. -/
theorem one_le_levelOf (hCapacity : 1 ≤ capacity) (hRate : 0 < rate) {b : Option (Bucket K)}
    {clock now : K} (hSound : Sound b clock) (hWait : clock + 1 / rate ≤ now) :
    1 ≤ levelOf capacity rate b now := by
  cases b with
  | none => exact hCapacity
  | some used =>
      obtain ⟨hTokens, hLast⟩ := hSound used rfl
      have hTime : 1 / rate ≤ now - used.last := by linarith
      have hToken : 1 ≤ (now - used.last) * rate := (div_le_iff₀ hRate).mp hTime
      exact le_min (by linarith) hCapacity

/-- A call that leaves the time for one token after the call before it is
allowed. -/
theorem allowed_of_wait (hCapacity : 1 ≤ capacity) (hRate : 0 < rate) {b : Option (Bucket K)}
    {clock : K} (hSound : Sound b clock) {times : List K} (hTimes : Forward clock times)
    {before after : List (K × Bool)} {first second : K × Bool}
    (h : answers capacity rate b times = before ++ first :: second :: after)
    (hWait : first.1 + 1 / rate ≤ second.1) : second.2 = true := by
  have hFull : 0 ≤ capacity := zero_le_one.trans hCapacity
  induction before generalizing b clock times with
  | nil =>
      cases times with
      | nil => cases h
      | cons now rest =>
          obtain ⟨hNow, hRest⟩ := hTimes
          have hCalled := (hSound.mono hNow).spend hFull hRate.le
          rw [answers, List.nil_append, List.cons.injEq] at h
          obtain ⟨rfl, hTail⟩ := h
          cases rest with
          | nil => cases hTail
          | cons next rest =>
              rw [answers, List.cons.injEq] at hTail
              obtain ⟨rfl, -⟩ := hTail
              exact spend_allowed.mpr (one_le_levelOf hCapacity hRate hCalled hWait)
  | cons a before ih =>
      cases times with
      | nil => cases h
      | cons now rest =>
          obtain ⟨hNow, hRest⟩ := hTimes
          rw [answers, List.cons_append, List.cons.injEq] at h
          exact ih ((hSound.mono hNow).spend hFull hRate.le) hRest h.2

/-- A bucket left alone for as long as it takes to fill is full. -/
theorem levelOf_of_idle (hRate : 0 ≤ rate) {b : Bucket K} {idle now : K}
    (hTokens : 0 ≤ b.tokens) (hFill : capacity ≤ idle * rate) (hIdle : b.last + idle ≤ now) :
    levelOf capacity rate (some b) now = levelOf capacity rate none now := by
  have hTime : idle * rate ≤ (now - b.last) * rate :=
    mul_le_mul_of_nonneg_right (by linarith) hRate
  exact min_eq_right (by linarith)

end Ordered

end TokenBucket

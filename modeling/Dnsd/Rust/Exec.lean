import Mathlib.Data.List.Basic
import Mathlib.Data.List.TakeDrop
import Mathlib.Tactic.Common

/-! Executions of a Rust function. A call returns a value, returns an error
through `Result`, or unwinds by a panic. A panic is never an error value: it
is what a later layer has to rule out or to bound. -/

universe u v

/-- Outcome of one call. The third constructor is unwinding. -/
inductive Exec (ε : Type u) (α : Type v) where
  | ok (value : α)
  | err (error : ε)
  | panicked
  deriving DecidableEq, Repr

namespace Exec

variable {ε : Type u} {α β : Type v}

/-- The `?` operator: an error and a panic both leave the caller at once. -/
@[inline] def bind (x : Exec ε α) (f : α → Exec ε β) : Exec ε β :=
  match x with
  | ok a => f a
  | err e => err e
  | panicked => panicked

instance : Monad (Exec ε) where
  pure := ok
  bind := bind

@[simp] theorem pure_eq (a : α) : (pure a : Exec ε α) = ok a := rfl
@[simp] theorem ok_bind (a : α) (f : α → Exec ε β) : (ok a >>= f) = f a := rfl
@[simp] theorem err_bind (e : ε) (f : α → Exec ε β) : (err e >>= f) = err e := rfl
@[simp] theorem panicked_bind (f : α → Exec ε β) :
    ((panicked : Exec ε α) >>= f) = panicked := rfl

/-- A sequence succeeds exactly when both of its halves do. -/
theorem bind_eq_ok_iff {x : Exec ε α} {f : α → Exec ε β} {b : β} :
    (x >>= f) = ok b ↔ ∃ a, x = ok a ∧ f a = ok b := by
  cases x <;> simp

/-- A sequence unwinds in its first half, or after it in its second. -/
theorem bind_eq_panicked_iff {x : Exec ε α} {f : α → Exec ε β} :
    (x >>= f) = panicked ↔ x = panicked ∨ ∃ a, x = ok a ∧ f a = panicked := by
  cases x <;> simp

/-- The call does not unwind, and a value it returns satisfies `post`. -/
def Safe (x : Exec ε α) (post : α → Prop) : Prop :=
  match x with
  | ok a => post a
  | err _ => True
  | panicked => False

/-- A value is safe if it has the property. -/
@[simp] theorem safe_ok {a : α} {post : α → Prop} : Safe (ok a : Exec ε α) post ↔ post a := Iff.rfl
@[simp] theorem safe_err {e : ε} {post : α → Prop} : Safe (err e : Exec ε α) post := trivial
@[simp] theorem not_safe_panicked {post : α → Prop} :
    ¬Safe (panicked : Exec ε α) post := fun h => h

/-- What is safe does not unwind. -/
theorem Safe.ne_panicked {x : Exec ε α} {post : α → Prop} (h : Safe x post) : x ≠ panicked := by
  rintro rfl
  exact h

/-- And its value has the property. -/
theorem Safe.of_eq_ok {x : Exec ε α} {post : α → Prop} (h : Safe x post) {a : α}
    (hOk : x = ok a) : post a := by
  subst hOk
  exact h

/-- Safety for a property is safety for a weaker one. -/
theorem Safe.mono {x : Exec ε α} {post post' : α → Prop} (h : Safe x post)
    (hPost : ∀ a, post a → post' a) : Safe x post' := by
  cases x with
  | ok a => exact hPost a h
  | err e => trivial
  | panicked => exact h

/-- The rule for sequencing: the first call establishes what the second needs. -/
theorem Safe.bind {x : Exec ε α} {f : α → Exec ε β} {mid : α → Prop} {post : β → Prop}
    (hFirst : Safe x mid) (hThen : ∀ a, mid a → Safe (f a) post) : Safe (x >>= f) post := by
  cases x with
  | ok a => exact hThen a hFirst
  | err e => trivial
  | panicked => exact False.elim hFirst

/-- Two calls end in the same way, and values they return are related. -/
def Related {α β : Type v} (rel : α → β → Prop) (x : Exec ε α) (y : Exec ε β) : Prop :=
  match x, y with
  | ok a, ok b => rel a b
  | err e, err e' => e = e'
  | panicked, panicked => True
  | _, _ => False

/-- The rule for sequencing two calls in step. -/
theorem Related.bind {α β α' β' : Type v} {rel : α → β → Prop} {rel' : α' → β' → Prop}
    {x : Exec ε α} {y : Exec ε β} {f : α → Exec ε α'} {g : β → Exec ε β'} (h : Related rel x y)
    (hThen : ∀ a b, rel a b → Related rel' (f a) (g b)) : Related rel' (x >>= f) (y >>= g) := by
  cases x <;> cases y <;> first | exact h | exact h.elim | exact hThen _ _ h

/-- What is related to a value is a value. -/
theorem Related.ok_left {α β : Type v} {rel : α → β → Prop} {a : α} {y : Exec ε β}
    (h : Related rel (ok a) y) : ∃ b, y = ok b ∧ rel a b := by
  cases y with
  | ok b => exact ⟨b, rfl, h⟩
  | err e => exact h.elim
  | panicked => exact h.elim

/-- `Result::ok`: the value of a successful call, for calls that cannot unwind. -/
def toOption : Exec ε α → Option α
  | ok a => some a
  | _ => none

@[simp] theorem toOption_ok (a : α) : (ok a : Exec ε α).toOption = some a := rfl
@[simp] theorem toOption_err (e : ε) : (err e : Exec ε α).toOption = none := rfl

end Exec

/-- A byte buffer; `Vec<u8>` and `&[u8]` alike, since nothing depends on who owns it. -/
abbrev Bytes := List UInt8

namespace Bytes

variable {ε : Type u}

/-- `buf[i]`, which unwinds outside the buffer instead of returning an error. -/
def idx (buf : Bytes) (i : Nat) : Exec ε UInt8 :=
  match buf[i]? with
  | some b => .ok b
  | none => .panicked

/-- `&buf[lo..hi]`, which unwinds when the range is decreasing or too long. -/
def slice (buf : Bytes) (lo hi : Nat) : Exec ε Bytes :=
  if lo ≤ hi ∧ hi ≤ buf.length then .ok ((buf.take hi).drop lo) else .panicked

/-- Indexing gives the byte that is there. -/
@[simp] theorem idx_eq_ok_iff {buf : Bytes} {i : Nat} {b : UInt8} :
    (idx buf i : Exec ε UInt8) = .ok b ↔ buf[i]? = some b := by
  unfold idx
  cases buf[i]? <;> simp

@[simp] theorem idx_ne_err {buf : Bytes} {i : Nat} {e : ε} : idx buf i ≠ .err e := by
  unfold idx
  cases buf[i]? <;> simp

/-- Indexing unwinds exactly at or behind the end. -/
@[simp] theorem idx_eq_panicked_iff {buf : Bytes} {i : Nat} :
    (idx buf i : Exec ε UInt8) = .panicked ↔ buf.length ≤ i := by
  unfold idx
  cases h : buf[i]? with
  | none => simpa using h
  | some b =>
      have hi := (List.getElem?_eq_some_iff.mp h).1
      simp
      omega

theorem idx_safe {buf : Bytes} {i : Nat} (h : i < buf.length) :
    Exec.Safe (idx buf i : Exec ε UInt8) fun _ => True := by
  simp [idx, h]

/-- A slice inside the bytes is safe, and has the length of its range. -/
theorem slice_safe {buf : Bytes} {lo hi : Nat} (hOrder : lo ≤ hi) (hEnd : hi ≤ buf.length) :
    Exec.Safe (slice buf lo hi : Exec ε Bytes) fun s => s.length = hi - lo := by
  simp only [slice, hOrder, hEnd, and_self, if_true, Exec.safe_ok, List.length_drop,
    List.length_take]
  omega

theorem idx_of_lt {buf : Bytes} {i : Nat} (h : i < buf.length) :
    (idx buf i : Exec ε UInt8) = .ok buf[i] := by
  simp [h]

theorem idx_getD {buf : Bytes} {i : Nat} (h : i < buf.length) :
    (idx buf i : Exec ε UInt8) = .ok (buf.getD i 0) := by
  simp [h, List.getD]

theorem slice_of_le {buf : Bytes} {lo hi : Nat} (hOrder : lo ≤ hi) (hEnd : hi ≤ buf.length) :
    (slice buf lo hi : Exec ε Bytes) = .ok ((buf.take hi).drop lo) := by
  simp [slice, hOrder, hEnd]

/-- Slicing unwinds exactly for a range that is reversed or goes beyond the end. -/
@[simp] theorem slice_eq_panicked_iff {buf : Bytes} {lo hi : Nat} :
    (slice buf lo hi : Exec ε Bytes) = .panicked ↔ hi < lo ∨ buf.length < hi := by
  unfold slice
  split <;> simp <;> omega

/-- Slicing never ends with an error: it has a value or it unwinds. -/
@[simp] theorem slice_ne_err {buf : Bytes} {lo hi : Nat} {e : ε} :
    slice buf lo hi ≠ .err e := by
  unfold slice
  split <;> simp

/-- The bytes of a window that was cut out of a longer buffer. -/
theorem slice_append_middle (p e s : Bytes) :
    (slice (p ++ e ++ s) p.length (p.length + e.length) : Exec ε Bytes) = .ok e := by
  rw [slice_of_le (by omega) (by simp)]
  simp [List.take_append]

end Bytes

namespace Exec

variable {ε σ : Type u} {α : Type u}

/-- `for _ in 0..n`: thread a cursor through `n` turns and collect the items. -/
def times (turn : σ → Exec ε (α × σ)) : Nat → σ → Exec ε (List α × σ)
  | 0, s => .ok ([], s)
  | n + 1, s => do
      let (item, next) ← turn s
      let (items, last) ← times turn n next
      .ok (item :: items, last)

@[simp] theorem times_zero (turn : σ → Exec ε (α × σ)) (s : σ) :
    times turn 0 s = .ok ([], s) := rfl

theorem times_succ (turn : σ → Exec ε (α × σ)) (n : Nat) (s : σ) :
    times turn (n + 1) s = turn s >>= fun first =>
      times turn n first.2 >>= fun rest => .ok (first.1 :: rest.1, rest.2) := rfl

/-- A turn that succeeds is put in front of what the other turns give. -/
theorem times_succ_of_ok {turn : σ → Exec ε (α × σ)} {n : Nat} {s next last : σ}
    {item : α} {items : List α} (hTurn : turn s = .ok (item, next))
    (hRest : times turn n next = .ok (items, last)) :
    times turn (n + 1) s = .ok (item :: items, last) := by
  simp [times_succ, hTurn, hRest]

/-- As many items come out as there were turns. -/
theorem times_length {turn : σ → Exec ε (α × σ)} {n : Nat} {s last : σ} {items : List α}
    (h : times turn n s = .ok (items, last)) : items.length = n := by
  induction n generalizing s items with
  | zero => simp at h; simp [← h.1]
  | succ n ih =>
      rw [times_succ] at h
      obtain ⟨first, _, h⟩ := bind_eq_ok_iff.mp h
      obtain ⟨rest, hRest, h⟩ := bind_eq_ok_iff.mp h
      cases h
      simp [ih hRest]

/-- A loop unwinds exactly when some turn does, all turns before it having
succeeded. -/
theorem times_eq_panicked_iff {turn : σ → Exec ε (α × σ)} {n : Nat} {s : σ} :
    times turn n s = .panicked ↔
      ∃ i < n, ∃ items at', times turn i s = .ok (items, at') ∧ turn at' = .panicked := by
  induction n generalizing s with
  | zero => simp
  | succ n ih =>
      rw [times_succ, bind_eq_panicked_iff]
      constructor
      · rintro (hTurn | ⟨⟨item, next⟩, hTurn, hRest⟩)
        · exact ⟨0, by omega, [], s, rfl, hTurn⟩
        · rcases bind_eq_panicked_iff.mp hRest with hRest | ⟨_, _, hRest⟩
          · obtain ⟨i, hi, items, at', hRun, hAt⟩ := ih.mp hRest
            exact ⟨i + 1, by omega, item :: items, at', times_succ_of_ok hTurn hRun, hAt⟩
          · cases hRest
      · rintro ⟨i, hi, items, at', hRun, hAt⟩
        cases i with
        | zero =>
            simp at hRun
            rw [← hRun.2] at hAt
            exact Or.inl hAt
        | succ i =>
            rw [times_succ] at hRun
            obtain ⟨first, hTurn, hRun⟩ := bind_eq_ok_iff.mp hRun
            obtain ⟨rest, hRest, hRun⟩ := bind_eq_ok_iff.mp hRun
            cases hRun
            refine Or.inr ⟨first, hTurn, bind_eq_panicked_iff.mpr (Or.inl ?_)⟩
            exact ih.mpr ⟨i, by omega, rest.1, rest.2, hRest, hAt⟩

/-- A loop of `m + n` turns is the loop of `m` turns and then that of `n`. -/
theorem times_add (turn : σ → Exec ε (α × σ)) (m n : Nat) (s : σ) :
    times turn (m + n) s = times turn m s >>= fun first =>
      times turn n first.2 >>= fun rest => .ok (first.1 ++ rest.1, rest.2) := by
  induction m generalizing s with
  | zero =>
      rw [Nat.zero_add, times_zero, ok_bind]
      cases times turn n s <;> rfl
  | succ m ih =>
      rw [Nat.succ_add, times_succ, times_succ]
      cases turn s with
      | err e => rfl
      | panicked => rfl
      | ok first =>
          simp only [ok_bind, ih]
          cases times turn m first.2 with
          | err e => rfl
          | panicked => rfl
          | ok rest =>
              simp only [ok_bind]
              cases times turn n rest.2 <;> rfl

/-- Where a loop succeeds, each of its turns does. -/
theorem times_turn {turn : σ → Exec ε (α × σ)} {i n : Nat} {s mid last : σ} {before items : List α}
    (h : times turn n s = .ok (items, last)) (hi : i < n)
    (hBefore : times turn i s = .ok (before, mid)) : ∃ item next, turn mid = .ok (item, next) := by
  obtain ⟨k, rfl⟩ : ∃ k, n = i + (k + 1) := ⟨n - i - 1, by omega⟩
  rw [times_add, hBefore, ok_bind] at h
  obtain ⟨rest, hRest, -⟩ := bind_eq_ok_iff.mp h
  rw [times_succ] at hRest
  obtain ⟨⟨item, next⟩, hTurn, -⟩ := bind_eq_ok_iff.mp hRest
  exact ⟨item, next, hTurn⟩

/-- Post-processing each item commutes with the loop. -/
theorem times_map (turn : σ → Exec ε (α × σ)) (g : α → α) (n : Nat) (s : σ) :
    times (fun s => turn s >>= fun r => .ok (g r.1, r.2)) n s =
      times turn n s >>= fun r => .ok (r.1.map g, r.2) := by
  induction n generalizing s with
  | zero => rfl
  | succ n ih =>
      rw [times_succ, times_succ]
      cases turn s with
      | err e => rfl
      | panicked => rfl
      | ok first =>
          simp only [ok_bind, ih]
          cases times turn n first.2 <;> rfl

end Exec

import Mathlib.Algebra.GroupWithZero.Nat
import Dnsd.Rust.Text

/-! Numbers as text, and texts joined by a separator. What `format!` glues
together can be taken apart again when the separator is in no part but one. -/

namespace Str

/-- `{}` of an unsigned integer: decimal digits without a leading zero, and "0" for zero.
-/
def decimal (n : Nat) : Str := Nat.toDigits 10 n

/-- `{:x}` of an unsigned integer: hexadecimal digits in lower case, without a leading
zero. -/
def hex (n : Nat) : Str := Nat.toDigits 16 n

/-- `{}` of a signed integer: the digits of its amount, behind a minus sign if it is
negative. -/
def signed (n : Int) : Str := if n < 0 then '-' :: decimal n.natAbs else decimal n.natAbs

theorem digitChar_injOn {d e : Nat} (hd : d < 16) (he : e < 16)
    (h : Nat.digitChar d = Nat.digitChar e) : d = e := by
  have hAll : ∀ d e : Fin 16, Nat.digitChar d = Nat.digitChar e → d = e := by decide
  exact congrArg Fin.val (hAll ⟨d, hd⟩ ⟨e, he⟩ h)

/-- Two numbers with the same digits are equal. -/
theorem toDigits_injective {b : Nat} (hBase : 1 < b) (hSmall : b ≤ 16) :
    Function.Injective (Nat.toDigits b) := by
  intro n m h
  induction n using Nat.strongRecOn generalizing m with
  | ind n ih =>
      rw [Nat.toDigits_eq_if hBase, Nat.toDigits_eq_if (n := m) hBase] at h
      have hDigit (k : Nat) : k % b < b := Nat.mod_lt k (by omega)
      split_ifs at h with hn hm hm
      · exact digitChar_injOn (by omega) (by omega) (List.singleton_inj.mp h)
      · have hLength := congrArg List.length h
        simp at hLength
      · have hLength := congrArg List.length h
        simp at hLength
      · obtain ⟨hInit, hLast⟩ := List.append_inj' h rfl
        have hMod := digitChar_injOn (by have := hDigit n; omega) (by have := hDigit m; omega)
          (List.singleton_inj.mp hLast)
        have hDiv := ih (n / b) (Nat.div_lt_self (by omega) hBase) hInit
        rw [← Nat.div_add_mod n b, ← Nat.div_add_mod m b, hDiv, hMod]

theorem decimal_injective : Function.Injective decimal :=
  toDigits_injective (by decide) (by decide)

theorem hex_injective : Function.Injective hex := toDigits_injective (by decide) (by decide)

theorem decimal_isDigit {n : Nat} {c : Char} (h : c ∈ decimal n) : c.isDigit = true :=
  Nat.isDigit_of_mem_toDigits (by decide) (by decide) h

theorem decimal_length_le {n k : Nat} (hPositive : 0 < k) (h : n < 10 ^ k) :
    (decimal n).length ≤ k :=
  (Nat.length_toDigits_le_iff (by decide) hPositive).mpr h

theorem signed_chars {n : Int} {c : Char} (h : c ∈ signed n) : c = '-' ∨ c.isDigit = true := by
  rw [signed] at h
  split_ifs at h
  · rcases List.mem_cons.mp h with hMinus | hDigit
    · exact Or.inl hMinus
    · exact Or.inr (decimal_isDigit hDigit)
  · exact Or.inr (decimal_isDigit h)

theorem signed_ne_nil (n : Int) : signed n ≠ [] := by
  rw [signed]
  split_ifs
  · simp
  · exact Nat.toDigits_ne_nil

theorem minus_not_mem_decimal (n : Nat) : '-' ∉ decimal n := fun h =>
  absurd (decimal_isDigit h) (by decide)

theorem signed_injective : Function.Injective signed := by
  intro n m h
  rw [signed, signed] at h
  split_ifs at h with hn hm hm
  · have hAbs := decimal_injective (List.cons.inj h).2
    omega
  · exact absurd (h ▸ List.mem_cons_self) (minus_not_mem_decimal m.natAbs)
  · exact absurd (h.symm ▸ List.mem_cons_self) (minus_not_mem_decimal n.natAbs)
  · have hAbs := decimal_injective h
    omega

theorem hex_length_le {n k : Nat} (hPositive : 0 < k) (h : n < 16 ^ k) : (hex n).length ≤ k :=
  (Nat.length_toDigits_le_iff (by decide) hPositive).mpr h

theorem hex_ne_nil (n : Nat) : hex n ≠ [] := Nat.toDigits_ne_nil

/-- Hexadecimal digits are letters and digits. -/
theorem hex_isAlphanum {n : Nat} {c : Char} (h : c ∈ hex n) : c.isAlphanum = true := by
  induction n using Nat.strongRecOn with
  | ind n ih =>
      have hDigit : ∀ d : Fin 16, (Nat.digitChar d).isAlphanum = true := by decide
      rw [hex, Nat.toDigits_eq_if (by decide)] at h
      split_ifs at h with hn
      · rw [List.mem_singleton.mp h]
        exact hDigit ⟨n, hn⟩
      · rcases List.mem_append.mp h with hInit | hLast
        · exact ih (n / 16) (by omega) hInit
        · rw [List.mem_singleton.mp hLast]
          exact hDigit ⟨n % 16, by omega⟩

/-! ## Separators -/

/-- The last separator divides a text in one way only. -/
theorem append_sep_inj {sep : Char} {s s' t t' : Str} (ht : sep ∉ t) (ht' : sep ∉ t')
    (h : s ++ sep :: t = s' ++ sep :: t') : s = s' ∧ t = t' := by
  have hBehind {u v w : Str} (hw : sep ∉ w) (hEq : sep :: w = u ++ sep :: v) : u = [] ∧ w = v := by
    cases u with
    | nil => exact ⟨rfl, List.tail_eq_of_cons_eq hEq⟩
    | cons c u =>
        refine absurd ?_ hw
        rw [List.tail_eq_of_cons_eq hEq]
        simp
  rcases List.append_eq_append_iff.mp h with ⟨u, rfl, hEq⟩ | ⟨u, rfl, hEq⟩
  · obtain ⟨rfl, rfl⟩ := hBehind ht hEq
    simp
  · obtain ⟨rfl, rfl⟩ := hBehind ht' hEq
    simp

/-- Texts without the separator are told apart after joining. -/
theorem intercalate_inj {sep : Char} {ls ls' : List Str} (hls : ∀ l ∈ ls, sep ∉ l)
    (hls' : ∀ l ∈ ls', sep ∉ l) (hNil : ls ≠ []) (hNil' : ls' ≠ [])
    (h : [sep].intercalate ls = [sep].intercalate ls') : ls = ls' := by
  rw [← List.splitOn_intercalate sep hls hNil, h, List.splitOn_intercalate sep hls' hNil']

theorem intercalate_append {sep : Str} {ls ls' : List Str} (hNil : ls ≠ []) (hNil' : ls' ≠ []) :
    sep.intercalate (ls ++ ls') = sep.intercalate ls ++ sep ++ sep.intercalate ls' := by
  induction ls with
  | nil => exact absurd rfl hNil
  | cons l rest ih =>
      rw [List.cons_append, List.intercalate_cons_of_ne_nil (by simp [hNil'])]
      cases rest with
      | nil => simp
      | cons l' rest => rw [ih (by simp), List.intercalate_cons_cons]; simp

theorem map_intercalate (f : Char → Char) (sep : Str) (ls : List Str) :
    (sep.intercalate ls).map f = (sep.map f).intercalate (ls.map (List.map f)) := by
  induction ls with
  | nil => rfl
  | cons a rest ih =>
      cases rest with
      | nil => simp
      | cons b rest =>
          rw [List.intercalate_cons_cons, List.map_append, List.map_append, ih]
          simp [List.intercalate_cons_cons]

theorem intercalate_length_le (sep : Char) {ls : List Str} {k : Nat}
    (h : ∀ l ∈ ls, l.length ≤ k) :
    ([sep].intercalate ls).length ≤ (k + 1) * ls.length := by
  induction ls with
  | nil => simp
  | cons a rest ih =>
      have hFirst := h a List.mem_cons_self
      have hRest := ih fun l hl => h l (List.mem_cons_of_mem a hl)
      cases rest with
      | nil =>
          simp
          omega
      | cons b rest =>
          rw [List.intercalate_cons_cons, List.length_append, List.length_append,
            List.length_singleton, List.length_cons, Nat.mul_succ]
          omega

theorem intercalate_append_cons (sep : Char) (s t : Str) (rest : List Str) :
    [sep].intercalate ((s ++ t) :: rest) = s ++ [sep].intercalate (t :: rest) := by
  cases rest with
  | nil => simp
  | cons u rest => simp [List.intercalate_cons_cons]

theorem count_intercalate (sep : Char) {ls : List Str} (hNil : ls ≠ []) :
    ([sep].intercalate ls).count sep + 1 = (ls.map (List.count sep)).sum + ls.length := by
  induction ls with
  | nil => exact absurd rfl hNil
  | cons a rest ih =>
      cases rest with
      | nil => simp
      | cons b rest =>
          have hRest := ih (by simp)
          rw [List.intercalate_cons_cons, List.count_append, List.count_append,
            List.count_singleton_self, List.map_cons, List.sum_cons, List.length_cons]
          omega

theorem sum_count_eq_zero_iff {sep : Char} {ls : List Str} :
    (ls.map (List.count sep)).sum = 0 ↔ ∀ l ∈ ls, sep ∉ l := by
  induction ls with
  | nil => simp
  | cons a rest ih => simp [ih, List.count_eq_zero]

/-- The same text joined from as many parts, one of which has the separator in it. -/
theorem exists_intercalate_eq {sep : Char} {ls : List Str} (hTwo : 2 ≤ ls.length)
    (hSep : ∃ l ∈ ls, sep ∈ l) : ∃ ls' : List Str, ls'.length = ls.length ∧ ls' ≠ ls ∧
      [sep].intercalate ls' = [sep].intercalate ls := by
  induction ls with
  | nil => simp at hTwo
  | cons a rest ih =>
      cases rest with
      | nil => simp at hTwo
      | cons b rest =>
          by_cases hFirst : sep ∈ a
          · -- the part behind the separator moves to the next one
            obtain ⟨u, v, rfl⟩ := List.append_of_mem hFirst
            refine ⟨u :: (v ++ sep :: b) :: rest, by simp, by simp, ?_⟩
            simp [List.intercalate_cons_cons, intercalate_append_cons sep v]
          · cases rest with
            | nil =>
                have hLast : sep ∈ b := by simpa [hFirst] using hSep
                obtain ⟨u, v, rfl⟩ := List.append_of_mem hLast
                refine ⟨[a ++ sep :: u, v], by simp, by simp, ?_⟩
                simp [List.intercalate_cons_cons]
            | cons c rest =>
                have hLater : ∃ l ∈ b :: c :: rest, sep ∈ l := by simpa [hFirst] using hSep
                obtain ⟨ls', hLength, hNe, hJoin⟩ := ih (by simp) hLater
                have hNil : ls' ≠ [] := by
                  rintro rfl
                  simp at hLength
                refine ⟨a :: ls', by simpa using hLength, by simpa using hNe, ?_⟩
                rw [List.intercalate_cons_of_ne_nil hNil,
                  List.intercalate_cons_of_ne_nil (by simp), hJoin]

/-- Joined parts are read off their text in one way only if none has the
separator in it. -/
theorem intercalate_unique {sep : Char} {ls ls' : List Str} (hls : ∀ l ∈ ls, sep ∉ l)
    (hLength : ls'.length = ls.length) (h : [sep].intercalate ls' = [sep].intercalate ls) :
    ls' = ls := by
  rcases List.eq_nil_or_concat ls with rfl | ⟨_, _, hConcat⟩
  · exact List.length_eq_zero_iff.mp hLength
  · have hNil : ls ≠ [] := by simp [hConcat]
    have hNil' : ls' ≠ [] := by
      rintro rfl
      exact hNil (List.length_eq_zero_iff.mp hLength.symm)
    have hCount := count_intercalate sep hNil'
    rw [h, count_intercalate sep hNil, sum_count_eq_zero_iff.mpr hls, hLength] at hCount
    exact intercalate_inj (sum_count_eq_zero_iff.mp (by omega)) hls hNil' hNil h

theorem intercalate_length {sep : Char} {ls : List Str} (hNil : ls ≠ []) :
    ([sep].intercalate ls).length + 1 = (ls.map fun l => l.length + 1).sum := by
  induction ls with
  | nil => exact absurd rfl hNil
  | cons a rest ih =>
      cases rest with
      | nil => simp
      | cons b rest =>
          have hRest := ih (by simp)
          rw [List.intercalate_cons_cons, List.map_cons, List.sum_cons, ← hRest, List.length_append,
            List.length_append, List.length_singleton]
          omega

theorem mem_intercalate_of_mem {sep : Str} {ls : List Str} {l : Str} (hl : l ∈ ls) {c : Char}
    (hc : c ∈ l) : c ∈ sep.intercalate ls := by
  induction ls with
  | nil => cases hl
  | cons a rest ih =>
      cases rest with
      | nil =>
          rw [List.mem_singleton.mp hl] at hc
          simpa using hc
      | cons b rest =>
          rw [List.intercalate_cons_cons]
          rcases List.mem_cons.mp hl with rfl | hl
          · simp [hc]
          · simp [ih hl]

theorem not_mem_of_mem_splitOn {sep : Char} {s p : Str} (h : p ∈ s.splitOn sep) : sep ∉ p := by
  induction s generalizing p with
  | nil =>
      rw [List.splitOn_nil, List.mem_singleton] at h
      simp [h]
  | cons c s ih =>
      rw [List.splitOn_cons_eq_if_modifyHead] at h
      split_ifs at h with hSep
      · rcases List.mem_cons.mp h with rfl | h
        · simp
        · exact ih h
      · obtain ⟨first, rest, hSplit⟩ := List.exists_cons_of_ne_nil (List.splitOn_ne_nil sep s)
        rw [hSplit] at ih h
        rcases List.mem_cons.mp h with rfl | h
        · have hFirst := ih List.mem_cons_self
          have hc : sep ≠ c := fun h => hSep (beq_iff_eq.mpr h.symm)
          simp [hc, hFirst]
        · exact ih (List.mem_cons_of_mem first h)

theorem mem_intercalate {sep : Char} {ls : List Str} {c : Char} (h : c ∈ [sep].intercalate ls) :
    c = sep ∨ ∃ l ∈ ls, c ∈ l := by
  induction ls with
  | nil => simp at h
  | cons a rest ih =>
      cases rest with
      | nil => exact Or.inr ⟨a, by simp, by simpa using h⟩
      | cons b rest =>
          simp only [List.intercalate_cons_cons, List.mem_append, List.mem_singleton] at h
          rcases h with (h | h) | h
          · exact Or.inr ⟨a, by simp, h⟩
          · exact Or.inl h
          · rcases ih h with h | ⟨l, hl, h⟩
            · exact Or.inl h
            · exact Or.inr ⟨l, List.mem_cons_of_mem a hl, h⟩

end Str

import Dnsd.Rust.NetParse

/-! Texts taken apart: at the first separator, at white space, at both ends. -/

namespace Str

-- A library has an instance that goes through all characters there are; this one comes first.
instance (priority := 2000) decidableForall (p : Char → Prop) [DecidablePred p] (s : Str) :
    Decidable (∀ c ∈ s, p c) :=
  List.decidableBAll p s

/-- `str::split_once`: what is in front of the first separator and what is behind it, if
there is one. -/
def splitOnce (sep : Char) (s : Str) : Option (Str × Str) :=
  match s.span (· ≠ sep) with
  | (before, _ :: after) => some (before, after)
  | (_, []) => none

section SplitOnce

variable {sep : Char} {s before after : Str}

theorem splitOnce_append (h : sep ∉ before) (after : Str) :
    splitOnce sep (before ++ sep :: after) = some (before, after) := by
  have hAll : ∀ c ∈ before, decide (c ≠ sep) = true := fun c hc =>
    decide_eq_true fun hEq => h (hEq ▸ hc)
  rw [splitOnce, List.span_eq_takeWhile_dropWhile, List.takeWhile_append_of_pos hAll,
    List.dropWhile_append_of_pos hAll]
  simp

theorem splitOnce_of_not_mem (h : sep ∉ s) : splitOnce sep s = none := by
  have hAll : ∀ c ∈ s, decide (c ≠ sep) = true := fun c hc =>
    decide_eq_true fun hEq => h (hEq ▸ hc)
  rw [splitOnce, List.span_eq_takeWhile_dropWhile, List.dropWhile_eq_nil_iff.mpr hAll]

end SplitOnce

/-! ## Parts of a text -/

/-- `str::find` with a text: what is left from its first place on. -/
def fromFirst (pattern : Str) : Str → Option Str
  | [] => if pattern = [] then some [] else none
  | c :: s => if pattern <+: c :: s then some (c :: s) else fromFirst pattern s

/-- `str::replace` for a pattern that is not empty; `skip` characters are part of the
place that has been replaced last. -/
def replaceFrom (pattern new : Str) (skip : Nat) : Str → Str
  | [] => []
  | c :: s =>
      match skip with
      | skip + 1 => replaceFrom pattern new skip s
      | 0 =>
          if pattern <+: c :: s then new ++ replaceFrom pattern new (pattern.length - 1) s
          else c :: replaceFrom pattern new 0 s

/-- `str::replace`: from the left, without going back into what was put in. -/
def replace (pattern new s : Str) : Str := replaceFrom pattern new 0 s

section Parts

variable {pattern front : Str} {a : Char}

theorem not_begins (hHead : pattern.head? = some a) {c : Char} (h : a ≠ c) (s : Str) :
    ¬pattern <+: c :: s := by
  rintro ⟨rest, hRest⟩
  cases pattern with
  | nil => cases hHead
  | cons b pattern =>
      cases hHead
      exact h (List.cons_eq_cons.mp hRest).1

/-- A pattern is not found in front of the first place of its first character. -/
theorem fromFirst_append (hHead : pattern.head? = some a) (h : a ∉ front) (s : Str) :
    fromFirst pattern (front ++ s) = fromFirst pattern s := by
  induction front with
  | nil => rfl
  | cons c front ih =>
      rw [List.mem_cons, not_or] at h
      rw [List.cons_append, fromFirst, if_neg (not_begins hHead h.1 _), ih h.2]

theorem fromFirst_self (hHead : pattern.head? = some a) (s : Str) :
    fromFirst pattern (pattern ++ s) = some (pattern ++ s) := by
  cases pattern with
  | nil => cases hHead
  | cons b pattern =>
      rw [List.cons_append, fromFirst, if_pos]
      exact List.cons_prefix_cons.mpr ⟨rfl, List.prefix_append pattern s⟩

theorem replaceFrom_skip (pattern new front s : Str) :
    replaceFrom pattern new front.length (front ++ s) = replaceFrom pattern new 0 s := by
  induction front with
  | nil => rfl
  | cons c front ih => exact ih

theorem replace_append (hHead : pattern.head? = some a) (h : a ∉ front) (new s : Str) :
    replace pattern new (front ++ s) = front ++ replace pattern new s := by
  induction front with
  | nil => rfl
  | cons c front ih =>
      rw [List.mem_cons, not_or] at h
      rw [List.cons_append, replace, replaceFrom, if_neg (not_begins hHead h.1 _), List.cons_append]
      exact congrArg (List.cons c) (ih h.2)

theorem replace_self (hHead : pattern.head? = some a) (new s : Str) :
    replace pattern new (pattern ++ s) = new ++ replace pattern new s := by
  cases pattern with
  | nil => cases hHead
  | cons b pattern =>
      rw [List.cons_append, replace, replaceFrom,
        if_pos (List.cons_prefix_cons.mpr ⟨rfl, List.prefix_append pattern s⟩), List.length_cons,
        Nat.add_sub_cancel, replaceFrom_skip]
      rfl

theorem replace_pattern (hHead : pattern.head? = some a) (new : Str) :
    replace pattern new pattern = new := by
  have hSelf := replace_self hHead new []
  have hNil : replace pattern new [] = [] := rfl
  rwa [List.append_nil, hNil, List.append_nil] at hSelf

end Parts

/-! ## White space -/

theorem splitWhitespace_word {word : Str} (hNil : word ≠ [])
    (hWord : ∀ c ∈ word, Unicode.whiteSpace c = false) {space : Char}
    (hSpace : Unicode.whiteSpace space = true) (rest : Str) :
    splitWhitespace (word ++ space :: rest) = word :: splitWhitespace rest := by
  rw [splitWhitespace, List.splitOnP_append_cons_of_forall_mem hWord _ hSpace,
    List.filter_cons_of_pos (by simpa using hNil)]
  rfl

theorem splitWhitespace_last {word : Str} (hNil : word ≠ [])
    (hWord : ∀ c ∈ word, Unicode.whiteSpace c = false) : splitWhitespace word = [word] := by
  rw [splitWhitespace, List.splitOnP_eq_singleton hWord, List.filter_cons_of_pos (by simpa using hNil)]
  rfl

theorem trimEnd_append {c : Char} (h : Unicode.whiteSpace c = false) (s t : Str) :
    trimEnd (s ++ c :: t) = s ++ c :: trimEnd t := by
  induction t using List.reverseRecOn with
  | nil => exact trimEnd_append_of_not_space h
  | append_singleton t d ih =>
      have hSplit : s ++ c :: (t ++ [d]) = (s ++ c :: t) ++ [d] := by simp
      rw [hSplit]
      cases hSpace : Unicode.whiteSpace d with
      | true => rw [trimEnd_append_space hSpace, trimEnd_append_space hSpace, ih]
      | false =>
          rw [trimEnd_append_of_not_space hSpace, trimEnd_append_of_not_space hSpace]
          simp

/-- A text that ends in no white space keeps what is in front of it. -/
theorem trimEnd_append_trimmed {t : Str} (hNil : t ≠ []) (h : trimEnd t = t) (s : Str) :
    trimEnd (s ++ t) = s ++ t := by
  rcases List.eq_nil_or_concat t with rfl | ⟨u, c, rfl⟩
  · exact absurd rfl hNil
  · rw [List.concat_eq_append] at h ⊢
    cases hSpace : Unicode.whiteSpace c with
    | false => rw [← List.append_assoc, trimEnd_append_of_not_space hSpace]
    | true =>
        rw [trimEnd_append_space hSpace] at h
        have hLe := (List.rdropWhile_prefix Unicode.whiteSpace u).length_le
        rw [← trimEnd, h, List.length_append, List.length_singleton] at hLe
        omega

theorem trim_append_space {s : Str} {c : Char} (h : Unicode.whiteSpace c = true) :
    trim (s ++ [c]) = trim s := by
  rw [trim, trim, List.dropWhile_append]
  split_ifs with hNil
  · rw [List.isEmpty_iff.mp hNil, List.dropWhile_cons_of_pos h, List.dropWhile_nil]
  · exact trimEnd_append_space h

/-- The order in which the ends are trimmed does not matter. -/
theorem trim_trimEnd (s : Str) : trim (trimEnd s) = trim s := by
  induction s using List.reverseRecOn with
  | nil => rfl
  | append_singleton s c ih =>
      cases hSpace : Unicode.whiteSpace c with
      | true => rw [trimEnd_append_space hSpace, trim_append_space hSpace, ih]
      | false => rw [trimEnd_append_of_not_space hSpace]

theorem trim_cons_space {c : Char} (h : Unicode.whiteSpace c = true) (s : Str) :
    trim (c :: s) = trim s := by
  rw [trim, trim, List.dropWhile_cons_of_pos h]

/-! ## Bytes -/

/-- A character of ASCII is in a text if its byte is. -/
theorem mem_of_mem_bytes {s : Str} {c : Char} (hAscii : c.toNat < 0x80)
    (h : UInt8.ofNat c.toNat ∈ s.bytes) : c ∈ s := by
  obtain ⟨before, after, hBytes⟩ := List.append_of_mem h
  have hByte : (UInt8.ofNat c.toNat).toNat = c.toNat := by
    rw [UInt8.toNat_ofNat']
    exact Nat.mod_eq_of_lt (by omega)
  obtain ⟨t, u, hText, _, _⟩ := bytes_split_ascii (by omega) hBytes
  rw [hText, hByte, Char.ofNat_toNat]
  simp

end Str

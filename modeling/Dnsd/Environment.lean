import Dnsd.Error
import Dnsd.Rust.HashMap
import Dnsd.Rust.Split

/-! The environment variables of the process, and the file of more of them that is
read at start-up. -/

namespace Str

/-- `str::trim_matches` for one character, which is dropped at both ends as often as it is
there. -/
def trimMatches (s : Str) (c : Char) : Str := (s.dropWhile (· == c)).rdropWhile (· == c)

end Str

namespace Dnsd

/-! ## The environment -/

/-- The character that neither a key nor a value of a variable can have. -/
def nul : Char := Char.ofNat 0

/-- What a variable can be called: not the empty text, and without an equals sign or a
zero byte. -/
structure Named (key : Str) : Prop where
  ne_nil : key ≠ []
  equals : '=' ∉ key
  nul : nul ∉ key

instance (key : Str) : Decidable (Named key) :=
  decidable_of_iff (key ≠ [] ∧ '=' ∉ key ∧ nul ∉ key) ⟨fun h => ⟨h.1, h.2.1, h.2.2⟩,
    fun h => ⟨h.ne_nil, h.equals, h.nul⟩⟩

/-- The variables; a value that is not Unicode is `none`. -/
structure Env where
  vars : HashMap Str (Option Str)
  named : ∀ key value, HashMap.get vars key = some value → Named key

namespace Env

/-- No variable is set. -/
def empty : Env := ⟨∅, fun _ _ h => nomatch h⟩

/-- `env::var_os`: the value of a variable, if it is set, and whether it is a text. -/
def varOs (env : Env) (key : Str) : Option (Option Str) := HashMap.get env.vars key

/-- `env::var`: the value of a variable that is set to a text, without the kind of its
error. -/
def var (env : Env) (key : Str) : Option Str := (env.varOs key).join

/-- `env::set_var`, which unwinds at a key or a value that no variable can have. -/
def setVar (env : Env) (key value : Str) : Exec Error Env :=
  if h : Named key ∧ nul ∉ value then
    .ok ⟨env.vars.insert key (some value), by
      intro k v hGet
      rw [HashMap.get_insert] at hGet
      split_ifs at hGet with hKey
      · exact hKey ▸ h.1
      · exact env.named k v hGet⟩
  else .panicked

theorem setVar_eq_ok {env env' : Env} {key value : Str} (h : env.setVar key value = .ok env') (k : Str) :
    env'.varOs k = if k = key then some (some value) else env.varOs k := by
  rw [setVar] at h
  split_ifs at h
  cases h
  exact HashMap.get_insert env.vars k key (some value)

theorem setVar_eq_panicked_iff {env : Env} {key value : Str} :
    env.setVar key value = .panicked ↔ ¬(Named key ∧ nul ∉ value) := by
  rw [setVar]
  split_ifs with h
  · exact iff_of_false (by simp) (not_not.mpr h)
  · exact iff_of_true rfl h

end Env

/-! ## The file -/

/-- A line of the file that sets a variable. -/
def assignment (line : Str) : Option (Str × Str) :=
  let line := line.trim
  if line.isEmpty || line.head? = some '#' then none
  else
    (line.splitOnce '=').map fun (k, v) =>
      (k.trim, (v.trim.trimMatches '"').trimMatches '\'')

/-- An assignment that takes effect, if the variable is not set yet. `set_var` unwinds for
a key or a value that the environment cannot hold. -/
def assign (env : Env) (a : Str × Str) : Exec Error Env :=
  if (env.varOs a.1).isNone then env.setVar a.1 a.2 else .ok env

/-- What one line of the file does: nothing, if it is blank, a comment or without an
equals sign. -/
def loadDotenvLine (env : Env) (line : Str) : Exec Error Env :=
  match assignment line with
  | some a => assign env a
  | none => .ok env

/-- `load_dotenv` with the text of the file, if it can be read as text. -/
def loadDotenv (env : Env) (data : Option Str) : Exec Error Env :=
  match data with
  | none => .ok env
  | some data => data.lines.foldlM loadDotenvLine env

/-- The assignments of a file in their order. -/
def assignments (data : Str) : List (Str × Str) := data.lines.filterMap assignment

theorem loadDotenv_eq (env : Env) (data : Str) :
    loadDotenv env (some data) = (assignments data).foldlM assign env := by
  rw [loadDotenv, assignments]
  induction data.lines generalizing env with
  | nil => rfl
  | cons line rest ih =>
      rw [List.foldlM_cons, loadDotenvLine]
      cases hLine : assignment line with
      | none => rw [List.filterMap_cons_none hLine, Exec.ok_bind, ih]
      | some a =>
          rw [List.filterMap_cons_some hLine, List.foldlM_cons]
          exact congrArg (assign env a >>= ·) (funext ih)

/-- The value that a file gives a variable: the first one. -/
def firstValue (as : List (Str × Str)) (key : Str) : Option Str :=
  (as.find? fun a => a.1 = key).map Prod.snd

/-- An assignment takes effect that no variable can have. -/
def Faulty (env : Env) (as : List (Str × Str)) : Prop :=
  ∃ before a after, as = before ++ a :: after ∧ env.varOs a.1 = none ∧
    a.1 ∉ before.map Prod.fst ∧ ¬(Named a.1 ∧ nul ∉ a.2)

section Assign

variable {env env' : Env} {a : Str × Str} {as : List (Str × Str)}

theorem assign_eq_ok (h : assign env a = .ok env') (key : Str) :
    env'.varOs key = (env.varOs key).or (if a.1 = key then some (some a.2) else none) := by
  rw [assign] at h
  split_ifs at h with hNone
  · rw [Env.setVar_eq_ok h]
    by_cases hKey : a.1 = key
    · rw [if_pos hKey.symm, if_pos hKey, ← hKey, Option.isNone_iff_eq_none.mp hNone, Option.none_or]
    · rw [if_neg (Ne.symm hKey), if_neg hKey, Option.or_none]
  · cases h
    split_ifs with hKey
    · obtain ⟨value, hValue⟩ := Option.ne_none_iff_exists'.mp fun h => hNone (Option.isNone_iff_eq_none.mpr h)
      rw [← hKey, hValue, Option.some_or]
    · rw [Option.or_none]

theorem assign_ne_err (e : Error) : assign env a ≠ .err e := by
  rw [assign, Env.setVar]
  split_ifs <;> simp

theorem assign_eq_panicked_iff :
    assign env a = .panicked ↔ env.varOs a.1 = none ∧ ¬(Named a.1 ∧ nul ∉ a.2) := by
  rw [assign]
  split_ifs with hNone
  · rw [Env.setVar_eq_panicked_iff]
    exact (and_iff_right (Option.isNone_iff_eq_none.mp hNone)).symm
  · refine iff_of_false (by simp) fun h => hNone ?_
    rw [h.1, Option.isNone_none]

/-- The variables behind some assignments: those in front of them, and the first value
of each other one. -/
theorem foldlM_assign_eq_ok (h : as.foldlM assign env = .ok env') (key : Str) :
    env'.varOs key = (env.varOs key).or ((firstValue as key).map some) := by
  induction as generalizing env with
  | nil =>
      cases h
      exact (Option.or_none).symm
  | cons a as ih =>
      rw [List.foldlM_cons] at h
      obtain ⟨middle, hFirst, hRest⟩ := Exec.bind_eq_ok_iff.mp h
      rw [ih hRest, assign_eq_ok hFirst, Option.or_assoc]
      congr 1
      by_cases hKey : a.1 = key
      · rw [if_pos hKey, Option.some_or, firstValue, List.find?_cons_of_pos (by simpa using hKey)]
        rfl
      · rw [if_neg hKey, Option.none_or, firstValue, firstValue,
          List.find?_cons_of_neg (by simpa using hKey)]

theorem foldlM_assign_ne_err (e : Error) : as.foldlM assign env ≠ .err e := by
  induction as generalizing env with
  | nil => simp
  | cons a as ih =>
      rw [List.foldlM_cons]
      cases hFirst : assign env a with
      | ok middle => exact ih
      | err e => exact absurd hFirst (assign_ne_err e)
      | panicked => simp

theorem foldlM_assign_eq_panicked_iff : as.foldlM assign env = .panicked ↔ Faulty env as := by
  induction as generalizing env with
  | nil =>
      refine iff_of_false (by simp) ?_
      rintro ⟨before, a, after, hSplit, -⟩
      exact absurd hSplit (by simp)
  | cons a as ih =>
      rw [List.foldlM_cons, Exec.bind_eq_panicked_iff, assign_eq_panicked_iff]
      constructor
      · rintro (⟨hNone, hFault⟩ | ⟨middle, hFirst, hRest⟩)
        · exact ⟨[], a, as, rfl, hNone, by simp, hFault⟩
        · obtain ⟨before, b, after, rfl, hNone, hNew, hFault⟩ := ih.mp hRest
          rw [assign_eq_ok hFirst, Option.or_eq_none_iff] at hNone
          have hOther : a.1 ≠ b.1 := fun hKey => by simp [hKey] at hNone
          exact ⟨a :: before, b, after, rfl, hNone.1, by simp [hNew, Ne.symm hOther], hFault⟩
      · rintro ⟨before, b, after, hSplit, hNone, hNew, hFault⟩
        cases before with
        | nil =>
            cases hSplit
            exact Or.inl ⟨hNone, hFault⟩
        | cons c before =>
            cases hSplit
            by_cases hFirst : assign env a = .panicked
            · exact Or.inl (assign_eq_panicked_iff.mp hFirst)
            · right
              cases hAssign : assign env a with
              | panicked => exact absurd hAssign hFirst
              | err e => exact absurd hAssign (assign_ne_err e)
              | ok middle =>
                  refine ⟨middle, rfl, ih.mpr ⟨before, b, after, rfl, ?_, ?_, hFault⟩⟩
                  · rw [assign_eq_ok hAssign, hNone, Option.none_or, if_neg]
                    exact fun hKey => hNew (by simp [hKey])
                  · exact fun hMem => hNew (List.mem_cons_of_mem _ hMem)

end Assign

/-- A file unwinds exactly if an assignment of it takes effect that no variable can have;
else each variable keeps its value, or gets the first one that the file has for it. -/
theorem loadDotenv_spec (env : Env) (data : Str) :
    (loadDotenv env (some data) = .panicked ↔ Faulty env (assignments data)) ∧
      (¬Faulty env (assignments data) → ∃ env', loadDotenv env (some data) = .ok env' ∧
        ∀ key, env'.varOs key =
          (env.varOs key).or ((firstValue (assignments data) key).map some)) := by
  rw [loadDotenv_eq]
  refine ⟨foldlM_assign_eq_panicked_iff, fun hSound => ?_⟩
  cases hLoad : (assignments data).foldlM assign env with
  | ok env' => exact ⟨env', rfl, foldlM_assign_eq_ok hLoad⟩
  | err e => exact absurd hLoad (foldlM_assign_ne_err e)
  | panicked => exact absurd (foldlM_assign_eq_panicked_iff.mp hLoad) hSound

/-- A line without a name in front of its sign. -/
example : Faulty .empty (assignments "=1".toList) :=
  ⟨[], ([], ['1']), [], by decide, rfl, by simp, fun h => h.1.ne_nil rfl⟩

/-! ## Files that are written for some settings -/

/-- A value that is read as it is written. -/
structure Clean (value : Str) : Prop where
  trim : value.trim = value
  double : value.trimMatches '"' = value
  single : value.trimMatches '\'' = value
  line : '\n' ∉ value
  nul : nul ∉ value

/-- A variable and its value, as a line of a file can have them. -/
structure Setting where
  key : Str
  value : Str
  named : Named key
  trim : key.trim = key
  comment : key.head? ≠ some '#'
  line : '\n' ∉ key
  clean : Clean value

namespace Setting

/-- The line for a setting, without its end. -/
def text (s : Setting) : Str := s.key ++ '=' :: s.value

end Setting

/-- The file that says these settings and nothing else. -/
def render (settings : List Setting) : Str := settings.flatMap fun s => s.text ++ ['\n']

theorem head_of_trim {s : Str} (h : s.trim = s) {c : Char} (hHead : s.head? = some c) :
    Unicode.whiteSpace c = false := by
  cases s with
  | nil => cases hHead
  | cons d s =>
      cases hHead
      have hPrefix : c :: s <+: Str.trim (c :: s) := h.symm ▸ List.prefix_refl _
      exact Str.head_of_prefix_trim hPrefix rfl

theorem getLast_of_trim {s : Str} (h : s.trim = s) {c : Char} (hLast : s.getLast? = some c) :
    Unicode.whiteSpace c = false := by
  rcases List.eq_nil_or_concat s with rfl | ⟨t, d, rfl⟩
  · cases hLast
  · rw [List.concat_eq_append] at h hLast
    rw [List.getLast?_concat, Option.some.injEq] at hLast
    subst hLast
    cases hSpace : Unicode.whiteSpace d with
    | false => rfl
    | true =>
        rw [Str.trim_append_space hSpace] at h
        have hLength := Str.trim_length t
        rw [h, List.length_append, List.length_singleton] at hLength
        omega

theorem assignment_text (s : Setting) : assignment s.text = some (s.key, s.value) := by
  obtain ⟨first, rest, hKey⟩ := List.exists_cons_of_ne_nil s.named.ne_nil
  have hTrim : s.text.trim = s.text := by
    apply Str.trim_of_ends
    · intro c hc
      rw [Setting.text, hKey] at hc
      exact head_of_trim s.trim (by rw [hKey]; exact hc)
    · intro c hc
      rw [Setting.text, List.getLast?_append] at hc
      cases hValue : s.value.getLast? with
      | none =>
          rw [List.getLast?_eq_none_iff.mp hValue] at hc
          cases hc
          decide
      | some d =>
          rw [List.getLast?_cons, hValue] at hc
          cases hc
          exact getLast_of_trim s.clean.trim hValue
  have hComment : s.text.head? ≠ some '#' := by
    have hHead := s.comment
    rw [hKey] at hHead
    rw [Setting.text, hKey]
    exact hHead
  have hNonempty : s.text.isEmpty = false := by rw [Setting.text, hKey]; rfl
  rw [assignment, hTrim, hNonempty, Bool.false_or, if_neg (by simpa using hComment), Setting.text,
    Str.splitOnce_append s.named.equals, Option.map_some]
  dsimp only
  rw [s.trim, s.clean.trim, s.clean.double, s.clean.single]

/-- Lines with newlines behind them. -/
theorem lines_flatMap {lines : List Str} (hLine : ∀ l ∈ lines, '\n' ∉ l)
    (hEnd : ∀ l ∈ lines, l.getLast? ≠ some '\r') :
    Str.lines (lines.flatMap fun l => l ++ ['\n']) = lines := by
  have hPieces : (lines.flatMap fun l => l ++ ['\n']).splitOn '\n' = lines ++ [[]] := by
    clear hEnd
    induction lines with
    | nil => rfl
    | cons l lines ih =>
        have hSplit : ((l :: lines).flatMap fun l => l ++ ['\n']) =
            l ++ '\n' :: lines.flatMap fun l => l ++ ['\n'] := by simp
        rw [hSplit, List.splitOn_append_cons_self_of_not_mem (hLine l List.mem_cons_self),
          ih fun l hl => hLine l (List.mem_cons_of_mem _ hl), List.cons_append]
  have hKept : (lines.map fun l => if l.getLast? = some '\r' then l.dropLast else l) = lines := by
    rw [List.map_congr_left fun l hl => if_neg (hEnd l hl)]
    exact List.map_id _
  rw [Str.lines, hPieces, List.getLast?_concat, List.dropLast_concat, hKept]

theorem assignments_render (settings : List Setting) :
    assignments (render settings) = settings.map fun s => (s.key, s.value) := by
  have hLines : (render settings).lines = settings.map Setting.text := by
    have hFlat : render settings = (settings.map Setting.text).flatMap fun l => l ++ ['\n'] := by
      rw [render, List.flatMap_map]
    rw [hFlat, lines_flatMap]
    · intro l hl hMem
      obtain ⟨s, -, rfl⟩ := List.mem_map.mp hl
      rcases List.mem_append.mp hMem with hKey | hValue
      · exact s.line hKey
      · rcases List.mem_cons.mp hValue with hSign | hValue
        · exact absurd hSign (by decide)
        · exact s.clean.line hValue
    · intro l hl hReturn
      obtain ⟨s, -, rfl⟩ := List.mem_map.mp hl
      rw [Setting.text, List.getLast?_append] at hReturn
      cases hValue : s.value.getLast? with
      | none =>
          rw [List.getLast?_eq_none_iff.mp hValue] at hReturn
          cases hReturn
      | some c =>
          rw [List.getLast?_cons, hValue] at hReturn
          cases hReturn
          exact absurd (getLast_of_trim s.clean.trim hValue) (by decide)
  rw [assignments, hLines, List.filterMap_map, ← List.filterMap_eq_map]
  exact List.filterMap_congr fun s _ => assignment_text s

/-- A file that is written for some settings sets the variables to their values. -/
theorem loadDotenv_render (settings : List Setting) :
    ∃ env, loadDotenv .empty (some (render settings)) = .ok env ∧
      ∀ key, env.var key = (settings.find? fun s => s.key = key).map Setting.value := by
  have hSound : ¬Faulty .empty (assignments (render settings)) := by
    rintro ⟨before, a, after, hSplit, -, -, hFault⟩
    have hMem : a ∈ assignments (render settings) := by rw [hSplit]; simp
    rw [assignments_render] at hMem
    obtain ⟨s, -, rfl⟩ := List.mem_map.mp hMem
    exact hFault ⟨s.named, s.clean.nul⟩
  cases hLoad : loadDotenv .empty (some (render settings)) with
  | panicked =>
      rw [loadDotenv_eq] at hLoad
      exact absurd (foldlM_assign_eq_panicked_iff.mp hLoad) hSound
  | err e =>
      rw [loadDotenv_eq] at hLoad
      exact absurd hLoad (foldlM_assign_ne_err e)
  | ok env =>
      rw [loadDotenv_eq] at hLoad
      refine ⟨env, rfl, fun key => ?_⟩
      rw [Env.var, foldlM_assign_eq_ok hLoad, assignments_render, firstValue, List.find?_map]
      change Option.join ((none : Option (Option Str)).or ((((settings.find? fun s => s.key = key).map
        fun s => (s.key, s.value)).map Prod.snd).map some)) = _
      rw [Option.none_or]
      cases settings.find? fun s => s.key = key <;> rfl

/-- A value without white space, quotes and the character zero. -/
theorem clean_of_chars {value : Str}
    (h : ∀ c ∈ value, Unicode.whiteSpace c = false ∧ c ≠ '"' ∧ c ≠ '\'' ∧ c ≠ nul) : Clean value := by
  have hMatches (quote : Char) (hQuote : quote = '"' ∨ quote = '\'') :
      value.trimMatches quote = value := by
    have hOther : ∀ c ∈ value, (c == quote) = false := by
      intro c hc
      have hChar := h c hc
      rcases hQuote with rfl | rfl
      · exact beq_eq_false_iff_ne.mpr hChar.2.1
      · exact beq_eq_false_iff_ne.mpr hChar.2.2.1
    have hStart : value.dropWhile (· == quote) = value := by
      cases value with
      | nil => rfl
      | cons c value => simp [hOther c List.mem_cons_self]
    rw [Str.trimMatches, hStart, List.rdropWhile_eq_self_iff]
    intro hNil
    simp [hOther _ (List.getLast_mem hNil)]
  constructor
  · exact Str.trim_of_ends (fun c hc => (h c (List.mem_of_mem_head? hc)).1)
      fun c hc => (h c (List.mem_of_getLast? hc)).1
  · exact hMatches '"' (.inl rfl)
  · exact hMatches '\'' (.inr rfl)
  · intro hLine
    exact absurd (h _ hLine).1 (by decide)
  · intro hNul
    exact (h _ hNul).2.2.2 rfl

end Dnsd

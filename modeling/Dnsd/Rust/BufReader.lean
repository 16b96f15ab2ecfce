import Mathlib.Data.List.Basic
import Mathlib.Tactic.Common

/-! Buffered reading of a file that others may append to. A read hands out at
most what is buffered, and the buffer is filled only when it is empty, so which
reads come back short depends on where they start. A read of at least the
capacity goes past an empty buffer. -/

universe u

/-- The sizes of a reader: what a fill of the buffer fetches, and the most that one
read of the file hands out when it goes past the buffer. -/
structure Buffering where
  capacity : Nat
  limit : Nat
  positive : 0 < capacity
  capacity_le : capacity ≤ limit

/-- A buffered reader of a file that is read from its start. -/
structure BufReader (α : Type u) where
  buffering : Buffering
  /-- Where in the file the next fetch starts. -/
  pos : Nat
  /-- Fetched and not handed out. -/
  buf : List α

namespace BufReader

variable {α : Type u}

/-- `BufReader::with_capacity`: the file is at its start, and nothing is fetched yet. -/
def new (b : Buffering) : BufReader α := ⟨b, 0, []⟩

/-- `fill_buf`: one fetch of at most `capacity` items, when nothing is buffered. -/
def fill (file : List α) (r : BufReader α) : BufReader α :=
  if r.buf.isEmpty then
    let fetched := (file.drop r.pos).take r.buffering.capacity
    { r with pos := r.pos + fetched.length, buf := fetched }
  else r

/-- `read`: at most `n` of the buffered items, or one fetch of its own. -/
def read (file : List α) (n : Nat) (r : BufReader α) : List α × BufReader α :=
  if r.buf = [] ∧ r.buffering.capacity ≤ n then
    let fetched := (file.drop r.pos).take (min n r.buffering.limit)
    (fetched, { r with pos := r.pos + fetched.length })
  else
    let r := r.fill file
    (r.buf.take n, { r with buf := r.buf.drop n })

/-- `read_exact` as at most `turns` reads; `none` when the file ends first. -/
def readLoop (file : List α) : Nat → Nat → BufReader α → Option (List α × BufReader α)
  | _, 0, r => some ([], r)
  | 0, _ + 1, _ => none
  | turns + 1, n + 1, r =>
      let (got, r) := r.read file (n + 1)
      if got.isEmpty then none
      else (readLoop file turns (n + 1 - got.length) r).map fun (rest, r) => (got ++ rest, r)

/-- `read_exact`; each of its reads hands out at least one item. -/
def readExact (file : List α) (n : Nat) (r : BufReader α) : Option (List α × BufReader α) :=
  readLoop file n n r

/-! ## Where a reader stands -/

/-- The reader has handed out the first `o` items of the file. -/
structure Stands (file : List α) (r : BufReader α) (o : Nat) : Prop where
  pos_eq : r.pos = o + r.buf.length
  pos_le : r.pos ≤ file.length
  rest : r.buf ++ file.drop r.pos = file.drop o

theorem stands_new (file : List α) (b : Buffering) : Stands file (new b) 0 :=
  ⟨rfl, Nat.zero_le _, rfl⟩

variable {file : List α} {r : BufReader α} {o : Nat}

theorem Stands.le (h : Stands file r o) : o ≤ file.length := by
  have hPos := h.pos_eq
  have hEnd := h.pos_le
  omega

/-- Appending to the file moves no reader. -/
theorem Stands.grow (h : Stands file r o) (more : List α) : Stands (file ++ more) r o := by
  refine ⟨h.pos_eq, by simpa using Nat.le_add_right_of_le h.pos_le, ?_⟩
  rw [List.drop_append_of_le_length h.pos_le, List.drop_append_of_le_length h.le, ← h.rest,
    List.append_assoc]

/-- With nothing buffered, what comes next in the file is fetched next. -/
theorem Stands.pos_of_nil (h : Stands file r o) (hBuf : r.buf = []) : r.pos = o := by
  have hPos := h.pos_eq
  rwa [hBuf, List.length_nil, Nat.add_zero] at hPos

@[simp] theorem fill_buffering (file : List α) (r : BufReader α) :
    (r.fill file).buffering = r.buffering := by
  unfold fill
  split <;> rfl

theorem fill_of_nil (h : r.buf = []) :
    r.fill file = { r with
      pos := r.pos + ((file.drop r.pos).take r.buffering.capacity).length,
      buf := (file.drop r.pos).take r.buffering.capacity } := by
  rw [fill, if_pos (by simp [h])]

theorem fill_of_ne_nil (h : r.buf ≠ []) : r.fill file = r := by
  rw [fill, if_neg (by simpa using h)]

/-- A read past the empty buffer. -/
theorem read_direct (hBuf : r.buf = []) {n : Nat} (hn : r.buffering.capacity ≤ n) :
    r.read file n = ((file.drop r.pos).take (min n r.buffering.limit),
      { r with pos := r.pos + ((file.drop r.pos).take (min n r.buffering.limit)).length }) := by
  rw [read, if_pos ⟨hBuf, hn⟩]

/-- A read out of the buffer. -/
theorem read_buffered {n : Nat} (h : r.buf ≠ [] ∨ n < r.buffering.capacity) :
    r.read file n = ((r.fill file).buf.take n, { r.fill file with buf := (r.fill file).buf.drop n }) := by
  rw [read, if_neg]
  rintro ⟨hBuf, hn⟩
  rcases h with hNe | hLess
  · exact hNe hBuf
  · omega

/-- The two ways of a read. -/
theorem read_ways (r : BufReader α) (n : Nat) :
    (r.buf = [] ∧ r.buffering.capacity ≤ n) ∨ (r.buf ≠ [] ∨ n < r.buffering.capacity) := by
  by_cases hBuf : r.buf = []
  · rcases Nat.lt_or_ge n r.buffering.capacity with hLess | hn
    · exact .inr (.inr hLess)
    · exact .inl ⟨hBuf, hn⟩
  · exact .inr (.inl hBuf)

/-- Where a direct read hands out no more than a fill fetches, it is a fill that is
handed out at once: every read hands out at most what is buffered. -/
theorem read_of_limit_eq (hLimit : r.buffering.limit = r.buffering.capacity) (n : Nat) :
    r.read file n =
      ((r.fill file).buf.take n, { r.fill file with buf := (r.fill file).buf.drop n }) := by
  rcases r.read_ways n with ⟨hBuf, hn⟩ | hBuffered
  · have hAtMost := List.length_take_le r.buffering.capacity (file.drop r.pos)
    rw [read_direct hBuf hn, fill_of_nil hBuf, hLimit, Nat.min_eq_right hn]
    dsimp only
    rw [List.take_of_length_le (Nat.le_trans hAtMost hn), List.drop_of_length_le (Nat.le_trans hAtMost hn), hBuf]
  · exact read_buffered hBuffered

@[simp] theorem read_buffering (file : List α) (n : Nat) (r : BufReader α) :
    (r.read file n).2.buffering = r.buffering := by
  rcases r.read_ways n with ⟨hBuf, hn⟩ | hBuffered
  · rw [read_direct hBuf hn]
  · rw [read_buffered hBuffered]
    exact fill_buffering file r

theorem Stands.fill (h : Stands file r o) : Stands file (r.fill file) o := by
  by_cases hBuf : r.buf = []
  · have hPos := h.pos_of_nil hBuf
    rw [fill_of_nil hBuf]
    refine ⟨by rw [hPos], ?_, ?_⟩
    · have hEnd := h.pos_le
      simp only [List.length_take, List.length_drop]
      omega
    · rw [← hPos, ← List.drop_drop, List.length_take]
      have hSplit := List.take_append_drop r.buffering.capacity (file.drop r.pos)
      by_cases hCap : r.buffering.capacity ≤ (file.drop r.pos).length
      · rw [Nat.min_eq_left hCap, hSplit]
      · rw [Nat.min_eq_right (by omega), List.take_of_length_le (by omega),
          List.drop_length, List.append_nil]
  · rwa [fill_of_ne_nil hBuf]

/-- What a read hands out is the next piece of the file. -/
theorem Stands.read (h : Stands file r o) (n : Nat) :
    (r.read file n).1 = (file.drop o).take (r.read file n).1.length ∧
      Stands file (r.read file n).2 (o + (r.read file n).1.length) := by
  rcases r.read_ways n with ⟨hBuf, hn⟩ | hBuffered
  · have hPos := h.pos_of_nil hBuf
    have hEnd := h.pos_le
    rw [read_direct hBuf hn, hPos]
    refine ⟨List.prefix_iff_eq_take.mp (List.take_prefix _ _), ?_, ?_, ?_⟩
    · dsimp only
      rw [hBuf, List.length_nil, Nat.add_zero]
    · simp only [List.length_take, List.length_drop]
      omega
    · dsimp only
      rw [hBuf, List.nil_append]
  · have hFill := h.fill
    rw [read_buffered hBuffered]
    have hLength : ((r.fill file).buf.take n).length = min n (r.fill file).buf.length :=
      List.length_take
    constructor
    · rw [← hFill.rest, hLength, List.take_append_of_le_length (Nat.min_le_right ..)]
      by_cases hn : n ≤ (r.fill file).buf.length
      · rw [Nat.min_eq_left hn]
      · rw [Nat.min_eq_right (by omega), List.take_length, List.take_of_length_le (by omega)]
    · have hPos := hFill.pos_eq
      refine ⟨?_, hFill.pos_le, ?_⟩
      · simp only [List.length_drop, List.length_take]
        omega
      · rw [hLength, ← List.drop_drop, ← hFill.rest]
        change (r.fill file).buf.drop n ++ file.drop (r.fill file).pos = _
        by_cases hn : n ≤ (r.fill file).buf.length
        · rw [Nat.min_eq_left hn, List.drop_append_of_le_length hn]
        · rw [Nat.min_eq_right (by omega), List.drop_left, List.drop_eq_nil_of_le (by omega),
            List.nil_append]

/-- A read comes back empty at the end of the file only. -/
theorem Stands.read_ne_nil (h : Stands file r o) {n : Nat} (hn : 0 < n) (hMore : o < file.length) :
    (r.read file n).1 ≠ [] := by
  have hCapacity := r.buffering.positive
  have hLimit := r.buffering.capacity_le
  rcases r.read_ways n with ⟨hBuf, hLarge⟩ | hBuffered
  · have hPos := h.pos_of_nil hBuf
    rw [read_direct hBuf hLarge]
    apply List.ne_nil_of_length_pos
    simp only [List.length_take, List.length_drop]
    omega
  · have hFilled : (r.fill file).buf ≠ [] := by
      by_cases hNil : r.buf = []
      · have hPos := h.pos_of_nil hNil
        rw [fill_of_nil hNil]
        apply List.ne_nil_of_length_pos
        simp only [List.length_take, List.length_drop]
        omega
      · rwa [fill_of_ne_nil hNil]
    rw [read_buffered hBuffered]
    have hPositive := List.length_pos_iff.mpr hFilled
    apply List.ne_nil_of_length_pos
    simp only [List.length_take]
    omega

theorem read_length_le (file : List α) (n : Nat) (r : BufReader α) :
    (r.read file n).1.length ≤ n := by
  rcases r.read_ways n with ⟨hBuf, hn⟩ | hBuffered
  · rw [read_direct hBuf hn]
    simp only [List.length_take]
    omega
  · rw [read_buffered hBuffered]
    simp only [List.length_take]
    omega

/-- `read_exact` hands out what was asked for or fails. -/
theorem readLoop_length {file : List α} {turns n : Nat} {r r' : BufReader α} {got : List α}
    (h : readLoop file turns n r = some (got, r')) : got.length = n := by
  induction turns generalizing n r got with
  | zero =>
      cases n with
      | zero =>
          cases h
          rfl
      | succ n => cases h
  | succ turns ih =>
      cases n with
      | zero =>
          cases h
          rfl
      | succ n =>
          have hAtMost := read_length_le file (n + 1) r
          rw [BufReader.readLoop] at h
          dsimp only at h
          split_ifs at h
          obtain ⟨⟨rest, r1⟩, hRest, hJoined⟩ := Option.map_eq_some_iff.mp h
          cases hJoined
          rw [List.length_append, ih hRest]
          omega

/-- `read_exact` succeeds when the file holds the bytes, whatever is buffered. -/
theorem Stands.readLoop (h : Stands file r o) {turns n : Nat}
    (hTurns : n ≤ turns) (hRoom : o + n ≤ file.length) :
    ∃ r', readLoop file turns n r = some ((file.drop o).take n, r') ∧
      Stands file r' (o + n) ∧ r'.buffering = r.buffering := by
  induction turns generalizing n r o with
  | zero =>
      obtain rfl : n = 0 := by omega
      exact ⟨r, rfl, h, rfl⟩
  | succ turns ih =>
      cases n with
      | zero => exact ⟨r, rfl, h, rfl⟩
      | succ n =>
          have hAtMost := read_length_le file (n + 1) r
          have hSame := read_buffering file (n + 1) r
          have hNe := h.read_ne_nil (Nat.succ_pos n) (by omega)
          obtain ⟨hGot, hNext⟩ := h.read (n + 1)
          rw [BufReader.readLoop]
          obtain ⟨got, r1, hRead⟩ : ∃ got r1, r.read file (n + 1) = (got, r1) := ⟨_, _, rfl⟩
          rw [hRead] at hAtMost hSame hGot hNext ⊢
          rw [Nat.succ_eq_add_one, hRead] at hNe
          dsimp only at hAtMost hSame hGot hNext hNe ⊢
          have hPositive := List.length_pos_iff.mpr hNe
          obtain ⟨r', hLoop, hStands, hCap⟩ := ih hNext
            (n := n + 1 - got.length) (by omega) (by omega)
          refine ⟨r', ?_, by rwa [Nat.add_assoc, Nat.add_sub_cancel' hAtMost] at hStands,
            hCap.trans hSame⟩
          rw [if_neg (by simpa using hNe), hLoop, Option.map_some, ← List.drop_drop]
          have hJoin : got ++ ((file.drop o).drop got.length).take (n + 1 - got.length) =
              (file.drop o).take (n + 1) := by
            conv_rhs => rw [← Nat.add_sub_cancel' hAtMost, List.take_add, ← hGot]
          dsimp only
          rw [hJoin]

/-- `read_exact` fails when the file ends before the bytes do. -/
theorem Stands.readLoop_short (h : Stands file r o) {turns n : Nat} (hRoom : file.length < o + n) :
    BufReader.readLoop file turns n r = none := by
  induction turns generalizing n r o with
  | zero =>
      cases n with
      | zero => exact absurd h.le (by omega)
      | succ n => rfl
  | succ turns ih =>
      cases n with
      | zero => exact absurd h.le (by omega)
      | succ n =>
          have hAtMost := read_length_le file (n + 1) r
          obtain ⟨_, hNext⟩ := h.read (n + 1)
          rw [BufReader.readLoop]
          obtain ⟨got, r1, hRead⟩ : ∃ got r1, r.read file (n + 1) = (got, r1) := ⟨_, _, rfl⟩
          rw [hRead] at hAtMost hNext ⊢
          dsimp only at hAtMost hNext ⊢
          split_ifs
          · rfl
          · rw [ih hNext (by omega), Option.map_none]

theorem Stands.readExact (h : Stands file r o) {n : Nat}
    (hRoom : o + n ≤ file.length) :
    ∃ r', r.readExact file n = some ((file.drop o).take n, r') ∧
      Stands file r' (o + n) ∧ r'.buffering = r.buffering :=
  h.readLoop (Nat.le_refl n) hRoom

theorem Stands.readExact_short (h : Stands file r o) {n : Nat} (hRoom : file.length < o + n) :
    r.readExact file n = none :=
  h.readLoop_short hRoom

/-! ## Windows -/

end BufReader

/-- Where the fetches of a reader have come to, in a file that is long enough, once all in
front of `target` has been asked for. They had come to `stop`; what lies behind is fetched
directly, the limit at a time, and a last piece below the capacity by a fill. -/
def Buffering.reach (b : Buffering) (stop target : Nat) : Nat :=
  if target ≤ stop then stop
  else
    let direct := (target - stop - 1) / b.limit * b.limit
    stop + direct + max (target - stop - direct) b.capacity

/-- A read of `n` items at an offset is full if the buffer holds them all, or if it is
empty and one fetch is enough. -/
def Buffering.Full (b : Buffering) (stop o n : Nat) : Prop :=
  o + n ≤ stop ∨ stop = o ∧ n ≤ b.limit

instance (b : Buffering) (stop o n : Nat) : Decidable (b.Full stop o n) :=
  inferInstanceAs (Decidable (_ ∨ _))

namespace Buffering

variable {b : Buffering} {stop : Nat}

theorem reach_of_le {target : Nat} (h : target ≤ stop) : b.reach stop target = stop := by
  rw [reach, if_pos h]

/-- One fetch is enough for what is no longer than the limit. -/
theorem reach_of_le_limit {n : Nat} (hn : 0 < n) (hLimit : n ≤ b.limit) :
    b.reach stop (stop + n) = stop + max n b.capacity := by
  have hNone : (n - 1) / b.limit = 0 := Nat.div_eq_of_lt (by omega)
  rw [reach, if_neg (by omega)]
  simp only [Nat.add_sub_cancel_left, hNone, Nat.zero_mul, Nat.add_zero, Nat.sub_zero]

/-- A direct fetch on the way changes nothing. -/
theorem reach_direct {n : Nat} (hn : b.capacity ≤ n) :
    b.reach (stop + min n b.limit) (stop + n) = b.reach stop (stop + n) := by
  have hPositive := b.positive
  have hLimit := b.capacity_le
  rcases Nat.lt_or_ge b.limit n with hMore | hOne
  · have hDiv : (n - 1) / b.limit = (n - b.limit - 1) / b.limit + 1 := by
      rw [← Nat.add_div_right _ (by omega), show n - b.limit - 1 + b.limit = n - 1 by omega]
    rw [Nat.min_eq_right (Nat.le_of_lt hMore), reach, reach, if_neg (by omega), if_neg (by omega)]
    simp only [Nat.add_sub_cancel_left, hDiv, show stop + n - (stop + b.limit) = n - b.limit by omega,
      Nat.succ_mul]
    omega
  · rw [Nat.min_eq_left hOne, reach_of_le (Nat.le_refl _), reach_of_le_limit (by omega) hOne,
      Nat.max_eq_left hn]

end Buffering

namespace BufReader

variable {α : Type u} {file : List α} {r : BufReader α} {o stop size : Nat}

/-- The fetches of a reader that stands at `o` have come to `stop`, unless the file ended
in front of it; all this as long as the reader is in front of the horizon `size`, below
which the file was complete before the reader was opened. -/
structure InStep (file : List α) (size : Nat) (r : BufReader α) (o stop : Nat) : Prop where
  stands : Stands file r o
  size_le : size ≤ file.length
  window : r.pos = stop ∨ (size ≤ r.pos ∧ r.pos ≤ stop) ∨ size ≤ o

theorem inStep_new (hSize : size ≤ file.length) (b : Buffering) : InStep file size (new b) 0 0 :=
  ⟨stands_new file b, hSize, Or.inl rfl⟩

theorem InStep.grow (h : InStep file size r o stop) (more : List α) :
    InStep (file ++ more) size r o stop :=
  ⟨h.stands.grow more, by simpa using Nat.le_add_right_of_le h.size_le, h.window⟩

/-- A reader in front of the horizon does not stand behind its fetches. -/
theorem InStep.le_stop (h : InStep file size r o stop) (hBelow : o < size) : o ≤ stop := by
  have hPos := h.stands.pos_eq
  have hWindow := h.window
  omega

/-- One read below the horizon. -/
theorem InStep.read (h : InStep file size r o stop) {n : Nat} (hn : 0 < n) (hRoom : o + n ≤ size) :
    ∃ stop', InStep file size (r.read file n).2 (o + (r.read file n).1.length) stop' ∧
      r.buffering.reach stop' (o + n) = r.buffering.reach stop (o + n) := by
  have hStands := (h.stands.read n).2
  have hSize := h.size_le
  have hPositive := r.buffering.positive
  have hLimit := r.buffering.capacity_le
  by_cases hBuf : r.buf = []
  · have hPos := h.stands.pos_of_nil hBuf
    have hStop : stop = o := by
      have hWindow := h.window
      omega
    subst hStop
    rcases Nat.lt_or_ge n r.buffering.capacity with hLess | hn'
    · refine ⟨stop + r.buffering.capacity, ⟨hStands, hSize, ?_⟩, ?_⟩
      · rw [read_buffered (.inr hLess), fill_of_nil hBuf]
        simp only [List.length_take, List.length_drop, hPos]
        omega
      · rw [Buffering.reach_of_le (by omega), Buffering.reach_of_le_limit hn (by omega),
          Nat.max_eq_right (Nat.le_of_lt hLess)]
    · refine ⟨stop + min n r.buffering.limit, ⟨hStands, hSize, ?_⟩, Buffering.reach_direct hn'⟩
      rw [read_direct hBuf hn']
      simp only [List.length_take, List.length_drop, hPos]
      omega
  · refine ⟨stop, ⟨hStands, hSize, ?_⟩, rfl⟩
    have hWindow := h.window
    rw [read_buffered (.inl hBuf), fill_of_ne_nil hBuf]
    dsimp only
    omega

/-- A read that was full, in front of the horizon or behind it. -/
theorem InStep.read_whole (h : InStep file size r o stop) {n : Nat} (hn : 0 < n)
    (hWhole : (r.read file n).1.length = n) :
    InStep file size (r.read file n).2 (o + n) (r.buffering.reach stop (o + n)) := by
  have hStands := (h.stands.read n).2
  rw [hWhole] at hStands
  rcases Nat.lt_or_ge (o + n) size with hRoom | hPast
  · obtain ⟨stop', hNext, hReach⟩ := h.read hn (Nat.le_of_lt hRoom)
    rw [hWhole] at hNext
    rwa [← hReach, Buffering.reach_of_le (hNext.le_stop hRoom)]
  · exact ⟨hStands, h.size_le, .inr (.inr hPast)⟩

/-- A read below the horizon that the buffer holds, or that one fetch covers, is full. -/
theorem InStep.read_full (h : InStep file size r o stop) {n : Nat} (hRoom : o + n ≤ size)
    (hFull : r.buffering.Full stop o n) : (r.read file n).1 = (file.drop o).take n := by
  have hSize := h.size_le
  have hPos := h.stands.pos_eq
  have hWindow := h.window
  rw [Buffering.Full] at hFull
  rw [(h.stands.read n).1]
  suffices hLength : (r.read file n).1.length = n by rw [hLength]
  by_cases hBuf : r.buf = []
  · have hStart := h.stands.pos_of_nil hBuf
    rcases Nat.lt_or_ge n r.buffering.capacity with hLess | hn
    · rw [read_buffered (.inr hLess), fill_of_nil hBuf]
      simp only [List.length_take, List.length_drop]
      omega
    · have hPositive := r.buffering.positive
      rw [read_direct hBuf hn]
      simp only [List.length_take, List.length_drop]
      omega
  · have hSome := List.length_pos_iff.mpr hBuf
    rw [read_buffered (.inl hBuf), fill_of_ne_nil hBuf, List.length_take]
    omega

/-- Any other read below the horizon comes back short, even if it could go on. -/
theorem InStep.read_short (h : InStep file size r o stop) (hBelow : o < size) {n : Nat}
    (hShort : ¬r.buffering.Full stop o n) : (r.read file n).1.length < n := by
  have hPos := h.stands.pos_eq
  have hWindow := h.window
  have hLimit := r.buffering.capacity_le
  rw [Buffering.Full, not_or, not_and_or] at hShort
  by_cases hBuf : r.buf = []
  · have hStart := h.stands.pos_of_nil hBuf
    rw [read_direct hBuf (by omega)]
    simp only [List.length_take]
    omega
  · rw [read_buffered (.inl hBuf), fill_of_ne_nil hBuf, List.length_take]
    omega

theorem InStep.readLoop (h : InStep file size r o stop) {turns n : Nat} {got : List α}
    {r' : BufReader α} (hLoop : BufReader.readLoop file turns n r = some (got, r'))
    (hRoom : o + n < size) : InStep file size r' (o + n) (r.buffering.reach stop (o + n)) := by
  induction turns generalizing n r o stop got with
  | zero =>
      cases n with
      | zero =>
          cases hLoop
          rwa [Nat.add_zero, Buffering.reach_of_le (h.le_stop hRoom)]
      | succ n => cases hLoop
  | succ turns ih =>
      cases n with
      | zero =>
          cases hLoop
          rwa [Nat.add_zero, Buffering.reach_of_le (h.le_stop hRoom)]
      | succ n =>
          have hAtMost := read_length_le file (n + 1) r
          obtain ⟨stop', hNext, hReach⟩ := h.read (n := n + 1) (Nat.succ_pos n) (Nat.le_of_lt hRoom)
          rw [BufReader.readLoop] at hLoop
          dsimp only at hLoop
          split_ifs at hLoop
          obtain ⟨⟨rest, r''⟩, hRest, hEq⟩ := Option.map_eq_some_iff.mp hLoop
          cases hEq
          have hAfter := ih hNext hRest (by omega)
          rwa [Nat.add_assoc, Nat.add_sub_cancel' hAtMost, read_buffering, hReach] at hAfter

theorem InStep.readExact (h : InStep file size r o stop) {n : Nat} (hRoom : o + n ≤ file.length) :
    ∃ r', r.readExact file n = some ((file.drop o).take n, r') ∧
      InStep file size r' (o + n) (r.buffering.reach stop (o + n)) ∧ r'.buffering = r.buffering := by
  obtain ⟨r', hRead, hStands, hSame⟩ := h.stands.readExact hRoom
  refine ⟨r', hRead, ?_, hSame⟩
  rcases Nat.lt_or_ge (o + n) size with hBelow | hPast
  · exact h.readLoop hRead hBelow
  · exact ⟨hStands, h.size_le, .inr (.inr hPast)⟩

end BufReader

import Dnsd.Rust.NetParse

/-! The text of internet addresses as `Display` writes it, and that different
addresses have different texts. -/

namespace Ipv4Addr

/-- `{}` of an IPv4 address: its octets in decimal with dots between them. -/
def text (ip : Ipv4Addr) : Str := ['.'].intercalate (ip.octets.map fun b => Str.decimal b.toNat)

theorem text_chars {ip : Ipv4Addr} {c : Char} (h : c ∈ ip.text) : c.isDigit = true ∨ c = '.' := by
  simp only [text, octets, List.map_cons, List.map_nil, List.intercalate_cons_cons,
    List.intercalate_singleton, List.mem_append, List.mem_singleton] at h
  rcases h with (h | h) | (h | h) | (h | h) | h
  all_goals first
    | exact Or.inr h
    | exact Or.inl (Str.decimal_isDigit h)

theorem dot_mem_text (ip : Ipv4Addr) : '.' ∈ ip.text := by
  simp [text, octets, List.intercalate_cons_cons]

/-- No two addresses have the same text. -/
theorem text_injective : Function.Injective text := by
  intro ip ip' h
  have hDot (x : Ipv4Addr) : ∀ l ∈ x.octets.map fun b => Str.decimal b.toNat, '.' ∉ l := by
    intro l hl hDot
    obtain ⟨b, _, rfl⟩ := List.mem_map.mp hl
    exact absurd (Str.decimal_isDigit hDot) (by decide)
  have hOctets := Str.intercalate_inj (hDot ip) (hDot ip') (by simp [octets]) (by simp [octets]) h
  have hSame (b b' : UInt8) (hText : Str.decimal b.toNat = Str.decimal b'.toNat) : b = b' :=
    UInt8.toNat_inj.mp (Str.decimal_injective hText)
  simp only [octets, List.map_cons, List.map_nil, List.cons.injEq, and_true] at hOctets
  obtain ⟨hA, hB, hC, hD⟩ := hOctets
  cases ip
  cases ip'
  simp only [mk.injEq]
  exact ⟨hSame _ _ hA, hSame _ _ hB, hSame _ _ hC, hSame _ _ hD⟩

/-- A decimal number below 256 is read back up to the first character that is no digit. -/
theorem readNumber_decimal {n : Nat} (h : n < 256) {rest : Str}
    (hRest : ∀ c, rest.head? = some c → (Str.digitValue 10 c).isSome = false) :
    Str.readNumber 10 3 256 false (Str.decimal n ++ rest) = some (n, rest) := by
  have hAll : ∀ n : Fin 256, (Str.decimal n.val).all (fun c => (Str.digitValue 10 c).isSome) = true ∧
      (!false && (Str.decimal n.val).head? = some '0' && 1 < (Str.decimal n.val).length) = false := by
    decide +kernel
  obtain ⟨hDigits, hZero⟩ := hAll ⟨n, h⟩
  rw [List.all_eq_true] at hDigits
  have hTake : (Str.decimal n ++ rest).takeWhile (fun c => (Str.digitValue 10 c).isSome) =
      Str.decimal n := by
    rw [List.takeWhile_append_of_pos hDigits]
    cases rest with
    | nil => simp
    | cons c rest => rw [List.takeWhile_cons_of_neg (by simp [hRest c rfl]), List.append_nil]
  have hLength : (Str.decimal n).length ≤ 3 := Str.decimal_length_le (by decide) (by omega)
  rw [Str.readNumber, hTake, if_neg (by omega), if_neg (by rw [hZero]; simp), Str.number_decimal, List.drop_left]
  simp [h]

/-- An address is read back from its text. -/
theorem parse_text (ip : Ipv4Addr) : parse ip.text = some ip := by
  have hText : ip.text = Str.decimal ip.a.toNat ++ '.' :: (Str.decimal ip.b.toNat ++ '.' ::
      (Str.decimal ip.c.toNat ++ '.' :: (Str.decimal ip.d.toNat ++ []))) := by
    simp [text, octets, List.intercalate_cons_cons]
  have hDot (s : Str) : ∀ c, ('.' :: s).head? = some c → (Str.digitValue 10 c).isSome = false := by
    intro c hc
    cases hc
    rfl
  have hRead : read ip.text = some (ip, []) := by
    rw [read, hText, readNumber_decimal ip.a.toNat_lt (hDot _)]
    simp only [Option.bind_eq_bind, Option.bind_some, Str.readChar, if_pos]
    rw [readNumber_decimal ip.b.toNat_lt (hDot _)]
    simp only [Option.bind_some, if_pos]
    rw [readNumber_decimal ip.c.toNat_lt (hDot _)]
    simp only [Option.bind_some, if_pos]
    rw [readNumber_decimal ip.d.toNat_lt (by simp)]
    simp
  rw [parse, hRead]

end Ipv4Addr

namespace Ipv6Addr

/-- Big-endian pairs of octets, from the front. -/
def pairs : Bytes → List UInt16
  | a :: b :: rest => UInt16.fromBeBytes [a, b] :: pairs rest
  | _ => []

/-- `Ipv6Addr::segments`: eight numbers of 16 bits, each in network order. -/
def segments (ip : Ipv6Addr) : List UInt16 := pairs ip.octets

/-- `Ipv6Addr::to_ipv4_mapped`: the last four octets of an address under `::ffff:0:0/96`,
and nothing for any other. -/
def toIpv4Mapped (ip : Ipv6Addr) : Option Ipv4Addr :=
  match ip.octets with
  | [0, 0, 0, 0, 0, 0, 0, 0, 0, 0, 0xFF, 0xFF, a, b, c, d] => some ⟨a, b, c, d⟩
  | _ => none

/-- A run of zero segments, with the segment that it starts at and how many it has. -/
structure Span where
  start : Nat := 0
  len : Nat := 0

/-- The search for the longest run of zeros, the first one among equals. -/
def longestZeros : Nat → List UInt16 → Span → Span → Span
  | _, [], longest, _ => longest
  | i, segment :: rest, longest, current =>
      if segment = 0 then
        let current : Span := ⟨if current.len = 0 then i else current.start, current.len + 1⟩
        longestZeros (i + 1) rest (if longest.len < current.len then current else longest) current
      else longestZeros (i + 1) rest longest {}

/-- The first of the longest runs of zero segments, which is written as two colons. -/
def zeroes (segments : List UInt16) : Span := longestZeros 0 segments {} {}

/-- Segments in hexadecimal with colons between them, as they stand on either side of the
two colons. -/
def subslice (chunk : List UInt16) : Str :=
  [':'].intercalate (chunk.map fun segment => Str.hex segment.toNat)

/-- `{}` of an IPv6 address: a mapped one ends in the text of the IPv4 address, and in
others the longest run of zeros is two colons. -/
def text (ip : Ipv6Addr) : Str :=
  match ip.toIpv4Mapped with
  | some ipv4 => [':', ':', 'f', 'f', 'f', 'f', ':'] ++ ipv4.text
  | none =>
      let zeroes := zeroes ip.segments
      if 1 < zeroes.len then
        subslice (ip.segments.take zeroes.start) ++ [':', ':'] ++
          subslice (ip.segments.drop (zeroes.start + zeroes.len))
      else subslice ip.segments

/-! ## Different addresses, different texts -/

/-- The span is a run of zeros of the list. -/
def ZeroRun (segments : List UInt16) (span : Span) : Prop :=
  ∃ before after, segments = before ++ List.replicate span.len 0 ++ after ∧
    before.length = span.start

theorem ZeroRun.append {segments : List UInt16} {span : Span} (h : ZeroRun segments span)
    (more : List UInt16) : ZeroRun (segments ++ more) span := by
  obtain ⟨before, after, rfl, hStart⟩ := h
  exact ⟨before, after ++ more, by simp, hStart⟩

/-- The search keeps a run of zeros of what it has read, and the run that what
it has read ends in. -/
theorem longestZeros_zeroRun (done rest : List UInt16) {longest current : Span}
    (hLongest : ZeroRun done longest)
    (hCurrent : current.len ≠ 0 → ∃ before, done = before ++ List.replicate current.len 0 ∧
      before.length = current.start) :
    ZeroRun (done ++ rest) (longestZeros done.length rest longest current) := by
  induction rest generalizing done longest current with
  | nil =>
      rw [List.append_nil]
      exact hLongest
  | cons segment rest ih =>
      have hAgain (longest current : Span) := @ih (done ++ [segment]) longest current
      simp only [List.append_assoc, List.singleton_append, List.length_append,
        List.length_singleton] at hAgain
      rw [longestZeros]
      by_cases hZero : segment = 0
      · subst hZero
        rw [if_pos rfl]
        have hEnds : ∃ before, done ++ [0] = before ++ List.replicate (current.len + 1) 0 ∧
            before.length = if current.len = 0 then done.length else current.start := by
          by_cases hNone : current.len = 0
          · exact ⟨done, by simp [hNone], by simp [hNone]⟩
          · obtain ⟨before, hDone, hStart⟩ := hCurrent hNone
            refine ⟨before, ?_, by simp [hNone, hStart]⟩
            rw [hDone, List.replicate_succ', List.append_assoc]
        refine hAgain _ _ ?_ fun _ => hEnds
        by_cases hLonger : longest.len < current.len + 1
        · rw [if_pos hLonger]
          obtain ⟨before, hDone, hStart⟩ := hEnds
          exact ⟨before, [], by simpa using hDone, hStart⟩
        · rw [if_neg hLonger]
          exact hLongest.append [0]
      · rw [if_neg hZero]
        exact hAgain _ _ (hLongest.append [segment]) fun h => absurd rfl h

/-- The span that is left out has nothing but zeros. -/
theorem zeroes_zeroRun (segments : List UInt16) : ZeroRun segments (zeroes segments) :=
  longestZeros_zeroRun [] segments ⟨[], [], rfl, rfl⟩ fun h => absurd rfl h

theorem segments_length (ip : Ipv6Addr) : ip.segments.length = 8 := by
  have hPairs (bs : Bytes) (n : Nat) (h : bs.length = 2 * n) : (pairs bs).length = n := by
    induction n generalizing bs with
    | zero => rw [List.eq_nil_of_length_eq_zero h]; rfl
    | succ n ih =>
        obtain ⟨a, b, rest, rfl⟩ : ∃ a b rest, bs = a :: b :: rest := by
          match bs, h with
          | a :: b :: rest, _ => exact ⟨a, b, rest, rfl⟩
        rw [pairs, List.length_cons, ih rest (by simp only [List.length_cons] at h; omega)]
  exact hPairs ip.octets 8 ip.octets_length

theorem segments_injective : Function.Injective segments := by
  have hPairs (n : Nat) (bs bs' : Bytes) (h : bs.length = 2 * n) (h' : bs'.length = 2 * n)
      (hEq : pairs bs = pairs bs') : bs = bs' := by
    induction n generalizing bs bs' with
    | zero => rw [List.eq_nil_of_length_eq_zero h, List.eq_nil_of_length_eq_zero h']
    | succ n ih =>
        match bs, bs', h, h', hEq with
        | a :: b :: rest, a' :: b' :: rest', h, h', hEq =>
            rw [pairs, pairs, List.cons.injEq] at hEq
            obtain ⟨hPair, hRest⟩ := hEq
            obtain ⟨rfl, rfl⟩ := UInt16.fromBeBytes_pair_inj hPair
            simp only [List.length_cons] at h h'
            rw [ih rest rest' (by omega) (by omega) hRest]
  intro ip ip' h
  exact Ipv6Addr.ext (hPairs 8 _ _ ip.octets_length ip'.octets_length h)

/-- The hexadecimal texts of some segments, as they are read back one by one. -/
def pieces (chunk : List UInt16) : List Str := chunk.map fun segment => Str.hex segment.toNat

/-- No two chunks of segments have the same pieces. -/
theorem pieces_injective : Function.Injective pieces :=
  List.map_injective_iff.mpr fun _ _ h => UInt16.toNat_inj.mp (Str.hex_injective h)

theorem mem_pieces {chunk : List UInt16} {l : Str} (h : l ∈ pieces chunk) :
    l ≠ [] ∧ ∀ c ∈ l, c.isAlphanum = true := by
  obtain ⟨segment, _, rfl⟩ := List.mem_map.mp h
  exact ⟨Str.hex_ne_nil _, fun c hc => Str.hex_isAlphanum hc⟩

/-- What splitting at the colons gives for the segments on one side of `::`. -/
def side (chunk : List UInt16) : List Str := if chunk = [] then [[]] else pieces chunk

theorem side_ne_nil (chunk : List UInt16) : side chunk ≠ [] := by
  rw [side]
  split_ifs with hNil
  · simp
  · simpa [pieces] using hNil

theorem intercalate_side (chunk : List UInt16) :
    [':'].intercalate (side chunk) = subslice chunk := by
  rw [side]
  split_ifs with hNil
  · rw [hNil]
    rfl
  · rfl

theorem side_chars {chunk : List UInt16} {l : Str} (h : l ∈ side chunk) :
    ∀ c ∈ l, c.isAlphanum = true := by
  rw [side] at h
  split_ifs at h
  · rw [List.mem_singleton.mp h]
    simp
  · exact (mem_pieces h).2

/-- The segments in front of `::` are the pieces in front of the first empty one. -/
theorem takeWhile_side (chunk : List UInt16) (more : List Str) :
    (side chunk ++ [] :: more).takeWhile (fun l => l ≠ []) = pieces chunk := by
  rw [side]
  split_ifs with hNil
  · simp [hNil, pieces]
  · rw [List.takeWhile_append_of_pos fun l hl => by simpa using (mem_pieces hl).1]
    simp

/-- The segments behind `::` are the pieces behind the last empty one. -/
theorem takeWhile_reverse_side (chunk : List UInt16) (more : List Str) :
    ((more ++ [] :: side chunk).reverse.takeWhile (fun l => l ≠ [])).reverse = pieces chunk := by
  rw [List.reverse_append, List.reverse_cons, List.append_assoc, List.singleton_append, side]
  split_ifs with hNil
  · simp [hNil, pieces]
  · rw [List.takeWhile_append_of_pos fun l hl => by
      simpa using (mem_pieces (List.mem_reverse.mp hl)).1]
    simp

/-- The pieces of a text with a run of zeros left out. -/
theorem compressed_eq (l r : List UInt16) :
    subslice l ++ [':', ':'] ++ subslice r = [':'].intercalate (side l ++ [] :: side r) := by
  rw [Str.intercalate_append (side_ne_nil l) (by simp),
    List.intercalate_cons_of_ne_nil (side_ne_nil r), intercalate_side, intercalate_side]
  simp

/-- An address is what is in front of its zeros, the zeros, and what is behind them. -/
theorem segments_eq_of_zeroes (segments : List UInt16) :
    segments = segments.take (zeroes segments).start ++
      List.replicate (zeroes segments).len 0 ++
        segments.drop ((zeroes segments).start + (zeroes segments).len) := by
  obtain ⟨before, after, hEq, hStart⟩ := zeroes_zeroRun segments
  generalize zeroes segments = span at hEq hStart
  rw [hEq, ← hStart]
  simp [List.drop_append]

/-- The text of an address that is not mapped has a unique list of segments. -/
theorem text_segments {ip ip' : Ipv6Addr} (hMapped : ip.toIpv4Mapped = none)
    (hMapped' : ip'.toIpv4Mapped = none) (h : ip.text = ip'.text) : ip.segments = ip'.segments := by
  have hColon {ls : List Str} (hls : ∀ l ∈ ls, ∀ c ∈ l, c.isAlphanum = true) :
      ∀ l ∈ ls, ':' ∉ l := fun l hl hMem => absurd (hls l hl _ hMem) (by decide)
  have hSides (l r : List UInt16) : ∀ p ∈ side l ++ [] :: side r, ':' ∉ p := by
    refine hColon fun p hp => ?_
    rcases List.mem_append.mp hp with hLeft | hRight
    · exact side_chars hLeft
    · rcases List.mem_cons.mp hRight with rfl | hRight
      · simp
      · exact side_chars hRight
  have hPlain (chunk : List UInt16) : ∀ p ∈ pieces chunk, ':' ∉ p :=
    hColon fun p hp => (mem_pieces hp).2
  have hNil (x : Ipv6Addr) : pieces x.segments ≠ [] := by
    rw [← List.length_pos_iff, pieces, List.length_map, segments_length]
    decide
  have hMixed {x : Ipv6Addr} {l r : List UInt16}
      (hEq : [':'].intercalate (side l ++ [] :: side r) = subslice x.segments) : False := by
    have hSame := Str.intercalate_inj (hSides l r) (hPlain x.segments) (by simp) (hNil x) hEq
    have hEmpty : [] ∈ pieces x.segments := hSame ▸ by simp
    exact (mem_pieces hEmpty).1 rfl
  simp only [text, hMapped, hMapped', compressed_eq] at h
  split_ifs at h with hZeros hZeros' hZeros'
  · have hSame := Str.intercalate_inj (hSides _ _) (hSides _ _) (by simp) (by simp) h
    have hLeft := congrArg (List.takeWhile fun l => l ≠ []) hSame
    have hRight := congrArg (fun ls => (ls.reverse.takeWhile fun l => l ≠ []).reverse) hSame
    simp only [takeWhile_side] at hLeft
    simp only [takeWhile_reverse_side] at hRight
    have hTake := pieces_injective hLeft
    have hDrop := pieces_injective hRight
    have hEq := segments_eq_of_zeroes ip.segments
    have hEq' := segments_eq_of_zeroes ip'.segments
    have hLength := congrArg List.length hEq
    have hLength' := congrArg List.length hEq'
    rw [← hTake, ← hDrop] at hEq' hLength'
    simp only [List.length_append, List.length_replicate, segments_length] at hLength hLength'
    rw [hEq, hEq', show (zeroes ip.segments).len = (zeroes ip'.segments).len by omega]
  · exact (hMixed h).elim
  · exact (hMixed h.symm).elim
  · exact pieces_injective (Str.intercalate_inj (hPlain _) (hPlain _) (hNil ip) (hNil ip') h)

/-- A mapped address has ten zeros and two octets FF in front. -/
theorem toIpv4Mapped_eq_some {ip : Ipv6Addr} {ipv4 : Ipv4Addr} (h : ip.toIpv4Mapped = some ipv4) :
    ip.octets = List.replicate 10 0 ++ [0xFF, 0xFF] ++ ipv4.octets := by
  rw [toIpv4Mapped] at h
  split at h
  · rename_i hOctets
    cases h
    rw [hOctets]
    rfl
  · cases h

theorem subslice_chars {chunk : List UInt16} {c : Char} (h : c ∈ subslice chunk) :
    c.isAlphanum = true ∨ c = ':' := by
  rcases Str.mem_intercalate h with rfl | ⟨l, hl, hc⟩
  · exact Or.inr rfl
  · exact Or.inl ((mem_pieces hl).2 c hc)

/-- Only the text of a mapped address has a dot. -/
theorem dot_mem_text_iff (ip : Ipv6Addr) : '.' ∈ ip.text ↔ ip.toIpv4Mapped ≠ none := by
  cases hMapped : ip.toIpv4Mapped with
  | some ipv4 => simp [text, hMapped, ipv4.dot_mem_text]
  | none =>
      have hChunk (chunk : List UInt16) : '.' ∉ subslice chunk := by
        intro h
        rcases subslice_chars h with hAlphanum | hColon
        · exact absurd hAlphanum (by decide)
        · exact absurd hColon (by decide)
      simp only [text, hMapped]
      split_ifs <;> simp [hChunk]

/-- No two addresses of sixteen octets have the same text either. -/
theorem text_injective : Function.Injective text := by
  intro ip ip' h
  have hIff := dot_mem_text_iff ip
  rw [h, dot_mem_text_iff ip'] at hIff
  cases hMapped : ip.toIpv4Mapped with
  | none =>
      have hMapped' : ip'.toIpv4Mapped = none := by simpa [hMapped] using hIff
      exact segments_injective (text_segments hMapped hMapped' h)
  | some ipv4 =>
      obtain ⟨ipv4', hMapped'⟩ := Option.ne_none_iff_exists'.mp (hIff.mpr (by simp [hMapped]))
      simp only [text, hMapped, hMapped', List.append_cancel_left_eq] at h
      apply Ipv6Addr.ext
      rw [toIpv4Mapped_eq_some hMapped, toIpv4Mapped_eq_some hMapped', Ipv4Addr.text_injective h]

end Ipv6Addr

namespace Ipv6Addr

theorem colon_mem_text (ip : Ipv6Addr) : ':' ∈ ip.text := by
  cases hMapped : ip.toIpv4Mapped with
  | some ipv4 => simp [text, hMapped]
  | none =>
      have hLength := ip.segments_length
      simp only [text, hMapped]
      split_ifs
      · simp
      · obtain ⟨first, second, rest, hSegments⟩ :
            ∃ first second rest, ip.segments = first :: second :: rest := by
          match ip.segments, hLength with
          | first :: second :: rest, _ => exact ⟨first, second, rest, rfl⟩
        simp [hSegments, subslice, List.intercalate_cons_cons]

theorem text_chars {ip : Ipv6Addr} {c : Char} (h : c ∈ ip.text) :
    c.isAlphanum = true ∨ c = ':' ∨ c = '.' := by
  have hDigit {c : Char} (h : c.isDigit = true) : c.isAlphanum = true := by
    rw [Char.isAlphanum, h, Bool.or_true]
  cases hMapped : ip.toIpv4Mapped with
  | some ipv4 =>
      simp only [text, hMapped, List.mem_append, List.mem_cons, List.not_mem_nil, or_false] at h
      rcases h with (rfl | rfl | rfl | rfl | rfl | rfl | rfl) | h
      any_goals decide
      rcases ipv4.text_chars h with h | h
      · exact Or.inl (hDigit h)
      · exact Or.inr (Or.inr h)
  | none =>
      have hChunk {chunk : List UInt16} (h : c ∈ subslice chunk) :
          c.isAlphanum = true ∨ c = ':' ∨ c = '.' :=
        (subslice_chars h).imp_right Or.inl
      simp only [text, hMapped] at h
      split_ifs at h
      · simp only [List.mem_append, List.mem_cons, List.not_mem_nil, or_false] at h
        rcases h with (h | rfl | rfl) | h
        · exact hChunk h
        · decide
        · decide
        · exact hChunk h
      · exact hChunk h

end Ipv6Addr

namespace IpAddr

/-- `{}` of an address, which does not say of which family it is. -/
def text : IpAddr → Str
  | .v4 ip => ip.text
  | .v6 ip => ip.text

theorem text_chars {ip : IpAddr} {c : Char} (h : c ∈ ip.text) :
    c.isAlphanum = true ∨ c = ':' ∨ c = '.' := by
  cases ip with
  | v4 ip =>
      rcases Ipv4Addr.text_chars h with hDigit | hDot
      · rw [Char.isAlphanum, hDigit, Bool.or_true]
        exact Or.inl rfl
      · exact Or.inr (Or.inr hDot)
  | v6 ip => exact Ipv6Addr.text_chars h

/-- Each segment of a chunk takes five characters, but one of them four. -/
theorem subslice_length (chunk : List UInt16) :
    (Ipv6Addr.subslice chunk).length ≤ 5 * chunk.length - 1 := by
  have hSum : ((chunk.map fun segment => Str.hex segment.toNat).map fun l => l.length + 1).sum ≤
      5 * chunk.length := by
    induction chunk with
    | nil => exact Nat.le_refl 0
    | cons segment chunk ih =>
        have hHex := Str.hex_length_le (n := segment.toNat) (k := 4) (by decide) segment.toNat_lt
        rw [List.map_cons, List.map_cons, List.sum_cons, List.length_cons]
        omega
  rcases List.eq_nil_or_concat chunk with rfl | ⟨_, _, hConcat⟩
  · exact Nat.le_refl 0
  · have hNil : chunk.map (fun segment => Str.hex segment.toNat) ≠ [] := by simp [hConcat]
    have hJoined := @Str.intercalate_length ':' _ hNil
    rw [Ipv6Addr.subslice]
    omega

/-- Eight segments of four digits make the longest text. -/
theorem text_length_le (ip : IpAddr) : ip.text.length ≤ 39 := by
  have hV4 (ip : Ipv4Addr) : ip.text.length ≤ 16 := by
    refine Str.intercalate_length_le '.' (k := 3) fun l hl => ?_
    obtain ⟨b, _, rfl⟩ := List.mem_map.mp hl
    exact Str.decimal_length_le (by decide) (Nat.lt_trans b.toNat_lt (by decide))
  cases ip with
  | v4 ip => exact Nat.le_trans (hV4 ip) (by decide)
  | v6 ip =>
      have hSegments := ip.segments_length
      rw [text, Ipv6Addr.text]
      split
      · rename_i ipv4 _
        have hText := hV4 ipv4
        rw [List.length_append]
        simp only [List.length_cons, List.length_nil]
        omega
      · dsimp only
        split_ifs with hZeroes
        · obtain ⟨before, after, hRun, hStart⟩ := Ipv6Addr.zeroes_zeroRun ip.segments
          have hLength := congrArg List.length hRun
          simp only [List.length_append, List.length_replicate] at hLength
          have hLeft := subslice_length (ip.segments.take (Ipv6Addr.zeroes ip.segments).start)
          have hRight := subslice_length (ip.segments.drop
            ((Ipv6Addr.zeroes ip.segments).start + (Ipv6Addr.zeroes ip.segments).len))
          rw [List.length_take] at hLeft
          rw [List.length_drop] at hRight
          simp only [List.length_append, List.length_cons, List.length_nil]
          omega
        · exact Nat.le_trans (subslice_length _) (by omega)

/-- The text of an address is short. -/
theorem text_length (ip : IpAddr) : ip.text.length ≤ 82 :=
  Nat.le_trans (text_length_le ip) (by decide)

/-- Addresses of either family have different texts. -/
theorem text_injective : Function.Injective text := by
  have hApart (ip : Ipv4Addr) (ip' : Ipv6Addr) : ip.text ≠ ip'.text := by
    intro h
    rcases Ipv4Addr.text_chars (h ▸ ip'.colon_mem_text) with hDigit | hDot
    · exact absurd hDigit (by decide)
    · exact absurd hDot (by decide)
  intro ip ip' h
  cases ip with
  | v4 a =>
      cases ip' with
      | v4 b => rw [Ipv4Addr.text_injective h]
      | v6 b => exact (hApart a b h).elim
  | v6 a =>
      cases ip' with
      | v4 b => exact (hApart b a h.symm).elim
      | v6 b => rw [Ipv6Addr.text_injective h]

end IpAddr

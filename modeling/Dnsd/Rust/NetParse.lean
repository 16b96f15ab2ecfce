import Dnsd.Rust.Format
import Dnsd.Rust.Net
import Mathlib.Algebra.Order.BigOperators.Group.List
import Mathlib.Algebra.Order.Ring.Nat

/-! Numbers and internet addresses from text, as `FromStr` reads them. A reader
takes a prefix of the text and leaves the rest; a failure takes nothing. -/

namespace Str

/-- The value of a digit in a base of at most 16. -/
def digitValue (base : Nat) (c : Char) : Option Nat :=
  let value :=
    if c.isDigit then c.toNat - '0'.toNat
    else if 'a' ≤ c ∧ c ≤ 'f' then c.toNat - 'a'.toNat + 10
    else if 'A' ≤ c ∧ c ≤ 'F' then c.toNat - 'A'.toNat + 10
    else base
  if value < base then some value else none

/-- The number that some digits denote; `none` without a digit or with another
character. -/
def number (base : Nat) (digits : Str) : Option Nat :=
  if digits.isEmpty then none
  else digits.foldl (fun n c => n.bind fun n => (digitValue base c).map (base * n + ·)) (some 0)

/-- `str::parse` of an unsigned type with values below `limit`. -/
def parseUnsigned (limit : Nat) (s : Str) : Option Nat :=
  let digits := match s with
    | '+' :: digits => digits
    | digits => digits
  (number 10 digits).filter (· < limit)

/-- `str::parse` of a signed type with values from `-half` up to below `half`. -/
def parseSigned (half : Nat) (s : Str) : Option Int :=
  match s with
  | '-' :: digits => ((number 10 digits).filter (· ≤ half)).map fun n : Nat => -(n : Int)
  | digits => (parseUnsigned half digits).map Int.ofNat

theorem number_concat {base : Nat} {digits : Str} {n : Nat} (h : number base digits = some n) (c : Char) :
    number base (digits ++ [c]) = (digitValue base c).map (base * n + ·) := by
  have hNonempty : digits.isEmpty = false := by
    cases digits with
    | nil => cases h
    | cons d digits => rfl
  rw [number, hNonempty, if_neg (by simp)] at h
  rw [number, if_neg (by simp), List.foldl_append, h]
  rfl

theorem digitValue_digitChar {d : Nat} (h : d < 10) : digitValue 10 (Nat.digitChar d) = some d := by
  have hAll : ∀ d : Fin 10, digitValue 10 (Nat.digitChar d) = some d.val := by decide
  exact hAll ⟨d, h⟩

theorem number_decimal (n : Nat) : number 10 (decimal n) = some n := by
  induction n using Nat.strongRecOn with
  | ind n ih =>
      rw [decimal, Nat.toDigits_eq_if (by decide)]
      split_ifs with hSmall
      · simp [number, digitValue_digitChar hSmall]
      · have hInit := ih (n / 10) (Nat.div_lt_self (by omega) (by decide))
        rw [decimal] at hInit
        rw [number_concat hInit, digitValue_digitChar (Nat.mod_lt n (by decide)), Option.map_some,
          Nat.div_add_mod]

theorem parseUnsigned_decimal {limit n : Nat} (h : n < limit) :
    parseUnsigned limit (decimal n) = some n := by
  rw [parseUnsigned, number_decimal]
  · simp [h]
  · intro digits hPlus
    have hDigit : '+'.isDigit = true := decimal_isDigit (n := n) (by simp [hPlus])
    cases hDigit

theorem parseSigned_signed {half : Nat} {n : Int} (hLow : -(half : Int) ≤ n) (hHigh : n < half) :
    parseSigned half (signed n) = some n := by
  rw [signed]
  split_ifs with hNegative
  · have hLe : n.natAbs ≤ half := by omega
    rw [parseSigned, number_decimal, Option.filter_some, if_pos (by simpa using hLe), Option.map_some]
    exact congrArg some (by omega)
  · have hDigits : parseSigned half (decimal n.natAbs) =
        (parseUnsigned half (decimal n.natAbs)).map Int.ofNat := by
      rw [parseSigned]
      intro digits hMinus
      have hDigit : '-'.isDigit = true := decimal_isDigit (n := n.natAbs) (by simp [hMinus])
      cases hDigit
    rw [hDigits, parseUnsigned_decimal (by omega), Option.map_some]
    exact congrArg some (by change (n.natAbs : Int) = n; omega)

/-- `str::lines`: a line ends with a newline, which a carriage return may precede. -/
def lines (s : Str) : List Str :=
  let pieces := s.splitOn '\n'
  let ended := pieces.dropLast.map fun line => if line.getLast? = some '\r' then line.dropLast else line
  match pieces.getLast? with
  | none | some [] => ended
  | some rest => ended ++ [rest]

/-- `str::split_whitespace`: the words between white space, none of them empty. -/
def splitWhitespace (s : Str) : List Str :=
  (s.splitOnP Unicode.whiteSpace).filter (· ≠ [])

/-- The tokens and the spaces between them fit into the text. -/
theorem splitWhitespace_length (s : Str) :
    ((splitWhitespace s).map fun t => t.length + 1).sum ≤ s.length + 1 := by
  have hPieces : ((s.splitOnP Unicode.whiteSpace).map fun t => t.length + 1).sum = s.length + 1 := by
    induction s with
    | nil => rfl
    | cons c s ih =>
        rw [List.splitOnP_cons_eq_if_modifyHead]
        split_ifs
        · rw [List.map_cons, List.sum_cons, ih, List.length_nil, List.length_cons]
          omega
        · obtain ⟨first, rest, hSplit⟩ :=
            List.exists_cons_of_ne_nil (List.splitOnP_ne_nil Unicode.whiteSpace s)
          rw [hSplit, List.map_cons, List.sum_cons] at ih
          rw [hSplit, List.modifyHead_cons, List.map_cons, List.sum_cons, List.length_cons,
            List.length_cons]
          omega
  rw [← hPieces]
  exact (List.Sublist.map _ List.filter_sublist).sum_le_sum fun _ _ => Nat.zero_le _

/-- A number of at most `maxDigits` digits and its rest. -/
def readNumber (base maxDigits limit : Nat) (allowZeroPrefix : Bool) (s : Str) :
    Option (Nat × Str) :=
  let digits := s.takeWhile fun c => (digitValue base c).isSome
  if maxDigits < digits.length then none
  else if !allowZeroPrefix && digits.head? = some '0' && 1 < digits.length then none
  else ((number base digits).filter (· < limit)).map fun n => (n, s.drop digits.length)

/-- One given character. -/
def readChar (c : Char) : Str → Option Str
  | d :: rest => if d = c then some rest else none
  | [] => none

end Str

namespace Ipv4Addr

/-- Four decimal octets with dots between them, each of at most three digits and without a
leading zero. -/
def read (s : Str) : Option (Ipv4Addr × Str) := do
  let (a, s) ← Str.readNumber 10 3 256 false s
  let s ← Str.readChar '.' s
  let (b, s) ← Str.readNumber 10 3 256 false s
  let s ← Str.readChar '.' s
  let (c, s) ← Str.readNumber 10 3 256 false s
  let s ← Str.readChar '.' s
  let (d, s) ← Str.readNumber 10 3 256 false s
  some (⟨UInt8.ofNat a, UInt8.ofNat b, UInt8.ofNat c, UInt8.ofNat d⟩, s)

/-- `str::parse::<Ipv4Addr>`. -/
def parse (s : Str) : Option Ipv4Addr :=
  match read s with
  | some (ip, []) => some ip
  | _ => none

end Ipv4Addr

namespace Ipv6Addr

/-- A separating colon in front of every group but the first. -/
def readSeparator (i : Nat) (s : Str) : Option Str := if i = 0 then some s else Str.readChar ':' s

/-- Up to `left` groups, of which `i` have been read, as octets. A trailing IPv4
address takes the place of two groups; the flag tells of one. -/
def readGroups : Nat → Nat → Str → Bytes × Bool × Str
  | 0, _, s => ([], false, s)
  | left + 1, i, s =>
      match (if 0 < left then (readSeparator i s).bind Ipv4Addr.read else none) with
      | some (ip, rest) => (ip.octets, true, rest)
      | none =>
          match (readSeparator i s).bind (Str.readNumber 16 4 65536 true) with
          | some (group, rest) =>
              let (octets, ipv4, rest) := readGroups left (i + 1) rest
              ((UInt16.ofNat group).toBeBytes ++ octets, ipv4, rest)
          | none => ([], false, s)

/-- The groups in front of `::` and behind it, zeros in between. -/
def read (s : Str) : Option (Bytes × Str) :=
  let (head, headIpv4, s) := readGroups 8 0 s
  if head.length = 16 then some (head, s)
  else if headIpv4 then none
  else do
    let s ← Str.readChar ':' s
    let s ← Str.readChar ':' s
    let (tail, _, s) := readGroups (8 - (head.length / 2 + 1)) 0 s
    some (head ++ List.replicate (16 - head.length - tail.length) 0 ++ tail, s)

/-- `str::parse::<Ipv6Addr>`. -/
def parse (s : Str) : Option Ipv6Addr :=
  match read s with
  | some (octets, []) => if h : octets.length = 16 then some ⟨octets, h⟩ else none
  | _ => none

end Ipv6Addr

namespace SocketAddr

/-- A colon and the port; zeros in front of it are allowed. -/
def readPort (s : Str) : Option (UInt16 × Str) := do
  let s ← Str.readChar ':' s
  let (port, s) ← Str.readNumber 10 s.length 65536 true s
  some (UInt16.ofNat port, s)

/-- The scope behind an IPv6 address, if there is one. -/
def skipScope (s : Str) : Str :=
  match (Str.readChar '%' s).bind fun s => Str.readNumber 10 s.length (2 ^ 32) true s with
  | some (_, rest) => rest
  | none => s

/-- An IPv4 socket address at the front of a text, with what is behind it. -/
def readV4 (s : Str) : Option (SocketAddr × Str) := do
  let (ip, s) ← Ipv4Addr.read s
  let (port, s) ← readPort s
  some (⟨.v4 ip, port⟩, s)

/-- An IPv6 socket address at the front of a text, in brackets, with what is behind it. A
scope is read and dropped. -/
def readV6 (s : Str) : Option (SocketAddr × Str) := do
  let s ← Str.readChar '[' s
  let (octets, s) ← Ipv6Addr.read s
  let s ← Str.readChar ']' (skipScope s)
  let (port, s) ← readPort s
  if h : octets.length = 16 then some (⟨.v6 ⟨octets, h⟩, port⟩, s) else none

/-- `str::parse::<SocketAddr>`. -/
def parse (s : Str) : Option SocketAddr :=
  match (readV4 s).orElse fun _ => readV6 s with
  | some (addr, []) => some addr
  | _ => none

end SocketAddr

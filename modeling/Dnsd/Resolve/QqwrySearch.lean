import Dnsd.Resolve.QqwrySafety
import Mathlib.Data.Nat.Find

/-! Which record a lookup in a well-formed IPv4 database reads. The search runs over
the numbers between two byte offsets, as if they were numbers of entries. -/

namespace Dnsd.Resolve

open Bisect

namespace QQwry

/-- The header gives the offsets of a sorted index of `n` entries, which are in the
data together with their records. -/
structure Indexed (db : QQwry) (n : Nat) : Prop where
  nonempty : 1 ≤ n
  last : db.lastIdx.toNat = db.firstIdx.toNat + 7 * (n - 1)
  inside : db.offset n ≤ db.data.length
  ascending : ∀ i j, i < j → j < n → db.startIp i < db.startIp j
  records : ∀ i, i < n → db.Readable (db.recordOffset i)

/-- The last entry that starts at the address or below it. -/
structure Range (db : QQwry) (n : Nat) (ip : UInt32) (i : Nat) : Prop where
  lt : i < n
  startsBy : db.startsBy ip i = true
  last : ∀ j, j < n → db.startsBy ip j = true → j ≤ i

/-- The lookup reads the record of the entry, and returns its texts. -/
def Reads (gbk : Bytes → Str) (db : QQwry) (ip : Ipv4Addr) (i : Nat) : Prop :=
  db.search ip.toU32 db.firstIdx.toNat db.lastIdx.toNat none = .ok (some i) ∧
    ∃ depth texts, db.countryArea gbk depth (db.recordOffset i) = some (.ok texts) ∧
      db.lookup gbk depth ip = some (.ok (some texts))

/-- An address is looked up in the entry that it belongs to; one below all of them has none. -/
def SearchLaw (gbk : Bytes → Str) (db : QQwry) (n : Nat) (ip : Ipv4Addr) : Prop :=
  (∀ i, Range db n ip.toU32 i → Reads gbk db ip i) ∧
    (ip.toU32 < db.startIp 0 → ∃ depth, db.lookup gbk depth ip = some (.ok none))

/-- To the right of an entry that starts at the address or below it, else to the left. -/
def towards (db : QQwry) (n : Nat) (ip : UInt32) (m : Nat) : Bool :=
  decide (m < n) && db.startsBy ip m

/-- What keeps the search on the way to an entry: places behind the index do not start at
the address or below it, and the entry has a number that is looked at. -/
structure OnTrack (db : QQwry) (n : Nat) (ip : UInt32) : Prop where
  behind : ∀ m, Visits (db.towards n ip) db.firstIdx.toNat (db.lastIdx.toNat + 1) m → n ≤ m →
    db.offset m < 2 ^ 32 ∧ ip < db.startIp m
  entry : ∀ i, Range db n ip i → db.firstIdx.toNat ≤ i ∧ db.offset i + 4 < 2 ^ 32

variable {gbk : Bytes → Str} {db : QQwry} {n i m : Nat} {ip : UInt32}

theorem startsBy_iff : db.startsBy ip m = true ↔ db.startIp m ≤ ip := decide_eq_true_iff

theorem startsBy_eq_false_iff : db.startsBy ip m = false ↔ ip < db.startIp m := by
  rw [startsBy, decide_eq_false_iff_not, UInt32.not_le]

namespace Indexed

variable (h : Indexed db n)
include h

theorem le_last (hm : m < n) : m ≤ db.lastIdx.toNat ∧ db.offset m ≤ db.lastIdx.toNat := by
  rw [h.last, offset]
  omega

theorem fits (hm : m < n) : db.offset m < 2 ^ 32 :=
  (h.le_last hm).2.trans_lt db.lastIdx.toNat_lt

theorem entry_inside (hm : m < n) : db.offset m + 7 ≤ db.data.length := by
  have hInside := h.inside
  rw [offset] at hInside ⊢
  omega

theorem startsBy_of_le {j : Nat} (hLe : m ≤ j) (hj : j < n) (hStarts : db.startsBy ip j = true) :
    db.startsBy ip m = true := by
  rcases Nat.eq_or_lt_of_le hLe with rfl | hLess
  · exact hStarts
  · rw [startsBy_iff, UInt32.le_iff_toNat_le] at hStarts ⊢
    have hAscending := UInt32.lt_iff_toNat_lt.mp (h.ascending m j hLess hj)
    omega

/-- An address at the first start or above it belongs to an entry. -/
theorem exists_range (hFirst : db.startIp 0 ≤ ip) : ∃ i, Range db n ip i := by
  have hPositive := h.nonempty
  have hSpec := Nat.findGreatest_spec (P := fun i => db.startsBy ip i = true) (Nat.zero_le (n - 1))
    (startsBy_iff.mpr hFirst)
  have hLe := Nat.findGreatest_le (P := fun i => db.startsBy ip i = true) (n - 1)
  exact ⟨_, by omega, hSpec, fun j hj hStarts => Nat.le_findGreatest (by omega) hStarts⟩

/-- For an address in an entry, the way is that to a cut behind it. -/
theorem towards_range (hRange : Range db n ip i) : db.towards n ip = fun m => decide (m ≤ i) := by
  funext m
  rw [towards, Bool.eq_iff_iff, Bool.and_eq_true, decide_eq_true_iff, decide_eq_true_iff]
  constructor
  · exact fun ⟨hm, hStarts⟩ => hRange.last m hm hStarts
  · exact fun hLe => ⟨hLe.trans_lt hRange.lt, h.startsBy_of_le hLe hRange.lt hRange.startsBy⟩

theorem towards_below (hBelow : ip < db.startIp 0) : db.towards n ip = fun _ => false := by
  funext m
  rw [towards, Bool.and_eq_false_iff, decide_eq_false_iff_not]
  by_cases hm : m < n
  · right
    by_contra hStarts
    have hFirst := h.startsBy_of_le (Nat.zero_le m) hm (by simpa using hStarts)
    rw [startsBy_eq_false_iff.mpr hBelow] at hFirst
    cases hFirst
  · exact Or.inl hm

end Indexed

/-- The two ways to go on differ behind the index alone. -/
theorem towards_eq_startsBy (hm : m < n) : db.towards n ip m = db.startsBy ip m := by
  rw [towards, decide_eq_true hm, Bool.true_and]

theorem towards_of_le (hm : n ≤ m) : db.towards n ip m = false := by
  rw [towards, decide_eq_false (by omega), Bool.false_and]

theorem OnTrack.agrees (h : OnTrack db n ip)
    (hVisits : Visits (db.towards n ip) db.firstIdx.toNat (db.lastIdx.toNat + 1) m) :
    db.towards n ip m = db.startsBy ip m := by
  rcases Nat.lt_or_ge m n with hm | hm
  · exact towards_eq_startsBy hm
  · rw [towards_of_le hm, startsBy_eq_false_iff.mpr (h.behind m hVisits hm).2]

theorem OnTrack.looks_iff (h : OnTrack db n ip) :
    db.Looks ip m ↔ Visits (db.towards n ip) db.firstIdx.toNat (db.lastIdx.toNat + 1) m :=
  visits_congr fun _ => h.agrees

/-- On the way, the search of the source finds what halving towards the entry finds. -/
theorem OnTrack.search {data : Bytes} (hLoad : load data = .ok db) (hIndexed : Indexed db n)
    (h : OnTrack db n ip) : db.search ip db.firstIdx.toNat db.lastIdx.toNat none =
      .ok (find (db.startsBy ip) db.firstIdx.toNat (db.lastIdx.toNat + 1) none) := by
  rcases search_cases hLoad ip with ⟨m, hLooks, hOutside, -⟩ | ⟨-, hSearch⟩
  · have hFits : db.offset m < 2 ^ 32 := by
      rcases Nat.lt_or_ge m n with hm | hm
      · exact hIndexed.fits hm
      · exact (h.behind m (h.looks_iff.mp hLooks) hm).1
    omega
  · exact hSearch

theorem OnTrack.stops (hIndexed : Indexed db n) (h : OnTrack db n ip) (hRange : Range db n ip i) :
    db.Stops ip i := by
  have hCut := hIndexed.towards_range hRange
  refine ⟨h.looks_iff.mpr ?_, hRange.startsBy, fun m hLooks hStarts => ?_⟩
  · rw [hCut]
    exact visits_cut (h.entry i hRange).1 (Nat.lt_succ_of_le (hIndexed.le_last hRange.lt).1)
  · have hVisits := h.looks_iff.mp hLooks
    have hTowards := (h.agrees hVisits).trans hStarts
    rw [hCut] at hTowards
    exact of_decide_eq_true hTowards

theorem OnTrack.law {data : Bytes} (hLoad : load data = .ok db) (hIndexed : Indexed db n)
    {ip : Ipv4Addr} (h : OnTrack db n ip.toU32) : SearchLaw gbk db n ip := by
  have hSearch := h.search hLoad hIndexed
  constructor
  · intro i hRange
    rw [find_eq_some_iff.mpr (h.stops hIndexed hRange)] at hSearch
    obtain ⟨depth, texts, hTexts⟩ := (@countryArea_ok_iff gbk _ _).mpr (hIndexed.records i hRange.lt)
    refine ⟨hSearch, depth, texts, hTexts, ?_⟩
    exact (lookup_entry_ok_iff hSearch (hIndexed.fits hRange.lt)).mpr ⟨(h.entry i hRange).2,
      hIndexed.entry_inside hRange.lt, texts, hTexts, rfl⟩
  · intro hBelow
    have hNone : find (db.startsBy ip.toU32) db.firstIdx.toNat (db.lastIdx.toNat + 1) none = none := by
      refine find_eq_none_iff.mpr fun m hLooks => ?_
      rw [← h.agrees (h.looks_iff.mp hLooks), hIndexed.towards_below hBelow]
    rw [hNone] at hSearch
    exact ⟨0, by rw [lookup, hSearch]⟩

/-- Where no place behind the index is taken, the search is on its way. -/
theorem onTrack_of_refused (hFits : ∀ m, db.Looks ip m → db.offset m < 2 ^ 32)
    (hRefused : ∀ m, db.Looks ip m → n ≤ m → db.startsBy ip m = false)
    (hEntry : ∀ i, Range db n ip i → db.firstIdx.toNat ≤ i ∧ db.offset i + 4 < 2 ^ 32) :
    OnTrack db n ip := by
  have hAgrees (m : Nat) (hLooks : db.Looks ip m) : db.startsBy ip m = db.towards n ip m := by
    rcases Nat.lt_or_ge m n with hm | hm
    · exact (towards_eq_startsBy hm).symm
    · rw [hRefused m hLooks hm, towards_of_le hm]
  refine ⟨fun m hVisits hm => ?_, hEntry⟩
  have hLooks : db.Looks ip m := (visits_congr hAgrees).mp hVisits
  exact ⟨hFits m hLooks, startsBy_eq_false_iff.mp (hRefused m hLooks hm)⟩

theorem Reads.onTrack {data : Bytes} (hLoad : load data = .ok db) (hIndexed : Indexed db n)
    {ip : Ipv4Addr} (hRange : Range db n ip.toU32 i) (h : Reads gbk db ip i) : OnTrack db n ip.toU32 := by
  obtain ⟨hFound, depth, texts, -, hLookup⟩ := h
  rcases search_cases hLoad ip.toU32 with ⟨m, -, -, hPanicked⟩ | ⟨hFits, hSearch⟩
  · rw [hPanicked] at hFound
    cases hFound
  · rw [hFound, Exec.ok.injEq] at hSearch
    have hStops : db.Stops ip.toU32 i := find_eq_some_iff.mp hSearch.symm
    refine onTrack_of_refused hFits (fun m hLooks hm => ?_) fun j hRange' => ?_
    · by_contra hStarts
      have hLe := hStops.last m hLooks (by simpa using hStarts)
      have hLt := hRange.lt
      omega
    · obtain rfl : j = i := Nat.le_antisymm (hRange.last j hRange'.lt hRange'.startsBy)
        (hRange'.last i hRange.lt hRange.startsBy)
      exact ⟨hStops.visits.bounds.1,
        ((lookup_entry_ok_iff hFound (hIndexed.fits hRange.lt)).mp hLookup).1⟩

theorem onTrack_of_none {data : Bytes} (hLoad : load data = .ok db) (hIndexed : Indexed db n)
    {ip : Ipv4Addr} (hBelow : ip.toU32 < db.startIp 0) {depth : Nat}
    (h : db.lookup gbk depth ip = some (.ok none)) : OnTrack db n ip.toU32 := by
  rcases search_cases hLoad ip.toU32 with ⟨m, -, -, hPanicked⟩ | ⟨hFits, hSearch⟩
  · rw [lookup, hPanicked] at h
    cases h
  · cases hFind : find (db.startsBy ip.toU32) db.firstIdx.toNat (db.lastIdx.toNat + 1) none with
    | none =>
        refine onTrack_of_refused hFits (fun m hLooks _ => find_eq_none_iff.mp hFind m hLooks)
          fun i hRange => ?_
        have hFirst := hIndexed.startsBy_of_le (Nat.zero_le i) hRange.lt hRange.startsBy
        rw [startsBy_eq_false_iff.mpr hBelow] at hFirst
        cases hFirst
    | some j =>
        rw [hFind] at hSearch
        have hStops : db.Stops ip.toU32 j := find_eq_some_iff.mp hFind
        obtain ⟨-, -, texts, -, hNone⟩ :=
          (lookup_entry_ok_iff hSearch (hFits j hStops.visits)).mp h
        cases hNone

/-- A well-formed database is searched as it should be exactly if the halving of the
numbers between the two offsets, on its way to the entry, meets no place behind the
index that starts at the address or below it, and the entry is among these numbers. -/
theorem searchLaw_iff {data : Bytes} (hLoad : load data = .ok db) (hIndexed : Indexed db n)
    (gbk : Bytes → Str) (ip : Ipv4Addr) : SearchLaw gbk db n ip ↔ OnTrack db n ip.toU32 := by
  refine ⟨fun hLaw => ?_, fun h => h.law hLoad hIndexed⟩
  by_cases hFirst : db.startIp 0 ≤ ip.toU32
  · obtain ⟨i, hRange⟩ := hIndexed.exists_range hFirst
    exact (hLaw.1 i hRange).onTrack hLoad hIndexed hRange
  · obtain ⟨depth, hLookup⟩ := hLaw.2 (UInt32.not_le.mp hFirst)
    exact onTrack_of_none hLoad hIndexed (UInt32.not_le.mp hFirst) hLookup

/-! ## Two files -/

theorem indexed_locations : Indexed locationDb 12 := by
  have hAscending : ∀ j < 12, ∀ i < j, locationDb.startIp i < locationDb.startIp j := by
    decide +kernel
  exact ⟨by decide, by decide, by decide, fun i j hLess hj => hAscending j hj i hLess, readable_locations⟩

theorem range_tenth : Range locationDb 12 tenth.toU32 10 := by
  have hLast : ∀ j < 12, locationDb.startsBy tenth.toU32 j = true → j ≤ 10 := by decide +kernel
  exact ⟨by decide, by decide +kernel, hLast⟩

/-- The places that are looked at behind the index are behind the file as well. -/
theorem searchLaw_tenth : load locations = .ok locationDb ∧ Indexed locationDb 12 ∧
    SearchLaw asciiText locationDb 12 tenth ∧
    ∃ depth, locationDb.lookup asciiText depth tenth =
      some (.ok (some ("CN".toList, "SH".toList))) := by
  have hLaw : SearchLaw asciiText locationDb 12 tenth := by
    refine (searchLaw_iff load_locations indexed_locations _ _).mpr ⟨fun m hVisits hm => ?_, fun i hRange => ?_⟩
    · have hWay := visits_tenth (by decide +kernel) hVisits
      rcases hWay with rfl | rfl | rfl | rfl | rfl | rfl
      · exact ⟨by decide, by decide +kernel⟩
      · exact ⟨by decide, by decide +kernel⟩
      · exact ⟨by decide, by decide +kernel⟩
      all_goals exact absurd hm (by decide)
    · obtain rfl : i = 10 := Nat.le_antisymm (range_tenth.last i hRange.lt hRange.startsBy)
        (hRange.last 10 range_tenth.lt range_tenth.startsBy)
      exact ⟨by decide, by decide⟩
  refine ⟨load_locations, indexed_locations, hLaw, ?_⟩
  obtain ⟨-, depth, texts, hTexts, hLookup⟩ := hLaw.1 10 range_tenth
  cases depth with
  | zero => cases hTexts
  | succ depth =>
      obtain rfl := Exec.ok.inj (Option.some.inj hTexts)
      exact ⟨depth + 1, hLookup⟩

/-- One entry behind the header, and its record. -/
def smallFile : Bytes :=
  [8, 0, 0, 0, 8, 0, 0, 0, 0, 0, 0, 0, 15, 0, 0, 3, 0x43, 0x4E, 0, 0x58, 0]

/-- The file as it is loaded. -/
def smallDb : QQwry := ⟨smallFile, 8, 8⟩

/-- A file with one entry: the search takes the offset 8 for a number, looks far behind
the file, and does not find the entry. -/
theorem not_searchLaw : ¬∀ (gbk : Bytes → Str) data db n ip, load data = .ok db → Indexed db n →
    SearchLaw gbk db n ip := by
  intro h
  have hRecord : smallDb.Readable 15 := by
    refine .text 15 3 (by decide) rfl (by decide) fun mode hMode hRedirect => ?_
    obtain rfl := Option.some.inj hMode
    exact absurd hRedirect (by decide)
  have hIndexed : Indexed smallDb 1 := by
    refine ⟨by decide, by decide, by decide, fun i j hi hj => by omega, fun i hi => ?_⟩
    obtain rfl : i = 0 := by omega
    exact hRecord
  have hRange : Range smallDb 1 Ipv4Addr.localhost.toU32 0 :=
    ⟨by decide, by decide, fun j hj _ => by omega⟩
  obtain ⟨hFound, -⟩ := (h (fun _ => []) smallFile smallDb 1 .localhost (by rfl) hIndexed).1 0 hRange
  -- the only number that is looked at is 8, as an entry far behind the data
  have hTurn : smallDb.search Ipv4Addr.localhost.toU32 8 (9 - 1) none = _ :=
    search_turn (by decide) (by decide) none
  rw [if_neg (by decide), if_neg (by decide)] at hTurn
  have hDone : smallDb.search Ipv4Addr.localhost.toU32 8 (8 - 1) none = .ok none :=
    search_empty (by decide) (by decide) none
  cases hFound.symm.trans (hTurn.trans hDone)

end QQwry

end Dnsd.Resolve

import Dnsd.Rust.Split
import Dnsd.Store.Audit

/-! What the last hash of the audit log is evidence of: the rows of a run, and any
others that verify and end in the same hash, hash the same messages, or SHA-256 has
been broken. -/

namespace Dnsd.Store

/-! ## Hexadecimal hashes -/

theorem hexByte_facts (b : UInt8) :
    Str.number 16 ((Str.hex b.toNat).leftpad 2 '0') = some b.toNat ∧
      ((Str.hex b.toNat).leftpad 2 '0').length = 2 ∧
      ∀ c ∈ (Str.hex b.toNat).leftpad 2 '0', c ∈ "0123456789abcdefABCDEF".toList := by
  have hAll : ∀ n : Fin 256, Str.number 16 ((Str.hex n.val).leftpad 2 '0') = some n.val ∧
      ((Str.hex n.val).leftpad 2 '0').length = 2 ∧
      ((Str.hex n.val).leftpad 2 '0').all (· ∈ "0123456789abcdefABCDEF".toList) = true := by
    decide +kernel
  obtain ⟨hNumber, hLength, hDigits⟩ := hAll ⟨b.toNat, b.toNat_lt⟩
  exact ⟨hNumber, hLength, fun c hc => of_decide_eq_true (List.all_eq_true.mp hDigits c hc)⟩

theorem hexEncode_length (bytes : Bytes) : (hexEncode bytes).length = 2 * bytes.length := by
  induction bytes with
  | nil => rfl
  | cons b bytes ih =>
      rw [hexEncode, List.flatMap_cons, List.length_append, (hexByte_facts b).2.1, ← hexEncode, ih,
        List.length_cons]
      omega

theorem hexEncode_injective : Function.Injective hexEncode := by
  intro bytes bytes' h
  induction bytes generalizing bytes' with
  | nil =>
      have hLength := congrArg List.length h
      rw [hexEncode_length, hexEncode_length, List.length_nil] at hLength
      exact (List.length_eq_zero_iff.mp (by omega)).symm
  | cons b bytes ih =>
      cases bytes' with
      | nil =>
          have hLength := congrArg List.length h
          rw [hexEncode_length, hexEncode_length, List.length_cons, List.length_nil] at hLength
          omega
      | cons b' bytes' =>
          rw [hexEncode, hexEncode, List.flatMap_cons, List.flatMap_cons] at h
          obtain ⟨hFirst, hRest⟩ := List.append_inj h
            ((hexByte_facts b).2.1.trans (hexByte_facts b').2.1.symm)
          have hNumber := congrArg (Str.number 16) hFirst
          rw [(hexByte_facts b).1, (hexByte_facts b').1, Option.some.injEq] at hNumber
          rw [UInt8.toNat_inj.mp hNumber, ih hRest]

theorem isHash_hexEncode {bytes : Bytes} (h : bytes.length = 32) : IsHash (hexEncode bytes) := by
  refine ⟨by rw [hexEncode_length, h], fun c hc => ?_⟩
  obtain ⟨b, -, hChar⟩ := List.mem_flatMap.mp hc
  exact (hexByte_facts b).2.2 c hChar

/-! ## Rows that verify -/

/-- What is hashed for a row: the previous hash that it names, and its fields. -/
def message (row : AuditRow) : Bytes := preimage row.prevHash row.toEntry

/-- The hash of the row is the one of its message. -/
def Hashes (sha256 : Bytes → Bytes) (row : AuditRow) : Prop :=
  row.entryHash = hexEncode (sha256 (message row))

/-- What a check of the table asks for. -/
structure Verifies (sha256 : Bytes → Bytes) (rows : List AuditRow) : Prop where
  chained : Chained rows
  hashes : ∀ row ∈ rows, Hashes sha256 row

variable {sha256 : Bytes → Bytes} {verifier : Str}

theorem Verifies.isHash (hSize : ∀ m, (sha256 m).length = 32) {rows : List AuditRow}
    (h : Verifies sha256 rows) : ∀ row ∈ rows, IsHash row.prevHash := by
  obtain ⟨hChained, hHashes⟩ := h
  induction rows using List.reverseRecOn with
  | nil => simp
  | append_singleton rows last ih =>
      obtain ⟨hFront, hBack⟩ := hChained.of_concat
      rw [List.forall_mem_append] at hHashes ⊢
      refine ⟨ih hFront hHashes.1, ?_⟩
      rw [List.forall_mem_singleton, hBack]
      rcases rows.eq_nil_or_concat with rfl | ⟨before, row, rfl⟩
      · rw [Chain.tip_nil]
        decide +kernel
      · rw [List.concat_eq_append] at hHashes ⊢
        rw [Chain.tip_concat, hHashes.1 row (by simp)]
        exact isHash_hexEncode (hSize _)

/-- The previous hash is what a message begins with. -/
theorem message_eq (row : AuditRow) : ∃ rest, message row = Str.bytes (row.prevHash ++ '|' :: rest) := by
  have hJoin : message row = Str.bytes (row.prevHash ++ ['|'] ++ ['|'].intercalate
      (Str.signed row.tsMs :: row.texts)) :=
    congrArg Str.bytes List.intercalate_cons_cons
  exact ⟨_, by rw [hJoin, List.append_assoc, List.singleton_append]⟩

theorem prevHash_of_message {row row' : AuditRow} (hHash : IsHash row.prevHash)
    (hHash' : IsHash row'.prevHash) (h : message row = message row') : row.prevHash = row'.prevHash := by
  obtain ⟨rest, hMessage⟩ := message_eq row
  obtain ⟨rest', hMessage'⟩ := message_eq row'
  rw [hMessage, hMessage'] at h
  have hSplit := congrArg (Str.splitOnce '|') (Str.bytes_injective h)
  rw [Str.splitOnce_append (bar_not_mem_hash hHash), Str.splitOnce_append (bar_not_mem_hash hHash')] at hSplit
  exact (Prod.mk.inj (Option.some.inj hSplit)).1

/-! ## The rows of a run -/

/-- All rows that are in the table or on their way have the hashes of their messages. -/
structure Hashed (sha256 : Bytes → Bytes) (s : Audit) : Prop where
  rows : ∀ row ∈ s.rows, Hashes sha256 row
  inserting : ∀ w ∈ s.writer, ∀ pending ∈ w.inserting, Hashes sha256 pending.row

theorem hashed_step {s s' : Audit} {a : Audit.Action} (h : Hashed sha256 s)
    (hStep : Audit.step sha256 verifier s a = some s') : Hashed sha256 s' := by
  cases a with
  | start available answered =>
      cases hStep
      refine ⟨h.rows, ?_⟩
      rintro w ⟨⟩ pending hPending
      cases hPending
  | lock e =>
      rw [Audit.step] at hStep
      split at hStep
      · rename_i w hWriter
        split_ifs at hStep
        · cases hStep
          exact h
        · cases hStep
          refine ⟨h.rows, ?_⟩
          rintro w' ⟨⟩ pending ⟨⟩
          rfl
      · cases hStep
  | commit =>
      rw [Audit.step] at hStep
      split at hStep
      · rename_i w hWriter
        split at hStep
        · rename_i row hPending
          have hRow := h.inserting w hWriter ⟨row, false⟩ hPending
          cases hStep
          refine ⟨List.forall_mem_append.mpr ⟨h.rows, List.forall_mem_singleton.mpr hRow⟩, ?_⟩
          rintro w' ⟨⟩ pending ⟨⟩
          exact hRow
        · cases hStep
      · cases hStep
  | reply ok =>
      rw [Audit.step] at hStep
      split at hStep
      · rename_i w hWriter
        split at hStep
        · rename_i pending hPending
          split_ifs at hStep
          cases hStep
          refine ⟨h.rows, ?_⟩
          rintro w' ⟨⟩ other hOther
          rw [Audit.reply] at hOther
          split_ifs at hOther <;> cases hOther
        · cases hStep
      · cases hStep

/-- The rows of a run in which no misled writer gets an insertion committed verify. -/
theorem verifies_run {actions : List Audit.Action} {s : Audit}
    (hTrusted : Runs.Meets (Audit.step sha256 verifier) Audit.Trusted {} actions)
    (hRun : Runs.run (Audit.step sha256 verifier) {} actions = some s) : Verifies sha256 s.rows := by
  have hSound : Audit.Sound {} := ⟨Chain.linked_nil, by simp⟩
  have hHashed : Hashed sha256 {} := ⟨by simp, by simp⟩
  have hStep (s : Audit) (a : Audit.Action) (s' : Audit) (h : s.Sound ∧ Hashed sha256 s)
      (hOk : s.Trusted a) (hNext : Audit.step sha256 verifier s a = some s') :
      s'.Sound ∧ Hashed sha256 s' :=
    ⟨Audit.sound_step h.1 hOk hNext, hashed_step h.2 hNext⟩
  obtain ⟨hEnd, hRows⟩ := hTrusted.invariant hStep ⟨hSound, hHashed⟩ hRun
  exact ⟨hEnd.chained, hRows.rows⟩

/-- Rows that verify and end in the last hash of a run hash the messages of the rows of
the run, or two different messages have one hash, or one has the hash of the origin. -/
theorem evidence_or_collision (hSize : ∀ m, (sha256 m).length = 32) {actions : List Audit.Action}
    {s : Audit} (hTrusted : Runs.Meets (Audit.step sha256 verifier) Audit.Trusted {} actions)
    (hRun : Runs.run (Audit.step sha256 verifier) {} actions = some s) {shown : List AuditRow}
    (hShown : Verifies sha256 shown)
    (hEnd : Chain.tip AuditRow.entryHash genesis shown = Chain.tip AuditRow.entryHash genesis s.rows) :
    shown.map message = s.rows.map message ∨
      (∃ row ∈ shown, ∃ row' ∈ s.rows, message row ≠ message row' ∧
        sha256 (message row) = sha256 (message row')) ∨
      ∃ row ∈ shown ++ s.rows, hexEncode (sha256 (message row)) = genesis := by
  have hRows := verifies_run hTrusted hRun
  have hBack (row : AuditRow) (hRow : row ∈ shown) (row' : AuditRow) (hRow' : row' ∈ s.rows)
      (h : message row = message row') : row.prevHash = row'.prevHash :=
    prevHash_of_message (hShown.isHash hSize row hRow) (hRows.isHash hSize row' hRow') h
  have hOwn : ∀ row ∈ shown ++ s.rows, row.entryHash = hexEncode (sha256 (message row)) :=
    List.forall_mem_append.mpr ⟨hShown.hashes, hRows.hashes⟩
  have hCases := @Chain.Linked.same_or_collision _ _ _ _ _ _ message (fun m => hexEncode (sha256 m)) shown
    s.rows hShown.chained hRows.chained hEnd hOwn hBack
  simpa only [hexEncode_injective.eq_iff] using hCases

/-- SHA-256 on the messages that are hashed below, and of its size on all. -/
def sizedDigest (m : Bytes) : Bytes :=
  if (Audit.digest m).length = 32 then Audit.digest m else List.replicate 32 0

theorem sizedDigest_length (m : Bytes) : (sizedDigest m).length = 32 := by
  rw [sizedDigest]
  split_ifs with hSize
  · exact hSize
  · exact List.length_replicate

/-- The rows of another instance, whose name is not hashed, in the place of two records. -/
theorem evidence_twoRecords : ∃ s s',
    Runs.run (Audit.step sizedDigest []) {} Audit.twoRecords = some s ∧
      Runs.run (Audit.step sizedDigest ['a']) {} Audit.twoRecords = some s' ∧ s'.rows ≠ s.rows ∧
      (s'.rows.map message = s.rows.map message ∨
        (∃ row ∈ s'.rows, ∃ row' ∈ s.rows, message row ≠ message row' ∧
          sizedDigest (message row) = sizedDigest (message row')) ∨
        ∃ row ∈ s'.rows ++ s.rows, hexEncode (sizedDigest (message row)) = genesis) := by
  have hRuns : ((Runs.run (Audit.step sizedDigest []) {} Audit.twoRecords).bind fun s =>
      (Runs.run (Audit.step sizedDigest ['a']) {} Audit.twoRecords).map fun s' =>
        (decide (Chain.tip AuditRow.entryHash genesis s'.rows =
          Chain.tip AuditRow.entryHash genesis s.rows), decide (s'.rows ≠ s.rows))) =
      some (true, true) := by
    decide +kernel
  obtain ⟨s, hRun, hOther⟩ := Option.bind_eq_some_iff.mp hRuns
  obtain ⟨s', hRun', hFacts⟩ := Option.map_eq_some_iff.mp hOther
  obtain ⟨hEnd, hNe⟩ := Prod.mk.inj hFacts
  have hShown : Verifies sizedDigest s'.rows := verifies_run (by decide +kernel) hRun'
  exact ⟨s, s', hRun, hRun', of_decide_eq_true hNe,
    evidence_or_collision sizedDigest_length (by decide +kernel) hRun hShown (of_decide_eq_true hEnd)⟩

end Dnsd.Store

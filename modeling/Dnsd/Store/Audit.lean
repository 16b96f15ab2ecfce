import Dnsd.Base.Chain
import Dnsd.Base.Runs
import Dnsd.Rust.Format

/-! The audit log: rows that are chained by their hashes, the writer that keeps
the last hash in memory, and the runs of both with restarts and failures. -/

namespace Dnsd.Store

/-- What a call of `record` is given, and the time it is made at. -/
structure Entry where
  tsMs : Int
  actor : Str
  action : Str
  target : Str
  detail : Str
  clientIp : Str
deriving DecidableEq

/-- A row of the audit log: an entry with the hash before it, its own, and who verifies
it. -/
structure AuditRow extends Entry where
  prevHash : Str
  entryHash : Str
  verifier : Str
deriving DecidableEq

/-- `GENESIS`: the hash in front of the first row. -/
def genesis : Str := List.replicate 64 '0'

/-- `{:02x}` of each byte, so that a hash of 32 bytes has 64 digits. -/
def hexEncode (bytes : Bytes) : Str := bytes.flatMap fun b => (Str.hex b.toNat).leftpad 2 '0'

/-- What is hashed: the previous hash and the fields, separated by bars. -/
def preimage (prev : Str) (e : Entry) : Bytes :=
  Str.bytes (['|'].intercalate
    [prev, Str.signed e.tsMs, e.actor, e.action, e.target, e.detail, e.clientIp])

/-- `compute_hash`, of the previous hash and the fields of the entry. -/
def computeHash (sha256 : Bytes → Bytes) (prev : Str) (e : Entry) : Str :=
  hexEncode (sha256 (preimage prev e))

/-- The first row points to `genesis`, each later one to the row before it. -/
abbrev Chained (rows : List AuditRow) : Prop :=
  Chain.Linked AuditRow.prevHash AuditRow.entryHash genesis rows

/-- The query at start-up; `none` if it fails. -/
def lastEntryHash (answered : Bool) (rows : List AuditRow) : Option Str :=
  if answered then some (Chain.tip AuditRow.entryHash genesis rows) else none

/-- The insertion that the holder of the lock waits for. -/
structure Inserting where
  row : AuditRow
  committed : Bool := false
deriving DecidableEq

/-- The writer of a process. The last field is not in the program: the database
has failed in a way that leaves `prevHash` behind the table. -/
structure AuditWriter where
  available : Bool
  prevHash : Str
  inserting : Option Inserting := none
  misled : Bool := false
deriving DecidableEq

/-- `AuditWriter::new`: where the query for the last hash fails, the writer begins anew
with the origin, though the table may have rows. -/
def AuditWriter.new (available answered : Bool) (rows : List AuditRow) : AuditWriter where
  available := available
  prevHash := (lastEntryHash (available && answered) rows).getD genesis
  misled := !(available && answered) && !rows.isEmpty

/-- The table in the order of the ids, and the writer of the process that runs. -/
structure Audit where
  rows : List AuditRow := []
  writer : Option AuditWriter := none
deriving DecidableEq

/-- `lock` is a call of `record` that gets the lock, `reply` the end of its
insertion; in between the database may commit. A process may start at any time,
whatever the one before it was doing. -/
inductive Audit.Action where
  | start (available answered : Bool)
  | lock (e : Entry)
  | commit
  | reply (ok : Bool)

namespace Audit

variable (sha256 : Bytes → Bytes) (verifier : Str)

/-- `record` under its lock: the row is made from the hash that the writer remembers. -/
def lock (w : AuditWriter) (e : Entry) : AuditWriter :=
  let entryHash := computeHash sha256 w.prevHash e
  { w with inserting := some ⟨{ e with prevHash := w.prevHash, entryHash, verifier }, false⟩ }

/-- The answer to the insertion. Only after a success does the writer remember the hash of
the row. -/
def reply (w : AuditWriter) (pending : Inserting) (ok : Bool) : AuditWriter :=
  if ok then { w with prevHash := pending.row.entryHash, inserting := none }
  else { w with inserting := none, misled := w.misled || pending.committed }

/-- The writer is started, takes an entry, gets the row committed, or gets an answer. The
answer can be an error though the row was committed. -/
def step (s : Audit) : Action → Option Audit
  | .start available answered => some { s with writer := some (.new available answered s.rows) }
  | .lock e =>
      match s.writer with
      | some w =>
          if !w.available then some s
          else if w.inserting.isSome then none
          else some { s with writer := some (lock sha256 verifier w e) }
      | none => none
  | .commit =>
      match s.writer with
      | some w =>
          match w.inserting with
          | some ⟨row, false⟩ =>
              some ⟨s.rows ++ [row], some { w with inserting := some ⟨row, true⟩ }⟩
          | _ => none
      | none => none
  | .reply ok =>
      match s.writer with
      | some w =>
          match w.inserting with
          -- the database says yes to what it has committed only
          | some pending =>
              if ok && !pending.committed then none
              else some { s with writer := some (reply w pending ok) }
          | none => none
      | none => none

variable {sha256 verifier}

/-! ## The chain -/

/-- The database commits nothing for a writer that it has misled. -/
def Trusted (s : Audit) : Action → Prop
  | .commit => ∀ w ∈ s.writer, w.misled = false
  | _ => True

instance (s : Audit) (a : Action) : Decidable (s.Trusted a) := by
  cases a <;> unfold Trusted <;> infer_instance

/-- How the memory of a writer agrees with the table. -/
def InStep (rows : List AuditRow) (w : AuditWriter) : Prop :=
  match w.inserting with
  | none => w.prevHash = Chain.tip AuditRow.entryHash genesis rows
  | some ⟨row, false⟩ =>
      row.prevHash = w.prevHash ∧ w.prevHash = Chain.tip AuditRow.entryHash genesis rows
  | some ⟨row, true⟩ => row.entryHash = Chain.tip AuditRow.entryHash genesis rows

/-- What steps keep in which no misled writer gets a row committed: the table is chained,
and the writer remembers its last hash. -/
structure Sound (s : Audit) : Prop where
  chained : Chained s.rows
  inStep : ∀ w ∈ s.writer, w.misled = false → InStep s.rows w

theorem inStep_new {rows : List AuditRow} {available answered : Bool}
    (hTrue : (AuditWriter.new available answered rows).misled = false) :
    InStep rows (.new available answered rows) := by
  cases hAnswer : available && answered with
  | true => simp [InStep, AuditWriter.new, lastEntryHash, hAnswer]
  | false =>
      have hEmpty : rows = [] := by simpa [AuditWriter.new, hAnswer] using hTrue
      simp [InStep, AuditWriter.new, lastEntryHash, hAnswer, hEmpty]

theorem Sound.lock {s : Audit} (h : Sound s) {w : AuditWriter} (hWriter : s.writer = some w)
    (hFree : w.inserting = none) (e : Entry) :
    Sound { s with writer := some (lock sha256 verifier w e) } := by
  refine ⟨h.chained, fun w' hw' hTrue => ?_⟩
  cases hw'
  have hOld := h.inStep w hWriter hTrue
  rw [InStep, hFree] at hOld
  exact ⟨rfl, hOld⟩

/-- The row joins the chain that the writer has seen the end of. -/
theorem Sound.commit {s : Audit} (h : Sound s) {w : AuditWriter} (hWriter : s.writer = some w)
    (hTrue : w.misled = false) {row : AuditRow} (hPending : w.inserting = some ⟨row, false⟩) :
    Sound ⟨s.rows ++ [row], some { w with inserting := some ⟨row, true⟩ }⟩ := by
  have hOld := h.inStep w hWriter hTrue
  rw [InStep, hPending] at hOld
  obtain ⟨hPrev, hTip⟩ := hOld
  refine ⟨h.chained.concat (hPrev.trans hTip), fun w' hw' _ => ?_⟩
  cases hw'
  exact (Chain.tip_concat s.rows row).symm

/-- A yes is for a committed row; a no misleads the writer if its row is. -/
theorem Sound.reply {s : Audit} (h : Sound s) {w : AuditWriter} (hWriter : s.writer = some w)
    {row : AuditRow} {committed ok : Bool} (hPending : w.inserting = some ⟨row, committed⟩)
    (hHonest : ok = true → committed = true) :
    Sound { s with writer := some (reply w ⟨row, committed⟩ ok) } := by
  refine ⟨h.chained, fun w' hw' hTrue => ?_⟩
  cases hw'
  rw [Audit.reply] at hTrue ⊢
  split_ifs at hTrue ⊢ with hOk
  · have hOld := h.inStep w hWriter hTrue
    rw [InStep, hPending, hHonest hOk] at hOld
    exact hOld
  · obtain ⟨hBefore, hCommitted⟩ := Bool.or_eq_false_iff.mp hTrue
    dsimp only at hCommitted
    have hOld := h.inStep w hWriter hBefore
    rw [InStep, hPending, hCommitted] at hOld
    exact hOld.2

theorem sound_step {s s' : Audit} {a : Action} (h : Sound s) (hTrusted : s.Trusted a)
    (hStep : step sha256 verifier s a = some s') : Sound s' := by
  cases a with
  | start available answered =>
      cases hStep
      refine ⟨h.chained, fun w hw hTrue => ?_⟩
      cases hw
      exact inStep_new hTrue
  | lock e =>
      rw [step] at hStep
      split at hStep
      · rename_i w hWriter
        split_ifs at hStep with hAvailable hBusy
        · cases hStep
          exact h
        · cases hStep
          exact h.lock hWriter (Option.not_isSome_iff_eq_none.mp hBusy) e
      · cases hStep
  | commit =>
      rw [step] at hStep
      split at hStep
      · rename_i w hWriter
        split at hStep
        · rename_i row hPending
          cases hStep
          exact h.commit hWriter (hTrusted w hWriter) hPending
        · cases hStep
      · cases hStep
  | reply ok =>
      rw [step] at hStep
      split at hStep
      · rename_i w hWriter
        split at hStep
        · rename_i pending hPending
          split_ifs at hStep with hLie
          cases hStep
          exact h.reply hWriter hPending (by simpa using hLie)
        · cases hStep
      · cases hStep

/-- In every run in which no misled writer gets an insertion committed, the rows
form one chain. -/
theorem chained_run {actions : List Action} {s : Audit}
    (hTrusted : Runs.Meets (step sha256 verifier) Trusted {} actions)
    (hRun : Runs.run (step sha256 verifier) {} actions = some s) : Chained s.rows := by
  have hStart : Sound {} := ⟨Chain.linked_nil, by simp⟩
  exact (hTrusted.invariant (fun _ _ _ => sound_step) hStart hRun).chained

/-- An entry for a login. -/
def login : Entry :=
  ⟨1000, "admin".toList, "login".toList, "self".toList, "{}".toList, "1.2.3.4".toList⟩

/-- An entry for a logout one millisecond later. -/
def logout : Entry := { login with tsMs := 1001, action := "logout".toList }

/-- The SHA-256 of the message of the login behind the origin. -/
def digestOfLogin : Bytes :=
  [0x87, 0xe6, 0x24, 0x87, 0x6d, 0xd0, 0xa0, 0x25, 0x51, 0x57, 0xc4, 0x3f, 0x85, 0xc0, 0x75, 0x11,
    0x41, 0x80, 0x9b, 0xe8, 0x9c, 0x52, 0x9c, 0x26, 0x96, 0xf8, 0xc7, 0xa9, 0x12, 0x0e, 0xb2, 0x49]

/-- SHA-256 on the messages that are hashed below. -/
def digest (message : Bytes) : Bytes :=
  if message = preimage genesis login then
    digestOfLogin
  else if message = preimage (hexEncode digestOfLogin) logout then
    [0x39, 0x57, 0x76, 0xee, 0xe6, 0xde, 0x7a, 0x25, 0x49, 0x3d, 0x0b, 0x16, 0xd3, 0x9b, 0x96, 0x96,
      0x15, 0xd3, 0xd0, 0x38, 0x58, 0x55, 0x6b, 0xb0, 0x6f, 0xc3, 0x52, 0x1d, 0x1d, 0xb5, 0x35, 0x9f]
  else if message = preimage genesis logout then
    [0x2f, 0x9b, 0x9d, 0x9f, 0xb5, 0x86, 0xd8, 0xaf, 0x6c, 0x69, 0xbc, 0x49, 0x58, 0xe1, 0x41, 0xe7,
      0x20, 0x4a, 0x9f, 0x40, 0xd2, 0x04, 0x5a, 0x43, 0xf3, 0xab, 0xec, 0xb5, 0x06, 0x17, 0xe5, 0x3b]
  else []

/-- Two records with a restart between them. -/
def twoRecords : List Action :=
  [.start true true, .lock login, .commit, .reply true, .start true true, .lock logout, .commit]

/-- A login is recorded, and a logout after a restart: the two rows are chained. -/
theorem chained_twoRecords : ∃ s, Runs.run (step digest []) {} twoRecords = some s ∧
    s.rows.length = 2 ∧ Chained s.rows := by
  have hRows : (Runs.run (step digest []) {} twoRecords).map (fun s => s.rows.length) = some 2 := by
    decide +kernel
  obtain ⟨s, hRun, hLength⟩ := Option.map_eq_some_iff.mp hRows
  exact ⟨s, hRun, hLength, chained_run (by decide +kernel) hRun⟩

/-- An insertion that is committed and reported as failed, and the next record. -/
def lostReply : List Action :=
  [.start true true, .lock login, .commit, .reply false, .lock logout, .commit]

/-- The row of the login is committed, and its reply is lost. The next row is chained to
the hash in front of it, so that the two fork. -/
theorem forked_lostReply : ¬∀ sha256 verifier actions s,
    Runs.run (step sha256 verifier) {} actions = some s → Chained s.rows := by
  intro hAll
  have hForked : (Runs.run (step digest []) {} lostReply).map (fun s => decide (Chained s.rows)) =
      some false := by decide +kernel
  obtain ⟨s, hRun, hFalse⟩ := Option.map_eq_some_iff.mp hForked
  exact of_decide_eq_false hFalse (hAll digest [] lostReply s hRun)

end Audit

/-! ## What a hash binds -/

/-- The fields of a row that may be any text. -/
def Entry.texts (e : Entry) : List Str := [e.actor, e.action, e.target, e.detail, e.clientIp]

/-- A text of 64 hexadecimal digits, in either case. -/
def IsHash (s : Str) : Prop :=
  s.length = 64 ∧ ∀ c ∈ s, c ∈ "0123456789abcdefABCDEF".toList

instance (s : Str) : Decidable (IsHash s) := @instDecidableAnd _ _ _ (List.decidableBAll _ s)

theorem preimage_texts (prev : Str) (e : Entry) :
    preimage prev e = Str.bytes (['|'].intercalate (prev :: Str.signed e.tsMs :: e.texts)) := rfl

theorem bar_not_mem_hash {s : Str} (h : IsHash s) : '|' ∉ s := fun hBar =>
  absurd (h.2 _ hBar) (by decide)

theorem bar_not_mem_signed (n : Int) : '|' ∉ Str.signed n := fun hBar => by
  rcases Str.signed_chars hBar with hMinus | hDigit
  · exact absurd hMinus (by decide)
  · exact absurd hDigit (by decide)

/-- A row shares what is hashed for it with no other exactly if none of its
texts has a bar in it. -/
theorem preimage_binds_iff {prev : Str} {e : Entry} (hPrev : IsHash prev) :
    (∀ prev' e', IsHash prev' → preimage prev' e' = preimage prev e → prev' = prev ∧ e' = e) ↔
      ∀ t ∈ e.texts, '|' ∉ t := by
  constructor
  · intro hBinds t ht hBar
    have hTwo : 2 ≤ e.texts.length := by simp [Entry.texts]
    obtain ⟨texts, hLength, hNe, hJoin⟩ := Str.exists_intercalate_eq hTwo ⟨t, ht, hBar⟩
    obtain ⟨actor, action, target, detail, clientIp, rfl⟩ :
        ∃ a b c d f, texts = [a, b, c, d, f] := by
      match texts, hLength with
      | [a, b, c, d, f], _ => exact ⟨a, b, c, d, f, rfl⟩
    let forged : Entry := ⟨e.tsMs, actor, action, target, detail, clientIp⟩
    have hSame : preimage prev forged = preimage prev e := by
      rw [preimage_texts, preimage_texts, List.intercalate_cons_cons, List.intercalate_cons_cons,
        List.intercalate_cons_of_ne_nil (by simp [Entry.texts]),
        List.intercalate_cons_of_ne_nil (by simp [Entry.texts])]
      exact congrArg (fun joined => Str.bytes (prev ++ _ ++ (_ ++ _ ++ joined))) hJoin
    exact hNe (congrArg Entry.texts (hBinds prev forged hPrev hSame).2)
  · intro hClean prev' e' hPrev' hSame
    rw [preimage_texts, preimage_texts] at hSame
    have hFields : prev' :: Str.signed e'.tsMs :: e'.texts = prev :: Str.signed e.tsMs :: e.texts :=
      Str.intercalate_unique (by simpa [bar_not_mem_hash hPrev, bar_not_mem_signed] using hClean)
        (by simp [Entry.texts]) (Str.bytes_injective hSame)
    simp only [Entry.texts, List.cons.injEq, and_true] at hFields
    obtain ⟨hHash, hTime, hActor, hAction, hTarget, hDetail, hClient⟩ := hFields
    have hTs := Str.signed_injective hTime
    obtain ⟨_, _, _, _, _, _⟩ := e
    obtain ⟨_, _, _, _, _, _⟩ := e'
    simp_all

/-- Nothing but the record of a login is hashed as it is. -/
theorem preimage_binds_login : IsHash genesis ∧ ∀ prev e, IsHash prev →
    preimage prev e = preimage genesis Audit.login → prev = genesis ∧ e = Audit.login :=
  ⟨by decide +kernel, (preimage_binds_iff (by decide +kernel)).mpr (by decide)⟩

/-- What is recorded for a new zone by the name of "lab|{}". -/
def zoneCreated : Entry :=
  ⟨1000, "api".toList, "zone.create".toList, "lab|\x7b\x7d".toList, "\x7b\x7d".toList,
    "10.0.0.7".toList⟩

/-- The same row with the end of its target moved to the detail. -/
def zoneRewritten : Entry :=
  { zoneCreated with target := "lab".toList, detail := "\x7b\x7d|\x7b\x7d".toList }

/-- Two entries with different targets and details are hashed alike, since the fields are
only joined with bars. -/
theorem preimage_forged : ¬∀ prev e prev' e', IsHash prev → IsHash prev' →
    preimage prev e = preimage prev' e' → prev = prev' ∧ e = e' := by
  intro hAll
  have hSame : preimage genesis zoneCreated = preimage genesis zoneRewritten := by decide +kernel
  have hEqual := (hAll _ _ _ _ (by decide +kernel) (by decide +kernel) hSame).2
  exact absurd hEqual (by decide)

end Dnsd.Store

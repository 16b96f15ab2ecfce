import Dnsd.Resolve.CacheKey
import Dnsd.Resolve.QueryLog
import Dnsd.Rust.Lowercase
import Dnsd.Store.QueryLogBatches

/-! The table of the query log: which rows its columns have room for, and which rows
of the batches get into it. -/

namespace Dnsd.Store

open Resolve Proto Cache

/-! ## The table -/

/-- The text columns of `query_logs`, each with what it has room for. -/
def columns (row : QueryLogRow) : List (Nat × Str) :=
  [(45, row.clientIp), (45, row.ecs), (255, row.qname), (16, row.qtype.toList),
    (16, row.rcode.toList), (128, row.upstream.toList), (8, row.via.toList)]

/-- A number that the column `rtt_ms` has room for. -/
def RttFits (row : QueryLogRow) : Prop := -2 ^ 31 ≤ row.rttMs.toInt ∧ row.rttMs.toInt < 2 ^ 31

instance (row : QueryLogRow) : Decidable (RttFits row) := inferInstanceAs (Decidable (_ ∧ _))

/-- The columns have room for the whole row. -/
def FitsTable (row : QueryLogRow) : Prop :=
  (∀ column ∈ columns row, column.2.length ≤ column.1) ∧ RttFits row

instance (row : QueryLogRow) : Decidable (FitsTable row) := inferInstanceAs (Decidable (_ ∧ _))

/-- A text goes on behind its column with more than blanks, or the number is out of range. -/
def Overflows (row : QueryLogRow) : Prop :=
  (∃ column ∈ columns row, ∃ c ∈ column.2.drop column.1, c ≠ ' ') ∨ ¬RttFits row

/-- The mysql crate and the server behind it, which are not part of the repository: one
insertion, with the table behind it if it succeeds, and a batch of them. -/
structure Database where
  insert : List QueryLogRow → QueryLogRow → Option (List QueryLogRow)
  execBatch : List QueryLogRow → List QueryLogRow → List QueryLogRow × Except String Unit

/-- Their documented behaviour where the connection lasts: a server in strict mode takes a
row that its columns have room for and refuses one that overflows them; `exec_batch`
executes the statement for one row after the other, and stops at the first error. -/
structure Database.Strict (db : Database) : Prop where
  takes (table : List QueryLogRow) {row : QueryLogRow} (hFits : FitsTable row) :
    db.insert table row = some (table ++ [row])
  refuses (table : List QueryLogRow) {row : QueryLogRow} (hOverflows : Overflows row) :
    db.insert table row = none
  batch_nil (table : List QueryLogRow) : db.execBatch table [] = (table, .ok ())
  batch_next {table table' : List QueryLogRow} {row : QueryLogRow} (rest : List QueryLogRow)
    (hInsert : db.insert table row = some table') :
    db.execBatch table (row :: rest) = db.execBatch table' rest
  batch_stop {table : List QueryLogRow} {row : QueryLogRow} (rest : List QueryLogRow)
    (hInsert : db.insert table row = none) :
    ∃ error, db.execBatch table (row :: rest) = (table, .error error)

/-- `insert_query_batch`: the rows go to the database in one statement, and its error is
the result. -/
def insertQueryBatch (db : Database) (table batch : List QueryLogRow) :
    List QueryLogRow × Except String Unit :=
  db.execBatch table batch

/-- The table behind all batches; `flush_batch` goes on behind one that has failed. -/
def stored (db : Database) (batches : List (List QueryLogRow)) : List QueryLogRow :=
  batches.foldl (fun table batch => (insertQueryBatch db table batch).1) []

/-! ## The rows of the pipeline -/

theorem toString_length {n k : Nat} (hPositive : 0 < k) (h : n < 10 ^ k) : (toString n).length ≤ k := by
  rw [Nat.toString_eq_repr, Nat.repr, String.length_ofList]
  exact (Nat.length_toDigits_le_iff (by decide) hPositive).mpr h

theorem ite_length_le {c : Prop} [Decidable c] {a b : String} {n : Nat} (ha : a.length ≤ n)
    (hb : b.length ≤ n) : (if c then a else b).length ≤ n := by
  split_ifs
  · exact ha
  · exact hb

theorem rcodeToString_length (rcode : UInt8) : (rcodeToString rcode).length ≤ 16 := by
  have hNumber := toString_length (n := rcode.toNat) (k := 3) (by decide)
    (Nat.lt_trans rcode.toNat_lt (by decide))
  have hText : ("RCODE" ++ toString rcode.toNat).length ≤ 16 := by
    rw [String.length_append]
    exact Nat.add_le_add (by decide : "RCODE".length ≤ 5) (Nat.le_trans hNumber (by decide : 3 ≤ 11))
  rw [rcodeToString]
  repeat apply ite_length_le (by decide)
  exact hText

theorem typeToString_length (t : UInt16) : (typeToString t).length ≤ 16 := by
  have hNumber := toString_length (n := t.toNat) (k := 5) (by decide)
    (Nat.lt_trans t.toNat_lt (by decide))
  have hText : ("TYPE" ++ toString t.toNat).length ≤ 16 := by
    rw [String.length_append]
    exact Nat.add_le_add (by decide : "TYPE".length ≤ 4) (Nat.le_trans hNumber (by decide : 5 ≤ 12))
  rw [typeToString]
  repeat apply ite_length_le (by decide)
  exact hText

/-- A name that is not too long for the pipeline is not too long for the table. -/
theorem canonicalName_length_of_len {name : Str} (h : name.len ≤ 253) :
    (canonicalName name).length ≤ 255 := by
  have hTrim := Str.trim_len name
  have hDots := Str.trimEndMatches_len name.trim '.'
  have hLower := Str.toLowercase_length_le_len (name.trim.trimEndMatches '.')
  rw [canonicalName]
  split_ifs
  · decide
  · rw [List.length_append, List.length_singleton]
    omega

theorem canonicalName_dotted_end (name : Str) : ∀ c ∈ (canonicalName name).getLast?, c = '.' := by
  rw [canonicalName]
  split_ifs <;> simp

/-- What a call logs besides its name fits, and the name ends in its dot if there is one. -/
structure InfoFits (info : RespMeta) : Prop where
  ecs : info.ecs.length ≤ 45
  qtype : info.qtype.length ≤ 16
  rcode : info.rcode.length ≤ 16
  upstream : info.upstream.length ≤ 128
  dotted : ∀ c ∈ info.qname.getLast?, c = '.'

/-- The texts that are logged as they are. -/
theorem rcode_fits : ∀ rcode ∈ ["SERVFAIL", "FORMERR", "REFUSED", "BADVERS", "NOERROR"],
    rcode.length ≤ 16 := by decide

theorem upstream_fits : ∀ upstream ∈ ["", "block-loopback", "block-random", "zone", "cache", "recursive"],
    upstream.length ≤ 128 := by decide

section Judge

variable {s : Settings} {call : Call} {v : Verdict} {info info' : RespMeta}

/-- What is logged with a verdict fits, up to the name of a query that is refused. -/
structure Logs (v : Verdict) (info : RespMeta) : Prop where
  fits : InfoFits info
  name : info.qname.length ≤ 255 ∨ info.rcode = "REFUSED" ∧ ∀ l, v ≠ .lookup l

theorem refuse_fits (hFits : InfoFits info)
    (hName : info.qname.length ≤ 255 ∨ ∃ m, Message.parse call.raw = .ok m)
    (h : refuse call.raw info = .ok (v, info')) : Logs v info' := by
  rw [refuse] at h
  split at h
  · cases h
    exact ⟨⟨hFits.ecs, hFits.qtype, rcode_fits "REFUSED" (by simp), hFits.upstream, hFits.dotted⟩,
      Or.inr ⟨rfl, by simp⟩⟩
  · rename_i e hParse
    have hShort : info.qname.length ≤ 255 := by
      apply hName.resolve_right
      rintro ⟨m, hOk⟩
      cases hParse.symm.trans hOk
    cases h
    exact ⟨⟨hFits.ecs, hFits.qtype, rcode_fits "FORMERR" (by simp), hFits.upstream, hFits.dotted⟩, Or.inl hShort⟩
  · cases h

theorem applyPolicy_fits {req : Message} {q : Question} (hFits : InfoFits info)
    (hName : info.qname.length ≤ 255) (h : applyPolicy s call req q info = (v, info')) :
    Logs v info' := by
  have hEcs := tokenOf_length (clientEcs s call req)
  rw [applyPolicy] at h
  dsimp only at h
  split at h
  · cases h
    exact ⟨⟨hEcs, hFits.qtype, rcode_fits "NOERROR" (by simp), ite_length_le
      (upstream_fits "block-loopback" (by simp)) (upstream_fits "block-random" (by simp)), hFits.dotted⟩, Or.inl hName⟩
  · split at h
    · cases h
      exact ⟨⟨hEcs, hFits.qtype, rcodeToString_length _, upstream_fits "zone" (by simp), hFits.dotted⟩,
        Or.inl hName⟩
    · cases h
      exact ⟨⟨hEcs, hFits.qtype, hFits.rcode, hFits.upstream, hFits.dotted⟩, Or.inl hName⟩

theorem judge_fits (h : judge s call = .ok (v, info)) : Logs v info := by
  have hInitial : InfoFits {} :=
    ⟨Nat.zero_le _, Nat.zero_le _, rcode_fits "SERVFAIL" (by simp), Nat.zero_le _, by simp⟩
  have hNone : ({} : RespMeta).qname.length ≤ 255 := Nat.zero_le _
  rw [judge] at h
  split at h
  · cases h
  · exact refuse_fits hInitial (.inl hNone) h
  · rename_i req hParse
    split at h
    · cases h
      exact ⟨hInitial, .inl hNone⟩
    · split at h
      · exact refuse_fits hInitial (.inl hNone) h
      · rename_i q hQuestion
        have hFits : InfoFits { qname := canonicalName q.name, qtype := typeToString q.qtype } :=
          ⟨hInitial.ecs, typeToString_length q.qtype, hInitial.rcode, hInitial.upstream,
            canonicalName_dotted_end q.name⟩
        dsimp only at h
        split at h
        · exact refuse_fits hFits (.inr ⟨req, hParse⟩) h
        · rename_i hLong
          have hName := canonicalName_length_of_len (Nat.not_lt.mp hLong)
          split at h
          · cases h
            exact ⟨⟨hFits.ecs, hFits.qtype, rcode_fits "BADVERS" (by simp), hFits.upstream,
              hFits.dotted⟩, .inl hName⟩
          · split at h
            · cases h
              exact ⟨⟨hFits.ecs, hFits.qtype, rcode_fits "REFUSED" (by simp), hFits.upstream,
                hFits.dotted⟩, .inl hName⟩
            · exact applyPolicy_fits hFits hName (Exec.ok.inj h)

end Judge

theorem replyFromCache_fits {l : Lookup} {hit reply : Bytes} {info info' : RespMeta}
    (hFits : InfoFits info) (h : replyFromCache l hit info = .ok (reply, info')) :
    InfoFits info' ∧ info'.qname = info.qname := by
  rw [replyFromCache] at h
  dsimp only at h
  split at h
  · cases h
    exact ⟨⟨hFits.ecs, hFits.qtype, rcodeToString_length _, upstream_fits "cache" (by simp),
      hFits.dotted⟩, rfl⟩
  · cases h
    exact ⟨⟨hFits.ecs, hFits.qtype, rcode_fits "NOERROR" (by simp), upstream_fits "cache" (by simp),
      hFits.dotted⟩, rfl⟩
  · cases h

theorem settle_fits {cfg : Config} {l : Lookup} {outcome : Except String Bytes} {info : RespMeta}
    {r : Settled} (hFits : InfoFits info) (h : settle cfg l outcome info = .ok r) :
    InfoFits r.info ∧ r.info.qname = info.qname := by
  cases outcome with
  | ok bytes =>
      rw [(settle_eq_ok h).2.2]
      exact ⟨⟨hFits.ecs, hFits.qtype, rcodeToString_length _, upstream_fits "recursive" (by simp),
        hFits.dotted⟩, rfl⟩
  | error e =>
      rw [(settle_error_eq_ok h).2]
      exact ⟨⟨hFits.ecs, hFits.qtype, rcode_fits "SERVFAIL" (by simp), hFits.upstream, hFits.dotted⟩,
        rfl⟩

/-- Only the name of a refused query can be too long. -/
theorem handled_fits {s : Settings} {resolver : Resolver} {net : Network} {nesting : Nat}
    {cache : TieredCache} {env : CacheEnv} {call : Call} {reply : Bytes} {info : RespMeta}
    (h : Handled s resolver net nesting cache env call reply info) :
    InfoFits info ∧ (info.qname.length ≤ 255 ∨ info.rcode = "REFUSED") := by
  have hLookup {l : Lookup} {before : RespMeta} (hJudge : judge s call = .ok (.lookup l, before)) :
      InfoFits before ∧ before.qname.length ≤ 255 := by
    have hLogs := judge_fits hJudge
    exact ⟨hLogs.fits, hLogs.name.resolve_right fun hRefused => hRefused.2 l rfl⟩
  cases h with
  | silent hJudge | written hJudge _ _ =>
      have hLogs := judge_fits hJudge
      exact ⟨hLogs.fits, hLogs.name.imp_right And.left⟩
  | hit hJudge _ hReply =>
      obtain ⟨hFits, hName⟩ := hLookup hJudge
      obtain ⟨hAfter, hSame⟩ := replyFromCache_fits hFits hReply
      exact ⟨hAfter, Or.inl (hSame ▸ hName)⟩
  | settled hJudge _ _ hSettle =>
      obtain ⟨hFits, hName⟩ := hLookup hJudge
      obtain ⟨hAfter, hSame⟩ := settle_fits hFits hSettle
      exact ⟨hAfter, Or.inl (hSame ▸ hName)⟩

/-- A row that a call of one of the listeners enqueues. -/
structure Enqueued (row : QueryLogRow) : Prop where
  call : ∃ s resolver net nesting cache env call via tsMs rttMs p,
    handle s resolver net nesting cache env call via tsMs rttMs = some (.ok (p, row))
  via : row.via ∈ ["udp", "tcp", "doh"]

/-- The end of a name that is too long is not blank. -/
theorem overflows_of_dotted {name : Str} (hDotted : ∀ c ∈ name.getLast?, c = '.') {n : Nat}
    (hLong : n < name.length) : ∃ c ∈ name.drop n, c ≠ ' ' := by
  have hSome : name.drop n ≠ [] := by
    rw [Ne, List.drop_eq_nil_iff]
    omega
  refine ⟨(name.drop n).getLast hSome, List.getLast_mem hSome, ?_⟩
  have hLast : (name.drop n).getLast hSome ∈ name.getLast? := by
    rw [List.getLast_drop]
    exact List.getLast_mem_getLast? _
  rw [hDotted _ hLast]
  decide

/-- All columns but those of the name and of the time have room for what is enqueued. -/
theorem Enqueued.fits (h : Enqueued row) :
    (FitsTable row ↔ row.qname.length ≤ 255 ∧ RttFits row) ∧ (FitsTable row ∨ Overflows row) ∧
      (row.qname.length ≤ 255 ∨ row.rcode = "REFUSED") := by
  obtain ⟨s, resolver, net, nesting, cache, env, call, via, tsMs, rttMs, p, hHandle⟩ := h.call
  obtain ⟨info, hHandled, hRow⟩ := handle_handled hHandle
  obtain ⟨hFits, hName⟩ := handled_fits hHandled
  have hVia : row.via.toList.length ≤ 8 := by
    have hAll : ∀ via ∈ ["udp", "tcp", "doh"], via.toList.length ≤ 8 := by decide
    exact hAll row.via h.via
  subst hRow
  have hIp := Nat.le_trans call.clientIp.text_length_le (by decide : 39 ≤ 45)
  have hIff : FitsTable (logRow call.clientIp via tsMs { info with rttMs := rttMs }) ↔
      info.qname.length ≤ 255 ∧ RttFits (logRow call.clientIp via tsMs { info with rttMs := rttMs }) := by
    refine and_congr_left fun _ => ?_
    simp only [columns, List.forall_mem_cons]
    exact ⟨fun h => h.2.2.1, fun hShort => ⟨hIp, hFits.ecs, hShort, hFits.qtype, hFits.rcode,
      hFits.upstream, hVia, List.forall_mem_nil _⟩⟩
  refine ⟨hIff, ?_, hName⟩
  by_cases hRtt : RttFits (logRow call.clientIp via tsMs { info with rttMs := rttMs })
  · rcases Nat.lt_or_ge 255 info.qname.length with hLong | hShort
    · refine .inr (.inl ⟨(255, info.qname), ?_, overflows_of_dotted hFits.dotted hLong⟩)
      simp [columns, logRow]
    · exact .inl (hIff.mpr ⟨hShort, hRtt⟩)
  · exact .inr (.inr hRtt)

/-! ## The rows in the table -/

section Stored

variable {db : Database}

/-- A batch gets into the table up to its first row that does not fit. -/
theorem insertQueryBatch_eq (hDb : db.Strict) {batch : List QueryLogRow}
    (hRows : ∀ row ∈ batch, FitsTable row ∨ Overflows row) (table : List QueryLogRow) :
    (insertQueryBatch db table batch).1 = table ++ batch.takeWhile fun row => FitsTable row := by
  induction batch generalizing table with
  | nil =>
      rw [insertQueryBatch, hDb.batch_nil]
      exact (List.append_nil table).symm
  | cons row rest ih =>
      obtain ⟨hRow, hRest⟩ := List.forall_mem_cons.mp hRows
      by_cases hFits : FitsTable row
      · have hTail := ih hRest (table ++ [row])
        rw [insertQueryBatch] at hTail
        rw [insertQueryBatch, hDb.batch_next rest (hDb.takes table hFits), hTail,
          List.takeWhile_cons_of_pos (by simpa using hFits), List.append_assoc, List.singleton_append]
      · obtain ⟨error, hStop⟩ := hDb.batch_stop rest (hDb.refuses table (hRow.resolve_left hFits))
        rw [insertQueryBatch, hStop, List.takeWhile_cons_of_neg (by simpa using hFits), List.append_nil]

/-- The table has the front of every batch, up to a row that does not fit. -/
theorem stored_eq (hDb : db.Strict) {batches : List (List QueryLogRow)}
    (hRows : ∀ row ∈ batches.flatten, FitsTable row ∨ Overflows row) :
    stored db batches = batches.flatMap (List.takeWhile fun row => FitsTable row) := by
  have hFold (table : List QueryLogRow) :
      batches.foldl (fun table batch => (insertQueryBatch db table batch).1) table =
        table ++ batches.flatMap (List.takeWhile fun row => FitsTable row) := by
    induction batches generalizing table with
    | nil => exact (List.append_nil table).symm
    | cons batch rest ih =>
        rw [List.flatten_cons, List.forall_mem_append] at hRows
        rw [List.foldl_cons, ih hRows.2, insertQueryBatch_eq hDb hRows.1, List.flatMap_cons,
          List.append_assoc]
  exact (hFold []).trans (List.nil_append _)

end Stored

theorem flushLoop_inserted (batchSize interval start : Nat) (turns : List Turn) :
    (flushLoop batchSize interval start turns).inserted.flatten =
      (⟨[], start, []⟩ : FlushLoop).received batchSize interval turns := by
  have hStart : FlushLoop.Holds batchSize [] ⟨[], start, []⟩ := .nil (lt_max_of_lt_right Nat.one_pos)
  have hRun : FlushLoop.Holds batchSize ([] ++ FlushLoop.received batchSize interval ⟨[], start, []⟩ turns)
      (FlushLoop.run batchSize interval ⟨[], start, []⟩ turns) := hStart.run turns
  have hEnd := hRun.flushBatch.whole
  rw [List.nil_append, FlushLoop.flushBatch_buf, List.append_nil, ← FlushLoop.disconnect_eq] at hEnd
  exact hEnd

/-- The rows of calls get into the table in their order, and all of them do exactly if no
name is too long for its column, which only those of refused queries can be, and no call
took longer than its column can say. -/
theorem stored_eq_received_iff {db : Database} (hDb : db.Strict) (batchSize interval start : Nat)
    (turns : List Turn)
    (hRows : ∀ row ∈ (⟨[], start, []⟩ : FlushLoop).received batchSize interval turns, Enqueued row) :
    let rows := (⟨[], start, []⟩ : FlushLoop).received batchSize interval turns
    let table := stored db (flushLoop batchSize interval start turns).inserted
    table.Sublist rows ∧ (table = rows ↔ ∀ row ∈ rows, row.qname.length ≤ 255 ∧ RttFits row) ∧
      ∀ row ∈ rows, 255 < row.qname.length → row.rcode = "REFUSED" := by
  dsimp only
  rw [← flushLoop_inserted] at *
  rw [stored_eq hDb fun row hRow => (hRows row hRow).fits.2.1]
  refine ⟨Batches.flatMap_takeWhile_sublist _ _, ?_, ?_⟩
  · rw [Batches.flatMap_takeWhile_eq_flatten_iff]
    refine forall₂_congr fun row hRow => ?_
    rw [decide_eq_true_iff]
    exact (hRows row hRow).fits.1
  · intro row hRow hLong
    exact (hRows row hRow).fits.2.2.resolve_left (Nat.not_le.mpr hLong)

/-- A query for a name of five labels, each as long as a label can be. -/
def longQuery : Bytes :=
  [0, 7, 1, 0, 0, 1, 0, 0, 0, 0, 0, 0] ++
    (List.replicate 5 (63 :: List.replicate 63 97)).flatten ++ [0, 0, 1, 0, 1]

/-- The rows of a call that is answered and of one that is refused for its name. -/
theorem enqueued_firstCall {raw : Bytes} {n : Nat} (h : ((firstCall raw).bind fun outcome =>
    outcome.toOption.map fun r => r.2.qname.length) = some n) :
    ∃ row, Enqueued row ∧ RttFits row ∧ row.qname.length = n := by
  obtain ⟨outcome, hCall, hOutcome⟩ := Option.bind_eq_some_iff.mp h
  obtain ⟨⟨p, row⟩, hRow, hLength⟩ := Option.map_eq_some_iff.mp hOutcome
  cases outcome with
  | ok r =>
      cases hRow
      obtain ⟨info, -, hLogged⟩ := handle_handled hCall
      have hVia : row.via = "udp" := by rw [hLogged, logRow]
      have hRtt : row.rttMs = 0 := by rw [hLogged, logRow]
      refine ⟨row, ⟨⟨_, _, _, _, _, _, _, _, _, _, _, hCall⟩, ?_⟩, ?_, hLength⟩
      · rw [hVia]
        exact List.mem_cons_self
      · rw [RttFits, hRtt]
        decide
  | err e => cases hRow
  | panicked => cases hRow

/-- A server in strict mode that refuses whatever does not fit. -/
def strictTable : Database where
  insert table row := if FitsTable row then some (table ++ [row]) else none
  execBatch table batch :=
    (table ++ batch.takeWhile fun row => FitsTable row,
      if batch.all fun row => FitsTable row then .ok () else .error "Data too long for column 'qname'")

theorem strictTable_strict : strictTable.Strict where
  takes table row hFits := if_pos hFits
  refuses table row hOverflows := by
    refine if_neg fun hFits => ?_
    rcases hOverflows with ⟨column, hColumn, c, hMem, -⟩ | hRtt
    · rw [List.drop_of_length_le (hFits.1 column hColumn)] at hMem
      cases hMem
    · exact hRtt hFits.2
  batch_nil table := congrArg (·, Except.ok ()) (List.append_nil table)
  batch_next {table table' row} rest hInsert := by
    by_cases hFits : FitsTable row
    · cases (if_pos hFits).symm.trans hInsert
      simp [strictTable, hFits]
    · cases (if_neg hFits).symm.trans hInsert
  batch_stop {table row} rest hInsert := by
    have hFits : ¬FitsTable row := fun hFits => by cases (if_pos hFits).symm.trans hInsert
    exact ⟨"Data too long for column 'qname'", by simp [strictTable, hFits]⟩

/-- A row that is refused for its name, between two of one batch. -/
theorem stored_longQuery : ∃ row long,
    Enqueued row ∧ Enqueued long ∧ long.rcode = "REFUSED" ∧
      stored strictTable (flushLoop 3 1000 0
        [⟨0, fun _ => .row row, 0⟩, ⟨0, fun _ => .row long, 0⟩, ⟨0, fun _ => .row row, 0⟩]).inserted ≠
          [row, long, row] := by
  obtain ⟨row, hRow, -, -⟩ := @enqueued_firstCall (classQuery 1 1) 2 (by decide +kernel)
  obtain ⟨long, hLong, -, hLength⟩ := @enqueued_firstCall longQuery 320 (by decide +kernel)
  have hReceived : (⟨[], 0, []⟩ : FlushLoop).received 3 1000
      [⟨0, fun _ => .row row, 0⟩, ⟨0, fun _ => .row long, 0⟩, ⟨0, fun _ => .row row, 0⟩] =
        [row, long, row] := rfl
  have hStored := stored_eq_received_iff strictTable_strict 3 1000 0
    [⟨0, fun _ => .row row, 0⟩, ⟨0, fun _ => .row long, 0⟩, ⟨0, fun _ => .row row, 0⟩] (by
      rw [hReceived]
      simp [hRow, hLong])
  dsimp only at hStored
  rw [hReceived] at hStored
  obtain ⟨-, hAll, hRefused⟩ := hStored
  refine ⟨row, long, hRow, hLong, hRefused long (by simp) (by omega), fun h => ?_⟩
  have hShort := (hAll.mp h long (by simp)).1
  omega

end Dnsd.Store

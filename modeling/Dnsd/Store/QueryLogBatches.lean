import Dnsd.Base.Batches
import Dnsd.Resolve.Pipeline

/-! The thread of the query log: rows are buffered and written in batches, when
there are enough of them, when none came for a while, and at the end. -/

namespace Dnsd.Store

open Resolve Batches

/-- What `recv_timeout` comes back with while there are senders. -/
inductive Received where
  | row (row : QueryLogRow)
  | timeout

/-- The row that was received, if any. -/
def Received.rows : Received → List QueryLogRow
  | .row r => [r]
  | .timeout => []

/-- What the clock and the channel do in one turn of the loop: the time at its
start, what is received for a time to wait, and the time at its end. -/
structure Turn where
  start : Nat
  recv : Nat → Received
  finish : Nat

/-- The state of the loop, and the batches that `insert_query_batch` was called
with. A failed insertion is only reported, its rows are not kept. -/
structure FlushLoop where
  buf : List QueryLogRow := []
  lastFlush : Nat
  inserted : List (List QueryLogRow) := []

/-- One millisecond in nanoseconds, the unit of the clock here. -/
def millisecond : Nat := 1000000

namespace FlushLoop

variable (batchSize interval : Nat)

/-- `flush_batch`: nothing is inserted for an empty buffer. -/
def flushBatch (s : FlushLoop) : FlushLoop :=
  if s.buf.isEmpty then s else { s with buf := [], inserted := s.inserted ++ [s.buf] }

/-- The time to wait for the next row. -/
def patience (s : FlushLoop) (now : Nat) : Nat :=
  let deadline := interval - (now - s.lastFlush)
  if deadline = 0 then millisecond else deadline

/-- What the channel gives within the time that is left until the next flush. -/
def receive (s : FlushLoop) (t : Turn) : Received := t.recv (s.patience interval t.start)

/-- One turn of the loop: a row is taken and the buffer flushed if it is full, or the time
is up and what there is gets flushed. -/
def turn (s : FlushLoop) (t : Turn) : FlushLoop :=
  match s.receive interval t with
  | .row row =>
      let s := { s with buf := s.buf ++ [row] }
      if batchSize ≤ s.buf.length then { s.flushBatch with lastFlush := t.finish } else s
  | .timeout =>
      let s := if !s.buf.isEmpty then s.flushBatch else s
      { s with lastFlush := t.finish }

/-- The end of the loop, when all senders are gone. -/
def disconnect (s : FlushLoop) : FlushLoop := if !s.buf.isEmpty then s.flushBatch else s

/-- Some turns of the loop, one after the other, without its end. -/
def run (s : FlushLoop) (turns : List Turn) : FlushLoop := turns.foldl (turn batchSize interval) s

/-- The rows that are received in the turns. -/
def received (s : FlushLoop) : List Turn → List QueryLogRow
  | [] => []
  | t :: rest => (s.receive interval t).rows ++ received (s.turn batchSize interval t) rest

end FlushLoop

/-- The loop from its start until all senders are gone. -/
def flushLoop (batchSize interval start : Nat) (turns : List Turn) : FlushLoop :=
  ((⟨[], start, []⟩ : FlushLoop).run batchSize interval turns).disconnect

namespace FlushLoop

variable {batchSize interval : Nat} {s : FlushLoop} {items : List QueryLogRow}

/-- The loop waits in every turn, and never longer than the interval or one millisecond. -/
theorem patience_bounds (s : FlushLoop) (now : Nat) :
    0 < s.patience interval now ∧ s.patience interval now ≤ max interval millisecond := by
  rw [patience]
  split_ifs with hZero
  · exact ⟨by decide, le_max_right _ _⟩
  · exact ⟨Nat.pos_of_ne_zero hZero, le_max_of_le_left (Nat.sub_le _ _)⟩

/-- What was written and what is buffered are the rows received, and the buffer has
room for one more row. -/
def Holds (batchSize : Nat) (items : List QueryLogRow) (s : FlushLoop) : Prop :=
  Cut (max batchSize 1) items s.inserted s.buf

theorem flushBatch_of_ne {s : FlushLoop} (h : s.buf ≠ []) :
    s.flushBatch = { s with buf := [], inserted := s.inserted ++ [s.buf] } := by
  rw [flushBatch, List.isEmpty_eq_false_iff.mpr h, if_neg Bool.false_ne_true]

theorem flushBatch_of_nil {s : FlushLoop} (h : s.buf = []) : s.flushBatch = s := by
  rw [flushBatch, h, List.isEmpty_nil, if_pos rfl]

/-- The check in front of a flush is made again inside it. -/
theorem disconnect_eq (s : FlushLoop) : s.disconnect = s.flushBatch := by
  rw [disconnect]
  split_ifs with hEmpty
  · rfl
  · exact (flushBatch_of_nil (by simpa using hEmpty)).symm

theorem flushBatch_buf (s : FlushLoop) : s.flushBatch.buf = [] := by
  by_cases hBuf : s.buf = []
  · rw [flushBatch_of_nil hBuf, hBuf]
  · rw [flushBatch_of_ne hBuf]

/-- A flush moves the buffer to the batches. -/
theorem Holds.flushBatch (h : Holds batchSize items s) : Holds batchSize items s.flushBatch := by
  by_cases hBuf : s.buf = []
  · rwa [flushBatch_of_nil hBuf]
  · rw [flushBatch_of_ne hBuf]
    exact .close h.whole h.bounds hBuf h.room.le

/-- A turn adds its row to what is held, and flushes a full buffer. -/
theorem Holds.turn (h : Holds batchSize items s) (t : Turn) :
    Holds batchSize (items ++ (s.receive interval t).rows) (s.turn batchSize interval t) := by
  rw [FlushLoop.turn]
  cases hReceived : s.receive interval t with
  | timeout =>
      rw [Received.rows, List.append_nil]
      change Holds batchSize items { s.disconnect with lastFlush := t.finish }
      rw [disconnect_eq]
      exact h.flushBatch
  | row row =>
      dsimp only [Received.rows]
      split_ifs with hFull
      · rw [flushBatch_of_ne (by simp)]
        exact h.fill row
      · exact h.push (lt_max_of_lt_left (not_le.mp hFull))

theorem Holds.run (h : Holds batchSize items s) (turns : List Turn) :
    Holds batchSize (items ++ s.received batchSize interval turns) (s.run batchSize interval turns) := by
  induction turns generalizing s items with
  | nil =>
      rw [received, List.append_nil]
      exact h
  | cons t rest ih =>
      rw [received, ← List.append_assoc]
      exact ih (h.turn t)

end FlushLoop

/-- The log is complete: each row received is in one batch, in its place, no batch
is empty or too long, and nothing stays in the buffer. -/
structure Complete (batchSize : Nat) (rows : List QueryLogRow) (s : FlushLoop) : Prop where
  batches : s.inserted.flatten = rows
  bounds : ∀ batch ∈ s.inserted, batch ≠ [] ∧ batch.length ≤ max batchSize 1
  flushed : s.buf = []

/-- Whatever comes over the channel and whenever: the rows received are inserted, all and
once and in their order, in batches that are neither empty nor too large, and nothing is
left in the buffer. -/
theorem flushLoop_complete (batchSize interval start : Nat) (turns : List Turn) :
    Complete batchSize ((⟨[], start, []⟩ : FlushLoop).received batchSize interval turns)
      (flushLoop batchSize interval start turns) := by
  have hStart : FlushLoop.Holds batchSize [] ⟨[], start, []⟩ := .nil (lt_max_of_lt_right Nat.one_pos)
  have hRun : FlushLoop.Holds batchSize _ (FlushLoop.run batchSize interval _ turns) := hStart.run turns
  have hEnd := hRun.flushBatch
  rw [← FlushLoop.disconnect_eq] at hEnd
  have hBuf : (flushLoop batchSize interval start turns).buf = [] := by
    rw [flushLoop, FlushLoop.disconnect_eq, FlushLoop.flushBatch_buf]
  refine ⟨?_, hEnd.bounds, hBuf⟩
  have hWhole := hEnd.whole
  rw [List.nil_append] at hWhole
  change (flushLoop batchSize interval start turns).inserted.flatten ++
    (flushLoop batchSize interval start turns).buf = _ at hWhole
  rw [← hWhole, hBuf, List.append_nil]

end Dnsd.Store

import DynamicExtension.Record
set_option autoImplicit false

namespace De

inductive WALEntryType where
  | insert
  | delete
  | flushB
  | flushC
  deriving DecidableEq, Repr

/-- `WAL_Entry` -/
structure WALEntry (R : Type) where
  type : WALEntryType
  payload : Wrapped R
  deriving DecidableEq, Repr

/-- The log file, as whole entries, and the entry that is written next -/
structure WriteAheadLogger (R : Type) where
  file : List (WALEntry R)
  lsn : Nat

namespace WriteAheadLogger
variable {R : Type} [Zero R]

/-- The constructor on the log file it finds -/
def new (file : List (WALEntry R)) : WriteAheadLogger R := ⟨file, file.length⟩

/-- `pwrite` of one entry; entries that were skipped read as zero bytes. -/
def pwrite (file : List (WALEntry R)) (lsn : Nat) (entry : WALEntry R) : List (WALEntry R) :=
  file.take lsn ++ List.replicate (lsn - file.length) ⟨.insert, 0⟩ ++ entry :: file.drop (lsn + 1)

def write (w : WriteAheadLogger R) (entry : WALEntry R) : WriteAheadLogger R :=
  ⟨pwrite w.file w.lsn entry, w.lsn + 1⟩

def truncate (_ : WriteAheadLogger R) : WriteAheadLogger R := ⟨[], 0⟩

def append (w : WriteAheadLogger R) (rec : Wrapped R) : WriteAheadLogger R :=
  w.write ⟨.insert, rec⟩

def remove (w : WriteAheadLogger R) (rec : Wrapped R) : WriteAheadLogger R :=
  w.write ⟨.delete, rec⟩

def flushBegin (w : WriteAheadLogger R) : WriteAheadLogger R := w.write ⟨.flushB, 0⟩

omit [Zero R] in
/-- The entries after a `FLUSH_B`, as the scan of `flush_complete` collects them -/
def remaining : Bool → List (WALEntry R) → List (WALEntry R)
  | _, [] => []
  | flushBegan, e :: es =>
    let flushBegan := flushBegan || e.type = .flushB
    if flushBegan ∧ e.type ≠ .flushB ∧ e.type ≠ .flushC then e :: remaining flushBegan es
    else remaining flushBegan es

def flushComplete (w : WriteAheadLogger R) : WriteAheadLogger R :=
  let w := w.write ⟨.flushC, 0⟩
  (remaining false w.file).foldl write w.truncate

omit [Zero R] in
/-- What `build_buffer_from_log` appends: the inserted records that no entry of
the log deletes. -/
def replay [DecidableEq R] (file : List (WALEntry R)) : List (Wrapped R) :=
  let deleted := (file.filter fun e => e.type = .delete).map fun e => e.payload.record
  ((file.filter fun e => e.type = .insert).map WALEntry.payload).filter
    fun w => w.record ∉ deleted

/-- The next entry is written at the end of the file. -/
def AtEnd (w : WriteAheadLogger R) : Prop := w.lsn = w.file.length

omit [Zero R] in
theorem atEnd_new (file : List (WALEntry R)) : (new file).AtEnd := rfl

theorem pwrite_end (file : List (WALEntry R)) (e : WALEntry R) :
    pwrite file file.length e = file ++ [e] := by
  simp [pwrite]

theorem write_eq {w : WriteAheadLogger R} (h : w.AtEnd) (e : WALEntry R) :
    w.write e = new (w.file ++ [e]) := by
  have hlsn : w.lsn = w.file.length := h
  simp [write, new, hlsn, pwrite_end]

theorem foldl_write (es : List (WALEntry R)) {w : WriteAheadLogger R} (h : w.AtEnd) :
    es.foldl write w = new (w.file ++ es) := by
  induction es generalizing w with
  | nil =>
    have hlsn : w.lsn = w.file.length := h
    simp [new, ← hlsn]
  | cons e es ih =>
    rw [List.foldl_cons, write_eq h, ih (atEnd_new _)]
    simp [new]

omit [Zero R] in
/-- Nothing is kept of a log without a `FLUSH_B`. -/
theorem remaining_append {es : List (WALEntry R)} (h : ∀ e ∈ es, e.type ≠ .flushB)
    (fs : List (WALEntry R)) : remaining false (es ++ fs) = remaining false fs := by
  induction es with
  | nil => rfl
  | cons e es ih =>
    have he : e.type ≠ .flushB := h e List.mem_cons_self
    simp [remaining, he, ih fun f hf => h f (List.mem_cons_of_mem _ hf)]

omit [Zero R] in
theorem remaining_true (es : List (WALEntry R)) :
    remaining true es = es.filter fun e => e.type ≠ .flushB ∧ e.type ≠ .flushC := by
  induction es with
  | nil => rfl
  | cons e es ih =>
    simp only [remaining, Bool.true_or, ih, List.filter_cons, decide_eq_true_eq, true_and]

theorem flushComplete_eq {w : WriteAheadLogger R} (h : w.AtEnd) :
    w.flushComplete = new (remaining false (w.file ++ [⟨.flushC, 0⟩])) := by
  rw [flushComplete, write_eq h, foldl_write _ (by rfl)]
  rfl

theorem flushed_eq {w : WriteAheadLogger R} (h : w.AtEnd) (hb : ∀ e ∈ w.file, e.type ≠ .flushB) :
    w.flushBegin.flushComplete = new [] := by
  rw [flushBegin, write_eq h, flushComplete_eq (atEnd_new _)]
  show new (remaining false (w.file ++ [⟨.flushB, 0⟩] ++ [⟨.flushC, 0⟩])) = new []
  rw [List.append_assoc, remaining_append hb]
  rfl

theorem atEnd_flushed {w : WriteAheadLogger R} (h : w.AtEnd) :
    w.flushBegin.flushComplete.AtEnd := by
  rw [flushBegin, write_eq h, flushComplete_eq (atEnd_new _)]
  rfl

end WriteAheadLogger

end De

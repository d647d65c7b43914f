import DynamicExtension.MutableBuffer
set_option autoImplicit false

namespace De
variable {R : Type}

/-- A call on the logger; a restart opens a new logger on the same file. -/
inductive LogCall (R : Type) where
  | append (rec : Wrapped R)
  | remove (rec : Wrapped R)
  | flushBegin
  | flushComplete
  | restart
  deriving DecidableEq, Repr

namespace LogCall

/-- The entry that a call logs, markers left out -/
def logged : LogCall R → Option (WALEntry R)
  | .append rec => some ⟨.insert, rec⟩
  | .remove rec => some ⟨.delete, rec⟩
  | _ => none

def isBegin : LogCall R → Bool
  | .flushBegin => true
  | _ => false

def isComplete : LogCall R → Bool
  | .flushComplete => true
  | _ => false

theorem isComplete_iff {c : LogCall R} : c.isComplete = true ↔ c = .flushComplete := by
  cases c <;> simp [isComplete]

theorem logged_type {c : LogCall R} {e : WALEntry R} (h : c.logged = some e) :
    e.type ≠ .flushB ∧ e.type ≠ .flushC := by
  cases c <;> simp_all [logged] <;> subst h <;> simp

end LogCall

/-- The entries that the calls log, markers left out -/
def logged (calls : List (LogCall R)) : List (WALEntry R) := calls.filterMap LogCall.logged

@[simp] theorem logged_nil : logged ([] : List (LogCall R)) = [] := rfl

@[simp] theorem logged_append (cs ds : List (LogCall R)) :
    logged (cs ++ ds) = logged cs ++ logged ds := List.filterMap_append

theorem logged_begin (cs : List (LogCall R)) : logged (.flushBegin :: cs) = logged cs := rfl

/-- The calls since the last `flush_complete` -/
def sinceComplete (calls : List (LogCall R)) : List (LogCall R) :=
  calls.rtakeWhile fun c => !c.isComplete

/-- The calls since the most recent `flush_begin`; none if there was none -/
def sinceBegin (calls : List (LogCall R)) : List (LogCall R) :=
  if calls.any LogCall.isBegin then calls.rtakeWhile fun c => !c.isBegin else []

/-- The calls from the first `flush_begin` on -/
def fromBegin (calls : List (LogCall R)) : List (LogCall R) :=
  calls.dropWhile fun c => !c.isBegin

theorem rtakeWhile_append_of_mem {α : Type} {p : α → Bool} {x : α} {ys : List α} (hx : x ∈ ys)
    (hp : p x = false) (xs : List α) : (xs ++ ys).rtakeWhile p = ys.rtakeWhile p := by
  induction ys using List.reverseRecOn with
  | nil => cases hx
  | append_singleton ys y ih =>
    rw [← List.append_assoc, List.rtakeWhile_concat, List.rtakeWhile_concat]
    split
    · rename_i hy
      rw [List.mem_append, List.mem_singleton] at hx
      rcases hx with hx | rfl
      · rw [ih hx]
      · rw [hp] at hy
        cases hy
    · rfl

namespace WriteAheadLogger

theorem mem_remaining {es : List (WALEntry R)} {began : Bool} {e : WALEntry R}
    (h : e ∈ remaining began es) : e.type ≠ .flushB ∧ e.type ≠ .flushC := by
  induction es generalizing began with
  | nil => cases h
  | cons f es ih =>
    rw [remaining] at h
    split at h
    · rename_i hf
      rcases List.mem_cons.mp h with rfl | h
      · exact hf.2
      · exact ih h
    · exact ih h

variable [Zero R]

def step (w : WriteAheadLogger R) : LogCall R → WriteAheadLogger R
  | .append rec => w.append rec
  | .remove rec => w.remove rec
  | .flushBegin => w.flushBegin
  | .flushComplete => w.flushComplete
  | .restart => new w.file

/-- The logger after some calls, the first of them on a file that is created -/
def run (calls : List (LogCall R)) : WriteAheadLogger R := calls.foldl step (new [])

/-- What a call other than `flush_complete` writes -/
def entry : LogCall R → Option (WALEntry R)
  | .flushBegin => some ⟨.flushB, 0⟩
  | c => c.logged

theorem entry_eq {c : LogCall R} (h : c.isBegin = false) : entry c = c.logged := by
  cases c <;> first | rfl | cases h

theorem run_concat (cs : List (LogCall R)) (c : LogCall R) : run (cs ++ [c]) = (run cs).step c := by
  simp [run]

theorem step_eq {w : WriteAheadLogger R} (h : w.AtEnd) {c : LogCall R} (hc : ¬ c.isComplete) :
    w.step c = new (w.file ++ (entry c).toList) := by
  cases c with
  | append rec => exact write_eq h _
  | remove rec => exact write_eq h _
  | flushBegin => exact write_eq h _
  | flushComplete => exact absurd rfl hc
  | restart => simp [step, entry, LogCall.logged]

theorem atEnd_run (cs : List (LogCall R)) : (run cs).AtEnd := by
  induction cs using List.reverseRecOn with
  | nil => rfl
  | append_singleton cs c ih =>
    rw [run_concat]
    by_cases hc : c.isComplete
    · rw [LogCall.isComplete_iff.mp hc, step, flushComplete_eq ih]
      rfl
    · rw [step_eq ih hc]
      rfl

/-- The log file is what the last `flush_complete` kept, and the entries since. -/
theorem file_run (cs : List (LogCall R)) :
    ∃ kept, (∀ e ∈ kept, e.type ≠ .flushB ∧ e.type ≠ .flushC) ∧
      (run cs).file = kept ++ (sinceComplete cs).filterMap entry := by
  induction cs using List.reverseRecOn with
  | nil => exact ⟨[], by simp, rfl⟩
  | append_singleton cs c ih =>
    obtain ⟨kept, hkept, hfile⟩ := ih
    rw [run_concat, sinceComplete, List.rtakeWhile_concat, ← sinceComplete]
    by_cases hc : c.isComplete
    · rw [LogCall.isComplete_iff.mp hc, step, flushComplete_eq (atEnd_run cs)]
      refine ⟨remaining false ((run cs).file ++ [⟨.flushC, 0⟩]), fun e he => mem_remaining he, ?_⟩
      simp [LogCall.isComplete, new]
    · refine ⟨kept, hkept, ?_⟩
      rw [step_eq (atEnd_run cs) hc, if_pos (by simpa using hc), List.filterMap_append,
        ← List.append_assoc, ← hfile]
      cases h : entry c <;> simp [new, h]

theorem filter_entry (cs : List (LogCall R)) :
    (cs.filterMap entry).filter (fun e => e.type ≠ .flushB ∧ e.type ≠ .flushC) = logged cs := by
  induction cs with
  | nil => rfl
  | cons c cs ih =>
    cases c <;> simpa [List.filterMap_cons, entry, LogCall.logged, logged] using ih

/-- `flush_complete` keeps what was logged since the first `flush_begin` that it finds. -/
theorem remaining_entry {kept : List (WALEntry R)}
    (hkept : ∀ e ∈ kept, e.type ≠ .flushB ∧ e.type ≠ .flushC) (cs : List (LogCall R)) :
    remaining false (kept ++ cs.filterMap entry ++ [⟨.flushC, 0⟩]) = logged (fromBegin cs) := by
  have hbefore : ∀ e ∈ kept ++ (cs.takeWhile fun c => !c.isBegin).filterMap entry,
      e.type ≠ .flushB := by
    intro e he
    rcases List.mem_append.mp he with he | he
    · exact (hkept e he).1
    · obtain ⟨c, hc, hentry⟩ := List.mem_filterMap.mp he
      rw [entry_eq (by simpa using List.mem_takeWhile_imp hc)] at hentry
      exact (LogCall.logged_type hentry).1
  rw [← List.takeWhile_append_dropWhile (p := fun c : LogCall R => !c.isBegin) (l := cs),
    List.filterMap_append, ← List.append_assoc, List.append_assoc (_ ++ _),
    remaining_append hbefore, List.takeWhile_append_dropWhile, ← fromBegin]
  cases hfrom : fromBegin cs with
  | nil => simp [remaining]
  | cons c ds =>
    have hc : c.isBegin = true := by
      have := List.head?_dropWhile_not (fun c : LogCall R => !c.isBegin) cs
      rw [← fromBegin, hfrom] at this
      simpa using this
    cases c with
    | flushBegin =>
      have hds : remaining true (ds.filterMap entry ++ [⟨.flushC, 0⟩]) = logged ds := by
        rw [remaining_true, List.filter_append, filter_entry]
        simp
      rw [logged_begin]
      simpa [List.filterMap_cons, entry, remaining] using hds
    | _ => cases hc

theorem file_flushComplete (calls : List (LogCall R)) :
    run (calls ++ [.flushComplete]) = new (logged (fromBegin (sinceComplete calls))) := by
  obtain ⟨kept, hkept, hfile⟩ := file_run calls
  rw [run_concat, step, flushComplete_eq (atEnd_run calls), hfile, remaining_entry hkept]

theorem foldl_step {w : WriteAheadLogger R} (h : w.AtEnd) (cs : List (LogCall R))
    (hcs : ∀ c ∈ cs, ¬ c.isComplete) : cs.foldl step w = new (w.file ++ cs.filterMap entry) := by
  induction cs generalizing w with
  | nil =>
    have hlsn : w.lsn = w.file.length := h
    simp [new, ← hlsn]
  | cons c cs ih =>
    rw [List.foldl_cons, step_eq h (hcs c List.mem_cons_self),
      ih (atEnd_new _) fun d hd => hcs d (List.mem_cons_of_mem _ hd)]
    cases hc : entry c <;> simp [new, hc]

/-- A `flush_complete` after the calls leaves exactly what was logged since the most
recent `flush_begin`, and what is written later is placed right after it. -/
structure FlushKeeps (calls : List (LogCall R)) : Prop where
  content : (run (calls ++ [.flushComplete])).file = logged (sinceBegin calls)
  noMarker : ∀ e ∈ (run (calls ++ [.flushComplete])).file, e.type ≠ .flushB ∧ e.type ≠ .flushC
  placed : ∀ later : List (LogCall R), (∀ c ∈ later, ¬ c.isComplete) →
    (run (calls ++ [.flushComplete] ++ later)).file =
      logged (sinceBegin calls) ++ later.filterMap entry

omit [Zero R] in
/-- Nothing is logged between the first and the last `flush_begin` since the last
`flush_complete`, or, without one, since the most recent `flush_begin` at all. -/
def BeginsTogether (calls : List (LogCall R)) : Prop :=
  if (sinceComplete calls).any LogCall.isBegin then
    logged ((fromBegin (sinceComplete calls)).rdropWhile fun c => !c.isBegin) = []
  else
    logged (sinceBegin calls) = []

omit [Zero R] in
instance [DecidableEq R] (calls : List (LogCall R)) : Decidable (BeginsTogether calls) :=
  inferInstanceAs (Decidable (if (sinceComplete calls).any LogCall.isBegin then
    logged ((fromBegin (sinceComplete calls)).rdropWhile fun c => !c.isBegin) = []
    else logged (sinceBegin calls) = []))

omit [Zero R] in
theorem sinceBegin_of_any {calls : List (LogCall R)}
    (h : (sinceComplete calls).any LogCall.isBegin = true) :
    sinceBegin calls = (fromBegin (sinceComplete calls)).rtakeWhile fun c => !c.isBegin := by
  obtain ⟨c, hc, hbegin⟩ := List.any_eq_true.mp h
  have hcalls : calls.any LogCall.isBegin = true :=
    List.any_eq_true.mpr ⟨c, List.rtakeWhile_suffix _ _ |>.subset hc, hbegin⟩
  have hfirst : (sinceComplete calls).takeWhile (fun c => !c.isBegin) ++
      fromBegin (sinceComplete calls) = sinceComplete calls := List.takeWhile_append_dropWhile
  have hlast : calls.rdropWhile (fun c => !c.isComplete) ++ sinceComplete calls = calls :=
    List.rdropWhile_append_rtakeWhile
  have hfrom : c ∈ fromBegin (sinceComplete calls) := by
    rw [← hfirst, List.mem_append] at hc
    refine hc.resolve_left fun hc => ?_
    simpa [hbegin] using List.mem_takeWhile_imp hc
  have hmarker : (!c.isBegin) = false := by simp [hbegin]
  calc sinceBegin calls
      = calls.rtakeWhile fun c => !c.isBegin := if_pos hcalls
    _ = (sinceComplete calls).rtakeWhile fun c => !c.isBegin := by
        rw [← hlast, rtakeWhile_append_of_mem hc hmarker, hlast]
    _ = (fromBegin (sinceComplete calls)).rtakeWhile fun c => !c.isBegin := by
        rw [← hfirst, rtakeWhile_append_of_mem hfrom hmarker, hfirst]

omit [Zero R] in
theorem fromBegin_of_not_any {cs : List (LogCall R)} (h : ¬ cs.any LogCall.isBegin = true) :
    fromBegin cs = [] := by
  rw [fromBegin, List.dropWhile_eq_nil_iff]
  intro c hc
  by_contra hbegin
  exact h (List.any_eq_true.mpr ⟨c, hc, by simpa using hbegin⟩)

omit [Zero R] in
/-- What `flush_complete` keeps is what it should keep. -/
theorem logged_fromBegin_iff (calls : List (LogCall R)) :
    logged (fromBegin (sinceComplete calls)) = logged (sinceBegin calls) ↔
      BeginsTogether calls := by
  rw [BeginsTogether]
  split
  · rename_i h
    rw [sinceBegin_of_any h]
    nth_rewrite 1 [← List.rdropWhile_append_rtakeWhile (p := fun c : LogCall R => !c.isBegin)
      (l := fromBegin (sinceComplete calls))]
    rw [logged_append, List.append_left_eq_self]
  · rename_i h
    rw [fromBegin_of_not_any h, logged_nil, eq_comm]

/-- A `flush_complete` keeps what it should exactly when the `flush_begin` calls it
finds markers of have nothing logged between them. -/
theorem flushKeeps_iff (calls : List (LogCall R)) : FlushKeeps calls ↔ BeginsTogether calls := by
  rw [← logged_fromBegin_iff]
  have hrun := file_flushComplete calls
  constructor
  · intro h
    have hcontent := h.content
    rwa [hrun] at hcontent
  · intro h
    refine ⟨?_, ?_, fun later hlater => ?_⟩
    · rw [hrun]
      exact h
    · intro e he
      rw [hrun] at he
      obtain ⟨c, -, hc⟩ := List.mem_filterMap.mp he
      exact LogCall.logged_type hc
    · rw [run, List.foldl_append, ← run, foldl_step (atEnd_run _) later hlater, hrun, ← h]
      rfl

/-- A flush that a restart interrupts leaves its marker in the log; the next flush
keeps everything after that one. -/
theorem not_flushKeeps_restart :
    ¬ FlushKeeps [.flushBegin, .restart, .append (Wrapped.fresh (1 : Nat) false), .flushBegin] := by
  intro h
  have hcontent := h.content
  revert hcontent
  decide

end WriteAheadLogger

namespace WriteAheadLogger

def deletedRecords (file : List (WALEntry R)) : List R :=
  (file.filter fun e => e.type = .delete).map fun e => e.payload.record

theorem deletedRecords_cons {e : WALEntry R} {es : List (WALEntry R)} {r : R}
    (h : r ∈ deletedRecords es) : r ∈ deletedRecords (e :: es) := by
  obtain ⟨d, hd, rfl⟩ := List.mem_map.mp h
  rw [List.mem_filter] at hd
  exact List.mem_map_of_mem (List.mem_filter.mpr ⟨List.mem_cons_of_mem _ hd.1, hd.2⟩)

/-- Every insert of a record that is among `deleted` is followed by a delete of it. -/
def DeleteFollows (deleted : List R) (file : List (WALEntry R)) : Prop :=
  ∀ e es, (e :: es) <:+ file → e.type = .insert → e.payload.record ∈ deleted →
    e.payload.record ∈ deletedRecords es

theorem deleteFollows_cons {deleted : List R} {e : WALEntry R} {es : List (WALEntry R)} :
    DeleteFollows deleted (e :: es) ↔
      (e.type = .insert → e.payload.record ∈ deleted → e.payload.record ∈ deletedRecords es) ∧
        DeleteFollows deleted es := by
  constructor
  · exact fun h => ⟨h e es (List.suffix_refl _),
      fun f fs hf => h f fs (hf.trans (List.suffix_cons _ _))⟩
  · rintro ⟨he, hes⟩ f fs hf
    rcases List.suffix_cons_iff.mp hf with heq | hf
    · obtain ⟨rfl, rfl⟩ := List.cons.inj heq
      exact he
    · exact hes f fs hf

variable [DecidableEq R]

/-- The inserted records that no later entry deletes, in log order -/
def liveInserts : List (WALEntry R) → List (Wrapped R)
  | [] => []
  | e :: es =>
    if e.type = .insert ∧ e.payload.record ∉ deletedRecords es then e.payload :: liveInserts es
    else liveInserts es

/-- The insert entries of records outside `deleted`, as the second pass of the replay
keeps them -/
def keptInserts (deleted : List R) (file : List (WALEntry R)) : List (Wrapped R) :=
  ((file.filter fun e => e.type = .insert).map WALEntry.payload).filter
    fun w => w.record ∉ deleted

theorem keptInserts_cons (deleted : List R) (e : WALEntry R) (es : List (WALEntry R)) :
    keptInserts deleted (e :: es) =
      if e.type = .insert ∧ e.payload.record ∉ deleted then e.payload :: keptInserts deleted es
      else keptInserts deleted es := by
  by_cases h : e.type = .insert
  · by_cases hd : e.payload.record ∈ deleted <;> simp [keptInserts, h, hd]
  · simp [keptInserts, h]

theorem keptInserts_sublist {deleted : List R} {file : List (WALEntry R)}
    (h : ∀ r ∈ deletedRecords file, r ∈ deleted) : (keptInserts deleted file).Sublist
    (liveInserts file) := by
  induction file with
  | nil => exact .slnil
  | cons e es ih =>
    have hes := fun r hr => h r (deletedRecords_cons (e := e) hr)
    rw [keptInserts_cons, liveInserts]
    by_cases he : e.type = .insert ∧ e.payload.record ∉ deleted
    · rw [if_pos he, if_pos ⟨he.1, fun hmem => he.2 (hes _ hmem)⟩]
      exact (ih hes).cons_cons _
    · rw [if_neg he]
      split
      · exact (ih hes).cons _
      · exact ih hes

/-- The two passes keep what the log order asks for exactly when no deleted record
is inserted again after its last delete. -/
theorem keptInserts_eq_iff {deleted : List R} {file : List (WALEntry R)}
    (h : ∀ r ∈ deletedRecords file, r ∈ deleted) :
    keptInserts deleted file = liveInserts file ↔ DeleteFollows deleted file := by
  induction file with
  | nil => simp [keptInserts, liveInserts, DeleteFollows]
  | cons e es ih =>
    have hes := fun r hr => h r (deletedRecords_cons (e := e) hr)
    rw [keptInserts_cons, liveInserts, deleteFollows_cons, ← ih hes]
    by_cases he : e.type = .insert
    · by_cases hd : e.payload.record ∈ deleted
      · by_cases hl : e.payload.record ∈ deletedRecords es
        · simp [he, hd, hl]
        · -- the insert is dropped although no delete comes after it
          have hlen := (keptInserts_sublist hes).length_le
          simp only [he, hd, hl, not_true, and_false, if_false, not_false_eq_true,
            and_self, if_true,
            true_implies, false_and, iff_false]
          intro heq
          have := congrArg List.length heq
          rw [List.length_cons] at this
          omega
      · have hl : e.payload.record ∉ deletedRecords es := fun hmem => hd (hes _ hmem)
        simp [he, hd, hl]
    · simp [he]

/-- Every insert of a record that the log deletes is followed by a delete of it. -/
def DeletesFollow (file : List (WALEntry R)) : Prop := DeleteFollows (deletedRecords file) file

theorem replay_sublist (file : List (WALEntry R)) : (replay file).Sublist (liveInserts file) :=
  keptInserts_sublist fun _ h => h

theorem replay_eq_iff (file : List (WALEntry R)) :
    replay file = liveInserts file ↔ DeletesFollow file :=
  keptInserts_eq_iff fun _ h => h

end WriteAheadLogger

namespace MutableBuffer
variable [Zero R] {b : MutableBuffer R}

/-- What every append that finds room does, whichever slot it writes -/
structure Reserved (b b' : MutableBuffer R) : Prop where
  formed : b'.Formed
  count : b'.getRecordCount = b.getRecordCount + 1
  hwm : b'.hwm = b.hwm
  cap : b'.cap = b.cap
  tail : b'.tail = b.tail + 1

theorem reserved_append (h : b.Formed) (hroom : b.getRecordCount < b.hwm) (rec : R)
    (tombstone logging : Bool) : Reserved b (b.append rec tombstone logging).2 := by
  have hhead := h.head_le
  have hfull : ¬ b.tail - b.head.headIdx ≥ b.hwm := Nat.not_le.mpr hroom
  have hcount : b.tail + 1 - b.head.headIdx = b.getRecordCount + 1 := Nat.sub_add_comm hhead
  have hle : b.tail + 1 - b.head.headIdx ≤ b.hwm := hcount.le.trans hroom
  simp only [append, tryAdvanceTail, if_neg hfull]
  split <;> exact ⟨⟨Nat.le_succ_of_le hhead, hle, h.hwm_lt_cap⟩, hcount, rfl, rfl, rfl⟩

/-- The slots of the next `n` indexes are all named right. -/
def SlotsOk (b : MutableBuffer R) (n : Nat) : Prop :=
  ∀ i < n, toInt32 (b.tail + i) ≠ -1#32 ∧ b.slot (b.tail + i) = (b.tail + i) % b.cap

omit [Zero R] in
theorem slotsOk_of_le {n : Nat} (h : b.tail + n ≤ 2 ^ 31) : b.SlotsOk n := by
  intro i hi
  have hlt : b.tail + i < 2 ^ 31 := by omega
  have hnat : (toInt32 (b.tail + i)).toNat = b.tail + i := by
    rw [toInt32, BitVec.toNat_ofNat]
    exact Nat.mod_eq_of_lt (by omega)
  refine ⟨fun heq => ?_, ?_⟩
  · rw [heq] at hnat
    have : (-1#32).toNat = 2 ^ 32 - 1 := by decide
    omega
  · have hmsb : (toInt32 (b.tail + i)).msb = false := by
      rw [BitVec.msb_eq_false_iff_two_mul_lt, hnat]
      omega
    have hmod : (b.tail + i) % 2 ^ 64 = b.tail + i := Nat.mod_eq_of_lt (by omega)
    rw [slot, BitVec.signExtend_eq_setWidth_of_msb_false hmsb, BitVec.toNat_setWidth, hnat, hmod]

omit [Zero R] in
theorem SlotsOk.next {b' : MutableBuffer R} {n : Nat} (hs : b.SlotsOk (n + 1))
    (hr : Reserved b b') : b'.SlotsOk n := by
  intro i hi
  have hi' := hs (i + 1) (Nat.succ_lt_succ hi)
  rw [← Nat.add_assoc, Nat.add_right_comm] at hi'
  rw [hr.tail]
  simpa only [slot, hr.cap] using hi'

/-- The records and tombstone bits in the buffer, oldest first -/
def contents (b : MutableBuffer R) : List (R × Bool) :=
  b.records.map fun w => (w.record, w.isTombstone)

section Fold
variable (ws : List (Wrapped R))

/-- The buffer after the replay's appends -/
def appendAll (b : MutableBuffer R) : MutableBuffer R :=
  ws.foldl (fun b w => (b.append w.record w.isTombstone false).2) b

theorem appendAll_count (h : b.Formed) (hroom : b.getRecordCount + ws.length ≤ b.hwm) :
    (b.appendAll ws).getRecordCount = b.getRecordCount + ws.length := by
  induction ws generalizing b with
  | nil => rfl
  | cons w ws ih =>
    rw [List.length_cons] at hroom
    have hr := reserved_append h (by omega) w.record w.isTombstone false
    rw [appendAll, List.foldl_cons, ← appendAll, ih hr.formed (by rw [hr.count, hr.hwm]; omega),
      hr.count, List.length_cons]
    omega

theorem appendAll_contents (h : b.Formed) (hroom : b.getRecordCount + ws.length ≤ b.hwm)
    (hs : b.SlotsOk ws.length) :
    (b.appendAll ws).contents = b.contents ++ ws.map fun w => (w.record, w.isTombstone) := by
  induction ws generalizing b with
  | nil => simp [appendAll]
  | cons w ws ih =>
    rw [List.length_cons] at hroom hs
    have hslot : b.SlotOk := hs 0 (Nat.succ_pos _)
    have hr := reserved_append h (by omega) w.record w.isTombstone false
    obtain ⟨b', hb', ha⟩ := append_spec h (by omega) hslot w.record w.isTombstone false
    obtain ⟨pos, hpos⟩ := ha.records
    rw [hb'] at hr
    change Reserved b b' at hr
    rw [appendAll, List.foldl_cons, ← appendAll, hb',
      ih hr.formed (by rw [hr.count, hr.hwm]; omega) (hs.next hr)]
    simp [contents, hpos]

end Fold

variable [DecidableEq R]

theorem buildBufferFromLog_eq (b : MutableBuffer R) (file : List (WALEntry R)) :
    b.buildBufferFromLog file = b.appendAll (WriteAheadLogger.replay file) := rfl

/-- The replayed buffer holds the inserts that no later entry of the log deletes. -/
def Replays (b : MutableBuffer R) (file : List (WALEntry R)) : Prop :=
  (b.buildBufferFromLog file).contents =
    (WriteAheadLogger.liveInserts file).map fun w => (w.record, w.isTombstone)

/-- A replay follows the log order only when every insert of a deleted record is
followed by a delete; it does then, as long as the slots are named right. -/
theorem replays_iff (h : b.Formed) (hempty : b.getRecordCount = 0) {file : List (WALEntry R)}
    (hroom : (file.filter fun e => e.type = .insert).length ≤ b.hwm) :
    (b.Replays file → WriteAheadLogger.DeletesFollow file) ∧
      (WriteAheadLogger.DeletesFollow file →
        b.SlotsOk (WriteAheadLogger.liveInserts file).length → b.Replays file) := by
  have hfit : b.getRecordCount + (WriteAheadLogger.replay file).length ≤ b.hwm := by
    have hle : (WriteAheadLogger.replay file).length ≤
        ((file.filter fun e => e.type = .insert).map WALEntry.payload).length :=
      List.length_filter_le ..
    rw [List.length_map] at hle
    omega
  constructor
  · intro hr
    have hlen := congrArg List.length hr
    rw [contents, List.length_map, List.length_map, length_records, buildBufferFromLog_eq,
      appendAll_count _ h hfit, hempty, zero_add] at hlen
    rw [← WriteAheadLogger.replay_eq_iff]
    exact (WriteAheadLogger.replay_sublist file).eq_of_length hlen
  · intro hf hs
    rw [← WriteAheadLogger.replay_eq_iff] at hf
    have hnil : b.contents = [] := by
      rw [contents, List.map_eq_nil_iff, ← List.length_eq_zero_iff, length_records, hempty]
    rw [Replays, buildBufferFromLog_eq, appendAll_contents _ h hfit
      (by rw [hf]; exact hs), hnil, hf,
      List.nil_append]

/-- Of a record, its delete, a tombstone and a record that is inserted after being deleted
and deleted again, the tombstone and the last insert stay. -/
theorem replays_iff_sample :
    let file : List (WALEntry Nat) := [⟨.insert, Wrapped.fresh 7 false⟩,
      ⟨.insert, Wrapped.fresh 8 true⟩, ⟨.delete, Wrapped.fresh 7 false⟩,
      ⟨.insert, Wrapped.fresh 7 false⟩, ⟨.insert, Wrapped.fresh 9 false⟩,
      ⟨.delete, Wrapped.fresh 7 false⟩]
    (empty 2 4 none).Replays file ∧
      ((empty 2 4 none).buildBufferFromLog file).contents = [(8, true), (9, false)] := by
  intro file
  have h : (empty 2 4 none : MutableBuffer Nat).Formed := ⟨by decide, by decide, by decide⟩
  have hfollow : WriteAheadLogger.DeletesFollow file :=
    (WriteAheadLogger.replay_eq_iff file).mp (by decide)
  have hreplays : (empty 2 4 none).Replays file :=
    (replays_iff h rfl (by decide)).2 hfollow (slotsOk_of_le (by decide))
  exact ⟨hreplays, hreplays.trans (by decide)⟩

/-- A record that is inserted, deleted and inserted again is lost. -/
theorem not_replays_inserted_again :
    ¬ (empty 2 2 none).Replays [⟨.insert, Wrapped.fresh (7 : Nat) false⟩,
      ⟨.delete, Wrapped.fresh 7 false⟩, ⟨.insert, Wrapped.fresh 7 false⟩] := by
  intro h
  revert h
  unfold Replays
  decide

end MutableBuffer

end De

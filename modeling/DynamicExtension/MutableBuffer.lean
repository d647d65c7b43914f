import DynamicExtension.BufferView
import DynamicExtension.WriteAheadLogger
set_option autoImplicit false

namespace De

/-- `buffer_head` -/
structure BufferHead where
  headIdx : Nat
  refcnt : Nat
  deriving DecidableEq, Repr

/-- The ring `m_data` is the function `data` on the indexes below `cap`; `wal` is
absent without `m_use_wal`. -/
structure MutableBuffer (R : Type) where
  lwm : Nat
  hwm : Nat
  cap : Nat
  tail : Nat
  head : BufferHead
  oldHead : BufferHead
  data : Nat → Wrapped R
  tscnt : Nat
  wal : Option (WriteAheadLogger R)

namespace MutableBuffer
variable {R : Type} [Zero R]

/-- The fields a constructor call sets before it replays the log -/
def empty (lwm hwm : Nat) (wal : Option (WriteAheadLogger R)) : MutableBuffer R where
  lwm := lwm
  hwm := hwm
  cap := 2 * hwm
  tail := 0
  head := ⟨0, 0⟩
  oldHead := ⟨hwm, 0⟩
  data := fun _ => 0
  tscnt := 0
  wal := wal

def getRecordCount (b : MutableBuffer R) : Nat := b.tail - b.head.headIdx

def isAtLowWatermark (b : MutableBuffer R) : Bool := b.getRecordCount ≥ b.lwm

def getHighWatermark (b : MutableBuffer R) : Nat := b.hwm

/-- `try_advance_tail`; `none` is the return value -1. -/
def tryAdvanceTail (b : MutableBuffer R) : Option (Nat × MutableBuffer R) :=
  if b.tail - b.head.headIdx ≥ b.hwm then none
  else some (b.tail, { b with tail := b.tail + 1 })

/-- The reserved index as `append` keeps it, in an `int32_t` -/
def toInt32 (tail : Nat) : BitVec 32 := BitVec.ofNat 32 tail

/-- `tail % m_cap`, where the `int32_t` is converted to `size_t` -/
def slot (b : MutableBuffer R) (tail : Nat) : Nat :=
  ((toInt32 tail).signExtend 64).toNat % b.cap

/-- The slot's content: header bits for a tombstone, the slot number, visible -/
def slotContent (rec : R) (tombstone : Bool) (pos : Nat) : Wrapped R :=
  ((Wrapped.fresh rec tombstone).setTimestamp pos).setVisible

def append (b : MutableBuffer R) (rec : R) (tombstone logging : Bool) : Nat × MutableBuffer R :=
  match b.tryAdvanceTail with
  | none => (0, b)
  | some (tail, b) =>
    if toInt32 tail = -1#32 then (0, b)
    else
      let pos := b.slot tail
      (1, { b with
        wal := if logging then b.wal.map fun w => w.append (Wrapped.fresh rec tombstone) else b.wal
        data := Function.update b.data pos (slotContent rec tombstone pos)
        tscnt := if tombstone then b.tscnt + 1 else b.tscnt })

/-- The view from `head` to the tail, without its reference -/
def viewFrom (b : MutableBuffer R) (head : Nat) : BufferView R :=
  ⟨b.data, head, b.tail, b.cap, b.tscnt⟩

/-- `get_head`, which loops without end when neither head is the one asked for -/
def getHead (b : MutableBuffer R) (targetHead : Nat) : Option (MutableBuffer R) :=
  if b.oldHead.headIdx = targetHead then
    some { b with oldHead := ⟨targetHead, b.oldHead.refcnt + 1⟩ }
  else if b.head.headIdx = targetHead then
    some { b with head := ⟨targetHead, b.head.refcnt + 1⟩ }
  else none

def getBufferView (b : MutableBuffer R) (targetHead : Nat) :
    Option (BufferView R × MutableBuffer R) := do
  let b ← b.getHead targetHead
  return (b.viewFrom targetHead, b)

/-- `release_head_reference`, which loops without end on a count of 0 -/
def releaseHeadReference (b : MutableBuffer R) (head : Nat) : Option (MutableBuffer R) := do
  if b.oldHead.headIdx = head then
    guard (b.oldHead.refcnt ≠ 0)
    return { b with oldHead := { b.oldHead with refcnt := b.oldHead.refcnt - 1 } }
  else
    guard (b.head.refcnt ≠ 0)
    return { b with head := { b.head with refcnt := b.head.refcnt - 1 } }

/-- `advance_head`; the result is `false` when the old head is still referenced. -/
def advanceHead (b : MutableBuffer R) (newHead : Nat) : Option (Bool × MutableBuffer R) := do
  guard (newHead > b.head.headIdx)
  guard (newHead ≤ b.tail)
  if b.oldHead.refcnt > 0 then
    return (false, b)
  return (true, { b with
    head := ⟨newHead, 0⟩
    oldHead := b.head
    wal := b.wal.map fun w => w.flushBegin.flushComplete })

/-- `build_buffer_from_log`; a record that the full buffer refuses is dropped. -/
def buildBufferFromLog [DecidableEq R] (b : MutableBuffer R) (file : List (WALEntry R)) :
    MutableBuffer R :=
  (WriteAheadLogger.replay file).foldl (fun b w => (b.append w.record w.isTombstone false).2) b

/-- The constructor with the default capacity; `log` is what the log file holds. -/
def new [DecidableEq R] (lwm hwm : Nat) (log : Option (List (WALEntry R))) :
    Option (MutableBuffer R) := do
  let b := empty lwm hwm (log.map WriteAheadLogger.new)
  guard (b.cap > b.hwm)
  guard (b.hwm ≥ b.lwm)
  return match log with
    | none => b
    | some file => b.buildBufferFromLog file

/-- The records in the buffer, oldest first -/
def records (b : MutableBuffer R) : List (Wrapped R) := (b.viewFrom b.head.headIdx).records

/-- The window `[head, tail)` of a ring with more slots than the high watermark -/
structure Formed (b : MutableBuffer R) : Prop where
  head_le : b.head.headIdx ≤ b.tail
  count_le : b.getRecordCount ≤ b.hwm
  hwm_lt_cap : b.hwm < b.cap

/-- The 32-bit copy of the tail still names the slot of the reserved index, and
is not the value that `append` takes for a full buffer. -/
def SlotOk (b : MutableBuffer R) : Prop :=
  toInt32 b.tail ≠ -1#32 ∧ b.slot b.tail = b.tail % b.cap

instance (b : MutableBuffer R) : Decidable b.SlotOk :=
  inferInstanceAs (Decidable (_ ∧ _))

omit [Zero R] in
theorem length_records (b : MutableBuffer R) : b.records.length = b.getRecordCount :=
  BufferView.length_records _

omit [Zero R] in
theorem records_eq {b : MutableBuffer R} (h : b.Formed) :
    b.records = (List.range b.getRecordCount).map
      (fun i => b.data ((b.head.headIdx + i) % b.cap)) := by
  apply BufferView.records_eq
  have hcap := h.hwm_lt_cap
  have hcount : b.getRecordCount ≤ b.hwm := h.count_le
  show b.getRecordCount ≤ b.cap
  omega

theorem mod_ne_mod {c m n : Nat} (hlt : m < n) (hc : n < m + c) : m % c ≠ n % c := by
  intro h
  have hz := Nat.sub_mod_eq_zero_of_mod_eq h.symm
  rw [Nat.mod_eq_of_lt (by omega)] at hz
  omega

/-- What an append that returns 1 does to the buffer -/
structure Appended (b : MutableBuffer R) (rec : R) (tombstone logging : Bool)
    (b' : MutableBuffer R) : Prop where
  formed : b'.Formed
  records : ∃ pos, b'.records = b.records ++ [slotContent rec tombstone pos]
  lwm : b'.lwm = b.lwm
  hwm : b'.hwm = b.hwm
  head : b'.head = b.head
  oldHead : b'.oldHead = b.oldHead
  tail : b'.tail = b.tail + 1
  wal : b'.wal = if logging then b.wal.map fun w => w.append (Wrapped.fresh rec tombstone)
    else b.wal

theorem append_eq {b : MutableBuffer R} (hroom : b.getRecordCount < b.hwm) (hs : b.SlotOk)
    (rec : R) (tombstone logging : Bool) :
    b.append rec tombstone logging = (1, { b with
      tail := b.tail + 1
      wal := if logging then b.wal.map fun w => w.append (Wrapped.fresh rec tombstone) else b.wal
      data := Function.update b.data (b.tail % b.cap)
        (slotContent rec tombstone (b.tail % b.cap))
      tscnt := if tombstone then b.tscnt + 1 else b.tscnt }) := by
  obtain ⟨hne, hslot⟩ := hs
  have hfull : ¬ b.tail - b.head.headIdx ≥ b.hwm := not_le.mpr hroom
  have hslot' : ({ b with tail := b.tail + 1 } : MutableBuffer R).slot b.tail =
      b.tail % b.cap := hslot
  simp only [append, tryAdvanceTail, if_neg hfull, if_neg hne, hslot']

theorem formed_append {b : MutableBuffer R} (h : b.Formed) (hroom : b.getRecordCount < b.hwm)
    (hs : b.SlotOk) (rec : R) (tombstone logging : Bool) :
    (b.append rec tombstone logging).2.Formed ∧ (b.append rec tombstone logging).2.records =
      b.records ++ [slotContent rec tombstone (b.tail % b.cap)] := by
  have hhead := h.head_le
  have hcap := h.hwm_lt_cap
  have hcount : b.tail - b.head.headIdx < b.hwm := hroom
  rw [append_eq hroom hs]
  set b₁ : MutableBuffer R := { b with
    tail := b.tail + 1
    wal := if logging then b.wal.map fun w => w.append (Wrapped.fresh rec tombstone) else b.wal
    data := Function.update b.data (b.tail % b.cap)
      (slotContent rec tombstone (b.tail % b.cap))
    tscnt := if tombstone then b.tscnt + 1 else b.tscnt } with hb₁
  have hn : b₁.getRecordCount = b.getRecordCount + 1 := Nat.sub_add_comm hhead
  have hf₁ : b₁.Formed := by
    refine ⟨Nat.le_succ_of_le hhead, ?_, hcap⟩
    rw [hn]
    exact hroom
  refine ⟨hf₁, ?_⟩
  rw [records_eq hf₁, records_eq h, hn, List.range_succ, List.map_append]
  congr 1
  · apply List.map_congr_left
    intro i hi
    have hi' : i < b.tail - b.head.headIdx := List.mem_range.mp hi
    have hmod : (b.head.headIdx + i) % b.cap ≠ b.tail % b.cap :=
      mod_ne_mod (by omega) (by omega)
    exact Function.update_of_ne hmod _ _
  · have htail : b.head.headIdx + b.getRecordCount = b.tail := by
      simp only [getRecordCount]
      omega
    simp [hb₁, htail]

theorem append_spec {b : MutableBuffer R} (h : b.Formed) (hroom : b.getRecordCount < b.hwm)
    (hs : b.SlotOk) (rec : R) (tombstone logging : Bool) :
    ∃ b', b.append rec tombstone logging = (1, b') ∧ Appended b rec tombstone logging b' := by
  obtain ⟨hformed, hrecords⟩ := formed_append h hroom hs rec tombstone logging
  have heq := append_eq hroom hs rec tombstone logging
  rw [heq] at hformed hrecords
  exact ⟨_, heq, hformed, ⟨_, hrecords⟩, rfl, rfl, rfl, rfl, rfl, rfl⟩

omit [Zero R] in
@[simp] theorem record_slotContent (rec : R) (ts : Bool) (pos : Nat) :
    (slotContent rec ts pos).record = rec := by simp [slotContent]

omit [Zero R] in
@[simp] theorem isTombstone_slotContent (rec : R) (ts : Bool) (pos : Nat) :
    (slotContent rec ts pos).isTombstone = ts := by simp [slotContent]

omit [Zero R] in
@[simp] theorem isDeleted_slotContent (rec : R) (ts : Bool) (pos : Nat) :
    (slotContent rec ts pos).isDeleted = false := by simp [slotContent]

theorem advanceHead_tail {b : MutableBuffer R} (hpos : 0 < b.getRecordCount)
    (href : b.oldHead.refcnt = 0) :
    b.advanceHead b.tail = some (true, { b with
      head := ⟨b.tail, 0⟩
      oldHead := b.head
      wal := b.wal.map fun w => w.flushBegin.flushComplete }) := by
  have hlt : b.head.headIdx < b.tail := by
    simp only [getRecordCount] at hpos
    omega
  simp [advanceHead, hlt, href, guard]

omit [Zero R] in
def SameHeads (b b' : MutableBuffer R) : Prop :=
  b.head.headIdx = b'.head.headIdx ∧ b.oldHead.headIdx = b'.oldHead.headIdx

section Heads
variable {b b' : MutableBuffer R}

theorem sameHeads_append (b : MutableBuffer R) (rec : R) (ts logging : Bool) :
    b.SameHeads (b.append rec ts logging).2 := by
  unfold append tryAdvanceTail
  split
  · exact ⟨rfl, rfl⟩
  · rename_i tail b' h
    split at h
    · cases h
    · obtain ⟨rfl, rfl⟩ := Prod.mk.inj (Option.some.inj h)
      split <;> exact ⟨rfl, rfl⟩

omit [Zero R] in
/-- Only reference counts differ. -/
structure SameRing (b b' : MutableBuffer R) : Prop where
  heads : b.SameHeads b'
  tail : b'.tail = b.tail
  cap : b'.cap = b.cap
  hwm : b'.hwm = b.hwm
  data : b'.data = b.data
  wal : b'.wal = b.wal

omit [Zero R] in
theorem getBufferView_cases {target : Nat} {v : BufferView R}
    (h : b.getBufferView target = some (v, b')) : v = b.viewFrom target ∧ b.SameRing b' := by
  obtain ⟨b₁, hb₁, h⟩ := Option.bind_eq_some_iff.mp h
  obtain ⟨rfl, rfl⟩ := Prod.mk.inj (Option.some.inj h)
  unfold getHead at hb₁
  split at hb₁
  · rename_i hold
    obtain rfl := Option.some.inj hb₁
    exact ⟨rfl, ⟨rfl, hold⟩, rfl, rfl, rfl, rfl, rfl⟩
  · split at hb₁
    · rename_i hhead
      obtain rfl := Option.some.inj hb₁
      exact ⟨rfl, ⟨hhead, rfl⟩, rfl, rfl, rfl, rfl, rfl⟩
    · cases hb₁

omit [Zero R] in
theorem sameRing_releaseHeadReference {head : Nat}
    (h : b.releaseHeadReference head = some b') : b.SameRing b' := by
  unfold releaseHeadReference at h
  split at h <;>
  · obtain ⟨-, -, h⟩ := Option.bind_eq_some_iff.mp h
    obtain rfl := Option.some.inj h
    exact ⟨⟨rfl, rfl⟩, rfl, rfl, rfl, rfl, rfl⟩

omit [Zero R] in
/-- `get_head` finds a slot for either head. -/
theorem getBufferView_isSome {target : Nat}
    (h : target = b.oldHead.headIdx ∨ target = b.head.headIdx) :
    (b.getBufferView target).isSome := by
  unfold getBufferView getHead
  split
  · rfl
  · rename_i hold
    rw [if_pos (h.resolve_left (Ne.symm hold)).symm]
    rfl

theorem sameHeads_buildBufferFromLog [DecidableEq R] (b : MutableBuffer R)
    (file : List (WALEntry R)) :
    b.SameHeads (b.buildBufferFromLog file) := by
  unfold buildBufferFromLog
  induction WriteAheadLogger.replay file generalizing b with
  | nil => exact ⟨rfl, rfl⟩
  | cons w ws ih =>
    obtain ⟨h₁, h₂⟩ := b.sameHeads_append w.record w.isTombstone false
    obtain ⟨h₃, h₄⟩ := ih (b.append w.record w.isTombstone false).2
    exact ⟨h₁.trans h₃, h₂.trans h₄⟩

theorem append_cases (b : MutableBuffer R) (rec : R) (ts logging : Bool) :
    (b.append rec ts logging).2.head = b.head ∧
      ((b.append rec ts logging).1 = 1 ∧ (b.append rec ts logging).2.wal =
          (if logging then b.wal.map fun w => w.append (Wrapped.fresh rec ts) else b.wal) ∨
        (b.append rec ts logging).1 = 0 ∧ (b.append rec ts logging).2.wal = b.wal) := by
  rw [append, tryAdvanceTail]
  by_cases hfull : b.tail - b.head.headIdx ≥ b.hwm
  · rw [if_pos hfull]
    exact ⟨rfl, .inr ⟨rfl, rfl⟩⟩
  · simp only [if_neg hfull]
    split
    · exact ⟨rfl, .inr ⟨rfl, rfl⟩⟩
    · exact ⟨rfl, .inl ⟨rfl, rfl⟩⟩

theorem advanceHead_cases {newHead : Nat} (h : b.advanceHead newHead = some (true, b')) :
    b.head.headIdx < newHead ∧ newHead ≤ b.tail ∧ b' = { b with
      head := ⟨newHead, 0⟩
      oldHead := b.head
      wal := b.wal.map fun w => w.flushBegin.flushComplete } := by
  obtain ⟨_, hlt, h⟩ := Option.bind_eq_some_iff.mp h
  obtain ⟨_, hle, h⟩ := Option.bind_eq_some_iff.mp h
  rw [Option.guard_eq_some'] at hlt hle
  split at h
  · cases (Prod.mk.inj (Option.some.inj h)).1
  · obtain ⟨-, rfl⟩ := Prod.mk.inj (Option.some.inj h)
    exact ⟨hlt, hle, rfl⟩

theorem heads_new [DecidableEq R] {lwm hwm : Nat} {log : Option (List (WALEntry R))}
    (h : new lwm hwm log = some b) :
    b.head.headIdx = 0 ∧ b.oldHead.headIdx = hwm ∧ 0 < hwm := by
  obtain ⟨_, hcap, h⟩ := Option.bind_eq_some_iff.mp h
  obtain ⟨-, -, h⟩ := Option.bind_eq_some_iff.mp h
  have hpos : 0 < hwm := by
    by_contra hz
    have hz : hwm = 0 := by omega
    simp [empty, guard, hz] at hcap
  cases log with
  | none =>
    obtain rfl := Option.some.inj h
    exact ⟨rfl, rfl, hpos⟩
  | some file =>
    obtain rfl := Option.some.inj h
    obtain ⟨h₁, h₂⟩ := sameHeads_buildBufferFromLog (empty lwm hwm (some (.new file))) file
    exact ⟨h₁.symm, h₂.symm, hpos⟩

end Heads

end MutableBuffer

end De

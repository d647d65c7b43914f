import DynamicExtension.MutableBuffer
import DynamicExtension.Library.StepRun
set_option autoImplicit false

namespace De
namespace MutableBuffer
variable {R : Type} [Zero R]

/-- The `size_t` that a tail becomes through the `int32_t` of `append` -/
def widened (tail : Nat) : Nat :=
  if tail % 2 ^ 32 < 2 ^ 31 then tail % 2 ^ 32 else 2 ^ 64 - 2 ^ 32 + tail % 2 ^ 32

theorem toNat_signExtend_toInt32 (tail : Nat) :
    ((toInt32 tail).signExtend 64).toNat = widened tail := by
  rw [toInt32, BitVec.toNat_signExtend, BitVec.toNat_setWidth, BitVec.toNat_ofNat,
    BitVec.msb_eq_decide, BitVec.toNat_ofNat, widened]
  have hlt : tail % 2 ^ 32 < 2 ^ 32 := Nat.mod_lt _ (by decide)
  by_cases hlow : tail % 2 ^ 32 < 2 ^ 31
  · simp only [decide_eq_true_eq]
    rw [if_neg (by omega), if_pos hlow, Nat.add_zero]
    exact Nat.mod_eq_of_lt (by omega)
  · simp only [decide_eq_true_eq]
    rw [if_pos (by omega), if_neg hlow, Nat.mod_eq_of_lt (by omega)]
    omega

theorem toInt32_eq_neg_one (tail : Nat) : toInt32 tail = -1#32 ↔ tail % 2 ^ 32 = 2 ^ 32 - 1 := by
  rw [← BitVec.toNat_inj, toInt32, BitVec.toNat_ofNat]
  rfl

omit [Zero R] in
theorem slotOk_iff (b : MutableBuffer R) :
    b.SlotOk ↔ b.tail % 2 ^ 32 ≠ 2 ^ 32 - 1 ∧ widened b.tail % b.cap = b.tail % b.cap := by
  rw [SlotOk, slot, toNat_signExtend_toInt32, Ne, toInt32_eq_neg_one]

omit [Zero R] in
theorem slotOk_of_lt {b : MutableBuffer R} (h : b.tail < 2 ^ 31) : b.SlotOk := by
  have hmod : b.tail % 2 ^ 32 = b.tail := Nat.mod_eq_of_lt (by omega)
  rw [slotOk_iff, widened, hmod, if_pos h]
  exact ⟨by omega, rfl⟩

theorem append_of_room {b : MutableBuffer R} (hroom : b.getRecordCount < b.hwm)
    (hne : toInt32 b.tail ≠ -1#32) (rec : R) (ts logging : Bool) :
    b.append rec ts logging = (1, { b with
      tail := b.tail + 1
      wal := if logging then b.wal.map fun w => w.append (Wrapped.fresh rec ts) else b.wal
      data := Function.update b.data (b.slot b.tail) (slotContent rec ts (b.slot b.tail))
      tscnt := if ts then b.tscnt + 1 else b.tscnt }) := by
  have hfull : ¬ b.tail - b.head.headIdx ≥ b.hwm := not_le.mpr hroom
  simp only [append, tryAdvanceTail, if_neg hfull, if_neg hne]
  rfl

/-- The tail moves on also where the 32-bit tail makes `append` return 0. -/
theorem append_of_neg_one {b : MutableBuffer R} (hroom : b.getRecordCount < b.hwm)
    (heq : toInt32 b.tail = -1#32) (rec : R) (ts logging : Bool) :
    b.append rec ts logging = (0, { b with tail := b.tail + 1 }) := by
  have hfull : ¬ b.tail - b.head.headIdx ≥ b.hwm := not_le.mpr hroom
  simp only [append, tryAdvanceTail, if_neg hfull, if_pos heq]

theorem append_of_full {b : MutableBuffer R} (hfull : b.hwm ≤ b.getRecordCount) (rec : R)
    (ts logging : Bool) : b.append rec ts logging = (0, b) := by
  have hfull' : b.tail - b.head.headIdx ≥ b.hwm := hfull
  simp only [append, tryAdvanceTail, if_pos hfull']

omit [Zero R] in
/-- Slot `tail % m_cap` gets the record, visible, and the call returns 1; no other slot changes. -/
structure Stores (b : MutableBuffer R) (rec : R) (ts : Bool) (result : Nat × MutableBuffer R) :
    Prop where
  returns : result.1 = 1
  slot : result.2.data (b.tail % b.cap) = slotContent rec ts (b.tail % b.cap)
  frame : ∀ j, j ≠ b.tail % b.cap → result.2.data j = b.data j

omit [Zero R] in
/-- Every append that would advance the tail stores its record. -/
def AppendsRight (b : MutableBuffer R) : Prop :=
  ∀ rec ts logging, (b.append rec ts logging).2.tail = b.tail + 1 →
    b.Stores rec ts (b.append rec ts logging)

theorem not_appendsRight_of_neg_one {b : MutableBuffer R} (hroom : b.getRecordCount < b.hwm)
    (heq : toInt32 b.tail = -1#32) : ¬ b.AppendsRight := by
  intro h
  have hstores := h 0 false false
  rw [append_of_neg_one hroom heq] at hstores
  exact Nat.zero_ne_one (hstores rfl).returns

theorem not_appendsRight_of_slot {b : MutableBuffer R} (hroom : b.getRecordCount < b.hwm)
    (hne : toInt32 b.tail ≠ -1#32) (hslot : b.slot b.tail ≠ b.tail % b.cap) :
    ¬ b.AppendsRight := by
  intro h
  have hkeeps : ∀ ts, b.data (b.tail % b.cap) = slotContent 0 ts (b.tail % b.cap) := by
    intro ts
    have hstores := h 0 ts false
    rw [append_of_room hroom hne] at hstores
    have hslot' : Function.update b.data (b.slot b.tail) _ (b.tail % b.cap) = _ :=
      (hstores rfl).slot
    rwa [Function.update_of_ne (Ne.symm hslot)] at hslot'
  have hbit := congrArg Wrapped.isTombstone ((hkeeps true).symm.trans (hkeeps false))
  simp at hbit

/-- An append is right if and only if the low 32 bits of the tail are not all ones, and the
tail widened from 32 bits names the slot of the tail itself. -/
theorem appendsRight_iff (b : MutableBuffer R) :
    b.AppendsRight ↔ (b.getRecordCount < b.hwm →
      b.tail % 2 ^ 32 ≠ 2 ^ 32 - 1 ∧ widened b.tail % b.cap = b.tail % b.cap) := by
  rw [← slotOk_iff]
  by_cases hroom : b.getRecordCount < b.hwm
  swap
  · refine iff_of_true (fun rec ts logging htail => ?_) fun h => absurd h hroom
    rw [append_of_full (not_lt.mp hroom)] at htail
    exact absurd htail (Nat.succ_ne_self _).symm
  rw [forall_prop_of_true hroom]
  by_cases hne : toInt32 b.tail = -1#32
  · exact iff_of_false (not_appendsRight_of_neg_one hroom hne) fun h => h.1 hne
  · by_cases hslot : b.slot b.tail = b.tail % b.cap
    · refine iff_of_true (fun rec ts logging _ => ?_) ⟨hne, hslot⟩
      rw [append_of_room hroom hne, hslot]
      exact ⟨rfl, Function.update_self .., fun j hj => Function.update_of_ne hj ..⟩
    · exact iff_of_false (not_appendsRight_of_slot hroom hne hslot) fun h => hslot h.2

/-- A call on the buffer. A view is given by its head and its tail. -/
inductive BufferOp (R : Type) where
  | append (rec : R) (tombstone logging : Bool)
  | advanceHead (newHead : Nat)
  | acquire
  | acquireOld
  | release (head tail : Nat)

/-- A buffer with the appends that returned 1 so far and the views held on it -/
structure BufferRun (R : Type) where
  buffer : MutableBuffer R
  appended : List (R × Bool)
  views : List (Nat × Nat)
  advanced : Bool

namespace BufferRun

def start (b : MutableBuffer R) : BufferRun R := ⟨b, [], [], false⟩

/-- `get_buffer_view(target)` -/
def acquire (s : BufferRun R) (target : Nat) : Option (BufferRun R) := do
  let (v, b) ← s.buffer.getBufferView target
  return { s with buffer := b, views := (v.head, v.tail) :: s.views }

def step (s : BufferRun R) : BufferOp R → Option (BufferRun R)
  | .append rec tombstone logging =>
    let (ret, b) := s.buffer.append rec tombstone logging
    some { s with
      buffer := b
      appended := if ret = 1 then s.appended ++ [(rec, tombstone)] else s.appended }
  | .advanceHead newHead => do
    let (moved, b) ← s.buffer.advanceHead newHead
    return { s with buffer := b, advanced := s.advanced || moved }
  | .acquire => s.acquire s.buffer.head.headIdx
  | .acquireOld => s.acquire s.buffer.oldHead.headIdx
  | .release head tail => do
    let b ← s.buffer.releaseHeadReference head
    return { s with buffer := b, views := s.views.erase (head, tail) }

/-- The caller moves the head forward within the buffer, asks for the old head once there is one,
and releases what it holds. -/
def Allowed (s : BufferRun R) : BufferOp R → Prop
  | .append _ _ _ => True
  | .advanceHead newHead => s.buffer.head.headIdx < newHead ∧ newHead ≤ s.buffer.tail
  | .acquire => True
  | .acquireOld => s.advanced = true
  | .release head tail => (head, tail) ∈ s.views

instance (s : BufferRun R) : ∀ op : BufferOp R, Decidable (s.Allowed op)
  | .append _ _ _ => inferInstanceAs (Decidable True)
  | .advanceHead _ => inferInstanceAs (Decidable (_ ∧ _))
  | .acquire => inferInstanceAs (Decidable True)
  | .acquireOld => inferInstanceAs (Decidable (_ = true))
  | .release _ _ => inferInstanceAs (Decidable (_ ∈ _))

/-- A held view, on what the ring now holds -/
def viewOf (s : BufferRun R) (v : Nat × Nat) : BufferView R :=
  { s.buffer.viewFrom v.1 with tail := v.2 }

/-- The lowest index that a view can still be on -/
def low (s : BufferRun R) : Nat :=
  if s.advanced then s.buffer.oldHead.headIdx else s.buffer.head.headIdx

/-- What holds between two calls -/
structure Stable (hwm : Nat) (s : BufferRun R) : Prop where
  hwm_pos : 0 < hwm
  hwm_eq : s.buffer.hwm = hwm
  cap : s.buffer.cap = 2 * hwm
  count : s.appended.length = s.buffer.tail
  head_le : s.buffer.head.headIdx ≤ s.buffer.tail
  count_le : s.buffer.getRecordCount ≤ hwm
  fresh : s.advanced = false → s.buffer.head.headIdx = 0 ∧ s.buffer.oldHead.headIdx = hwm
  old : s.advanced = true → s.buffer.oldHead.headIdx < s.buffer.head.headIdx ∧
    s.buffer.head.headIdx ≤ s.buffer.oldHead.headIdx + hwm
  headRefs : s.buffer.head.refcnt = s.views.countP (·.1 = s.buffer.head.headIdx)
  oldRefs : s.buffer.oldHead.refcnt = s.views.countP (·.1 = s.buffer.oldHead.headIdx)
  views : ∀ v ∈ s.views, (v.1 = s.buffer.head.headIdx ∨
    s.advanced = true ∧ v.1 = s.buffer.oldHead.headIdx) ∧ v.2 ≤ s.buffer.tail
  slots : ∀ j, s.low ≤ j → j < s.buffer.tail → ∃ c, s.appended[j]? = some c ∧
    s.buffer.data (j % s.buffer.cap) = slotContent c.1 c.2 (j % s.buffer.cap)

section Steps
variable {hwm : Nat} {s s' : BufferRun R}

omit [Zero R] in
theorem Stable.low_le (h : s.Stable hwm) : s.low ≤ s.buffer.head.headIdx := by
  rw [low]
  split
  · exact (h.old ‹_›).1.le
  · exact le_rfl

omit [Zero R] in
theorem Stable.head_le_low (h : s.Stable hwm) : s.buffer.head.headIdx ≤ s.low + hwm := by
  rw [low]
  split
  · exact (h.old ‹_›).2
  · omega

omit [Zero R] in
theorem Stable.old_ne_head (h : s.Stable hwm) :
    s.buffer.oldHead.headIdx ≠ s.buffer.head.headIdx := by
  cases hadv : s.advanced with
  | false =>
    obtain ⟨hhead, hold⟩ := h.fresh hadv
    have := h.hwm_pos
    omega
  | true => exact (h.old hadv).1.ne

omit [Zero R] in
theorem Stable.low_le_view (h : s.Stable hwm) {v : Nat × Nat} (hv : v ∈ s.views) : s.low ≤ v.1 := by
  rcases (h.views v hv).1 with hhead | ⟨hadv, hold⟩
  · rw [hhead]
    exact h.low_le
  · rw [hold, low, if_pos hadv]

omit [Zero R] in
theorem Stable.get (h : s.Stable hwm) {v : Nat × Nat} (hv : v ∈ s.views) {i : Nat}
    (hi : i < v.2 - v.1) : ∃ c, s.appended[v.1 + i]? = some c ∧
      (s.viewOf v).get i = slotContent c.1 c.2 ((v.1 + i) % s.buffer.cap) := by
  have hlow := h.low_le_view hv
  have htail := (h.views v hv).2
  have hcap : v.2 - v.1 ≤ s.buffer.cap := by
    have h1 := h.head_le_low
    have h2 : s.buffer.tail - s.buffer.head.headIdx ≤ hwm := h.count_le
    rw [h.cap]
    omega
  obtain ⟨c, hc, hslot⟩ := h.slots (v.1 + i) (by omega) (by omega)
  refine ⟨c, hc, ?_⟩
  rw [← hslot, BufferView.get, BufferView.toIdx_eq_mod _ i (Nat.lt_of_lt_of_le hi hcap)]
  rfl

theorem Stable.append (h : s.Stable hwm) (hsmall : s.buffer.tail < 2 ^ 31) (rec : R)
    (ts logging : Bool) : ∃ s', s.step (.append rec ts logging) = some s' ∧ s'.Stable hwm ∧
      s'.buffer.tail ≤ s.buffer.tail + 1 := by
  by_cases hroom : s.buffer.getRecordCount < s.buffer.hwm
  swap
  · refine ⟨s, ?_, h, Nat.le_succ _⟩
    rw [step, append_of_full (not_lt.mp hroom)]
    rfl
  obtain ⟨hne, hslot⟩ := slotOk_of_lt hsmall
  have hcount : s.buffer.tail - s.buffer.head.headIdx < hwm := h.hwm_eq ▸ hroom
  have hhead := h.head_le
  refine ⟨_, by rw [step, append_of_room hroom hne, hslot], ?_, le_rfl⟩
  refine ⟨h.hwm_pos, h.hwm_eq, h.cap, ?_, Nat.le_succ_of_le hhead, ?_, h.fresh, h.old,
    h.headRefs, h.oldRefs,
    fun v hv => ⟨(h.views v hv).1, Nat.le_succ_of_le (h.views v hv).2⟩, fun j hlow hj => ?_⟩
  · simp [h.count]
  · show s.buffer.tail + 1 - s.buffer.head.headIdx ≤ hwm
    omega
  · have hlow' : s.low ≤ j := hlow
    have hhl := h.head_le_low
    have hlh := h.low_le
    rcases Nat.lt_succ_iff_lt_or_eq.mp hj with hlt | rfl
    · obtain ⟨c, hc, hdata⟩ := h.slots j hlow' hlt
      refine ⟨c, ?_, ?_⟩
      · rw [if_pos rfl, List.getElem?_append_left (by rw [h.count]; exact hlt), hc]
      · have hmod : j % s.buffer.cap ≠ s.buffer.tail % s.buffer.cap :=
          mod_ne_mod hlt (by rw [h.cap]; omega)
        rw [← hdata]
        exact Function.update_of_ne hmod _ _
    · refine ⟨(rec, ts), ?_, Function.update_self ..⟩
      rw [if_pos rfl, ← h.count, List.getElem?_concat_length]

theorem advanceHead_eq {b : MutableBuffer R} {newHead : Nat} (hlt : b.head.headIdx < newHead)
    (hle : newHead ≤ b.tail) :
    b.advanceHead newHead = some (if b.oldHead.refcnt > 0 then (false, b) else (true, { b with
      head := ⟨newHead, 0⟩
      oldHead := b.head
      wal := b.wal.map fun w => w.flushBegin.flushComplete })) := by
  simp only [advanceHead, guard, gt_iff_lt, hlt, hle, if_true]
  split <;> rfl

/-- The head moves on when no view is on the old one, so that all views are on the head that
becomes the old one. -/
theorem Stable.advanceHead (h : s.Stable hwm) {newHead : Nat}
    (hlt : s.buffer.head.headIdx < newHead)
    (hle : newHead ≤ s.buffer.tail) : ∃ s', s.step (.advanceHead newHead) =
    some s' ∧ s'.Stable hwm ∧
      s'.buffer.tail = s.buffer.tail := by
  have hcount : s.buffer.tail - s.buffer.head.headIdx ≤ hwm := h.count_le
  by_cases href : s.buffer.oldHead.refcnt > 0
  · exact ⟨s, by simp [step, advanceHead_eq hlt hle, href], h, rfl⟩
  have hold : s.views.countP (·.1 = s.buffer.oldHead.headIdx) = 0 := by
    rw [← h.oldRefs]
    omega
  rw [List.countP_eq_zero] at hold
  have hviews : ∀ v ∈ s.views, v.1 = s.buffer.head.headIdx := fun v hv =>
    (h.views v hv).1.resolve_right fun hright => hold v hv (by simp [hright.2])
  refine ⟨{ s with
    buffer := { s.buffer with
      head := ⟨newHead, 0⟩
      oldHead := s.buffer.head
      wal := s.buffer.wal.map fun w => w.flushBegin.flushComplete }
    advanced := true }, by simp [step, advanceHead_eq hlt hle, href], ?_, rfl⟩
  refine ⟨h.hwm_pos, h.hwm_eq, h.cap, h.count, hle, ?_, by simp, fun _ => ⟨hlt, ?_⟩, ?_, h.headRefs,
    fun v hv => ⟨.inr ⟨rfl, hviews v hv⟩, (h.views v hv).2⟩, fun j hj => h.slots j ?_⟩
  · show s.buffer.tail - newHead ≤ hwm
    omega
  · show newHead ≤ s.buffer.head.headIdx + hwm
    omega
  · symm
    rw [List.countP_eq_zero]
    intro v hv
    have := hviews v hv
    simp only [decide_eq_true_eq]
    omega
  · have hj' : s.buffer.head.headIdx ≤ j := hj
    exact le_trans h.low_le hj'

omit [Zero R] in
theorem Stable.acquire (h : s.Stable hwm) {target : Nat} (ht : target = s.buffer.head.headIdx ∨
    s.advanced = true ∧ target = s.buffer.oldHead.headIdx) :
    ∃ s', s.acquire target = some s' ∧ s'.Stable hwm ∧ s'.buffer.tail = s.buffer.tail := by
  have hne := h.old_ne_head
  rcases ht with rfl | ⟨hadv, rfl⟩
  · refine ⟨_, by rw [BufferRun.acquire, getBufferView, getHead, if_neg hne, if_pos rfl]; rfl, ?_⟩
    refine ⟨⟨h.hwm_pos, h.hwm_eq, h.cap, h.count, h.head_le, h.count_le, h.fresh, h.old, ?_, ?_, ?_,
      h.slots⟩, rfl⟩
    · rw [h.headRefs]
      exact (List.countP_cons_of_pos (by simp [viewFrom])).symm
    · rw [h.oldRefs]
      exact (List.countP_cons_of_neg (by simp [viewFrom, hne.symm])).symm
    · intro v hv
      rcases List.mem_cons.mp hv with rfl | hv
      · exact ⟨.inl rfl, le_rfl⟩
      · exact h.views v hv
  · refine ⟨_, by rw [BufferRun.acquire, getBufferView, getHead, if_pos rfl]; rfl, ?_⟩
    refine ⟨⟨h.hwm_pos, h.hwm_eq, h.cap, h.count, h.head_le, h.count_le, h.fresh, h.old, ?_, ?_, ?_,
      h.slots⟩, rfl⟩
    · rw [h.headRefs]
      exact (List.countP_cons_of_neg (by simp [viewFrom, hne])).symm
    · rw [h.oldRefs]
      exact (List.countP_cons_of_pos (by simp [viewFrom])).symm
    · intro v hv
      rcases List.mem_cons.mp hv with rfl | hv
      · exact ⟨.inr ⟨hadv, rfl⟩, le_rfl⟩
      · exact h.views v hv

theorem Stable.release (h : s.Stable hwm) {v : Nat × Nat} (hv : v ∈ s.views) :
    ∃ s', s.step (.release v.1 v.2) = some s' ∧ s'.Stable hwm ∧
      s'.buffer.tail = s.buffer.tail := by
  have hne := h.old_ne_head
  have herase : ∀ idx, (s.views.erase v).countP (·.1 = idx) =
      s.views.countP (·.1 = idx) - if v.1 = idx then 1 else 0 := by
    intro idx
    simp [List.countP_erase, hv]
  have hpos : ∀ idx, v.1 = idx → s.views.countP (·.1 = idx) ≠ 0 := by
    intro idx hidx
    exact (List.countP_pos_iff.mpr ⟨v, hv, by simpa using hidx⟩).ne'
  by_cases hold : s.buffer.oldHead.headIdx = v.1
  · have hcnt := hpos _ hold.symm
    rw [← h.oldRefs] at hcnt
    refine ⟨_, by rw [step, releaseHeadReference, if_pos hold]; simp [hcnt, guard]; rfl, ?_⟩
    refine ⟨⟨h.hwm_pos, h.hwm_eq, h.cap, h.count, h.head_le, h.count_le, h.fresh, h.old, ?_, ?_,
      fun v' hv' => h.views v' (List.mem_of_mem_erase hv'), h.slots⟩, rfl⟩
    · rw [h.headRefs]
      exact ((herase _).trans (by rw [if_neg fun heq => hne (hold.trans heq), Nat.sub_zero])).symm
    · rw [h.oldRefs]
      exact ((herase _).trans (by rw [if_pos hold.symm])).symm
  · have hhead : v.1 = s.buffer.head.headIdx :=
      (h.views v hv).1.resolve_right fun hright => hold hright.2.symm
    have hcnt := hpos _ hhead
    rw [← h.headRefs] at hcnt
    refine ⟨_, by rw [step, releaseHeadReference, if_neg hold]; simp [hcnt, guard]; rfl, ?_⟩
    refine ⟨⟨h.hwm_pos, h.hwm_eq, h.cap, h.count, h.head_le, h.count_le, h.fresh, h.old, ?_, ?_,
      fun v' hv' => h.views v' (List.mem_of_mem_erase hv'), h.slots⟩, rfl⟩
    · rw [h.headRefs]
      exact ((herase _).trans (by rw [if_pos hhead])).symm
    · rw [h.oldRefs]
      exact ((herase _).trans (by rw [if_neg fun heq => hold heq.symm, Nat.sub_zero])).symm

/-- The appends of a run, also those that return 0 -/
def appends (ops : List (BufferOp R)) : Nat := ops.countP fun
  | .append _ _ _ => true
  | _ => false

theorem Stable.run (h : s.Stable hwm) {ops : List (BufferOp R)}
    (hops : StepRun.Always step Allowed s ops) (hfew : s.buffer.tail + appends ops < 2 ^ 31) :
    ∃ s', StepRun.run step s ops = some s' ∧ s'.Stable hwm ∧
      s'.buffer.tail ≤ s.buffer.tail + appends ops := by
  induction ops generalizing s with
  | nil => exact ⟨s, rfl, h, le_rfl⟩
  | cons op ops ih =>
    obtain ⟨hop, hrest⟩ := hops
    obtain ⟨s₁, hstep, h₁, htail⟩ : ∃ s₁, step s op = some s₁ ∧ s₁.Stable hwm ∧
        s₁.buffer.tail + appends ops ≤ s.buffer.tail + appends (op :: ops) := by
      cases op with
      | append rec ts logging =>
        have hcons : appends (.append rec ts logging :: ops) = appends ops + 1 :=
          List.countP_cons_of_pos rfl
        obtain ⟨s₁, hstep, h₁, htail⟩ := h.append (by omega) rec ts logging
        exact ⟨s₁, hstep, h₁, by omega⟩
      | advanceHead newHead =>
        obtain ⟨s₁, hstep, h₁, htail⟩ := h.advanceHead hop.1 hop.2
        exact ⟨s₁, hstep, h₁, Nat.add_le_add htail.le (List.countP_cons_of_neg (by simp)).ge⟩
      | acquire =>
        obtain ⟨s₁, hstep, h₁, htail⟩ := h.acquire (.inl rfl)
        exact ⟨s₁, hstep, h₁, Nat.add_le_add htail.le (List.countP_cons_of_neg (by simp)).ge⟩
      | acquireOld =>
        obtain ⟨s₁, hstep, h₁, htail⟩ := h.acquire (.inr ⟨hop, rfl⟩)
        exact ⟨s₁, hstep, h₁, Nat.add_le_add htail.le (List.countP_cons_of_neg (by simp)).ge⟩
      | release head tail =>
        obtain ⟨s₁, hstep, h₁, htail⟩ := h.release (v := (head, tail)) hop
        exact ⟨s₁, hstep, h₁, Nat.add_le_add htail.le (List.countP_cons_of_neg (by simp)).ge⟩
    obtain ⟨s', hrun, h', htail'⟩ := ih h₁ (hrest s₁ hstep) (by omega)
    exact ⟨s', by rw [StepRun.run_cons, hstep, Option.bind_some, hrun], h', by omega⟩

end Steps

theorem stable_start {lwm hwm : Nat} (hhwm : 0 < hwm) (wal : Option (WriteAheadLogger R)) :
    (start (empty lwm hwm wal)).Stable hwm where
  hwm_pos := hhwm
  hwm_eq := rfl
  cap := rfl
  count := rfl
  head_le := le_rfl
  count_le := Nat.zero_le _
  fresh := fun _ => ⟨rfl, rfl⟩
  old := by simp [start]
  headRefs := rfl
  oldRefs := rfl
  views := by simp [start]
  slots := fun j _ hj => absurd hj (Nat.not_lt_zero j)

/-- In every run of allowed calls with fewer than `2^31` appends the window stays within the high
watermark, an append fails only in a full buffer, and each held view has the records that were
appended under its numbers. -/
theorem views_stable {lwm hwm : Nat} (hhwm : 0 < hwm) (wal : Option (WriteAheadLogger R))
    {ops : List (BufferOp R)}
    (hops : StepRun.Always step Allowed (start (empty lwm hwm wal)) ops)
    (hfew : appends ops < 2 ^ 31) :
    ∃ s, StepRun.run step (start (empty lwm hwm wal)) ops = some s ∧
      s.buffer.head.headIdx ≤ s.buffer.tail ∧ s.buffer.tail - s.buffer.head.headIdx ≤ hwm ∧
      (appends ops + 1 < 2 ^ 31 → ∀ rec ts logging, (s.buffer.append rec ts logging).1 = 0 ↔
        s.buffer.tail - s.buffer.head.headIdx = hwm) ∧
      ∀ v ∈ s.views, ∀ i < (s.viewOf v).getRecordCount, ∃ c, s.appended[v.1 + i]? = some c ∧
        (s.viewOf v).get i = slotContent c.1 c.2 ((v.1 + i) % s.buffer.cap) := by
  obtain ⟨s, hrun, h, htail⟩ := (stable_start hhwm wal).run hops
    (by simpa [start, empty] using hfew)
  have hzero : (start (empty lwm hwm wal)).buffer.tail = 0 := rfl
  have hcount := h.count_le
  refine ⟨s, hrun, h.head_le, hcount, fun hmore rec ts logging => ?_, fun v hv i hi => h.get hv hi⟩
  by_cases hroom : s.buffer.getRecordCount < s.buffer.hwm
  · rw [append_of_room hroom (slotOk_of_lt (by omega)).1]
    have hlt : s.buffer.tail - s.buffer.head.headIdx < hwm := h.hwm_eq ▸ hroom
    simp [hlt.ne]
  · rw [append_of_full (not_lt.mp hroom)]
    have hle : hwm ≤ s.buffer.tail - s.buffer.head.headIdx := h.hwm_eq ▸ not_lt.mp hroom
    exact iff_of_true rfl (le_antisymm hcount hle)

/-- A view on the old head sees its two records while the ring fills up behind it. -/
theorem views_stable_sample :
    let ops : List (BufferOp Nat) := [.append 5 false false, .append 6 true false, .acquire,
      .advanceHead 2, .append 7 false false, .append 8 false false, .advanceHead 4]
    ∃ s, StepRun.run step (start (empty 1 2 none)) ops = some s ∧
      ∀ v ∈ s.views, ∀ i < (s.viewOf v).getRecordCount, ∃ c, s.appended[v.1 + i]? = some c ∧
        (s.viewOf v).get i = slotContent c.1 c.2 ((v.1 + i) % s.buffer.cap) := by
  intro ops
  have hops : StepRun.Always step Allowed (start (empty 1 2 none)) ops := by decide +kernel
  obtain ⟨s, hrun, -, -, -, hviews⟩ :=
    views_stable (show 0 < 2 by decide) none hops (show appends ops < 2 ^ 31 by decide)
  exact ⟨s, hrun, hviews⟩

theorem step_append {s : BufferRun R} (hroom : s.buffer.getRecordCount < s.buffer.hwm) (rec : R)
    (ts logging : Bool) : ∃ s', s.step (.append rec ts logging) = some s' ∧
      s'.buffer.tail = s.buffer.tail + 1 ∧ s'.buffer.head = s.buffer.head ∧
      s'.buffer.oldHead = s.buffer.oldHead ∧ s'.buffer.hwm = s.buffer.hwm ∧
      s'.buffer.cap = s.buffer.cap := by
  by_cases hne : toInt32 s.buffer.tail = -1#32
  · refine ⟨_, by rw [step, append_of_neg_one hroom hne], ?_⟩
    exact ⟨rfl, rfl, rfl, rfl, rfl⟩
  · refine ⟨_, by rw [step, append_of_room hroom hne], ?_⟩
    exact ⟨rfl, rfl, rfl, rfl, rfl⟩

theorem exists_tail {b : MutableBuffer R} (hhwm : 0 < b.hwm) (hhead : b.head = ⟨0, 0⟩)
    (hold : b.oldHead.refcnt = 0) (htail : b.tail = 0) (n : Nat) :
    ∃ ops s, StepRun.run step (start b) ops = some s ∧ s.buffer.head = ⟨n, 0⟩ ∧
      s.buffer.oldHead.refcnt = 0 ∧ s.buffer.tail = n ∧ s.buffer.hwm = b.hwm ∧
      s.buffer.cap = b.cap := by
  induction n with
  | zero => exact ⟨[], start b, rfl, hhead, hold, htail, rfl, rfl⟩
  | succ n ih =>
    obtain ⟨ops, s, hrun, hhead', hold', htail', hhwm', hcap'⟩ := ih
    have hroom : s.buffer.getRecordCount < s.buffer.hwm := by
      rw [getRecordCount, hhead', htail', Nat.sub_self, hhwm']
      exact hhwm
    obtain ⟨s₁, hstep, htail₁, hhead₁, hold₁, hhwm₁, hcap₁⟩ := step_append hroom 0 false false
    have hlt : s₁.buffer.head.headIdx < n + 1 := by
      rw [hhead₁, hhead']
      exact Nat.lt_succ_self n
    have hmove := advanceHead_eq hlt (by omega)
    rw [if_neg (by rw [hold₁, hold']; exact lt_irrefl 0)] at hmove
    refine ⟨ops ++ [.append 0 false false, .advanceHead (n + 1)], { s₁ with
      buffer := { s₁.buffer with
        head := ⟨n + 1, 0⟩
        oldHead := s₁.buffer.head
        wal := s₁.buffer.wal.map fun w => w.flushBegin.flushComplete }
      advanced := true }, ?_, rfl, ?_, ?_, hhwm₁.trans hhwm', hcap₁.trans hcap'⟩
    · rw [StepRun.run_append, hrun, Option.bind_some, StepRun.run_cons, hstep, Option.bind_some,
        StepRun.run_cons, step, hmove]
      simp
    · show s₁.buffer.head.refcnt = 0
      rw [hhead₁, hhead']
    · show s₁.buffer.tail = n + 1
      rw [htail₁, htail']

end BufferRun

/-- The fields a constructor call sets when it is given a capacity -/
def emptyOf (lwm hwm capacity : Nat) (wal : Option (WriteAheadLogger R)) : MutableBuffer R :=
  { empty lwm hwm wal with cap := if capacity = 0 then 2 * hwm else capacity }

/-- With the default capacity the append that finds the tail at `2^32 - 1` returns 0 and leaves
its slot unwritten; with capacity 14 the one that finds it at `2^31` writes slot 0 and not 2. -/
theorem not_appendsRight :
    (∃ ops s, StepRun.run BufferRun.step (.start (emptyOf 1 1 0 none : MutableBuffer Nat)) ops =
        some s ∧ s.buffer.tail = 2 ^ 32 - 1 ∧
      (∃ b, s.buffer.append 7 false false = (0, b) ∧ b.tail = 2 ^ 32 ∧ b.data = s.buffer.data) ∧
      ¬ s.buffer.AppendsRight) ∧
    ∃ ops s, StepRun.run BufferRun.step (.start (emptyOf 1 1 14 none : MutableBuffer Nat)) ops =
        some s ∧ s.buffer.tail = 2 ^ 31 ∧
      (s.buffer.append 7 false false).2.data 0 = slotContent 7 false 0 ∧
      (s.buffer.append 7 false false).2.data 2 = s.buffer.data 2 ∧ ¬ s.buffer.AppendsRight := by
  constructor
  · obtain ⟨ops, s, hrun, hhead, -, htail, hhwm, -⟩ :=
      BufferRun.exists_tail (b := (emptyOf 1 1 0 none :
        MutableBuffer Nat)) Nat.one_pos rfl rfl rfl (2 ^ 32 - 1)
    have hroom : s.buffer.getRecordCount < s.buffer.hwm := by
      rw [getRecordCount, hhead, htail, Nat.sub_self, hhwm]
      exact Nat.one_pos
    have hneg : toInt32 s.buffer.tail = -1#32 := by
      rw [toInt32_eq_neg_one, htail]
      decide
    have happend := append_of_neg_one hroom hneg 7 false false
    exact ⟨ops, s, hrun, htail, ⟨_, happend, by simp [htail], rfl⟩,
      not_appendsRight_of_neg_one hroom hneg⟩
  · obtain ⟨ops, s, hrun, hhead, -, htail, hhwm, hcap⟩ :=
      BufferRun.exists_tail (b := (emptyOf 1 1 14 none :
        MutableBuffer Nat)) Nat.one_pos rfl rfl rfl (2 ^ 31)
    have hcap14 : s.buffer.cap = 14 := hcap
    have hroom : s.buffer.getRecordCount < s.buffer.hwm := by
      rw [getRecordCount, hhead, htail, Nat.sub_self, hhwm]
      exact Nat.one_pos
    have hne : toInt32 s.buffer.tail ≠ -1#32 := by
      rw [Ne, toInt32_eq_neg_one, htail]
      decide
    have hslot : s.buffer.slot s.buffer.tail = 0 := by
      rw [slot, toNat_signExtend_toInt32, htail, hcap14]
      decide
    have htwo : s.buffer.tail % s.buffer.cap = 2 := by
      rw [htail, hcap14]
      decide
    have happend := append_of_room hroom hne 7 false false
    rw [hslot] at happend
    have hdata : (s.buffer.append 7 false false).2.data =
        Function.update s.buffer.data 0 (slotContent 7 false 0) := by rw [happend]
    refine ⟨ops, s, hrun, htail, ?_, ?_, not_appendsRight_of_slot hroom hne ?_⟩
    · rw [hdata, Function.update_self]
    · rw [hdata, Function.update_of_ne (by decide)]
    · rw [hslot, htwo]
      decide

end MutableBuffer

end De

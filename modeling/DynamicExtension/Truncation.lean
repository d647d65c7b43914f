import DynamicExtension.BufferRuns
set_option autoImplicit false

namespace De
namespace MutableBuffer
variable {R : Type} [Zero R]

section Defs

/-- `get_record_count`, a difference of two `size_t` -/
def getRecordCount64 (b : MutableBuffer R) : Nat := (b.tail + 2 ^ 64 - b.head.headIdx) % 2 ^ 64

def isFull (b : MutableBuffer R) : Bool := b.getRecordCount64 ≥ b.hwm

/-- `append` where the tail may be behind the head -/
def append64 (b : MutableBuffer R) (rec : R) (tombstone logging : Bool) : Nat × MutableBuffer R :=
  if b.isFull then (0, b)
  else
    let reserved := { b with tail := (b.tail + 1) % 2 ^ 64 }
    if toInt32 b.tail = -1#32 then (0, reserved)
    else
      let pos := b.slot b.tail
      (1, { reserved with
        wal := if logging then b.wal.map fun w => w.append (Wrapped.fresh rec tombstone) else b.wal
        data := Function.update b.data pos (slotContent rec tombstone pos)
        tscnt := if tombstone then b.tscnt + 1 else b.tscnt })

def truncate (b : MutableBuffer R) : MutableBuffer R := { b with tscnt := 0, tail := 0 }

/-- Appends one after the other; `none` if one of them does not return 1 -/
def appendAll64 (logging : Bool) : List (R × Bool) → MutableBuffer R → Option (MutableBuffer R)
  | [], b => some b
  | (rec, tombstone) :: recs, b =>
    let out := b.append64 rec tombstone logging
    if out.1 = 1 then appendAll64 logging recs out.2 else none

/-- The states of a buffer, each with the heads of the views that are held -/
inductive Reach : MutableBuffer R → List Nat → Prop where
  | new (lwm hwm capacity : Nat) (wal : Option (WriteAheadLogger R)) (hcap : capacity < 2 ^ 64)
      (hwm_lt : hwm < (emptyOf lwm hwm capacity wal).cap) (lwm_le : lwm ≤ hwm)
      (hword : hwm < 2 ^ 64) : Reach (emptyOf lwm hwm capacity wal) []
  | append {b : MutableBuffer R} {held : List Nat} (h : Reach b held) (rec : R)
      (tombstone logging : Bool) : Reach (b.append64 rec tombstone logging).2 held
  | advanceHead {b b' : MutableBuffer R} {held : List Nat} (h : Reach b held) {newHead : Nat}
      {moved : Bool} (hstep : b.advanceHead newHead = some (moved, b')) : Reach b' held
  | acquire {b b' : MutableBuffer R} {held : List Nat} (h : Reach b held) {target : Nat}
      {v : BufferView R} (hstep : b.getBufferView target = some (v, b')) : Reach b' (target :: held)
  | release {b b' : MutableBuffer R} {held : List Nat} (h : Reach b held) {head : Nat}
      (hheld : head ∈ held) (hstep : b.releaseHeadReference head = some b') :
      Reach b' (held.erase head)

/-- After `truncate` the buffer is empty, and takes and shows as many records as it may hold. -/
structure Resets (b : MutableBuffer R) : Prop where
  count : b.truncate.getRecordCount64 = 0
  notFull : b.truncate.isFull = false
  shows : ∀ (logging : Bool) (recs : List (R × Bool)), recs.length = b.hwm →
    ∃ b' v b'', appendAll64 logging recs b.truncate = some b' ∧
      b'.getBufferView b'.head.headIdx = some (v, b'') ∧
      v.records.map (fun w => (w.record, w.isTombstone)) = recs

end Defs

/-- Up to `2^64` records the tail is not behind the head, and `append64` is `append`. -/
theorem append64_eq {b : MutableBuffer R} (hhead : b.head.headIdx ≤ b.tail)
    (htail : b.tail + 1 < 2 ^ 64) (rec : R) (ts logging : Bool) :
    b.append64 rec ts logging = b.append rec ts logging := by
  have hcount : b.getRecordCount64 = b.getRecordCount := by
    rw [getRecordCount64, getRecordCount,
      show b.tail + 2 ^ 64 - b.head.headIdx = b.tail - b.head.headIdx + 2 ^ 64 by omega,
      Nat.add_mod_right, Nat.mod_eq_of_lt (by omega)]
  by_cases hfull : b.hwm ≤ b.getRecordCount
  · rw [append64, if_pos (by simpa [isFull, hcount] using hfull), append_of_full hfull]
  · have hroom : b.getRecordCount < b.hwm := not_le.mp hfull
    rw [append64, if_neg (by simpa [isFull, hcount] using hfull)]
    by_cases hneg : toInt32 b.tail = -1#32
    · rw [append_of_neg_one hroom hneg]
      simp only [if_pos hneg, Nat.mod_eq_of_lt htail]
    · rw [append_of_room hroom hneg]
      simp only [if_neg hneg, Nat.mod_eq_of_lt htail]

/-- Watermarks and indexes fit in a `size_t`, and the ring has a slot to spare. -/
structure Words (b : MutableBuffer R) : Prop where
  hwm_lt_cap : b.hwm < b.cap
  hwm_lt : b.hwm < 2 ^ 64
  head_lt : b.head.headIdx < 2 ^ 64
  tail_lt : b.tail < 2 ^ 64

/-- A record written to its slot, with the tail moved on -/
structure Written (b : MutableBuffer R) (rec : R) (ts : Bool) (b' : MutableBuffer R) : Prop where
  hwm : b'.hwm = b.hwm
  cap : b'.cap = b.cap
  head : b'.head = b.head
  oldHead : b'.oldHead = b.oldHead
  tail : b'.tail = (b.tail + 1) % 2 ^ 64
  data : b'.data = Function.update b.data (b.slot b.tail) (slotContent rec ts (b.slot b.tail))

theorem append64_cases (b : MutableBuffer R) (rec : R) (ts logging : Bool) :
    b.append64 rec ts logging = (0, b) ∨
    b.append64 rec ts logging = (0, { b with tail := (b.tail + 1) % 2 ^ 64 }) ∨
    ∃ b', b.append64 rec ts logging = (1, b') ∧ b.isFull = false ∧ toInt32 b.tail ≠ -1#32 ∧
      Written b rec ts b' := by
  by_cases hfull : b.isFull
  · exact .inl (if_pos hfull)
  by_cases hneg : toInt32 b.tail = -1#32
  · exact .inr (.inl ((if_neg hfull).trans (if_pos hneg)))
  · refine .inr (.inr ⟨_, (if_neg hfull).trans (if_neg hneg), Bool.not_eq_true _ ▸ hfull, hneg, ?_⟩)
    exact ⟨rfl, rfl, rfl, rfl, rfl, rfl⟩

theorem append64_eq_one {b : MutableBuffer R} (hfull : b.isFull = false)
    (hneg : toInt32 b.tail ≠ -1#32) (rec : R) (ts logging : Bool) :
    (b.append64 rec ts logging).1 = 1 := by
  rw [append64, if_neg (Bool.eq_false_iff.mp hfull), if_neg hneg]

theorem Words.append64 {b : MutableBuffer R} (h : b.Words) (rec : R) (ts logging : Bool) :
    (b.append64 rec ts logging).2.Words := by
  have hmod : (b.tail + 1) % 2 ^ 64 < 2 ^ 64 := Nat.mod_lt _ (by decide)
  rcases append64_cases b rec ts logging with heq | heq | ⟨b', heq, -, -, hw⟩
  · rwa [heq]
  · rw [heq]
    exact ⟨h.1, h.2, h.3, hmod⟩
  · rw [heq]
    exact ⟨hw.hwm ▸ hw.cap ▸ h.1, hw.hwm ▸ h.2, hw.head ▸ h.3, hw.tail ▸ hmod⟩

omit [Zero R] in
theorem Words.sameRing {b b' : MutableBuffer R} (h : b.Words) (hs : b.SameRing b') : b'.Words :=
  ⟨hs.hwm ▸ hs.cap ▸ h.1, hs.hwm ▸ h.2, hs.heads.1 ▸ h.3, hs.tail ▸ h.4⟩

theorem Words.advanceHead {b b' : MutableBuffer R} (h : b.Words) {newHead : Nat} {moved : Bool}
    (hstep : b.advanceHead newHead = some (moved, b')) : b'.Words := by
  cases moved with
  | true =>
    obtain ⟨-, hle, rfl⟩ := advanceHead_cases hstep
    exact ⟨h.1, h.2, hle.trans_lt h.4, h.4⟩
  | false =>
    obtain ⟨_, -, hstep⟩ := Option.bind_eq_some_iff.mp hstep
    obtain ⟨_, -, hstep⟩ := Option.bind_eq_some_iff.mp hstep
    split at hstep
    · obtain ⟨-, rfl⟩ := Prod.mk.inj (Option.some.inj hstep)
      exact h
    · cases (Prod.mk.inj (Option.some.inj hstep)).1

theorem Reach.words {b : MutableBuffer R} {held : List Nat} (h : Reach b held) : b.Words := by
  induction h with
  | new lwm hwm capacity wal hcap hlt hle hword =>
    exact ⟨hlt, hword, Nat.two_pow_pos 64, Nat.two_pow_pos 64⟩
  | append _ rec ts logging ih => exact ih.append64 rec ts logging
  | advanceHead _ hstep ih => exact ih.advanceHead hstep
  | acquire _ hstep ih => exact ih.sameRing (getBufferView_cases hstep).2
  | release _ _ hstep ih => exact ih.sameRing (sameRing_releaseHeadReference hstep)

section Appends

/-- What appends that all return 1 leave: the tail moved on, and in each slot the record of an
append that wrote it, or what was there if none did. -/
structure Filled (b : MutableBuffer R) (recs : List (R × Bool)) (b' : MutableBuffer R) : Prop where
  hwm : b'.hwm = b.hwm
  cap : b'.cap = b.cap
  head : b'.head = b.head
  tail : b'.tail = b.tail + recs.length
  named : ∀ k, k < recs.length → toInt32 (b.tail + k) ≠ -1#32
  data : ∀ i, (∃ k r, recs[k]? = some r ∧ b.slot (b.tail + k) = i ∧
      b'.data i = slotContent r.1 r.2 i) ∨
    b'.data i = b.data i ∧ ∀ k, k < recs.length → b.slot (b.tail + k) ≠ i

theorem appendAll64_filled {logging : Bool} {recs : List (R × Bool)} {b b' : MutableBuffer R}
    (h : appendAll64 logging recs b = some b') (hfits : b.tail + recs.length < 2 ^ 64) :
    Filled b recs b' := by
  induction recs generalizing b with
  | nil =>
    obtain rfl := Option.some.inj h
    exact ⟨rfl, rfl, rfl, rfl, fun k hk => absurd hk (Nat.not_lt_zero k),
      fun i => .inr ⟨rfl, fun k hk => absurd hk (Nat.not_lt_zero k)⟩⟩
  | cons r recs ih =>
    obtain ⟨rec, ts⟩ := r
    rw [List.length_cons] at hfits
    rw [appendAll64] at h
    rcases append64_cases b rec ts logging with heq | heq | ⟨b₁, heq, -, hneg, hw⟩
    · rw [heq] at h
      cases h
    · rw [heq] at h
      cases h
    replace h : appendAll64 logging recs b₁ = some b' := by rwa [heq] at h
    have htail : b₁.tail = b.tail + 1 := hw.tail.trans (Nat.mod_eq_of_lt (by omega))
    have hf := ih h (by omega)
    have hslot : ∀ t, b₁.slot t = b.slot t := fun t => by rw [slot, slot, hw.cap]
    refine ⟨hf.hwm.trans hw.hwm, hf.cap.trans hw.cap, hf.head.trans hw.head,
      by rw [hf.tail, htail, List.length_cons]; omega, fun k hk => ?_, fun i => ?_⟩
    · cases k with
      | zero => exact hneg
      | succ k =>
        have hnamed := hf.named k (Nat.lt_of_succ_lt_succ hk)
        rwa [htail, Nat.add_assoc, Nat.add_comm 1 k] at hnamed
    rcases hf.data i with ⟨k, r', hr', hk, hdata⟩ | ⟨hdata, hnone⟩
    · refine .inl ⟨k + 1, r', hr', ?_, hdata⟩
      rwa [hslot, htail, Nat.add_assoc, Nat.add_comm 1 k] at hk
    rw [hw.data] at hdata
    by_cases hi : b.slot b.tail = i
    · -- the first append wrote the slot, and none after it
      refine .inl ⟨0, (rec, ts), rfl, hi, hdata.trans ?_⟩
      rw [← hi, Function.update_self]
    · refine .inr ⟨hdata.trans (Function.update_of_ne (Ne.symm hi) ..), fun k hk => ?_⟩
      cases k with
      | zero => exact hi
      | succ k =>
        have hne := hnone k (Nat.lt_of_succ_lt_succ hk)
        rwa [hslot, htail, Nat.add_assoc, Nat.add_comm 1 k] at hne

theorem exists_appendAll64 (logging : Bool) (recs : List (R × Bool)) {b : MutableBuffer R}
    (hhead : b.head.headIdx = 0) (hroom : b.tail + recs.length ≤ b.hwm) (hword : b.hwm < 2 ^ 64)
    (hnamed : ∀ t, t < b.hwm → toInt32 t ≠ -1#32) :
    ∃ b', appendAll64 logging recs b = some b' := by
  induction recs generalizing b with
  | nil => exact ⟨b, rfl⟩
  | cons r recs ih =>
    obtain ⟨rec, ts⟩ := r
    rw [List.length_cons] at hroom
    have hfull : b.isFull = false := by
      rw [isFull, getRecordCount64, hhead, Nat.sub_zero, Nat.add_mod_right,
        Nat.mod_eq_of_lt (by omega)]
      exact decide_eq_false (by omega)
    have hone := append64_eq_one hfull (hnamed b.tail (by omega)) rec ts logging
    rcases append64_cases b rec ts logging with heq | heq | ⟨b₁, heq, -, -, hw⟩
    · rw [heq] at hone
      cases hone
    · rw [heq] at hone
      cases hone
    have htail : b₁.tail = b.tail + 1 := hw.tail.trans (Nat.mod_eq_of_lt (by omega))
    obtain ⟨b', hb'⟩ := ih (b := b₁) (by rw [hw.head, hhead]) (by rw [htail, hw.hwm]; omega)
      (by rwa [hw.hwm]) (by rwa [hw.hwm])
    exact ⟨b', by rw [appendAll64, heq]; exact hb'⟩

end Appends

/-- The tails `0`, ..., `hwm - 1` keep their slots through the `int32_t` of `append`. -/
def TailsOk (b : MutableBuffer R) : Prop := ∀ t, t < b.hwm → SlotOk { b with tail := t }

omit [Zero R] in
theorem tailsOk_of_le {b : MutableBuffer R} (h : b.hwm ≤ 2 ^ 31) : b.TailsOk :=
  fun _ ht => slotOk_of_lt (ht.trans_le h)

theorem resets_of_head_zero {b : MutableBuffer R} (h : b.Words) (hhead : b.head.headIdx = 0)
    (hpos : 0 < b.hwm) (hok : b.TailsOk) : b.Resets := by
  have hcount : b.truncate.getRecordCount64 = 0 := by
    show (0 + 2 ^ 64 - b.head.headIdx) % 2 ^ 64 = 0
    rw [hhead, Nat.sub_zero, Nat.zero_add, Nat.mod_self]
  refine ⟨hcount, ?_, fun logging recs hlen => ?_⟩
  · rw [isFull, hcount]
    exact decide_eq_false (not_le.mpr hpos)
  have hwm_lt := h.hwm_lt
  have hcap := h.hwm_lt_cap
  obtain ⟨b', hrun⟩ := exists_appendAll64 logging recs (b := b.truncate) hhead
    (show 0 + recs.length ≤ b.hwm by omega) hwm_lt fun t ht => (hok t ht).1
  have hf := appendAll64_filled hrun (show 0 + recs.length < 2 ^ 64 by omega)
  have hhead' : b'.head.headIdx = 0 := hf.head ▸ hhead
  have htail : b'.tail = recs.length := hf.tail.trans (Nat.zero_add _)
  have hcap' : b'.cap = b.cap := hf.cap
  obtain ⟨⟨v, b''⟩, hview⟩ := Option.isSome_iff_exists.mp
    (getBufferView_isSome (b := b') (.inr rfl))
  refine ⟨b', v, b'', hrun, hview, ?_⟩
  obtain rfl := (getBufferView_cases hview).1
  have hlen' : (b'.viewFrom b'.head.headIdx).getRecordCount = recs.length := by
    rw [BufferView.getRecordCount, viewFrom, hhead', htail, Nat.sub_zero]
  have hfits : (b'.viewFrom b'.head.headIdx).getRecordCount ≤ b'.cap := by omega
  rw [BufferView.records_eq _ hfits, hlen', List.map_map]
  refine List.ext_getElem (by simp) fun i hi hi' => ?_
  have hslot : ∀ k, k < recs.length → b.truncate.slot (b.truncate.tail + k) = k := by
    intro k hk
    have hs := (hok k (by omega)).2
    rw [show b.truncate.tail + k = k from Nat.zero_add k]
    exact hs.trans (Nat.mod_eq_of_lt (show k < b.cap by omega))
  have hat : (0 + i) % b'.cap = i := by rw [Nat.zero_add, hcap', Nat.mod_eq_of_lt (by omega)]
  simp only [List.getElem_map, List.getElem_range, Function.comp_apply, viewFrom, hhead', hat]
  rcases hf.data i with ⟨k, r, hr, hk, hdata⟩ | ⟨-, hnone⟩
  · rw [hslot k (List.getElem?_eq_some_iff.mp hr).1] at hk
    subst hk
    rw [hdata, record_slotContent, isTombstone_slotContent]
    exact ((List.getElem?_eq_some_iff.mp hr).2).symm
  · exact absurd (hslot i hi') (hnone i hi')

/-- A tail that loses its slot loses the record: its entry of the view is another append's or
was there before. -/
theorem Resets.tailsOk {b : MutableBuffer R} (h : b.Resets) (hw : b.Words)
    (hhead : b.head.headIdx = 0) : b.TailsOk := by
  intro t ht
  have hwm_lt := hw.hwm_lt
  have hcap := hw.hwm_lt_cap
  -- all records alike, but for the one at `t`, which is neither like them nor like the old slot
  let recs : List (R × Bool) := (List.range b.hwm).map fun k =>
    (0, if k = t then !(b.data t).isTombstone else (b.data t).isTombstone)
  have hlen : recs.length = b.hwm := by simp [recs]
  obtain ⟨b', v, b'', hrun, hview, hshows⟩ := h.shows false recs hlen
  have hf := appendAll64_filled hrun (show 0 + recs.length < 2 ^ 64 by omega)
  have hnamed := hf.named t (by omega)
  rw [show b.truncate.tail + t = t from Nat.zero_add t] at hnamed
  refine ⟨hnamed, ?_⟩
  by_contra hslot
  replace hslot : b.slot t ≠ t := fun heq =>
    hslot (heq.trans (Nat.mod_eq_of_lt (show t < b.cap by omega)).symm)
  have hhead' : b'.head.headIdx = 0 := hf.head ▸ hhead
  have htail : b'.tail = b.hwm := hf.tail.trans ((Nat.zero_add _).trans hlen)
  have hcap' : b'.cap = b.cap := hf.cap
  obtain rfl := (getBufferView_cases hview).1
  have hlen' : (b'.viewFrom b'.head.headIdx).getRecordCount = b.hwm := by
    rw [BufferView.getRecordCount, viewFrom, hhead', htail, Nat.sub_zero]
  have hat : (0 + t) % b'.cap = t := by rw [Nat.zero_add, hcap', Nat.mod_eq_of_lt (by omega)]
  have hentry := congrArg (·[t]?) hshows
  have hfits : (b'.viewFrom b'.head.headIdx).getRecordCount ≤ b'.cap := by omega
  rw [BufferView.records_eq _ hfits, hlen', List.map_map] at hentry
  simp only [recs, List.getElem?_map, List.getElem?_range ht, Option.map_some, Function.comp_apply,
    viewFrom, hhead', hat, if_true, Option.some.injEq, Prod.mk.injEq] at hentry
  rcases hf.data t with ⟨k, r, hr, hk, hdata⟩ | ⟨hdata, -⟩
  · have hne : k ≠ t := by
      rintro rfl
      exact hslot ((congrArg b.slot (Nat.zero_add k)).symm.trans hk)
    have hlike : r.2 = (b.data t).isTombstone := by
      obtain ⟨hk', rfl⟩ := List.getElem?_eq_some_iff.mp hr
      simp [recs, hne]
    rw [hdata, isTombstone_slotContent, hlike] at hentry
    simp at hentry
  · rw [hdata] at hentry
    simp [truncate] at hentry

/-- A truncated buffer is like a new one exactly if its head never moved, it may hold a record at
all, and its first tails keep their slots. -/
theorem truncate_resets_iff {b : MutableBuffer R} (h : Reach b []) :
    b.Resets ↔ b.head.headIdx = 0 ∧ 0 < b.hwm ∧ b.TailsOk := by
  have hw := h.words
  refine ⟨fun hr => ?_, fun ⟨hhead, hpos, hok⟩ => resets_of_head_zero hw hhead hpos hok⟩
  have hhead : b.head.headIdx = 0 := by
    have hcount : (0 + 2 ^ 64 - b.head.headIdx) % 2 ^ 64 = 0 := hr.count
    have hlt := hw.head_lt
    by_contra hne
    rw [Nat.mod_eq_of_lt (by omega)] at hcount
    omega
  refine ⟨hhead, ?_, hr.tailsOk hw hhead⟩
  by_contra hzero
  have hfull := hr.notFull
  rw [isFull, hr.count] at hfull
  exact of_decide_eq_false hfull (show b.hwm ≤ 0 by omega)

/-- Once the head has moved, a truncated buffer counts far too many records, and refuses every
append. -/
theorem truncate_refuses {b : MutableBuffer R} (hpos : 0 < b.head.headIdx)
    (hsmall : b.head.headIdx + b.hwm ≤ 2 ^ 64) :
    b.truncate.getRecordCount64 = 2 ^ 64 - b.head.headIdx ∧ b.truncate.isFull = true ∧
      ∀ rec tombstone logging, b.truncate.append64 rec tombstone logging = (0, b.truncate) := by
  have hcount : b.truncate.getRecordCount64 = 2 ^ 64 - b.head.headIdx := by
    show (0 + 2 ^ 64 - b.head.headIdx) % 2 ^ 64 = _
    rw [Nat.zero_add, Nat.mod_eq_of_lt (by omega)]
  have hfull : b.truncate.isFull = true := by
    rw [isFull, hcount]
    exact decide_eq_true (show b.hwm ≤ 2 ^ 64 - b.head.headIdx by omega)
  exact ⟨hcount, hfull, fun _ _ _ => if_pos hfull⟩

/-- A buffer for two records with one in it -/
def oneAppended : MutableBuffer Nat := ((emptyOf 1 2 0 none).append64 7 true false).2

theorem reach_oneAppended : Reach oneAppended [] :=
  .append (.new 1 2 0 none (by decide) (by decide) (by decide) (by decide)) 7 true false

theorem truncate_resets_iff_sample : oneAppended.Resets :=
  (truncate_resets_iff reach_oneAppended).mpr
    ⟨by decide +kernel, by decide +kernel, tailsOk_of_le (by decide +kernel)⟩

/-- The buffer whose head has moved behind its one record -/
theorem not_truncate_resets : ∃ b : MutableBuffer Nat, Reach b [] ∧ b.head.headIdx = 1 ∧
    b.truncate.getRecordCount64 = 2 ^ 64 - 1 ∧ b.truncate.isFull = true ∧
    (∀ rec tombstone logging, (b.truncate.append64 rec tombstone logging).1 = 0) ∧ ¬ b.Resets := by
  have hmove : oneAppended.advanceHead 1 = some _ :=
    BufferRun.advanceHead_eq (by decide +kernel) (by decide +kernel)
  rw [if_neg (by decide +kernel)] at hmove
  have hrefuses := truncate_refuses (b := { oneAppended with
      head := ⟨1, 0⟩
      oldHead := oneAppended.head
      wal := oneAppended.wal.map fun w => w.flushBegin.flushComplete }) Nat.one_pos
    (by decide +kernel)
  obtain ⟨hcount, hfull, happend⟩ := hrefuses
  refine ⟨_, reach_oneAppended.advanceHead hmove, rfl, hcount, hfull,
    fun rec ts logging => by rw [happend], fun h => ?_⟩
  rw [h.notFull] at hfull
  cases hfull

end MutableBuffer
end De

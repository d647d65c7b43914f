import DynamicExtension.MutableBuffer
set_option autoImplicit false

namespace De
variable {R : Type}

namespace BufferView

/-- The ring slots in the order in which `delete_record` reads them -/
def scanned (v : BufferView R) : List Nat :=
  if v.start < v.stop then
    List.range' v.start (v.stop - v.start)
  else
    List.range' v.start (v.cap - v.start) ++ List.range v.stop

/-- `delete_record`, with the ring that it leaves -/
def deleteRecord [DecidableEq R] (v : BufferView R) (rec : R) : Bool × (Nat → Wrapped R) :=
  match v.scanned.find? fun i => (v.data i).record = rec with
  | some i => (true, Function.update v.data i (v.data i).setDelete)
  | none => (false, v.data)

/-- `memcpy` of `n` slots; it has no defined result past the end of the ring. -/
def memcpy (v : BufferView R) (src n : Nat) : Option (List (Wrapped R)) :=
  if src + n ≤ v.cap then some ((List.range' src n).map v.data) else none

def copyToBuffer (v : BufferView R) : Option (List (Wrapped R)) :=
  if v.start > v.stop then do
    let splitIdx := v.cap - v.start
    return (← v.memcpy v.start splitIdx) ++ (← v.memcpy 0 v.stop)
  else
    v.memcpy v.start v.getRecordCount

/-- `filter` is `lookup` of the tombstone filter, if there is one. -/
def checkTombstone [DecidableEq R] (filter : Option (R → Bool)) (v : BufferView R) (rec : R) :
    Bool :=
  if filter.any fun lookup => !lookup rec then
    false
  else
    (List.range v.getRecordCount).any fun i =>
      decide ((v.data (v.toIdx i)).record = rec) && (v.data (v.toIdx i)).isTombstone

theorem range'_eq_map (start n : Nat) : List.range' start n = (List.range n).map (start + ·) := by
  rw [List.range_eq_range', List.map_add_range', Nat.add_zero]

section Window
variable {v : BufferView R}

theorem toIdx_of_lt {i : Nat} (h : v.start + i < v.cap) : v.toIdx i = v.start + i :=
  if_neg (by omega)

theorem toIdx_of_le {i : Nat} (h : v.cap ≤ v.start + i) : v.toIdx i = i - (v.cap - v.start) :=
  if_pos h

theorem stop_eq (hle : v.head ≤ v.tail) (hcap : v.tail - v.head ≤ v.cap) (hpos : 0 < v.cap) :
    v.stop = if v.start + v.getRecordCount < v.cap then v.start + v.getRecordCount
      else v.getRecordCount - (v.cap - v.start) := by
  have hs : v.start < v.cap := Nat.mod_lt _ hpos
  have hn : v.getRecordCount = v.tail - v.head := rfl
  have hstop : v.stop = (v.start + v.getRecordCount) % v.cap := by
    rw [stop, start, Nat.mod_add_mod, hn, Nat.add_sub_cancel' hle]
  rw [hstop]
  split
  · rename_i hlt
    exact Nat.mod_eq_of_lt hlt
  · rw [Nat.mod_eq_sub_mod (by omega), Nat.mod_eq_of_lt (by omega)]
    omega

theorem slots_split (hs : v.start < v.cap) {m : Nat} :
    (List.range ((v.cap - v.start) + m)).map v.toIdx =
      List.range' v.start (v.cap - v.start) ++ List.range m := by
  rw [List.range_add, List.map_append, range'_eq_map, List.map_map]
  congr 1
  · refine List.map_congr_left fun i hi => ?_
    rw [List.mem_range] at hi
    exact toIdx_of_lt (by omega)
  · conv_rhs => rw [← List.map_id (List.range m)]
    refine List.map_congr_left fun i _ => ?_
    rw [Function.comp_apply, toIdx_of_le (by omega), id]
    omega

theorem slots_whole {n : Nat} (h : v.start + n ≤ v.cap) :
    (List.range n).map v.toIdx = List.range' v.start n := by
  rw [range'_eq_map]
  refine List.map_congr_left fun i hi => ?_
  rw [List.mem_range] at hi
  exact toIdx_of_lt (by omega)

theorem records_eq_map : v.records = ((List.range v.getRecordCount).map v.toIdx).map v.data := by
  rw [records, List.map_map]
  rfl

/-- `delete_record` reads a window with records in its own order. -/
theorem scanned_eq (hlt : v.head < v.tail) (hcap : v.tail - v.head ≤ v.cap) :
    v.scanned = (List.range v.getRecordCount).map v.toIdx := by
  have hpos : 0 < v.cap := by omega
  have hs : v.start < v.cap := Nat.mod_lt _ hpos
  have hn : v.getRecordCount = v.tail - v.head := rfl
  have hstop := stop_eq hlt.le hcap hpos
  split at hstop
  · rename_i hwhole
    rw [scanned, if_pos (by omega), slots_whole hwhole.le, hstop, Nat.add_sub_cancel_left]
  · have hsplit : v.getRecordCount = (v.cap - v.start) + v.stop := by omega
    rw [scanned, if_neg (by omega), hsplit, slots_split hs]

theorem mem_scanned_empty (h : v.head = v.tail) (hcap : 0 < v.cap) (i : Nat) :
    i ∈ v.scanned ↔ i < v.cap := by
  have hstop : v.stop = v.start := by rw [stop, start, h]
  have hs : v.start < v.cap := Nat.mod_lt _ hcap
  rw [scanned, if_neg (by omega), hstop, List.mem_append, List.mem_range'_1, List.mem_range]
  omega

theorem copyToBuffer_eq (hle : v.head ≤ v.tail) (hcap : v.tail - v.head ≤ v.cap)
    (hpos : 0 < v.cap) :
    v.copyToBuffer =
      if v.getRecordCount = v.cap ∧ v.start ≠ 0 then none else some v.records := by
  have hs : v.start < v.cap := Nat.mod_lt _ hpos
  have hn : v.getRecordCount = v.tail - v.head := rfl
  have hstop := stop_eq hle hcap hpos
  rw [records_eq_map]
  split at hstop
  · rename_i hwhole
    rw [copyToBuffer, if_neg (by omega), memcpy, if_pos (by omega), if_neg (by omega),
      slots_whole hwhole.le]
  · by_cases hfull : v.getRecordCount = v.cap
    · by_cases hzero : v.start = 0
      · rw [copyToBuffer, if_neg (by omega), memcpy, if_pos (by omega), if_neg (by tauto),
          slots_whole (by omega)]
      · rw [copyToBuffer, if_neg (by omega), memcpy, if_neg (by omega), if_pos ⟨hfull, hzero⟩]
    · have hsplit : v.getRecordCount = (v.cap - v.start) + v.stop := by omega
      have hfirst : v.memcpy v.start (v.cap - v.start) =
          some ((List.range' v.start (v.cap - v.start)).map v.data) := if_pos (by omega)
      have hsecond : v.memcpy 0 v.stop = some ((List.range v.stop).map v.data) := by
        rw [memcpy, if_pos (by omega), List.range_eq_range']
      rw [copyToBuffer, if_pos (by omega)]
      simp only [hfirst, hsecond]
      rw [if_neg (by tauto), hsplit, slots_split hs, List.map_append]
      rfl

theorem toIdx_inj (hs : v.start < v.cap) {i j : Nat} (hi : i < v.cap) (hj : j < v.cap)
    (h : v.toIdx i = v.toIdx j) : i = j := by
  unfold toIdx at h
  split_ifs at h <;> omega

theorem nodup_slots (hcap : v.getRecordCount ≤ v.cap) (hpos : 0 < v.cap) :
    ((List.range v.getRecordCount).map v.toIdx).Nodup := by
  refine List.Nodup.map_on (fun i hi j hj hij => ?_) List.nodup_range
  rw [List.mem_range] at hi hj
  exact toIdx_inj (Nat.mod_lt _ hpos) (by omega) (by omega) hij

end Window

section Agree
variable [DecidableEq R] {v : BufferView R} {rec : R}

/-- Record `i` is the first of the view that is equal to `rec`. -/
def FirstAt (v : BufferView R) (rec : R) (i : Nat) : Prop :=
  i < v.getRecordCount ∧ (v.get i).record = rec ∧ ∀ j < i, (v.get j).record ≠ rec

omit [DecidableEq R] in
theorem FirstAt.unique {i j : Nat} (hi : v.FirstAt rec i) (hj : v.FirstAt rec j) : i = j := by
  rcases Nat.lt_trichotomy i j with hlt | heq | hgt
  · exact absurd hi.2.1 (hj.2.2 i hlt)
  · exact heq
  · exact absurd hj.2.1 (hi.2.2 j hgt)

/-- What the operations do is what the records `get(0), …, get(n - 1)` say. -/
structure OpsAgree (filter : Option (R → Bool)) (v : BufferView R) (rec : R) : Prop where
  copied : v.copyToBuffer = some ((List.range v.getRecordCount).map v.get)
  found : (v.deleteRecord rec).1 = true ↔ ∃ i < v.getRecordCount, (v.get i).record = rec
  marked : ∀ i, v.FirstAt rec i → (v.deleteRecord rec).2 (v.toIdx i) = (v.get i).setDelete
  kept : ∀ p, (∀ i, v.FirstAt rec i → p ≠ v.toIdx i) → (v.deleteRecord rec).2 p = v.data p
  tombstone : v.checkTombstone filter rec = true ↔
    ∃ i < v.getRecordCount, (v.get i).record = rec ∧ (v.get i).isTombstone = true

/-- In a window with records `delete_record` marks the first one that is equal. -/
theorem deleteRecord_window (hlt : v.head < v.tail) (hcap : v.tail - v.head ≤ v.cap) (rec : R) :
    (∃ i, v.FirstAt rec i ∧
        v.deleteRecord rec = (true, Function.update v.data (v.toIdx i) (v.get i).setDelete)) ∨
      (∀ i < v.getRecordCount, (v.get i).record ≠ rec) ∧ v.deleteRecord rec = (false, v.data) := by
  have hfind : v.scanned.find? (fun i => (v.data i).record = rec) =
      ((List.range v.getRecordCount).find? fun i => (v.get i).record = rec).map v.toIdx := by
    rw [scanned_eq hlt hcap, List.find?_map]
    rfl
  cases hrange : (List.range v.getRecordCount).find? fun i => (v.get i).record = rec with
  | none =>
    refine .inr ⟨by simpa using hrange, ?_⟩
    rw [deleteRecord, hfind, hrange]
    rfl
  | some i =>
    rw [List.find?_range_eq_some] at hrange
    obtain ⟨hrec, hmem, hbefore⟩ := hrange
    refine .inl ⟨i, ⟨List.mem_range.mp hmem, by simpa using hrec, by simpa using hbefore⟩, ?_⟩
    have hsome : (List.range v.getRecordCount).find? (fun i => (v.get i).record = rec) = some i :=
      List.find?_range_eq_some.mpr ⟨hrec, hmem, hbefore⟩
    rw [deleteRecord, hfind, hsome]
    rfl

/-- In an empty window `delete_record` returns true for what any slot of the ring holds. -/
theorem deleteRecord_empty (h : v.head = v.tail) (hcap : 0 < v.cap) (rec : R) :
    (v.deleteRecord rec).1 = true ↔ ∃ i < v.cap, (v.data i).record = rec := by
  rw [deleteRecord]
  cases hfind : v.scanned.find? fun i => (v.data i).record = rec with
  | none =>
    have hnone := List.find?_eq_none.mp hfind
    simp only [Bool.false_eq_true, false_iff, not_exists, not_and]
    intro i hi hrec
    exact hnone i ((mem_scanned_empty h hcap i).mpr hi) (by simpa using hrec)
  | some i =>
    simp only [true_iff]
    exact ⟨i, (mem_scanned_empty h hcap i).mp (List.mem_of_find?_eq_some hfind),
      by simpa using List.find?_some hfind⟩

theorem checkTombstone_iff {filter : Option (R → Bool)}
    (hfilter : ∀ lookup ∈ filter, ∀ i < v.getRecordCount, (v.get i).isTombstone = true →
      lookup (v.get i).record = true) (rec : R) :
    v.checkTombstone filter rec = true ↔
      ∃ i < v.getRecordCount, (v.get i).record = rec ∧ (v.get i).isTombstone = true := by
  have hloop : ((List.range v.getRecordCount).any fun i =>
      decide ((v.data (v.toIdx i)).record = rec) && (v.data (v.toIdx i)).isTombstone) = true ↔
      ∃ i < v.getRecordCount, (v.get i).record = rec ∧ (v.get i).isTombstone = true := by
    simp only [List.any_eq_true, List.mem_range, Bool.and_eq_true, decide_eq_true_eq]
    rfl
  cases filter with
  | none => simpa [checkTombstone] using hloop
  | some lookup =>
    by_cases hmiss : lookup rec = true
    · simpa [checkTombstone, hmiss] using hloop
    · simp only [checkTombstone, hmiss, Option.any_some, Bool.not_false, if_true,
        Bool.false_eq_true, false_iff, not_exists, not_and]
      rintro i hi rfl htomb
      exact hmiss (hfilter lookup rfl i hi htomb)

/-- The operations agree on a view if and only if it is not a full one past slot 0, which
`copy_to_buffer` reads in one piece, nor an empty one over a ring that holds the record. -/
theorem opsAgree_iff (hle : v.head ≤ v.tail) (hcap : v.tail - v.head ≤ v.cap) (hpos : 0 < v.cap)
    {filter : Option (R → Bool)}
    (hfilter : ∀ lookup ∈ filter, ∀ i < v.getRecordCount, (v.get i).isTombstone = true →
      lookup (v.get i).record = true) (rec : R) :
    OpsAgree filter v rec ↔
      ¬ (v.getRecordCount = v.cap ∧ v.start ≠ 0) ∧
        (v.getRecordCount = 0 → ∀ i < v.cap, (v.data i).record ≠ rec) := by
  have hn : v.getRecordCount = v.tail - v.head := rfl
  constructor
  · intro h
    refine ⟨fun hfull => ?_, fun hzero i hi hrec => ?_⟩
    · have := h.copied
      rw [copyToBuffer_eq hle hcap hpos, if_pos hfull] at this
      cases this
    · have := h.found.mp ((deleteRecord_empty (by omega) hpos rec).mpr ⟨i, hi, hrec⟩)
      simp [hzero] at this
  · rintro ⟨hcopy, hring⟩
    have hcopied : v.copyToBuffer = some ((List.range v.getRecordCount).map v.get) := by
      rw [copyToBuffer_eq hle hcap hpos, if_neg hcopy]
      rfl
    by_cases hzero : v.getRecordCount = 0
    · have hmiss : v.deleteRecord rec = (false, v.data) := by
        rw [deleteRecord, List.find?_eq_none.mpr]
        intro i hi
        simpa using hring hzero i ((mem_scanned_empty (by omega) hpos i).mp hi)
      have hnone : ∀ i, ¬ v.FirstAt rec i := by
        intro i hi
        have := hi.1
        omega
      exact ⟨hcopied, by simp [hmiss, hzero], fun i hi => absurd hi (hnone i),
        fun p _ => by rw [hmiss], checkTombstone_iff hfilter rec⟩
    · rcases deleteRecord_window (by omega) hcap rec with ⟨i, hi, hdel⟩ | ⟨hnone, hdel⟩
      · refine ⟨hcopied, ?_, fun j hj => ?_, fun p hp => ?_, checkTombstone_iff hfilter rec⟩
        · simp only [hdel, true_iff]
          exact ⟨i, hi.1, hi.2.1⟩
        · obtain rfl := hi.unique hj
          rw [hdel]
          exact Function.update_self ..
        · rw [hdel]
          exact Function.update_of_ne (hp i hi) _ _
      · refine ⟨hcopied, ?_, fun j hj => absurd hj.2.1 (hnone j hj.1), fun p _ => by rw [hdel],
          checkTombstone_iff hfilter rec⟩
        simpa [hdel] using hnone

/-- A view that reaches the end of its ring and goes on at slot 0 -/
theorem opsAgree_iff_sample :
    let v : BufferView Nat := ⟨fun i => Wrapped.fresh i (i = 0), 3, 5, 4, 1⟩
    OpsAgree (some fun rec => rec = 0) v 0 := by
  intro v
  have hfilter : ∀ lookup ∈ some (fun rec : Nat => decide (rec = 0)),
      ∀ i < v.getRecordCount, (v.get i).isTombstone = true → lookup (v.get i).record = true := by
    intro lookup hlookup
    obtain rfl := Option.some.inj hlookup
    decide
  exact (opsAgree_iff (by decide) (by decide) (by decide) hfilter 0).mpr (by decide)

end Agree

end BufferView

namespace MutableBuffer
open BufferView

/-- On a buffer that was never appended to, `delete_record` finds the zero record; and the old
head's view of a buffer that filled up past slot 0 is not copied. -/
theorem not_opsAgree :
    (∃ v b, (empty 1 1 none : MutableBuffer Nat).getBufferView 0 = some (v, b) ∧
      v.head ≤ v.tail ∧ v.tail - v.head ≤ v.cap ∧ ¬ OpsAgree none v 0) ∧
    ∃ (b₁ b₂ b₃ : MutableBuffer Nat) (v : BufferView Nat),
      ((empty 1 1 none).append 7 false false).2.advanceHead 1 = some (true, b₁) ∧
      (b₁.append 8 false false).2.advanceHead 2 = some (true, b₂) ∧
      (b₂.append 9 false false).2.getBufferView 1 = some (v, b₃) ∧
      v.head ≤ v.tail ∧ v.tail - v.head ≤ v.cap ∧ ¬ OpsAgree none v 7 := by
  constructor
  · refine ⟨⟨fun _ => 0, 0, 0, 2, 0⟩, _, rfl, by decide, by decide, fun h => ?_⟩
    exact absurd (h.found.mp (by decide)) (by decide)
  · refine ⟨_, _, _, _, rfl, rfl, rfl, by decide, by decide, fun h => ?_⟩
    exact absurd (congrArg Option.isSome h.copied) (by decide)

end MutableBuffer

end De

import DynamicExtension.Record
set_option autoImplicit false

namespace De

/-- `BufferView<R>`: the slots `[head, tail)` of a ring of `cap` slots. `data`
is what the slots hold when the view is used. -/
structure BufferView (R : Type) where
  data : Nat → Wrapped R
  head : Nat
  tail : Nat
  cap : Nat
  approxTsCnt : Nat

namespace BufferView
variable {R : Type}

def start (v : BufferView R) : Nat := v.head % v.cap
def stop (v : BufferView R) : Nat := v.tail % v.cap
def getRecordCount (v : BufferView R) : Nat := v.tail - v.head
def getTombstoneCount (v : BufferView R) : Nat := v.approxTsCnt

def toIdx (v : BufferView R) (i : Nat) : Nat :=
  if v.start + i ≥ v.cap then i - (v.cap - v.start) else v.start + i

def get (v : BufferView R) (i : Nat) : Wrapped R := v.data (v.toIdx i)

/-- The records of the view, oldest first. -/
def records (v : BufferView R) : List (Wrapped R) := (List.range v.getRecordCount).map v.get

@[simp] theorem length_records (v : BufferView R) : v.records.length = v.getRecordCount := by
  simp [records]

theorem toIdx_eq_mod (v : BufferView R) (i : Nat) (hi : i < v.cap) :
    v.toIdx i = (v.head + i) % v.cap := by
  have hs : v.start < v.cap := Nat.mod_lt _ (by omega)
  have hm : (v.head + i) % v.cap = (v.start + i) % v.cap := by
    rw [start, Nat.mod_add_mod]
  rw [hm, toIdx]
  split
  · rename_i h
    rw [Nat.mod_eq_sub_mod h, Nat.mod_eq_of_lt (by omega)]
    omega
  · rw [Nat.mod_eq_of_lt (by omega)]

theorem records_eq (v : BufferView R) (h : v.getRecordCount ≤ v.cap) :
    v.records = (List.range v.getRecordCount).map (fun i => v.data ((v.head + i) % v.cap)) := by
  apply List.map_congr_left
  intro i hi
  rw [get, v.toIdx_eq_mod i (Nat.lt_of_lt_of_le (List.mem_range.mp hi) h)]

end BufferView

end De

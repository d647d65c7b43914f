import Mathlib
set_option autoImplicit false

namespace De

/-- `Record<K, V>`, compared by key and then by value. -/
@[ext] structure Record (K V : Type) where
  key : K
  value : V
  deriving DecidableEq, Repr

section Order
variable {K V : Type} [LinearOrder K] [LinearOrder V]

instance : LT (Record K V) :=
  ⟨fun a b => a.key < b.key ∨ (a.key = b.key ∧ a.value < b.value)⟩

instance : LE (Record K V) :=
  ⟨fun a b => a.key < b.key ∨ (a.key = b.key ∧ a.value ≤ b.value)⟩

theorem Record.lt_def (a b : Record K V) :
    a < b ↔ a.key < b.key ∨ (a.key = b.key ∧ a.value < b.value) := Iff.rfl

theorem Record.le_def (a b : Record K V) :
    a ≤ b ↔ a.key < b.key ∨ (a.key = b.key ∧ a.value ≤ b.value) := Iff.rfl

instance : DecidableLT (Record K V) := fun a b =>
  inferInstanceAs (Decidable (a.key < b.key ∨ (a.key = b.key ∧ a.value < b.value)))

instance : DecidableLE (Record K V) := fun a b =>
  inferInstanceAs (Decidable (a.key < b.key ∨ (a.key = b.key ∧ a.value ≤ b.value)))

instance : LinearOrder (Record K V) where
  le_refl a := Or.inr ⟨rfl, le_refl _⟩
  le_trans a b c := by
    rintro (h | ⟨h, h'⟩) (g | ⟨g, g'⟩)
    · exact Or.inl (h.trans g)
    · exact Or.inl (g ▸ h)
    · exact Or.inl (h ▸ g)
    · exact Or.inr ⟨h.trans g, h'.trans g'⟩
  le_antisymm a b := by
    rintro (h | ⟨h, h'⟩) (g | ⟨g, g'⟩)
    · exact absurd g (lt_asymm h)
    · exact absurd g.symm (ne_of_lt h)
    · exact absurd h.symm (ne_of_lt g)
    · exact Record.ext h (le_antisymm h' g')
  le_total a b := by
    rcases lt_trichotomy a.key b.key with h | h | h
    · exact Or.inl (Or.inl h)
    · rcases le_total a.value b.value with g | g
      · exact Or.inl (Or.inr ⟨h, g⟩)
      · exact Or.inr (Or.inr ⟨h.symm, g⟩)
    · exact Or.inr (Or.inl h)
  lt_iff_le_not_ge a b := by
    rw [Record.lt_def, Record.le_def, Record.le_def]
    constructor
    · rintro (h | ⟨h, h'⟩)
      · refine ⟨Or.inl h, ?_⟩
        rintro (g | ⟨g, -⟩)
        · exact lt_asymm h g
        · exact ne_of_lt h g.symm
      · refine ⟨Or.inr ⟨h, le_of_lt h'⟩, ?_⟩
        rintro (g | ⟨-, g⟩)
        · exact ne_of_lt g h.symm
        · exact not_lt_of_ge g h'
    · rintro ⟨h | ⟨h, h'⟩, g⟩
      · exact Or.inl h
      · refine Or.inr ⟨h, lt_of_le_of_ne h' fun hv => g (Or.inr ⟨h.symm, le_of_eq hv.symm⟩)⟩
  toDecidableLE := inferInstance
  toDecidableEq := inferInstance
  toDecidableLT := inferInstance

theorem Record.key_le_of_le {a b : Record K V} (h : a ≤ b) : a.key ≤ b.key := by
  rcases h with h | ⟨h, -⟩
  · exact le_of_lt h
  · exact le_of_eq h

end Order

/-- The record a zeroed page or a value-initialised slot holds. -/
instance {K V : Type} [Zero K] [Zero V] : Zero (Record K V) := ⟨⟨0, 0⟩⟩

/-- `Wrapped<R>`: bit 0 of the header marks a tombstone, bit 1 a deleted and
bit 2 a visible record; the rest is the timestamp. -/
structure Wrapped (R : Type) where
  header : BitVec 32
  record : R
  deriving DecidableEq, Repr

namespace Wrapped
variable {R : Type}

def setDelete (w : Wrapped R) : Wrapped R := { w with header := w.header ||| 2#32 }
def isDeleted (w : Wrapped R) : Bool := w.header &&& 2#32 != 0#32
def setVisible (w : Wrapped R) : Wrapped R := { w with header := w.header ||| 4#32 }
def setTimestamp (ts : Nat) (w : Wrapped R) : Wrapped R :=
  { w with header := w.header ||| (BitVec.ofNat 32 ts <<< 3) }

def setTombstone (w : Wrapped R) (val : Bool) : Wrapped R :=
  if val then { w with header := w.header ||| 1#32 } else { w with header := w.header &&& 0#32 }

def isTombstone (w : Wrapped R) : Bool := w.header &&& 1#32 != 0#32

instance [Zero R] : Zero (Wrapped R) := ⟨⟨0#32, 0⟩⟩

theorem or_and_of_disjoint (h m b : BitVec 32) (hd : m &&& b = 0#32) :
    (h ||| m) &&& b = h &&& b := by
  ext i hi
  have hb := congrArg (fun x : BitVec 32 => x[i]) hd
  simp only [BitVec.getElem_and, BitVec.getElem_or, BitVec.getElem_zero] at hb ⊢
  cases h[i] <;> simp_all

theorem timestamp_and_low (ts : Nat) (b : BitVec 32) (hb : b &&& 7#32 = b) :
    (BitVec.ofNat 32 ts <<< 3) &&& b = 0#32 := by
  rw [← hb]
  ext i hi
  simp only [BitVec.getElem_and, BitVec.getElem_shiftLeft, BitVec.getElem_zero]
  by_cases h3 : i < 3
  · simp [h3]
  · have h7 : (7#32)[i] = false := by
      have hlt : i = 3 ∨ 3 < i := by omega
      rw [BitVec.getElem_eq_testBit_toNat]
      apply Nat.testBit_lt_two_pow
      calc (7#32).toNat < 2 ^ 3 := by decide
        _ ≤ 2 ^ i := Nat.pow_le_pow_right (by decide) (by omega)
    simp [h7]

@[simp] theorem record_setDelete (w : Wrapped R) : w.setDelete.record = w.record := rfl
@[simp] theorem record_setVisible (w : Wrapped R) : w.setVisible.record = w.record := rfl
@[simp] theorem record_setTimestamp (ts : Nat) (w : Wrapped R) :
    (w.setTimestamp ts).record = w.record := rfl

@[simp] theorem record_setTombstone (w : Wrapped R) (val : Bool) :
    (w.setTombstone val).record = w.record := by
  cases val <;> rfl

@[simp] theorem isTombstone_setVisible (w : Wrapped R) :
    w.setVisible.isTombstone = w.isTombstone := by
  simp [isTombstone, setVisible, or_and_of_disjoint _ 4#32 1#32 (by decide)]

@[simp] theorem isDeleted_setVisible (w : Wrapped R) :
    w.setVisible.isDeleted = w.isDeleted := by
  simp [isDeleted, setVisible, or_and_of_disjoint _ 4#32 2#32 (by decide)]

@[simp] theorem isTombstone_setTimestamp (ts : Nat) (w : Wrapped R) :
    (w.setTimestamp ts).isTombstone = w.isTombstone := by
  simp [isTombstone, setTimestamp,
    or_and_of_disjoint _ _ 1#32 (timestamp_and_low ts 1#32 (by decide))]

@[simp] theorem isDeleted_setTimestamp (ts : Nat) (w : Wrapped R) :
    (w.setTimestamp ts).isDeleted = w.isDeleted := by
  simp [isDeleted, setTimestamp,
    or_and_of_disjoint _ _ 2#32 (timestamp_and_low ts 2#32 (by decide))]

@[simp] theorem isTombstone_setDelete (w : Wrapped R) :
    w.setDelete.isTombstone = w.isTombstone := by
  simp [isTombstone, setDelete, or_and_of_disjoint _ 2#32 1#32 (by decide)]

@[simp] theorem isDeleted_setDelete (w : Wrapped R) : w.setDelete.isDeleted = true := by
  have h : (w.header ||| 2#32) &&& 2#32 = 2#32 := by
    ext i hi
    simp only [BitVec.getElem_and, BitVec.getElem_or]
    cases w.header[i] <;> simp
  simp [isDeleted, setDelete, h]

/-- The record and whether it is a tombstone -/
def payload (w : Wrapped R) : R × Bool := (w.record, w.isTombstone)

/-- The wrapped record that `MutableBuffer::append` logs. -/
def fresh (r : R) (tombstone : Bool) : Wrapped R :=
  if tombstone then Wrapped.setTombstone ⟨0#32, r⟩ true else ⟨0#32, r⟩

@[simp] theorem record_fresh (r : R) (ts : Bool) : (fresh r ts).record = r := by
  cases ts <;> rfl

@[simp] theorem isTombstone_fresh (r : R) (ts : Bool) : (fresh r ts).isTombstone = ts := by
  cases ts <;> simp [fresh, setTombstone, isTombstone]

@[simp] theorem isDeleted_fresh (r : R) (ts : Bool) : (fresh r ts).isDeleted = false := by
  cases ts <;> simp [fresh, setTombstone, isDeleted]

end Wrapped

section Net
variable {R : Type} [DecidableEq R]

def liveCount (l : List (Wrapped R)) (r : R) : Nat :=
  l.countP (fun w => decide (w.record = r) && !w.isTombstone)

def tombstoneCount (l : List (Wrapped R)) (r : R) : Nat :=
  l.countP (fun w => decide (w.record = r) && w.isTombstone)

/-- Live copies less tombstones, for each record. -/
def net (l : List (Wrapped R)) : R → ℤ := fun r => liveCount l r - tombstoneCount l r

/-- What one wrapped record adds to the net count. -/
def unit (w : Wrapped R) : R → ℤ := fun r =>
  if w.record = r then (if w.isTombstone then -1 else 1) else 0

@[simp] theorem net_nil : net ([] : List (Wrapped R)) = 0 := rfl

theorem net_cons (w : Wrapped R) (l : List (Wrapped R)) : net (w :: l) = unit w + net l := by
  funext r
  simp only [net, unit, liveCount, tombstoneCount, List.countP_cons, Pi.add_apply]
  by_cases hr : w.record = r <;> cases ht : w.isTombstone <;> simp [hr] <;> omega

@[simp] theorem net_append (l m : List (Wrapped R)) : net (l ++ m) = net l + net m := by
  funext r
  simp only [net, liveCount, tombstoneCount, List.countP_append, Pi.add_apply]
  push_cast
  ring

theorem net_perm {l m : List (Wrapped R)} (h : l.Perm m) : net l = net m := by
  funext r
  simp only [net, liveCount, tombstoneCount, h.countP_eq]

theorem net_flatten (ls : List (List (Wrapped R))) : net ls.flatten = (ls.map net).sum := by
  induction ls with
  | nil => rfl
  | cons l ls ih => rw [List.flatten_cons, net_append, ih, List.map_cons, List.sum_cons]

theorem unit_add_unit {a b : Wrapped R} (hr : b.record = a.record)
    (ht : b.isTombstone ≠ a.isTombstone) : unit a + unit b = 0 := by
  funext r
  simp only [unit, Pi.add_apply, Pi.zero_apply, hr]
  by_cases h : a.record = r
  · cases ha : a.isTombstone <;> cases hb : b.isTombstone <;> simp_all
  · simp [h]

theorem net_eq_zero_of_length {l : List (Wrapped R)} (h : l.length = 0) : net l = 0 := by
  rw [List.length_eq_zero_iff.mp h, net_nil]

theorem net_eq_sum (l : List (Wrapped R)) : net l = (l.map unit).sum := by
  induction l with
  | nil => rfl
  | cons w l ih => rw [net_cons, ih, List.map_cons, List.sum_cons]

theorem net_congr {l m : List (Wrapped R)} (h : l.map Wrapped.payload = m.map Wrapped.payload) :
    net l = net m := by
  have hunit : ∀ w : Wrapped R, unit w =
      fun r => if w.payload.1 = r then (if w.payload.2 then -1 else 1) else 0 := fun _ => rfl
  rw [net_eq_sum, net_eq_sum]
  have hmap := congrArg (List.map fun (p : R × Bool) (r : R) =>
    if p.1 = r then (if p.2 then (-1 : ℤ) else 1) else 0) h
  rw [List.map_map, List.map_map] at hmap
  exact congrArg List.sum hmap

end Net

end De

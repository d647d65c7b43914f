import DynamicExtension.BufferView
import DynamicExtension.Library.KWayMerge
set_option autoImplicit false

namespace De

/-- What the code uses of the standard library, with the order of equal
elements left open by `std::sort` and by `std::priority_queue`. -/
structure StdLib (R : Type) [LinearOrder R] where
  sort : List (Wrapped R) → List (Wrapped R)
  sort_perm : ∀ l, (sort l).Perm l
  sort_sorted : ∀ l, (sort l).Pairwise (fun a b => a.record ≤ b.record)
  queue : PQ.PriorityQueue (KWay.Node (Wrapped R)) R (fun n => n.item.record)

/-- The sizes that `NODE_SZ`, `sizeof(Wrapped<R>)` and `INTERNAL_FANOUT` stand for. -/
structure NodeLayout where
  nodeSz : Nat
  recordSz : Nat
  internalFanout : Nat
  recordSz_pos : 0 < recordSz
  recordSz_le : recordSz ≤ nodeSz
  two_le_internalFanout : 2 ≤ internalFanout

def NodeLayout.leafFanout (lay : NodeLayout) : Nat := lay.nodeSz / lay.recordSz

theorem NodeLayout.leafFanout_pos (lay : NodeLayout) : 0 < lay.leafFanout :=
  Nat.div_pos lay.recordSz_le lay.recordSz_pos

/-- One page of a shard file. Slots past the listed records are zero bytes on a
data page, and entries past the listed ones have child 0 on an index page. -/
inductive Page (K V : Type) where
  | data (recs : List (Wrapped (Record K V)))
  | node (entries : List (K × Nat))
  | header (rootPage lastDataPage reccnt internalNodeCnt : Nat)

/-- A page file; `none` is a page past what was written. -/
abbrev File (K V : Type) := Nat → Option (Page K V)

namespace File
variable {K V : Type}

def empty : File K V := fun _ => none

def pwrite (f : File K V) (p : Nat) (img : Page K V) : File K V :=
  fun q => if q = p then some img else f q

@[simp] theorem pwrite_self (f : File K V) (p : Nat) (img : Page K V) :
    f.pwrite p img p = some img := if_pos rfl

theorem pwrite_of_ne (f : File K V) {p q : Nat} (img : Page K V) (h : q ≠ p) :
    f.pwrite p img q = f q := if_neg h

/-- `pread` of page `p` into a buffer that is then used as records. A read past
the end leaves the buffer as it was; `none` is a buffer with no records in it. -/
def readRecords (f : File K V) (p : Nat) (buf : Option (List (Wrapped (Record K V)))) :
    Option (List (Wrapped (Record K V))) :=
  match f p with
  | some (.data recs) => some recs
  | some _ => none
  | none => buf

end File

/-- The number of pages of `lf` slots that `n` records fill. -/
def pageCount (lf n : Nat) : Nat := (n + lf - 1) / lf

theorem lt_pageCount_iff {lf n p : Nat} (hlf : 0 < lf) : p < pageCount lf n ↔ p * lf < n := by
  rw [pageCount, Nat.lt_div_iff_mul_lt hlf]
  omega

/-- The records of data page `p` when pages of `lf` slots are filled in order. -/
def pageOf {α : Type} (lf : Nat) (l : List α) (p : Nat) : List α := (l.drop (p * lf)).take lf

section PageOf
variable {α : Type} {lf : Nat}

theorem length_pageOf (l : List α) (p : Nat) :
    (pageOf lf l p).length = min lf (l.length - p * lf) := by simp [pageOf]

/-- Slot `i` of the whole list is slot `i % lf` of page `i / lf`. -/
theorem getElem?_pageOf (hlf : 0 < lf) (l : List α) (i : Nat) :
    (pageOf lf l (i / lf))[i % lf]? = l[i]? := by
  rw [pageOf, List.getElem?_take_of_lt (Nat.mod_lt i hlf), List.getElem?_drop,
    Nat.mul_comm, Nat.div_add_mod]

theorem getElem?_pageOf_of_lt (l : List α) (p j : Nat) (hj : j < lf) :
    (pageOf lf l p)[j]? = l[p * lf + j]? := by
  rw [pageOf, List.getElem?_take_of_lt hj, List.getElem?_drop]

theorem pageOf_append (l m : List α) (p : Nat) (h : (p + 1) * lf ≤ l.length) :
    pageOf lf (l ++ m) p = pageOf lf l p := by
  have hp : (p + 1) * lf = p * lf + lf := Nat.succ_mul p lf
  rw [pageOf, pageOf, List.drop_append_of_le_length (by omega),
    List.take_append_of_le_length (by rw [List.length_drop]; omega)]

end PageOf

/-- The file holds the list `l` on its pages from `off` on. -/
def Holds {K V : Type} (lf off : Nat) (f : File K V) (l : List (Wrapped (Record K V))) : Prop :=
  ∀ p, p * lf < l.length → f (p + off) = some (.data (pageOf lf l p))

end De

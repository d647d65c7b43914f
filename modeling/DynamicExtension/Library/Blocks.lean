import Mathlib.Algebra.BigOperators.Group.List.Basic
import Mathlib.Data.Nat.Init
set_option autoImplicit false

namespace Blocks

/-! Lists whose entries stand, in order, for consecutive blocks of a history. -/

variable {α M : Type} [AddMonoid M] {f : α → M}

/-- The history is cut into blocks, and the entries weigh what their blocks sum up to.
A block without an entry sums up to 0. -/
inductive Covers (f : α → M) : List α → List M → Prop
  | nil : Covers f [] []
  | block {x : α} {xs : List α} {b rest : List M} (hx : f x = b.sum) (h : Covers f xs rest) :
      Covers f (x :: xs) (b ++ rest)
  | gap {xs : List α} {b rest : List M} (hb : b.sum = 0) (h : Covers f xs rest) :
      Covers f xs (b ++ rest)

namespace Covers
variable {xs ys : List α} {hist later : List M}

theorem sum (h : Covers f xs hist) : (xs.map f).sum = hist.sum := by
  induction h with
  | nil => rfl
  | block hx _ ih => rw [List.map_cons, List.sum_cons, List.sum_append, hx, ih]
  | gap hb _ ih => rw [List.sum_append, hb, zero_add, ih]

theorem append (h : Covers f xs hist) (hy : Covers f ys later) :
    Covers f (xs ++ ys) (hist ++ later) := by
  induction h with
  | nil => exact hy
  | block hx _ ih =>
    rw [List.cons_append, List.append_assoc]
    exact block hx ih
  | gap hb _ ih =>
    rw [List.append_assoc]
    exact gap hb ih

theorem split (h : Covers f (xs ++ ys) hist) :
    ∃ early late, hist = early ++ late ∧ Covers f xs early ∧ Covers f ys late := by
  generalize hzs : xs ++ ys = zs at h
  induction h generalizing xs with
  | nil =>
    obtain ⟨rfl, rfl⟩ := List.append_eq_nil_iff.mp hzs
    exact ⟨[], [], rfl, nil, nil⟩
  | @block z zs b rest hz h ih =>
    rcases List.append_eq_cons_iff.mp hzs with ⟨rfl, rfl⟩ | ⟨xs, rfl, rfl⟩
    · exact ⟨[], b ++ rest, rfl, nil, block hz h⟩
    · obtain ⟨early, late, rfl, hearly, hlate⟩ := ih rfl
      exact ⟨b ++ early, late, (List.append_assoc ..).symm, block hz hearly, hlate⟩
  | @gap zs b rest hb h ih =>
    obtain ⟨early, late, rfl, hearly, hlate⟩ := ih hzs
    exact ⟨b ++ early, late, (List.append_assoc ..).symm, gap hb hearly, hlate⟩

theorem singleton {x : α} (hx : f x = hist.sum) : Covers f [x] hist := by
  simpa using block hx nil

theorem exists_block {x : α} (h : Covers f xs hist) (hx : x ∈ xs) :
    ∃ b : List M, (∀ m ∈ b, m ∈ hist) ∧ f x = b.sum := by
  induction h with
  | nil => cases hx
  | @block y ys b rest hy _ ih =>
    rcases List.mem_cons.mp hx with rfl | hx
    · exact ⟨b, fun m hm => List.mem_append_left _ hm, hy⟩
    · obtain ⟨c, hc, hsum⟩ := ih hx
      exact ⟨c, fun m hm => List.mem_append_right _ (hc m hm), hsum⟩
  | gap _ _ ih =>
    obtain ⟨c, hc, hsum⟩ := ih hx
    exact ⟨c, fun m hm => List.mem_append_right _ (hc m hm), hsum⟩

theorem of_sum_eq_zero (h : hist.sum = 0) : Covers f [] hist := by
  simpa using gap (f := f) h nil

theorem sum_append (h : Covers f (xs ++ ys) hist) :
    ∃ early late, hist = early ++ late ∧ (xs.map f).sum = early.sum ∧
      (ys.map f).sum = late.sum := by
  obtain ⟨early, late, rfl, hearly, hlate⟩ := h.split
  exact ⟨early, late, rfl, hearly.sum, hlate.sum⟩

theorem refine {hs : List (List M)} (h : Covers f xs (hs.map List.sum)) :
    Covers f xs hs.flatten := by
  generalize hm : hs.map List.sum = sums at h
  have flat_sum : ∀ as : List (List M), (as.map List.sum).sum = as.flatten.sum := by
    intro as
    induction as with
    | nil => rfl
    | cons a as ih => rw [List.map_cons, List.sum_cons, ih, List.flatten_cons, List.sum_append]
  induction h generalizing hs with
  | nil =>
    obtain rfl : hs = [] := List.map_eq_nil_iff.mp hm
    exact nil
  | block hx _ ih =>
    obtain ⟨as, bs, rfl, rfl, hrest⟩ := List.map_eq_append_iff.mp hm
    rw [List.flatten_append]
    exact block (hx.trans (flat_sum as)) (ih hrest)
  | gap hb _ ih =>
    obtain ⟨as, bs, rfl, rfl, hrest⟩ := List.map_eq_append_iff.mp hm
    rw [List.flatten_append]
    exact gap ((flat_sum as).symm.trans hb) (ih hrest)

end Covers

/-- Whatever history the first list stands for, the second stands for it too. -/
def Coarsens (f : α → M) (xs ys : List α) : Prop := ∀ hist, Covers f xs hist → Covers f ys hist

namespace Coarsens
variable {xs ys zs as bs : List α}

theorem refl (xs : List α) : Coarsens f xs xs := fun _ h => h

theorem trans (h : Coarsens f xs ys) (h' : Coarsens f ys zs) : Coarsens f xs zs :=
  fun hist hx => h' hist (h hist hx)

theorem append (h : Coarsens f xs ys) (h' : Coarsens f as bs) :
    Coarsens f (xs ++ as) (ys ++ bs) := by
  intro hist hcov
  obtain ⟨early, late, rfl, hearly, hlate⟩ := hcov.split
  exact (h early hearly).append (h' late hlate)

theorem join {x : α} (hx : f x = (xs.map f).sum) : Coarsens f xs [x] :=
  fun _ h => .singleton (hx.trans h.sum)

theorem drop (hx : (xs.map f).sum = 0) : Coarsens f xs [] :=
  fun _ h => .of_sum_eq_zero (h.sum.symm.trans hx)

end Coarsens

/-- Rows of entries, read from a row down to row 0 -/
def downFrom (rows : Nat → List α) : Nat → List α
  | 0 => []
  | n + 1 => rows n ++ downFrom rows n

theorem downFrom_eq_flatMap (rows : Nat → List α) (n : Nat) :
    downFrom rows n = (List.range n).reverse.flatMap rows := by
  induction n with
  | zero => rfl
  | succ n ih => simp [downFrom, ih, List.range_succ]

theorem downFrom_congr {rows rows' : Nat → List α} {n : Nat} (h : ∀ j < n, rows j = rows' j) :
    downFrom rows n = downFrom rows' n := by
  induction n with
  | zero => rfl
  | succ n ih =>
    rw [downFrom, downFrom, h n (Nat.lt_succ_self n), ih fun j hj => h j (Nat.lt_succ_of_lt hj)]

theorem downFrom_eq_nil {rows : Nat → List α} {n : Nat} (h : ∀ j < n, rows j = []) :
    downFrom rows n = [] := by
  induction n with
  | zero => rfl
  | succ n ih =>
    rw [downFrom, h n (Nat.lt_succ_self n), ih fun j hj => h j (Nat.lt_succ_of_lt hj)]
    rfl

theorem downFrom_of_le {rows : Nat → List α} {k n : Nat} (hkn : k ≤ n)
    (h : ∀ j, k ≤ j → rows j = []) : downFrom rows n = downFrom rows k := by
  induction n, hkn using Nat.le_induction with
  | base => rfl
  | succ n hn ih => rw [downFrom, h n hn, ih, List.nil_append]

theorem sum_downFrom {M : Type} [AddCommMonoid M] (f : α → M) (rows : Nat → List α) (n : Nat) :
    ((downFrom rows n).map f).sum = ((List.range n).map fun i => ((rows i).map f).sum).sum := by
  induction n with
  | zero => rfl
  | succ n ih =>
    rw [downFrom, List.map_append, List.sum_append, ih, List.range_succ, List.map_append,
      List.sum_append, add_comm, List.map_singleton, List.sum_singleton]

theorem Coarsens.downFrom {rows rows' : Nat → List α} {k n : Nat} (hkn : k ≤ n)
    (h : Coarsens f (downFrom rows k) (downFrom rows' k)) (hrest : ∀ j, k ≤ j → rows' j = rows j) :
    Coarsens f (downFrom rows n) (downFrom rows' n) := by
  induction n, hkn using Nat.le_induction with
  | base => exact h
  | succ n hn ih =>
    rw [Blocks.downFrom, Blocks.downFrom, hrest n hn]
    exact (Coarsens.refl _).append ih

end Blocks

import DynamicExtension.SortedMerge
import DynamicExtension.ViewOperations
import DynamicExtension.WriteAheadLogging
set_option autoImplicit false

namespace De
open MutableBuffer (slotContent)

namespace SortedMerge
variable {R : Type} [LinearOrder R]

/-- `header &= 3` -/
def masked (w : Wrapped R) : Wrapped R := { w with header := w.header &&& 3#32 }

/-- What a turn of the loop writes, before what the later turns write -/
def emit (w : Wrapped R) (rest : List (Wrapped R) × MergeInfo) : List (Wrapped R) × MergeInfo :=
  (masked w :: rest.1, ⟨rest.2.recordCount + 1,
    if (masked w).isTombstone then rest.2.tombstoneCount + 1 else rest.2.tombstoneCount⟩)

/-- The loop `while (base < stop)` over the sorted records -/
def scan : List (Wrapped R) → List (Wrapped R) × MergeInfo
  | [] => ([], ⟨0, 0⟩)
  | [a] => if a.isDeleted then ([], ⟨0, 0⟩) else emit a ([], ⟨0, 0⟩)
  | a :: b :: l =>
    if !a.isTombstone ∧ a.record = b.record ∧ b.isTombstone then scan l
    else if a.isDeleted then scan (b :: l)
    else emit a (scan (b :: l))

/-- `std::sort` by `Wrapped::operator<`. Records it does not tell apart are equal. -/
def sortWrapped (l : List (Wrapped R)) : List (Wrapped R) :=
  l.insertionSort fun a b => a.order ≤ b.order

def sortedArrayFromBufferview (bv : BufferView R) : Option (List (Wrapped R) × MergeInfo) := do
  return scan (sortWrapped (← bv.copyToBuffer))

/-- The tombstone bits that stay of copies of one record: each live copy directly before
a tombstone drops out with it. -/
def kept : List Bool → List Bool
  | [] => []
  | true :: l => true :: kept l
  | false :: true :: l => kept l
  | false :: l => false :: kept l

/-- A live copy ends `x` and a tombstone begins `y`. -/
def seam (x y : List Bool) : Bool := x.getLast? = some false && y.head? = some true

section Kept

theorem kept_false_of_head {l : List Bool} (h : l.head? ≠ some true) :
    kept (false :: l) = false :: kept l := by
  cases l with
  | nil => rfl
  | cons x l => cases x <;> simp_all [kept]

theorem seam_cons (x : Bool) {l : List Bool} (hl : l ≠ []) (y : List Bool) :
    seam (x :: l) y = seam l y := by
  obtain ⟨z, l, rfl⟩ := List.exists_cons_of_ne_nil hl
  simp [seam]

/-- A live copy at the end of `x` and a tombstone at the front of `y` drop out together. -/
theorem kept_append (x y : List Bool) :
    kept (x ++ y) = if seam x y then kept x.dropLast ++ kept y.tail else kept x ++ kept y := by
  fun_induction kept x with
  | case1 => simp [seam]
  | case2 l ih =>
    by_cases hl : l = []
    · simp [hl, kept, seam]
    · rw [List.cons_append, kept, ih, seam_cons _ hl, List.dropLast_cons_of_ne_nil hl, kept]
      split <;> rfl
  | case3 l ih =>
    by_cases hl : l = []
    · simp [hl, kept, seam]
    · rw [List.cons_append, List.cons_append, kept, ih, seam_cons _ (List.cons_ne_nil _ _),
        seam_cons _ hl, List.dropLast_cons_of_ne_nil (List.cons_ne_nil _ _),
        List.dropLast_cons_of_ne_nil hl, kept]
  | case4 l h ih =>
    have hhead : l.head? ≠ some true := fun heq => by
      obtain ⟨l', rfl⟩ := List.head?_eq_some_iff.mp heq
      exact h l' rfl
    by_cases hl : l = []
    · subst hl
      cases y with
      | nil => simp [kept, seam]
      | cons z y => cases z <;> simp [kept, seam]
    · obtain ⟨z, l, rfl⟩ := List.exists_cons_of_ne_nil hl
      have hlast : (z :: l).dropLast.head? ≠ some true := by
        cases l <;> simp_all
      rw [List.cons_append, kept_false_of_head (by simpa using hhead), ih, seam_cons _ hl,
        List.dropLast_cons_of_ne_nil hl, kept_false_of_head hlast]
      split <;> rfl

/-- What is read of `x` from the seams on, if both seams drop a pair -/
def inner (x : List Bool) : List Bool := x.tail.dropLast

/-- The seams between the two parts of a ring drop a pair at both places or at neither, and
what stays of the parts beside that is the same in either order. -/
def Turns (x y : List Bool) : Prop :=
  seam x y = seam y x ∧
    if seam x y then kept (inner x) ++ kept (inner y) = kept (inner y) ++ kept (inner x)
    else kept x ++ kept y = kept y ++ kept x

instance (x y : List Bool) : Decidable (Turns x y) := inferInstanceAs (Decidable (_ ∧ _))

theorem seam_parts {x y : List Bool} (h : seam x y = true) :
    x = x.dropLast ++ [false] ∧ y = true :: y.tail := by
  simp only [seam, Bool.and_eq_true, decide_eq_true_eq] at h
  obtain ⟨hx, hy⟩ := h
  refine ⟨?_, (List.cons_head?_tail hy).symm⟩
  exact (List.dropLast_append_getLast? false hx).symm

theorem kept_concat_false (l : List Bool) : kept (l ++ [false]) = kept l ++ [false] := by
  rw [kept_append, if_neg (by simp [seam])]
  rfl

theorem inner_parts {x y : List Bool} (hxy : seam x y = true) (hyx : seam y x = true) :
    x.dropLast = true :: inner x ∧ x.tail = inner x ++ [false] := by
  obtain ⟨hlast, -⟩ := seam_parts hxy
  obtain ⟨-, hhead⟩ := seam_parts hyx
  have htail : x.tail ≠ [] := fun hnil => by
    rw [hnil] at hhead
    rw [hhead] at hlast
    simp at hlast
  constructor
  · conv_lhs => rw [hhead, List.dropLast_cons_of_ne_nil htail]
    rfl
  · have hget : x.tail.getLast? = some false := by
      rw [← List.getLast?_cons_of_ne_nil htail, ← hhead, hlast, List.getLast?_concat]
    exact (List.dropLast_append_getLast? false hget).symm

/-- A part that loses a live copy at its end loses one bit, and so does one that loses a
tombstone at its front. -/
theorem length_kept_append {x y : List Bool} :
    (kept (x ++ y)).length + (if seam x y then 2 else 0) = (kept x).length + (kept y).length := by
  rw [kept_append]
  split
  · rename_i h
    obtain ⟨hx, hy⟩ := seam_parts h
    have hlx : (kept x).length = (kept x.dropLast).length + 1 := by
      conv_lhs => rw [hx, kept_concat_false]
      simp
    have hly : (kept y).length = (kept y.tail).length + 1 := by
      conv_lhs => rw [hy]
      rfl
    rw [List.length_append]
    omega
  · simp

theorem kept_comm_iff (x y : List Bool) : kept (x ++ y) = kept (y ++ x) ↔ Turns x y := by
  have hxy := length_kept_append (x := x) (y := y)
  have hyx := length_kept_append (x := y) (y := x)
  by_cases hseam : seam x y = seam y x
  swap
  · refine iff_of_false (fun heq => ?_) fun h => hseam h.1
    rw [heq] at hxy
    cases h₁ : seam x y <;> cases h₂ : seam y x <;> simp_all <;> omega
  rw [Turns, and_iff_right hseam, kept_append, kept_append, ← hseam]
  cases h : seam x y with
  | false => rfl
  | true =>
    have h' : seam y x = true := hseam ▸ h
    obtain ⟨hx, hx'⟩ := inner_parts h h'
    obtain ⟨hy, hy'⟩ := inner_parts h' h
    simp only [if_true, hx, hx', hy, hy', kept, kept_concat_false, List.cons_append,
      ← List.append_assoc, List.cons.injEq, true_and, List.append_cancel_right_eq]

end Kept

section Masked
omit [LinearOrder R]

@[simp] theorem record_masked (w : Wrapped R) : (masked w).record = w.record := rfl

@[simp] theorem isTombstone_masked (w : Wrapped R) : (masked w).isTombstone = w.isTombstone := by
  simp only [Wrapped.isTombstone, masked, BitVec.and_assoc]
  rfl

end Masked

/-- The tombstone bits of the copies of a record -/
def bitsOf (ops : List (R × Bool)) (r : R) : List Bool :=
  (ops.filter fun op => op.1 = r).map Prod.snd

theorem bitsOf_append (l m : List (R × Bool)) (r : R) :
    bitsOf (l ++ m) r = bitsOf l r ++ bitsOf m r := by
  rw [bitsOf, List.filter_append, List.map_append]
  rfl

theorem bitsOf_cons (op : R × Bool) (ops : List (R × Bool)) (r : R) :
    bitsOf (op :: ops) r = if op.1 = r then op.2 :: bitsOf ops r else bitsOf ops r := by
  by_cases h : op.1 = r <;> simp [bitsOf, h]

theorem bitsOf_payload_cons (w : Wrapped R) (l : List (Wrapped R)) (r : R) :
    bitsOf ((w :: l).map Wrapped.payload) r =
      if w.record = r then w.isTombstone :: bitsOf (l.map Wrapped.payload) r
      else bitsOf (l.map Wrapped.payload) r := bitsOf_cons ..

theorem bitsOf_eq_nil {l : List (R × Bool)} {r : R} (h : ∀ op ∈ l, r < op.1) :
    bitsOf l r = [] := by
  rw [bitsOf, List.filter_eq_nil_iff.mpr, List.map_nil]
  exact fun op hop => by simpa using (h op hop).ne'

theorem eq_of_bitsOf {l m : List (R × Bool)} (hl : l.Pairwise fun a b => a.1 ≤ b.1)
    (hm : m.Pairwise fun a b => a.1 ≤ b.1) (h : ∀ r, bitsOf l r = bitsOf m r) : l = m := by
  have hfirst : ∀ {a b : R × Bool} {l m : List (R × Bool)}, a.1 < b.1 → (∀ e ∈ m, b.1 ≤ e.1) →
      bitsOf (a :: l) a.1 ≠ bitsOf (b :: m) a.1 := by
    intro a b l m hlt hb heq
    rw [bitsOf_eq_nil (l := b :: m), bitsOf_cons, if_pos rfl] at heq
    · cases heq
    · intro op hop
      rcases List.mem_cons.mp hop with rfl | hop
      · exact hlt
      · exact lt_of_lt_of_le hlt (hb op hop)
  induction l generalizing m with
  | nil =>
    cases m with
    | nil => rfl
    | cons b m => simpa [bitsOf] using h b.1
  | cons a l ih =>
    obtain ⟨ha, hl⟩ := List.pairwise_cons.mp hl
    cases m with
    | nil => simpa [bitsOf] using h a.1
    | cons b m =>
      obtain ⟨hb, hm⟩ := List.pairwise_cons.mp hm
      have hrec : a.1 = b.1 := by
        rcases lt_trichotomy a.1 b.1 with hlt | heq | hlt
        · exact absurd (h a.1) (hfirst hlt hb)
        · exact heq
        · exact absurd (h b.1).symm (hfirst hlt ha)
      have hbits := h b.1
      rw [bitsOf_cons, bitsOf_cons, if_pos hrec, if_pos rfl, List.cons.injEq] at hbits
      rw [Prod.ext hrec hbits.1, ih hl hm fun r => ?_]
      have hr := h r
      rw [bitsOf_cons, bitsOf_cons, hrec] at hr
      split at hr
      · exact (List.cons.inj hr).2
      · exact hr

section Scan
variable {l : List (Wrapped R)}

theorem info_scan (l : List (Wrapped R)) :
    (scan l).2 = ⟨(scan l).1.length, (scan l).1.countP (·.isTombstone)⟩ := by
  fun_induction scan l with
  | case1 => rfl
  | case2 a h => rfl
  | case3 a h => cases ha : a.isTombstone <;> simp [emit, ha]
  | case4 a b l h ih => exact ih
  | case5 a b l h hdel ih => exact ih
  | case6 a b l h hdel ih => cases ha : a.isTombstone <;> simp [emit, ih, ha]

theorem records_scan_sublist (l : List (Wrapped R)) :
    ((scan l).1.map Wrapped.record).Sublist (l.map Wrapped.record) := by
  fun_induction scan l with
  | case1 => exact List.Sublist.refl _
  | case2 a h => exact List.nil_sublist _
  | case3 a h => exact List.Sublist.refl _
  | case4 a b l h ih => exact (ih.cons _).cons _
  | case5 a b l h hdel ih => exact ih.cons _
  | case6 a b l h hdel ih => exact ih.cons_cons _

theorem sorted_scan (hs : l.Pairwise fun a b => a.record ≤ b.record) :
    (scan l).1.Pairwise fun a b => a.record ≤ b.record := by
  have h := (List.pairwise_map.mpr hs).sublist (records_scan_sublist l)
  exact List.pairwise_map.mp h

theorem bitsOf_scan (hs : l.Pairwise fun a b => a.record ≤ b.record)
    (hdel : ∀ w ∈ l, w.isDeleted = false) (r : R) :
    bitsOf ((scan l).1.map Wrapped.payload) r = kept (bitsOf (l.map Wrapped.payload) r) := by
  fun_induction scan l with
  | case1 => rfl
  | case2 a h => exact absurd (hdel a (by simp)) (by simp [h])
  | case3 a h =>
    simp only [emit, bitsOf_payload_cons, record_masked, isTombstone_masked]
    split <;> cases a.isTombstone <;> rfl
  | case4 a b l h ih =>
    obtain ⟨hlive, hrec, htomb⟩ := h
    rw [Bool.not_eq_true'] at hlive
    rw [bitsOf_payload_cons, bitsOf_payload_cons, hrec, hlive, htomb, ih (List.pairwise_cons.mp
      (List.pairwise_cons.mp hs).2).2 fun w hw => hdel w (by simp [hw])]
    split <;> rfl
  | case5 a b l h ha ih => exact absurd (hdel a (by simp)) (by simp [ha])
  | case6 a b l h ha ih =>
    obtain ⟨hle, hl⟩ := List.pairwise_cons.mp hs
    have hrest := ih hl fun w hw => hdel w (List.mem_cons_of_mem _ hw)
    rw [bitsOf_payload_cons, emit, bitsOf_payload_cons, record_masked, isTombstone_masked, hrest]
    split
    swap
    · rfl
    · rename_i har
      cases hlive : a.isTombstone with
      | true => rfl
      | false =>
        refine (kept_false_of_head ?_).symm
        -- the next copy of the record is live, or none is left
        rw [bitsOf_payload_cons]
        split
        · rename_i hbr
          intro hhead
          exact h ⟨by simp [hlive], har.trans hbr.symm, by simpa using hhead⟩
        · rename_i hbr
          have hlt : a.record < b.record :=
            lt_of_le_of_ne (hle b List.mem_cons_self) fun heq => hbr (heq.symm.trans har)
          rw [bitsOf_eq_nil]
          · simp
          · intro op hop
            obtain ⟨w, hw, rfl⟩ := List.mem_map.mp hop
            exact har ▸ lt_of_lt_of_le hlt ((List.pairwise_cons.mp hl).1 w hw)

end Scan

section Order

theorem sortWrapped_perm (l : List (Wrapped R)) : (sortWrapped l).Perm l :=
  List.perm_insertionSort _ l

theorem sortWrapped_pairwise (l : List (Wrapped R)) :
    (sortWrapped l).Pairwise fun a b => a.order ≤ b.order := by
  have : Std.Total (fun a b : Wrapped R => a.order ≤ b.order) := ⟨fun a b => le_total _ _⟩
  have : IsTrans (Wrapped R) (fun a b => a.order ≤ b.order) := ⟨fun _ _ _ => le_trans⟩
  exact List.pairwise_insertionSort _ l

theorem sortWrapped_sorted (l : List (Wrapped R)) :
    (sortWrapped l).Pairwise fun a b => a.record ≤ b.record :=
  (sortWrapped_pairwise l).imp fun h => Prod.Lex.monotone_fst _ _ h

theorem bitsOf_sortWrapped {l m : List (Wrapped R)} (hperm : m.Perm l)
    (hm : m.Pairwise fun a b => a.header.toNat ≤ b.header.toNat) (r : R) :
    bitsOf ((sortWrapped l).map Wrapped.payload) r = bitsOf (m.map Wrapped.payload) r := by
  have hfilter : ∀ l : List (Wrapped R), bitsOf (l.map Wrapped.payload) r =
      (l.filter fun w => w.record = r).map Wrapped.isTombstone := by
    intro l
    rw [bitsOf, List.filter_map, List.map_map]
    rfl
  have hsort := (sortWrapped_pairwise l).sublist
    (List.filter_sublist (p := fun w => decide (w.record = r)))
  have hring : (m.filter fun w => w.record = r).Pairwise fun a b => a.order ≤ b.order := by
    refine (hm.sublist List.filter_sublist).imp_of_mem fun {a b} ha hb hle => ?_
    have hrec : a.record = b.record := by
      simp only [List.mem_filter, decide_eq_true_eq] at ha hb
      exact ha.2.trans hb.2.symm
    rw [Wrapped.order, Wrapped.order, Prod.Lex.toLex_le_toLex]
    exact .inr ⟨hrec, hle⟩
  have hsame := List.Perm.eq_of_pairwise
    (fun a b _ _ hab hba => Wrapped.eq_of_order_eq (le_antisymm hab hba)) hsort hring
    (((sortWrapped_perm l).trans hperm.symm).filter _)
  rw [hfilter, hfilter, hsame]

end Order

section Ring

omit [LinearOrder R] in
theorem header_slotContent (rec : R) (ts : Bool) {pos : Nat} (h : pos < 2 ^ 29) :
    (slotContent rec ts pos).header.toNat = 8 * pos + if ts then 5 else 4 := by
  have hbits : (slotContent rec ts pos).header =
      BitVec.ofNat 32 pos <<< 3 ||| (if ts then 5#32 else 4#32) := by
    cases ts with
    | false =>
      show (0#32 ||| BitVec.ofNat 32 pos <<< 3) ||| 4#32 = _
      rw [BitVec.zero_or]
      rfl
    | true =>
      show ((0#32 ||| 1#32) ||| BitVec.ofNat 32 pos <<< 3) ||| 4#32 = _
      rw [BitVec.zero_or, BitVec.or_comm 1#32, BitVec.or_assoc]
      rfl
  have hpos : (BitVec.ofNat 32 pos <<< 3).toNat = 2 ^ 3 * pos := by
    rw [BitVec.toNat_shiftLeft, BitVec.toNat_ofNat, Nat.shiftLeft_eq]
    omega
  rw [hbits, BitVec.toNat_or, hpos]
  cases ts with
  | false => exact (Nat.two_pow_add_eq_or_of_lt (by decide) pos).symm
  | true => exact (Nat.two_pow_add_eq_or_of_lt (by decide) pos).symm

/-- The slots of appends from the tail `tail` on -/
def placed (cap : Nat) : Nat → List (R × Bool) → List (Wrapped R)
  | _, [] => []
  | tail, op :: ops => slotContent op.1 op.2 (tail % cap) :: placed cap (tail + 1) ops

section Placed
omit [LinearOrder R]
variable {cap tail : Nat} {ops : List (R × Bool)}

theorem payload_placed (cap tail : Nat) (ops : List (R × Bool)) :
    (placed cap tail ops).map Wrapped.payload = ops := by
  induction ops generalizing tail with
  | nil => rfl
  | cons op ops ih => simp [placed, ih, Wrapped.payload]

theorem isDeleted_placed : ∀ w ∈ placed cap tail ops, w.isDeleted = false := by
  induction ops generalizing tail with
  | nil => exact fun w hw => absurd hw List.not_mem_nil
  | cons op ops ih =>
    intro w hw
    rcases List.mem_cons.mp hw with rfl | hw
    · simp
    · exact ih w hw

theorem placed_append (cap tail : Nat) (l m : List (R × Bool)) :
    placed cap tail (l ++ m) = placed cap tail l ++ placed cap (tail + l.length) m := by
  induction l generalizing tail with
  | nil => rfl
  | cons op l ih =>
    rw [List.cons_append, placed, ih, placed, List.cons_append, List.length_cons]
    congr 3
    omega

theorem header_placed (hcap : cap ≤ 2 ^ 29) (tail : Nat) (ops : List (R × Bool))
    (hfit : tail % cap + ops.length ≤ cap) :
    (placed cap tail ops).Pairwise (fun a b => a.header.toNat ≤ b.header.toNat) ∧
      ∀ w ∈ placed cap tail ops, 8 * (tail % cap) ≤ w.header.toNat ∧
        w.header.toNat < 8 * (tail % cap + ops.length) := by
  induction ops generalizing tail with
  | nil => exact ⟨List.Pairwise.nil, fun w hw => absurd hw List.not_mem_nil⟩
  | cons op ops ih =>
    rw [List.length_cons] at hfit ⊢
    have hpos : tail % cap < 2 ^ 29 := by omega
    have hfirst : 8 * (tail % cap) ≤ (slotContent op.1 op.2 (tail % cap)).header.toNat ∧
        (slotContent op.1 op.2 (tail % cap)).header.toNat < 8 * (tail % cap + 1) := by
      rw [header_slotContent op.1 op.2 hpos]
      split <;> omega
    by_cases hnil : ops = []
    · subst hnil
      exact ⟨List.pairwise_singleton _ _, fun w hw => by
        obtain rfl := List.mem_singleton.mp hw
        exact hfirst⟩
    · have hlen := List.length_pos_iff.mpr hnil
      have hnext : (tail + 1) % cap = tail % cap + 1 := by
        rw [← Nat.mod_add_mod, Nat.mod_eq_of_lt (by omega)]
      obtain ⟨hpair, hbounds⟩ := ih (tail + 1) (by omega)
      rw [hnext] at hbounds
      refine ⟨List.pairwise_cons.mpr ⟨fun w hw => ?_, hpair⟩, fun w hw => ?_⟩
      · have := hbounds w hw
        omega
      · rcases List.mem_cons.mp hw with rfl | hw
        · exact ⟨hfirst.1, by omega⟩
        · have := hbounds w hw
          omega

/-- The ring read from slot 0 on: what was appended after the wrap comes first. -/
def inRing (cap tail : Nat) (ops : List (R × Bool)) : List (R × Bool) :=
  ops.drop (cap - tail % cap) ++ ops.take (cap - tail % cap)

theorem exists_inRing (tail : Nat) (hcap : cap ≤ 2 ^ 29) (hfit : ops.length < cap) :
    ∃ m : List (Wrapped R), m.Perm (placed cap tail ops) ∧
      m.map Wrapped.payload = inRing cap tail ops ∧
      m.Pairwise fun a b => a.header.toNat ≤ b.header.toNat := by
  have hmod : tail % cap < cap := Nat.mod_lt _ (by omega)
  set k := cap - tail % cap with hk
  set l := ops.take k with hl
  have hsplit : placed cap tail ops = placed cap tail l ++ placed cap (tail + l.length)
      (ops.drop k) := by
    rw [← placed_append, hl, List.take_append_drop]
  have hlen : l.length ≤ k := by simp [hl]
  obtain ⟨hpair, hbounds⟩ := header_placed hcap tail l (by omega)
  refine ⟨placed cap (tail + l.length) (ops.drop k) ++ placed cap tail l,
    by rw [hsplit]; exact List.perm_append_comm,
    by rw [List.map_append, payload_placed, payload_placed, inRing], ?_⟩
  by_cases hwrap : ops.length ≤ k
  · rw [List.drop_eq_nil_of_le hwrap]
    exact hpair
  · have hlk : l.length = k := by simp [hl]; omega
    have hzero : (tail + l.length) % cap = 0 := by
      rw [hlk, ← Nat.mod_add_mod, hk, Nat.add_sub_cancel' hmod.le, Nat.mod_self]
    have hdrop : (ops.drop k).length = ops.length - k := List.length_drop
    obtain ⟨hpair', hbounds'⟩ := header_placed hcap (tail + l.length) (ops.drop k) (by omega)
    refine List.pairwise_append.mpr ⟨hpair', hpair, fun a ha b hb => ?_⟩
    have := hbounds a
    have := hbounds' a ha
    have := hbounds b hb
    omega

end Placed

section Append
variable [Zero R]

/-- A sequence of appends of live records and tombstones -/
def appendOps (b : MutableBuffer R) (ops : List (R × Bool)) : MutableBuffer R :=
  ops.foldl (fun b op => (b.append op.1 op.2 true).2) b

omit [LinearOrder R] in
theorem appendOps_spec {b : MutableBuffer R} {ops : List (R × Bool)} (h : b.Formed)
    (hroom : b.getRecordCount + ops.length ≤ b.hwm) (hs : b.SlotsOk ops.length) :
    (appendOps b ops).records = b.records ++ placed b.cap b.tail ops ∧
      (appendOps b ops).Formed ∧ (appendOps b ops).head = b.head ∧
      (appendOps b ops).getRecordCount = b.getRecordCount + ops.length ∧
      (appendOps b ops).cap = b.cap := by
  induction ops generalizing b with
  | nil => simp [appendOps, placed, h]
  | cons op ops ih =>
    rw [List.length_cons] at hroom hs
    have hslot : b.SlotOk := hs 0 (Nat.succ_pos _)
    have hr := MutableBuffer.reserved_append h (by omega) op.1 op.2 true
    have hrecords := (MutableBuffer.formed_append h (by omega) hslot op.1 op.2 true).2
    have hhead := (MutableBuffer.append_cases b op.1 op.2 true).1
    obtain ⟨ih₁, ih₂, ih₃, ih₄, ih₅⟩ := ih hr.formed (by rw [hr.count, hr.hwm]; omega) (hs.next hr)
    rw [appendOps, List.foldl_cons, ← appendOps]
    refine ⟨?_, ih₂, ih₃.trans hhead, ?_, ih₅.trans hr.cap⟩
    · rw [ih₁, hrecords, hr.cap, hr.tail, placed, List.append_assoc, List.singleton_append]
    · rw [ih₄, hr.count, List.length_cons]
      omega

/-- A buffer without records, whose head is anywhere in a ring of `cap` slots, and whose
next `n` slots are named right -/
structure Starts (cap n : Nat) (b : MutableBuffer R) : Prop where
  formed : b.Formed
  empty : b.getRecordCount = 0
  cap : b.cap = cap
  fits : n ≤ b.hwm
  slots : b.SlotsOk n

/-- The sorted array of the view on the appended records -/
def arrayOf (b : MutableBuffer R) (ops : List (R × Bool)) :
    Option (List (Wrapped R) × MergeInfo) :=
  sortedArrayFromBufferview ((appendOps b ops).viewFrom b.head.headIdx)

theorem arrayOf_spec {cap : Nat} {b : MutableBuffer R} {ops : List (R × Bool)}
    (h : Starts cap ops.length b) (hcap : cap ≤ 2 ^ 29) :
    ∃ out, arrayOf b ops = some (out, ⟨out.length, out.countP (·.isTombstone)⟩) ∧
      (out.Pairwise fun a b => a.record ≤ b.record) ∧
      ∀ r, bitsOf (out.map Wrapped.payload) r = kept (bitsOf (inRing cap b.tail ops) r) := by
  obtain ⟨hrecords, hf, hhead, hcount, hbcap⟩ := appendOps_spec h.formed
    (by rw [h.empty, zero_add]; exact h.fits) h.slots
  have hnil : b.records = [] := by
    rw [← List.length_eq_zero_iff, MutableBuffer.length_records, h.empty]
  rw [hnil, List.nil_append, h.cap] at hrecords
  rw [h.empty, zero_add] at hcount
  have hlt : ops.length < cap := by
    have := h.formed.hwm_lt_cap
    have := h.fits
    have := h.cap
    omega
  have hview : ((appendOps b ops).viewFrom b.head.headIdx).copyToBuffer =
      some (placed cap b.tail ops) := by
    rw [← hhead]
    have hn : ((appendOps b ops).viewFrom (appendOps b ops).head.headIdx).getRecordCount =
        ops.length := hcount
    have hvcap : ((appendOps b ops).viewFrom (appendOps b ops).head.headIdx).cap = cap :=
      hbcap.trans h.cap
    rw [BufferView.copyToBuffer_eq hf.head_le (by rw [hvcap]; exact hcount.le.trans hlt.le)
      (by rw [hvcap]; omega), hn, hvcap, if_neg (by omega)]
    exact congrArg some hrecords
  obtain ⟨m, hperm, hpayload, hpair⟩ := exists_inRing b.tail hcap hlt
  refine ⟨(scan (sortWrapped (placed cap b.tail ops))).1, ?_, sorted_scan (sortWrapped_sorted _),
    fun r => ?_⟩
  · rw [arrayOf, sortedArrayFromBufferview, hview, ← info_scan]
    rfl
  · rw [bitsOf_scan (sortWrapped_sorted _) (fun w hw => isDeleted_placed w
      ((sortWrapped_perm _).mem_iff.mp hw)), bitsOf_sortWrapped hperm hpair, hpayload]

/-- The same appends build the same array: the same records with the same tombstone bits,
and the same counts. -/
def SameArrays (b₁ b₂ : MutableBuffer R) (ops : List (R × Bool)) : Prop :=
  ∃ out₁ out₂ info, arrayOf b₁ ops = some (out₁, info) ∧ arrayOf b₂ ops = some (out₂, info) ∧
    out₁.map Wrapped.payload = out₂.map Wrapped.payload

/-- The appends between the points where the two rings wrap -/
def between (cap tail₁ tail₂ : Nat) (ops : List (R × Bool)) : List (R × Bool) :=
  (ops.take (cap - min (tail₁ % cap) (tail₂ % cap))).drop (cap - max (tail₁ % cap) (tail₂ % cap))

/-- The other appends: those after the later wrap, and then those before the earlier one -/
def outside (cap tail₁ tail₂ : Nat) (ops : List (R × Bool)) : List (R × Bool) :=
  ops.drop (cap - min (tail₁ % cap) (tail₂ % cap)) ++
    ops.take (cap - max (tail₁ % cap) (tail₂ % cap))

theorem sameArrays_iff_kept {cap : Nat} {b₁ b₂ : MutableBuffer R} {ops : List (R × Bool)}
    (h₁ : Starts cap ops.length b₁) (h₂ : Starts cap ops.length b₂) (hcap : cap ≤ 2 ^ 29) :
    SameArrays b₁ b₂ ops ↔ ∀ r, kept (bitsOf (inRing cap b₁.tail ops) r) =
      kept (bitsOf (inRing cap b₂.tail ops) r) := by
  obtain ⟨out₁, ha₁, hs₁, hbits₁⟩ := arrayOf_spec h₁ hcap
  obtain ⟨out₂, ha₂, hs₂, hbits₂⟩ := arrayOf_spec h₂ hcap
  simp only [← hbits₁, ← hbits₂]
  have hsorted : ∀ {l : List (Wrapped R)}, (l.Pairwise fun a b => a.record ≤ b.record) →
      (l.map Wrapped.payload).Pairwise fun a b => a.1 ≤ b.1 :=
    fun h => List.pairwise_map.mpr h
  constructor
  · rintro ⟨o₁, o₂, info, h₁, h₂, heq⟩ r
    obtain ⟨rfl, -⟩ := Prod.mk.inj (Option.some.inj (ha₁.symm.trans h₁))
    obtain ⟨rfl, -⟩ := Prod.mk.inj (Option.some.inj (ha₂.symm.trans h₂))
    rw [heq]
  · intro h
    have heq := eq_of_bitsOf (hsorted hs₁) (hsorted hs₂) h
    refine ⟨out₁, out₂, _, ha₁, ?_, heq⟩
    have hlen : out₂.length = out₁.length := by simpa using (congrArg List.length heq).symm
    have hcount : ∀ l : List (Wrapped R), l.countP (·.isTombstone) =
        (l.map Wrapped.payload).countP Prod.snd := fun l => by
      rw [List.countP_map]
      rfl
    rw [ha₂, hlen, hcount, hcount, heq]

omit [Zero R] [LinearOrder R] in
theorem rotations {j k : Nat} (h : j ≤ k) (l : List (R × Bool)) :
    l.drop k ++ l.take k = (l.drop k ++ l.take j) ++ (l.take k).drop j ∧
      l.drop j ++ l.take j = (l.take k).drop j ++ (l.drop k ++ l.take j) := by
  have htake : l.take j ++ (l.take k).drop j = l.take k := by
    conv_rhs => rw [← List.take_append_drop j (l.take k), List.take_take, Nat.min_eq_left h]
  have hdrop : (l.take k).drop j ++ l.drop k = l.drop j := by
    conv_rhs => rw [← List.take_append_drop (k - j) (l.drop j), List.drop_drop,
      Nat.add_sub_cancel' h]
    rw [List.drop_take]
  exact ⟨by rw [List.append_assoc, htake], by rw [← List.append_assoc, hdrop]⟩

omit [Zero R] [LinearOrder R] in
theorem inRing_cases (cap tail₁ tail₂ : Nat) (ops : List (R × Bool)) :
    (inRing cap tail₁ ops = between cap tail₁ tail₂ ops ++ outside cap tail₁ tail₂ ops ∧
      inRing cap tail₂ ops = outside cap tail₁ tail₂ ops ++ between cap tail₁ tail₂ ops) ∨
    (inRing cap tail₁ ops = outside cap tail₁ tail₂ ops ++ between cap tail₁ tail₂ ops ∧
      inRing cap tail₂ ops = between cap tail₁ tail₂ ops ++ outside cap tail₁ tail₂ ops) := by
  simp only [inRing, between, outside]
  rcases le_total (tail₁ % cap) (tail₂ % cap) with hle | hle
  · rw [min_eq_left hle, max_eq_right hle]
    exact .inr (rotations (Nat.sub_le_sub_left hle cap) ops)
  · rw [min_eq_right hle, max_eq_left hle]
    exact .inl (rotations (Nat.sub_le_sub_left hle cap) ops).symm

/-- The arrays are the same if and only if for each record its copies between the two
wraps and its other copies can be read in either order. -/
theorem sameArrays_iff {cap : Nat} {b₁ b₂ : MutableBuffer R} {ops : List (R × Bool)}
    (h₁ : Starts cap ops.length b₁) (h₂ : Starts cap ops.length b₂) (hcap : cap ≤ 2 ^ 29) :
    SameArrays b₁ b₂ ops ↔ ∀ r, Turns (bitsOf (between cap b₁.tail b₂.tail ops) r)
      (bitsOf (outside cap b₁.tail b₂.tail ops) r) := by
  rw [sameArrays_iff_kept h₁ h₂ hcap]
  refine forall_congr' fun r => ?_
  rw [← kept_comm_iff, ← bitsOf_append, ← bitsOf_append]
  rcases inRing_cases cap b₁.tail b₂.tail ops with ⟨h, h'⟩ | ⟨h, h'⟩
  · rw [h, h']
  · rw [h, h', eq_comm]

/-- A buffer of two slots more than its watermark, at the head `head` -/
def ringAt (head : Nat) : MutableBuffer Nat :=
  { MutableBuffer.empty 2 2 none with head := ⟨head, 0⟩, tail := head }

theorem starts_ringAt {head : Nat} (h : head ≤ 100) : Starts 4 2 (ringAt head) :=
  ⟨⟨le_rfl, (Nat.sub_self head).le.trans (Nat.zero_le 2), Nat.lt_of_sub_eq_succ rfl⟩,
    Nat.sub_self head, rfl, le_rfl, MutableBuffer.slotsOk_of_le (by
      show head + 2 ≤ 2 ^ 31
      omega)⟩

theorem sameArrays_iff_sample :
    SameArrays (ringAt 0) (ringAt 3) [(7, true), (7, true)] := by
  refine (sameArrays_iff (starts_ringAt (by decide)) (starts_ringAt (by decide))
    (by decide)).mpr fun r => ?_
  have hparts : between 4 0 3 [(7, true), (7, true)] = [(7, true)] ∧
      outside 4 0 3 [(7, true), (7, true)] = [(7, true)] := by decide
  show Turns (bitsOf (between 4 0 3 [(7, true), (7, true)]) r)
    (bitsOf (outside 4 0 3 [(7, true), (7, true)]) r)
  rw [hparts.1, hparts.2, bitsOf_cons]
  split <;> exact ⟨rfl, rfl⟩

/-- A record and its tombstone cancel in slots 0 and 1, but not in slots 3 and 0. -/
theorem not_sameArrays : ¬ SameArrays (ringAt 0) (ringAt 3) [(7, false), (7, true)] := by
  rintro ⟨out₁, out₂, info, h₁, h₂, heq⟩
  have hempty : arrayOf (ringAt 0) [(7, false), (7, true)] = some ([], ⟨0, 0⟩) := by
    decide +kernel
  have hboth : arrayOf (ringAt 3) [(7, false), (7, true)] =
      some ([⟨1#32, 7⟩, ⟨0#32, 7⟩], ⟨2, 1⟩) := by decide +kernel
  rw [hempty] at h₁
  rw [hboth] at h₂
  obtain ⟨-, rfl⟩ := Prod.mk.inj (Option.some.inj h₁)
  exact absurd (Prod.mk.inj (Option.some.inj h₂)).2 (by decide)

end Append

end Ring

end SortedMerge

end De

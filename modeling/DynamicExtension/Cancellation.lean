import DynamicExtension.ISAMTree
set_option autoImplicit false

namespace De

theorem tombstones_cancelPairs {R : Type} [DecidableEq R] (l : List (Wrapped R)) :
    2 * (cancelPairs l).countP (·.isTombstone) + l.length =
      2 * l.countP (·.isTombstone) + (cancelPairs l).length := by
  fun_induction cancelPairs l with
  | case1 => rfl
  | case2 a => rfl
  | case3 a b l h ih =>
    obtain ⟨-, hne⟩ := h
    simp only [List.countP_cons, List.length_cons]
    cases ha : a.isTombstone <;> cases hb : b.isTombstone <;> simp_all <;> omega
  | case4 a b l h ih =>
    simp only [List.countP_cons, List.length_cons] at ih ⊢
    omega

/-- Tombstone bits of equal records are read from the front, where two unlike
neighbours drop out together; only bits `b` stay. -/
def leaves (b : Bool) : List Bool → Bool
  | [] => true
  | [x] => x == b
  | x :: y :: l => if y ≠ x then leaves b l else x == b && leaves b (y :: l)

theorem leaves_of_forall {b : Bool} {l : List Bool} (h : ∀ x ∈ l, x = b) : leaves b l = true := by
  fun_induction leaves b l with
  | case1 => rfl
  | case2 x => simpa using h
  | case3 x y l hne ih => exact absurd ((h y (by simp)).trans (h x (by simp)).symm) hne
  | case4 x y l heq ih =>
    rw [Bool.and_eq_true, beq_iff_eq]
    exact ⟨h x List.mem_cons_self, ih fun z hz => h z (List.mem_cons_of_mem _ hz)⟩

/-- A single bit `!b` drops out with a neighbour, if it has one. -/
theorem leaves_of_count_le {b : Bool} {l : List Bool} (h : l.count (!b) ≤ 1) :
    leaves b l = true ∨ l = [!b] := by
  fun_induction leaves b l with
  | case1 => exact .inl rfl
  | case2 x => cases b <;> cases x <;> simp
  | case3 x y l hne ih =>
    refine .inl (leaves_of_forall fun z hz => ?_)
    have hzero : l.count (!b) = 0 := by
      cases b <;> cases x <;> cases y <;> simp_all
    by_contra hzb
    have : z = !b := by cases b <;> cases z <;> simp_all
    exact List.count_eq_zero.mp hzero (this ▸ hz)
  | case4 x y l heq ih =>
    obtain rfl : y = x := not_ne_iff.mp heq
    have hx : y = b := by
      by_contra hyb
      have : y = !b := by cases b <;> cases y <;> simp_all
      simp [this] at h
    subst hx
    rcases ih (by simpa using h) with hl | hl
    · exact .inl (by simpa using hl)
    · cases y <;> simp at hl

section Copies
variable {R : Type} [LinearOrder R]

theorem filter_cancelPairs {l : List (Wrapped R)}
    (hs : l.Pairwise fun a b => a.record ≤ b.record) (r : R) :
    (cancelPairs l).filter (fun w => w.record = r) =
      cancelPairs (l.filter fun w => w.record = r) := by
  fun_induction cancelPairs l with
  | case1 => rfl
  | case2 a => cases h : decide (a.record = r) <;> simp [h, cancelPairs]
  | case3 a b l h ih =>
    have hl := ih (List.pairwise_cons.mp (List.pairwise_cons.mp hs).2).2
    by_cases hr : a.record = r
    · simp [hl, hr, h.1, h.2, cancelPairs]
    · simp [hl, hr, h.1]
  | case4 a b l h ih =>
    obtain ⟨ha, hl⟩ := List.pairwise_cons.mp hs
    by_cases hr : a.record = r
    · by_cases hb : b.record = r
      · have ht : b.isTombstone = a.isTombstone := by
          by_contra hne
          exact h ⟨hb.trans hr.symm, hne⟩
        have := ih hl
        simp only [hb, decide_true, List.filter_cons_of_pos] at this
        simp [hr, hb, this, cancelPairs, ht]
      · have hlater : ∀ w ∈ b :: l, ¬ w.record = r := by
          have hlt : a.record < b.record := lt_of_le_of_ne (ha b List.mem_cons_self)
            fun heq => hb (heq.symm.trans hr)
          intro w hw heq
          have hle : b.record ≤ w.record := by
            rcases List.mem_cons.mp hw with rfl | hw
            · exact le_rfl
            · exact (List.pairwise_cons.mp hl).1 w hw
          rw [heq, ← hr] at hle
          exact absurd hlt (not_lt.mpr hle)
        have hnil : (b :: l).filter (fun w => w.record = r) = [] :=
          List.filter_eq_nil_iff.mpr fun w hw => by simpa using hlater w hw
        have hfirst : (a :: b :: l).filter (fun w => w.record = r) = [a] := by
          rw [List.filter_cons_of_pos (by simpa using hr), hnil]
        rw [List.filter_cons_of_pos (by simpa using hr), ih hl, hnil, hfirst]
        rfl
    · have hfirst : (a :: b :: l).filter (fun w => w.record = r) =
          (b :: l).filter fun w => w.record = r := List.filter_cons_of_neg (by simpa using hr)
      rw [List.filter_cons_of_neg (by simpa using hr), ih hl, hfirst]

theorem leaves_iff {l : List (Wrapped R)} {r : R} (hr : ∀ w ∈ l, w.record = r) (b : Bool) :
    leaves b (l.map Wrapped.isTombstone) = true ↔ ∀ w ∈ cancelPairs l, w.isTombstone = b := by
  fun_induction cancelPairs l with
  | case1 => simp [leaves]
  | case2 a => simp [leaves]
  | case3 a c l h ih =>
    rw [List.map_cons, List.map_cons, leaves, if_pos h.2,
      ih fun w hw => hr w (by simp [hw])]
  | case4 a c l h ih =>
    have ht : ¬ c.isTombstone ≠ a.isTombstone := by
      intro hne
      exact h ⟨(hr c (by simp)).trans (hr a (by simp)).symm, hne⟩
    have := ih fun w hw => hr w (List.mem_cons_of_mem _ hw)
    rw [List.map_cons] at this
    rw [List.map_cons, List.map_cons, leaves, if_neg ht, List.forall_mem_cons, Bool.and_eq_true,
      this, beq_iff_eq]

end Copies

section Merge
variable {K V : Type} [LinearOrder K] [LinearOrder V]

/-- The tombstone bits of a record's copies, in the order in which the heap of a merge
gives them -/
def tieOrder (std : StdLib (Record K V)) (ls : List (List (Wrapped (Record K V))))
    (r : Record K V) : List Bool :=
  ((KWay.start std.queue ls).order.filter fun w => w.record = r).map Wrapped.isTombstone

/-- Of the copies of `r` in `l`, `out` holds what is left when live copies and
tombstones cancel each other. -/
structure CancelsFully (l out : List (Wrapped (Record K V))) (r : Record K V) : Prop where
  live : liveCount out r = liveCount l r - tombstoneCount l r
  tombstones : tombstoneCount out r = tombstoneCount l r - liveCount l r
  oneKind : liveCount out r = 0 ∨ tombstoneCount out r = 0

theorem cancelsFully_iff {l out : List (Wrapped (Record K V))} {r : Record K V}
    (hnet : net out r = net l r) :
    CancelsFully l out r ↔ liveCount out r = 0 ∨ tombstoneCount out r = 0 := by
  simp only [net] at hnet
  exact ⟨fun h => h.oneKind, fun h => ⟨by omega, by omega, h⟩⟩

theorem liveCount_eq_zero {l : List (Wrapped (Record K V))} {r : Record K V} :
    liveCount l r = 0 ↔ ∀ w ∈ l.filter (fun w => w.record = r), w.isTombstone = true := by
  simp [liveCount]

theorem tombstoneCount_eq_zero {l : List (Wrapped (Record K V))} {r : Record K V} :
    tombstoneCount l r = 0 ↔ ∀ w ∈ l.filter (fun w => w.record = r), w.isTombstone = false := by
  simp [tombstoneCount]

/-- The sort of sorted runs cancels a record fully if and only if, in the order in
which the heap gives its copies, one kind of them stays. -/
theorem externalMergeSort_cancels_iff (lay : NodeLayout) (std : StdLib (Record K V))
    (shards : Bool) {runs : List (File K V × Nat)} {ls : List (List (Wrapped (Record K V)))}
    (hruns : List.Forall₂ (fun r l => Holds lay.leafFanout (if shards then 1 else 0) r.1 l ∧
      r.2 = l.length) runs ls) (hne : ∀ l ∈ ls, l ≠ [])
    (hsort : ∀ l ∈ ls, l.Pairwise (fun a b => a.record ≤ b.record)) :
    ∃ st out, externalMergeSort lay std shards runs File.empty = some st ∧
      Holds lay.leafFanout 1 st.isam out ∧
      (∀ p, pageCount lay.leafFanout out.length < p → st.isam p = none) ∧
      ∀ r, CancelsFully ls.flatten out r ↔
        leaves false (tieOrder std ls r) = true ∨ leaves true (tieOrder std ls r) = true := by
  obtain ⟨st, hst, hm⟩ := externalMergeSort_order std hruns hne hsort
  have hready : (KWay.start std.queue ls).Ready := KWay.start_ready ls hsort
  obtain ⟨hperm, hsorted⟩ := KWay.State.order_spec hready
  rw [KWay.start_content, Multiset.coe_eq_coe] at hperm
  refine ⟨st, _, hst, hm.holds, fun p hp => hm.fresh p (.inr hp), fun r => ?_⟩
  set order := (KWay.start std.queue ls).order with horder
  have hnet : net (cancelPairs order) r = net ls.flatten r := by
    rw [net_cancelPairs, net_perm hperm]
  have hcopies : ∀ w ∈ order.filter (fun w => w.record = r), w.record = r := fun w hw => by
    simpa using (List.mem_filter.mp hw).2
  rw [cancelsFully_iff hnet, liveCount_eq_zero, tombstoneCount_eq_zero,
    filter_cancelPairs hsorted, tieOrder, ← horder, leaves_iff hcopies, leaves_iff hcopies, or_comm]

theorem leaves_tieOrder (std : StdLib (Record K V)) {ls : List (List (Wrapped (Record K V)))}
    (hsort : ∀ l ∈ ls, l.Pairwise (fun a b => a.record ≤ b.record)) {r : Record K V}
    (h : liveCount ls.flatten r ≤ 1 ∨ tombstoneCount ls.flatten r ≤ 1) :
    leaves false (tieOrder std ls r) = true ∨ leaves true (tieOrder std ls r) = true := by
  have hready : (KWay.start std.queue ls).Ready := KWay.start_ready ls hsort
  obtain ⟨hperm, -⟩ := KWay.State.order_spec hready
  rw [KWay.start_content, Multiset.coe_eq_coe] at hperm
  have hcount : ∀ b, (tieOrder std ls r).count b =
      ls.flatten.countP fun w => decide (w.record = r) && w.isTombstone == b := by
    intro b
    rw [← hperm.countP_eq, tieOrder, List.count, List.countP_map, List.countP_filter]
    refine List.countP_congr fun w _ => ?_
    simp [and_comm]
  rcases h with h | h
  · have hle : (tieOrder std ls r).count (!true) ≤ 1 := by
      simpa [hcount, liveCount] using h
    rcases leaves_of_count_le hle with hl | hl
    · exact .inr hl
    · exact .inl (by rw [hl]; rfl)
  · have hle : (tieOrder std ls r).count (!false) ≤ 1 := by
      simpa [hcount, tombstoneCount] using h
    rcases leaves_of_count_le hle with hl | hl
    · exact .inl hl
    · exact .inr (by rw [hl]; rfl)

/-- A run of one page with the listed copies of one record -/
def sampleRun (bits : List Bool) : File Nat Nat × Nat :=
  (File.empty.pwrite 0 (.data (bits.map (Wrapped.fresh ⟨1, 5⟩))), bits.length)

theorem sampleRun_spec (bits : List Bool) (h : bits.length ≤ 170) :
    Holds NodeLayout.words.leafFanout (if false then 1 else 0) (sampleRun bits).1
        (bits.map (Wrapped.fresh (⟨1, 5⟩ : Record Nat Nat))) ∧
      (sampleRun bits).2 = (bits.map (Wrapped.fresh (⟨1, 5⟩ : Record Nat Nat))).length := by
  have hfan : NodeLayout.words.leafFanout = 170 := rfl
  refine ⟨fun p hp => ?_, by simp [sampleRun]⟩
  rw [hfan, List.length_map] at hp
  obtain rfl : p = 0 := by omega
  rw [hfan, pageOf, Nat.zero_mul, List.drop_zero, List.take_of_length_le (by simpa using h)]
  rfl

theorem externalMergeSort_cancels_iff_sample :
    ∃ st out, externalMergeSort NodeLayout.words (StdLib.sorted _) false
        [sampleRun [false, false], sampleRun [true]] File.empty = some st ∧
      Holds NodeLayout.words.leafFanout 1 st.isam out ∧
      CancelsFully (List.flatten [[false, false].map (Wrapped.fresh ⟨1, 5⟩),
        [true].map (Wrapped.fresh ⟨1, 5⟩)]) out ⟨1, 5⟩ := by
  obtain ⟨st, out, hst, hholds, -, hiff⟩ := externalMergeSort_cancels_iff NodeLayout.words
    (StdLib.sorted (Record Nat Nat)) false
    (.cons (sampleRun_spec [false, false] (by decide))
      (.cons (sampleRun_spec [true] (by decide)) .nil))
    (by decide) (by decide)
  exact ⟨st, out, hst, hholds, (hiff ⟨1, 5⟩).mpr (by decide +kernel)⟩

/-- Two inserts and then two erases of one record: the heap gives two live copies
first, of which one stays, and so does the last tombstone. -/
theorem not_externalMergeSort_cancels :
    let l : List (Wrapped (Record Nat Nat)) := [false, false, true, true].map (Wrapped.fresh ⟨1, 5⟩)
    ∃ st out, externalMergeSort NodeLayout.words (StdLib.sorted _) false
        [sampleRun [false, false, true, true]] File.empty = some st ∧
      Holds NodeLayout.words.leafFanout 1 st.isam out ∧
      liveCount l ⟨1, 5⟩ = 2 ∧ tombstoneCount l ⟨1, 5⟩ = 2 ∧
      liveCount out ⟨1, 5⟩ = 1 ∧ tombstoneCount out ⟨1, 5⟩ = 1 ∧
      ¬ CancelsFully l out ⟨1, 5⟩ := by
  intro l
  have hmerge : ∃ st, externalMergeSort NodeLayout.words (StdLib.sorted (Record Nat Nat)) false
      [sampleRun [false, false, true, true]] File.empty = some st ∧
      Merged NodeLayout.words.leafFanout [l] st
        (cancelPairs (KWay.start (StdLib.sorted (Record Nat Nat)).queue [l]).order) :=
    externalMergeSort_order _ (.cons (sampleRun_spec [false, false, true, true] (by decide)) .nil)
      (by decide) (by decide)
  obtain ⟨st, hst, hm⟩ := hmerge
  have hlive : liveCount (cancelPairs (KWay.start (StdLib.sorted _).queue [l]).order)
    ⟨1, 5⟩ = 1 := by
    decide +kernel
  have htomb : tombstoneCount (cancelPairs (KWay.start (StdLib.sorted _).queue [l]).order)
      ⟨1, 5⟩ = 1 := by decide +kernel
  refine ⟨st, _, hst, hm.holds, by decide, by decide, hlive, htomb, fun h => ?_⟩
  have := h.oneKind
  omega

end Merge

end De

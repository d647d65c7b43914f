import DynamicExtension.TreeSearch
set_option autoImplicit false

namespace De
variable {R : Type} [DecidableEq R]

omit [DecidableEq R] in
/-- What a stored copy adds to the count of its record in a scan -/
def liveWeight (w : Wrapped R) : ℤ :=
  if w.isTombstone then -1 else if w.isDeleted then 0 else 1

/-- Undeleted copies less tombstones, for each record -/
def visible (l : List (Wrapped R)) : R → ℤ := fun r =>
  (l.map fun w => if w.record = r then liveWeight w else 0).sum

@[simp] theorem visible_nil : visible ([] : List (Wrapped R)) = 0 := rfl

theorem visible_cons (w : Wrapped R) (l : List (Wrapped R)) (r : R) :
    visible (w :: l) r = (if w.record = r then liveWeight w else 0) + visible l r := by
  simp [visible]

@[simp] theorem visible_append (l m : List (Wrapped R)) : visible (l ++ m) =
    visible l + visible m := by
  funext r
  simp [visible]

theorem visible_perm {l m : List (Wrapped R)} (h : l.Perm m) : visible l = visible m := by
  funext r
  exact (h.map _).sum_eq

theorem visible_eq_net {l : List (Wrapped R)} (h : ∀ w ∈ l, w.isDeleted = false) :
    visible l = net l := by
  induction l with
  | nil => rfl
  | cons w l ih =>
    have hw := h w List.mem_cons_self
    funext r
    rw [visible_cons, ih fun v hv => h v (List.mem_cons_of_mem _ hv), net_cons, Pi.add_apply]
    simp [unit, liveWeight, hw]

theorem visible_le_net (l : List (Wrapped R)) (r : R) : visible l r ≤ net l r := by
  induction l with
  | nil => rfl
  | cons w l ih =>
    rw [visible_cons, net_cons, Pi.add_apply]
    refine add_le_add ?_ ih
    rw [unit, liveWeight]
    split_ifs <;> simp

theorem visible_eq_net_iff (l : List (Wrapped R)) :
    (∀ r, visible l r = net l r) ↔ ∀ w ∈ l, w.isTombstone = false → w.isDeleted = false := by
  induction l with
  | nil => simp
  | cons w l ih =>
    rw [List.forall_mem_cons, ← ih]
    have hw : ∀ r, (if w.record = r then liveWeight w else 0) ≤ unit w r := by
      intro r
      rw [unit, liveWeight]
      split_ifs <;> simp
    have hself : (if w.record = w.record then liveWeight w else 0) = unit w w.record ↔
        (w.isTombstone = false → w.isDeleted = false) := by
      rw [unit, liveWeight]
      cases w.isTombstone <;> cases w.isDeleted <;> simp
    simp only [visible_cons, net_cons, Pi.add_apply]
    constructor
    · intro h
      have hl := fun r => visible_le_net l r
      refine ⟨hself.mp ?_, fun r => ?_⟩
      · have := h w.record
        have := hl w.record
        have := hw w.record
        omega
      · have := h r
        have := hl r
        have := hw r
        omega
    · rintro ⟨hlive, heq⟩ r
      rw [heq r, add_left_inj]
      by_cases hr : w.record = r
      · subst hr
        exact hself.mpr hlive
      · simp [unit, hr]

theorem visible_eq_zero {l : List (Wrapped R)} {r : R} (h : ∀ w ∈ l, w.record ≠ r) :
    visible l r = 0 := by
  induction l with
  | nil => rfl
  | cons w l ih =>
    rw [visible_cons, if_neg (h w List.mem_cons_self), ih fun v hv =>
      h v (List.mem_cons_of_mem _ hv), add_zero]

theorem visible_filter (p : R → Bool) (l : List (Wrapped R)) (r : R) :
    visible (l.filter fun w => p w.record) r = if p r then visible l r else 0 := by
  induction l with
  | nil => simp
  | cons w l ih =>
    by_cases hr : w.record = r
    · cases hp : p r <;> simp_all [visible_cons]
    · cases hp : p w.record <;> simp_all [visible_cons]

/-- A list in record order, read group by group: each record comes out as often
as its group counts. -/
def emit : List (Wrapped R) → List R
  | [] => []
  | w :: l =>
    List.replicate ((w :: l.takeWhile fun v => v.record = w.record).map liveWeight).sum.toNat
        w.record ++
      emit (l.dropWhile fun v => v.record = w.record)
termination_by l => l.length
decreasing_by
  have := (List.dropWhile_sublist (l := l) fun v => decide (v.record = w.record)).length_le
  simp only [List.length_cons]
  omega

theorem emit_cons (w : Wrapped R) (l : List (Wrapped R)) :
    emit (w :: l) =
      List.replicate ((w :: l.takeWhile fun v => v.record = w.record).map liveWeight).sum.toNat
          w.record ++
        emit (l.dropWhile fun v => v.record = w.record) := by
  rw [emit]

theorem visible_group (w : Wrapped R) (l : List (Wrapped R)) :
    visible (w :: l.takeWhile fun v => v.record = w.record) w.record =
      ((w :: l.takeWhile fun v => v.record = w.record).map liveWeight).sum := by
  apply congrArg List.sum
  apply List.map_congr_left
  intro v hv
  have hr : v.record = w.record := by
    rcases List.mem_cons.mp hv with rfl | hv
    · rfl
    · simpa using List.mem_takeWhile_imp hv
  rw [if_pos hr]

section Sorted
variable [LinearOrder R]

theorem lt_of_mem_dropWhile {w v : Wrapped R} {l : List (Wrapped R)}
    (hs : (w :: l).Pairwise fun a b => a.record ≤ b.record)
    (hv : v ∈ l.dropWhile fun v => v.record = w.record) : w.record < v.record := by
  induction l with
  | nil => simp at hv
  | cons u l ih =>
    obtain ⟨hle, hl⟩ := List.pairwise_cons.mp hs
    obtain ⟨hu, hl'⟩ := List.pairwise_cons.mp hl
    rw [List.dropWhile_cons] at hv
    split at hv
    · exact ih (List.pairwise_cons.mpr ⟨fun x hx => hle x (List.mem_cons_of_mem _ hx), hl'⟩) hv
    · rename_i hne
      have hlt : w.record < u.record :=
        lt_of_le_of_ne (hle u List.mem_cons_self) fun h => hne (by simp [h])
      rcases List.mem_cons.mp hv with rfl | hv
      · exact hlt
      · exact lt_of_lt_of_le hlt (hu v hv)

omit [LinearOrder R] in
theorem mem_emit {l : List (Wrapped R)} {r : R} (h : r ∈ emit l) : ∃ w ∈ l, w.record = r := by
  induction l using emit.induct with
  | case1 => simp [emit] at h
  | case2 w l ih =>
    rw [emit_cons, List.mem_append] at h
    rcases h with h | h
    · exact ⟨w, List.mem_cons_self, (List.eq_of_mem_replicate h).symm⟩
    · obtain ⟨v, hv, hr⟩ := ih h
      exact ⟨v, List.mem_cons_of_mem _ ((List.dropWhile_sublist _).subset hv), hr⟩

theorem emit_sorted {l : List (Wrapped R)} (hs : l.Pairwise fun a b => a.record ≤ b.record) :
    (emit l).Pairwise (· ≤ ·) := by
  induction l using emit.induct with
  | case1 => simp [emit]
  | case2 w l ih =>
    rw [emit_cons, List.pairwise_append]
    refine ⟨List.pairwise_replicate.mpr (.inr le_rfl),
      ih ((List.pairwise_cons.mp hs).2.sublist (List.dropWhile_sublist _)), ?_⟩
    intro a ha b hb
    obtain ⟨v, hv, rfl⟩ := mem_emit hb
    rw [List.eq_of_mem_replicate ha]
    exact (lt_of_mem_dropWhile hs hv).le

theorem count_emit {l : List (Wrapped R)} (hs : l.Pairwise fun a b => a.record ≤ b.record) (r : R) :
    (emit l).count r = (visible l r).toNat := by
  induction l using emit.induct with
  | case1 => simp [emit]
  | case2 w l ih =>
    set g := w :: l.takeWhile fun v => v.record = w.record with hg
    set rest := l.dropWhile fun v => v.record = w.record with hrest
    have hsplit : w :: l = g ++ rest := by
      rw [hg, hrest, List.cons_append, List.takeWhile_append_dropWhile]
    have hsorted : rest.Pairwise fun a b => a.record ≤ b.record :=
      (List.pairwise_cons.mp hs).2.sublist (List.dropWhile_sublist _)
    have hgreater : ∀ v ∈ rest, w.record < v.record := fun v hv => lt_of_mem_dropWhile hs hv
    have hvis : visible (w :: l) r = visible g r + visible rest r := by
      rw [hsplit, visible_append, Pi.add_apply]
    rw [emit_cons, List.count_append, ih hsorted, hvis, List.count_replicate]
    by_cases hr : w.record = r
    · subst hr
      have hzero : visible rest w.record = 0 := visible_eq_zero fun v hv => (hgreater v hv).ne'
      rw [hzero, visible_group]
      simp
    · have hzero : visible g r = 0 := by
        apply visible_eq_zero
        intro v hv
        rcases List.mem_cons.mp hv with rfl | hv
        · exact hr
        · have := List.mem_takeWhile_imp hv
          simp only [decide_eq_true_eq] at this
          rwa [this]
      rw [hzero, zero_add]
      simp [hr]

end Sorted

end De

import DynamicExtension.Library.PriorityQueue
set_option autoImplicit false

/-! Keeping the `k` elements of a collection that are nearest by a key. -/

namespace Nearest
variable {α D : Type} [LinearOrder D] {key : α → D} {k : Nat} {all kept : Multiset α}

/-- `kept` are `k` elements of `all`, or all of them, and none left out is nearer. -/
def Selects (key : α → D) (k : Nat) (all kept : Multiset α) : Prop :=
  ∃ left, all = kept + left ∧ kept.card = min k all.card ∧ ∀ x ∈ kept, ∀ y ∈ left, key x ≤ key y

theorem selects_zero (key : α → D) (k : Nat) : Selects key k 0 0 :=
  ⟨0, rfl, by simp, fun x hx => absurd hx (Multiset.notMem_zero x)⟩

theorem Selects.le (h : Selects key k all kept) : kept ≤ all := by
  obtain ⟨left, rfl, -⟩ := h
  exact Multiset.le_add_right _ _

theorem Selects.card (h : Selects key k all kept) : kept.card = min k all.card := by
  obtain ⟨left, -, hcard, -⟩ := h
  exact hcard

theorem Selects.eq_of_card_lt (h : Selects key k all kept) (hlt : kept.card < k) : kept = all := by
  have hcard := h.card
  exact Multiset.eq_of_le_of_card_le h.le (by omega)

theorem Selects.push (h : Selects key k all kept) (hlt : kept.card < k) (a : α) :
    Selects key k (a ::ₘ all) (a ::ₘ kept) := by
  have heq := h.eq_of_card_lt hlt
  subst heq
  exact ⟨0, by simp, by rw [Multiset.card_cons]; omega,
    fun x _ y hy => absurd hy (Multiset.notMem_zero y)⟩

theorem Selects.skip (h : Selects key k all kept) (hk : kept.card = k) {more : Multiset α}
    (hmore : ∀ x ∈ kept, ∀ y ∈ more, key x ≤ key y) : Selects key k (all + more) kept := by
  obtain ⟨left, rfl, hcard, hle⟩ := h
  refine ⟨left + more, add_assoc .., by rw [Multiset.card_add]; omega, fun x hx y hy => ?_⟩
  rcases Multiset.mem_add.mp hy with hy | hy
  · exact hle x hx y hy
  · exact hmore x hx y hy

theorem Selects.replace {far a : α} (h : Selects key k all (far ::ₘ kept))
    (hk : kept.card + 1 = k) (hfar : ∀ x ∈ kept, key x ≤ key far) (ha : key a ≤ key far) :
    Selects key k (a ::ₘ all) (a ::ₘ kept) := by
  obtain ⟨left, rfl, hcard, hle⟩ := h
  refine ⟨far ::ₘ left, ?_, ?_, fun x hx y hy => ?_⟩
  · rw [Multiset.cons_add, Multiset.cons_add, Multiset.add_cons]
  · simp only [Multiset.card_cons, Multiset.card_add]
    omega
  · have hx' : key x ≤ key far := by
      rcases Multiset.mem_cons.mp hx with rfl | hx
      · exact ha
      · exact hfar x hx
    rcases Multiset.mem_cons.mp hy with rfl | hy
    · exact hx'
    · exact hx'.trans (hle far (Multiset.mem_cons_self _ _) y hy)

theorem Selects.map {β : Type} (f : α → β) (key : β → D)
    (h : Selects (fun a => key (f a)) k all kept) : Selects key k (all.map f) (kept.map f) := by
  obtain ⟨left, rfl, hcard, hle⟩ := h
  refine ⟨left.map f, Multiset.map_add .., by simpa using hcard, fun x hx y hy => ?_⟩
  obtain ⟨a, ha, rfl⟩ := Multiset.mem_map.mp hx
  obtain ⟨b, hb, rfl⟩ := Multiset.mem_map.mp hy
  exact hle a ha b hb

theorem Selects.widen {more out : Multiset α} (h : Selects key k all kept)
    (hout : Selects key k (kept + more) out) : Selects key k (all + more) out := by
  obtain ⟨left, rfl, hcard, hle⟩ := h
  obtain ⟨rest, hrest, hcard', hle'⟩ := hout
  simp only [Multiset.card_add] at hcard hcard'
  refine ⟨rest + left, ?_, by simp only [Multiset.card_add]; omega, fun x hx y hy => ?_⟩
  · calc kept + left + more = kept + more + left := add_right_comm ..
      _ = out + (rest + left) := by rw [hrest, add_assoc]
  rcases Multiset.mem_add.mp hy with hy | hy
  · exact hle' x hx y hy
  -- `y` was left out, so `kept` is full, and nothing in it is behind `y`
  have hfull : kept.card = k := by
    have := Multiset.card_pos_iff_exists_mem.mpr ⟨y, hy⟩
    omega
  by_contra hlt
  have hsub : kept ≤ out := by
    classical
    rw [Multiset.le_iff_count]
    intro z
    by_cases hz : z ∈ kept
    · have hzr : z ∉ rest := fun hzr => hlt ((hle' x hx z hzr).trans (hle z hz y hy))
      have hsum := congrArg (Multiset.count z) hrest
      rw [Multiset.count_add, Multiset.count_add, Multiset.count_eq_zero.mpr hzr] at hsum
      omega
    · rw [Multiset.count_eq_zero.mpr hz]
      exact Nat.zero_le _
  have heq : kept = out := Multiset.eq_of_le_of_card_le hsub (by omega)
  exact hlt (hle x (heq ▸ hx) y hy)

/-- Selecting from what the selections from several collections kept selects from the
collections together. -/
theorem Selects.widen_sum {ι : Type} (sources : List ι) (every few : ι → Multiset α)
    (h : ∀ i ∈ sources, Selects key k (every i) (few i)) {more out : Multiset α}
    (hout : Selects key k (more + (sources.map few).sum) out) :
    Selects key k (more + (sources.map every).sum) out := by
  induction sources generalizing more with
  | nil => exact hout
  | cons i sources ih =>
    rw [List.map_cons, List.sum_cons, ← add_assoc] at hout ⊢
    refine ih (fun j hj => h j (List.mem_cons_of_mem i hj)) ?_
    rw [add_comm more, add_assoc] at hout ⊢
    exact (h i List.mem_cons_self).widen hout

/-- Elements that `k` others are nearer than are not selected. -/
theorem Selects.narrow {more : Multiset α} (h : Selects key k (all + more) kept)
    (hmore : ∀ y ∈ more, k ≤ (all.filter fun x => key x < key y).card) :
    Selects key k all kept := by
  classical
  obtain ⟨left, hsplit, hcard, hle⟩ := h
  have hcount : ∀ z, all.count z + more.count z = kept.count z + left.count z := fun z => by
    rw [← Multiset.count_add, hsplit, Multiset.count_add]
  have hout : ∀ y ∈ more, y ∉ kept := by
    intro y hy hyk
    -- the nearer ones are kept too, next to `y` one too many
    have hsub : y ::ₘ all.filter (fun x => key x < key y) ≤ kept := by
      rw [Multiset.cons_le_of_notMem (by simp)]
      refine ⟨hyk, Multiset.le_iff_count.mpr fun z => ?_⟩
      by_cases hz : key z < key y
      · have hzl : left.count z = 0 :=
          Multiset.count_eq_zero.mpr fun hzl => not_le.mpr hz (hle y hyk z hzl)
        rw [Multiset.count_filter_of_pos (p := fun x => key x < key y) hz]
        have := hcount z
        omega
      · rw [Multiset.count_filter_of_neg (p := fun x => key x < key y) hz]
        exact Nat.zero_le _
    have := Multiset.card_le_card hsub
    have := hmore y hy
    rw [Multiset.card_cons] at *
    omega
  have hleft : more ≤ left := by
    rw [Multiset.le_iff_count]
    intro z
    by_cases hz : z ∈ more
    · have := hcount z
      rw [Multiset.count_eq_zero.mpr (hout z hz)] at this
      omega
    · rw [Multiset.count_eq_zero.mpr hz]
      exact Nat.zero_le _
  obtain ⟨rest, rfl⟩ := Multiset.le_iff_exists_add.mp hleft
  refine ⟨rest, ?_, ?_, fun x hx y hy => hle x hx y (Multiset.mem_add.mpr (.inr hy))⟩
  · rw [← add_assoc, add_right_comm] at hsplit
    exact add_right_cancel hsplit
  · rw [Multiset.card_add] at hcard
    rcases Multiset.empty_or_exists_mem more with rfl | ⟨y, hy⟩
    · exact hcard
    · have := (hmore y hy).trans (Multiset.card_le_card (Multiset.filter_le _ all))
      omega

/-- Elements that could be left out have `k` others that are no farther. -/
theorem Selects.behind {more : Multiset α} (h : Selects key k (all + more) kept)
    (h' : Selects key k all kept) {y : α} (hy : y ∈ more) :
    k ≤ (all.filter fun x => key x ≤ key y).card := by
  obtain ⟨left, hsplit, hcard, hle⟩ := h
  obtain ⟨left', rfl, hcard', hle'⟩ := h'
  have heq : left' + more = left := by
    rw [add_assoc] at hsplit
    exact add_left_cancel hsplit
  have hpos := Multiset.card_pos_iff_exists_mem.mpr ⟨y, hy⟩
  rw [Multiset.card_add] at hcard
  have hnear : kept ≤ (kept + left').filter fun x => key x ≤ key y :=
    Multiset.le_filter.mpr ⟨Multiset.le_add_right _ _,
      fun x hx => hle x hx y (heq ▸ Multiset.mem_add.mpr (.inr hy))⟩
  have := Multiset.card_le_card hnear
  omega

end Nearest

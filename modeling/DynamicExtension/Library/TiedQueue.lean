import DynamicExtension.Library.PriorityQueue
set_option autoImplicit false

namespace PQ

variable {α R : Type} [LinearOrder R]

/-- An element that a queue may yield -/
def LeastOf (key : α → R) (s : Multiset α) (a : α) : Prop := a ∈ s ∧ ∀ b ∈ s, key a ≤ key b

theorem exists_leastOf (key : α → R) {s : Multiset α} (hs : s ≠ 0) : ∃ a, LeastOf key s a := by
  obtain ⟨b, hb⟩ := Multiset.exists_mem_of_ne_zero hs
  classical
  obtain ⟨a, ha, hle⟩ := s.toFinset.exists_min_image key ⟨b, Multiset.mem_toFinset.mpr hb⟩
  exact ⟨a, Multiset.mem_toFinset.mp ha, fun c hc => hle c (Multiset.mem_toFinset.mpr hc)⟩

open Classical in
/-- The wish, if it may be yielded, and else any element that may be -/
noncomputable def grant (key : α → R) (wish : Option α) (s : Multiset α) : Option α :=
  if ∃ a, wish = some a ∧ LeastOf key s a then wish
  else if h : ∃ a, LeastOf key s a then some h.choose else none

theorem grant_eq {key : α → R} {s : Multiset α} {a : α} (h : LeastOf key s a) :
    grant key (some a) s = some a := if_pos ⟨a, rfl, h⟩

theorem leastOf_of_grant {key : α → R} {wish : Option α} {s : Multiset α} {a : α}
    (h : grant key wish s = some a) : LeastOf key s a := by
  unfold grant at h
  split at h
  · rename_i hwish
    obtain ⟨b, rfl, hb⟩ := hwish
    exact Option.some.inj h ▸ hb
  · split at h
    · rename_i hany
      exact Option.some.inj h ▸ hany.choose_spec
    · cases h

theorem eq_zero_of_grant {key : α → R} {wish : Option α} {s : Multiset α}
    (h : grant key wish s = none) : s = 0 := by
  by_contra hs
  unfold grant at h
  split at h
  · rename_i hwish
    obtain ⟨b, rfl, -⟩ := hwish
    cases h
  · rw [dif_pos (exists_leastOf key hs)] at h
    cases h

namespace PriorityQueue

open Classical in
/-- The queue that breaks ties as it is told: the pop after `n` others takes `wish n`, if
that is a least element. -/
noncomputable def told (key : α → R) (wish : Nat → Option α) : PriorityQueue α R key where
  Queue := Multiset α × Nat
  empty := (0, 0)
  push a q := (a ::ₘ q.1, q.2)
  top q := grant key (wish q.2) q.1
  pop q := match grant key (wish q.2) q.1 with
    | some a => (q.1.erase a, q.2 + 1)
    | none => q
  elems q := q.1
  elems_empty := rfl
  elems_push _ _ := rfl
  elems_top_none _ h := eq_zero_of_grant h
  elems_pop a q h := by
    rw [h]
    exact (Multiset.cons_erase (leastOf_of_grant h).1).symm
  top_le _ _ h := (leastOf_of_grant h).2

variable {key : α → R} {wish : Nat → Option α}

/-- How many pops there were -/
def pops (q : (told key wish).Queue) : Nat := q.2

theorem pops_empty : pops (told key wish).empty = 0 := rfl

theorem pops_push (a : α) (q : (told key wish).Queue) :
    pops ((told key wish).push a q) = pops q := rfl

theorem pops_pop {a : α} {q : (told key wish).Queue} (h : (told key wish).top q = some a) :
    pops ((told key wish).pop q) = pops q + 1 := by
  have hgrant : grant key (wish q.2) q.1 = some a := h
  simp only [told, pops, hgrant]

theorem top_told {a : α} {q : (told key wish).Queue} (hwish : wish (pops q) = some a)
    (h : LeastOf key ((told key wish).elems q) a) : (told key wish).top q = some a := by
  show grant key (wish (pops q)) ((told key wish).elems q) = some a
  rw [hwish]
  exact grant_eq h

end PriorityQueue

end PQ

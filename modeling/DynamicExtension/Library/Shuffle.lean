import Mathlib
set_option autoImplicit false

/-! Arrays whose entries on an interval are put in another order. -/

namespace Shuffle
variable {α β : Type}

/-- `b` is `a` with the entries at `start`, ..., `stop` in some order. -/
def Within (start stop : Nat) (a b : Nat → α) : Prop :=
  ∃ σ : Equiv.Perm Nat, (∀ i, ¬ (start ≤ i ∧ i ≤ stop) → σ i = i) ∧ b = a ∘ σ

variable {start stop : Nat} {a b c : Nat → α}

theorem Within.refl (start stop : Nat) (a : Nat → α) : Within start stop a a :=
    ⟨1, fun _ _ => rfl, rfl⟩

theorem Within.trans (hab : Within start stop a b) (hbc : Within start stop b c) :
    Within start stop a c := by
  obtain ⟨σ, hσ, rfl⟩ := hab
  obtain ⟨τ, hτ, rfl⟩ := hbc
  exact ⟨σ * τ, fun i hi => by rw [Equiv.Perm.mul_apply, hτ i hi, hσ i hi], rfl⟩

theorem Within.mono {start' stop' : Nat} (h : Within start stop a b) (hlo : start' ≤ start)
    (hhi : stop ≤ stop') :
    Within start' stop' a b := by
  obtain ⟨σ, hσ, hb⟩ := h
  exact ⟨σ, fun i hi => hσ i fun hin => hi ⟨hlo.trans hin.1, hin.2.trans hhi⟩, hb⟩

theorem Within.map (h : Within start stop a b) (f : α → β) : Within start stop (f ∘ a) (f ∘ b) := by
  obtain ⟨σ, hσ, rfl⟩ := h
  exact ⟨σ, hσ, rfl⟩

theorem Within.eq_outside (h : Within start stop a b) {i : Nat} (hi : ¬ (start ≤ i ∧ i ≤ stop)) :
    b i = a i := by
  obtain ⟨σ, hσ, rfl⟩ := h
  rw [Function.comp_apply, hσ i hi]

theorem inside {σ : Equiv.Perm Nat} (hσ : ∀ i, ¬ (start ≤ i ∧ i ≤ stop) → σ i = i) {i : Nat}
    (hi : start ≤ i ∧ i ≤ stop) : start ≤ σ i ∧ σ i ≤ stop := by
  by_contra hout
  have hfix := σ.injective (hσ _ hout)
  rw [hfix] at hout
  exact hout hi

theorem Within.symm (h : Within start stop a b) : Within start stop b a := by
  obtain ⟨σ, hσ, rfl⟩ := h
  refine ⟨σ.symm, fun i hi => ?_, ?_⟩
  · rw [Equiv.symm_apply_eq, hσ i hi]
  · funext i
    simp

theorem Within.exists_eq (h : Within start stop a b) {i : Nat} (hi : start ≤ i ∧ i ≤ stop) :
    ∃ j, (start ≤ j ∧ j ≤ stop) ∧ b i = a j := by
  obtain ⟨σ, hσ, rfl⟩ := h
  exact ⟨σ i, inside hσ hi, rfl⟩

theorem Within.forall_iff (h : Within start stop a b) {start' stop' : Nat} (hlo : start' ≤ start)
    (hhi : stop ≤ stop')
    (P : α → Prop) : (∀ i, start' ≤ i → i ≤ stop' → P (b i)) ↔ ∀ i, start' ≤ i →
    i ≤ stop' → P (a i) := by
  have hone : ∀ {a b : Nat → α}, Within start' stop' a b →
      (∀ i, start' ≤ i → i ≤ stop' → P (a i)) → ∀ i, start' ≤ i → i ≤ stop' → P (b i) := by
    intro a b h ha i hi hi'
    obtain ⟨j, hj, heq⟩ := h.exists_eq ⟨hi, hi'⟩
    rw [heq]
    exact ha j hj.1 hj.2
  have hwide := h.mono hlo hhi
  exact ⟨hone hwide.symm, hone hwide⟩

theorem Within.map_range (h : Within start stop a b) {n : Nat} (hn : stop < n) :
    (Multiset.range n).map b = (Multiset.range n).map a := by
  obtain ⟨σ, hσ, rfl⟩ := h
  rw [← Multiset.map_map]
  congr 1
  have hmem : ∀ i, i < n → σ i < n := by
    intro i hi
    by_cases hin : start ≤ i ∧ i ≤ stop
    · exact (inside hσ hin).2.trans_lt hn
    · rwa [hσ i hin]
  have hnodup : ((Multiset.range n).map σ).Nodup :=
    (Multiset.nodup_range n).map σ.injective
  refine Multiset.eq_of_le_of_card_le
    (Multiset.le_iff_subset hnodup |>.mpr fun i hi => ?_) (by simp)
  obtain ⟨j, hj, rfl⟩ := Multiset.mem_map.mp hi
  exact Multiset.mem_range.mpr (hmem j (Multiset.mem_range.mp hj))

section Swap

def swap (a : Nat → α) (i j : Nat) : Nat → α :=
  let tmp := a i
  Function.update (Function.update a i (a j)) j tmp

theorem swap_eq (a : Nat → α) (i j : Nat) : swap a i j = a ∘ Equiv.swap i j := by
  funext k
  rw [Function.comp_apply, swap]
  by_cases hj : k = j
  · rw [hj, Function.update_self, Equiv.swap_apply_right]
  · rw [Function.update_of_ne hj]
    by_cases hi : k = i
    · rw [hi, Function.update_self, Equiv.swap_apply_left]
    · rw [Function.update_of_ne hi, Equiv.swap_apply_of_ne_of_ne hi hj]

theorem swap_left (a : Nat → α) (i j : Nat) : swap a i j i = a j := by
  rw [swap_eq, Function.comp_apply, Equiv.swap_apply_left]

theorem swap_right (a : Nat → α) (i j : Nat) : swap a i j j = a i := by
  rw [swap_eq, Function.comp_apply, Equiv.swap_apply_right]

theorem swap_of_ne (a : Nat → α) {i j k : Nat} (hi : k ≠ i) (hj : k ≠ j) : swap a i j k = a k := by
  rw [swap_eq, Function.comp_apply, Equiv.swap_apply_of_ne_of_ne hi hj]

theorem within_swap (a : Nat → α) {i j : Nat} (hi : start ≤ i ∧ i ≤ stop)
    (hj : start ≤ j ∧ j ≤ stop) :
    Within start stop a (swap a i j) := by
  refine ⟨Equiv.swap i j, fun k hk => ?_, swap_eq a i j⟩
  refine Equiv.swap_apply_of_ne_of_ne ?_ ?_
  · rintro rfl
    exact hk hi
  · rintro rfl
    exact hk hj

end Swap

end Shuffle

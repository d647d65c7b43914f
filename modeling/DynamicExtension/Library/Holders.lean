import Mathlib.Algebra.BigOperators.Group.Finset.Piecewise
import Mathlib.Data.Fintype.Basic
set_option autoImplicit false

namespace Holders

/-! How many of finitely many threads hold a key, by the state each of them is in. -/

variable {ι τ κ : Type} [Fintype ι] [DecidableEq κ] {holds : τ → Option κ}

def count (holds : τ → Option κ) (threads : ι → τ) (k : κ) : Nat :=
  (Finset.univ.filter fun t => holds (threads t) = some k).card

theorem count_pos {threads : ι → τ} {t : ι} {k : κ} (h : holds (threads t) = some k) :
    0 < count holds threads k :=
  Finset.card_pos.mpr ⟨t, Finset.mem_filter.mpr ⟨Finset.mem_univ t, h⟩⟩

theorem count_eq_zero {threads : ι → τ} {k : κ} :
    count holds threads k = 0 ↔ ∀ t, holds (threads t) ≠ some k := by
  rw [count, Finset.card_eq_zero, Finset.filter_eq_empty_iff]
  simp

variable [DecidableEq ι]

theorem count_update (holds : τ → Option κ) (threads : ι → τ) (t : ι) (j : τ) (k : κ) :
    count holds (Function.update threads t j) k + (if holds (threads t) = some k then 1 else 0) =
      count holds threads k + (if holds j = some k then 1 else 0) := by
  have hupdate : (fun u => if holds (Function.update threads t j u) = some k then 1 else 0) =
      Function.update (fun u => if holds (threads u) = some k then 1 else 0) t
        (if holds j = some k then 1 else 0) := by
    funext u
    by_cases hu : u = t
    · simp [hu]
    · simp [hu]
  rw [count, count, Finset.card_filter, Finset.card_filter, hupdate,
    Finset.sum_update_of_mem (Finset.mem_univ t),
    Finset.sum_eq_add_sum_sdiff_singleton_of_mem (Finset.mem_univ t) fun u =>
      if holds (threads u) = some k then 1 else 0]
  omega

theorem count_same {threads : ι → τ} {t : ι} {j : τ} (h : holds j = holds (threads t)) :
    count holds (Function.update threads t j) = count holds threads := by
  funext k
  have := count_update holds threads t j k
  rw [h] at this
  omega

theorem count_pin {threads : ι → τ} {t : ι} {j : τ} {k : κ} (hbefore : holds (threads t) = none)
    (hafter : holds j = some k) :
    count holds (Function.update threads t j) k = count holds threads k + 1 ∧
      ∀ x, x ≠ k → count holds (Function.update threads t j) x = count holds threads x := by
  have hupdate := count_update holds threads t j
  rw [hbefore, hafter] at hupdate
  exact ⟨by simpa using hupdate k, fun x hx => by simpa [hx.symm] using hupdate x⟩

theorem count_unpin {threads : ι → τ} {t : ι} {j : τ} {k : κ} (hbefore : holds (threads t) = some k)
    (hafter : holds j = none) :
    count holds (Function.update threads t j) k + 1 = count holds threads k ∧
      ∀ x, x ≠ k → count holds (Function.update threads t j) x = count holds threads x := by
  have hupdate := count_update holds threads t j
  rw [hbefore, hafter] at hupdate
  exact ⟨by simpa using hupdate k, fun x hx => by simpa [hx.symm] using hupdate x⟩

end Holders

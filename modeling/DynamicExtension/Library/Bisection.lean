import Mathlib
set_option autoImplicit false

/-! Searches for the index where a condition stops to hold. -/

namespace Bisect

/-- `while (idx < stop && p(idx)) idx++`, where `stop` is `left` steps away -/
def advance (p : Nat → Bool) (idx : Nat) : Nat → Nat
  | 0 => idx
  | left + 1 => if p idx then advance p (idx + 1) left else idx

/-- `while (idx < max)` with the middle index on one side or the other; the fuel is the
width of the interval, or more. -/
def halve (p : Nat → Bool) : Nat → Nat → Nat → Nat
  | 0, idx, _ => idx
  | fuel + 1, idx, max =>
    if idx < max then
      let mid := (idx + max) / 2
      if p mid then halve p fuel (mid + 1) max else halve p fuel idx mid
    else idx

/-- Between `lo` and `hi` the condition holds exactly before `n`. -/
structure Turns (p : Nat → Bool) (lo hi n : Nat) : Prop where
  lo_le : lo ≤ n
  le_hi : n ≤ hi
  before : ∀ i, lo ≤ i → i < n → p i = true
  after : ∀ i, n ≤ i → i < hi → p i = false

variable {p : Nat → Bool}

theorem Turns.unique {lo hi n m : Nat} (hn : Turns p lo hi n) (hm : Turns p lo hi m) : n = m := by
  have hlt : ∀ {a b : Nat}, Turns p lo hi a → Turns p lo hi b → ¬ a < b := by
    intro a b ha hb hab
    have hf := ha.after a le_rfl (hab.trans_le hb.le_hi)
    rw [hb.before a ha.lo_le hab] at hf
    cases hf
  exact le_antisymm (not_lt.mp (hlt hm hn)) (not_lt.mp (hlt hn hm))

/-- The scan stops at the first failure, whatever comes after it. -/
theorem advance_spec (p : Nat → Bool) (idx left : Nat) :
    idx ≤ advance p idx left ∧ advance p idx left ≤ idx + left ∧
      (∀ i, idx ≤ i → i < advance p idx left → p i = true) ∧
      (advance p idx left < idx + left → p (advance p idx left) = false) := by
  induction left generalizing idx with
  | zero => exact ⟨le_rfl, le_rfl, fun i hle hlt => absurd hlt (by simpa [advance] using hle),
      fun hlt => absurd hlt (lt_irrefl _)⟩
  | succ left ih =>
    by_cases hp : p idx = true
    · obtain ⟨hle, hstop, hbefore, hat⟩ := ih (idx + 1)
      rw [advance, if_pos hp]
      refine ⟨by omega, by omega, fun i hi hlt => ?_, fun hlt => hat (by omega)⟩
      rcases Nat.eq_or_lt_of_le hi with rfl | hi
      · exact hp
      · exact hbefore i hi hlt
    · rw [advance, if_neg hp]
      exact ⟨le_rfl, by omega, fun i hi hlt => absurd hlt (by omega), fun _ => by simpa using hp⟩

theorem advance_eq {lo hi n : Nat} (h : Turns p lo hi n) : advance p lo (hi - lo) = n := by
  have hlo := h.lo_le
  have hhi := h.le_hi
  obtain ⟨hle, hstop, hbefore, hat⟩ := advance_spec p lo (hi - lo)
  rcases lt_trichotomy (advance p lo (hi - lo)) n with hlt | heq | hlt
  · have hf := hat (by omega)
    rw [h.before _ hle hlt] at hf
    cases hf
  · exact heq
  · have hf := h.after n le_rfl (by omega)
    rw [hbefore n hlo hlt] at hf
    cases hf

theorem halve_eq {n : Nat} (fuel : Nat) {lo hi : Nat} (hfuel : hi - lo ≤ fuel)
    (h : Turns p lo hi n) : halve p fuel lo hi = n := by
  induction fuel generalizing lo hi with
  | zero =>
    have hlo := h.lo_le
    have hhi := h.le_hi
    rw [halve]
    omega
  | succ fuel ih =>
    have hlo := h.lo_le
    have hhi := h.le_hi
    by_cases hlt : lo < hi
    · have hmid : lo ≤ (lo + hi) / 2 ∧ (lo + hi) / 2 < hi := by omega
      rw [halve, if_pos hlt]
      by_cases hp : p ((lo + hi) / 2) = true
      · have hn : (lo + hi) / 2 < n := by
          by_contra hge
          rw [h.after _ (not_lt.mp hge) hmid.2] at hp
          cases hp
        rw [if_pos hp]
        exact ih (by omega) ⟨hn, hhi, fun i hi => h.before i (by omega), h.after⟩
      · have hn : n ≤ (lo + hi) / 2 := by
          by_contra hgt
          exact hp (h.before _ hmid.1 (not_le.mp hgt))
        rw [if_neg hp]
        exact ih (by omega) ⟨hlo, hn, h.before, fun i hi hlt => h.after i hi (by omega)⟩
    · rw [halve, if_neg hlt]
      omega

theorem Turns.narrow {lo hi lo' hi' n : Nat} (h : Turns p lo hi n) (hlo : lo ≤ lo') (hhi : hi' ≤ hi)
    (hlo' : lo' ≤ n) (hhi' : n ≤ hi') : Turns p lo' hi' n :=
  ⟨hlo', hhi', fun i hi => h.before i (hlo.trans hi), fun i hi hlt =>
    h.after i hi (hlt.trans_le hhi)⟩

theorem turns_findIdx {α : Type} {l : List α} {q : α → Bool}
    (h : l.Pairwise fun a b => q b = true → q a = true) :
    Turns (fun i => l[i]?.any q) 0 l.length (l.findIdx fun a => !q a) := by
  refine ⟨Nat.zero_le _, List.findIdx_le_length, fun i _ hi => ?_, fun i hi hlt => ?_⟩
  · have hlt : i < l.length := hi.trans_le List.findIdx_le_length
    have := List.not_of_lt_findIdx hi
    simpa [List.getElem?_eq_getElem hlt] using this
  · have hpos : l.findIdx (fun a => !q a) < l.length := hi.trans_lt hlt
    have hat : q l[l.findIdx fun a => !q a] = false := by
      simpa using List.findIdx_getElem (w := hpos)
    simp only [List.getElem?_eq_getElem hlt, Option.any_some]
    rcases Nat.eq_or_lt_of_le hi with heq | hgt
    · simpa only [← heq] using hat
    · rw [← Bool.not_eq_true]
      intro hq
      rw [List.pairwise_iff_getElem.mp h _ i hpos hlt hgt hq] at hat
      cases hat

end Bisect

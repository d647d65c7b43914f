import Mathlib.Data.List.GetD
import Mathlib.Data.Nat.Digits.Defs
set_option autoImplicit false

namespace Counter

/-! Counters as lists of digits, the least one first. A digit grows up to the limit; the
carry after that sets it back to the reset value. -/

variable {limit reset : Nat} {ds : List Nat}

def succ (limit reset : Nat) : List Nat → List Nat
  | [] => [1]
  | d :: ds => if d < limit then (d + 1) :: ds else reset :: succ limit reset ds

/-- The counter after a number of steps -/
def numeral (limit reset : Nat) : Nat → List Nat
  | 0 => []
  | n + 1 => succ limit reset (numeral limit reset n)

/-- How many digits a carry runs through -/
def carries (limit : Nat) : List Nat → Nat
  | [] => 0
  | d :: ds => if d < limit then 0 else carries limit ds + 1

theorem carries_le (limit : Nat) (ds : List Nat) : carries limit ds ≤ ds.length := by
  induction ds with
  | nil => exact le_rfl
  | cons d ds ih =>
    rw [carries]
    split
    · exact Nat.zero_le _
    · simpa using ih

theorem getD_le (h : ∀ d ∈ ds, d ≤ limit) (j : Nat) : ds.getD j 0 ≤ limit := by
  by_cases hj : j < ds.length
  · rw [List.getD_eq_getElem _ _ hj]
    exact h _ (List.getElem_mem hj)
  · rw [List.getD_eq_default _ _ (by omega)]
    exact Nat.zero_le _

theorem carries_eq {b : Nat} (hle : b ≤ ds.length) (hfull : ∀ j < b, limit ≤ ds.getD j 0)
    (hend : b < ds.length → ds.getD b 0 < limit) : carries limit ds = b := by
  induction ds generalizing b with
  | nil =>
    obtain rfl : b = 0 := by simpa using hle
    rfl
  | cons d ds ih =>
    cases b with
    | zero =>
      have := hend (by simp)
      rw [carries, if_pos (by simpa using this)]
    | succ b =>
      have hd : limit ≤ d := by simpa using hfull 0 (Nat.succ_pos b)
      rw [carries, if_neg (by omega), ih (by simpa using hle)
        (fun j hj => by simpa using hfull (j + 1) (by omega)) fun hlt => by
          simpa using hend (by simpa using hlt)]

theorem le_getD_of_lt_carries {j : Nat} (hj : j < carries limit ds) : limit ≤ ds.getD j 0 := by
  induction ds generalizing j with
  | nil => simp [carries] at hj
  | cons d ds ih =>
    rw [carries] at hj
    split at hj
    · omega
    · cases j with
      | zero => simpa using by omega
      | succ j => simpa using ih (by omega)

theorem getD_carries (hlimit : 0 < limit) (ds : List Nat) :
    ds.getD (carries limit ds) 0 < limit := by
  induction ds with
  | nil => exact hlimit
  | cons d ds ih =>
    rw [carries]
    split
    · assumption
    · simpa using ih

theorem length_succ (limit reset : Nat) (ds : List Nat) :
    (succ limit reset ds).length = max ds.length (carries limit ds + 1) := by
  induction ds with
  | nil => rfl
  | cons d ds ih =>
    rw [succ, carries]
    split
    · simp
    · simp only [List.length_cons, ih]
      omega

theorem getD_succ (limit reset : Nat) (ds : List Nat) (j : Nat) :
    (succ limit reset ds).getD j 0 =
      if j < carries limit ds then reset
      else if j = carries limit ds then ds.getD j 0 + 1 else ds.getD j 0 := by
  induction ds generalizing j with
  | nil => cases j <;> simp [succ, carries]
  | cons d ds ih =>
    rw [succ, carries]
    split
    · cases j <;> simp
    · cases j with
      | zero => simp
      | succ j => simpa [Nat.succ_lt_succ_iff] using ih j

theorem eq_succ {as : List Nat} (hlen : as.length = max ds.length (carries limit ds + 1))
    (h : ∀ j, as.getD j 0 = if j < carries limit ds then reset
      else if j = carries limit ds then ds.getD j 0 + 1 else ds.getD j 0) :
    as = succ limit reset ds := by
  rw [← length_succ limit reset] at hlen
  refine List.ext_getElem hlen fun j hj hj' => ?_
  have := (h j).trans (getD_succ limit reset ds j).symm
  rwa [List.getD_eq_getElem _ _ hj, List.getD_eq_getElem _ _ hj'] at this

theorem ofDigits_succ {base : Nat} (hbase : limit + 1 = reset + base) (h : ∀ d ∈ ds, d ≤ limit) :
    Nat.ofDigits base (succ limit reset ds) = Nat.ofDigits base ds + 1 := by
  induction ds with
  | nil => simp [succ]
  | cons d ds ih =>
    rw [succ]
    split
    · simp only [Nat.ofDigits_cons]
      omega
    · have hd : d = limit := le_antisymm (h d List.mem_cons_self) (by omega)
      have hds := ih fun d hd => h d (List.mem_cons_of_mem _ hd)
      rw [Nat.ofDigits_cons, Nat.ofDigits_cons, hds, hd, mul_add]
      omega

theorem le_of_mem_succ (hlimit : 0 < limit) (hreset : reset ≤ limit) (h : ∀ d ∈ ds, d ≤ limit) :
    ∀ d ∈ succ limit reset ds, d ≤ limit := by
  induction ds with
  | nil =>
    intro d hd
    obtain rfl : d = 1 := by simpa [succ] using hd
    exact hlimit
  | cons e ds ih =>
    have hds := ih fun d hd => h d (List.mem_cons_of_mem _ hd)
    intro d hd
    rw [succ] at hd
    split at hd
    · rcases List.mem_cons.mp hd with rfl | hd
      · omega
      · exact h d (List.mem_cons_of_mem _ hd)
    · rcases List.mem_cons.mp hd with rfl | hd
      · exact hreset
      · exact hds d hd

theorem le_of_mem_numeral (hlimit : 0 < limit) (hreset : reset ≤ limit) (n : Nat) :
    ∀ d ∈ numeral limit reset n, d ≤ limit := by
  induction n with
  | zero => simp [numeral]
  | succ n ih => exact le_of_mem_succ hlimit hreset ih

theorem ofDigits_numeral {base : Nat} (hlimit : 0 < limit) (hreset : reset ≤ limit)
    (hbase : limit + 1 = reset + base) (n : Nat) :
    Nat.ofDigits base (numeral limit reset n) = n := by
  induction n with
  | zero => rfl
  | succ n ih => rw [numeral, ofDigits_succ hbase (le_of_mem_numeral hlimit hreset n), ih]

end Counter

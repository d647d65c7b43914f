import DynamicExtension.Library.Rejection
import DynamicExtension.Library.Rounding
set_option autoImplicit false

namespace De
open Rejection Rounding

/-- A `gsl_rng` as the numbers it is going to draw -/
structure Rng where
  draws : Nat → Nat

/-- A `gsl_rng_type`: what `gsl_rng_uniform` makes of a number that was drawn. Its range
includes `0` and excludes `1`. -/
structure RngType where
  fraction : Nat → ℚ
  fraction_mem : ∀ m, 0 ≤ fraction m ∧ fraction m < 1
  exists_zero : ∃ m, fraction m = 0

/-- The generator of the tests, with numbers of 32 bits -/
def RngType.mt19937 : RngType where
  fraction m := ((m % 2 ^ 32 : Nat) : ℚ) / 2 ^ 32
  fraction_mem m := ⟨by positivity, (div_lt_one (by positivity)).mpr
    (mod_cast Nat.mod_lt m (by positivity))⟩
  exists_zero := ⟨0, by simp⟩

namespace Rng

instance : Nonempty Rng := ⟨⟨fun _ => 0⟩⟩

def next (rng : Rng) : Rng := ⟨fun i => rng.draws (i + 1)⟩

/-- `gsl_rng_uniform_int`, which calls the error handler for `n = 0` -/
def uniformInt (rng : Rng) (n : Nat) : Option (Nat × Rng) :=
  if n = 0 then none else some (rng.draws 0 % n, rng.next)

/-- `gsl_rng_uniform` -/
def uniform (gsl : RngType) (rng : Rng) : Option (ℚ × Rng) :=
  some (gsl.fraction (rng.draws 0), rng.next)

/-- The stream that draws `m` first -/
def cons (m : Nat) (rng : Rng) : Rng := ⟨fun i => Nat.casesOn i m rng.draws⟩

end Rng

def drawInt (n : Nat) : Draw Rng Nat := fun rng => rng.uniformInt n

def drawUniform (gsl : RngType) : Draw Rng ℚ := Rng.uniform gsl

theorem only_drawInt (n : Nat) : Only (drawInt n) fun i => i < n := by
  intro rng i rest heq
  have hdraw : rng.uniformInt n = some (i, rest) := heq
  by_cases hn : n = 0
  · rw [Rng.uniformInt, if_pos hn] at hdraw
    cases hdraw
  · rw [Rng.uniformInt, if_neg hn] at hdraw
    obtain ⟨rfl, -⟩ := Prod.mk.inj (Option.some.inj hdraw)
    exact Nat.mod_lt _ (Nat.pos_of_ne_zero hn)

theorem can_drawInt {n i : Nat} (h : i < n) : Can (drawInt n) i := by
  intro rest
  refine ⟨rest.cons i, ?_⟩
  show (rest.cons i).uniformInt n = some (i, rest)
  rw [Rng.uniformInt, if_neg (by omega)]
  exact congrArg (fun m => some (m, rest)) (Nat.mod_eq_of_lt h)

theorem fair_drawInt (n : Nat) : Fair (drawInt n) := (only_drawInt n).mono fun _ => can_drawInt

section Uniform
variable (gsl : RngType)

/-- What `gsl_rng_uniform` may return -/
def RngType.Uniform (u : ℚ) : Prop := ∃ m, gsl.fraction m = u

theorem only_drawUniform : Only (drawUniform gsl) gsl.Uniform := by
  intro rng u rest heq
  obtain ⟨rfl, -⟩ := Prod.mk.inj (Option.some.inj heq)
  exact ⟨_, rfl⟩

variable {gsl}

theorem can_drawUniform {u : ℚ} (h : gsl.Uniform u) : Can (drawUniform gsl) u := by
  obtain ⟨m, rfl⟩ := h
  exact fun rest => ⟨rest.cons m, rfl⟩

theorem fair_drawUniform : Fair (drawUniform gsl) :=
  (only_drawUniform gsl).mono fun _ => can_drawUniform

end Uniform

/-- The `double` of a `size_t` -/
def toDouble (n : Nat) : ℚ := roundBits 53 n

/-- The quotient of two doubles, which is no number if the divisor is zero -/
def quotient (a b : ℚ) : Option ℚ := if b = 0 then none else some (roundRat 53 (a / b))

theorem toDouble_pos_iff {n : Nat} : 0 < toDouble n ↔ 0 < n := by
  rw [toDouble, Nat.cast_pos]
  refine ⟨fun h => Nat.pos_of_ne_zero ?_, roundBits_pos (by decide)⟩
  rintro rfl
  simp at h

/-- What may be drawn by weights: an index of a positive one, if all of them are numbers.
Nothing is known of the others. -/
def Drawable (weights : List (Option ℚ)) (i : Nat) : Prop :=
  ∃ o, weights[i]? = some o ∧ (none ∈ weights ∨ ∃ w, o = some w ∧ 0 < w)

theorem drawable_map {weights : List ℚ} {i : Nat} :
    Drawable (weights.map some) i ↔ ∃ w, weights[i]? = some w ∧ 0 < w := by
  simp only [Drawable, List.getElem?_map, Option.map_eq_some_iff, List.mem_map, reduceCtorEq,
    and_false, exists_false, false_or]
  constructor
  · rintro ⟨-, ⟨w, hw, rfl⟩, v, heq, hpos⟩
    obtain rfl := Option.some.inj heq
    exact ⟨w, hw, hpos⟩
  · rintro ⟨w, hw, hpos⟩
    exact ⟨some w, ⟨w, hw, rfl⟩, w, rfl, hpos⟩

theorem exists_map_some {weights : List (Option ℚ)} (h : none ∉ weights) :
    ∃ ws : List ℚ, weights = ws.map some := by
  refine ⟨weights.map fun o => o.getD 0, ?_⟩
  rw [List.map_map]
  refine ((List.map_congr_left fun o ho => ?_).trans (List.map_id _)).symm
  cases o with
  | none => exact absurd ho h
  | some w => rfl

/-- `psudb::Alias`: the index of a weight, by chance. Of weights that are numbers an index
is returned only if its weight is positive, and then it may be. -/
structure AliasLib where
  get : List (Option ℚ) → Draw Rng Nat
  get_fair : ∀ weights, Fair (get weights)
  get_lt : ∀ weights i, Can (get weights) i → i < weights.length
  can_get_iff : ∀ (weights : List ℚ) i,
    Can (get (weights.map some)) i ↔ ∃ w, weights[i]? = some w ∧ 0 < w

namespace AliasLib

theorem can_get_iff_drawable (lib : AliasLib) {weights : List (Option ℚ)} (h : none ∉ weights)
    (i : Nat) : Can (lib.get weights) i ↔ Drawable weights i := by
  obtain ⟨ws, rfl⟩ := exists_map_some h
  rw [lib.can_get_iff, drawable_map]

theorem drawable_of_can (lib : AliasLib) {weights : List (Option ℚ)} {i : Nat}
    (h : Can (lib.get weights) i) : Drawable weights i := by
  by_cases hnone : none ∈ weights
  · exact ⟨_, List.getElem?_eq_getElem (lib.get_lt weights i h), .inl hnone⟩
  · exact (lib.can_get_iff_drawable hnone i).mp h

/-- The indexes that may be drawn -/
def drawable (weights : List (Option ℚ)) : List Nat :=
  (List.range weights.length).filter fun i =>
    none ∈ weights ∨ (weights.getD i none).any (0 < ·)

theorem mem_drawable {weights : List (Option ℚ)} {i : Nat} :
    i ∈ drawable weights ↔ Drawable weights i := by
  simp only [drawable, List.mem_filter, List.mem_range, decide_eq_true_eq, Option.any_eq_true]
  constructor
  · rintro ⟨hlt, h⟩
    refine ⟨weights[i], List.getElem?_eq_getElem hlt, h.imp_right ?_⟩
    rintro ⟨w, hw, hpos⟩
    rw [List.getD_eq_getElem _ _ hlt] at hw
    exact ⟨w, hw, hpos⟩
  · rintro ⟨o, ho, h⟩
    obtain ⟨hlt, rfl⟩ := List.getElem?_eq_some_iff.mp ho
    rw [List.getD_eq_getElem _ _ hlt]
    exact ⟨hlt, h⟩

def drawOne (weights : List (Option ℚ)) : Draw Rng Nat := do
  let i ← drawInt (drawable weights).length
  return (drawable weights).getD i 0

theorem only_drawOne (weights : List (Option ℚ)) :
    Only (drawOne weights) fun i => i ∈ drawable weights :=
  (only_drawInt _).bind fun _ hi => only_pure (by
    rw [List.getD_eq_getElem _ _ hi]
    exact List.getElem_mem hi)

theorem can_drawOne {weights : List (Option ℚ)} {i : Nat} (h : i ∈ drawable weights) :
    Can (drawOne weights) i := by
  obtain ⟨k, hk, rfl⟩ := List.getElem_of_mem h
  have hget : (drawable weights)[k] = (drawable weights).getD k 0 :=
    (List.getD_eq_getElem _ _ hk).symm
  rw [hget]
  exact (can_drawInt hk).bind (can_pure _)

theorem can_drawOne_iff {weights : List (Option ℚ)} {i : Nat} :
    Can (drawOne weights) i ↔ Drawable weights i :=
  ⟨fun h => mem_drawable.mp ((only_drawOne weights).of_can h),
    fun h => can_drawOne (mem_drawable.mpr h)⟩

/-- Every index that may be drawn is as likely as the others. -/
def even : AliasLib where
  get := drawOne
  get_fair weights := (only_drawOne weights).mono fun _ => can_drawOne
  get_lt weights i h := by
    obtain ⟨o, ho, -⟩ := can_drawOne_iff.mp h
    exact (List.getElem?_eq_some_iff.mp ho).1
  can_get_iff _ _ := can_drawOne_iff.trans drawable_map

end AliasLib

end De

import DynamicExtension.VPTreeSearch
set_option autoImplicit false

namespace De

/-- `EuclidPoint<uint64_t, D>` -/
structure EuclidPoint (D : Nat) where
  data : Fin D → UInt64

namespace EuclidPoint
variable {D : Nat}

/-- The loop of `calc_distance`: each product is taken in a `uint64_t`, the sum is not. -/
def squaredSum (p other : EuclidPoint D) : Nat :=
  (List.finRange D).foldl
    (fun dist i => dist + ((p.data i - other.data i) * (p.data i - other.data i)).toNat) 0

/-- `calc_distance` with an exact square root -/
noncomputable def calcDistance (p other : EuclidPoint D) : ℝ := √(squaredSum p other)

/-- The difference of two coordinates as numbers -/
def diff (p other : EuclidPoint D) (i : Fin D) : ℤ := (p.data i).toNat - (other.data i).toNat

/-- The sum under the root is that of the squared differences. -/
def Exact (p other : EuclidPoint D) : Prop := (squaredSum p other : ℤ) = ∑ i, diff p other i ^ 2

/-- No coordinates are `2 ^ 32` or more apart. -/
def Near (p other : EuclidPoint D) : Prop := ∀ i, |diff p other i| < 2 ^ 32

/-- A difference and a square taken in a `uint64_t` -/
theorem toNat_sub_mul_sub (x y : UInt64) :
    (((x - y) * (x - y)).toNat : ℤ) = ((x.toNat : ℤ) - y.toNat) ^ 2 % 2 ^ 64 := by
  have hsub : ((x - y).toNat : ℤ) ≡ x.toNat - y.toNat [ZMOD 2 ^ 64] := by
    have hy := y.toNat_lt
    rw [UInt64.toNat_sub, Int.natCast_mod, Nat.cast_add, Nat.cast_sub (by omega)]
    refine (Int.mod_modEq _ _).trans ?_
    rw [Int.modEq_iff_dvd]
    exact ⟨-1, by push_cast; ring⟩
  rw [UInt64.toNat_mul, Int.natCast_mod, Nat.cast_mul, sq]
  exact hsub.mul hsub

theorem squaredSum_eq (p other : EuclidPoint D) :
    (squaredSum p other : ℤ) = ∑ i, diff p other i ^ 2 % 2 ^ 64 := by
  rw [squaredSum, ← List.foldl_map (f := fun i =>
    ((p.data i - other.data i) * (p.data i - other.data i)).toNat) (g := (· + ·)),
    ← List.sum_eq_foldl, ← Fin.sum_univ_def, Nat.cast_sum]
  exact Finset.sum_congr rfl fun i _ => toNat_sub_mul_sub _ _

theorem sq_mod_eq_iff (z : ℤ) : z ^ 2 % 2 ^ 64 = z ^ 2 ↔ |z| < 2 ^ 32 := by
  have hroot : |z| < 2 ^ 32 ↔ z ^ 2 < 2 ^ 64 := by
    rw [← sq_abs z, show (2 : ℤ) ^ 64 = (2 ^ 32) ^ 2 by norm_num,
      pow_lt_pow_iff_left₀ (abs_nonneg z) (by norm_num) two_ne_zero]
  rw [hroot]
  exact ⟨fun h => h ▸ Int.emod_lt_of_pos _ (by norm_num), Int.emod_eq_of_lt (sq_nonneg z)⟩

theorem exact_iff (p other : EuclidPoint D) : Exact p other ↔ Near p other := by
  have hle : ∀ i ∈ Finset.univ, diff p other i ^ 2 % 2 ^ 64 ≤ diff p other i ^ 2 :=
    fun i _ => by
      have hsq := sq_nonneg (diff p other i)
      omega
  rw [Exact, squaredSum_eq, Finset.sum_eq_sum_iff_of_le hle]
  exact ⟨fun h i => (sq_mod_eq_iff _).mp (h i (Finset.mem_univ i)),
    fun h i _ => (sq_mod_eq_iff _).mpr (h i)⟩

/-- The point of Euclidean space with these coordinates -/
noncomputable def toSpace (p : EuclidPoint D) : EuclideanSpace ℝ (Fin D) :=
  WithLp.toLp 2 fun i => ((p.data i).toNat : ℝ)

theorem toSpace_injective : Function.Injective (toSpace (D := D)) := by
  intro p other h
  obtain ⟨data⟩ := p
  obtain ⟨data'⟩ := other
  congr 1
  funext i
  have hcoord : ((data i).toNat : ℝ) = (data' i).toNat := congrFun (congrArg WithLp.ofLp h) i
  exact UInt64.toNat_inj.mp (Nat.cast_injective hcoord)

theorem calcDistance_eq {p other : EuclidPoint D} (h : Exact p other) :
    calcDistance p other = dist (toSpace p) (toSpace other) := by
  have hcast : ((squaredSum p other : ℤ) : ℝ) = ∑ i, (diff p other i : ℝ) ^ 2 := by
    rw [h]
    push_cast
    rfl
  rw [calcDistance, EuclideanSpace.dist_eq, ← Int.cast_natCast, hcast]
  congr 1
  refine Finset.sum_congr rfl fun i _ => ?_
  rw [Real.dist_eq, sq_abs, diff]
  push_cast
  rfl

/-- The distance is that of Euclidean space, on all three sides of a triangle, if and only if
no two of its points are `2 ^ 32` or more apart in a coordinate. -/
theorem metric_iff (a b c : EuclidPoint D) :
    ((Exact a b ∧ Exact b c ∧ Exact a c) ∧ (a ≠ b → 0 < calcDistance a b) ∧
      calcDistance a c ≤ calcDistance a b + calcDistance b c) ↔ Near a b ∧ Near b c ∧ Near a c := by
  rw [← exact_iff, ← exact_iff, ← exact_iff]
  refine ⟨fun h => h.1, fun h => ⟨h, fun hne => ?_, ?_⟩⟩
  · rw [calcDistance_eq h.1]
    exact dist_pos.mpr fun heq => hne (toSpace_injective heq)
  · rw [calcDistance_eq h.1, calcDistance_eq h.2.1, calcDistance_eq h.2.2]
    exact dist_triangle _ _ _

def onAxis (x : UInt64) : EuclidPoint 2 := ⟨![x, 0]⟩

/-- Two points `2 ^ 32` apart are at distance zero, and the way to a third one is shorter
through the other. -/
theorem not_metric : ∃ a b c : EuclidPoint 2, a ≠ b ∧ ¬ Exact a b ∧ calcDistance a b = 0 ∧
    calcDistance a b + calcDistance b c < calcDistance a c := by
  refine ⟨onAxis 0, onAxis (2 ^ 32), onAxis (2 ^ 32 - 1), fun h => ?_, ?_, ?_, ?_⟩
  · have hx : (0 : UInt64) = 2 ^ 32 := congrArg (fun p => p.data 0) h
    exact absurd hx (by decide)
  · rw [Exact]
    decide +kernel
  · rw [calcDistance, show squaredSum (onAxis 0) (onAxis (2 ^ 32)) = 0 by decide +kernel]
    simp
  · rw [calcDistance, calcDistance, calcDistance,
      show squaredSum (onAxis 0) (onAxis (2 ^ 32)) = 0 by decide +kernel,
      show squaredSum (onAxis (2 ^ 32)) (onAxis (2 ^ 32 - 1)) = 1 by decide +kernel,
      show squaredSum (onAxis 0) (onAxis (2 ^ 32 - 1)) = (2 ^ 32 - 1) ^ 2 by decide +kernel]
    rw [Nat.cast_zero, Real.sqrt_zero, zero_add, Nat.cast_one, Real.sqrt_one, Nat.cast_pow,
      Real.sqrt_sq (Nat.cast_nonneg _)]
    norm_num

theorem isMetric_small : IsMetric fun p q :
    { p : EuclidPoint D // ∀ i, (p.data i).toNat < 2 ^ 32 } =>
    calcDistance p.1 q.1 := by
  have hexact : ∀ p q : { p : EuclidPoint D // ∀ i, (p.data i).toNat < 2 ^ 32 }, Exact p.1 q.1 := by
    rintro ⟨p, hp⟩ ⟨q, hq⟩
    refine (exact_iff p q).mpr fun i => ?_
    have hpi := hp i
    have hqi := hq i
    rw [diff, abs_lt]
    omega
  refine ⟨fun p q => ?_, fun p q => ?_, fun p q r => ?_⟩
  · rw [calcDistance_eq (hexact p q), dist_eq_zero, toSpace_injective.eq_iff, Subtype.ext_iff]
  · rw [calcDistance_eq (hexact p q), calcDistance_eq (hexact q p), dist_comm]
  · rw [calcDistance_eq (hexact p r), calcDistance_eq (hexact p q), calcDistance_eq (hexact q r)]
    exact dist_triangle _ _ _

end EuclidPoint
end De

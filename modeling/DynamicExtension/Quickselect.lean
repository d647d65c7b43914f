import DynamicExtension.VPTree
set_option autoImplicit false

namespace De
open Shuffle

namespace VPTree
variable {D : Type} [LinearOrder D]

section Agreement

/-- The same entries from `start` to `stop` -/
def Agree (start stop : Nat) (a b : Nat → VpPtr D) : Prop :=
  ∀ i, start ≤ i → i ≤ stop → a i = b i

omit [LinearOrder D] in
theorem Agree.mono {start stop start' stop' : Nat} {a b : Nat → VpPtr D} (h : Agree start stop a b)
    (hlo : start ≤ start') (hhi : stop' ≤ stop) : Agree start' stop' a b :=
  fun i hi hi' => h i (hlo.trans hi) (hi'.trans hhi)

omit [LinearOrder D] in
theorem Agree.swap {start stop i j : Nat} {a b : Nat → VpPtr D} (h : Agree start stop a b)
    (hi : start ≤ i ∧ i ≤ stop) (hj : start ≤ j ∧ j ≤ stop) :
    Agree start stop (Shuffle.swap a i j) (Shuffle.swap b i j) := by
  intro x hx hx'
  rw [swap_eq, swap_eq, Function.comp_apply, Function.comp_apply]
  have hin : start ≤ Equiv.swap i j x ∧ Equiv.swap i j x ≤ stop := by
    rw [Equiv.swap_apply_def]
    split_ifs
    · exact hj
    · exact hi
    · exact ⟨hx, hx'⟩
  exact h _ hin.1 hin.2

theorem partitionLoop_agree {start stop : Nat} (left i j : Nat) {a b : Nat → VpPtr D}
    (h : Agree start stop a b) (hi : i + left = stop) (hj : start ≤ j ∧ j ≤ i) :
    (partitionLoop stop left i j a).1 = (partitionLoop stop left i j b).1 ∧
      Agree start stop (partitionLoop stop left i j a).2 (partitionLoop stop left i j b).2 := by
  induction left generalizing i j a b with
  | zero => exact ⟨rfl, h⟩
  | succ left ih =>
    rw [partitionLoop, partitionLoop, h i (by omega) (by omega), h stop (by omega) le_rfl]
    split_ifs
    · exact ih (i + 1) (j + 1) (h.swap (by omega) (by omega)) (by omega) (by omega)
    · exact ih (i + 1) j h (by omega) (by omega)

theorem partition_agree {start stop : Nat} (hlt : start < stop) {a b : Nat → VpPtr D}
    (h : Agree start stop a b) (rng : Rng) {j : Nat} {a' : Nat → VpPtr D} {rng' : Rng}
    (heq : partition start stop a rng = some (j, a', rng')) :
    ∃ b', partition start stop b rng = some (j, b', rng') ∧ Agree start stop a' b' := by
  obtain ⟨drawn, rest, hdraw, hdrawn⟩ := exists_uniformInt rng (show 0 < stop - start by omega)
  have hswap : Agree start stop (Shuffle.swap a (start + drawn) stop)
      (Shuffle.swap b (start + drawn) stop) := h.swap (by omega) (by omega)
  obtain ⟨hpos, hout⟩ := partitionLoop_agree (stop - start) start start hswap
    (by omega) ⟨le_rfl, le_rfl⟩
  have hspec := (partitionLoop_spec start stop (stop - start) start start
    (Shuffle.swap a (start + drawn) stop) (by omega) ⟨le_rfl, le_rfl⟩ (fun x hx hx' => by omega)
    (fun x hx hx' => by omega)).1
  simp only [partition, hdraw, Option.bind_eq_bind, Option.bind_some, Option.pure_def,
    Option.some.injEq, Prod.mk.injEq] at heq ⊢
  obtain ⟨rfl, rfl, rfl⟩ := heq
  rw [← hpos]
  exact ⟨_, ⟨rfl, rfl, rfl⟩, hout.swap ⟨hspec.start_le, hspec.le_stop⟩ (by omega)⟩

omit [LinearOrder D] in
theorem Agree.widen {start stop start' stop' : Nat} {a b a' b' : Nat → VpPtr D}
    (h : Agree start stop a b) (h' : Agree start' stop' a' b') (ha : Within start' stop' a a')
    (hb : Within start' stop' b b') : Agree start stop a' b' := by
  intro i hi hi'
  by_cases hin : start' ≤ i ∧ i ≤ stop'
  · exact h' i hin.1 hin.2
  · rw [ha.eq_outside hin, hb.eq_outside hin]
    exact h i hi hi'

/-- `quickselect` reads the entries from `start` to `stop` only. -/
theorem quickselect_agree (fuel : Nat) {start stop k : Nat} (hfuel : stop - start < fuel)
    (hk : start ≤ k ∧ k ≤ stop) {a b : Nat → VpPtr D} (h : Agree start stop a b) (rng : Rng) :
    ∃ a' b' rng', quickselect fuel start stop k a rng = some (a', rng') ∧
      quickselect fuel start stop k b rng = some (b', rng') ∧ Agree start stop a' b' := by
  induction fuel generalizing start stop a b rng with
  | zero => exact absurd hfuel (Nat.not_lt_zero _)
  | succ fuel ih =>
    rw [quickselect, quickselect]
    by_cases hsame : start = stop
    · rw [if_pos hsame, if_pos hsame]
      exact ⟨a, b, rng, rfl, rfl, h⟩
    rw [if_neg hsame, if_neg hsame]
    obtain ⟨j, a₁, rng₁, hpart, hle, hle', -, -⟩ :=
      partition_spec (show start < stop by omega) a rng
    obtain ⟨b₁, hpart', hagree⟩ := partition_agree (by omega) h rng hpart
    simp only [hpart, hpart', Option.bind_eq_bind, Option.bind_some]
    -- a recursive call leaves the entries around its range alone
    have hcall : ∀ start' stop', start ≤ start' → stop' ≤ stop → stop' - start' < fuel →
        start' ≤ k ∧ k ≤ stop' → ∃ a' b' rng',
          quickselect fuel start' stop' k a₁ rng₁ = some (a', rng') ∧
          quickselect fuel start' stop' k b₁ rng₁ = some (b', rng') ∧ Agree start stop a' b' := by
      intro start' stop' hlo hhi hless hin
      obtain ⟨a', b', rng', ha, hb, hsub⟩ := ih hless hin (hagree.mono hlo hhi) rng₁
      obtain ⟨a'', _, ha', hwa, -⟩ := quickselect_spec fuel a₁ rng₁ hless hin
      obtain ⟨b'', _, hb', hwb, -⟩ := quickselect_spec fuel b₁ rng₁ hless hin
      cases ha.symm.trans ha'
      cases hb.symm.trans hb'
      exact ⟨a', b', rng', ha, hb, hagree.widen hsub hwa hwb⟩
    rcases lt_trichotomy k j with hlt | rfl | hgt
    · rw [if_pos hlt, if_pos hlt]
      exact hcall start (j - 1) le_rfl (by omega) (by omega) (by omega)
    · rw [if_neg (lt_irrefl k), if_neg (lt_irrefl k), if_neg (lt_irrefl k), if_neg (lt_irrefl k)]
      exact ⟨a₁, b₁, rng₁, rfl, rfl, hagree⟩
    · rw [if_neg (by omega), if_pos hgt, if_neg (by omega), if_pos hgt]
      exact hcall (j + 1) stop (by omega) le_rfl (by omega) (by omega)

end Agreement

theorem quickselect_more {fuel start stop k : Nat} {ptrs ptrs' : Nat → VpPtr D} {rng rng' : Rng}
    (heq : quickselect fuel start stop k ptrs rng = some (ptrs', rng')) :
    quickselect (fuel + 1) start stop k ptrs rng = some (ptrs', rng') := by
  induction fuel generalizing start stop ptrs rng with
  | zero => cases heq
  | succ fuel ih =>
    rw [quickselect] at heq ⊢
    by_cases hsame : start = stop
    · rwa [if_pos hsame] at heq ⊢
    rw [if_neg hsame] at heq ⊢
    cases hpart : partition start stop ptrs rng with
    | none => simp [hpart] at heq
    | some out =>
      obtain ⟨j, ptrs₁, rng₁⟩ := out
      simp only [hpart, Option.bind_eq_bind, Option.bind_some] at heq ⊢
      split_ifs at heq ⊢
      · exact ih heq
      · exact ih heq
      · exact heq

theorem quickselect_enough {fuel fuel' start stop k : Nat} {ptrs ptrs' : Nat → VpPtr D}
    {rng rng' : Rng} (heq : quickselect fuel start stop k ptrs rng = some (ptrs', rng'))
    (hle : fuel ≤ fuel') : quickselect fuel' start stop k ptrs rng = some (ptrs', rng') := by
  induction fuel', hle using Nat.le_induction with
  | base => exact heq
  | succ fuel' _ ih => exact quickselect_more ih

section Calls

/-- The arguments of a call of `quickselect` for a fixed `k` -/
structure Call (D : Type) where
  start : Nat
  stop : Nat
  ptrs : Nat → VpPtr D
  rng : Rng

/-- `quickselect` calls itself: what `partition` returned decides on which side. -/
inductive Call.Next (k : Nat) (call : Call D) : Call D → Prop where
  | left (pivot : Nat) (ptrs : Nat → VpPtr D) (rng : Rng) (hne : call.start ≠ call.stop)
      (hpart : partition call.start call.stop call.ptrs call.rng = some (pivot, ptrs, rng))
      (hlt : k < pivot) : Next k call ⟨call.start, pivot - 1, ptrs, rng⟩
  | right (pivot : Nat) (ptrs : Nat → VpPtr D) (rng : Rng) (hne : call.start ≠ call.stop)
      (hpart : partition call.start call.stop call.ptrs call.rng = some (pivot, ptrs, rng))
      (hgt : k > pivot) : Next k call ⟨pivot + 1, call.stop, ptrs, rng⟩

theorem Call.Next.quickselect_eq {k : Nat} {call next : Call D} (h : Call.Next k call next)
    (fuel : Nat) : quickselect (fuel + 1) call.start call.stop k call.ptrs call.rng =
      quickselect fuel next.start next.stop k next.ptrs next.rng := by
  rw [quickselect]
  cases h with
  | left pivot ptrs rng hne hpart hlt => rw [if_neg hne, hpart]; exact if_pos hlt
  | right pivot ptrs rng hne hpart hgt =>
    rw [if_neg hne, hpart]
    exact (if_neg (by omega)).trans (if_pos hgt)

/-- A call of `quickselect` inside the range of the first one -/
structure Call.Inside (start stop k : Nat) (ptrs : Nat → VpPtr D) (call : Call D) : Prop where
  start_le : start ≤ call.start
  le_stop : call.stop ≤ stop
  has : call.start ≤ k ∧ k ≤ call.stop
  within : Within start stop ptrs call.ptrs

theorem Call.Inside.next {start stop k : Nat} {ptrs : Nat → VpPtr D} {call next : Call D}
    (h : call.Inside start stop k ptrs) (hnext : Call.Next k call next) :
    next.Inside start stop k ptrs := by
  obtain ⟨hlo, hhi, hk, hw⟩ := h
  cases hnext with
  | left pivot ptrs' rng' hne hpart hlt =>
    obtain ⟨j, ptrs₁, rng₁, heq, hle, hle', hw', -⟩ :=
      partition_spec (show call.start < call.stop by omega) call.ptrs call.rng
    cases hpart.symm.trans heq
    exact ⟨hlo, (show pivot - 1 ≤ stop by omega), ⟨hk.1, (show k ≤ pivot - 1 by omega)⟩,
      hw.trans (hw'.mono hlo hhi)⟩
  | right pivot ptrs' rng' hne hpart hgt =>
    obtain ⟨j, ptrs₁, rng₁, heq, hle, hle', hw', -⟩ :=
      partition_spec (show call.start < call.stop by omega) call.ptrs call.rng
    cases hpart.symm.trans heq
    exact ⟨(show start ≤ pivot + 1 by omega), hhi, ⟨(show pivot + 1 ≤ k by omega), hk.2⟩,
      hw.trans (hw'.mono hlo hhi)⟩

theorem Call.inside {start stop k : Nat} (hk : start ≤ k ∧ k ≤ stop) (ptrs : Nat → VpPtr D)
    (rng : Rng) {call : Call D}
    (h : Relation.ReflTransGen (Call.Next k) ⟨start, stop, ptrs, rng⟩ call) :
    call.Inside start stop k ptrs := by
  induction h with
  | refl => exact ⟨le_rfl, le_rfl, hk, Within.refl ..⟩
  | tail _ hnext ih => exact ih.next hnext

/-- The pivot is drawn from a range that is not empty, and `partition` keeps to the entries
of the call. -/
structure Call.Partitions (call : Call D) : Prop where
  drawn : 0 < call.stop - call.start
  inside : ∃ pivot ptrs rng,
    partition call.start call.stop call.ptrs call.rng = some (pivot, ptrs, rng) ∧
    call.start ≤ pivot ∧ pivot ≤ call.stop ∧ Within call.start call.stop call.ptrs ptrs

theorem Call.Inside.partitions {start stop k : Nat} {ptrs : Nat → VpPtr D} {call : Call D}
    (h : call.Inside start stop k ptrs) (hne : call.start ≠ call.stop) : call.Partitions := by
  have hlt : call.start < call.stop := by
    have hk := h.has
    omega
  obtain ⟨j, ptrs', rng', heq, hle, hle', hw, -⟩ := partition_spec hlt call.ptrs call.rng
  exact ⟨by omega, j, ptrs', rng', heq, hle, hle', hw⟩

end Calls

/-- `quickselect` returns after at most one call for each entry, puts the entry of rank `k`
in its place, and neither reads nor writes an entry out of `start`, ..., `stop`. -/
theorem quickselect_selects (ptrs : Nat → VpPtr D) (rng : Rng) {start stop k : Nat}
    (hk : start ≤ k ∧ k ≤ stop) :
    (∃ ptrs' rng', (∀ fuel, stop - start < fuel →
        quickselect fuel start stop k ptrs rng = some (ptrs', rng')) ∧
      Within start stop ptrs ptrs' ∧ Selected start stop k ptrs') ∧
    (∀ call, Relation.ReflTransGen (Call.Next k) ⟨start, stop, ptrs, rng⟩ call →
      call.Inside start stop k ptrs ∧ (call.start ≠ call.stop → call.Partitions)) ∧
    ∀ others, Agree start stop ptrs others → ∀ fuel, stop - start < fuel →
      ∃ ptrs' others' rng', quickselect fuel start stop k ptrs rng = some (ptrs', rng') ∧
        quickselect fuel start stop k others rng = some (others', rng') ∧
        Agree start stop ptrs' others' := by
  refine ⟨?_, fun call hcall => ?_, fun others hagree fuel hfuel => ?_⟩
  · obtain ⟨ptrs', rng', heq, hw, hsel⟩ :=
      quickselect_spec (stop - start + 1) ptrs rng (Nat.lt_succ_self _) hk
    exact ⟨ptrs', rng', fun fuel hfuel => quickselect_enough heq hfuel, hw, hsel⟩
  · have hin := Call.inside hk ptrs rng hcall
    exact ⟨hin, hin.partitions⟩
  · exact quickselect_agree fuel hfuel hk hagree rng

theorem quickselect_selects_sample : ∃ ptrs' rng',
    quickselect 4 1 4 2 (fun i => ⟨i, [9, 7, 3, 7, 1].getD i 0⟩) ⟨fun i => 2 * i + 1⟩ =
      some (ptrs', rng') ∧ Selected 1 4 2 ptrs' ∧ (ptrs' 0).dist = 9 := by
  obtain ⟨ptrs', rng', hrun, hw, hsel⟩ := (quickselect_selects
    (fun i => (⟨i, [9, 7, 3, 7, 1].getD i 0⟩ : VpPtr Nat)) ⟨fun i => 2 * i + 1⟩
    (show 1 ≤ 2 ∧ 2 ≤ 4 by decide)).1
  exact ⟨ptrs', rng', hrun 4 (by decide), hsel, by rw [hw.eq_outside (by decide)]; rfl⟩

end VPTree
end De

import DynamicExtension.RangeQuery
import DynamicExtension.Library.TiedQueue
set_option autoImplicit false

namespace De
open KWay PQ

namespace RangeQuery
variable {R : Type} [LinearOrder R]

section Fronts
variable {ls : List (List (Wrapped R))} {now next : Node (Wrapped R)}

omit [LinearOrder R] in
/-- The record is at the front of the local result that it is from. -/
def Front (ls : List (List (Wrapped R))) (n : Node (Wrapped R)) : Prop :=
  ∃ l, ls[n.source]? = some (n.item :: l)

/-- A least front -/
structure Least (ls : List (List (Wrapped R))) (now : Node (Wrapped R)) : Prop where
  front : Front ls now
  le : ∀ n, Front ls n → now.item.order ≤ n.item.order

/-- A least one of the other fronts -/
structure Next (ls : List (List (Wrapped R))) (now next : Node (Wrapped R)) : Prop where
  front : Front ls next
  other : next.source ≠ now.source
  le : ∀ n, Front ls n → n.source ≠ now.source → next.item.order ≤ n.item.order

/-- `next` is the tombstone of the live copy `now`. -/
def Erases (next now : Wrapped R) : Prop :=
  now.isTombstone = false ∧ now.record = next.record ∧ next.isTombstone = true

omit [LinearOrder R] in
def dropFront (ls : List (List (Wrapped R))) (n : Node (Wrapped R)) : List (List (Wrapped R)) :=
  ls.modify n.source List.tail

/-- The lists can be read from their fronts without a tombstone ever being a least one, if a
live copy is read together with its tombstone where that comes next, and every other record
by itself. Where there are several least fronts, this is so whichever of them is read. -/
inductive Settles : List (List (Wrapped R)) → Prop
  | intro {ls : List (List (Wrapped R))}
      (live : ∀ now, Least ls now → now.item.isTombstone = false)
      (pair : ∀ now next, Least ls now → Next ls now next → Erases next.item now.item →
        Settles (dropFront (dropFront ls now) next))
      (single : ∀ now, Least ls now → (∀ next, Next ls now next → ¬ Erases next.item now.item) →
        Settles (dropFront ls now)) : Settles ls

theorem settles_iff : Settles ls ↔
    (∀ now, Least ls now → now.item.isTombstone = false) ∧
    (∀ now next, Least ls now → Next ls now next → Erases next.item now.item →
      Settles (dropFront (dropFront ls now) next)) ∧
    ∀ now, Least ls now → (∀ next, Next ls now next → ¬ Erases next.item now.item) →
      Settles (dropFront ls now) :=
  ⟨fun | .intro live pair single => ⟨live, pair, single⟩,
    fun ⟨live, pair, single⟩ => .intro live pair single⟩

theorem Next.item_eq {next' : Node (Wrapped R)} (h : Next ls now next) (h' : Next ls now next') :
    next.item = next'.item :=
  Wrapped.eq_of_order_eq
    (le_antisymm (h.le next' h'.front h'.other) (h'.le next h.front h.other))

omit [LinearOrder R] in
theorem Front.dropFront_of_ne (h : Front ls next) (hne : next.source ≠ now.source) :
    Front (dropFront ls now) next := by
  obtain ⟨l, hl⟩ := h
  exact ⟨l, by rw [dropFront, List.getElem?_modify_ne _ _ hne.symm, hl]⟩

omit [LinearOrder R] in
theorem Front.sum_lt (h : Front ls now) :
    ((dropFront ls now).map List.length).sum < (ls.map List.length).sum := by
  obtain ⟨l, hl⟩ := h
  rw [dropFront]
  generalize now.source = i at hl
  induction ls generalizing i with
  | nil => simp at hl
  | cons a ls ih =>
    cases i with
    | zero =>
      obtain rfl : a = now.item :: l := by simpa using hl
      simp
    | succ i =>
      have hlt := ih i (by simpa using hl)
      simpa using hlt

theorem settles_of_no_front (h : ∀ n, ¬ Front ls n) : Settles ls :=
  .intro (fun now hnow => absurd hnow.front (h now)) (fun now _ hnow => absurd hnow.front (h now))
    fun now hnow => absurd hnow.front (h now)

omit [LinearOrder R] in
def fronts (ls : List (List (Wrapped R))) : List (Node (Wrapped R)) :=
  (List.range ls.length).filterMap (Combine.front ls)

omit [LinearOrder R] in
theorem mem_fronts {n : Node (Wrapped R)} : n ∈ fronts ls ↔ Front ls n := by
  rw [fronts, List.mem_filterMap]
  constructor
  · rintro ⟨i, -, hi⟩
    obtain ⟨w, hw, rfl⟩ := Option.map_eq_some_iff.mp hi
    obtain ⟨l, hl, hw⟩ := Option.bind_eq_some_iff.mp hw
    exact ⟨l.tail, by rw [hl, List.eq_cons_of_mem_head? hw]; rfl⟩
  · rintro ⟨l, hl⟩
    exact ⟨n.source, List.mem_range.mpr (List.getElem?_eq_some_iff.mp hl).1,
      by simp [Combine.front, hl]⟩

theorem exists_least {n : Node (Wrapped R)} (h : Front ls n) : ∃ now, Least ls now := by
  obtain ⟨now, hnow, hle⟩ := exists_leastOf (fun n : Node (Wrapped R) => n.item.order)
    (s := (fronts ls : Multiset (Node (Wrapped R))))
    (fun hzero => absurd (hzero ▸ Multiset.mem_coe.mpr (mem_fronts.mpr h)) (Multiset.notMem_zero _))
  exact ⟨now, mem_fronts.mp (Multiset.mem_coe.mp hnow),
    fun n hn => hle n (Multiset.mem_coe.mpr (mem_fronts.mpr hn))⟩

end Fronts

section Decide
variable {ls : List (List (Wrapped R))} {now next : Node (Wrapped R)}

instance : Decidable (Least ls now) :=
  decidable_of_iff (now ∈ fronts ls ∧ ∀ n ∈ fronts ls, now.item.order ≤ n.item.order) <| by
    simp only [mem_fronts]
    exact ⟨fun h => ⟨h.1, h.2⟩, fun h => ⟨h.front, h.le⟩⟩

instance : Decidable (Next ls now next) :=
  decidable_of_iff (next ∈ fronts ls ∧ next.source ≠ now.source ∧
    ∀ n ∈ fronts ls, n.source ≠ now.source → next.item.order ≤ n.item.order) <| by
    simp only [mem_fronts]
    exact ⟨fun h => ⟨h.1, h.2.1, h.2.2⟩, fun h => ⟨h.front, h.other, h.le⟩⟩

instance (next now : Wrapped R) : Decidable (Erases next now) :=
  inferInstanceAs (Decidable (_ ∧ _))

/-- `Settles` as far as the fuel reads -/
def settlesWithin : Nat → List (List (Wrapped R)) → Bool
  | 0, ls => fronts ls = []
  | fuel + 1, ls => ∀ now ∈ fronts ls, Least ls now → now.item.isTombstone = false ∧
      (∀ next ∈ fronts ls, Next ls now next → Erases next.item now.item →
        settlesWithin fuel (dropFront (dropFront ls now) next)) ∧
      ((∀ next ∈ fronts ls, Next ls now next → ¬ Erases next.item now.item) →
        settlesWithin fuel (dropFront ls now))

theorem settlesWithin_iff (fuel : Nat) (ls : List (List (Wrapped R)))
    (h : (ls.map List.length).sum ≤ fuel) : settlesWithin fuel ls ↔ Settles ls := by
  induction fuel generalizing ls with
  | zero =>
    have hnone : ∀ n, ¬ Front ls n := fun n hn => absurd hn.sum_lt (by omega)
    have hnil : fronts ls = [] :=
      List.eq_nil_iff_forall_not_mem.mpr fun n hn => hnone n (mem_fronts.mp hn)
    simp [settlesWithin, hnil, settles_of_no_front hnone]
  | succ fuel ih =>
    have hsingle : ∀ now, Least ls now →
        (settlesWithin fuel (dropFront ls now) ↔ Settles (dropFront ls now)) := fun now hnow =>
      ih _ (Nat.le_of_lt_succ (hnow.front.sum_lt.trans_le h))
    have hpair : ∀ now next, Least ls now → Next ls now next →
        (settlesWithin fuel (dropFront (dropFront ls now) next) ↔
          Settles (dropFront (dropFront ls now) next)) := fun now next hnow hnext =>
      ih _ (Nat.le_of_lt_succ (((hnext.front.dropFront_of_ne hnext.other).sum_lt.trans
        hnow.front.sum_lt).trans_le h))
    rw [settlesWithin, decide_eq_true_iff, settles_iff]
    constructor
    · intro hall
      have hturn : ∀ now, Least ls now → _ := fun now hnow =>
        hall now (mem_fronts.mpr hnow.front) hnow
      refine ⟨fun now hnow => (hturn now hnow).1, fun now next hnow hnext herases => ?_,
        fun now hnow hnone => ?_⟩
      · exact (hpair now next hnow hnext).mp
          ((hturn now hnow).2.1 next (mem_fronts.mpr hnext.front) hnext herases)
      · exact (hsingle now hnow).mp ((hturn now hnow).2.2 fun next _ => hnone next)
    · rintro ⟨live, pair, single⟩ now - hnow
      refine ⟨live now hnow, fun next _ hnext herases => ?_, fun hnone => ?_⟩
      · exact (hpair now next hnow hnext).mpr (pair now next hnow hnext herases)
      · exact (hsingle now hnow).mpr (single now hnow fun next hnext =>
          hnone next (mem_fronts.mpr hnext.front) hnext)

instance : Decidable (Settles ls) :=
  decidable_of_iff _ (settlesWithin_iff (ls.map List.length).sum ls le_rfl)

end Decide

section Reading
variable {r : R} {ls ss ts : List (List (Wrapped R))} {now next n : Node (Wrapped R)}

/-- Each list has a part with records up to `r`, and goes on with a greater one. -/
structure Parts (r : R) (ls ss ts : List (List (Wrapped R))) : Prop where
  eq : ls = List.zipWith (· ++ ·) ss ts
  length : ss.length = ts.length
  low : ∀ s ∈ ss, ∀ w ∈ s, w.record ≤ r
  high : ∀ n, Front ts n → r < n.item.record

namespace Parts

theorem front_le (h : Parts r ls ss ts) (hn : Front ss n) : n.item.record ≤ r := by
  obtain ⟨s, hs⟩ := hn
  exact h.low _ (List.mem_of_getElem? hs) _ List.mem_cons_self

theorem front_left (h : Parts r ls ss ts) (hn : Front ss n) : Front ls n := by
  obtain ⟨s, hs⟩ := hn
  obtain ⟨hlt, -⟩ := List.getElem?_eq_some_iff.mp hs
  have hlt' : n.source < ts.length := h.length ▸ hlt
  have ht := List.getElem?_eq_getElem hlt'
  exact ⟨s ++ ts[n.source], by rw [h.eq, List.getElem?_zipWith, hs, ht]; rfl⟩

theorem front_cases (h : Parts r ls ss ts) (hn : Front ls n) : Front ss n ∨ Front ts n := by
  obtain ⟨l, hl⟩ := hn
  rw [h.eq, List.getElem?_zipWith] at hl
  cases hs : ss[n.source]? with
  | none => simp [hs] at hl
  | some s =>
    cases ht : ts[n.source]? with
    | none => simp [hs, ht] at hl
    | some t =>
      simp only [hs, ht, Option.some.injEq] at hl
      cases s with
      | nil => exact .inr ⟨l, by rw [ht, ← hl]; rfl⟩
      | cons w s =>
        obtain ⟨rfl, -⟩ := List.cons.inj hl
        exact .inl ⟨s, hs⟩

theorem dropFront (h : Parts r ls ss ts) (hn : Front ss n) :
    Parts r (dropFront ls n) (dropFront ss n) ts := by
  obtain ⟨s, hs⟩ := hn
  refine ⟨?_, by rw [RangeQuery.dropFront, List.length_modify, h.length], fun t ht w hw => ?_,
    h.high⟩
  · refine List.ext_getElem? fun i => ?_
    rw [h.eq, List.getElem?_zipWith, RangeQuery.dropFront, RangeQuery.dropFront]
    by_cases hi : n.source = i
    · subst hi
      rw [List.getElem?_modify_eq, List.getElem?_modify_eq, List.getElem?_zipWith, hs]
      cases ts[n.source]? <;> rfl
    · rw [List.getElem?_modify_ne _ _ hi, List.getElem?_modify_ne _ _ hi, List.getElem?_zipWith]
  · obtain ⟨i, hi⟩ := List.getElem?_of_mem ht
    rw [RangeQuery.dropFront, List.getElem?_modify, Option.map_eq_map,
      Option.map_eq_some_iff] at hi
    obtain ⟨u, hu, rfl⟩ := hi
    refine h.low u (List.mem_of_getElem? hu) w ?_
    split at hw
    · exact List.mem_of_mem_tail hw
    · exact hw

theorem eq_right (h : Parts r ls ss ts) (hnone : ∀ n, ¬ Front ss n) : ls = ts := by
  rw [h.eq]
  refine List.ext_getElem? fun i => ?_
  rw [List.getElem?_zipWith]
  cases hs : ss[i]? with
  | none =>
    rw [List.getElem?_eq_none_iff] at hs
    rw [List.getElem?_eq_none (h.length ▸ hs)]
  | some s =>
    cases s with
    | nil => cases ts[i]? <;> rfl
    | cons w s => exact absurd ⟨s, hs⟩ (hnone ⟨w, i⟩)

theorem least (h : Parts r ls ss ts) (hnow : Least ss now) : Least ls now := by
  refine ⟨h.front_left hnow.front, fun n hn => ?_⟩
  rcases h.front_cases hn with hn | hn
  · exact hnow.le n hn
  · exact (Prod.Lex.toLex_lt_toLex.mpr (.inl ((h.front_le hnow.front).trans_lt (h.high n hn)))).le

theorem least_left (h : Parts r ls ss ts) (hn : Front ss n) (hnow : Least ls now) :
    Least ss now := by
  have hrec : now.item.record ≤ n.item.record :=
    Prod.Lex.monotone_fst _ _ (hnow.le n (h.front_left hn))
  rcases h.front_cases hnow.front with hfront | hfront
  · exact ⟨hfront, fun n hn => hnow.le n (h.front_left hn)⟩
  · exact absurd (h.high now hfront) (not_lt.mpr (hrec.trans (h.front_le hn)))

/-- What a tombstone erases is next to it within the parts. -/
theorem next_iff (h : Parts r ls ss ts) (hnow : Least ss now) :
    (Next ls now next ∧ Erases next.item now.item) ↔
      Next ss now next ∧ Erases next.item now.item := by
  constructor
  · rintro ⟨hnext, herases⟩
    refine ⟨⟨?_, hnext.other, fun n hn => hnext.le n (h.front_left hn)⟩, herases⟩
    refine (h.front_cases hnext.front).resolve_right fun hfront => ?_
    exact absurd (h.high next hfront) (not_lt.mpr (herases.2.1 ▸ h.front_le hnow.front))
  · rintro ⟨hnext, herases⟩
    refine ⟨⟨h.front_left hnext.front, hnext.other, fun n hn hne => ?_⟩, herases⟩
    rcases h.front_cases hn with hn | hn
    · exact hnext.le n hn hne
    · exact (Prod.Lex.toLex_lt_toLex.mpr
        (.inl ((h.front_le hnext.front).trans_lt (h.high n hn)))).le

/-- The parts are read one after the other. -/
theorem settles_iff (h : Parts r ls ss ts) : Settles ls ↔ Settles ss ∧ Settles ts := by
  induction hk : (ss.map List.length).sum using Nat.strong_induction_on generalizing ls ss with
  | _ k ih =>
  subst hk
  by_cases hfront : ∃ n, Front ss n
  · obtain ⟨n, hn⟩ := hfront
    have hsingle : ∀ now, Least ss now → (Settles (RangeQuery.dropFront ls now) ↔
        Settles (RangeQuery.dropFront ss now) ∧ Settles ts) := fun now hnow =>
      ih _ hnow.front.sum_lt (h.dropFront hnow.front) rfl
    have hpair : ∀ now next, Least ss now → Next ss now next →
        (Settles (RangeQuery.dropFront (RangeQuery.dropFront ls now) next) ↔
          Settles (RangeQuery.dropFront (RangeQuery.dropFront ss now) next) ∧ Settles ts) := by
      intro now next hnow hnext
      have hnext' := hnext.front.dropFront_of_ne hnext.other
      exact ih _ (hnext'.sum_lt.trans hnow.front.sum_lt)
        ((h.dropFront hnow.front).dropFront hnext') rfl
    have hnot : ∀ now, Least ss now → ((∀ next, Next ls now next → ¬ Erases next.item now.item) ↔
        ∀ next, Next ss now next → ¬ Erases next.item now.item) := by
      intro now hnow
      refine forall_congr' fun next => ?_
      rw [← not_and, ← not_and, h.next_iff hnow]
    constructor
    · intro hls
      obtain ⟨live, pair, single⟩ := RangeQuery.settles_iff.mp hls
      have hss : Settles ss := .intro (fun now hnow => live now (h.least hnow))
        (fun now next hnow hnext herases => ((hpair now next hnow hnext).mp
          (pair now next (h.least hnow) ((h.next_iff hnow).mpr ⟨hnext, herases⟩).1 herases)).1)
        (fun now hnow hnone => ((hsingle now hnow).mp
          (single now (h.least hnow) ((hnot now hnow).mpr hnone))).1)
      refine ⟨hss, ?_⟩
      obtain ⟨now, hnow⟩ := exists_least hn
      by_cases hnone : ∀ next, Next ss now next → ¬ Erases next.item now.item
      · exact ((hsingle now hnow).mp
          (single now (h.least hnow) ((hnot now hnow).mpr hnone))).2
      · push Not at hnone
        obtain ⟨next, hnext, herases⟩ := hnone
        exact ((hpair now next hnow hnext).mp
          (pair now next (h.least hnow) ((h.next_iff hnow).mpr ⟨hnext, herases⟩).1 herases)).2
    · rintro ⟨hss, hts⟩
      obtain ⟨live, pair, single⟩ := RangeQuery.settles_iff.mp hss
      refine .intro (fun now hnow => live now (h.least_left hn hnow))
        (fun now next hnow hnext herases => ?_) fun now hnow hnone => ?_
      · have hnow' := h.least_left hn hnow
        have hnext' := ((h.next_iff hnow').mp ⟨hnext, herases⟩).1
        exact (hpair now next hnow' hnext').mpr ⟨pair now next hnow' hnext' herases, hts⟩
      · have hnow' := h.least_left hn hnow
        exact (hsingle now hnow').mpr ⟨single now hnow' ((hnot now hnow').mp hnone), hts⟩
  · rw [h.eq_right fun n hn => hfront ⟨n, hn⟩]
    exact ⟨fun hts => ⟨settles_of_no_front fun n hn => hfront ⟨n, hn⟩, hts⟩, And.right⟩

end Parts

end Reading

section Stretches
variable {r : R} {l : List (Wrapped R)} {ls : List (List (Wrapped R))}

/-- From the first record that is not below `r` up to the first greater one -/
def stretch (r : R) (l : List (Wrapped R)) : List (Wrapped R) :=
  (l.dropWhile fun w => w.record < r).takeWhile fun w => w.record ≤ r

theorem stretch_eq_takeWhile (h : ∀ w ∈ l.head?, r ≤ w.record) :
    stretch r l = l.takeWhile fun w => w.record ≤ r := by
  cases l with
  | nil => rfl
  | cons w l =>
    have hw : ¬ w.record < r := not_lt.mpr (h w rfl)
    rw [stretch, List.dropWhile_cons_of_neg (by simpa using hw)]

theorem stretch_eq_nil (h : ∀ w ∈ l.head?, r < w.record) : stretch r l = [] := by
  rw [stretch_eq_takeWhile fun w hw => (h w hw).le]
  cases l with
  | nil => rfl
  | cons w l =>
    have hw : ¬ w.record ≤ r := not_le.mpr (h w rfl)
    rw [List.takeWhile_cons_of_neg (by simpa using hw)]

theorem stretch_dropWhile {r' : R} (h : r < r') (l : List (Wrapped R)) :
    stretch r' (l.dropWhile fun w => w.record ≤ r) = stretch r' l := by
  rw [stretch, stretch]
  congr 1
  induction l with
  | nil => rfl
  | cons w l ih =>
    by_cases hw : w.record ≤ r
    · rw [List.dropWhile_cons_of_pos (by simpa using hw), ih,
        List.dropWhile_cons_of_pos (by simpa using hw.trans_lt h)]
    · rw [List.dropWhile_cons_of_neg (by simpa using hw)]

/-- In a sorted list these are the copies of `r`. -/
theorem stretch_of_sorted (h : l.Pairwise fun a b => a.record ≤ b.record) (r : R) :
    stretch r l = l.filter fun w => w.record = r := by
  induction l with
  | nil => rfl
  | cons w l ih =>
    obtain ⟨hle, hl⟩ := List.pairwise_cons.mp h
    rcases lt_trichotomy w.record r with hw | hw | hw
    · rw [List.filter_cons_of_neg (by simpa using hw.ne), ← ih hl, stretch, stretch,
        List.dropWhile_cons_of_pos (by simpa using hw)]
    · rw [stretch_eq_takeWhile (by simp [hw]), List.filter_cons_of_pos (by simpa using hw),
        List.takeWhile_cons_of_pos (by simpa using hw.le), ← ih hl, stretch_eq_takeWhile]
      exact fun v hv => hw ▸ hle v (List.mem_of_mem_head? hv)
    · rw [stretch_eq_nil (by simpa using hw), eq_comm, List.filter_eq_nil_iff]
      intro v hv
      rcases List.mem_cons.mp hv with rfl | hv
      · simpa using hw.ne'
      · simpa using (hw.trans_le (hle v hv)).ne'

theorem parts_split (r : R) (ls : List (List (Wrapped R))) :
    Parts r ls (ls.map fun l => l.takeWhile fun w => w.record ≤ r)
      (ls.map fun l => l.dropWhile fun w => w.record ≤ r) where
  eq := by
    rw [List.zipWith_map, List.zipWith_self]
    simp
  length := by rw [List.length_map, List.length_map]
  low s hs w hw := by
    obtain ⟨l, -, rfl⟩ := List.mem_map.mp hs
    simpa using List.mem_takeWhile_imp hw
  high n hn := by
    obtain ⟨t, ht⟩ := hn
    rw [List.getElem?_map, Option.map_eq_some_iff] at ht
    obtain ⟨l, -, hl⟩ := ht
    have := List.head?_dropWhile_not (fun w : Wrapped R => decide (w.record ≤ r)) l
    rw [hl] at this
    simpa using this

theorem settles_stretch_of_lt (h : ∀ n, Front ls n → r < n.item.record) :
    Settles (ls.map (stretch r)) := by
  refine settles_of_no_front fun n hn => ?_
  obtain ⟨t, ht⟩ := hn
  rw [List.getElem?_map, Option.map_eq_some_iff] at ht
  obtain ⟨l, hl, hstretch⟩ := ht
  rw [stretch_eq_nil] at hstretch
  · exact absurd hstretch (List.cons_ne_nil _ _).symm
  · intro w hw
    refine h ⟨w, n.source⟩ ⟨l.tail, ?_⟩
    rw [hl, List.eq_cons_of_mem_head? hw]
    rfl

theorem stretch_of_not_mem (h : ∀ w ∈ l, w.record ≠ r) : stretch r l = [] := by
  induction l with
  | nil => rfl
  | cons w l ih =>
    obtain ⟨hw, hl⟩ := List.forall_mem_cons.mp h
    rcases lt_or_gt_of_ne hw with hw | hw
    · rw [← ih hl, stretch, stretch, List.dropWhile_cons_of_pos (by simpa using hw)]
    · exact stretch_eq_nil (by simpa using hw)

theorem settles_iff_stretch (ls : List (List (Wrapped R))) :
    Settles ls ↔ ∀ r, Settles (ls.map (stretch r)) := by
  induction hk : (ls.map List.length).sum using Nat.strong_induction_on generalizing ls with
  | _ k ih =>
  subst hk
  by_cases hfront : ∃ n, Front ls n
  · -- the least record is read first
    obtain ⟨n, hn⟩ := hfront
    obtain ⟨now, hnow⟩ := exists_least hn
    have hle : ∀ n, Front ls n → now.item.record ≤ n.item.record := fun n hn =>
      Prod.Lex.monotone_fst _ _ (hnow.le n hn)
    have hparts := parts_split now.item.record ls
    set ss := ls.map fun l => l.takeWhile fun w => w.record ≤ now.item.record with hss
    set ts := ls.map fun l => l.dropWhile fun w => w.record ≤ now.item.record with hts
    have hfirst : ls.map (stretch now.item.record) = ss := by
      refine List.map_congr_left fun l hl => stretch_eq_takeWhile fun w hw => ?_
      obtain ⟨i, hi⟩ := List.getElem?_of_mem hl
      refine hle ⟨w, i⟩ ⟨l.tail, ?_⟩
      rw [hi, List.eq_cons_of_mem_head? hw]
      rfl
    have hlater : ∀ r, now.item.record < r → ts.map (stretch r) = ls.map (stretch r) := by
      intro r hr
      rw [hts, List.map_map]
      exact List.map_congr_left fun l _ => stretch_dropWhile hr l
    have hlt : (ts.map List.length).sum < (ls.map List.length).sum := by
      obtain ⟨l, hl⟩ := hnow.front
      rw [hts, List.map_map]
      refine List.sum_lt_sum _ _ (fun l _ => (List.dropWhile_suffix _).length_le)
        ⟨_, List.mem_of_getElem? hl, ?_⟩
      rw [Function.comp_apply, List.dropWhile_cons_of_pos (by simp)]
      exact Nat.lt_succ_of_le (List.dropWhile_suffix _).length_le
    rw [hparts.settles_iff, ih _ hlt ts rfl, ← hfirst]
    constructor
    · rintro ⟨hnow', hrest⟩ r
      rcases lt_trichotomy r now.item.record with hr | rfl | hr
      · exact settles_stretch_of_lt fun n hn => hr.trans_le (hle n hn)
      · exact hnow'
      · exact hlater r hr ▸ hrest r
    · refine fun h => ⟨h _, fun r => ?_⟩
      rcases le_or_gt r now.item.record with hr | hr
      · exact settles_stretch_of_lt fun n hn => hr.trans_lt (hparts.high n hn)
      · exact (hlater r hr).symm ▸ h r
  · have hnone : ∀ n, ¬ Front ls n := fun n hn => hfront ⟨n, hn⟩
    exact ⟨fun _ r => settles_stretch_of_lt fun n hn => absurd hn (hnone n),
      fun _ => settles_of_no_front hnone⟩

/-- The lists settle if and only if they do around each record. -/
theorem settles_iff_records (ls : List (List (Wrapped R))) :
    Settles ls ↔ ∀ w ∈ ls.flatten, Settles (ls.map (stretch w.record)) := by
  rw [settles_iff_stretch]
  refine ⟨fun h w _ => h w.record, fun h r => ?_⟩
  by_cases hr : ∃ w ∈ ls.flatten, w.record = r
  · obtain ⟨w, hw, rfl⟩ := hr
    exact h w hw
  · refine settles_of_no_front fun n hn => ?_
    obtain ⟨t, ht⟩ := hn
    rw [List.getElem?_map, Option.map_eq_some_iff] at ht
    obtain ⟨l, hl, hstretch⟩ := ht
    rw [stretch_of_not_mem fun w hw heq =>
      hr ⟨w, List.mem_flatten.mpr ⟨l, List.mem_of_getElem? hl, hw⟩, heq⟩] at hstretch
    exact List.cons_ne_nil _ _ hstretch.symm

end Stretches

end RangeQuery

end De

import DynamicExtension.VPTreeSearch
set_option autoImplicit false

namespace De
namespace VPTree

section Defs
variable {R D : Type} [LinearOrder D] [DecidableEq R] (calcDistance : R → R → D)

/-- The descent of `point_lookup`, with the bounds of the node it stops at. It looks into
every child it takes, a null one included. -/
def descend (recs : Nat → R) (rec : R) : VpNode D → Option (Nat × Nat)
  | .null => none
  | .leaf start stop => some (start, stop)
  | .inner start stop radius inside outside =>
    if recs start ≠ rec then
      if calcDistance rec (recs start) ≥ radius then descend recs rec outside
      else descend recs rec inside
    else some (start, stop)

/-- `point_lookup` without the hash map -/
def pointLookup (shard : VPTree R D) (rec : R) (_filter : Bool) :
    Option (Option (Wrapped R)) := do
  let (start, stop) ← descend calcDistance (recAt shard.data shard.ptrs) rec shard.root
  return ((List.range' start (stop + 1 - start)).map fun i => shard.data (shard.ptrs i).ptr).find?
    fun w => w.record = rec

/-- A stored record equal to `rec` if there is one, and nothing else -/
def Answers (shard : VPTree R D) (rec : R) (res : Option (Option (Wrapped R))) : Prop :=
  ∃ out, res = some out ∧ (∀ w, out = some w → w ∈ shard.records ∧ w.record = rec) ∧
    (out = none → ∀ w ∈ shard.records, w.record ≠ rec)

omit [LinearOrder D] [DecidableEq R] in
def entriesUnder : VpNode D → List Nat
  | .null => []
  | .leaf start stop => List.range' start (stop + 1 - start)
  | .inner start _ _ inside outside => start :: (entriesUnder inside ++ entriesUnder outside)

/-- The nodes met from `node` on towards `rec`: inside if it is nearer than the radius,
outside otherwise, and no farther than its own vantage point -/
inductive OnWay (recs : Nat → R) (rec : R) : VpNode D → VpNode D → Prop where
  | here (node : VpNode D) : OnWay recs rec node node
  | inside {start stop : Nat} {radius : D} {inside outside node : VpNode D}
      (hne : recs start ≠ rec) (hd : calcDistance rec (recs start) < radius)
      (h : OnWay recs rec inside node) :
      OnWay recs rec (.inner start stop radius inside outside) node
  | outside {start stop : Nat} {radius : D} {inside outside node : VpNode D}
      (hne : recs start ≠ rec) (hd : radius ≤ calcDistance rec (recs start))
      (h : OnWay recs rec outside node) :
      OnWay recs rec (.inner start stop radius inside outside) node

/-- The node does not mislead a lookup: it is there, its vantage point is the record only
at the root, and if the record is at its radius then not all copies lie inside. -/
def Leads (recs : Nat → R) (rec : R) : VpNode D → Prop
  | .null => False
  | .leaf _ _ => True
  | .inner start _ radius inside outside =>
    (recs start = rec → start = 0) ∧
      (recs start ≠ rec → calcDistance rec (recs start) = radius →
        (∃ p ∈ entriesUnder inside, recs p = rec) → ∃ p ∈ entriesUnder outside, recs p = rec)

end Defs

section Descent
variable {R D : Type} [LinearOrder D] [DecidableEq R] {calcDistance : R → R → D}
  {recs : Nat → R} {rec : R}

omit [DecidableEq R] in
theorem Tree.mem_entriesUnder {node : VpNode D} {lo hi : Nat}
    (h : Tree calcDistance recs node lo hi) (p : Nat) :
    p ∈ entriesUnder node ↔ lo ≤ p ∧ p < hi := by
  induction h with
  | null h =>
    simp only [entriesUnder, List.not_mem_nil, false_iff]
    omega
  | leaf h =>
    simp only [entriesUnder, List.mem_range'_1]
    omega
  | @inner start mid hi radius inside outside hmid hhi near far hin hout ihin ihout =>
    simp only [entriesUnder, List.mem_cons, List.mem_append, ihin, ihout]
    omega

/-- The descent ends at entries of the tree, and finds the record there if and only if it
is stored. -/
def Lands (calcDistance : R → R → D) (recs : Nat → R) (rec : R) (node : VpNode D)
    (lo hi : Nat) : Prop :=
  ∃ start stop, descend calcDistance recs rec node = some (start, stop) ∧
    ((∃ p, lo ≤ p ∧ p < hi ∧ recs p = rec) → ∃ p, start ≤ p ∧ p ≤ stop ∧ recs p = rec)

theorem Tree.descend_bounds {node : VpNode D} {lo hi : Nat}
    (h : Tree calcDistance recs node lo hi) {start stop : Nat}
    (hd : descend calcDistance recs rec node = some (start, stop)) :
    lo ≤ start ∧ (start ≤ stop → stop < hi) := by
  induction h with
  | null h => cases hd
  | @leaf start' stop' h =>
    obtain ⟨rfl, rfl⟩ := Prod.mk.inj (Option.some.inj hd)
    exact ⟨le_rfl, fun _ => Nat.lt_succ_self _⟩
  | @inner start' mid hi radius inside outside hmid hhi near far hin hout ihin ihout =>
    rw [descend] at hd
    split at hd
    · split at hd
      · have := ihout hd
        omega
      · have := ihin hd
        omega
    · obtain ⟨rfl, rfl⟩ := Prod.mk.inj (Option.some.inj hd)
      omega

/-- One way down: the record is found if and only if the child that is taken finds it, as
long as the copies that matter are in that child. -/
theorem lands_of_child {node child : VpNode D} {lo hi lo' hi' : Nat}
    (ht : Tree calcDistance recs child lo' hi')
    (hdesc : descend calcDistance recs rec node = descend calcDistance recs rec child)
    (hsub : ∀ p, lo' ≤ p ∧ p < hi' → lo ≤ p ∧ p < hi) :
    Lands calcDistance recs rec node lo hi ↔
      ((∃ p, lo ≤ p ∧ p < hi ∧ recs p = rec) → ∃ p, lo' ≤ p ∧ p < hi' ∧ recs p = rec) ∧
        Lands calcDistance recs rec child lo' hi' := by
  constructor
  · rintro ⟨start, stop, hd, hfind⟩
    rw [hdesc] at hd
    have hbounds := ht.descend_bounds hd
    refine ⟨fun hstored => ?_, start, stop, hd, fun ⟨p, hp, hp', heq⟩ =>
      hfind ⟨p, (hsub p ⟨hp, hp'⟩).1, (hsub p ⟨hp, hp'⟩).2, heq⟩⟩
    obtain ⟨p, hp, hp', heq⟩ := hfind hstored
    exact ⟨p, by omega, by omega, heq⟩
  · rintro ⟨hkeep, start, stop, hd, hfind⟩
    exact ⟨start, stop, hdesc.trans hd, fun hstored => hfind (hkeep hstored)⟩

omit [LinearOrder D] [DecidableEq R] in
/-- The copies under an inner node, with those inside from `start + 1` on and those outside
from `mid` on -/
theorem exists_under_inner {start mid hi : Nat} (hmid : start < mid) (hhi : mid < hi) :
    (∃ p, start ≤ p ∧ p < hi ∧ recs p = rec) ↔ recs start = rec ∨
      (∃ p, start + 1 ≤ p ∧ p < mid ∧ recs p = rec) ∨ ∃ p, mid ≤ p ∧ p < hi ∧ recs p = rec := by
  constructor
  · rintro ⟨p, hp, hp', heq⟩
    rcases Nat.eq_or_lt_of_le hp with rfl | hgt
    · exact .inl heq
    · rcases Nat.lt_or_ge p mid with hlt | hge
      · exact .inr (.inl ⟨p, hgt, hlt, heq⟩)
      · exact .inr (.inr ⟨p, hge, hp', heq⟩)
  · rintro (heq | ⟨p, hp, hp', heq⟩ | ⟨p, hp, hp', heq⟩)
    · exact ⟨start, le_rfl, by omega, heq⟩
    · exact ⟨p, by omega, by omega, heq⟩
    · exact ⟨p, by omega, hp', heq⟩

section Inner
variable {start mid hi : Nat} {radius : D} {inside outside : VpNode D}

/-- At the vantage point the descent stops, and scans nothing unless the node starts at
the first entry. -/
theorem lands_at_vantage (hstart : start < hi) (hvp : recs start = rec) :
    Lands calcDistance recs rec (.inner start 0 radius inside outside) start hi ↔
      ∀ node', OnWay calcDistance recs rec (.inner start 0 radius inside outside) node' →
        Leads calcDistance recs rec node' := by
  have hdesc : descend calcDistance recs rec (.inner start 0 radius inside outside) =
      some (start, 0) := by rw [descend, if_neg (not_not.mpr hvp)]
  constructor
  · rintro ⟨start', stop', hd, hfind⟩ node' hway
    obtain ⟨rfl, rfl⟩ := Prod.mk.inj (Option.some.inj (hdesc.symm.trans hd))
    obtain ⟨p, hp, hp', -⟩ := hfind ⟨start, le_rfl, hstart, hvp⟩
    cases hway with
    | here => exact ⟨fun _ => by omega, fun hne => absurd hvp hne⟩
    | inside hne => exact absurd hvp hne
    | outside hne => exact absurd hvp hne
  · intro hway
    have hzero := (hway _ (.here _)).1 hvp
    exact ⟨start, 0, hdesc, fun _ => ⟨start, le_rfl, hzero.le, hvp⟩⟩

variable [AddCommGroup D]

theorem lands_outside (hm : IsMetric calcDistance) (hmid : start < mid) (hhi : mid < hi)
    (near : ∀ p, start + 1 ≤ p → p ≤ mid - 1 → calcDistance (recs start) (recs p) ≤ radius)
    (hin : Tree calcDistance recs inside (start + 1) mid)
    (hout : Tree calcDistance recs outside mid hi) (hvp : recs start ≠ rec)
    (hd : radius ≤ calcDistance rec (recs start))
    (ih : Lands calcDistance recs rec outside mid hi ↔
      ∀ node', OnWay calcDistance recs rec outside node' → Leads calcDistance recs rec node') :
    Lands calcDistance recs rec (.inner start 0 radius inside outside) start hi ↔
      ∀ node', OnWay calcDistance recs rec (.inner start 0 radius inside outside) node' →
        Leads calcDistance recs rec node' := by
  rw [lands_of_child hout (by rw [descend, if_pos hvp, if_pos hd])
    (fun p hp => ⟨by omega, hp.2⟩), ih, exists_under_inner hmid hhi, or_iff_right hvp]
  constructor
  · rintro ⟨hkeep, hway'⟩ node' hway
    cases hway with
    | here =>
      refine ⟨fun heq => absurd heq hvp, fun _ _ => ?_⟩
      simp only [hin.mem_entriesUnder, hout.mem_entriesUnder, and_assoc]
      exact fun hins => hkeep (.inl hins)
    | inside _ hlt => exact absurd hlt (not_lt.mpr hd)
    | outside _ _ hrest => exact hway' _ hrest
  · refine fun hway => ⟨?_, fun node' hrest => hway _ (.outside hvp hd hrest)⟩
    rintro (⟨p, hp, hp', heq⟩ | hstay)
    · have hle := near p hp (by omega)
      rw [heq, hm.symm] at hle
      have hties := (hway _ (.here _)).2 hvp (le_antisymm hle hd)
      simp only [hin.mem_entriesUnder, hout.mem_entriesUnder, and_assoc] at hties
      exact hties ⟨p, hp, hp', heq⟩
    · exact hstay

theorem lands_inside (hm : IsMetric calcDistance) (hmid : start < mid) (hhi : mid < hi)
    (far : ∀ p, mid ≤ p → p ≤ hi - 1 → radius ≤ calcDistance (recs start) (recs p))
    (hin : Tree calcDistance recs inside (start + 1) mid) (hvp : recs start ≠ rec)
    (hd : ¬ radius ≤ calcDistance rec (recs start))
    (ih : Lands calcDistance recs rec inside (start + 1) mid ↔
      ∀ node', OnWay calcDistance recs rec inside node' → Leads calcDistance recs rec node') :
    Lands calcDistance recs rec (.inner start 0 radius inside outside) start hi ↔
      ∀ node', OnWay calcDistance recs rec (.inner start 0 radius inside outside) node' →
        Leads calcDistance recs rec node' := by
  have hlt := not_le.mp hd
  rw [lands_of_child hin (by rw [descend, if_pos hvp, if_neg hd])
    (fun p hp => ⟨by omega, by omega⟩), ih, exists_under_inner hmid hhi, or_iff_right hvp]
  constructor
  · rintro ⟨-, hway'⟩ node' hway
    cases hway with
    | here => exact ⟨fun heq => absurd heq hvp, fun _ heq => absurd heq hlt.ne⟩
    | inside _ _ hrest => exact hway' _ hrest
    | outside _ hge => exact absurd hge hd
  · refine fun hway => ⟨?_, fun node' hrest => hway _ (.inside hvp hlt hrest)⟩
    rintro (hstay | ⟨p, hp, hp', heq⟩)
    · exact hstay
    · have hle := far p hp (by omega)
      rw [heq, hm.symm] at hle
      exact absurd hle hd

end Inner

theorem Tree.lands_iff [AddCommGroup D] (hm : IsMetric calcDistance) {node : VpNode D}
    {lo hi : Nat} (h : Tree calcDistance recs node lo hi) :
    Lands calcDistance recs rec node lo hi ↔
      ∀ node', OnWay calcDistance recs rec node node' → Leads calcDistance recs rec node' := by
  induction h with
  | null h =>
    refine iff_of_false ?_ fun hway => hway _ (.here _)
    rintro ⟨start, stop, hd, -⟩
    cases hd
  | @leaf start stop h =>
    refine iff_of_true ⟨start, stop, rfl, ?_⟩ fun node' hway => ?_
    · rintro ⟨p, hp, hp', heq⟩
      exact ⟨p, hp, by omega, heq⟩
    · cases hway
      trivial
  | @inner start mid hi radius inside outside hmid hhi near far hin hout ihin ihout =>
    by_cases hvp : recs start = rec
    · exact lands_at_vantage (by omega) hvp
    by_cases hd : radius ≤ calcDistance rec (recs start)
    · exact lands_outside hm hmid hhi near hin hout hvp hd ihout
    · exact lands_inside hm hmid hhi far hin hvp hd ihin

end Descent

section Lookup
variable {R D : Type} [AddCommGroup D] [LinearOrder D] [DecidableEq R]
  {calcDistance : R → R → D} {shard : VPTree R D}

omit [AddCommGroup D] [DecidableEq R] in
theorem WellFormed.mem_records_iff (h : WellFormed calcDistance shard) (w : Wrapped R) :
    w ∈ shard.records ↔ ∃ p, 0 ≤ p ∧ p < shard.reccnt ∧ shard.data (shard.ptrs p).ptr = w := by
  rw [← mem_entries, h.entries_eq, Multiset.mem_coe]

omit [AddCommGroup D] in
theorem WellFormed.answers_iff (h : WellFormed calcDistance shard) (rec : R) (filter : Bool) :
    Answers shard rec (pointLookup calcDistance shard rec filter) ↔
      Lands calcDistance (recAt shard.data shard.ptrs) rec shard.root 0 shard.reccnt := by
  have hstored : (∃ w ∈ shard.records, w.record = rec) ↔
      ∃ p, 0 ≤ p ∧ p < shard.reccnt ∧ recAt shard.data shard.ptrs p = rec := by
    simp only [h.mem_records_iff]
    constructor
    · rintro ⟨w, ⟨p, hp, hp', rfl⟩, heq⟩
      exact ⟨p, hp, hp', heq⟩
    · rintro ⟨p, hp, hp', heq⟩
      exact ⟨_, ⟨p, hp, hp', rfl⟩, heq⟩
  cases hd : descend calcDistance (recAt shard.data shard.ptrs) rec shard.root with
  | none =>
    refine iff_of_false ?_ ?_
    · rintro ⟨out, hout, -⟩
      simp [pointLookup, hd] at hout
    · rintro ⟨start, stop, hd', -⟩
      simp [hd] at hd'
  | some bounds =>
    obtain ⟨start, stop⟩ := bounds
    set found := ((List.range' start (stop + 1 - start)).map fun i =>
      shard.data (shard.ptrs i).ptr).find? fun w => w.record = rec with hfound
    have hres : pointLookup calcDistance shard rec filter = some found := by
      simp [pointLookup, hd, found]
    have hbounds := h.tree.descend_bounds hd
    have hnone : found = none ↔
        ¬ ∃ p, start ≤ p ∧ p ≤ stop ∧ recAt shard.data shard.ptrs p = rec := by
      rw [hfound, List.find?_eq_none]
      simp only [List.mem_map, List.mem_range'_1, decide_eq_true_eq]
      constructor
      · rintro hno ⟨p, hp, hp', heq⟩
        exact hno _ ⟨p, ⟨hp, by omega⟩, rfl⟩ heq
      · rintro hno w ⟨p, hp, rfl⟩ heq
        exact hno ⟨p, hp.1, by omega, heq⟩
    constructor
    · rintro ⟨out, hout, -, hmiss⟩
      obtain rfl : found = out := Option.some.inj (hres.symm.trans hout)
      refine ⟨start, stop, hd, fun hst => ?_⟩
      by_contra hno
      obtain ⟨w, hw, heq⟩ := hstored.mpr hst
      exact hmiss (hnone.mpr hno) w hw heq
    · rintro ⟨start', stop', hd', hfind⟩
      obtain ⟨rfl, rfl⟩ := Prod.mk.inj (Option.some.inj (hd.symm.trans hd'))
      refine ⟨found, hres, fun w hw => ?_, fun hmiss w hw heq => ?_⟩
      · obtain ⟨p, hp, rfl⟩ := List.mem_map.mp (List.mem_of_find?_eq_some hw)
        rw [List.mem_range'_1] at hp
        exact ⟨(h.mem_records_iff _).mpr ⟨p, Nat.zero_le p, by omega, rfl⟩,
          by simpa using List.find?_some hw⟩
      · exact hnone.mp hmiss (hfind (hstored.mp ⟨w, hw, heq⟩))

/-- A lookup answers right if and only if no node on its way misleads it. -/
theorem pointLookup_iff [Zero R] (hm : IsMetric calcDistance) (hb : Built calcDistance shard)
    (rec : R) (filter : Bool) :
    Answers shard rec (pointLookup calcDistance shard rec filter) ↔
      ∀ node, OnWay calcDistance (recAt shard.data shard.ptrs) rec shard.root node →
        Leads calcDistance (recAt shard.data shard.ptrs) rec node :=
  (hb.wellFormed.answers_iff rec filter).trans (hb.wellFormed.tree.lands_iff hm)

end Lookup

section Samples

/-- In leaves of at most two points, `1` is the vantage point of a node below the root. -/
def pointShard : Option (VPTree Int Int) := ofBuffer absDistance 1 pointView ⟨fun _ => 0⟩

/-- `0` is the root, and both `1` and `-1` are at its radius: one lies inside. -/
def tiedShard : Option (VPTree Int Int) :=
  ofBuffer absDistance 2 ⟨fun i => ⟨4#32, [0, 1, -1, 3].getD i 0⟩, 0, 4, 8, 0⟩ ⟨fun _ => 0⟩

theorem pointLookup_iff_sample : ∃ shard, pointShard = some shard ∧
    (Answers shard 5 (pointLookup absDistance shard 5 false) ↔
      ∀ node, OnWay absDistance (recAt shard.data shard.ptrs) 5 shard.root node →
        Leads absDistance (recAt shard.data shard.ptrs) 5 node) := by
  obtain ⟨shard, hshard⟩ := exists_ofBuffer absDistance 1 pointView ⟨fun _ => 0⟩
  exact ⟨shard, hshard, pointLookup_iff isMetric_absDistance (.ofBuffer hshard) 5 false⟩

theorem not_answers_of_eval {shard? : Option (VPTree Int Int)} {rec : Int}
    (h : (shard?.map fun s => (s.records.map (·.record), pointLookup absDistance s rec false)).any
      fun out => out.1.contains rec && out.2 == some none) :
    ∃ shard, shard? = some shard ∧
      ¬ Answers shard rec (pointLookup absDistance shard rec false) := by
  cases shard? with
  | none => cases h
  | some shard =>
    simp only [Option.map_some, Option.any_some, Bool.and_eq_true, List.contains_iff_mem,
      List.mem_map, beq_iff_eq] at h
    obtain ⟨⟨w, hw, heq⟩, hres⟩ := h
    refine ⟨shard, rfl, ?_⟩
    rintro ⟨out, hout, -, hmiss⟩
    obtain rfl : none = out := Option.some.inj (hres.symm.trans hout)
    exact hmiss rfl w hw heq

theorem not_pointLookup :
    (∃ shard, pointShard = some shard ∧
      ¬ Answers shard 1 (pointLookup absDistance shard 1 false)) ∧
    ∃ shard, tiedShard = some shard ∧
      ¬ Answers shard 1 (pointLookup absDistance shard 1 false) :=
  ⟨not_answers_of_eval (by decide +kernel), not_answers_of_eval (by decide +kernel)⟩

end Samples

end VPTree

end De

import DynamicExtension.Library.Blocks
import DynamicExtension.RangeScan
set_option autoImplicit false

namespace De
open Blocks
variable {R : Type} [DecidableEq R] {T : ShardType R} {L : LayoutPolicy}

namespace ExtensionStructure

def onLevel (i : Nat) (xs : List T.Shard) : List (Nat × T.Shard) := xs.map (Prod.mk i)

/-- The shards from the oldest to the newest, each with its level: the deepest level comes
first, a level in slot order. -/
def byAge (s : ExtensionStructure T L) : List (Nat × T.Shard) :=
  downFrom (fun i => onLevel i (s.levelAt i).live) s.levels.length

/-- The signed multiset of a shard -/
def shardNet (x : Nat × T.Shard) : R → ℤ := De.net (T.records x.2)

theorem sum_shardNet (i : Nat) (xs : List T.Shard) :
    ((onLevel i xs).map shardNet).sum = (xs.map fun x => De.net (T.records x)).sum := by
  rw [onLevel, List.map_map]
  rfl

theorem onLevel_put (i : Nat) (l : InternalLevel T) (x : T.Shard) :
    onLevel i (l.put x).live = onLevel i l.live ++ [(i, x)] := by
  rw [InternalLevel.live_put, onLevel, List.map_append]
  rfl

theorem live_of_length_le (s : ExtensionStructure T L) {i : Nat} (hi : s.levels.length ≤ i) :
    (s.levelAt i).live = [] := by
  rw [levelAt, List.getElem?_eq_none hi]
  exact InternalLevel.live_new ..

theorem byAge_eq (s : ExtensionStructure T L) {n : Nat} (hn : s.levels.length ≤ n) :
    s.byAge = downFrom (fun i => onLevel i (s.levelAt i).live) n := by
  refine (downFrom_of_le hn fun i hi => ?_).symm
  rw [s.live_of_length_le hi]
  rfl

theorem mem_byAge {s : ExtensionStructure T L} {i : Nat} {x : T.Shard}
    (hx : x ∈ (s.levelAt i).live) : (i, x) ∈ s.byAge := by
  rw [s.byAge_eq (le_max_left s.levels.length (i + 1)), downFrom_eq_flatMap, List.mem_flatMap]
  exact ⟨i, by simp, List.mem_map_of_mem hx⟩

section Weighted
variable {M : Type} [AddMonoid M] {w : Nat × T.Shard → M}

theorem coarsens_place {s : ExtensionStructure T L} {i : Nat} (hi : i < s.levels.length)
    {l : InternalLevel T}
    (hl : Coarsens w (onLevel (i + 1) (s.levelAt (i + 1)).live ++ onLevel i (s.levelAt i).live)
      (onLevel (i + 1) l.live)) :
    Coarsens w s.byAge (s.place i l).byAge := by
  have hlen : (s.place i l).levels.length = max s.levels.length (i + 2) := length_place hi
  rw [s.byAge_eq (n := max s.levels.length (i + 2)) (le_max_left ..), byAge, hlen]
  refine Coarsens.downFrom (le_max_right ..) ?_ fun j hj => ?_
  · have hbelow : downFrom (fun j => onLevel j ((s.place i l).levelAt j).live) i =
        downFrom (fun j => onLevel j (s.levelAt j).live) i := by
      refine downFrom_congr fun j hj => ?_
      rw [levelAt_place hi, if_neg (by omega), if_neg (by omega)]
    simp only [downFrom, hbelow]
    rw [levelAt_place hi, levelAt_place hi, if_neg (Nat.succ_ne_self i), if_pos rfl, if_pos rfl,
      InternalLevel.live_new, ← List.append_assoc]
    exact hl.append (.refl _)
  · rw [levelAt_place hi, if_neg (by omega), if_neg (by omega)]

theorem coarsens_placeFirst {s : ExtensionStructure T L} {l : InternalLevel T} {x : T.Shard}
    (hl : Coarsens w (onLevel 0 (s.levelAt 0).live ++ [(0, x)]) (onLevel 0 l.live)) :
    Coarsens w (s.byAge ++ [(0, x)]) (s.placeFirst l).byAge := by
  set rows : Nat → List (Nat × T.Shard) := fun i =>
    if i = 0 then onLevel 0 (s.levelAt 0).live ++ [(0, x)] else onLevel i (s.levelAt i).live
    with hrows
  have happend : ∀ n, downFrom rows (n + 1) =
      downFrom (fun i => onLevel i (s.levelAt i).live) (n + 1) ++ [(0, x)] := by
    intro n
    induction n with
    | zero => simp [downFrom, hrows]
    | succ n ih =>
      have hrow : rows (n + 1) = onLevel (n + 1) (s.levelAt (n + 1)).live := rfl
      conv_lhs => rw [downFrom, ih, hrow, ← List.append_assoc]
      rfl
  obtain ⟨n, hn⟩ : ∃ n, max s.levels.length 1 = n + 1 := ⟨max s.levels.length 1 - 1, by omega⟩
  rw [s.byAge_eq (n := n + 1) (by omega), ← happend, byAge, length_placeFirst, hn]
  refine Coarsens.downFrom (Nat.le_add_left 1 n) ?_ fun j hj => ?_
  · simpa [downFrom, hrows, levelAt_placeFirst] using hl
  · simp [hrows, levelAt_placeFirst, Nat.ne_of_gt hj]

end Weighted

theorem net_live_regroup {xs : Multiset T.Shard} {l : List T.Shard} (h : Regroup T xs ↑l) :
    (l.map fun x => De.net (T.records x)).sum =
      (xs.map fun x => De.net (T.records x)).sum := by
  have := h.net
  simp only [Multiset.map_coe, Multiset.sum_coe] at this
  exact this

theorem coarsens_short {xs : List (Nat × T.Shard)} {i : Nat} {ys : List T.Shard}
    (hlen : ys.length ≤ 1)
    (hsum : (ys.map fun x => De.net (T.records x)).sum = (xs.map shardNet).sum) :
    Coarsens shardNet xs (onLevel i ys) := by
  match ys with
  | [] => exact .drop hsum.symm
  | [y] =>
    refine .join (hsum.symm.trans ?_).symm
    exact List.sum_singleton
  | _ :: _ :: _ => simp at hlen

theorem combine_teiring_live {base incoming l : InternalLevel T} (hp : base.pendingShard = none)
    (hfits : Fits .teiring base incoming) (hl : combine .teiring base incoming = some l) :
    incoming.live = [] ∧ l = base ∨
      incoming.live ≠ [] ∧ ∃ x, T.ofShards incoming.live = some x ∧ l = base.put x := by
  by_cases hil : incoming.live = []
  · have hc : combine .teiring base incoming = some base := by
      simp [combine, InternalLevel.appendLevel_nil hil, InternalLevel.finalize_none hp]
    exact .inl ⟨hil, (Option.some.inj (hc.symm.trans hl)).symm⟩
  · simp only [combine, InternalLevel.appendLevel_free hfits hil] at hl
    obtain ⟨l', hl', hfin⟩ := Option.bind_eq_some_iff.mp hl
    obtain ⟨x, hx, rfl⟩ := Option.map_eq_some_iff.mp hl'
    rw [InternalLevel.finalize_none (l := base.put x) hp, Option.some.injEq] at hfin
    exact .inr ⟨hil, x, hx, hfin.symm⟩

theorem coarsens_combine (h : L ≠ .bsm) {s : ExtensionStructure T L} {i : Nat} (hs : s.Sound)
    (hfits : Fits L (s.levelAt (i + 1)) (s.levelAt i)) {l : InternalLevel T}
    (hl : combine L (s.levelAt (i + 1)) (s.levelAt i) = some l) :
    Coarsens shardNet (onLevel (i + 1) (s.levelAt (i + 1)).live ++ onLevel i (s.levelAt i).live)
      (onLevel (i + 1) l.live) := by
  cases L with
  | leveling =>
    have hc := (combine_spec h hs hfits).1 l hl
    have hslots := hc.slots.trans (hs.slots (i + 1))
    have hcap : s.shardCapacity = 1 := rfl
    refine coarsens_short (by omega) ?_
    rw [List.map_append, List.sum_append, sum_shardNet, sum_shardNet]
    simpa using net_live_regroup hc.regroup
  | teiring =>
    rcases combine_teiring_live (hs.noPending (i + 1)) hfits hl with ⟨hnil, rfl⟩ | ⟨-, x, hx, rfl⟩
    · rw [hnil]
      simpa [onLevel] using Coarsens.refl _
    · rw [onLevel_put]
      refine (Coarsens.refl _).append (.join ?_)
      rw [sum_shardNet]
      exact T.ofShards_net _ _ hx
  | bsm => exact absurd rfl h

theorem coarsens_runDown (h : L ≠ .bsm) (b : Nat) {s s' : ExtensionStructure T L} (hs : s.Sound)
    (hb : b ≤ s.levels.length)
    (hfits : ∀ i, b = i + 1 → Fits L (s.levelAt (i + 1)) (s.levelAt i))
    (hrun : runDown b s = some s') : Coarsens shardNet s.byAge s'.byAge := by
  induction b generalizing s with
  | zero => exact Option.some.inj hrun ▸ .refl _
  | succ i ih =>
    obtain ⟨s₁, hs₁, hrest⟩ := Option.bind_eq_some_iff.mp hrun
    have hstep := (reconstruction_spec h hs hb (hfits i rfl)).1 s₁ hs₁
    rw [reconstruction_eq_place hb] at hs₁
    obtain ⟨l, hl, rfl⟩ := Option.map_eq_some_iff.mp hs₁
    exact (coarsens_place hb (coarsens_combine h hs (hfits i rfl) hl)).trans
      (ih hstep.rearranged.sound hstep.below.le hstep.fits hrest)

theorem coarsens_flushLevel (h : L ≠ .bsm) {s : ExtensionStructure T L} (hs : s.Sound) {n : Nat}
    (hroom : s.Room n) {v : BufferView R} {l : InternalLevel T}
    (hl : flushLevel L (s.levelAt 0) v = some l) :
    Coarsens shardNet (onLevel 0 (s.levelAt 0).live ++ [(0, T.ofBuffer v)])
      (onLevel 0 l.live) := by
  cases L with
  | leveling =>
    have hf := (flushLevel_spec h hs hroom v).1 l hl
    have hslots := hf.slots.trans (hs.slots 0)
    have hcap : s.shardCapacity = 1 := rfl
    refine coarsens_short (by omega) ?_
    rw [List.map_append, List.sum_append, sum_shardNet]
    simpa [shardNet] using net_live_regroup hf.regroup
  | teiring =>
    have hput : flushLevel .teiring (s.levelAt 0) v = some ((s.levelAt 0).put (T.ofBuffer v)) :=
      InternalLevel.appendBuffer_free hroom v
    obtain rfl := Option.some.inj (hput.symm.trans hl)
    rw [onLevel_put]
    exact .refl _
  | bsm => exact absurd rfl h

theorem coarsens_round (h : L ≠ .bsm) {s s' : ExtensionStructure T L} (hs : s.Settled) {hwm : Nat}
    {v : BufferView R} (hrun : s.round hwm v = some s') :
    Coarsens shardNet (s.byAge ++ [(0, T.ofBuffer v)]) s'.byAge := by
  obtain ⟨s₁, hs₁, hflush⟩ := Option.bind_eq_some_iff.mp hrun
  have hdown := hs₁
  rw [reconstructTasks_round h hs.sound] at hdown
  rw [copy_eq hs.sound.noPending] at hs₁
  have hsound := (planned_spec h hs hs₁).1.sound
  obtain ⟨hroom, l, hl, rfl⟩ := flushBuffer_cases h hsound hflush
  have hplanned := coarsens_runDown h _ hs.sound (planTarget_le hs.sound hwm)
    (fun i hi => planTarget_fits h hs hwm hi) hdown
  exact (hplanned.append (.refl _)).trans
    (coarsens_placeFirst (coarsens_flushLevel h hsound hroom hl))

section BSM
variable {s : ExtensionStructure T .bsm}

theorem mergedShards_eq (s : ExtensionStructure T .bsm) (b : Nat) :
    s.mergedShards b = (downFrom (fun i => onLevel i (s.levelAt i).live) b).map Prod.snd := by
  rw [downFrom_eq_flatMap, mergedShards, List.flatMap_map, List.map_flatMap]
  simp [onLevel]

theorem sum_shardNet_live {l : InternalLevel T} (h : l.getRecordCount = 0) (i : Nat) :
    ((onLevel i l.live).map shardNet).sum = 0 := by
  have := net_live_regroup (l := []) (drops_of_count_zero h)
  rw [sum_shardNet]
  simpa using this.symm

theorem coarsens_placeMerged {M : Type} [AddMonoid M] {w : Nat × T.Shard → M} (hs : s.Counted)
    {b : Nat} (hb : b ≤ s.levels.length) {x : T.Shard}
    (hx : w (b, x) = ((onLevel b (s.levelAt b).live).map w).sum +
      ((downFrom (fun i => onLevel i (s.levelAt i).live) b).map w).sum) :
    Coarsens w s.byAge (s.placeMerged b x).byAge := by
  have hlevel := levelAt_placeMerged hb (length_counts hs) x
  have hlen : (s.placeMerged b x).levels.length = max s.levels.length (b + 1) := by
    rw [(cleared_placeMerged hb (length_counts hs) x).length, length_placeTarget hb]
  rw [s.byAge_eq (n := max s.levels.length (b + 1)) (le_max_left ..), byAge, hlen]
  refine Coarsens.downFrom (le_max_right ..) ?_ fun j hj => ?_
  · have hbelow : downFrom (fun j => onLevel j ((s.placeMerged b x).levelAt j).live) b = [] := by
      refine downFrom_eq_nil fun j hj => ?_
      rw [hlevel, if_pos hj, InternalLevel.live_new]
      rfl
    simp only [downFrom, hbelow, List.append_nil]
    rw [hlevel, if_neg (lt_irrefl b), if_pos rfl, InternalLevel.live_ofSlots]
    refine .join ?_
    rw [List.map_append, List.sum_append]
    exact hx
  · rw [hlevel, if_neg (by omega), if_neg (by omega)]

theorem shardNet_merged {b : Nat} {x : T.Shard} (hx : T.ofShards (s.mergedShards b) = some x) :
    shardNet (b, x) = ((downFrom (fun i => onLevel i (s.levelAt i).live) b).map shardNet).sum := by
  have hnet := T.ofShards_net _ _ hx
  rw [mergedShards_eq, List.map_map] at hnet
  exact hnet

theorem planned_bsm (hs : s.SoundBSM) (hslot : s.HasSlot) {hwm : Nat}
    {s₁ : ExtensionStructure T .bsm}
    (hrun : s.copy.reconstructTasks (s.roundTasks hwm) = some s₁) :
    s₁.SoundBSM ∧ (s₁.levelAt 0).getRecordCount = 0 ∧ (s₁.levelAt 0).free ≠ 0 ∧
      Coarsens shardNet s.byAge s₁.byAge := by
  have htarget := planTarget_bsm hs.counts hwm
  have hcases := reconstructTasks_copy hs.counts hwm hrun
  rw [copy_eq hs.noPending] at hcases
  rcases hcases with ⟨h0, rfl⟩ | ⟨h0, x, hx, rfl⟩
  · have hzero := htarget.2.2.mp h0
    exact ⟨hs, hzero, hslot.resolve_left (not_not_intro hzero), .refl _⟩
  · have hmerged := mergedDown_placeMerged hs htarget.1 (Nat.pos_of_ne_zero h0)
      (fun h => h0 (htarget.2.2.mpr h)) htarget.2.1 hx
    refine ⟨hmerged.sound, ?_, ?_, coarsens_placeMerged hs.counts htarget.1 ?_⟩
    · simp [hmerged.emptied, InternalLevel.getRecordCount_eq]
    · simp [hmerged.emptied]
    · rw [sum_shardNet_live htarget.2.1, zero_add, shardNet_merged hx]

theorem coarsens_round_bsm (hs : s.SoundBSM) (hslot : s.HasSlot) {hwm : Nat} {v : BufferView R}
    {s' : ExtensionStructure T .bsm} (hrun : s.round hwm v = some s') :
    s'.SoundBSM ∧ Coarsens shardNet (s.byAge ++ [(0, T.ofBuffer v)]) s'.byAge := by
  obtain ⟨s₁, hs₁, hflush⟩ := Option.bind_eq_some_iff.mp hrun
  obtain ⟨hsound, hzero, hfree, hplanned⟩ := planned_bsm hs hslot hs₁
  rw [flushBuffer_bsm hsound.counts hzero, InternalLevel.appendBuffer_free hfree, Option.map_some,
    Option.some.injEq] at hflush
  subst hflush
  refine ⟨sound_placeFirst_bsm hsound (hsound.noPending 0), ?_⟩
  refine (hplanned.append (.refl _)).trans (coarsens_placeFirst ?_)
  rw [onLevel_put]
  exact .refl _

end BSM

/-- The runs from the empty structure with the views that they flushed, oldest first. Under
BSM level 0 holds a record or has a free slot before each round. -/
inductive FlushRun (T : ShardType R) (L : LayoutPolicy) (hwm scale : Nat) :
    List (BufferView R) → ExtensionStructure T L → Prop
  | new : FlushRun T L hwm scale [] (new T L hwm scale)
  | round {vs : List (BufferView R)} {v : BufferView R} {s s' : ExtensionStructure T L}
      (hs : FlushRun T L hwm scale vs s) (hslot : s.FindsSlot) (hv : v.getRecordCount ≤ hwm)
      (hrun : s.round hwm v = some s') : FlushRun T L hwm scale (vs ++ [v]) s'

namespace FlushRun
variable {hwm scale : Nat} {vs : List (BufferView R)}

theorem reachable {s : ExtensionStructure T L} (hs : FlushRun T L hwm scale vs s) :
    Reachable T L hwm scale s := by
  induction hs with
  | new => exact .new
  | round _ _ hv hrun ih => exact ih.round hv hrun

theorem sound_bsm {s : ExtensionStructure T .bsm} (hs : FlushRun T .bsm hwm scale vs s) :
    s.SoundBSM := by
  induction hs with
  | new => exact sound_new_bsm T hwm scale
  | round _ hslot _ hrun ih => exact (coarsens_round_bsm ih hslot hrun).1

theorem coarsens {s s' : ExtensionStructure T L} (hs : FlushRun T L hwm scale vs s)
    (hslot : s.FindsSlot) {v : BufferView R} (hrun : s.round hwm v = some s') :
    Coarsens shardNet (s.byAge ++ [(0, T.ofBuffer v)]) s'.byAge := by
  by_cases h : L = .bsm
  · subst h
    exact (coarsens_round_bsm hs.sound_bsm hslot hrun).2
  · exact coarsens_round h (hs.reachable.settled h).1 hrun

theorem covers {s : ExtensionStructure T L} (hs : FlushRun T L hwm scale vs s) :
    Blocks.Covers shardNet s.byAge (vs.map fun v => De.net v.records) := by
  induction hs with
  | new => exact .nil
  | @round vs v s s' hs hslot _ hrun ih =>
    refine hs.coarsens hslot hrun _ ?_
    rw [List.map_append, List.map_cons, List.map_nil]
    have hnet : shardNet (0, T.ofBuffer v) = [De.net v.records].sum := by
      rw [List.sum_singleton]
      exact T.ofBuffer_net v
    exact ih.append (.singleton hnet)

theorem regroup {s s' : ExtensionStructure T L} (hs : FlushRun T L hwm scale vs s)
    (hslot : s.FindsSlot) {v : BufferView R} (hrun : s.round hwm v = some s') :
    Regroup T (s.shards + {T.ofBuffer v}) s'.shards := by
  by_cases h : L = .bsm
  · subst h
    have hsound := hs.sound_bsm
    obtain ⟨s₁, hs₁, hflush⟩ := Option.bind_eq_some_iff.mp hrun
    have hmerge : ∀ xs ∈ s.roundMergesBSM hwm, (T.ofShards xs).isSome := by
      intro xs hxs
      have hcases := reconstructTasks_copy hsound.counts hwm hs₁
      rw [copy_eq hsound.noPending] at hcases
      obtain ⟨h0, -⟩ | ⟨h0, x, hx, -⟩ := hcases
      · simp [roundMergesBSM, h0] at hxs
      · rw [roundMergesBSM, if_neg h0, List.mem_singleton] at hxs
        rw [hxs, hx]
        rfl
    obtain ⟨s₂, s₃, hs₂, hflush₂, -, hr, -⟩ := round_slot hsound hmerge hslot v
    obtain rfl := Option.some.inj (hs₁.symm.trans hs₂)
    obtain rfl := Option.some.inj (hflush.symm.trans hflush₂)
    exact hr
  · exact (round_spec h (hs.reachable.settled h).1 hrun).regroup

theorem live {s : ExtensionStructure T L} (hs : FlushRun T L hwm scale vs s)
    (hvs : ∀ v ∈ vs, ∀ w ∈ v.records, w.isDeleted = false) :
    ∀ x ∈ s.shards, ∀ w ∈ T.records x, w.isDeleted = false := by
  induction hs with
  | new => exact fun x hx => absurd hx (Multiset.notMem_zero x)
  | round hs hslot _ hrun ih =>
    exact DynamicExtension.shardsLive_regroup (hs.regroup hslot hrun)
      (ih fun v hv => hvs v (List.mem_append_left _ hv))
      (hvs _ (List.mem_append_right _ (List.mem_singleton_self _)))

end FlushRun

/-- Read from the deepest level up and in slot order, the shards net consecutive blocks of
the flushed views. -/
theorem recency_order {hwm scale : Nat} {vs : List (BufferView R)} {s : ExtensionStructure T L}
    (hs : FlushRun T L hwm scale vs s) :
    Blocks.Covers shardNet s.byAge (vs.map fun v => De.net v.records) :=
  hs.covers

theorem recency_order_sample :
    ∃ s : ExtensionStructure (ShardType.lists Nat) .bsm,
      (new _ .bsm 1 2).rounds 1 [sampleView [(1, false)], sampleView [(1, true)]] = some s ∧
      Blocks.Covers shardNet s.byAge
        ([sampleView [(1, false)], sampleView [(1, true)]].map fun v => De.net v.records) := by
  have h : ((new (ShardType.lists Nat) .bsm 1 2).round 1 (sampleView [(1, false)])).any
      (fun s => s.FindsSlot ∧ (s.round 1 (sampleView [(1, true)])).isSome) = true := by decide
  obtain ⟨s₁, hs₁, hnext⟩ := (Option.any_eq_true _ _).mp h
  obtain ⟨hslot, hsome⟩ := of_decide_eq_true hnext
  obtain ⟨s, hs⟩ := Option.isSome_iff_exists.mp hsome
  refine ⟨s, by simp [rounds, hs₁, hs], ?_⟩
  exact recency_order ((FlushRun.new.round (by decide) (by decide) hs₁).round hslot (by decide) hs)

end ExtensionStructure

namespace Call

theorem Legal.of_append {as bs : List (Call R)} (h : Legal (as ++ bs)) : Legal as := by
  intro i rec hi
  have hlt := (List.getElem?_eq_some_iff.mp hi).1
  have := h i rec (by rw [List.getElem?_append_left hlt]; exact hi)
  rwa [List.take_append_of_le_length hlt.le] at this

theorem Legal.netOf_nonneg {calls : List (Call R)} (h : Legal calls) (r : R) :
    0 ≤ netOf calls r := by
  have := h.count_le r
  rw [netOf_eq_count]
  omega

end Call

namespace DynamicExtension
open ExtensionStructure
variable [Zero R] {lwm hwm scale : Nat} {d : DynamicExtension T L} {e : Epoch T L}

/-- The structure came out of a run that flushed the calls in groups, and the buffer holds
the calls since the last flush. -/
structure Grouped (lwm hwm scale : Nat) (d : DynamicExtension T L) (e : Epoch T L)
    (groups : List (List (Call R))) (recent : List (Call R)) : Prop where
  serving : Serving lwm hwm d e 0 0
  run : ∃ vs, FlushRun T L hwm scale vs e.vers ∧
    vs.map (fun v => De.net v.records) = groups.map netOf
  buffer : d.buffer.records.map Wrapped.payload = recent.map fun c => (c.record, c.tombstone)

omit [Zero R] in
theorem Grouped.append {groups : List (List (Call R))} {recent : List (Call R)}
    (h : Grouped lwm hwm scale d e groups recent) {d' : DynamicExtension T L} {c : Call R}
    {pos : Nat} (hs : Serving lwm hwm d' e 0 0)
    (hrec : d'.buffer.records =
      d.buffer.records ++ [MutableBuffer.slotContent c.record c.tombstone pos]) :
    Grouped lwm hwm scale d' e groups (recent ++ [c]) :=
  ⟨hs, h.run, by simp [hrec, h.buffer, Wrapped.payload]⟩

omit [Zero R] in
theorem Grouped.flush {groups : List (List (Call R))} {recent : List (Call R)}
    (h : Grouped lwm hwm scale d e groups recent) {d' : DynamicExtension T L} {e' : Epoch T L}
    (hslot : e.vers.FindsSlot) (hround : e.vers.round hwm (e.view d.buffer) = some e'.vers)
    {c : Call R} {pos : Nat} (hs : Serving lwm hwm d' e' 0 0)
    (hrec : d'.buffer.records = [MutableBuffer.slotContent c.record c.tombstone pos]) :
    Grouped lwm hwm scale d' e' (groups ++ [recent]) [c] := by
  obtain ⟨vs, hrun, hvs⟩ := h.run
  refine ⟨hs, ⟨vs ++ [e.view d.buffer], hrun.round hslot h.serving.view_le hround, ?_⟩, ?_⟩
  · have hview : De.net (e.view d.buffer).records = netOf recent := by
      rw [h.serving.view_records, net_payload h.buffer]
    simp [hvs, hview]
  · simp [hrec, Wrapped.payload]

theorem Grouped.call (hT : T.MergesRecords) (hlwm : 0 < lwm) (hle : lwm ≤ hwm)
    {groups : List (List (Call R))} {recent : List (Call R)}
    (h : Grouped lwm hwm scale d e groups recent) (hok : d.CallOk) (logging : Bool)
    (c : Call R) : ∃ d' e' groups' recent', d.call logging c = some (1, d') ∧
      Grouped lwm hwm scale d' e' groups' recent' ∧
      groups'.flatten ++ recent' = groups.flatten ++ recent ++ [c] := by
  rw [call_eq]
  by_cases hat : d.buffer.isAtLowWatermark
  · obtain ⟨s, b, hround, -, hcall, hs, ha⟩ :=
      h.serving.internalAppend_at hT hlwm hok hat c.record c.tombstone logging
    obtain ⟨pos, hrec⟩ := ha.records
    rw [flushed_records, List.nil_append] at hrec
    have hslot := (hok.round hat e (by rw [h.serving.idle.current])).slot
    exact ⟨_, _, _, _, hcall, h.flush hslot hround hs hrec, by simp⟩
  · have hlow : d.buffer.getRecordCount < d.buffer.lwm := by
      simpa [MutableBuffer.isAtLowWatermark] using hat
    obtain ⟨b, hcall, hs, ha⟩ :=
      h.serving.internalAppend_below hle hok.slot hlow c.record c.tombstone logging
    obtain ⟨pos, hrec⟩ := ha.records
    exact ⟨_, e, groups, _, hcall, h.append hs hrec, by simp⟩

theorem Grouped.calls (hT : T.MergesRecords) (hlwm : 0 < lwm) (hle : lwm ≤ hwm) (logging : Bool)
    {groups : List (List (Call R))} {recent calls : List (Call R)}
    (h : Grouped lwm hwm scale d e groups recent) (hok : d.RunOk logging calls) :
    ∃ d' e' groups' recent', d.run logging calls = some d' ∧
      Grouped lwm hwm scale d' e' groups' recent' ∧
      groups'.flatten ++ recent' = groups.flatten ++ recent ++ calls := by
  induction calls generalizing d e groups recent with
  | nil => exact ⟨d, e, groups, recent, rfl, h, by simp⟩
  | cons c calls ih =>
    obtain ⟨hc, hrest⟩ := (runOk_cons logging d c calls).mp hok
    obtain ⟨d₁, e₁, groups₁, recent₁, hcall, h₁, hcalls₁⟩ := h.call hT hlwm hle hc logging c
    obtain ⟨d', e', groups', recent', hrun, h', hcalls'⟩ := ih h₁ (hrest _ hcall)
    exact ⟨d', e', groups', recent', by rw [run_cons hcall, hrun], h', by simp [hcalls', hcalls₁]⟩

omit [Zero R] in
theorem sum_netOf (calls : List (Call R)) :
    (calls.map fun c => netOf [c]).sum = netOf calls := by
  induction calls with
  | nil => rfl
  | cons c calls ih => rw [List.map_cons, List.sum_cons, ih, ← netOf_append, List.singleton_append]

omit [Zero R] in
theorem Grouped.covers {groups : List (List (Call R))} {recent : List (Call R)}
    (h : Grouped lwm hwm scale d e groups recent) :
    Blocks.Covers shardNet e.vers.byAge (groups.flatten.map fun c => netOf [c]) := by
  obtain ⟨vs, hrun, hvs⟩ := h.run
  have hcov := hrun.covers
  have hsums : groups.map netOf =
      (groups.map fun g => g.map fun c => netOf [c]).map List.sum := by
    rw [List.map_map]
    exact List.map_congr_left fun g _ => (sum_netOf g).symm
  rw [hvs, hsums] at hcov
  rw [List.map_flatten]
  exact hcov.refine

theorem grouped_new (T : ShardType R) (L : LayoutPolicy) (hlwm : 0 < lwm) (hle : lwm ≤ hwm)
    (hscale : 0 < scale) (hbsm : L = .bsm → scale = 2) {log : Option (List (WALEntry R))}
    (hlog : ∀ file, log = some file → file = []) :
    ∃ d e, new T L lwm hwm scale none log = some d ∧ Grouped lwm hwm scale d e [] [] := by
  obtain ⟨d, e, hnew, h⟩ := tracks_new T L hlwm hle hscale hbsm hlog
  have heq := (new_eq T L hlwm hle hbsm hlog).symm.trans hnew
  have hcur := h.serving.idle.current
  rw [← Option.some.inj heq] at hcur
  have he : e.vers = ExtensionStructure.new T L hwm scale := by
    rw [← Option.some.inj (congrArg EpochPtr.epoch hcur)]
  obtain ⟨old, recent, hcalls, -, hpay⟩ := h.split
  obtain ⟨rfl, rfl⟩ := List.append_eq_nil_iff.mp hcalls.symm
  exact ⟨d, e, hnew, h.serving, ⟨[], by rw [he]; exact .new, rfl⟩, hpay⟩

/-- A run of calls in order: the buffer holds the last calls, and the shards, from the
oldest to the newest, net consecutive blocks of the calls before. If every erase names a
live record, no record has more tombstones than live copies on the shards up to any age. -/
theorem levels_hold_history (T : ShardType R) (L : LayoutPolicy) (hT : T.MergesRecords)
    (hlwm : 0 < lwm) (hle : lwm ≤ hwm) (hscale : 0 < scale) (hbsm : L = .bsm → scale = 2)
    {log : Option (List (WALEntry R))} (hlog : ∀ file, log = some file → file = [])
    (logging : Bool) :
    ∃ d₀, new T L lwm hwm scale none log = some d₀ ∧ ∀ calls, d₀.RunOk logging calls →
      ∃ d e old recent, d₀.run logging calls = some d ∧ d.currentEpoch.epoch = some e ∧
        calls = old ++ recent ∧
        d.buffer.records.map Wrapped.payload = recent.map (fun c => (c.record, c.tombstone)) ∧
        Blocks.Covers shardNet e.vers.byAge (old.map fun c => netOf [c]) ∧
        (Call.Legal calls → ∀ older newer, e.vers.byAge = older ++ newer → ∀ r,
          0 ≤ (older.map shardNet).sum r) := by
  obtain ⟨d₀, e₀, hnew, h₀⟩ := grouped_new T L hlwm hle hscale hbsm hlog
  refine ⟨d₀, hnew, fun calls hok => ?_⟩
  obtain ⟨d, e, groups, recent, hrun, h, hcalls⟩ := h₀.calls hT hlwm hle logging hok
  have hcov := h.covers
  refine ⟨d, e, groups.flatten, recent, hrun, by rw [h.serving.idle.current], hcalls.symm,
    h.buffer, hcov, fun hlegal older newer hsplit r => ?_⟩
  rw [hsplit] at hcov
  obtain ⟨early, late, hmap, holder, -⟩ := hcov.sum_append
  obtain ⟨before, after, hflat, hbefore, -⟩ := List.map_eq_append_iff.mp hmap
  -- what the older shards hold is what the index held at an earlier moment
  have hpast : (older.map shardNet).sum = netOf before := by
    rw [holder, ← hbefore, sum_netOf]
  rw [hpast]
  have hsplits : calls = before ++ (after ++ recent) := by
    have := hcalls.symm
    simpa [hflat] using this
  exact Call.Legal.netOf_nonneg (Call.Legal.of_append (hsplits ▸ hlegal)) r

theorem levels_hold_history_sample :
    let calls : List (Call Nat) := [.insert 1, .insert 2, .erase 1, .insert 3]
    ∃ d₀ d e, new (ShardType.lists Nat) .leveling 1 1 2 none none = some d₀ ∧
      d₀.run false calls = some d ∧ d.currentEpoch.epoch = some e ∧
      ∀ older newer, e.vers.byAge = older ++ newer → ∀ r,
        0 ≤ (older.map shardNet).sum r := by
  intro calls
  obtain ⟨d₀, hnew, hall⟩ := levels_hold_history (ShardType.lists Nat) .leveling (fun _ _ => rfl)
    (show 0 < 1 by decide) (show 1 ≤ 1 by decide) (show 0 < 2 by decide) (by decide)
    (show ∀ file, none = some file → file = [] by simp) false
  have hok : ∀ d ∈ new (ShardType.lists Nat) .leveling 1 1 2 none none, d.RunOk false calls := by
    decide +kernel
  obtain ⟨d, e, -, -, hrun, he, -, -, -, hlegal⟩ := hall calls (hok d₀ hnew)
  exact ⟨d₀, d, e, hnew, hrun, he, hlegal (by decide)⟩

end DynamicExtension

end De

import DynamicExtension.RangeScan
import DynamicExtension.SnapshotReads
set_option autoImplicit false

namespace De

theorem netAppended_eq_count {R : Type} [DecidableEq R] (cs : List (R × Bool)) (r : R) :
    netAppended cs r = cs.count (r, false) - cs.count (r, true) := by
  induction cs with
  | nil => rfl
  | cons c cs ih =>
    have hcons : netAppended (c :: cs) r = unit (Wrapped.fresh c.1 c.2) r + netAppended cs r := by
      rw [netAppended, List.map_cons, net_cons]
      rfl
    obtain ⟨q, ts⟩ := c
    rw [hcons, ih, List.count_cons, List.count_cons]
    cases ts <;> by_cases hq : q = r <;> simp [unit, hq]
    all_goals omega

namespace ReadSystem
variable {K V : Type} [LinearOrder K] [LinearOrder V] [Zero K] [Zero V] {lay : NodeLayout}
  {std : StdLib (Record K V)} {L : LayoutPolicy} {lwm hwm scale : Nat}
  {s : ReadSystem (ISAMTree.shardType lay std) L} {e : Epoch (ISAMTree.shardType lay std) L}

omit [Zero K] [Zero V] in
theorem Inv.live_copies (h : Inv hwm scale s)
    (he : e ∈ s.ext.currentEpoch.epoch ∨ e ∈ s.ext.previousEpoch.epoch) {v : Nat × Nat}
    (hv : v ∈ s.views) : ∀ w ∈ (s.bufferRun.viewOf v).records ++
      (e.vers.getShards.map (ISAMTree.shardType lay std).records).flatten, w.isDeleted = false := by
  intro w hw
  rcases List.mem_append.mp hw with hw | hw
  · exact h.run.live_view (List.mem_append_left _ hv) w hw
  · obtain ⟨-, vs, hflush, -, hlive⟩ := h.used e he
    obtain ⟨l, hl, hwl⟩ := List.mem_flatten.mp hw
    obtain ⟨x, hx, rfl⟩ := List.mem_map.mp hl
    exact hflush.live hlive x (ExtensionStructure.mem_getShards.mp hx) w hwl

/-- A range scan on a pinned epoch with a view taken through it returns each record of the
range as often as the appends before the view inserted it more than they erased it. -/
theorem scans_exact (h : Reached lwm hwm scale s) (he : e ∈ s.pins) {v : Nat × Nat}
    (hv : v ∈ s.views) (hhead : v.1 = e.bufferHead) (start finish : Record K V) :
    ∃ it out, RangeScanIterator.new lay std (s.bufferRun.viewOf v)
        (e.vers.getShards.map Subtype.val) start finish = some it ∧
      it.drain lay (out.length + 1) = some out ∧ out.Pairwise (· ≤ ·) ∧
      ∀ r, out.count r = if start.key ≤ r.key ∧ r.key ≤ finish.key then
        (s.appended.take v.2).count (r, false) - (s.appended.take v.2).count (r, true) else 0 := by
  obtain ⟨it, out, hnew, hreturns, hof⟩ :=
    DynamicExtension.exists_scan (s.bufferRun.viewOf v) e start finish
  have huse := h.inv.pinned he
  refine ⟨it, out, hnew, hreturns.drain, hof.sorted, fun r => ?_⟩
  have hnet := h.inv.reads huse hv hhead
  rw [hof.count, visible_eq_net (h.inv.live_copies huse hv), net_append,
    ExtensionStructure.net_getShards, add_comm, hnet, netAppended_eq_count, Int.toNat_sub]

/-- A view with an insert and an erase of other records; then a reconstruction, and one more
insert that the scan does not see. -/
theorem scans_exact_sample :
    ∃ (s : ReadSystem (ISAMTree.shardType NodeLayout.words (StdLib.sorted (Record Nat Nat)))
        .leveling)
      (e : Epoch (ISAMTree.shardType NodeLayout.words (StdLib.sorted (Record Nat Nat))) .leveling)
      (out : List (Record Nat Nat)),
      s.ext.currentEpoch.epoch.map Epoch.bufferHead = some 2 ∧
      (RangeScanIterator.new NodeLayout.words (StdLib.sorted _) (s.bufferRun.viewOf (0, 2))
        (e.vers.getShards.map Subtype.val) ⟨0, 0⟩ ⟨9, 0⟩).bind
          (·.drain NodeLayout.words (out.length + 1)) = some out ∧
      out.count ⟨1, 5⟩ = 1 ∧ out.count ⟨2, 6⟩ = 0 := by
  set e : Epoch (ISAMTree.shardType NodeLayout.words (StdLib.sorted (Record Nat Nat)))
    .leveling := ⟨0, .new _ _ 3 2, 0⟩
  have hnew : DynamicExtension.new (ISAMTree.shardType NodeLayout.words
      (StdLib.sorted (Record Nat Nat))) .leveling 1 3 2 none none =
      some ⟨.empty 1 3 none, false, 0, ⟨none, 0⟩, ⟨some e, 0⟩, ⟨none, 0⟩⟩ := rfl
  obtain ⟨s, hs, he, hcurrent, hviews, happended⟩ : ∃ s, Reached 1 3 2 s ∧ e ∈ s.pins ∧
      s.ext.currentEpoch.epoch.map Epoch.bufferHead = some 2 ∧ (0, 2) ∈ s.views ∧
      s.appended = [(⟨1, 5⟩, false), (⟨2, 6⟩, true), (⟨2, 6⟩, false)] := by
    have happend := ((Reached.new (by simp) hnew).step
      (.append (by decide) ⟨1, 5⟩ false false)).step (.append (by decide) ⟨2, 6⟩ true false)
    have hread := (happend.step (.pin (e := e) rfl)).step (.acquire (e := e) (by simp) rfl)
    have hcreate := hread.step (.create rfl (by simp [ExtensionStructure.FindsSlot]) rfl rfl)
    have hflush := ((hcreate.step (.capture rfl rfl rfl rfl)).step (.flush rfl rfl rfl rfl)).step
      (.letGo rfl rfl rfl)
    have hadvance := (((hflush.step (.retire rfl rfl rfl)).step (.move rfl)).step
      (.advanceHead rfl rfl rfl rfl)).step (.install rfl)
    exact ⟨_, hadvance.step (.append (by decide) ⟨2, 6⟩ false false), by simp, rfl,
      List.mem_singleton.mpr rfl, rfl⟩
  obtain ⟨it, out, hit, hdrain, -, hcount⟩ :=
    scans_exact hs he hviews rfl (⟨0, 0⟩ : Record Nat Nat) ⟨9, 0⟩
  rw [happended] at hcount
  exact ⟨s, e, out, hcurrent, by rw [hit]; exact hdrain, by rw [hcount]; rfl,
    by rw [hcount]; rfl⟩

end ReadSystem

end De

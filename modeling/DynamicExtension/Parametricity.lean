import DynamicExtension.Reload
import Mathlib.Data.List.Forall2
set_option autoImplicit false

namespace De
variable {R : Type} [DecidableEq R] {T T' : ShardType R} {L : LayoutPolicy}
variable {r : T.Shard → T'.Shard → Prop}

theorem getElem?_rel {α β : Type} {q : α → β → Prop} {xs : List α} {ys : List β}
    (h : List.Forall₂ q xs ys) (i : Nat) : Option.Rel q xs[i]? ys[i]? := by
  induction h generalizing i with
  | nil => exact .none
  | cons h _ ih =>
    cases i with
    | zero => exact .some h
    | succ i => exact ih i

theorem forall₂_of_getElem?_rel {α β : Type} {q : α → β → Prop} {xs : List α} {ys : List β}
    (h : ∀ i : Nat, Option.Rel q xs[i]? ys[i]?) : List.Forall₂ q xs ys := by
  induction xs generalizing ys with
  | nil =>
    cases ys with
    | nil => exact .nil
    | cons y ys => exact nomatch h 0
  | cons x xs ih =>
    cases ys with
    | nil => exact nomatch h 0
    | cons y ys => exact .cons (Option.rel_some_some.mp (h 0)) (ih fun i => h (i + 1))

theorem set_rel {α β : Type} {q : α → β → Prop} {xs : List α} {ys : List β}
    (h : List.Forall₂ q xs ys) (i : Nat) {x : α} {y : β} (hxy : q x y) :
    List.Forall₂ q (xs.set i x) (ys.set i y) := by
  induction h generalizing i with
  | nil => exact .nil
  | cons h hrest ih =>
    cases i with
    | zero => exact .cons hxy hrest
    | succ i => exact .cons h (ih i)

theorem guard_rel {α β : Type} {q : α → β → Prop} {p : Prop} [Decidable p] {a : Option α}
    {b : Option β} (h : p → Option.Rel q a b) :
    Option.Rel q (do guard p; a) (do guard p; b) := by
  by_cases hp : p
  · simpa [guard, hp] using h hp
  · simp [guard, hp]

theorem isNone_rel {α β : Type} {q : α → β → Prop} {a : Option α} {b : Option β}
    (h : Option.Rel q a b) : a.isNone = b.isNone := by
  cases h <;> rfl

/-- The constructors of two shard types take related shards to related shards, and related
shards count the same. -/
structure ShardType.Related (T T' : ShardType R) (r : T.Shard → T'.Shard → Prop) : Prop where
  ofBuffer : ∀ v, r (T.ofBuffer v) (T'.ofBuffer v)
  ofShards : ∀ xs ys, List.Forall₂ r xs ys → Option.Rel r (T.ofShards xs) (T'.ofShards ys)
  recordCount : ∀ x y, r x y → T.recordCount x = T'.recordCount y

/-! The structure does nothing with a shard but count it, hand it to a constructor and keep
it, so it takes related shards to related shards. -/

namespace InternalLevel

structure Related (r : T.Shard → T'.Shard → Prop) (l : InternalLevel T) (l' : InternalLevel T') :
    Prop where
  levelNo : l.levelNo = l'.levelNo
  free : l.free = l'.free
  live : List.Forall₂ r l.live l'.live
  pending : Option.Rel r l.pendingShard l'.pendingShard

theorem related_ofSlots {xs : List T.Shard} {ys : List T'.Shard} {p : Option T.Shard}
    {p' : Option T'.Shard} (n f : Nat) (hlive : List.Forall₂ r xs ys) (hp : Option.Rel r p p') :
    Related r (ofSlots T n xs f p) (ofSlots T' n ys f p') :=
  ⟨rfl, by simp, by simpa using hlive, hp⟩

theorem related_new (r : T.Shard → T'.Shard → Prop) (n c : Nat) :
    Related r (new T n c) (new T' n c) :=
  related_ofSlots n c .nil .none

section Related
variable {l k : InternalLevel T} {l' k' : InternalLevel T'} (h : Related r l l')
include h

theorem Related.shardCnt : l.shardCnt = l'.shardCnt := by
  rw [← l.length_live, ← l'.length_live, h.live.length_eq]

theorem Related.getShardCount : l.getShardCount = l'.getShardCount := h.shardCnt

theorem Related.length_shards : l.shards.length = l'.shards.length := by
  rw [l.length_shards, l'.length_shards, h.shardCnt, h.free]

theorem Related.put {x : T.Shard} {y : T'.Shard} (hxy : r x y) :
    Related r (l.put x) (l'.put y) := by
  rw [InternalLevel.put, InternalLevel.put, h.levelNo, h.free]
  exact related_ofSlots _ _ (List.rel_append h.live (.cons hxy .nil)) h.pending

theorem Related.getRecordCount (hT : T.Related T' r) : l.getRecordCount = l'.getRecordCount := by
  rw [l.getRecordCount_eq, l'.getRecordCount_eq]
  have hcounts : l.live.map T.recordCount = l'.live.map T'.recordCount := by
    rw [← List.forall₂_eq_eq_eq]
    exact List.rel_map (fun x y hxy => hT.recordCount x y hxy) h.live
  rw [hcounts]

theorem Related.appendLevel (hT : T.Related T' r) (hk : Related r k k') :
    Option.Rel (Related r) (l.appendLevel k) (l'.appendLevel k') := by
  simp only [InternalLevel.appendLevel, hk.shardCnt]
  by_cases hnil : k'.shardCnt = 0
  · rw [if_pos hnil, if_pos hnil]
    exact .some h
  · rw [if_neg hnil, if_neg hnil]
    refine rel_bind (hT.ofShards _ _ hk.live) fun x y hxy => ?_
    rw [h.shardCnt, h.length_shards]
    by_cases hfull : l'.shardCnt = l'.shards.length
    · rw [if_pos hfull, if_pos hfull, h.levelNo, h.free]
      exact .some (related_ofSlots _ _ h.live (.some hxy))
    · rw [if_neg hfull, if_neg hfull]
      exact .some (h.put hxy)

theorem Related.finalize : Option.Rel (Related r) l.finalize l'.finalize := by
  have hpending := h.pending
  rw [InternalLevel.finalize, InternalLevel.finalize]
  cases hp : l.pendingShard with
  | none =>
    cases hp' : l'.pendingShard with
    | none => exact .some h
    | some y =>
      rw [hp, hp'] at hpending
      cases hpending
  | some x =>
    cases hp' : l'.pendingShard with
    | none =>
      rw [hp, hp'] at hpending
      cases hpending
    | some y =>
      rw [hp, hp', Option.rel_some_some] at hpending
      simp only [h.length_shards, h.levelNo]
      exact guard_rel fun _ => .some (related_ofSlots _ _ (.cons hpending .nil) .none)

theorem Related.reconstruction (hT : T.Related T' r) (hk : Related r k k') :
    Option.Rel (Related r) (InternalLevel.reconstruction l k)
      (InternalLevel.reconstruction l' k') := by
  simp only [InternalLevel.reconstruction, h.levelNo, hk.levelNo, shards_getElem?]
  refine guard_rel fun _ => ?_
  refine rel_bind (getElem?_rel h.live 0) fun a a' ha => ?_
  refine rel_bind (getElem?_rel hk.live 0) fun b b' hb => ?_
  refine rel_bind (hT.ofShards _ _ (.cons ha (.cons hb .nil))) fun x y hxy => ?_
  exact .some (related_ofSlots _ _ (.cons hxy .nil) .none)

theorem Related.appendBuffer (hT : T.Related T' r) (v : BufferView R) :
    Option.Rel (Related r) (l.appendBuffer v) (l'.appendBuffer v) := by
  simp only [InternalLevel.appendBuffer, h.shardCnt, h.length_shards]
  by_cases hfull : l'.shardCnt = l'.shards.length
  · rw [if_pos hfull, if_pos hfull, isNone_rel h.pending, h.levelNo, h.free]
    exact guard_rel fun _ => .some (related_ofSlots _ _ h.live (.some (hT.ofBuffer v)))
  · rw [if_neg hfull, if_neg hfull]
    exact .some (h.put (hT.ofBuffer v))

end Related

theorem related_reconstructionAll (hT : T.Related T' r) {ls : List (InternalLevel T)}
    {ls' : List (InternalLevel T')} (h : List.Forall₂ (Related r) ls ls') (n : Nat) :
    Option.Rel (Related r) (reconstructionAll ls n) (reconstructionAll ls' n) := by
  have hlive : List.Forall₂ r (ls.flatMap live) (ls'.flatMap live) :=
    List.rel_flatMap h fun l l' hl => hl.live
  refine rel_bind (hT.ofShards _ _ hlive) fun x y hxy => ?_
  exact .some (related_ofSlots _ _ (.cons hxy .nil) .none)

end InternalLevel

namespace ExtensionStructure

structure Related (r : T.Shard → T'.Shard → Prop) (s : ExtensionStructure T L)
    (s' : ExtensionStructure T' L) : Prop where
  scaleFactor : s.scaleFactor = s'.scaleFactor
  bufferSize : s.bufferSize = s'.bufferSize
  flushSeq : s.flushSeq = s'.flushSeq
  levels : List.Forall₂ (InternalLevel.Related r) s.levels s'.levels
  currentState : s.currentState = s'.currentState

theorem combine_related (hT : T.Related T' r) {b i : InternalLevel T} {b' i' : InternalLevel T'}
    (hb : InternalLevel.Related r b b') (hi : InternalLevel.Related r i i') :
    Option.Rel (InternalLevel.Related r) (combine L b i) (combine L b' i') := by
  cases L with
  | leveling =>
    simp only [combine, hb.getShardCount]
    by_cases hpos : b'.getShardCount > 0
    · rw [if_pos hpos, if_pos hpos]
      exact hb.reconstruction hT hi
    · rw [if_neg hpos, if_neg hpos]
      exact .some hi
  | teiring | bsm =>
    exact rel_bind (hb.appendLevel hT hi) fun l l' hl => hl.finalize

theorem flushLevel_related (hT : T.Related T' r) {l : InternalLevel T} {l' : InternalLevel T'}
    (h : InternalLevel.Related r l l') (v : BufferView R) :
    Option.Rel (InternalLevel.Related r) (flushLevel L l v) (flushLevel L l' v) := by
  cases L with
  | leveling =>
    simp only [flushLevel, Option.bind_eq_bind, h.getShardCount]
    refine rel_bind ((InternalLevel.related_new r 0 1).appendBuffer hT v) fun k k' hk => ?_
    by_cases hpos : l'.getShardCount > 0
    · rw [if_pos hpos, if_pos hpos]
      exact h.reconstruction hT hk
    · rw [if_neg hpos, if_neg hpos]
      exact .some hk
  | teiring | bsm => exact h.appendBuffer hT v

section Related
variable {s : ExtensionStructure T L} {s' : ExtensionStructure T' L} (h : Related r s s')
include h

theorem Related.shardCapacity : s.shardCapacity = s'.shardCapacity := by
  cases L <;> simp only [ExtensionStructure.shardCapacity, h.scaleFactor]

theorem Related.calcLevelRecordCapacity (i : Nat) :
    s.calcLevelRecordCapacity i = s'.calcLevelRecordCapacity i := by
  rw [ExtensionStructure.calcLevelRecordCapacity, ExtensionStructure.calcLevelRecordCapacity,
    h.bufferSize, h.scaleFactor]

theorem Related.addLevel (i : Nat) : Related r (s.addLevel i) (s'.addLevel i) where
  scaleFactor := h.scaleFactor
  bufferSize := h.bufferSize
  flushSeq := h.flushSeq
  levels := by
    rw [ExtensionStructure.addLevel, ExtensionStructure.addLevel, h.shardCapacity]
    exact List.rel_append h.levels (.cons (InternalLevel.related_new r i _) .nil)
  currentState := by
    simp only [ExtensionStructure.addLevel, h.currentState, h.shardCapacity,
      h.calcLevelRecordCapacity]

theorem Related.reconstruction (hT : T.Related T' r) (base incoming : Nat) :
    Option.Rel (Related r) (s.reconstruction base incoming) (s'.reconstruction base incoming) := by
  have grown : Related r (if base ≥ s.levels.length then s.addLevel base else s)
      (if base ≥ s'.levels.length then s'.addLevel base else s') := by
    rw [h.levels.length_eq]
    by_cases hnew : base ≥ s'.levels.length
    · rw [if_pos hnew, if_pos hnew]
      exact h.addLevel base
    · rwa [if_neg hnew, if_neg hnew]
  refine rel_bind (getElem?_rel grown.levels base) fun b b' hb => ?_
  refine rel_bind (getElem?_rel grown.levels incoming) fun i i' hi => ?_
  refine rel_bind (combine_related hT hb hi) fun l l' hl => .some ?_
  refine ⟨grown.scaleFactor, grown.bufferSize, grown.flushSeq, ?_, ?_⟩
  · simp only [grown.shardCapacity]
    exact set_rel (set_rel grown.levels base hl) incoming (InternalLevel.related_new r _ _)
  · simp only [grown.currentState, grown.shardCapacity, grown.calcLevelRecordCapacity,
      hl.getRecordCount hT, hl.getShardCount]

theorem Related.clearSource (target source : Nat) :
    Related r (s.clearSource target source) (s'.clearSource target source) where
  scaleFactor := h.scaleFactor
  bufferSize := h.bufferSize
  flushSeq := h.flushSeq
  levels := set_rel h.levels source (InternalLevel.related_new r source 1)
  currentState := by
    simp only [ExtensionStructure.clearSource, h.currentState, h.calcLevelRecordCapacity]

theorem Related.clearSources (target : Nat) (sources : List Nat) :
    Related r (sources.foldl (fun s i => s.clearSource target i) s)
      (sources.foldl (fun s i => s.clearSource target i) s') := by
  induction sources generalizing s s' with
  | nil => exact h
  | cons i sources ih => exact ih (h.clearSource target i)

theorem Related.sources (sources : List Nat) :
    Option.Rel (List.Forall₂ (InternalLevel.Related r)) (sources.mapM (s.levels[·]?))
      (sources.mapM (s'.levels[·]?)) := by
  induction sources with
  | nil => exact .some .nil
  | cons i sources ih =>
    rw [List.mapM_cons, List.mapM_cons]
    refine rel_bind (getElem?_rel h.levels i) fun l l' hl => ?_
    exact rel_bind ih fun ls ls' hls => .some (.cons hl hls)

theorem Related.reconstructionTask (hT : T.Related T' r) (task : ReconstructionTask) :
    Option.Rel (Related r) (s.reconstructionTask task) (s'.reconstructionTask task) := by
  refine rel_bind (h.sources task.sources) fun ls ls' hls => ?_
  refine rel_bind (InternalLevel.related_reconstructionAll hT hls task.target)
    fun l l' hl => .some ?_
  simp only [hl.getRecordCount hT, h.calcLevelRecordCapacity, h.levels.length_eq]
  by_cases hnew : task.target ≥ s'.levels.length
  · rw [if_pos hnew, if_pos hnew]
    apply Related.clearSources
    refine ⟨h.scaleFactor, h.bufferSize, h.flushSeq, ?_, ?_⟩
    · exact List.rel_append h.levels (.cons hl .nil)
    · rw [h.currentState]
  · rw [if_neg hnew, if_neg hnew]
    apply Related.clearSources
    refine ⟨h.scaleFactor, h.bufferSize, h.flushSeq, ?_, ?_⟩
    · exact set_rel h.levels _ hl
    · rw [h.currentState]

theorem Related.reconstructTask (hT : T.Related T' r) (task : ReconstructionTask) :
    Option.Rel (Related r) (s.reconstructTask task) (s'.reconstructTask task) := by
  cases L with
  | bsm => exact h.reconstructionTask hT task
  | leveling | teiring =>
    simp only [ExtensionStructure.reconstructTask]
    cases task.sources[0]? with
    | none => exact .none
    | some i => exact h.reconstruction hT task.target i

theorem Related.flushBufferIntoL0 (hT : T.Related T' r) (v : BufferView R) :
    Option.Rel (Related r) (s.flushBufferIntoL0 v) (s'.flushBufferIntoL0 v) := by
  have grown : Related r (if s.levels.length = 0 then s.addLevel 0 else s)
      (if s'.levels.length = 0 then s'.addLevel 0 else s') := by
    rw [h.levels.length_eq]
    by_cases hnew : s'.levels.length = 0
    · rw [if_pos hnew, if_pos hnew]
      exact h.addLevel 0
    · rwa [if_neg hnew, if_neg hnew]
  refine rel_bind (getElem?_rel grown.levels 0) fun old old' hold => ?_
  refine rel_bind (flushLevel_related hT hold v) fun l l' hl => .some ?_
  refine ⟨grown.scaleFactor, grown.bufferSize, grown.flushSeq, set_rel grown.levels 0 hl, ?_⟩
  simp only [grown.currentState, hl.getRecordCount hT, hl.getShardCount]

theorem Related.flushBuffer (hT : T.Related T' r) (v : BufferView R) :
    Option.Rel (Related r) (s.flushBuffer v) (s'.flushBuffer v) := by
  have hgrow : (s.grow s'.currentState).2 = (s'.grow s'.currentState).2 := by
    simp only [ExtensionStructure.grow, h.levels.length_eq, h.shardCapacity,
      h.calcLevelRecordCapacity]
  simp only [ExtensionStructure.flushBuffer, h.currentState, hgrow]
  refine guard_rel fun _ => ?_
  refine rel_bind (h.flushBufferIntoL0 hT v) fun t t' ht => .some ?_
  exact ⟨ht.scaleFactor, ht.bufferSize, by rw [ht.flushSeq], ht.levels, ht.currentState⟩

theorem Related.stateOf (hT : T.Related T' r) (i : Nat) {l : InternalLevel T}
    {l' : InternalLevel T'} (hl : InternalLevel.Related r l l') :
    s.stateOf i l = s'.stateOf i l' := by
  rw [ExtensionStructure.stateOf, ExtensionStructure.stateOf, hl.getRecordCount hT,
    hl.getShardCount, h.shardCapacity, h.calcLevelRecordCapacity]

theorem Related.reloaded (hT : T.Related T' r)
    (hfile : ∀ x y, r x y → r (T.ofFile (T.file x)) (T'.ofFile (T'.file y))) :
    Related r s.reloaded s'.reloaded := by
  have hlevels : ∀ i : Nat, Option.Rel (InternalLevel.Related r) s.reloaded.levels[i]?
      s'.reloaded.levels[i]? := by
    intro i
    rw [levels_reloaded, levels_reloaded]
    refine rel_map (getElem?_rel h.levels i) fun l l' _ _ hl => ?_
    refine InternalLevel.related_ofSlots _ _ ?_ .none
    simp only [InternalLevel.files, List.forall₂_map_left_iff, List.forall₂_map_right_iff]
    exact hl.live.imp hfile
  have hstate : ∀ (U : ShardType R) (t : ExtensionStructure U L) (i : Nat),
      t.reloaded.currentState[i]? = t.reloaded.levels[i]?.map (t.stateOf i) := by
    intro U t i
    simp [ExtensionStructure.reloaded, List.getElem?_zipIdx, Option.map_map, Function.comp_def]
  refine ⟨h.scaleFactor, h.bufferSize, h.flushSeq, forall₂_of_getElem?_rel hlevels, ?_⟩
  apply List.ext_getElem?
  intro i
  rw [hstate, hstate]
  have hi := hlevels i
  generalize s.reloaded.levels[i]? = a at hi
  generalize s'.reloaded.levels[i]? = b at hi
  cases hi with
  | none => rfl
  | some hl => exact congrArg some (h.stateOf hT i hl)

end Related

end ExtensionStructure

end De

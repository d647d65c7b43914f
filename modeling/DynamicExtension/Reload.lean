import DynamicExtension.Checkpoint
set_option autoImplicit false

namespace De
variable {R : Type} [DecidableEq R] {T : ShardType R} {L : LayoutPolicy}

theorem rel_bind {α α' β β' : Type} {r : α → α' → Prop} {q : β → β' → Prop} {a : Option α}
    {a' : Option α'} {f : α → Option β} {f' : α' → Option β'} (h : Option.Rel r a a')
    (hf : ∀ x x', r x x' → Option.Rel q (f x) (f' x')) :
    Option.Rel q (a.bind f) (a'.bind f') := by
  cases h with
  | some h => exact hf _ _ h
  | none => exact .none

theorem rel_map {α α' β β' : Type} {r : α → α' → Prop} {q : β → β' → Prop} {a : Option α}
    {a' : Option α'} {f : α → β} {f' : α' → β'} (h : Option.Rel r a a')
    (hf : ∀ x x', a = some x → a' = some x' → r x x' → q (f x) (f' x')) :
    Option.Rel q (a.map f) (a'.map f') := by
  cases h with
  | some h => exact .some (hf _ _ rfl rfl h)
  | none => exact .none

theorem rel_imp {α α' : Type} {r q : α → α' → Prop} {a : Option α} {a' : Option α'}
    (h : Option.Rel r a a') (himp : ∀ x x', r x x' → q x x') : Option.Rel q a a' := by
  cases h with
  | some h => exact .some (himp _ _ h)
  | none => exact .none

namespace InternalLevel

def files (l : InternalLevel T) : List T.File := l.live.map T.file

theorem ofShards_rel {xs xs' : List T.Shard} (h : xs'.map T.file = xs.map T.file) :
    Option.Rel (fun x x' => T.file x' = T.file x) (T.ofShards xs) (T.ofShards xs') := by
  have hcongr := T.ofShards_congr _ _ h
  cases hx : T.ofShards xs with
  | none =>
    cases hx' : T.ofShards xs' with
    | none => exact .none
    | some x' => simp [hx, hx'] at hcongr
  | some x =>
    cases hx' : T.ofShards xs' with
    | none => simp [hx, hx'] at hcongr
    | some x' => exact .some (by simpa [hx, hx'] using hcongr)

theorem recordCount_congr {x y : T.Shard} (h : T.file x = T.file y) :
    T.recordCount x = T.recordCount y := by
  rw [T.recordCount_eq, T.recordCount_eq, T.records_congr x y h]

section Congr
variable {l l' : InternalLevel T}

theorem live_length_congr (h : l'.files = l.files) : l'.live.length = l.live.length := by
  simpa [files] using congrArg List.length h

theorem live_nil_congr (h : l'.files = l.files) : l'.live = [] ↔ l.live = [] := by
  rw [← List.length_eq_zero_iff, ← List.length_eq_zero_iff, live_length_congr h]

theorem map_live_congr {β : Type} (f : T.Shard → β)
    (hf : ∀ x y, T.file x = T.file y → f x = f y) {xs ys : List T.Shard}
    (h : xs.map T.file = ys.map T.file) : xs.map f = ys.map f := by
  induction xs generalizing ys with
  | nil => cases ys <;> simp_all
  | cons x xs ih =>
    cases ys with
    | nil => simp at h
    | cons y ys =>
      simp only [List.map_cons, List.cons.injEq] at h ⊢
      exact ⟨hf x y h.1, ih h.2⟩

theorem getRecordCount_congr (h : l'.files = l.files) : l'.getRecordCount = l.getRecordCount := by
  rw [getRecordCount_eq, getRecordCount_eq,
    map_live_congr _ (fun _ _ hxy => recordCount_congr hxy) h]

theorem net_congr (h : l'.files = l.files) : l'.net = l.net := by
  rw [net, net, map_live_congr _ (fun x y hxy => by rw [T.records_congr x y hxy]) h]

end Congr

@[simp] theorem files_ofSlots (n : Nat) (xs : List T.Shard) (f : Nat) (p : Option T.Shard) :
    (ofSlots T n xs f p).files = xs.map T.file := by simp [files]

@[simp] theorem files_new (n c : Nat) : (new T n c).files = [] := by simp [files]

@[simp] theorem files_put (l : InternalLevel T) (x : T.Shard) :
    (l.put x).files = l.files ++ [T.file x] := by simp [files]

@[simp] theorem files_clone (l : InternalLevel T) : l.clone.files = l.files := by simp [files]

/-- Two levels that hold the same files, none of them with a pending shard -/
structure Twin (l l' : InternalLevel T) : Prop where
  files : l'.files = l.files
  pending : l.pendingShard = none
  pending' : l'.pendingShard = none

theorem twin_put {l l' : InternalLevel T} (h : Twin l l') {x x' : T.Shard}
    (hx : T.file x' = T.file x) : Twin (l.put x) (l'.put x') :=
  ⟨by simp [h.files, hx], h.pending, h.pending'⟩

theorem twin_new (n n' c c' : Nat) : Twin (new T n c) (new T n' c') := ⟨by simp, rfl, rfl⟩

/-- The assertion of a two-level merge, when both levels hold a shard -/
def Numbered (base new : InternalLevel T) : Prop :=
  base.live ≠ [] → new.live ≠ [] →
    base.levelNo > new.levelNo ∨ (base.levelNo = 0 ∧ new.levelNo = 0)

theorem reconstruction_nil {base new : InternalLevel T} (h : new.live = []) :
    reconstruction base new = none := by
  simp only [reconstruction, shards_getElem?, h, List.getElem?_nil]
  cases guard (f := Option) (base.levelNo > new.levelNo ∨
    base.levelNo = 0 ∧ new.levelNo = 0) with
  | none => rfl
  | some u => cases base.live[0]? <;> rfl

theorem reconstruction_rel {base base' new new' : InternalLevel T}
    (hb : base'.files = base.files) (hn : new'.files = new.files) (hne : base.live ≠ [])
    (hno : Numbered base new) (hno' : Numbered base' new') :
    Option.Rel (fun l l' => Twin l l' ∧ l.levelNo = base.levelNo ∧ l'.levelNo = base'.levelNo)
      (reconstruction base new) (reconstruction base' new') := by
  have hne' : base'.live ≠ [] := mt (live_nil_congr hb).mp hne
  by_cases hnew : new.live = []
  · rw [reconstruction_nil hnew, reconstruction_nil ((live_nil_congr hn).mpr hnew)]
    exact .none
  · have hnew' : new'.live ≠ [] := mt (live_nil_congr hn).mp hnew
    obtain ⟨a, as, ha⟩ := List.exists_cons_of_ne_nil hne
    obtain ⟨a', as', ha'⟩ := List.exists_cons_of_ne_nil hne'
    obtain ⟨c, cs, hc⟩ := List.exists_cons_of_ne_nil hnew
    obtain ⟨c', cs', hc'⟩ := List.exists_cons_of_ne_nil hnew'
    simp only [files, ha, ha', hc, hc', List.map_cons, List.cons.injEq] at hb hn
    rw [reconstruction_eq ha hc (hno hne hnew), reconstruction_eq ha' hc' (hno' hne' hnew')]
    refine rel_map (ofShards_rel (by simp [hb.1, hn.1])) fun x x' _ _ hx => ?_
    exact ⟨⟨by simp [hx], rfl, rfl⟩, rfl, rfl⟩

end InternalLevel

namespace ExtensionStructure
open InternalLevel (Twin Numbered)

/-- What the level number of a combined level is taken from under LEVELING -/
def NumberFrom (base incoming l : InternalLevel T) : Prop :=
  base.live ≠ [] ∧ l.levelNo = base.levelNo ∨ base.live = [] ∧ l = incoming

theorem combine_rel (h : L ≠ .bsm) {b b' i i' : InternalLevel T} (hb : Twin b b') (hi : Twin i i')
    (hno : L = .leveling → Numbered b i ∧ Numbered b' i')
    (hfree : L = .teiring → i.live ≠ [] → b.free ≠ 0 ∧ b'.free ≠ 0) :
    Option.Rel (fun l l' => Twin l l' ∧
        (L = .leveling → NumberFrom b i l ∧ NumberFrom b' i' l'))
      (combine L b i) (combine L b' i') := by
  have hnil := InternalLevel.live_nil_congr hb.files
  cases L with
  | leveling =>
    have hcnt : ∀ l : InternalLevel T, (l.getShardCount > 0) = (l.live ≠ []) := by
      intro l
      simp [InternalLevel.getShardCount, ← InternalLevel.length_live, List.length_pos_iff]
    simp only [combine, hcnt]
    by_cases hne : b.live = []
    · rw [if_neg (not_not_intro hne), if_neg (not_not_intro (hnil.mpr hne))]
      exact .some ⟨hi, fun _ => ⟨.inr ⟨hne, rfl⟩, .inr ⟨hnil.mpr hne, rfl⟩⟩⟩
    · have hne' := mt hnil.mp hne
      rw [if_pos hne, if_pos hne']
      obtain ⟨hn, hn'⟩ := hno rfl
      refine rel_imp (InternalLevel.reconstruction_rel hb.files hi.files hne hn hn') ?_
      exact fun l l' hl => ⟨hl.1, fun _ => ⟨.inl ⟨hne, hl.2.1⟩, .inl ⟨hne', hl.2.2⟩⟩⟩
  | teiring =>
    have hinil := InternalLevel.live_nil_congr hi.files
    by_cases hne : i.live = []
    · simp only [combine, InternalLevel.appendLevel_nil hne,
        InternalLevel.appendLevel_nil (hinil.mpr hne), Option.bind_some,
        InternalLevel.finalize_none hb.pending, InternalLevel.finalize_none hb.pending']
      exact .some ⟨hb, by simp⟩
    · obtain ⟨hf, hf'⟩ := hfree rfl hne
      simp only [combine, InternalLevel.appendLevel_free hf hne,
        InternalLevel.appendLevel_free hf' (mt hinil.mp hne)]
      refine rel_bind (rel_map (InternalLevel.ofShards_rel hi.files)
        (q := fun l l' => Twin l l') fun x x' _ _ hx => InternalLevel.twin_put hb hx) ?_
      intro l l' hl
      rw [InternalLevel.finalize_none hl.pending, InternalLevel.finalize_none hl.pending']
      exact .some ⟨hl, by simp⟩
  | bsm => exact absurd rfl h

/-- Two levels before a flush: both have a free slot for the buffer, or under BSM
neither has. -/
def FlushAlike (L : LayoutPolicy) (l l' : InternalLevel T) : Prop :=
  match L with
  | .leveling => True
  | .teiring => l.free ≠ 0 ∧ l'.free ≠ 0
  | .bsm => l.free = 0 ↔ l'.free = 0

theorem appendBuffer_rel {l l' : InternalLevel T} (h : Twin l l')
    (hfree : l.free = 0 ↔ l'.free = 0) (v : BufferView R) :
    Option.Rel (fun k k' => k'.files = k.files) (l.appendBuffer v) (l'.appendBuffer v) := by
  by_cases h0 : l.free = 0
  · rw [InternalLevel.appendBuffer_full h0 h.pending,
      InternalLevel.appendBuffer_full (hfree.mp h0) h.pending']
    rw [Option.rel_some_some, InternalLevel.files_ofSlots, InternalLevel.files_ofSlots]
    exact h.files
  · rw [InternalLevel.appendBuffer_free h0, InternalLevel.appendBuffer_free (mt hfree.mpr h0)]
    exact .some (by simp [h.files])

theorem flushLevel_rel {l l' : InternalLevel T} (h : Twin l l') (halike : FlushAlike L l l')
    (v : BufferView R) :
    Option.Rel (fun k k' => k'.files = k.files ∧ (L = .leveling →
        (k.levelNo = 0 ∨ l.live ≠ [] ∧ k.levelNo = l.levelNo) ∧
        (k'.levelNo = 0 ∨ l'.live ≠ [] ∧ k'.levelNo = l'.levelNo)))
      (flushLevel L l v) (flushLevel L l' v) := by
  have hnil := InternalLevel.live_nil_congr h.files
  cases L with
  | leveling =>
    have hcnt : ∀ l : InternalLevel T, (l.getShardCount > 0) = (l.live ≠ []) := by
      intro l
      simp [InternalLevel.getShardCount, ← InternalLevel.length_live, List.length_pos_iff]
    have htemp : (InternalLevel.new T 0 1).appendBuffer v =
        some ((InternalLevel.new T 0 1).put (T.ofBuffer v)) :=
      InternalLevel.appendBuffer_free (by simp) v
    simp only [flushLevel, htemp, hcnt, Option.bind_eq_bind, Option.bind_some]
    by_cases hne : l.live = []
    · rw [if_neg (not_not_intro hne), if_neg (not_not_intro (hnil.mpr hne))]
      exact .some ⟨rfl, fun _ => ⟨.inl rfl, .inl rfl⟩⟩
    · have hne' := mt hnil.mp hne
      rw [if_pos hne, if_pos hne']
      have hno : ∀ k : InternalLevel T, Numbered k ((InternalLevel.new T 0 1).put (T.ofBuffer v)) :=
        fun k _ _ => (Nat.eq_zero_or_pos k.levelNo).symm.imp id fun h => ⟨h, rfl⟩
      refine rel_imp (InternalLevel.reconstruction_rel h.files rfl hne (hno l) (hno l')) ?_
      exact fun k k' hk => ⟨hk.1.files, fun _ => ⟨.inr ⟨hne, hk.2.1⟩, .inr ⟨hne', hk.2.2⟩⟩⟩
  | teiring =>
    exact rel_imp (appendBuffer_rel h (by simp [halike.1, halike.2]) v) fun k k' hk =>
      ⟨hk, by simp⟩
  | bsm =>
    exact rel_imp (appendBuffer_rel h halike v) fun k k' hk => ⟨hk, by simp⟩

/-- What the planner reads of a state entry -/
def planView (L : LayoutPolicy) (st : LevelState) : LevelState :=
  match L with
  | .bsm => ⟨st.reccnt, 0, 0, 0⟩
  | _ => st

/-- Two structures that hold the same shard files on every level, in the same
order, and between which the planner does not tell -/
structure SameShards (s s' : ExtensionStructure T L) : Prop where
  scaleFactor : s'.scaleFactor = s.scaleFactor
  bufferSize : s'.bufferSize = s.bufferSize
  flushSeq : s'.flushSeq = s.flushSeq
  length : s'.levels.length = s.levels.length
  stateLength : s.currentState.length = s.levels.length
  state : ∀ i : Nat, s'.currentState[i]?.map (planView L) = s.currentState[i]?.map (planView L)
  files : ∀ i, (s'.levelAt i).files = (s.levelAt i).files
  ordered : L = .leveling → s.Ordered ∧ s'.Ordered

/-- No shard of either structure is pending. -/
def Calm (s s' : ExtensionStructure T L) : Prop :=
  ∀ i, (s.levelAt i).pendingShard = none ∧ (s'.levelAt i).pendingShard = none

section SameShards
variable {s s' : ExtensionStructure T L}

theorem SameShards.twin (h : SameShards s s') (hc : Calm s s') (i : Nat) :
    Twin (s.levelAt i) (s'.levelAt i) := ⟨h.files i, (hc i).1, (hc i).2⟩

theorem length_state_eq_of_map {α β : Type} {f : α → β} {xs ys : List α}
    (h : ∀ i : Nat, ys[i]?.map f = xs[i]?.map f) : ys.length = xs.length := by
  have hmap : ys.map f = xs.map f := List.ext_getElem? fun i => by simpa using h i
  simpa using congrArg List.length hmap

theorem SameShards.stateLength' (h : SameShards s s') :
    s'.currentState.length = s'.levels.length := by
  rw [length_state_eq_of_map h.state, h.stateLength, h.length]

theorem canReconstructWith_congr {st st' : List LevelState}
    (h : ∀ i : Nat, st'[i]?.map (planView L) = st[i]?.map (planView L)) (i n : Nat) :
    canReconstructWith L i n st' = canReconstructWith L i n st := by
  have hi := h i
  unfold canReconstructWith
  cases h₁ : st[i]? with
  | none =>
    cases h₂ : st'[i]? with
    | none => rfl
    | some y => simp [h₁, h₂] at hi
  | some x =>
    cases h₂ : st'[i]? with
    | none => simp [h₁, h₂] at hi
    | some y =>
      simp only [h₁, h₂, Option.map_some, Option.some.injEq] at hi
      cases L with
      | leveling =>
        obtain rfl : y = x := hi
        rfl
      | teiring =>
        obtain rfl : y = x := hi
        rfl
      | bsm =>
        have hreccnt : (planView .bsm y).reccnt = (planView .bsm x).reccnt := by rw [hi]
        have : y.reccnt = x.reccnt := hreccnt
        simp [this]

theorem reccntAt_congr {st st' : List LevelState}
    (h : ∀ i : Nat, st'[i]?.map (planView L) = st[i]?.map (planView L)) (i : Nat) :
    reccntAt st' i = reccntAt st i := by
  have hview : ∀ x : LevelState, (planView L x).reccnt = x.reccnt := by
    intro x
    cases L <;> rfl
  have hi := congrArg (Option.map LevelState.reccnt) (h i)
  simp only [Option.map_map, Function.comp_def, hview] at hi
  rw [reccntAt, reccntAt, hi]

theorem findReconstructionTarget_congr {st st' : List LevelState}
    (h : ∀ i : Nat, st'[i]?.map (planView L) = st[i]?.map (planView L)) :
    findReconstructionTarget L 0 st' = findReconstructionTarget L 0 st := by
  simp only [findReconstructionTarget, length_state_eq_of_map h, reccntAt_congr h,
    canReconstructWith_congr h]

theorem SameShards.planTarget (h : SameShards s s') (hwm : Nat) :
    s'.planTarget hwm = s.planTarget hwm := by
  simp only [ExtensionStructure.planTarget, canReconstructWith_congr h.state,
    findReconstructionTarget_congr h.state, h.length]

theorem stateOf_view (h : SameShards s s') {l l' : InternalLevel T} (hl : l'.files = l.files)
    (i : Nat) : s'.stateOf i l' = s.stateOf i l := by
  rw [stateOf_congr h.scaleFactor h.bufferSize, stateOf, stateOf,
    InternalLevel.getRecordCount_congr hl, InternalLevel.getShardCount,
    InternalLevel.getShardCount, ← InternalLevel.length_live, ← InternalLevel.length_live,
    InternalLevel.live_length_congr hl]

theorem SameShards.ensure (h : SameShards s s') {i : Nat} (hi : i ≤ s.levels.length) :
    SameShards (s.ensure i) (s'.ensure i) := by
  have hi' : i ≤ s'.levels.length := by rw [h.length]; exact hi
  refine ⟨by simp [h.scaleFactor], by simp [h.bufferSize], ?_, ?_, ?_, ?_, ?_, ?_⟩
  · unfold ExtensionStructure.ensure
    split <;> split <;> exact h.flushSeq
  · rw [length_ensure i hi, length_ensure i hi', h.length]
  · rw [length_ensure i hi]
    unfold ExtensionStructure.ensure
    split
    · simp [addLevel, h.stateLength]
      omega
    · rw [h.stateLength]
      omega
  · intro j
    unfold ExtensionStructure.ensure
    rw [h.length]
    split
    · have hst := h.state j
      have hlen : s'.currentState.length = s.currentState.length := length_state_eq_of_map h.state
      have hcap : s'.calcLevelRecordCapacity = s.calcLevelRecordCapacity :=
        calcLevelRecordCapacity_congr h.scaleFactor h.bufferSize
      simp only [addLevel, List.getElem?_append, hlen, hcap, shardCapacity_congr h.scaleFactor]
      split
      · exact hst
      · rfl
    · exact h.state j
  · intro j
    rw [levelAt_ensure s hi, levelAt_ensure s' hi', h.files]
  · intro hl
    obtain ⟨ho, ho'⟩ := h.ordered hl
    constructor
    · intro a b
      simpa only [levelAt_ensure s hi] using ho a b
    · intro a b
      simpa only [levelAt_ensure s' hi'] using ho' a b

theorem SameShards.place (h : SameShards s s') {i : Nat} (hi : i < s.levels.length)
    {l l' : InternalLevel T} (hl : l'.files = l.files)
    (hno : L = .leveling → NumberFrom (s.levelAt (i + 1)) (s.levelAt i) l ∧
      NumberFrom (s'.levelAt (i + 1)) (s'.levelAt i) l') :
    SameShards (s.place i l) (s'.place i l') := by
  have hi' : i < s'.levels.length := by rw [h.length]; exact hi
  have he : SameShards (s.ensure (i + 1)) (s'.ensure (i + 1)) := h.ensure hi
  refine ⟨by simp [h.scaleFactor], by simp [h.bufferSize], he.flushSeq, ?_, ?_, ?_, ?_, ?_⟩
  · rw [length_place hi, length_place hi', h.length]
  · simpa [ExtensionStructure.place] using he.stateLength
  · intro j
    have hlen := length_state_eq_of_map he.state
    simp only [ExtensionStructure.place, List.getElem?_set, List.length_set, hlen,
      stateOf_view he hl,
      stateOf_view he (InternalLevel.twin_new i i (s.ensure (i + 1)).shardCapacity
        (s'.ensure (i + 1)).shardCapacity).files]
    split
    · rfl
    · split
      · rfl
      · exact he.state j
  · intro j
    rw [levelAt_place hi, levelAt_place hi']
    split
    · simp
    · split
      · exact hl
      · exact h.files j
  · intro hl
    exact ⟨ordered_place (h.ordered hl).1 hi (hno hl).1,
      ordered_place (h.ordered hl).2 hi' (hno hl).2⟩

theorem calm_place (hc : Calm s s') {i : Nat} (hi : i < s.levels.length)
    (hi' : i < s'.levels.length) {l l' : InternalLevel T} (hl : Twin l l') :
    Calm (s.place i l) (s'.place i l') := by
  intro j
  rw [levelAt_place hi, levelAt_place hi']
  split
  · exact ⟨rfl, rfl⟩
  · split
    · exact ⟨hl.pending, hl.pending'⟩
    · exact hc j

/-- Both structures can take the level at `b - 1` into the level at `b`. -/
def Ready (s s' : ExtensionStructure T L) (b : Nat) : Prop :=
  L = .teiring → 0 < b → 0 < s.scaleFactor ∧ (s.levelAt b).free ≠ 0 ∧ (s'.levelAt b).free ≠ 0

theorem runDown_rel (hbsm : L ≠ .bsm) (b : Nat) (h : SameShards s s') (hc : Calm s s')
    (hb : b ≤ s.levels.length) (hready : Ready s s' b) :
    Option.Rel (fun t t' => SameShards t t' ∧ Calm t t' ∧
        (b = 0 → t = s ∧ t' = s') ∧
        (0 < b → t.levelAt 0 = .new T 0 s.shardCapacity ∧ t'.levelAt 0 = .new T 0 s.shardCapacity))
      (runDown b s) (runDown b s') := by
  induction b generalizing s s' with
  | zero => exact .some ⟨h, hc, fun _ => ⟨rfl, rfl⟩, by simp⟩
  | succ i ih =>
    have hi : i < s.levels.length := hb
    have hi' : i < s'.levels.length := by rw [h.length]; exact hi
    have hcap : s'.shardCapacity = s.shardCapacity := shardCapacity_congr h.scaleFactor
    rw [runDown, runDown, reconstruction_eq_place hi, reconstruction_eq_place hi']
    have hcomb := combine_rel hbsm (h.twin hc (i + 1)) (h.twin hc i)
      (fun hl => ⟨fun hb hi => (h.ordered hl).1 i (i + 1) (by omega) hi hb,
        fun hb hi => (h.ordered hl).2 i (i + 1) (by omega) hi hb⟩)
      (fun ht _ => (hready ht (Nat.succ_pos i)).2)
    refine rel_bind (rel_map hcomb (q := fun t t' => SameShards t t' ∧ Calm t t' ∧
      i ≤ t.levels.length ∧ t.levelAt i = .new T i s.shardCapacity ∧
        t'.levelAt i = .new T i s.shardCapacity ∧ t.scaleFactor = s.scaleFactor) ?_) ?_
    · rintro l l' - - ⟨htwin, hno⟩
      refine ⟨h.place hi htwin.files hno, calm_place hc hi hi' htwin, ?_, ?_, ?_, by simp⟩
      · rw [length_place hi]
        omega
      · rw [levelAt_place hi, if_pos rfl]
      · rw [levelAt_place hi', if_pos rfl, hcap]
    · rintro t t' ⟨ht, htc, hlen, hnew, hnew', hscale⟩
      have hcap' : t.shardCapacity = s.shardCapacity := shardCapacity_congr hscale
      have hready' : Ready t t' i := by
        intro hteir hpos
        have hs := (hready hteir (Nat.succ_pos i)).1
        subst hteir
        rw [hscale, hnew, hnew']
        simp only [InternalLevel.free_new, shardCapacity]
        omega
      refine rel_imp (ih ht htc hlen hready') ?_
      rintro u u' ⟨hu, huc, hzero, hpos⟩
      refine ⟨hu, huc, by simp, fun _ => ?_⟩
      rcases Nat.eq_zero_or_pos i with rfl | hi0
      · obtain ⟨rfl, rfl⟩ := hzero rfl
        exact ⟨hnew, hnew'⟩
      · rw [← hcap']
        exact hpos hi0

theorem flushState_congr (h : SameShards s s') (i : Nat) :
    s'.flushState[i]?.map (planView L) = s.flushState[i]?.map (planView L) := by
  have hlen : s'.currentState.length = s.currentState.length := length_state_eq_of_map h.state
  have hcap : s'.calcLevelRecordCapacity = s.calcLevelRecordCapacity :=
    calcLevelRecordCapacity_congr h.scaleFactor h.bufferSize
  unfold flushState
  rw [hlen]
  split
  · simp only [grow, List.getElem?_append, hlen, hcap, h.length,
      shardCapacity_congr h.scaleFactor]
    split
    · exact h.state i
    · rfl
  · exact h.state i

theorem SameShards.placeFirst (h : SameShards s s') {l l' : InternalLevel T}
    (hl : l'.files = l.files) (hno : L = .leveling →
      (l.levelNo = 0 ∨ (s.levelAt 0).live ≠ [] ∧ l.levelNo = (s.levelAt 0).levelNo) ∧
      (l'.levelNo = 0 ∨ (s'.levelAt 0).live ≠ [] ∧ l'.levelNo = (s'.levelAt 0).levelNo)) :
    SameShards (s.placeFirst l) (s'.placeFirst l') := by
  have he : SameShards (s.ensure 0) (s'.ensure 0) := h.ensure (Nat.zero_le _)
  have hcnt : l'.getShardCount = l.getShardCount := by
    rw [InternalLevel.getShardCount, InternalLevel.getShardCount, ← InternalLevel.length_live,
      ← InternalLevel.length_live, InternalLevel.live_length_congr hl]
  refine ⟨by simp [h.scaleFactor], by simp [h.bufferSize], ?_, ?_, ?_, ?_, ?_, ?_⟩
  · simpa [ExtensionStructure.placeFirst] using he.flushSeq
  · simpa [ExtensionStructure.placeFirst] using he.length
  · simpa [ExtensionStructure.placeFirst] using he.stateLength
  · intro j
    have hst := he.state j
    simp only [ExtensionStructure.placeFirst, List.getElem?_modify, hcnt,
      InternalLevel.getRecordCount_congr hl]
    cases h₁ : (s.ensure 0).currentState[j]? with
    | none =>
      cases h₂ : (s'.ensure 0).currentState[j]? with
      | none => rfl
      | some y => simp [h₁, h₂] at hst
    | some x =>
      cases h₂ : (s'.ensure 0).currentState[j]? with
      | none => simp [h₁, h₂] at hst
      | some y =>
        simp only [h₁, h₂, Option.map_some, Option.some.injEq] at hst
        by_cases hj : 0 = j
        · cases L <;> simp_all [planView]
        · simp [hj, hst]
  · intro j
    rw [levelAt_placeFirst, levelAt_placeFirst]
    split
    · exact hl
    · exact h.files j
  · intro hl
    exact ⟨ordered_placeFirst (h.ordered hl).1 (hno hl).1,
      ordered_placeFirst (h.ordered hl).2 (hno hl).2⟩

theorem flushBuffer_rel (h : SameShards s s') (hc : Calm s s') {v : BufferView R}
    (halike : canReconstructWith L 0 v.getRecordCount s.flushState = true →
      FlushAlike L (s.levelAt 0) (s'.levelAt 0)) :
    Option.Rel SameShards (s.flushBuffer v) (s'.flushBuffer v) := by
  rw [flushBuffer_eq_guard, flushBuffer_eq_guard, canReconstructWith_congr (flushState_congr h)]
  split
  · rename_i hcan
    refine rel_map (flushLevel_rel (h.twin hc 0) (halike hcan) v) fun l l' _ _ hl => ?_
    exact h.placeFirst hl.1 hl.2
  · exact .none

theorem SameShards.copy (h : SameShards s s') : SameShards s.copy s'.copy := by
  refine ⟨h.scaleFactor, h.bufferSize, h.flushSeq, ?_, ?_, h.state, ?_, ?_⟩
  · simpa [ExtensionStructure.copy] using h.length
  · simpa [ExtensionStructure.copy] using h.stateLength
  · intro i
    simp [levelAt_copy, h.files]
  · intro hl
    obtain ⟨ho, ho'⟩ := h.ordered hl
    constructor
    · intro a b
      simpa [levelAt_copy] using ho a b
    · intro a b
      simpa [levelAt_copy] using ho' a b

theorem calm_copy : Calm s.copy s'.copy := by
  intro i
  rw [levelAt_copy, levelAt_copy]
  exact ⟨rfl, rfl⟩

end SameShards

section BSM
variable {s s' : ExtensionStructure T .bsm}

theorem mergedShards_files (h : SameShards s s') (b : Nat) :
    (s'.mergedShards b).map T.file = (s.mergedShards b).map T.file := by
  have hmap : ∀ t : ExtensionStructure T .bsm, (t.mergedShards b).map T.file =
      (List.range b).reverse.flatMap fun i => (t.levelAt i).files := by
    intro t
    rw [mergedShards, List.map_flatMap, List.flatMap_map]
    rfl
  rw [hmap, hmap]
  exact List.flatMap_congr fun i _ => h.files i

theorem SameShards.placeMerged (h : SameShards s s') {b : Nat} (hb : b ≤ s.levels.length)
    {x x' : T.Shard} (hx : T.file x' = T.file x) :
    SameShards (s.placeMerged b x) (s'.placeMerged b x') := by
  have hb' : b ≤ s'.levels.length := by rw [h.length]; exact hb
  have hc := cleared_placeMerged hb h.stateLength x
  have hc' := cleared_placeMerged hb' h.stateLength' x'
  have hcount : T.recordCount x' = T.recordCount x := InternalLevel.recordCount_congr hx
  have hview : ∀ t : ExtensionStructure T .bsm, ∀ j : Nat,
      t.currentState[j]?.map (planView .bsm) =
        (t.currentState[j]?.map LevelState.reccnt).map fun n => ⟨n, 0, 0, 0⟩ := by
    intro t j
    rw [Option.map_map]
    rfl
  refine ⟨?_, ?_, ?_, ?_, ?_, ?_, ?_, by simp⟩
  · rw [hc.scaleFactor, hc'.scaleFactor, scaleFactor_placeTarget, scaleFactor_placeTarget,
      h.scaleFactor]
  · rw [hc.bufferSize, hc'.bufferSize, bufferSize_placeTarget, bufferSize_placeTarget,
      h.bufferSize]
  · rw [hc.flushSeq, hc'.flushSeq, flushSeq_placeTarget, flushSeq_placeTarget, h.flushSeq]
  · rw [hc.length, hc'.length, length_placeTarget hb, length_placeTarget hb', h.length]
  · rw [hc.stateLength, hc.length, stateLength_placeTarget h.stateLength]
  · intro j
    rw [hview, hview, hc.counts, hc'.counts, currentState_placeTarget hb h.stateLength,
      currentState_placeTarget hb' h.stateLength']
    split
    · rfl
    · split
      · simp [InternalLevel.getRecordCount_eq, hcount]
      · rw [← hview, ← hview]
        exact h.state j
  · intro j
    rw [levelAt_placeMerged hb h.stateLength, levelAt_placeMerged hb' h.stateLength']
    split
    · simp
    · split
      · simp [hx]
      · exact h.files j

end BSM

/-- The level that receives a shard in the next round has a free slot in both
structures or in none. Under TEIRING it always has one in a structure that was
never reloaded; LEVELING does not append. -/
def SlotsAgree (s s' : ExtensionStructure T L) (hwm : Nat) : Prop :=
  match L with
  | .leveling => True
  | .teiring => (s'.levelAt (s'.planTarget hwm)).free ≠ 0
  | .bsm => s'.planTarget hwm = 0 → ((s.levelAt 0).free = 0 ↔ (s'.levelAt 0).free = 0)

theorem round_eq (hbsm : L ≠ .bsm) (s : ExtensionStructure T L) (hwm : Nat) (v : BufferView R) :
    s.round hwm v = (runDown (s.planTarget hwm) s.copy).bind fun t => t.flushBuffer v := by
  rw [round, reconstructTasks_eq hbsm _ _ _ (roundTasks_shapes s hwm hbsm)]
  rfl

theorem planTarget_le_length {s : ExtensionStructure T L}
    (h : s.currentState.length = s.levels.length) (hwm : Nat) :
    s.planTarget hwm ≤ s.levels.length := by
  unfold planTarget
  split
  · exact Nat.zero_le _
  · cases hfind : findReconstructionTarget L 0 s.currentState with
    | none => exact le_rfl
    | some i =>
      have := (findReconstructionTarget_some hfind).2.1
      rw [h] at this
      exact this.le

theorem round_rel_leveling {s s' : ExtensionStructure T .leveling} (h : SameShards s s')
    (hwm : Nat) (v : BufferView R) : Option.Rel SameShards (s.round hwm v) (s'.round hwm v) := by
  have hb := planTarget_le_length h.copy.stateLength hwm
  rw [planTarget_copy] at hb
  rw [round_eq (by decide), round_eq (by decide), h.planTarget]
  refine rel_bind (runDown_rel (by decide) _ h.copy calm_copy hb (by simp [Ready])) ?_
  rintro t t' ⟨ht, hc, -, -⟩
  exact flushBuffer_rel ht hc fun _ => trivial

theorem round_rel_teiring {s s' : ExtensionStructure T .teiring} (h : SameShards s s')
    (hs : s.Settled) {hwm : Nat} (hslots : SlotsAgree s s' hwm) (v : BufferView R) :
    Option.Rel SameShards (s.round hwm v) (s'.round hwm v) := by
  have hb := planTarget_le_length h.copy.stateLength hwm
  rw [planTarget_copy] at hb
  have hfree' : (s'.levelAt (s.planTarget hwm)).free ≠ 0 := h.planTarget hwm ▸ hslots
  have hscale : 0 < s.planTarget hwm → 0 < s.scaleFactor := by
    intro hpos
    refine hs.sound.scale rfl ?_
    rintro hnil
    simp [copy, hnil] at hb
    omega
  rw [round_eq (by decide), round_eq (by decide), h.planTarget]
  refine rel_bind (runDown_rel (by decide) _ h.copy calm_copy hb ?_) ?_
  · intro _ hpos
    obtain ⟨i, hi⟩ := Nat.exists_eq_add_of_lt hpos
    rw [Nat.zero_add] at hi
    have hfits : (s.levelAt (s.planTarget hwm)).free ≠ 0 :=
      hi ▸ planTarget_fits (by decide) hs hwm hi
    simp only [levelAt_copy, InternalLevel.free_clone]
    exact ⟨hscale hpos, hfits, hfree'⟩
  · rintro t t' ⟨ht, hc, hzero, hpos⟩
    refine flushBuffer_rel ht hc fun hcan => ?_
    rcases Nat.eq_zero_or_pos (s.planTarget hwm) with h0 | h0
    · obtain ⟨rfl, rfl⟩ := hzero h0
      rw [copy_eq hs.sound.noPending, room_iff (by decide) hs.sound] at hcan
      rw [h0] at hfree'
      simp only [levelAt_copy, FlushAlike, InternalLevel.free_clone]
      exact ⟨hcan, hfree'⟩
    · have hcap : s.copy.shardCapacity = s.scaleFactor := rfl
      have := hscale h0
      obtain ⟨hnew, hnew'⟩ := hpos h0
      simp only [FlushAlike, hnew, hnew', InternalLevel.free_new, hcap]
      omega

theorem round_rel_bsm {s s' : ExtensionStructure T .bsm} (h : SameShards s s') {hwm : Nat}
    (hslots : SlotsAgree s s' hwm) (v : BufferView R) :
    Option.Rel SameShards (s.round hwm v) (s'.round hwm v) := by
  have hb := planTarget_le_length h.copy.stateLength hwm
  have hb' := planTarget_le_length h.copy.stateLength' hwm
  rw [planTarget_copy] at hb hb'
  have hslots' : s.planTarget hwm = 0 → ((s.levelAt 0).free = 0 ↔ (s'.levelAt 0).free = 0) :=
    h.planTarget hwm ▸ hslots
  have hflush : ∀ {t t' : ExtensionStructure T .bsm}, SameShards t t' → Calm t t' →
      ((t.levelAt 0).free = 0 ↔ (t'.levelAt 0).free = 0) →
      Option.Rel SameShards (t.flushBuffer v) (t'.flushBuffer v) :=
    fun ht hc hfree => flushBuffer_rel ht hc fun _ => hfree
  rw [round, round, roundTasks_bsm, roundTasks_bsm, h.planTarget]
  rw [h.planTarget] at hb'
  by_cases h0 : s.planTarget hwm = 0
  · simp only [h0, if_true]
    exact hflush h.copy calm_copy (by simpa [levelAt_copy] using hslots' h0)
  · simp only [h0, if_false, reconstructTasks, List.foldlM_cons, List.foldlM_nil, reconstructTask,
      reconstructionTask_eq hb, reconstructionTask_eq hb', Option.bind_eq_bind, bind_pure]
    refine rel_bind (rel_map (InternalLevel.ofShards_rel (mergedShards_files h.copy _))
      (q := fun t t' => SameShards t t' ∧ Calm t t' ∧
        ((t.levelAt 0).free = 0 ↔ (t'.levelAt 0).free = 0)) ?_) ?_
    · intro x x' _ _ hx
      have hlev := levelAt_placeMerged hb h.copy.stateLength x
      have hlev' := levelAt_placeMerged hb' h.copy.stateLength' x'
      refine ⟨h.copy.placeMerged hb hx, fun j => ?_, ?_⟩
      · rw [hlev, hlev']
        split
        · exact ⟨rfl, rfl⟩
        · split
          · exact ⟨rfl, rfl⟩
          · exact calm_copy j
      · rw [hlev, hlev', if_pos (Nat.pos_of_ne_zero h0), if_pos (Nat.pos_of_ne_zero h0)]
    · rintro t t' ⟨ht, hc, hfree⟩
      exact hflush ht hc hfree

theorem round_rel {s s' : ExtensionStructure T L} (h : SameShards s s')
    (hs : L = .teiring → s.Settled) {hwm : Nat} (hslots : SlotsAgree s s' hwm)
    (v : BufferView R) : Option.Rel SameShards (s.round hwm v) (s'.round hwm v) := by
  cases L with
  | leveling => exact round_rel_leveling h hwm v
  | teiring => exact round_rel_teiring h (hs rfl) hslots v
  | bsm => exact round_rel_bsm h hslots v

/-- In every round of the two runs the receiving level has a free slot in both
structures or in none. -/
def SlotsAgreeAlong (s s' : ExtensionStructure T L) (hwm : Nat) : List (BufferView R) → Prop
  | [] => True
  | v :: vs => SlotsAgree s s' hwm ∧ ∀ t t', s.round hwm v = some t → s'.round hwm v = some t' →
      SlotsAgreeAlong t t' hwm vs

theorem rounds_rel {hwm : Nat} (vs : List (BufferView R)) {s s' : ExtensionStructure T L}
    (h : SameShards s s') (hs : L = .teiring → s.Settled)
    (hslots : SlotsAgreeAlong s s' hwm vs) :
    Option.Rel SameShards (s.rounds hwm vs) (s'.rounds hwm vs) := by
  induction vs generalizing s s' with
  | nil => exact .some h
  | cons v vs ih =>
    have hround := round_rel h hs hslots.1 v
    simp only [rounds, List.foldlM_cons]
    cases ht : s.round hwm v with
    | none =>
      cases ht' : s'.round hwm v with
      | none => exact .none
      | some t' => simp [ht, ht'] at hround
    | some t =>
      cases ht' : s'.round hwm v with
      | none => simp [ht, ht'] at hround
      | some t' =>
        rw [ht, ht', Option.rel_some_some] at hround
        refine ih hround (fun hl => ?_) (hslots.2 t t' ht ht')
        subst hl
        exact (round_spec (by decide) (hs rfl) ht).settled

/-- The structures of all runs, also those between two tasks of a round -/
inductive Formed (T : ShardType R) (L : LayoutPolicy) (hwm scale : Nat) :
    ExtensionStructure T L → Prop
  | round {s : ExtensionStructure T L} (hs : Reachable T L hwm scale s) : Formed T L hwm scale s
  | task {s s' : ExtensionStructure T L} {done rest : List ReconstructionTask}
      (hs : Reachable T L hwm scale s) (htasks : s.roundTasks hwm = done ++ rest)
      (hrun : s.copy.reconstructTasks done = some s') : Formed T L hwm scale s'

theorem Formed.sound (hbsm : L ≠ .bsm) {hwm scale : Nat} {s : ExtensionStructure T L}
    (hs : Formed T L hwm scale s) : s.Sound := by
  cases hs with
  | round hs => exact (hs.settled hbsm).1.sound
  | @task s₀ _ done rest hs htasks hrun =>
    obtain ⟨hset, -⟩ := hs.settled hbsm
    rw [copy_eq hset.sound.noPending] at hrun
    obtain ⟨c, -, -, hd⟩ := runDown_append_spec hbsm hset.sound (planTarget_le hset.sound hwm)
      (fun i hi => planTarget_fits hbsm hset hwm hi)
      (by rw [← htasks]; exact roundTasks_shapes s₀ hwm hbsm) hrun
    exact hd.rearranged.sound

theorem Formed.counted {hwm scale : Nat} {s : ExtensionStructure T .bsm}
    (hs : Formed T .bsm hwm scale s) : s.Counted := by
  cases hs with
  | round hs => exact hs.counted
  | @task s₀ _ done rest hs htasks hrun =>
    cases done with
    | nil =>
      obtain rfl := Option.some.inj hrun
      exact (sound_copy hs.counted).counts
    | cons t ts =>
      have hone : (t :: ts ++ rest).length ≤ 1 := by
        rw [← htasks, roundTasks_bsm]
        split <;> simp
      obtain ⟨rfl, rfl⟩ : ts = [] ∧ rest = [] := by
        simp only [List.cons_append, List.length_cons, List.length_append] at hone
        exact ⟨List.eq_nil_of_length_eq_zero (by omega), List.eq_nil_of_length_eq_zero (by omega)⟩
      exact Mirrors.reconstructTasks projects_reccnt hs.counted hs.counted hwm (htasks ▸ hrun)

/-- What the constructor makes of a structure's checkpoint -/
def reloaded (s : ExtensionStructure T L) : ExtensionStructure T L :=
  let levels := s.checkpoint.levels.mapIdx (loadedLevel T)
  { s with
    levels := levels
    currentState := levels.zipIdx.map fun p => s.stateOf p.2 p.1 }

theorem ofCheckpoint_eq (s : ExtensionStructure T L) :
    ofCheckpoint T L s.bufferSize s.scaleFactor (some s.checkpoint) = some s.reloaded := by
  have hmapM : ∀ ls : List (InternalLevel T), (ls.map some).mapM id = some ls := by
    intro ls
    induction ls with
    | nil => rfl
    | cons l ls ih =>
      rw [List.map_cons, List.mapM_cons, ih]
      rfl
  have hlevels : (s.checkpoint.levels.mapIdx fun i fs => some (loadedLevel T i fs)) =
      (s.checkpoint.levels.mapIdx (loadedLevel T)).map some := by
    apply List.ext_getElem?
    intro i
    simp [List.getElem?_mapIdx, Function.comp_def]
  simp only [ofCheckpoint, loadCheckpoint, foldlM_items, hlevels, Option.bind_eq_bind,
    Option.bind_some, hmapM, pure]
  cases L <;> rfl

theorem levels_reloaded (s : ExtensionStructure T L) (i : Nat) :
    s.reloaded.levels[i]? = s.levels[i]?.map fun l => loadedLevel T i l.files := by
  simp only [reloaded, checkpoint, List.getElem?_mapIdx, List.getElem?_map, Option.map_map]
  rfl

theorem files_loadedLevel (i : Nat) (fs : List T.File) : (loadedLevel T i fs).files = fs := by
  rw [loadedLevel, InternalLevel.files_ofSlots, List.map_map]
  conv_rhs => rw [← List.map_id fs]
  exact List.map_congr_left fun f _ => T.file_ofFile f

theorem levelAt_reloaded (s : ExtensionStructure T L) (i : Nat) :
    (s.reloaded.levelAt i).files = (s.levelAt i).files ∧ (s.reloaded.levelAt i).levelNo = i := by
  rw [levelAt, levelAt, levels_reloaded]
  cases s.levels[i]? with
  | none => exact ⟨by simp, rfl⟩
  | some l => exact ⟨files_loadedLevel i _, rfl⟩

theorem sameShards_reloaded {hwm scale : Nat} {s : ExtensionStructure T L}
    (hs : Formed T L hwm scale s) : SameShards s s.reloaded := by
  have hlen : s.reloaded.levels.length = s.levels.length := by simp [reloaded, checkpoint]
  have hstate : ∀ i : Nat, s.reloaded.currentState[i]? =
      s.levels[i]?.map fun l => s.stateOf i (loadedLevel T i l.files) := by
    intro i
    have hzip : s.reloaded.currentState[i]? = s.reloaded.levels[i]?.map (s.stateOf i) := by
      simp [reloaded, List.getElem?_zipIdx, Option.map_map, Function.comp_def]
    rw [hzip, levels_reloaded, Option.map_map]
    rfl
  have hview : ∀ i : Nat, s.reloaded.currentState[i]?.map (planView L) =
      s.currentState[i]?.map (planView L) := by
    intro i
    have hcount : ∀ l : InternalLevel T,
        (s.stateOf i (loadedLevel T i l.files)) = s.stateOf i l := by
      intro l
      have hf : (loadedLevel T i l.files).files = l.files := files_loadedLevel i _
      rw [stateOf, stateOf, InternalLevel.getRecordCount_congr hf, InternalLevel.getShardCount,
        InternalLevel.getShardCount, ← InternalLevel.length_live, ← InternalLevel.length_live,
        InternalLevel.live_length_congr hf]
    have hst : s.reloaded.currentState[i]? = s.levels[i]?.map (s.stateOf i) := by
      rw [hstate]
      congr 1
      funext l
      exact hcount l
    by_cases hbsm : L = .bsm
    · subst hbsm
      have hc := congrArg (Option.map fun n : Nat => (⟨n, 0, 0, 0⟩ : LevelState)) (hs.counted i)
      rw [hst]
      simp only [Option.map_map, Function.comp_def] at hc ⊢
      exact hc.symm
    · rw [hst, (hs.sound hbsm).real i]
  refine ⟨rfl, rfl, rfl, hlen, ?_, hview, fun i => (s.levelAt_reloaded i).1, fun hl => ?_⟩
  · by_cases hbsm : L = .bsm
    · subst hbsm
      exact length_counts hs.counted
    · exact length_state (hs.sound hbsm).real
  · subst hl
    refine ⟨(hs.sound (by decide)).ordered rfl, fun i j hij _ _ => .inl ?_⟩
    rw [(s.levelAt_reloaded i).2, (s.levelAt_reloaded j).2]
    exact hij

theorem SameShards.checkpoint {s s' : ExtensionStructure T L} (h : SameShards s s') :
    s'.checkpoint = s.checkpoint := by
  have hlevels : s'.levels.map InternalLevel.files = s.levels.map InternalLevel.files := by
    apply List.ext_getElem?
    intro i
    rw [List.getElem?_map, List.getElem?_map]
    by_cases hi : i < s.levels.length
    · rw [levels_getElem? hi, levels_getElem? (by rw [h.length]; exact hi), Option.map_some,
        Option.map_some, h.files]
    · rw [List.getElem?_eq_none (by rw [h.length]; omega), List.getElem?_eq_none (by omega)]
  rw [ExtensionStructure.checkpoint, ExtensionStructure.checkpoint, h.flushSeq]
  exact congrArg _ hlevels

theorem SameShards.net {s s' : ExtensionStructure T L} (h : SameShards s s') :
    s'.net = s.net := by
  have hlevels : s'.levels.map InternalLevel.net = s.levels.map InternalLevel.net := by
    apply List.ext_getElem?
    intro i
    rw [List.getElem?_map, List.getElem?_map]
    by_cases hi : i < s.levels.length
    · rw [levels_getElem? hi, levels_getElem? (by rw [h.length]; exact hi), Option.map_some,
        Option.map_some, InternalLevel.net_congr (h.files i)]
    · rw [List.getElem?_eq_none (by rw [h.length]; omega), List.getElem?_eq_none (by omega)]
  rw [ExtensionStructure.net, ExtensionStructure.net, hlevels]

/-- Reloading a checkpoint gives the same shards and the same sequence number, and
every later run in which the receiving levels agree on a free slot keeps the same
shards, and so the same records, in both structures. -/
theorem reloaded_agrees {hwm scale : Nat} {s : ExtensionStructure T L}
    (hs : Formed T L hwm scale s) :
    ∃ s', ofCheckpoint T L s.bufferSize s.scaleFactor (some s.checkpoint) = some s' ∧
      s'.checkpoint = s.checkpoint ∧
      ∀ vs, SlotsAgreeAlong s s' hwm vs →
        Option.Rel (fun t t' => t'.net = t.net ∧ t'.checkpoint = t.checkpoint)
          (s.rounds hwm vs) (s'.rounds hwm vs) := by
  have hsame := sameShards_reloaded hs
  refine ⟨s.reloaded, s.ofCheckpoint_eq, hsame.checkpoint, fun vs hvs => ?_⟩
  refine rel_imp (rounds_rel vs hsame (fun hl => ?_) hvs) fun t t' ht => ⟨ht.net, ht.checkpoint⟩
  subst hl
  exact ⟨hs.sound (by decide), by simp⟩

/-- TEIRING with two shards a level: the reloaded level 0 is as full as it was, and its
shards move to the next level before it takes another. -/
theorem reloaded_agrees_sample :
    ∃ s : ExtensionStructure (ShardType.lists Nat) .teiring,
      (new _ .teiring 1 2).rounds 1 [sampleView [(1, false)], sampleView [(2, false)]] = some s ∧
      ∃ s', ofCheckpoint _ .teiring s.bufferSize s.scaleFactor (some s.checkpoint) = some s' ∧
        s'.planTarget 1 = 1 ∧
        Option.Rel (fun t t' => t'.net = t.net ∧ t'.checkpoint = t.checkpoint)
          (s.rounds 1 [sampleView [(1, true)]]) (s'.rounds 1 [sampleView [(1, true)]]) := by
  have h : ((new (ShardType.lists Nat) .teiring 1 2).rounds 1
      [sampleView [(1, false)], sampleView [(2, false)]]).bind (fun s =>
        (ofCheckpoint _ .teiring s.bufferSize s.scaleFactor (some s.checkpoint)).map fun s' =>
          (s'.planTarget 1, decide ((s'.levelAt (s'.planTarget 1)).free ≠ 0))) =
      some (1, true) := by decide +kernel
  obtain ⟨s, hs, h⟩ := Option.bind_eq_some_iff.mp h
  obtain ⟨s₁, hs₁, hfacts⟩ := Option.map_eq_some_iff.mp h
  obtain ⟨htarget, hfree⟩ := Prod.mk.inj hfacts
  have hreach : Reachable (ShardType.lists Nat) .teiring 1 2 s :=
    Reachable.new.rounds (by decide) hs
  obtain ⟨s', hs', -, hagree⟩ := reloaded_agrees (.round hreach)
  obtain rfl : s₁ = s' := Option.some.inj (hs₁.symm.trans hs')
  have hslots : (s₁.levelAt (s₁.planTarget 1)).free ≠ 0 := of_decide_eq_true hfree
  exact ⟨s, hs, s₁, hs₁, htarget, hagree _ ⟨hslots, fun _ _ _ _ => trivial⟩⟩

/-- TEIRING with two shards a level: the reloaded level 0 has one slot, and the
next flush is lost. -/
theorem not_reloaded_agrees_teiring :
    ∃ s : ExtensionStructure (ISAMTree.shardType NodeLayout.words (StdLib.sorted (Record Nat Nat)))
        .teiring,
      Reachable _ .teiring 1 2 s ∧
      ∃ s', ofCheckpoint _ .teiring s.bufferSize s.scaleFactor (some s.checkpoint) = some s' ∧
        ∃ vs t t', s.rounds 1 vs = some t ∧ s'.rounds 1 vs = some t' ∧ t'.net ≠ t.net := by
  set T := ISAMTree.shardType NodeLayout.words (StdLib.sorted (Record Nat Nat))
  set v : BufferView (Record Nat Nat) := BufferView.ofList [Wrapped.fresh ⟨1, 1⟩ false]
  set w : BufferView (Record Nat Nat) := BufferView.ofList [Wrapped.fresh ⟨2, 2⟩ false]
  set u : BufferView (Record Nat Nat) := BufferView.ofList [Wrapped.fresh ⟨3, 3⟩ false]
  have hrun : ((new T .teiring 1 2).rounds 1 [v]).bind (fun s =>
      (s.rounds 1 [w, u]).map fun t => t.net ⟨2, 2⟩) = some 1 := by decide +kernel
  have hreload : ((new T .teiring 1 2).rounds 1 [v]).bind (fun s =>
      (ofCheckpoint T .teiring s.bufferSize s.scaleFactor (some s.checkpoint)).bind fun s' =>
        (s'.rounds 1 [w, u]).map fun t => t.net ⟨2, 2⟩) = some 0 := by decide +kernel
  obtain ⟨s, hs, hrun⟩ := Option.bind_eq_some_iff.mp hrun
  rw [hs, Option.bind_some] at hreload
  obtain ⟨s', hs', hreload⟩ := Option.bind_eq_some_iff.mp hreload
  obtain ⟨t, ht, hnet⟩ := Option.map_eq_some_iff.mp hrun
  obtain ⟨t', ht', hnet'⟩ := Option.map_eq_some_iff.mp hreload
  refine ⟨s, Reachable.new.rounds (by decide) hs, s', hs', [w, u], t, t', ht, ht', fun heq => ?_⟩
  rw [← heq, hnet'] at hnet
  exact absurd hnet (by decide)

end ExtensionStructure

end De

import DynamicExtension.Rounds
set_option autoImplicit false

namespace De
variable {R : Type} [DecidableEq R] {T : ShardType R} {L : LayoutPolicy}

/-- `j.items()`: the entries of a JSON object come in the order of their keys,
and the keys are the level numbers written as strings. -/
def Checkpoint.items (c : Checkpoint T) : List (Nat × List T.File) :=
  (c.levels.zipIdx.map fun p => (p.2, p.1)).insertionSort fun a b => toString a.1 ≤ toString b.1

/-- A level of the checkpoint gets as many slots as it has shards. -/
def openLevel (T : ShardType R) (level : Nat) (shards : List T.File) : Option (InternalLevel T) :=
  shards.foldlM InternalLevel.appendShard (InternalLevel.new T level shards.length)

/-- One turn of the loop of `load_checkpoint`; `none` entries are null pointers. -/
def loadLevel (levels : List (Option (InternalLevel T))) (item : Nat × List T.File) :
    Option (List (Option (InternalLevel T))) := do
  let levels := levels ++ List.replicate (item.1 + 1 - levels.length) none
  let level ← openLevel T item.1 item.2
  return levels.set item.1 (some level)

def loadCheckpoint : Option (Checkpoint T) → Option (List (Option (InternalLevel T)) × Nat)
  | none => some ([], 0)
  | some c => do
    let levels ← c.items.foldlM loadLevel []
    return (levels, c.flushSeq)

namespace ExtensionStructure

/-- The constructor without `skip_checkpoint`. A null level is only met later,
where every use of it is undefined. -/
def ofCheckpoint (T : ShardType R) (L : LayoutPolicy) (bufferSize scaleFactor : Nat)
    (c : Option (Checkpoint T)) : Option (ExtensionStructure T L) := do
  let (levels, flushSeq) ← loadCheckpoint c
  let levels ← levels.mapM id
  let s : ExtensionStructure T L := ⟨scaleFactor, bufferSize, flushSeq, levels, []⟩
  return { s with
    currentState := levels.zipIdx.map fun p =>
      ⟨p.1.getRecordCount, s.calcLevelRecordCapacity p.2, p.1.getShardCount, s.shardCapacity⟩ }

/-- The level that `load_checkpoint` makes of a list of files -/
def loadedLevel (T : ShardType R) (level : Nat) (shards : List T.File) : InternalLevel T :=
  .ofSlots T level (shards.map T.ofFile) 0 none

theorem openLevel_eq (level : Nat) (shards : List T.File) :
    openLevel T level shards = some (loadedLevel T level shards) := by
  have happend : ∀ (rest : List T.File) (xs : List T.Shard),
      rest.foldlM InternalLevel.appendShard (.ofSlots T level xs rest.length none) =
        some (.ofSlots T level (xs ++ rest.map T.ofFile) 0 none) := by
    intro rest
    induction rest with
    | nil => simp
    | cons f rest ih =>
      intro xs
      have hput : (InternalLevel.ofSlots T level xs (rest.length + 1) none).appendShard f =
          some (.ofSlots T level (xs ++ [T.ofFile f]) rest.length none) := by
        simp [InternalLevel.appendShard, InternalLevel.put, InternalLevel.length_shards]
      simp [hput, ih, List.foldlM_cons]
  exact happend shards []

theorem loadLevel_eq (levels : List (Option (InternalLevel T))) (i : Nat) (fs : List T.File) :
    loadLevel levels (i, fs) =
      some ((levels ++ List.replicate (i + 1 - levels.length) none).set i
        (some (loadedLevel T i fs))) := by
  simp [loadLevel, openLevel_eq]

theorem foldlM_loadLevel (items : List (Nat × List T.File)) (n : Nat)
    (acc : List (Option (InternalLevel T))) (hnd : (items.map Prod.fst).Nodup)
    (hlt : ∀ p ∈ items, p.1 < n) (hacc : acc.length ≤ n) :
    ∃ levels, items.foldlM loadLevel acc = some levels ∧ levels.length ≤ n ∧
      (∀ p ∈ items, levels[p.1]? = some (some (loadedLevel T p.1 p.2))) ∧
      ∀ i l, i ∉ items.map Prod.fst → acc[i]? = some (some l) → levels[i]? = some (some l) := by
  induction items generalizing acc with
  | nil => exact ⟨acc, rfl, hacc, by simp, fun _ _ _ h => h⟩
  | cons p items ih =>
    obtain ⟨i, fs⟩ := p
    obtain ⟨hni, hnd⟩ := List.nodup_cons.mp hnd
    have hi : i < n := hlt _ List.mem_cons_self
    set acc' := (acc ++ List.replicate (i + 1 - acc.length) none).set i
      (some (loadedLevel T i fs)) with hacc'
    have hlen' : acc'.length = max acc.length (i + 1) := by
      simp [hacc']
      omega
    have hself : acc'[i]? = some (some (loadedLevel T i fs)) := by
      rw [hacc', List.getElem?_set_self]
      simp
      omega
    have hkeep : ∀ j l, j ≠ i → acc[j]? = some (some l) → acc'[j]? = some (some l) := by
      intro j l hj hl
      have hjlt : j < acc.length := (List.getElem?_eq_some_iff.mp hl).1
      rw [hacc', List.getElem?_set_ne (Ne.symm hj), List.getElem?_append_left hjlt, hl]
    obtain ⟨levels, hfold, hlen, hitems, hrest⟩ :=
      ih acc' hnd (fun p hp => hlt p (List.mem_cons_of_mem _ hp)) (by omega)
    refine ⟨levels, ?_, hlen, ?_, ?_⟩
    · simp [List.foldlM_cons, loadLevel_eq, ← hacc', hfold]
    · intro p hp
      rcases List.mem_cons.mp hp with rfl | hp
      · exact hrest i _ hni hself
      · exact hitems p hp
    · intro j l hj hl
      simp only [List.map_cons, List.mem_cons, not_or] at hj
      exact hrest j l hj.2 (hkeep j l hj.1 hl)

theorem foldlM_items (c : Checkpoint T) :
    c.items.foldlM loadLevel [] =
      some (c.levels.mapIdx fun i fs => some (loadedLevel T i fs)) := by
  have hperm : c.items.Perm (c.levels.zipIdx.map fun p => (p.2, p.1)) :=
    List.perm_insertionSort _ _
  have hfst : (c.levels.zipIdx.map fun p => (p.2, p.1)).map Prod.fst =
      List.range c.levels.length := by
    simp [List.map_map, Function.comp_def, List.range_eq_range']
  have hmem : ∀ i fs, c.levels[i]? = some fs → (i, fs) ∈ c.items := by
    intro i fs h
    rw [hperm.mem_iff, List.mem_map]
    exact ⟨(fs, i), List.mk_mem_zipIdx_iff_getElem?.mpr h, rfl⟩
  have hkeys : (c.items.map Prod.fst).Perm (List.range c.levels.length) := hfst ▸ hperm.map _
  obtain ⟨levels, hfold, hlen, hitems, -⟩ := foldlM_loadLevel c.items c.levels.length []
    (hkeys.nodup_iff.mpr List.nodup_range)
    (fun p hp => List.mem_range.mp (hkeys.mem_iff.mp (List.mem_map_of_mem hp)))
    (Nat.zero_le _)
  rw [hfold, Option.some.injEq]
  apply List.ext_getElem?
  intro i
  rw [List.getElem?_mapIdx]
  cases hi : c.levels[i]? with
  | none =>
    have := List.getElem?_eq_none_iff.mp hi
    rw [List.getElem?_eq_none (by omega)]
    rfl
  | some fs => exact hitems _ (hmem i fs hi)

end ExtensionStructure

end De

import DynamicExtension.ShardType
set_option autoImplicit false

namespace De
variable {R : Type} [DecidableEq R] {T : ShardType R}

/-- A level: `m_shards` is a fixed vector whose first `m_shard_cnt` entries are
shards and whose others are null pointers. -/
structure InternalLevel (T : ShardType R) where
  levelNo : Nat
  shardCnt : Nat
  shards : List (Option T.Shard)
  pendingShard : Option T.Shard
  slots : shards = (shards.filterMap id).map some ++
    List.replicate (shards.length - shardCnt) none
  shardCnt_eq : shardCnt = (shards.filterMap id).length

namespace InternalLevel

/-- The shards of a level that are not null, in slot order. -/
def live (l : InternalLevel T) : List T.Shard := l.shards.filterMap id

/-- The number of null slots. -/
def free (l : InternalLevel T) : Nat := l.shards.length - l.shardCnt

theorem filterMap_slots {α : Type} (xs : List α) (n : Nat) :
    (xs.map some ++ List.replicate n none).filterMap id = xs := by
  simp [List.filterMap_append, List.filterMap_map]

/-- The level whose first slots hold the given shards. -/
def ofSlots (T : ShardType R) (levelNo : Nat) (xs : List T.Shard) (free : Nat)
    (pending : Option T.Shard) : InternalLevel T where
  levelNo := levelNo
  shardCnt := xs.length
  shards := xs.map some ++ List.replicate free none
  pendingShard := pending
  slots := by rw [filterMap_slots]; simp
  shardCnt_eq := by rw [filterMap_slots]

@[simp] theorem live_ofSlots (n : Nat) (xs : List T.Shard) (f : Nat) (p : Option T.Shard) :
    (ofSlots T n xs f p).live = xs := filterMap_slots xs f

@[simp] theorem free_ofSlots (n : Nat) (xs : List T.Shard) (f : Nat) (p : Option T.Shard) :
    (ofSlots T n xs f p).free = f := by simp [ofSlots, free]

@[simp] theorem shardCnt_ofSlots (n : Nat) (xs : List T.Shard) (f : Nat) (p : Option T.Shard) :
    (ofSlots T n xs f p).shardCnt = xs.length := rfl

@[simp] theorem pendingShard_ofSlots (n : Nat) (xs : List T.Shard) (f : Nat)
    (p : Option T.Shard) : (ofSlots T n xs f p).pendingShard = p := rfl

@[simp] theorem levelNo_ofSlots (n : Nat) (xs : List T.Shard) (f : Nat) (p : Option T.Shard) :
    (ofSlots T n xs f p).levelNo = n := rfl

theorem length_live (l : InternalLevel T) : l.live.length = l.shardCnt := l.shardCnt_eq.symm

theorem shards_eq (l : InternalLevel T) :
    l.shards = l.live.map some ++ List.replicate l.free none := l.slots

theorem length_shards (l : InternalLevel T) : l.shards.length = l.shardCnt + l.free := by
  have := congrArg List.length l.shards_eq
  simp [length_live] at this
  exact this

theorem eq_ofSlots (l : InternalLevel T) :
    l = ofSlots T l.levelNo l.live l.free l.pendingShard := by
  obtain ⟨n, c, s, p, h₁, h₂⟩ := l
  simp only [ofSlots, live, free, mk.injEq, true_and, and_true]
  exact ⟨h₂, h₁⟩

/-- `InternalLevel(level_no, shard_cap)` -/
def new (T : ShardType R) (levelNo shardCap : Nat) : InternalLevel T :=
  ofSlots T levelNo [] shardCap none

/-- The static `reconstruction` of two levels; the assertion and the null
pointers of an empty level are fatal. -/
def reconstruction (base new : InternalLevel T) : Option (InternalLevel T) := do
  guard (base.levelNo > new.levelNo ∨ (base.levelNo = 0 ∧ new.levelNo = 0))
  let a ← base.shards[0]?.join
  let b ← new.shards[0]?.join
  let x ← T.ofShards [a, b]
  some (ofSlots T base.levelNo [x] 0 none)

/-- The static `reconstruction` of any number of levels -/
def reconstructionAll (levels : List (InternalLevel T)) (levelIdx : Nat) :
    Option (InternalLevel T) := do
  let x ← T.ofShards (levels.flatMap live)
  some (ofSlots T levelIdx [x] 0 none)

/-- `m_shards[m_shard_cnt] = shard; ++m_shard_cnt` -/
def put (l : InternalLevel T) (x : T.Shard) : InternalLevel T :=
  ofSlots T l.levelNo (l.live ++ [x]) (l.free - 1) l.pendingShard

theorem shards_put {l : InternalLevel T} (h : l.shardCnt ≠ l.shards.length) (x : T.Shard) :
    (l.put x).shards = l.shards.set l.shardCnt (some x) := by
  obtain ⟨n, hn⟩ : ∃ n, l.free = n + 1 := ⟨l.free - 1, by have := l.length_shards; omega⟩
  rw [l.shards_eq, List.set_append_right _ _ (by simp [length_live]), put, ofSlots, hn]
  simp [length_live, List.replicate_succ]

def appendLevel (l level : InternalLevel T) : Option (InternalLevel T) := do
  if level.shardCnt = 0 then
    return l
  let x ← T.ofShards level.live
  if l.shardCnt = l.shards.length then
    return ofSlots T l.levelNo l.live l.free (some x)
  return l.put x

/-- Writing past the end of `m_shards` has no defined result. -/
def appendShard (l : InternalLevel T) (shardFilename : T.File) : Option (InternalLevel T) := do
  guard (l.shardCnt < l.shards.length)
  return l.put (T.ofFile shardFilename)

def appendBuffer (l : InternalLevel T) (buffer : BufferView R) : Option (InternalLevel T) := do
  if l.shardCnt = l.shards.length then
    guard l.pendingShard.isNone
    return ofSlots T l.levelNo l.live l.free (some (T.ofBuffer buffer))
  return l.put (T.ofBuffer buffer)

/-- `m_shards[0]` has no defined result when the level has no slot at all. -/
def finalize (l : InternalLevel T) : Option (InternalLevel T) :=
  match l.pendingShard with
  | none => some l
  | some x => do
    guard (0 < l.shards.length)
    return ofSlots T l.levelNo [x] (l.shards.length - 1) none

def getShardCount (l : InternalLevel T) : Nat := l.shardCnt

def getShard (l : InternalLevel T) (idx : Nat) : Option T.Shard :=
  if idx ≥ l.shardCnt then none else l.shards[idx]?.join

def getRecordCount (l : InternalLevel T) : Nat :=
  (((l.shards.take l.shardCnt).filterMap id).map T.recordCount).sum

def clone (l : InternalLevel T) : InternalLevel T := ofSlots T l.levelNo l.live l.free none

/-- The signed multiset of a level's shards. -/
def net (l : InternalLevel T) : R → ℤ := (l.live.map fun x => De.net (T.records x)).sum

theorem take_shards (l : InternalLevel T) : l.shards.take l.shardCnt = l.live.map some := by
  rw [l.shards_eq, ← length_live, List.take_append_of_le_length (by simp),
    List.take_of_length_le (by simp)]

theorem getRecordCount_eq (l : InternalLevel T) :
    l.getRecordCount = (l.live.map T.recordCount).sum := by
  rw [getRecordCount, take_shards]
  simp [List.filterMap_map]

theorem shards_getElem? (l : InternalLevel T) (i : Nat) : l.shards[i]?.join = l.live[i]? := by
  rw [l.shards_eq]
  by_cases hi : i < l.live.length
  · rw [List.getElem?_append_left (by simpa using hi)]
    simp [hi]
  · rw [List.getElem?_append_right (by simpa using hi), List.getElem?_replicate,
      List.getElem?_eq_none (by omega)]
    split <;> rfl

theorem getShard_eq (l : InternalLevel T) (i : Nat) : l.getShard i = l.live[i]? := by
  rw [getShard, shards_getElem?, ← length_live]
  split
  · rw [List.getElem?_eq_none (by omega)]
  · rfl

@[simp] theorem live_new (n c : Nat) : (new T n c).live = [] := live_ofSlots n [] c none

@[simp] theorem free_new (n c : Nat) : (new T n c).free = c := free_ofSlots n [] c none

@[simp] theorem live_put (l : InternalLevel T) (x : T.Shard) : (l.put x).live = l.live ++ [x] :=
  live_ofSlots ..

@[simp] theorem free_put (l : InternalLevel T) (x : T.Shard) : (l.put x).free = l.free - 1 :=
  free_ofSlots ..

@[simp] theorem live_clone (l : InternalLevel T) : l.clone.live = l.live := live_ofSlots ..

@[simp] theorem free_clone (l : InternalLevel T) : l.clone.free = l.free := free_ofSlots ..

@[simp] theorem levelNo_clone (l : InternalLevel T) : l.clone.levelNo = l.levelNo := rfl

@[simp] theorem net_clone (l : InternalLevel T) : l.clone.net = l.net := by simp [net]

@[simp] theorem net_new (n c : Nat) : (new T n c).net = 0 := by simp [net]

theorem full_iff (l : InternalLevel T) : l.shardCnt = l.shards.length ↔ l.free = 0 := by
  have := l.length_shards
  omega

theorem shardCnt_eq_zero (l : InternalLevel T) : l.shardCnt = 0 ↔ l.live = [] := by
  rw [← length_live, List.length_eq_zero_iff]

theorem appendBuffer_free {l : InternalLevel T} (h : l.free ≠ 0) (v : BufferView R) :
    l.appendBuffer v = some (l.put (T.ofBuffer v)) := by
  simp [appendBuffer, full_iff, h]

theorem appendBuffer_full {l : InternalLevel T} (h : l.free = 0) (hp : l.pendingShard = none)
    (v : BufferView R) :
    l.appendBuffer v = some (ofSlots T l.levelNo l.live 0 (some (T.ofBuffer v))) := by
  simp [appendBuffer, full_iff, h, hp, guard]

theorem appendLevel_nil {l level : InternalLevel T} (h : level.live = []) :
    l.appendLevel level = some l := by
  simp [appendLevel, (shardCnt_eq_zero level).mpr h]

theorem appendLevel_free {l level : InternalLevel T} (h : l.free ≠ 0) (hne : level.live ≠ []) :
    l.appendLevel level = (T.ofShards level.live).map l.put := by
  simp only [appendLevel, full_iff, h, shardCnt_eq_zero, hne, if_false]
  cases T.ofShards level.live <;> rfl

theorem finalize_none {l : InternalLevel T} (h : l.pendingShard = none) :
    l.finalize = some l := by
  simp [finalize, h]

theorem reconstruction_eq {base new : InternalLevel T} {a b : T.Shard} {as bs : List T.Shard}
    (ha : base.live = a :: as) (hb : new.live = b :: bs)
    (hlevel : base.levelNo > new.levelNo ∨ (base.levelNo = 0 ∧ new.levelNo = 0)) :
    reconstruction base new =
      (T.ofShards [a, b]).map fun x => ofSlots T base.levelNo [x] 0 none := by
  simp only [reconstruction, hlevel, shards_getElem?, ha, hb, guard, if_true]
  cases h : T.ofShards [a, b] <;> simp [h]

end InternalLevel

end De

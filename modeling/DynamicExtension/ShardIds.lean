import DynamicExtension.Parametricity
set_option autoImplicit false

namespace De
variable {R : Type} [DecidableEq R] {T T' : ShardType R} {L : LayoutPolicy}
variable {N : Type}

/-- Shards with the id that their constructor generates, `built` from a buffer view and
`merged` from shards. A file has the id in its header. -/
def ShardType.named (T : ShardType R) (built merged : N) : ShardType R where
  Shard := N × T.Shard
  File := N × T.File
  ofBuffer v := (built, T.ofBuffer v)
  ofShards xs := (T.ofShards (xs.map Prod.snd)).map (Prod.mk merged)
  ofFile f := (f.1, T.ofFile f.2)
  file x := (x.1, T.file x.2)
  recordCount x := T.recordCount x.2
  records x := T.records x.2
  recordCount_eq x := T.recordCount_eq x.2
  ofBuffer_net := T.ofBuffer_net
  ofBuffer_count := T.ofBuffer_count
  ofShards_net xs x h := by
    obtain ⟨y, hy, rfl⟩ := Option.map_eq_some_iff.mp h
    rw [T.ofShards_net _ _ hy, List.map_map]
    rfl
  ofShards_count xs x h := by
    obtain ⟨y, hy, rfl⟩ := Option.map_eq_some_iff.mp h
    have hle := T.ofShards_count _ _ hy
    rwa [List.map_map] at hle
  ofBuffer_mem := T.ofBuffer_mem
  ofShards_mem xs x h w hw := by
    obtain ⟨y, hy, rfl⟩ := Option.map_eq_some_iff.mp h
    obtain ⟨z, hz, hwz⟩ := T.ofShards_mem _ _ hy w hw
    obtain ⟨z', hz', rfl⟩ := List.mem_map.mp hz
    exact ⟨z', hz', hwz⟩
  file_ofFile f := by rw [T.file_ofFile]
  records_congr x y h := T.records_congr x.2 y.2 (Prod.mk.inj h).2
  ofShards_congr xs ys h := by
    have hfiles : (xs.map Prod.snd).map T.file = (ys.map Prod.snd).map T.file := by
      simpa [Function.comp_def] using congrArg (List.map Prod.snd) h
    have hcongr := congrArg (Option.map (Prod.mk merged)) (T.ofShards_congr _ _ hfiles)
    simpa [Option.map_map, Function.comp_def] using hcongr

/-! The same structure over shards that a function makes of its own -/

namespace InternalLevel

def mapShards (φ : T.Shard → T'.Shard) (l : InternalLevel T) : InternalLevel T' :=
  ofSlots T' l.levelNo (l.live.map φ) l.free (l.pendingShard.map φ)

theorem related_mapShards {r : T.Shard → T'.Shard → Prop} {φ : T.Shard → T'.Shard}
    (l : InternalLevel T) (hr : ∀ x, r x (φ x)) : Related r l (l.mapShards φ) := by
  refine ⟨rfl, by simp [mapShards], ?_, ?_⟩
  · rw [mapShards, live_ofSlots, List.forall₂_map_right_iff, List.forall₂_same]
    exact fun x _ => hr x
  · rw [mapShards, pendingShard_ofSlots]
    cases l.pendingShard with
    | none => exact .none
    | some x => exact .some (hr x)

theorem Related.eq_mapShards {φ : T.Shard → T'.Shard} {l : InternalLevel T}
    {l' : InternalLevel T'} (h : Related (fun x y => y = φ x) l l') : l' = l.mapShards φ := by
  have hlive : l'.live = l.live.map φ := by
    have hmap : List.Forall₂ (fun y z => z = y) (l.live.map φ) l'.live :=
      List.forall₂_map_left_iff.mpr h.live
    exact (List.forall₂_eq_eq_eq ▸ hmap.imp fun _ _ => Eq.symm : l.live.map φ = l'.live).symm
  have hpending : l'.pendingShard = l.pendingShard.map φ := by
    have hrel := h.pending
    cases hp : l.pendingShard with
    | none =>
      rw [hp] at hrel
      generalize l'.pendingShard = p at hrel
      cases hrel
      rfl
    | some x =>
      rw [hp] at hrel
      generalize l'.pendingShard = p at hrel
      cases hrel with
      | some hxy => rw [hxy, Option.map_some]
  rw [l'.eq_ofSlots, ← h.levelNo, ← h.free, hlive, hpending]
  rfl

end InternalLevel

namespace ExtensionStructure

def mapShards (φ : T.Shard → T'.Shard) (s : ExtensionStructure T L) : ExtensionStructure T' L :=
  ⟨s.scaleFactor, s.bufferSize, s.flushSeq, s.levels.map (InternalLevel.mapShards φ),
    s.currentState⟩

theorem related_mapShards {r : T.Shard → T'.Shard → Prop} {φ : T.Shard → T'.Shard}
    (s : ExtensionStructure T L) (hr : ∀ x, r x (φ x)) : Related r s (s.mapShards φ) := by
  refine ⟨rfl, rfl, rfl, ?_, rfl⟩
  rw [mapShards, List.forall₂_map_right_iff, List.forall₂_same]
  exact fun l _ => l.related_mapShards hr

theorem Related.eq_mapShards {φ : T.Shard → T'.Shard} {s : ExtensionStructure T L}
    {s' : ExtensionStructure T' L} (h : Related (fun x y => y = φ x) s s') :
    s' = s.mapShards φ := by
  have hlevels : s'.levels = s.levels.map (InternalLevel.mapShards φ) := by
    have hmap : List.Forall₂ (fun k l => l = k) (s.levels.map (InternalLevel.mapShards φ))
        s'.levels := List.forall₂_map_left_iff.mpr (h.levels.imp fun _ _ hl => hl.eq_mapShards)
    exact (List.forall₂_eq_eq_eq ▸ hmap.imp fun _ _ => Eq.symm :
      s.levels.map (InternalLevel.mapShards φ) = s'.levels).symm
  obtain ⟨scale, size, seq, levels, state⟩ := s'
  obtain ⟨hscale, hsize, hseq, -, hstate⟩ := h
  cases hscale
  cases hsize
  cases hseq
  cases hstate
  cases hlevels
  rfl

theorem mapShards_mapShards {T₁ T₂ T₃ : ShardType R} (s : ExtensionStructure T₁ L)
    (φ : T₁.Shard → T₂.Shard) (ψ : T₂.Shard → T₃.Shard) :
    (s.mapShards φ).mapShards ψ = s.mapShards fun x => ψ (φ x) := by
  simp only [mapShards, List.map_map]
  congr 2
  funext l
  simp [InternalLevel.mapShards, Function.comp_def]

/-- Every shard that the structure holds, the pending ones included -/
def held (s : ExtensionStructure T L) : List T.Shard :=
  s.levels.flatMap fun l => l.live ++ l.pendingShard.toList

theorem related_self {r : T.Shard → T.Shard → Prop} {s : ExtensionStructure T L}
    (hr : ∀ x ∈ s.held, r x x) : Related r s s := by
  refine ⟨rfl, rfl, rfl, List.forall₂_same.mpr fun l hl => ⟨rfl, rfl, ?_, ?_⟩, rfl⟩
  · exact List.forall₂_same.mpr fun x hx =>
      hr x (List.mem_flatMap.mpr ⟨l, hl, List.mem_append_left _ hx⟩)
  · cases hp : l.pendingShard with
    | none => exact .none
    | some x => exact .some (hr x (List.mem_flatMap.mpr ⟨l, hl, by simp [hp]⟩))

theorem Related.of_mem_held {r : T.Shard → T.Shard → Prop} {s : ExtensionStructure T L}
    (h : Related r s s) {x : T.Shard} (hx : x ∈ s.held) : r x x := by
  obtain ⟨l, hl, hx⟩ := List.mem_flatMap.mp hx
  have hrel := List.forall₂_same.mp h.levels l hl
  rcases List.mem_append.mp hx with hx | hx
  · exact List.forall₂_same.mp hrel.live x hx
  · have hp : l.pendingShard = some x := by simpa using hx
    have hpending := hrel.pending
    rwa [hp, Option.rel_some_some] at hpending

/-- What a structure goes through between two checkpoints -/
inductive Build (R : Type) where
  | reconstruct (task : ReconstructionTask)
  | flush (buffer : BufferView R)

def build (s : ExtensionStructure T L) : Build R → Option (ExtensionStructure T L)
  | .reconstruct task => s.reconstructTask task
  | .flush buffer => s.flushBuffer buffer

theorem Related.build {r : T.Shard → T'.Shard → Prop} {s : ExtensionStructure T L}
    {s' : ExtensionStructure T' L} (h : Related r s s') (hT : T.Related T' r) (op : Build R) :
    Option.Rel (Related r) (s.build op) (s'.build op) := by
  cases op with
  | reconstruct task => exact h.reconstructTask hT task
  | flush buffer => exact h.flushBuffer hT buffer

/-! Ids -/

section Ids
variable {built merged : N}

/-- The shard of a file, with its id -/
def sameShard {built' merged' : N} (x : (T.named built merged).Shard) :
    (T.named built' merged').Shard := x

/-- The structure, for constructors that generate other ids from now on -/
def withIds (s : ExtensionStructure (T.named built merged) L) (built' merged' : N) :
    ExtensionStructure (T.named built' merged') L := s.mapShards sameShard

/-- The shards without their ids -/
def erase (s : ExtensionStructure (T.named built merged) L) : ExtensionStructure T L :=
  s.mapShards Prod.snd

theorem erase_withIds (s : ExtensionStructure (T.named built merged) L) (built' merged' : N) :
    (s.withIds built' merged').erase = s.erase := mapShards_mapShards s _ _

theorem named_related_erase (T : ShardType R) (built merged : N) :
    (T.named built merged).Related T fun x y => y = x.2 where
  ofBuffer _ := rfl
  ofShards xs ys h := by
    have hys : ys = xs.map Prod.snd := by
      have hmap : List.Forall₂ (fun y z => z = y) (xs.map Prod.snd) ys :=
        List.forall₂_map_left_iff.mpr h
      exact (List.forall₂_eq_eq_eq ▸ hmap.imp fun _ _ => Eq.symm : xs.map Prod.snd = ys).symm
    subst hys
    simp only [ShardType.named]
    cases T.ofShards (xs.map Prod.snd) with
    | none => exact .none
    | some x => exact .some rfl
  recordCount x y h := by
    subst h
    rfl

theorem erase_build (s : ExtensionStructure (T.named built merged) L) (op : Build R) :
    (s.build op).map erase = s.erase.build op := by
  have hrel : Related (fun (x : N × T.Shard) y => y = x.2) s s.erase :=
    s.related_mapShards fun _ => rfl
  have hbuild := hrel.build (named_related_erase T built merged) op
  generalize s.build op = t at hbuild
  generalize s.erase.build op = t' at hbuild
  cases hbuild with
  | none => rfl
  | some h => exact congrArg some h.eq_mapShards.symm

theorem named_related_keep (T : ShardType R) (built merged : N) (old : List (N × T.Shard)) :
    (T.named built merged).Related (T.named built merged) fun x y : N × T.Shard =>
      x = y ∧ (x ∈ old ∨ x.1 = built ∨ x.1 = merged) where
  ofBuffer _ := ⟨rfl, .inr (.inl rfl)⟩
  ofShards xs ys h := by
    have hys : xs = ys := by
      rw [← List.forall₂_eq_eq_eq]
      exact h.imp fun _ _ hxy => hxy.1
    subst hys
    simp only [ShardType.named]
    cases T.ofShards (xs.map Prod.snd) with
    | none => exact .none
    | some x => exact .some ⟨rfl, .inr (.inr rfl)⟩
  recordCount x y h := by rw [h.1]

theorem held_build {s s' : ExtensionStructure (T.named built merged) L} {op : Build R}
    (hbuild : s.build op = some s') :
    ∀ x : N × T.Shard, x ∈ s'.held → x ∈ s.held ∨ x.1 = built ∨ x.1 = merged := by
  have hself : Related (fun x y : N × T.Shard =>
      x = y ∧ (x ∈ s.held ∨ x.1 = built ∨ x.1 = merged)) s s :=
    related_self fun x hx => ⟨rfl, .inl hx⟩
  have hrel := hself.build (named_related_keep T built merged s.held) op
  rw [hbuild, Option.rel_some_some] at hrel
  exact fun x hx => (hrel.of_mem_held hx).2

theorem mem_held_of_checkpoint {s : ExtensionStructure T L} {f : T.File}
    (hf : f ∈ s.checkpoint.levels.flatten) : ∃ x ∈ s.held, f = T.file x := by
  obtain ⟨fs, hfs, hf⟩ := List.mem_flatten.mp hf
  obtain ⟨l, hl, rfl⟩ := List.mem_map.mp hfs
  obtain ⟨x, hx, rfl⟩ := List.mem_map.mp hf
  exact ⟨x, List.mem_flatMap.mpr ⟨l, hl, List.mem_append_left _ hx⟩, rfl⟩

theorem held_reloaded {s : ExtensionStructure T L} {x : T.Shard} (hx : x ∈ s.reloaded.held) :
    ∃ f ∈ s.checkpoint.levels.flatten, x = T.ofFile f := by
  obtain ⟨l, hl, hx⟩ := List.mem_flatMap.mp hx
  obtain ⟨i, hi, rfl⟩ := List.mem_mapIdx.mp hl
  have hlive : x ∈ s.checkpoint.levels[i].map T.ofFile := by
    simpa [loadedLevel] using hx
  obtain ⟨f, hf, rfl⟩ := List.mem_map.mp hlive
  exact ⟨f, List.mem_flatten.mpr ⟨_, List.getElem_mem hi, hf⟩, rfl⟩

theorem checkpoint_reloaded (s : ExtensionStructure T L) :
    s.reloaded.checkpoint = s.checkpoint := by
  have hlevels : s.reloaded.levels.map InternalLevel.files =
      s.levels.map InternalLevel.files := by
    apply List.ext_getElem?
    intro i
    rw [List.getElem?_map, levels_reloaded, List.getElem?_map, Option.map_map]
    congr 1
    funext l
    exact files_loadedLevel i l.files
  exact congrArg (Checkpoint.mk s.flushSeq) hlevels

/-- The checkpoint without the ids -/
def eraseCheckpoint (c : Checkpoint (T.named built merged)) : Checkpoint T :=
  ⟨c.flushSeq, c.levels.map fun fs => fs.map Prod.snd⟩

theorem checkpoint_erase (s : ExtensionStructure (T.named built merged) L) :
    s.erase.checkpoint = eraseCheckpoint s.checkpoint := by
  have hfiles : ∀ xs : List (N × T.Shard), (xs.map Prod.snd).map T.file =
      (xs.map fun x => (x.1, T.file x.2)).map Prod.snd := by
    intro xs
    simp
  simp only [checkpoint, erase, mapShards, eraseCheckpoint, List.map_map]
  congr 1
  refine List.map_congr_left fun l _ => ?_
  simp only [Function.comp_apply, InternalLevel.mapShards, InternalLevel.live_ofSlots]
  exact hfiles l.live

theorem erase_reloaded (s : ExtensionStructure (T.named built merged) L) :
    s.reloaded.erase = s.erase.reloaded := by
  have hrel : Related (fun (x : N × T.Shard) y => y = x.2) s s.erase :=
    s.related_mapShards fun _ => rfl
  refine (hrel.reloaded (named_related_erase T built merged) fun x y hxy => ?_).eq_mapShards.symm
  subst hxy
  rfl

end Ids

end ExtensionStructure

end De

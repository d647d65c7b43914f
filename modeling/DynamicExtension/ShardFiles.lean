import DynamicExtension.CrashRecovery
import DynamicExtension.Library.FileStore
import DynamicExtension.ShardIds
set_option autoImplicit false

namespace De
variable {R : Type} [DecidableEq R] {T : ShardType R} {L : LayoutPolicy}
variable {N : Type} [Inhabited N]

open ExtensionStructure

/-- `checkpoint.json`: the sequence, and for every level the names of its shard files -/
structure Manifest (N : Type) where
  flushSeq : Nat
  levels : List (List N)

/-- A structure whose shards have their ids -/
abbrev Named (T : ShardType R) (L : LayoutPolicy) (N : Type) [Inhabited N] :=
  ExtensionStructure (T.named (default : N) default) L

/-- A reconstruction or a flush whose constructors generate the given ids -/
def Named.build (s : Named T L N) (built merged : N) (op : Build R) : Option (Named T L N) :=
  ((s.withIds built merged).build op).map fun s' => s'.withIds default default

namespace Manifest

def names (m : Manifest N) : List N := m.levels.flatten

/-- `get_filename` of every shard -/
def ofCheckpoint (c : Checkpoint (T.named (default : N) default)) : Manifest N :=
  ⟨c.flushSeq, c.levels.map fun fs => fs.map Prod.fst⟩

/-- The files of the names of every level; a missing one is `none`. -/
def openLevels {F : Type} (files : N → Option F) (levels : List (List N)) :
    Option (List (List F)) :=
  levels.mapM fun names => names.mapM files

/-- What `load_checkpoint` opens -/
def openFiles (m : Manifest N) (files : N → Option (N × T.File)) :
    Option (Checkpoint (T.named (default : N) default)) :=
  (openLevels files m.levels).map fun levels => ⟨m.flushSeq, levels⟩

theorem mapM_of_forall {α β : Type} {f : α → β} {g : β → Option α} {xs : List α}
    (h : ∀ x ∈ xs, g (f x) = some x) : (xs.map f).mapM g = some xs := by
  induction xs with
  | nil => rfl
  | cons x xs ih =>
    rw [List.map_cons, List.mapM_cons, h x List.mem_cons_self,
      ih fun y hy => h y (List.mem_cons_of_mem x hy)]
    rfl

omit [Inhabited N] in
theorem openLevels_of_forall {F : Type} {name : F → N} {files : N → Option F}
    {levels : List (List F)} (h : ∀ f ∈ levels.flatten, files (name f) = some f) :
    openLevels files (levels.map fun fs => fs.map name) = some levels :=
  mapM_of_forall fun fs hfs =>
    mapM_of_forall fun f hf => h f (List.mem_flatten.mpr ⟨fs, hfs, hf⟩)

theorem openFiles_ofCheckpoint {c : Checkpoint (T.named (default : N) default)}
    {files : N → Option (N × T.File)}
    (h : ∀ f : N × T.File, f ∈ c.levels.flatten → files f.1 = some f) :
    (ofCheckpoint c).openFiles files = some c :=
  congrArg (Option.map _) (openLevels_of_forall h)

theorem mem_names_ofCheckpoint {c : Checkpoint (T.named (default : N) default)} {n : N}
    (hn : n ∈ (ofCheckpoint c).names) :
    ∃ f : N × T.File, f ∈ c.levels.flatten ∧ f.1 = n := by
  obtain ⟨ns, hns, hn⟩ := List.mem_flatten.mp hn
  obtain ⟨fs, hfs, rfl⟩ := List.mem_map.mp hns
  obtain ⟨f, hf, rfl⟩ := List.mem_map.mp hn
  exact ⟨f, List.mem_flatten.mpr ⟨fs, hfs, hf⟩, rfl⟩

end Manifest

/-- The directories `shards/` and `tmp_shards/` and the checkpoint, next to the structure of
the process that runs on them -/
structure ShardFiles (T : ShardType R) (L : LayoutPolicy) (N : Type) [Inhabited N] where
  store : FileStore.Store N (N × T.File) (Manifest N)
  vers : Option (Named T L N)

namespace ShardFiles

/-- A file is named by the id in its header. -/
def OwnName (n : N) (f : N × T.File) : Prop := f.1 = n

/-- The constructor of the structure with the checkpoint file as it is -/
def load (st : ShardFiles T L N) (bufferSize scaleFactor : Nat) : Option (Named T L N) :=
  match st.store.manifest with
  | none => ExtensionStructure.ofCheckpoint _ L bufferSize scaleFactor none
  | some m => (m.openFiles st.store.files).bind fun c =>
      ExtensionStructure.ofCheckpoint _ L bufferSize scaleFactor (some c)

/-- What holds at every moment -/
structure Inv (saved : Option (Named T L N)) (st : ShardFiles T L N) : Prop where
  store : FileStore.Inv Manifest.names OwnName st.store
  vers : st.vers.isSome ↔ st.store.phase ≠ .down
  held : ∀ s, st.vers = some s → ∀ x : N × T.Shard, x ∈ s.held →
    st.store.Finished x.1 (x.1, T.file x.2)
  manifest : st.store.manifest = saved.map fun s => .ofCheckpoint s.checkpoint
  saved : ∀ s, saved = some s → ∀ f : N × T.File, f ∈ s.checkpoint.levels.flatten →
    st.store.files f.1 = some f

theorem Inv.load_saved {saved : Option (Named T L N)} {st : ShardFiles T L N} (h : Inv saved st)
    {s : Named T L N} (hs : saved = some s) (bufferSize scaleFactor : Nat) :
    st.load bufferSize scaleFactor =
      some { s with bufferSize := bufferSize, scaleFactor := scaleFactor }.reloaded := by
  have hm : st.store.manifest = some (.ofCheckpoint s.checkpoint) := by rw [h.manifest, hs]; rfl
  simp only [load, hm, Manifest.openFiles_ofCheckpoint (h.saved s hs), Option.bind_some]
  exact ofCheckpoint_eq { s with bufferSize := bufferSize, scaleFactor := scaleFactor }

theorem Inv.load_new {saved : Option (Named T L N)} {st : ShardFiles T L N} (h : Inv saved st)
    (hs : saved = none) (bufferSize scaleFactor : Nat) :
    st.load bufferSize scaleFactor = some (.new _ L bufferSize scaleFactor) := by
  have hm : st.store.manifest = none := by rw [h.manifest, hs]; rfl
  simp only [load, hm]
  rfl

section Steps
variable {saved : Option (Named T L N)} {st : ShardFiles T L N} {n : N} {b : Bool}

theorem Inv.listed (h : Inv saved st) (hn : st.store.Listed Manifest.names n) :
    ∃ s, saved = some s ∧ ∃ f : N × T.File, f ∈ s.checkpoint.levels.flatten ∧ f.1 = n := by
  obtain ⟨m, hm, hn⟩ := hn
  rw [h.manifest] at hm
  obtain ⟨s, hs, rfl⟩ := Option.map_eq_some_iff.mp hm
  exact ⟨s, hs, Manifest.mem_names_ofCheckpoint hn⟩

theorem Inv.saved_listed (h : Inv saved st) {s : Named T L N} (hs : saved = some s)
    {f : N × T.File} (hf : f ∈ s.checkpoint.levels.flatten) :
    st.store.Listed Manifest.names f.1 := by
  refine ⟨.ofCheckpoint s.checkpoint, by rw [h.manifest, hs]; rfl, ?_⟩
  obtain ⟨fs, hfs, hf⟩ := List.mem_flatten.mp hf
  exact List.mem_flatten.mpr ⟨_, List.mem_map_of_mem hfs, List.mem_map_of_mem hf⟩

theorem Inv.held_build (h : Inv saved st) {s s' : Named T L N} (hvers : st.vers = some s)
    (hnew : ∀ x : N × T.Shard, x ∈ s'.held → x ∉ s.held →
      st.store.Finished x.1 (x.1, T.file x.2)) (x : N × T.Shard) (hx : x ∈ s'.held) :
    st.store.Finished x.1 (x.1, T.file x.2) := by
  by_cases hold : x ∈ s.held
  · exact h.held s hvers x hold
  · exact hnew x hx hold

end Steps

variable [DecidableEq N]

/-- The steps, with the structure that is saved if it is one of `save_checkpoint`. Every
shard that the structure did not hold before has its file by then. -/
inductive Step : Option (Named T L N) → ShardFiles T L N → ShardFiles T L N → Prop
  | create {st : ShardFiles T L N} {n : N} {b : Bool} (hrun : st.store.phase = .running b)
      (hfile : st.store.files n = none) (htemp : st.store.temps n = false) :
      Step none st { st with store := st.store.create n }
  | rename {st : ShardFiles T L N} {n : N} {b : Bool} (hrun : st.store.phase = .running b)
      (hwriting : st.store.handles n = some .writing) (x : T.Shard) :
      Step none st { st with store := st.store.rename n (n, T.file x) }
  | save {st : ShardFiles T L N} {s s' : Named T L N} {built merged : N} {op : Build R} {b : Bool}
      (hrun : st.store.phase = .running b) (hvers : st.vers = some s)
      (hbuild : s.build built merged op = some s')
      (hnew : ∀ x : N × T.Shard, x ∈ s'.held → x ∉ s.held →
        st.store.Finished x.1 (x.1, T.file x.2)) :
      Step (some s') st ⟨st.store.publish (.ofCheckpoint s'.checkpoint), some s'⟩
  | stop {st : ShardFiles T L N} : Step none st ⟨st.store.stop, none⟩
  | startEmpty {st : ShardFiles T L N} (hdown : st.store.phase = .down)
      (hm : st.store.manifest = none) (bufferSize scaleFactor : Nat) :
      Step none st ⟨st.store.startEmpty, st.load bufferSize scaleFactor⟩
  | startListed {st : ShardFiles T L N} {m : Manifest N} (hdown : st.store.phase = .down)
      (hm : st.store.manifest = some m) (bufferSize scaleFactor : Nat) :
      Step none st ⟨st.store.startListed m.names, st.load bufferSize scaleFactor⟩
  | cleanup {st : ShardFiles T L N} {store' : FileStore.Store N (N × T.File) (Manifest N)}
      (hstep : FileStore.Cleanup Manifest.names st.store store') :
      Step none st { st with store := store' }

/-- The runs from empty directories, with the structure saved last. The process may stop at
any moment. -/
inductive Reached : Option (Named T L N) → ShardFiles T L N → Prop
  | empty : Reached none ⟨.empty, none⟩
  | step {saved e : Option (Named T L N)} {st st' : ShardFiles T L N} (h : Reached saved st)
      (hstep : Step e st st') : Reached (e <|> saved) st'

section Steps
variable {saved e : Option (Named T L N)} {st st' : ShardFiles T L N} {n : N} {b : Bool}

theorem Step.store (hstep : Step e st st') (h : Inv saved st) :
    FileStore.Step Manifest.names OwnName st.store st'.store := by
  cases hstep with
  | create hrun hfile htemp => exact .create hrun hfile htemp
  | rename hrun hwriting x => exact .rename hrun hwriting rfl
  | @save _ s s' _ _ _ _ hrun hvers _ hnew =>
    refine .publish hrun fun n hn => ?_
    obtain ⟨f, hf, rfl⟩ := Manifest.mem_names_ofCheckpoint hn
    obtain ⟨x, hx, rfl⟩ := mem_held_of_checkpoint hf
    exact ⟨_, h.held_build hvers hnew x hx⟩
  | stop => exact .stop
  | startEmpty hdown hm _ _ => exact .startEmpty hdown hm
  | startListed hdown hm _ _ => exact .startListed hdown hm
  | cleanup hclean => exact .cleanup hclean

theorem Step.saved_files (hstep : Step none st st') (h : Inv saved st) :
    ∀ s, saved = some s → ∀ f : N × T.File, f ∈ s.checkpoint.levels.flatten →
      st'.store.files f.1 = some f := by
  intro s hs f hf
  rw [(hstep.store h).files_listed h.store (h.saved_listed hs hf)]
  exact h.saved s hs f hf

theorem Step.inv (hstep : Step e st st') (h : Inv saved st) : Inv (e <|> saved) st' := by
  have hstore := (hstep.store h).inv h.store
  cases hstep with
  | create hrun hfile htemp =>
    refine ⟨hstore, h.vers, fun s hs x hx => ?_, h.manifest,
      (Step.create hrun hfile htemp).saved_files h⟩
    exact h.store.finished_create hfile (h.held s hs x hx)
  | rename hrun hwriting y =>
    refine ⟨hstore, h.vers, fun s hs x hx => ?_, h.manifest,
      (Step.rename hrun hwriting y).saved_files h⟩
    exact FileStore.finished_rename hwriting (h.held s hs x hx)
  | save hrun hvers hbuild hnew =>
    refine ⟨hstore, by simp [hrun], fun s hs x hx => ?_, rfl, fun s hs f hf => ?_⟩
    · obtain rfl := Option.some.inj hs
      exact h.held_build hvers hnew x hx
    · obtain rfl := Option.some.inj hs
      obtain ⟨x, hx, rfl⟩ := mem_held_of_checkpoint hf
      exact h.store.finished _ _ (h.held_build hvers hnew x hx)
  | stop =>
    exact ⟨hstore, by simp, fun s hs => by simp at hs, h.manifest, h.saved⟩
  | startEmpty hdown hm bufferSize scaleFactor =>
    have hnone : saved = none := by
      rw [h.manifest] at hm
      exact Option.map_eq_none_iff.mp hm
    have hload := h.load_new hnone bufferSize scaleFactor
    refine ⟨hstore, by simp [hload], fun s hs x hx => ?_, h.manifest, h.saved⟩
    obtain rfl := Option.some.inj (hload.symm.trans hs)
    cases hx
  | @startListed _ m hdown hm bufferSize scaleFactor =>
    have hsome := hm
    rw [h.manifest] at hsome
    obtain ⟨s, rfl, rfl⟩ := Option.map_eq_some_iff.mp hsome
    have hload := h.load_saved rfl bufferSize scaleFactor
    refine ⟨hstore, by simp [hload], fun s' hs' x hx => ?_, h.manifest, h.saved⟩
    obtain rfl := Option.some.inj (hload.symm.trans hs')
    obtain ⟨⟨n, f⟩, hf, rfl⟩ := held_reloaded hx
    obtain ⟨m', hm', hname⟩ := h.saved_listed rfl hf
    obtain rfl := Option.some.inj (hm.symm.trans hm')
    change FileStore.Store.Finished _ n (n, T.file (T.ofFile f))
    rw [T.file_ofFile]
    exact FileStore.finished_startListed hname (h.saved s rfl (n, f) hf)
  | cleanup hclean =>
    obtain ⟨hhandles, hmanifest, hup, hup'⟩ := hclean.handles
    refine ⟨hstore, h.vers.trans (by simp [hup, hup']), fun s hs x hx => ?_,
      hmanifest.trans h.manifest, (Step.cleanup hclean).saved_files h⟩
    rw [FileStore.Store.Finished, hhandles]
    exact h.held s hs x hx

theorem Reached.inv (h : Reached saved st) : Inv saved st := by
  induction h with
  | empty =>
    refine ⟨FileStore.inv_empty, by simp [FileStore.Store.empty], ?_, rfl, ?_⟩
    · intro s hs
      cases hs
    · intro s hs
      cases hs
  | step _ hstep ih => exact hstep.inv ih

theorem exists_stopped : ∃ (s : Named (ShardType.lists Nat) .teiring Nat)
    (st : ShardFiles (ShardType.lists Nat) .teiring Nat),
    Reached (some s) st ∧ s.held ≠ [] ∧ st.store.phase = .down ∧ st.store.temps 2 = true ∧
      st.store.manifest = some (.ofCheckpoint s.checkpoint) := by
  have hbuild : (Named.build (.new _ .teiring 1 2 : Named (ShardType.lists Nat) .teiring Nat) 1 0
      (.flush (sampleView [(5, false)]))).map held = some [(1, [Wrapped.fresh 5 false])] := by
    rfl
  obtain ⟨s, hs, hheld⟩ := Option.map_eq_some_iff.mp hbuild
  have hstart := Reached.empty.step (.startEmpty (T := ShardType.lists Nat) (L := .teiring)
    (N := Nat) rfl rfl 1 2)
  have hcreate := hstart.step (.create (n := 1) rfl rfl rfl)
  have hrename := hcreate.step (.rename (n := 1) rfl rfl [Wrapped.fresh 5 false])
  have hsave := hrename.step (.save rfl rfl hs fun x hx _ => by
    obtain rfl : x = (1, [Wrapped.fresh 5 false]) := List.mem_singleton.mp (hheld ▸ hx)
    rfl)
  have hstop := (hsave.step (.create (n := 2) rfl rfl rfl)).step .stop
  exact ⟨s, _, hstop, hheld ▸ List.cons_ne_nil _ _, rfl, rfl, rfl⟩

/-- Wherever the process stops, every file that the checkpoint names is in `shards/` under
the id in its header, and the constructor makes of it what was saved last. -/
theorem reopens_last_saved (h : Reached saved st) :
    (∀ n, st.store.Listed Manifest.names n → ∃ f, st.store.files n = some f ∧ f.1 = n) ∧
    (∀ bufferSize scaleFactor, ∃ t, st.load bufferSize scaleFactor = some t ∧
      (∀ s, saved = some s → t.checkpoint = s.checkpoint ∧ t.net = s.net) ∧
      (saved = none → t = .new _ L bufferSize scaleFactor)) := by
  have hinv := h.inv
  refine ⟨fun n hn => ?_, fun bufferSize scaleFactor => ?_⟩
  · obtain ⟨f, hf⟩ := Option.ne_none_iff_exists'.mp (hinv.store.listed n hn)
    exact ⟨f, hf, hinv.store.content n f hf⟩
  · cases hs : saved with
    | none =>
      exact ⟨_, hinv.load_new hs bufferSize scaleFactor, nofun, fun _ => rfl⟩
    | some s =>
      refine ⟨_, hinv.load_saved hs bufferSize scaleFactor, fun s' hs' => ?_, nofun⟩
      obtain rfl := Option.some.inj hs'
      exact ⟨checkpoint_reloaded _, net_reloaded _⟩

theorem reopens_last_saved_sample : ∃ (s : Named (ShardType.lists Nat) .teiring Nat)
    (st : ShardFiles (ShardType.lists Nat) .teiring Nat), s.held ≠ [] ∧
    st.store.temps 2 = true ∧ ∃ t, st.load 1 2 = some t ∧ t.net = s.net := by
  obtain ⟨s, st, hst, hheld, -, htemp, -⟩ := exists_stopped
  obtain ⟨t, ht, hsaved, -⟩ := (reopens_last_saved hst).2 1 2
  exact ⟨s, st, hheld, htemp, t, ht, (hsaved s rfl).2⟩

/-- A process that started from a checkpoint has in its directories what it has opened,
built or is building and nothing else, and every start from a checkpoint can get there:
with the structure saved last, the listed files and no others. -/
theorem cleaned_up (h : Reached saved st) :
    (st.store.phase = .running true → ∀ n,
      (st.store.files n ≠ none → ∃ f, st.store.Finished n f) ∧
      (st.store.temps n = true → st.store.handles n = some .writing)) ∧
    (st.store.phase = .down → ∀ m, st.store.manifest = some m → ∀ bufferSize scaleFactor,
      ∃ st', Reached saved st' ∧ st'.store.phase = .running true ∧
        st'.vers = st.load bufferSize scaleFactor ∧ ∀ n, st'.store.temps n = false ∧
          st'.store.files n = if n ∈ m.names then st.store.files n else none) := by
  refine ⟨fun hrun => h.inv.store.cleaned hrun, fun hdown m hm bufferSize scaleFactor => ?_⟩
  have hstart := h.step (.startListed hdown hm bufferSize scaleFactor)
  obtain ⟨store', hclean, hphase, hstore'⟩ := hstart.inv.store.exists_cleaned rfl
  have hlisted : ∀ n, (st.store.startListed m.names).Listed Manifest.names n ↔ n ∈ m.names := by
    intro n
    refine ⟨fun hn => ?_, fun hn => ⟨m, hm, hn⟩⟩
    obtain ⟨m', hm', hn⟩ := hn
    obtain rfl : m = m' := Option.some.inj (hm.symm.trans hm')
    exact hn
  refine ⟨⟨store', st.load bufferSize scaleFactor⟩, ?_, hphase, rfl, fun n =>
    ⟨(hstore' n).1, ?_⟩⟩
  · clear hphase hstore'
    induction hclean with
    | refl => exact hstart
    | tail _ hstep ih => exact ih.step (.cleanup hstep)
  · by_cases hn : n ∈ m.names
    · rw [if_pos hn]
      exact (hstore' n).2.1 ((hlisted n).mpr hn)
    · rw [if_neg hn]
      exact (hstore' n).2.2 (mt (hlisted n).mp hn)

theorem cleaned_up_sample : ∃ (s : Named (ShardType.lists Nat) .teiring Nat)
    (st : ShardFiles (ShardType.lists Nat) .teiring Nat), s.held ≠ [] ∧ Reached (some s) st ∧
    st.store.phase = .running true ∧ ∀ n, st.store.temps n = false := by
  obtain ⟨s, st, hst, hheld, hdown, -, hm⟩ := exists_stopped
  obtain ⟨st', hst', hrun, -, hstore⟩ := (cleaned_up hst).2 hdown _ hm 1 2
  exact ⟨s, st', hheld, hst', hrun, fun n => (hstore n).1⟩

end Steps

end ShardFiles

/-- The structure of a process and the checkpoint, with the shard files left out -/
structure SavedStructure (T : ShardType R) (L : LayoutPolicy) where
  vers : Option (ExtensionStructure T L)
  checkpoint : Option (Checkpoint T)

inductive SavedStructure.Step : SavedStructure T L → SavedStructure T L → Prop
  | stay {a : SavedStructure T L} : Step a a
  | build {a : SavedStructure T L} {s s' : ExtensionStructure T L} {op : Build R}
      (hvers : a.vers = some s) (hbuild : s.build op = some s') :
      Step a ⟨some s', some s'.checkpoint⟩
  | stop {a : SavedStructure T L} : Step a ⟨none, a.checkpoint⟩
  | start {a : SavedStructure T L} (hvers : a.vers = none) (bufferSize scaleFactor : Nat) :
      Step a ⟨ofCheckpoint T L bufferSize scaleFactor a.checkpoint, a.checkpoint⟩

namespace ShardFiles

/-- What is left without the ids: the checkpoint has the files in place of their names. -/
def withoutIds (st : ShardFiles T L N) : SavedStructure T L :=
  ⟨st.vers.map erase,
    st.store.manifest.bind fun m => (m.openFiles st.store.files).map eraseCheckpoint⟩

theorem Inv.withoutIds_eq {saved : Option (Named T L N)} {st : ShardFiles T L N}
    (h : Inv saved st) :
    st.withoutIds = ⟨st.vers.map erase, saved.map fun s => s.erase.checkpoint⟩ := by
  have hsaved : (st.store.manifest.bind fun m =>
      (m.openFiles st.store.files).map eraseCheckpoint) =
        saved.map fun s => s.erase.checkpoint := by
    rw [h.manifest]
    cases hs : saved with
    | none => rfl
    | some s =>
      simp only [Option.map_some, Option.bind_some,
        Manifest.openFiles_ofCheckpoint (h.saved s hs), checkpoint_erase]
  rw [withoutIds, hsaved]

theorem Inv.load_erase {saved : Option (Named T L N)} {st : ShardFiles T L N} (h : Inv saved st)
    (bufferSize scaleFactor : Nat) :
    (st.load bufferSize scaleFactor).map erase = ofCheckpoint T L bufferSize scaleFactor
      (saved.map fun s => s.erase.checkpoint) := by
  cases hs : saved with
  | none =>
    rw [h.load_new hs]
    rfl
  | some s =>
    rw [h.load_saved hs, Option.map_some, erase_reloaded]
    exact (ofCheckpoint_eq
      { s.erase with bufferSize := bufferSize, scaleFactor := scaleFactor }).symm

variable [DecidableEq N]

/-- Every step is one of the structure with a checkpoint that holds its files. -/
theorem refines {saved e : Option (Named T L N)} {st st' : ShardFiles T L N}
    (h : Reached saved st) (hstep : Step e st st') :
    SavedStructure.Step st.withoutIds st'.withoutIds := by
  have h' := (h.step hstep).inv
  rw [h.inv.withoutIds_eq, h'.withoutIds_eq]
  cases hstep with
  | create | rename | cleanup => exact .stay
  | @save _ s s' built merged op _ hrun hvers hbuild hnew =>
    obtain ⟨t, ht, rfl⟩ := Option.map_eq_some_iff.mp hbuild
    have herase : s.erase.build op = some (t.withIds default default).erase := by
      rw [erase_withIds, ← erase_withIds s built merged, ← erase_build, ht, Option.map_some]
    exact .build (congrArg (Option.map erase) hvers) herase
  | stop => exact .stop
  | startEmpty hdown hm bufferSize scaleFactor =>
    have hnone : st.vers = none := by
      rw [← Option.not_isSome_iff_eq_none, h.inv.vers]
      exact not_not_intro hdown
    rw [hnone, h.inv.load_erase]
    exact .start rfl bufferSize scaleFactor
  | startListed hdown hm bufferSize scaleFactor =>
    have hnone : st.vers = none := by
      rw [← Option.not_isSome_iff_eq_none, h.inv.vers]
      exact not_not_intro hdown
    rw [hnone, h.inv.load_erase]
    exact .start rfl bufferSize scaleFactor

theorem refines_sample : ∃ (s : Named (ShardType.lists Nat) .teiring Nat)
    (st : ShardFiles (ShardType.lists Nat) .teiring Nat), s.held ≠ [] ∧
    SavedStructure.Step st.withoutIds
      (⟨st.store.startListed (Manifest.ofCheckpoint s.checkpoint).names, st.load 1 2⟩ :
        ShardFiles (ShardType.lists Nat) .teiring Nat).withoutIds := by
  obtain ⟨s, st, hst, hheld, hdown, -, hm⟩ := exists_stopped
  exact ⟨s, st, hheld, refines hst (.startListed hdown hm 1 2)⟩

end ShardFiles

end De

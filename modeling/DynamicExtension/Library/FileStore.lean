import Mathlib.Data.Set.Finite.Lattice
import Mathlib.Logic.Relation
import Mathlib.Tactic.Simps.Basic
set_option autoImplicit false

namespace FileStore

/-! Files that a process writes under a temporary name, renames into a directory and lists
in a manifest. The process may stop between any two steps; a start opens the files that the
manifest lists and removes the others. -/

variable {N F M : Type}

/-- A file that the process has open -/
inductive Handle (F : Type) where
  | writing
  | finished (content : F)

/-- `running` tells whether the start removed what the manifest does not list. -/
inductive Phase where
  | down
  | cleaning
  | running (cleaned : Bool)
  deriving DecidableEq

structure Store (N F M : Type) where
  files : N → Option F
  temps : N → Bool
  manifest : Option M
  handles : N → Option (Handle F)
  phase : Phase

namespace Store

def empty : Store N F M := ⟨fun _ => none, fun _ => false, none, fun _ => none, .down⟩

def Finished (s : Store N F M) (n : N) (f : F) : Prop := s.handles n = some (.finished f)

/-- The manifest lists the name. -/
def Listed (lists : M → List N) (s : Store N F M) (n : N) : Prop :=
  ∃ m, s.manifest = some m ∧ n ∈ lists m

@[simps]
def publish (s : Store N F M) (m : M) : Store N F M := { s with manifest := some m }

@[simps]
def stop (s : Store N F M) : Store N F M := { s with handles := fun _ => none, phase := .down }

@[simps]
def startEmpty (s : Store N F M) : Store N F M := { s with phase := .running false }

@[simps]
def ready (s : Store N F M) : Store N F M := { s with phase := .running true }

variable [DecidableEq N]

@[simps]
def create (s : Store N F M) (n : N) : Store N F M :=
  { s with
    temps := Function.update s.temps n true
    handles := Function.update s.handles n (some .writing) }

@[simps]
def rename (s : Store N F M) (n : N) (f : F) : Store N F M :=
  { s with
    temps := Function.update s.temps n false
    files := Function.update s.files n (some f)
    handles := Function.update s.handles n (some (.finished f)) }

@[simps]
def startListed (s : Store N F M) (names : List N) : Store N F M :=
  { s with
    handles := fun n => if n ∈ names then (s.files n).map .finished else none
    phase := .cleaning }

@[simps]
def removeFile (s : Store N F M) (n : N) : Store N F M :=
  { s with files := Function.update s.files n none }

@[simps]
def removeTemp (s : Store N F M) (n : N) : Store N F M :=
  { s with temps := Function.update s.temps n false }

end Store

variable {lists : M → List N} {Ok : N → F → Prop}

/-- What holds at every moment -/
structure Inv (lists : M → List N) (Ok : N → F → Prop) (s : Store N F M) : Prop where
  listed : ∀ n, s.Listed lists n → s.files n ≠ none
  content : ∀ n f, s.files n = some f → Ok n f
  finished : ∀ n f, s.Finished n f → s.files n = some f
  writing : ∀ n, s.handles n = some .writing → s.temps n = true ∧ s.files n = none
  opened : s.phase = .cleaning → ∀ n, (s.Listed lists n → ∃ f, s.Finished n f) ∧
    (s.handles n ≠ none → s.Listed lists n)
  cleaned : s.phase = .running true → ∀ n, (s.files n ≠ none → ∃ f, s.Finished n f) ∧
    (s.temps n = true → s.handles n = some .writing)
  finite : {n | s.files n ≠ none ∨ s.temps n = true}.Finite

theorem inv_empty : Inv lists Ok (Store.empty : Store N F M) where
  listed n h := by
    obtain ⟨m, hm, -⟩ := h
    cases hm
  content n f h := by cases h
  finished n f h := by cases h
  writing n h := by cases h
  opened h := by cases h
  cleaned h := by cases h
  finite := by simp [Store.empty]

section Steps
variable {s : Store N F M} {n : N} {f : F} {m : M} {b : Bool}

theorem Inv.publish (h : Inv lists Ok s) (hrun : s.phase = .running b)
    (hm : ∀ n ∈ lists m, ∃ f, s.Finished n f) : Inv lists Ok (s.publish m) where
  listed k hk := by
    obtain ⟨m', hm', hk⟩ := hk
    obtain rfl : m = m' := Option.some.inj hm'
    obtain ⟨f, hf⟩ := hm k hk
    simp [h.finished k f hf]
  content := h.content
  finished := h.finished
  writing := h.writing
  opened hc := by simp [hrun] at hc
  cleaned := h.cleaned
  finite := h.finite

theorem Inv.stop (h : Inv lists Ok s) :
    Inv lists Ok s.stop where
  listed := h.listed
  content := h.content
  finished k g hk := by cases hk
  writing k hk := by cases hk
  opened hc := by cases hc
  cleaned hc := by cases hc
  finite := h.finite

theorem Inv.startEmpty (h : Inv lists Ok s) :
    Inv lists Ok s.startEmpty where
  listed := h.listed
  content := h.content
  finished := h.finished
  writing := h.writing
  opened hc := by cases hc
  cleaned hc := by cases hc
  finite := h.finite

theorem Inv.not_writing (h : Inv lists Ok s) (hcleaning : s.phase = .cleaning) (k : N) :
    s.handles k ≠ some .writing := by
  intro hk
  obtain ⟨f, hf⟩ := (h.opened hcleaning k).1 ((h.opened hcleaning k).2 (by simp [hk]))
  rw [Store.Finished, hk] at hf
  cases hf

theorem Inv.ready (h : Inv lists Ok s) (hcleaning : s.phase = .cleaning)
    (hfiles : ∀ n, s.files n ≠ none → s.Listed lists n) (htemps : ∀ n, s.temps n = false) :
    Inv lists Ok s.ready where
  listed := h.listed
  content := h.content
  finished := h.finished
  writing := h.writing
  opened hc := by cases hc
  cleaned _ k := by
    refine ⟨fun hk => (h.opened hcleaning k).1 (hfiles k hk), fun hk => ?_⟩
    simp [htemps k] at hk
  finite := h.finite

variable [DecidableEq N]

theorem Inv.create (h : Inv lists Ok s) (hrun : s.phase = .running b) (hfile : s.files n = none) :
    Inv lists Ok (s.create n) where
  listed := h.listed
  content := h.content
  finished k g hk := by
    by_cases hkn : k = n
    · subst hkn
      simp [Store.Finished] at hk
    · exact h.finished k g (by simpa [Store.Finished, hkn] using hk)
  writing k hk := by
    by_cases hkn : k = n
    · subst hkn
      simp [hfile]
    · simpa [hkn] using h.writing k (by simpa [hkn] using hk)
  opened hc := by simp [hrun] at hc
  cleaned hc k := by
    obtain ⟨hfin, htemp⟩ := h.cleaned hc k
    by_cases hkn : k = n
    · subst hkn
      simp [hfile]
    · simpa [Store.Finished, hkn] using ⟨hfin, htemp⟩
  finite := by
    refine (h.finite.insert n).subset fun k hk => ?_
    by_cases hkn : k = n
    · exact .inl hkn
    · exact .inr (by simpa [hkn] using hk)

theorem Inv.finished_create (h : Inv lists Ok s) (hfile : s.files n = none) {k : N} {g : F}
    (hk : s.Finished k g) : (s.create n).Finished k g := by
  have hkn : k ≠ n := by
    rintro rfl
    simp [h.finished k g hk] at hfile
  simpa [Store.Finished, hkn] using hk

theorem finished_rename (hwriting : s.handles n = some .writing) {k : N} {g : F}
    (hk : s.Finished k g) : (s.rename n f).Finished k g := by
  have hkn : k ≠ n := by
    rintro rfl
    rw [Store.Finished, hwriting] at hk
    cases hk
  simpa [Store.Finished, hkn] using hk

theorem finished_startListed {names : List N} (hn : n ∈ names) (hfile : s.files n = some f) :
    (s.startListed names).Finished n f := by
  simp [Store.Finished, hn, hfile]

theorem Inv.rename (h : Inv lists Ok s) (hrun : s.phase = .running b)
    (hwriting : s.handles n = some .writing) (hf : Ok n f) :
    Inv lists Ok (s.rename n f) where
  listed k hk := by
    by_cases hkn : k = n
    · subst hkn
      simp
    · simpa [hkn] using h.listed k hk
  content k g hg := by
    by_cases hkn : k = n
    · subst hkn
      obtain rfl : f = g := by simpa using hg
      exact hf
    · exact h.content k g (by simpa [hkn] using hg)
  finished k g hk := by
    by_cases hkn : k = n
    · subst hkn
      simpa [Store.Finished] using hk
    · simpa [hkn] using h.finished k g (by simpa [Store.Finished, hkn] using hk)
  writing k hk := by
    by_cases hkn : k = n
    · subst hkn
      simp at hk
    · simpa [hkn] using h.writing k (by simpa [hkn] using hk)
  opened hc := by simp [hrun] at hc
  cleaned hc k := by
    obtain ⟨hfin, htemp⟩ := h.cleaned hc k
    by_cases hkn : k = n
    · subst hkn
      simp [Store.Finished]
    · simpa [Store.Finished, hkn] using ⟨hfin, htemp⟩
  finite := by
    refine (h.finite.insert n).subset fun k hk => ?_
    by_cases hkn : k = n
    · exact .inl hkn
    · exact .inr (by simpa [hkn] using hk)

theorem Inv.startListed (h : Inv lists Ok s) (hm : s.manifest = some m) :
    Inv lists Ok (s.startListed (lists m)) where
  listed := h.listed
  content := h.content
  finished k g hk := by
    obtain ⟨-, hk⟩ := (Option.ite_none_right_eq_some.mp hk)
    obtain ⟨g', hg', heq⟩ := Option.map_eq_some_iff.mp hk
    cases heq
    exact hg'
  writing k hk := by
    obtain ⟨-, hk⟩ := (Option.ite_none_right_eq_some.mp hk)
    obtain ⟨g', -, heq⟩ := Option.map_eq_some_iff.mp hk
    cases heq
  opened _ k := by
    refine ⟨fun hk => ?_, fun hk => ?_⟩
    · obtain ⟨g, hg⟩ := Option.ne_none_iff_exists'.mp (h.listed k hk)
      obtain ⟨m', hm', hk⟩ := hk
      obtain rfl : m = m' := Option.some.inj (hm.symm.trans hm')
      exact ⟨g, by simp [Store.Finished, hk, hg]⟩
    · by_cases hkm : k ∈ lists m
      · exact ⟨m, hm, hkm⟩
      · simp [hkm] at hk
  cleaned hc := by cases hc
  finite := h.finite

theorem Inv.removeFile (h : Inv lists Ok s) (hcleaning : s.phase = .cleaning)
    (hn : ¬ s.Listed lists n) :
    Inv lists Ok (s.removeFile n) where
  listed k hk := by
    have hkn : k ≠ n := by
      rintro rfl
      exact hn hk
    simpa [hkn] using h.listed k hk
  content k g hg := by
    by_cases hkn : k = n
    · subst hkn
      simp at hg
    · exact h.content k g (by simpa [hkn] using hg)
  finished k g hk := by
    have hkn : k ≠ n := by
      rintro rfl
      exact hn ((h.opened hcleaning k).2 (Option.ne_none_iff_exists'.mpr ⟨_, hk⟩))
    simpa [hkn] using h.finished k g hk
  writing k hk := by
    obtain ⟨htemp, hfile⟩ := h.writing k hk
    by_cases hkn : k = n
    · subst hkn
      simp [htemp]
    · simp [htemp, hkn, hfile]
  opened := h.opened
  cleaned hc := by simp [hcleaning] at hc
  finite := by
    refine h.finite.subset fun k hk => ?_
    by_cases hkn : k = n
    · subst hkn
      exact .inr (by simpa using hk)
    · simpa [hkn] using hk

theorem Inv.removeTemp (h : Inv lists Ok s) (hcleaning : s.phase = .cleaning) :
    Inv lists Ok (s.removeTemp n) where
  listed := h.listed
  content := h.content
  finished := h.finished
  writing k hk := absurd hk (h.not_writing hcleaning k)
  opened := h.opened
  cleaned hc := by simp [hcleaning] at hc
  finite := by
    refine h.finite.subset fun k hk => ?_
    by_cases hkn : k = n
    · subst hkn
      exact .inl (by simpa using hk)
    · simpa [hkn] using hk

end Steps

variable [DecidableEq N]

/-- What a start does once it has opened the listed files -/
inductive Cleanup (lists : M → List N) : Store N F M → Store N F M → Prop
  | removeFile {s : Store N F M} {n : N} (hcleaning : s.phase = .cleaning)
      (hn : ¬ s.Listed lists n) : Cleanup lists s (s.removeFile n)
  | removeTemp {s : Store N F M} {n : N} (hcleaning : s.phase = .cleaning) :
      Cleanup lists s (s.removeTemp n)
  | ready {s : Store N F M} (hcleaning : s.phase = .cleaning)
      (hfiles : ∀ n, s.files n ≠ none → s.Listed lists n) (htemps : ∀ n, s.temps n = false) :
      Cleanup lists s s.ready

/-- The steps over manifests that list names; `Ok` is what the writer puts in a file. -/
inductive Step (lists : M → List N) (Ok : N → F → Prop) : Store N F M → Store N F M → Prop
  | create {s : Store N F M} {n : N} {b : Bool} (hrun : s.phase = .running b)
      (hfile : s.files n = none) (htemp : s.temps n = false) : Step lists Ok s (s.create n)
  | rename {s : Store N F M} {n : N} {f : F} {b : Bool} (hrun : s.phase = .running b)
      (hwriting : s.handles n = some .writing) (hf : Ok n f) : Step lists Ok s (s.rename n f)
  | publish {s : Store N F M} {m : M} {b : Bool} (hrun : s.phase = .running b)
      (hm : ∀ n ∈ lists m, ∃ f, s.Finished n f) : Step lists Ok s (s.publish m)
  | stop {s : Store N F M} : Step lists Ok s s.stop
  | startEmpty {s : Store N F M} (hdown : s.phase = .down) (hm : s.manifest = none) :
      Step lists Ok s s.startEmpty
  | startListed {s : Store N F M} {m : M} (hdown : s.phase = .down) (hm : s.manifest = some m) :
      Step lists Ok s (s.startListed (lists m))
  | cleanup {s s' : Store N F M} (h : Cleanup lists s s') : Step lists Ok s s'

theorem Cleanup.inv {s s' : Store N F M} (hstep : Cleanup lists s s') (h : Inv lists Ok s) :
    Inv lists Ok s' := by
  cases hstep with
  | removeFile hcleaning hn => exact h.removeFile hcleaning hn
  | removeTemp hcleaning => exact h.removeTemp hcleaning
  | ready hcleaning hfiles htemps => exact h.ready hcleaning hfiles htemps

theorem Cleanup.handles {s s' : Store N F M} (hstep : Cleanup lists s s') :
    s'.handles = s.handles ∧ s'.manifest = s.manifest ∧ s.phase ≠ .down ∧ s'.phase ≠ .down := by
  cases hstep with
  | removeFile hcleaning _ | removeTemp hcleaning | ready hcleaning _ _ =>
    exact ⟨rfl, rfl, by simp [hcleaning], by simp [hcleaning]⟩

theorem Step.inv {s s' : Store N F M} (hstep : Step lists Ok s s') (h : Inv lists Ok s) :
    Inv lists Ok s' := by
  cases hstep with
  | create hrun hfile _ => exact h.create hrun hfile
  | rename hrun hwriting hf => exact h.rename hrun hwriting hf
  | publish hrun hm => exact h.publish hrun hm
  | stop => exact h.stop
  | startEmpty => exact h.startEmpty
  | startListed _ hm => exact h.startListed hm
  | cleanup hstep => exact hstep.inv h

theorem Step.files_listed {s s' : Store N F M} (hstep : Step lists Ok s s')
    (h : Inv lists Ok s) {n : N} (hn : s.Listed lists n) : s'.files n = s.files n := by
  cases hstep with
  | @rename k f b hrun hwriting hf =>
    have hkn : n ≠ k := by
      rintro rfl
      exact h.listed n hn (h.writing n hwriting).2
    simp [hkn]
  | cleanup hstep =>
    cases hstep with
    | @removeFile k _ hk =>
      have hkn : n ≠ k := by
        rintro rfl
        exact hk hn
      simp [hkn]
    | removeTemp | ready => rfl
  | create | publish | stop | startEmpty | startListed => rfl

theorem exists_cleaned {s : Store N F M} (hcleaning : s.phase = .cleaning) (names : List N)
    (hrest : ∀ n, n ∉ names → (s.files n ≠ none → s.Listed lists n) ∧ s.temps n = false) :
    ∃ s', Relation.ReflTransGen (Cleanup lists) s s' ∧ s'.phase = .running true ∧
      ∀ n, s'.temps n = false ∧ (s.Listed lists n → s'.files n = s.files n) ∧
        (¬ s.Listed lists n → s'.files n = none) := by
  induction names generalizing s with
  | nil =>
    refine ⟨_, .single (.ready hcleaning (fun n => (hrest n (by simp)).1)
      fun n => (hrest n (by simp)).2), rfl, fun n => ⟨(hrest n (by simp)).2, fun _ => rfl, ?_⟩⟩
    intro hn
    by_contra hfile
    exact hn ((hrest n (by simp)).1 hfile)
  | cons k names ih =>
    have htemp : Cleanup lists s (s.removeTemp k) := .removeTemp hcleaning
    by_cases hk : s.Listed lists k
    · obtain ⟨s', hsteps, hphase, hs'⟩ := ih (s := s.removeTemp k) hcleaning fun n hn => by
          by_cases hnk : n = k
          · subst hnk
            exact ⟨fun _ => hk, by simp⟩
          · simpa [hnk, Store.Listed] using hrest n (by simp [hnk, hn])
      exact ⟨s', .head htemp hsteps, hphase, hs'⟩
    · have hfile : Cleanup lists (s.removeTemp k) ((s.removeTemp k).removeFile k) :=
        .removeFile hcleaning hk
      obtain ⟨s', hsteps, hphase, hs'⟩ := ih
        (s := (s.removeTemp k).removeFile k) hcleaning fun n hn => by
          by_cases hnk : n = k
          · subst hnk
            simp
          · simpa [hnk, Store.Listed] using hrest n (by simp [hnk, hn])
      refine ⟨s', .head htemp (.head hfile hsteps), hphase, fun n => ⟨(hs' n).1, ?_,
        (hs' n).2.2⟩⟩
      intro hn
      have hnk : n ≠ k := by
        rintro rfl
        exact hk hn
      simpa [hnk] using (hs' n).2.1 hn

theorem Inv.exists_cleaned {s : Store N F M} (h : Inv lists Ok s)
    (hcleaning : s.phase = .cleaning) :
    ∃ s', Relation.ReflTransGen (Cleanup lists) s s' ∧ s'.phase = .running true ∧
      ∀ n, s'.temps n = false ∧ (s.Listed lists n → s'.files n = s.files n) ∧
        (¬ s.Listed lists n → s'.files n = none) := by
  refine FileStore.exists_cleaned hcleaning h.finite.toFinset.toList fun n hn => ?_
  have hn : ¬ (s.files n ≠ none ∨ s.temps n = true) := by simpa using hn
  exact ⟨fun hfile => absurd (.inl hfile) hn, by simpa using fun htemp => hn (.inr htemp)⟩

end FileStore

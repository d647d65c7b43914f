import Mathlib
set_option autoImplicit false

/-! Computations that draw from a stream, and sampling in rounds with rejections. -/

namespace Rejection
variable {σ α β : Type}

/-- A computation that draws from a stream; `none` where a draw is an error -/
abbrev Draw (σ : Type) := StateT σ Option

/-- The value comes out of some stream, whatever is left of that. -/
def Can (f : Draw σ α) (a : α) : Prop := ∀ rest, ∃ s, f.run s = some (a, rest)

/-- Every value that comes out has the property. -/
def Only (f : Draw σ α) (p : α → Prop) : Prop := ∀ s a rest, f.run s = some (a, rest) → p a

/-- What comes out once can come out again. -/
def Fair (f : Draw σ α) : Prop := Only f (Can f)

section Rules
variable {f : Draw σ α} {g : α → Draw σ β} {p : α → Prop} {q : β → Prop}

theorem can_pure (a : α) : Can (pure a : Draw σ α) a := fun rest => ⟨rest, rfl⟩

theorem Can.bind {a : α} {b : β} (hf : Can f a) (hg : Can (g a) b) : Can (f >>= g) b := by
  intro rest
  obtain ⟨s', hs'⟩ := hg rest
  obtain ⟨s, hs⟩ := hf s'
  refine ⟨s, ?_⟩
  rw [StateT.run_bind, hs]
  exact hs'

theorem only_pure {a : α} (h : p a) : Only (pure a : Draw σ α) p := by
  rintro s b rest heq
  obtain ⟨rfl, rfl⟩ := Prod.mk.inj (Option.some.inj heq)
  exact h

theorem can_lift (a : α) : Can (liftM (some a) : Draw σ α) a := fun rest => ⟨rest, rfl⟩

theorem only_lift (o : Option α) : Only (liftM o : Draw σ α) fun a => o = some a := by
  intro s a rest heq
  cases o with
  | none => cases heq
  | some b =>
    obtain ⟨rfl, rfl⟩ := Prod.mk.inj (Option.some.inj heq)
    rfl

theorem Only.bind (hf : Only f p) (hg : ∀ a, p a → Only (g a) q) : Only (f >>= g) q := by
  intro s b rest heq
  rw [StateT.run_bind] at heq
  obtain ⟨⟨a, s'⟩, hs, hs'⟩ := Option.bind_eq_some_iff.mp heq
  exact hg a (hf s a s' hs) s' b rest hs'

theorem Only.mono {p' : α → Prop} (hf : Only f p) (h : ∀ a, p a → p' a) : Only f p' :=
  fun s a rest heq => h a (hf s a rest heq)

theorem fair_lift (o : Option α) : Fair (liftM o : Draw σ α) :=
  (only_lift o).mono fun a ha => ha ▸ can_lift a

theorem Fair.bind (hf : Fair f) (hg : ∀ a, Can f a → Fair (g a)) : Fair (f >>= g) :=
  Only.bind hf fun a ha => (hg a ha).mono fun _ hb => ha.bind hb

theorem fair_pure (a : α) : Fair (pure a : Draw σ α) := only_pure (can_pure a)

theorem only_map {h : α → β} : Only (h <$> f) q ↔ Only f fun a => q (h a) := by
  constructor
  · intro hmap s a rest heq
    exact hmap s (h a) rest (by rw [StateT.run_map, heq]; rfl)
  · intro hf s b rest heq
    rw [StateT.run_map] at heq
    obtain ⟨⟨a, s'⟩, hs, heq⟩ := Option.map_eq_some_iff.mp heq
    obtain ⟨rfl, rfl⟩ := Prod.mk.inj heq
    exact hf s a s' hs

theorem Only.of_can [Nonempty σ] {a : α} (hf : Only f p) (h : Can f a) : p a := by
  obtain ⟨s, hs⟩ := h (Classical.arbitrary σ)
  exact hf s a _ hs

end Rules

section Loops

/-- `n` attempts, with what the accepted ones yield -/
def attempts (draw : Draw σ (Option α)) : Nat → Draw σ (List α)
  | 0 => pure []
  | n + 1 => do
    let a ← draw
    let rest ← attempts draw n
    return a.toList ++ rest

/-- `sizes i` attempts at each source `i` -/
def sampleAll : List (Draw σ (Option α)) → (Nat → Nat) → Draw σ (List α)
  | [], _ => pure []
  | draw :: draws, sizes => do
    let found ← attempts draw (sizes 0)
    let rest ← sampleAll draws fun i => sizes (i + 1)
    return found ++ rest

/-- `n` more attempts, dealt to the sources that are picked -/
def scatter (pick : Draw σ Nat) : Nat → (Nat → Nat) → Draw σ (Nat → Nat)
  | 0, sizes => pure sizes
  | n + 1, sizes => do
    let i ← pick
    scatter pick n (Function.update sizes i (sizes i + 1))

theorem attempts_pure_none (n : Nat) : attempts (pure none : Draw σ (Option α)) n = pure [] := by
  induction n with
  | zero => rfl
  | succ n ih => simp [attempts, ih]

theorem sampleAll_zero (draws : List (Draw σ (Option α))) :
    sampleAll draws (fun _ => 0) = pure [] := by
  induction draws with
  | nil => rfl
  | cons draw draws ih => simp [sampleAll, attempts, ih]

theorem flatten_mapM {ι κ : Type} {query : ι → Nat → κ} {run : ι → κ → Draw σ (List α)}
    {draw : ι → Draw σ (Option α)} (h : ∀ x n, run x (query x n) = attempts (draw x) n)
    (xs : List ι) (sizes : Nat → Nat) :
    List.flatten <$> (xs.zip (xs.mapIdx fun i x => query x (sizes i))).mapM
      (fun p => run p.1 p.2) = sampleAll (xs.map draw) sizes := by
  induction xs generalizing sizes with
  | nil => rfl
  | cons x xs ih =>
    rw [List.map_cons, sampleAll, ← ih, List.mapIdx_cons, List.zip_cons_cons, List.mapM_cons, h]
    simp

end Loops

/-- Sources to sample from. A plan that is kept over the rounds only grows. -/
structure Plan (σ α : Type) where
  draws : List (Draw σ (Option α))
  pick : Draw σ Nat
  keep : Bool

namespace Plan

/-- The rounds from `sizes` on; a round that leaves too few asks for `asked` less what is
there by then. -/
def rounds (plan : Plan σ α) : Nat → Nat → (Nat → Nat) → List α → Draw σ (List α)
  | 0, _, _, _ => failure
  | fuel + 1, asked, sizes, output => do
    let found ← sampleAll plan.draws sizes
    let output := output ++ found
    if output.length < asked then
      let asked := asked - output.length
      let sizes ← scatter plan.pick asked (if plan.keep then sizes else fun _ => 0)
      rounds plan fuel asked sizes output
    else return output

def run (plan : Plan σ α) (fuel asked : Nat) : Draw σ (List α) := do
  let sizes ← scatter plan.pick asked fun _ => 0
  plan.rounds fuel asked sizes []

def Accepts (plan : Plan σ α) (i : Nat) : Prop :=
  ∃ draw, plan.draws[i]? = some draw ∧ ∃ a, Can draw (some a)

def Rejects (plan : Plan σ α) (i : Nat) : Prop :=
  ∃ draw, plan.draws[i]? = some draw ∧ Can draw none

/-- Only sources that there are get picked, and every draw is fair. -/
structure Wf (plan : Plan σ α) : Prop where
  pick_lt : Only plan.pick fun i => i < plan.draws.length ∧ Can plan.pick i
  draws_fair : ∀ draw ∈ plan.draws, Fair draw

/-- The output can only be of the size asked for: nothing is asked for, none of the sources
picked rejects, none accepts, or one sample is asked for and either the plan is made anew
for each round or no source does both. -/
def Exact (plan : Plan σ α) (asked : Nat) : Prop :=
  asked = 0 ∨ (∀ i, Can plan.pick i → ¬ plan.Rejects i) ∨
    (∀ i, Can plan.pick i → ¬ plan.Accepts i) ∨
    asked = 1 ∧ (plan.keep = false ∨
      ∀ i, Can plan.pick i → ¬ (plan.Rejects i ∧ plan.Accepts i))

end Plan

section Counts

/-- As many values come out of some stream, whatever is left of that. -/
def CanCount (f : Draw σ (List α)) (n : Nat) : Prop :=
  ∀ rest, ∃ s out, f.run s = some (out, rest) ∧ out.length = n

theorem CanCount.append {f g : Draw σ (List α)} {m n : Nat} (hf : CanCount f m)
    (hg : CanCount g n) :
    CanCount (do let found ← f; let rest ← g; return found ++ rest) (m + n) := by
  intro rest
  obtain ⟨s₂, out₂, hs₂, hlen₂⟩ := hg rest
  obtain ⟨s₁, out₁, hs₁, hlen₁⟩ := hf s₂
  refine ⟨s₁, out₁ ++ out₂, ?_, by rw [List.length_append, hlen₁, hlen₂]⟩
  simp only [StateT.run_bind, hs₁, hs₂, Option.bind_eq_bind, Option.bind_some]
  rfl

/-- `k` of the `n` attempts may be accepted. -/
structure Yield (draw : Draw σ (Option α)) (n k : Nat) : Prop where
  le : k ≤ n
  accepts : 0 < k → ∃ a, Can draw (some a)
  rejects : k < n → Can draw none

theorem attempts_only {draw : Draw σ (Option α)} (hfair : Fair draw) (n : Nat) :
    Only (attempts draw n) fun out => Yield draw n out.length := by
  induction n with
  | zero => exact only_pure ⟨le_rfl, fun h => absurd h (lt_irrefl _),
      fun h => absurd h (lt_irrefl _)⟩
  | succ n ih =>
    refine Only.bind hfair fun a ha => ih.bind fun out hout => only_pure ?_
    cases a with
    | none => exact ⟨hout.le.trans (Nat.le_succ n), hout.accepts, fun _ => ha⟩
    | some a => exact ⟨Nat.succ_le_succ hout.le, fun _ => ⟨a, ha⟩,
        fun h => hout.rejects (Nat.lt_of_succ_lt_succ h)⟩

theorem mem_attempts {draw : Draw σ (Option α)} (hfair : Fair draw) (n : Nat) :
    Only (attempts draw n) fun out => ∀ a ∈ out, Can draw (some a) := by
  induction n with
  | zero => exact only_pure fun a ha => absurd ha List.not_mem_nil
  | succ n ih =>
    refine Only.bind hfair fun o ho => ih.bind fun out hout => only_pure fun a ha => ?_
    rcases List.mem_append.mp ha with ha | ha
    · rw [Option.mem_toList] at ha
      exact ha ▸ ho
    · exact hout a ha

theorem attempts_can {draw : Draw σ (Option α)} {n k : Nat} (h : Yield draw n k) :
    CanCount (attempts draw n) k := by
  induction n generalizing k with
  | zero =>
    obtain rfl : k = 0 := Nat.le_zero.mp h.le
    exact fun rest => ⟨rest, [], rfl, rfl⟩
  | succ n ih =>
    intro rest
    rcases Nat.eq_zero_or_pos k with rfl | hpos
    · obtain ⟨s', out, hs', hlen⟩ := ih ⟨Nat.zero_le n, h.accepts,
        fun _ => h.rejects (Nat.succ_pos n)⟩ rest
      obtain ⟨s, hs⟩ := h.rejects (Nat.succ_pos n) s'
      exact ⟨s, out, by simp [attempts, hs, hs'], hlen⟩
    · have hle := h.le
      obtain ⟨s', out, hs', hlen⟩ := ih (k := k - 1) ⟨by omega, fun _ => h.accepts hpos,
        fun _ => h.rejects (by omega)⟩ rest
      obtain ⟨a, ha⟩ := h.accepts hpos
      obtain ⟨s, hs⟩ := ha s'
      exact ⟨s, a :: out, by simp [attempts, hs, hs'], by rw [List.length_cons]; omega⟩

/-- `ks i` of the attempts at each source may be accepted. -/
def Yields (draws : List (Draw σ (Option α))) (sizes ks : Nat → Nat) : Prop :=
  ∀ i draw, draws[i]? = some draw → Yield draw (sizes i) (ks i)

theorem sampleAll_only {draws : List (Draw σ (Option α))} (hfair : ∀ draw ∈ draws, Fair draw)
    (sizes : Nat → Nat) :
    Only (sampleAll draws sizes) fun out =>
      ∃ ks, Yields draws sizes ks ∧ out.length = ∑ i ∈ Finset.range draws.length, ks i := by
  induction draws generalizing sizes with
  | nil => exact only_pure ⟨sizes, fun i draw h => by simp at h, rfl⟩
  | cons draw draws ih =>
    refine (attempts_only (hfair draw List.mem_cons_self) (sizes 0)).bind fun found hfound =>
      (ih (fun d hd => hfair d (List.mem_cons_of_mem draw hd)) fun i => sizes (i + 1)).bind
        fun rest hrest => only_pure ?_
    obtain ⟨ks, hks, hlen⟩ := hrest
    refine ⟨fun i => Nat.casesOn i found.length ks, fun i d hd => ?_, ?_⟩
    · cases i with
      | zero =>
        obtain rfl : draw = d := by simpa using hd
        exact hfound
      | succ i => exact hks i d (by simpa using hd)
    · rw [List.length_append, hlen, List.length_cons, Finset.sum_range_succ', add_comm]
      rfl

theorem sampleAll_can {draws : List (Draw σ (Option α))} {sizes ks : Nat → Nat}
    (h : Yields draws sizes ks) :
    CanCount (sampleAll draws sizes) (∑ i ∈ Finset.range draws.length, ks i) := by
  induction draws generalizing sizes ks with
  | nil => exact fun rest => ⟨rest, [], rfl, rfl⟩
  | cons draw draws ih =>
    have hrest : Yields draws (fun i => sizes (i + 1)) fun i => ks (i + 1) := fun i d hd =>
      h (i + 1) d (by simpa using hd)
    rw [List.length_cons, Finset.sum_range_succ', add_comm]
    exact (attempts_can (h 0 draw rfl)).append (ih hrest)

/-- More attempts at some of the sources that can be picked -/
structure Dealt (plan : Plan σ α) (n : Nat) (sizes sizes' : Nat → Nat) : Prop where
  le : ∀ i, sizes i ≤ sizes' i
  picked : ∀ i, sizes' i ≠ sizes i → Can plan.pick i
  sum : ∑ i ∈ Finset.range plan.draws.length, sizes' i =
    ∑ i ∈ Finset.range plan.draws.length, sizes i + n

theorem scatter_only {plan : Plan σ α} (h : plan.Wf) (n : Nat) (sizes : Nat → Nat) :
    Only (scatter plan.pick n sizes) (Dealt plan n sizes) := by
  induction n generalizing sizes with
  | zero => exact only_pure ⟨fun _ => le_rfl, fun i hi => absurd rfl hi, rfl⟩
  | succ n ih =>
    refine h.pick_lt.bind fun i hi => (ih _).mono fun sizes' hsizes =>
      ⟨fun j => ?_, fun j hj => ?_, ?_⟩
    · refine le_trans ?_ (hsizes.le j)
      by_cases hij : j = i
      · rw [hij, Function.update_self]
        exact Nat.le_succ _
      · rw [Function.update_of_ne hij]
    · by_cases hij : j = i
      · exact hij ▸ hi.2
      · exact hsizes.picked j (by rwa [Function.update_of_ne hij])
    · have hmem : i ∈ Finset.range plan.draws.length := Finset.mem_range.mpr hi.1
      rw [hsizes.sum, Finset.sum_update_of_mem hmem, ← Finset.erase_eq,
        ← Finset.add_sum_erase _ sizes hmem]
      omega

theorem scatter_can {pick : Draw σ Nat} {i : Nat} (h : Can pick i) (n : Nat)
    (sizes : Nat → Nat) :
    Can (scatter pick n sizes) (Function.update sizes i (sizes i + n)) := by
  induction n generalizing sizes with
  | zero =>
    rw [Nat.add_zero, Function.update_eq_self]
    exact can_pure sizes
  | succ n ih =>
    have hrest := ih (Function.update sizes i (sizes i + 1))
    rw [Function.update_self, Function.update_idem, Nat.add_assoc, Nat.add_comm 1 n] at hrest
    exact h.bind hrest

end Counts

namespace Plan
variable {plan : Plan σ α}

section Runs

theorem rounds_only (h : plan.Wf) {p : List α → Prop} {fuel asked : Nat} {sizes : Nat → Nat}
    {output : List α}
    (hround : ∀ ks, Yields plan.draws sizes ks → ∀ output',
      output'.length = output.length + ∑ i ∈ Finset.range plan.draws.length, ks i →
      (asked ≤ output'.length → p output') ∧
      (output'.length < asked → ∀ sizes', Dealt plan (asked - output'.length)
        (if plan.keep then sizes else fun _ => 0) sizes' →
        Only (plan.rounds fuel (asked - output'.length) sizes' output') p)) :
    Only (plan.rounds (fuel + 1) asked sizes output) p := by
  refine (sampleAll_only h.draws_fair sizes).bind fun found hfound => ?_
  obtain ⟨ks, hks, hlen⟩ := hfound
  obtain ⟨hend, hgo⟩ := hround ks hks (output ++ found) (by rw [List.length_append, hlen])
  by_cases hlt : (output ++ found).length < asked
  · simp only [if_pos hlt]
    exact (scatter_only h _ _).bind fun sizes' hsizes => hgo hlt sizes' hsizes
  · simp only [if_neg hlt]
    exact only_pure (hend (not_lt.mp hlt))

theorem zero_only (plan : Plan σ α) (p : List α → Prop) (asked : Nat) (sizes : Nat → Nat)
    (output : List α) : Only (plan.rounds 0 asked sizes output) p := by
  intro s a rest heq
  cases heq

theorem sum_eq_zero_of_not_accepts {sizes ks : Nat → Nat} (hks : Yields plan.draws sizes ks)
    (hno : ∀ i, 0 < sizes i → ¬ plan.Accepts i) :
    ∑ i ∈ Finset.range plan.draws.length, ks i = 0 := by
  refine Finset.sum_eq_zero fun i hi => ?_
  obtain ⟨draw, hdraw⟩ : ∃ draw, plan.draws[i]? = some draw :=
    ⟨_, List.getElem?_eq_getElem (Finset.mem_range.mp hi)⟩
  have hy := hks i draw hdraw
  by_contra hne
  have hpos := Nat.pos_of_ne_zero hne
  exact hno i (hpos.trans_le hy.le) ⟨draw, hdraw, hy.accepts hpos⟩

theorem sum_eq_of_not_rejects {sizes ks : Nat → Nat} (hks : Yields plan.draws sizes ks)
    (hno : ∀ i, 0 < sizes i → ¬ plan.Rejects i) :
    ∑ i ∈ Finset.range plan.draws.length, ks i =
      ∑ i ∈ Finset.range plan.draws.length, sizes i := by
  refine Finset.sum_congr rfl fun i hi => ?_
  obtain ⟨draw, hdraw⟩ : ∃ draw, plan.draws[i]? = some draw :=
    ⟨_, List.getElem?_eq_getElem (Finset.mem_range.mp hi)⟩
  have hy := hks i draw hdraw
  by_contra hne
  have hlt := lt_of_le_of_ne hy.le hne
  exact hno i (Nat.zero_lt_of_lt hlt) ⟨draw, hdraw, hy.rejects hlt⟩

/-- Sources that are never picked get no attempts. -/
def Picked (plan : Plan σ α) (sizes : Nat → Nat) : Prop := ∀ i, 0 < sizes i → Can plan.pick i

theorem Picked.dealt {n : Nat} {sizes sizes' : Nat → Nat} (hs : plan.Picked sizes)
    (h : Dealt plan n sizes sizes') : plan.Picked sizes' := by
  intro i hi
  by_cases heq : sizes' i = sizes i
  · exact hs i (heq ▸ hi)
  · exact h.picked i heq

theorem Picked.keep {sizes : Nat → Nat} (h : plan.Picked sizes) :
    plan.Picked (if plan.keep then sizes else fun _ => 0) := by
  intro i hi
  split at hi
  · exact h i hi
  · exact absurd hi (lt_irrefl 0)

theorem rounds_of_not_rejects (h : plan.Wf) {fuel asked : Nat} {sizes : Nat → Nat}
    (hno : ∀ i, 0 < sizes i → ¬ plan.Rejects i)
    (hsum : ∑ i ∈ Finset.range plan.draws.length, sizes i = asked) :
    Only (plan.rounds fuel asked sizes []) fun out => out.length = asked := by
  cases fuel with
  | zero => exact zero_only _ _ _ _ _
  | succ fuel =>
    refine rounds_only h fun ks hks output' hlen => ?_
    have heq : output'.length = asked := by
      rw [hlen, sum_eq_of_not_rejects hks hno, hsum, List.length_nil, Nat.zero_add]
    exact ⟨fun _ => heq, fun hlt => absurd heq hlt.ne⟩

theorem rounds_of_not_accepts (h : plan.Wf) (hno : ∀ i, Can plan.pick i → ¬ plan.Accepts i)
    (fuel asked : Nat) {sizes : Nat → Nat} {output : List α} (hout : output.length = 0)
    (hs : plan.Picked sizes) :
    Only (plan.rounds fuel asked sizes output) fun out => out.length = asked := by
  induction fuel generalizing sizes output with
  | zero => exact zero_only _ _ _ _ _
  | succ fuel ih =>
    refine rounds_only h fun ks hks output' hlen => ?_
    rw [sum_eq_zero_of_not_accepts hks fun i hi => hno i (hs i hi), hout] at hlen
    refine ⟨fun hle => by omega, fun _ sizes' hdealt => ?_⟩
    rw [hlen, Nat.sub_zero]
    exact ih hlen (hs.keep.dealt hdealt)

theorem rounds_of_le_one (h : plan.Wf) (hkeep : plan.keep = false) {asked : Nat}
    (hle : asked ≤ 1) (fuel : Nat) {sizes : Nat → Nat} {output : List α}
    (hout : output.length = 0)
    (hsum : ∑ i ∈ Finset.range plan.draws.length, sizes i = asked) :
    Only (plan.rounds fuel asked sizes output) fun out => out.length = asked := by
  induction fuel generalizing sizes output with
  | zero => exact zero_only _ _ _ _ _
  | succ fuel ih =>
    refine rounds_only h fun ks hks output' hlen => ?_
    have hbound : ∑ i ∈ Finset.range plan.draws.length, ks i ≤ asked :=
      hsum ▸ Finset.sum_le_sum fun i hi =>
        (hks i _ (List.getElem?_eq_getElem (Finset.mem_range.mp hi))).le
    refine ⟨fun hge => by omega, fun hlt sizes' hdealt => ?_⟩
    have hzero : output'.length = 0 := by omega
    have hdeal := hdealt.sum
    rw [hzero, Nat.sub_zero] at hdeal ⊢
    refine ih hzero ?_
    rw [hdeal, hkeep]
    simp

/-- At most `m` attempts are left at sources that accept. -/
def Hopeful (plan : Plan σ α) (sizes : Nat → Nat) (m : Nat) : Prop :=
  ∀ F ⊆ Finset.range plan.draws.length, (∀ i ∈ F, plan.Accepts i) → ∑ i ∈ F, sizes i ≤ m

theorem Hopeful.dealt {m n : Nat} {sizes sizes' : Nat → Nat} (hm : plan.Hopeful sizes m)
    (h : Dealt plan n sizes sizes') : plan.Hopeful sizes' (m + n) := by
  intro F hF hacc
  have hsum := h.sum
  rw [← Finset.sum_sdiff hF, ← Finset.sum_sdiff hF (f := sizes)] at hsum
  have hrest : ∑ i ∈ Finset.range plan.draws.length \ F, sizes i ≤
      ∑ i ∈ Finset.range plan.draws.length \ F, sizes' i := Finset.sum_le_sum fun i _ => h.le i
  have hold := hm F hF hacc
  omega

theorem Hopeful.sum_le {m : Nat} {sizes ks : Nat → Nat} (hm : plan.Hopeful sizes m)
    (hks : Yields plan.draws sizes ks) :
    ∑ i ∈ Finset.range plan.draws.length, ks i ≤ m := by
  have hyield : ∀ i ∈ Finset.range plan.draws.length, ∃ draw, plan.draws[i]? = some draw ∧
      Yield draw (sizes i) (ks i) := fun i hi =>
    ⟨_, List.getElem?_eq_getElem (Finset.mem_range.mp hi), hks i _ (List.getElem?_eq_getElem _)⟩
  calc ∑ i ∈ Finset.range plan.draws.length, ks i
      = ∑ i ∈ (Finset.range plan.draws.length).filter fun i => ks i ≠ 0, ks i :=
        (Finset.sum_filter_ne_zero _).symm
    _ ≤ ∑ i ∈ (Finset.range plan.draws.length).filter fun i => ks i ≠ 0, sizes i := by
        refine Finset.sum_le_sum fun i hi => ?_
        obtain ⟨draw, -, hy⟩ := hyield i (Finset.mem_filter.mp hi).1
        exact hy.le
    _ ≤ m := by
        refine hm _ (Finset.filter_subset _ _) fun i hi => ?_
        obtain ⟨hi, hne⟩ := Finset.mem_filter.mp hi
        obtain ⟨draw, hd, hy⟩ := hyield i hi
        exact ⟨draw, hd, hy.accepts (Nat.pos_of_ne_zero hne)⟩

/-- One sample is asked for, and no source both accepts and rejects: one attempt at a source
that accepts is enough, and there is never more than one. -/
theorem rounds_of_not_mixed (h : plan.Wf)
    (hno : ∀ i, Can plan.pick i → ¬ (plan.Rejects i ∧ plan.Accepts i)) (fuel : Nat)
    {sizes : Nat → Nat} {output : List α} (hout : output.length = 0) (hs : plan.Picked sizes)
    (hone : plan.Hopeful sizes 1) :
    Only (plan.rounds fuel 1 sizes output) fun out => out.length = 1 := by
  induction fuel generalizing sizes output with
  | zero => exact zero_only _ _ _ _ _
  | succ fuel ih =>
    refine rounds_only h fun ks hks output' hlen => ?_
    have hbound := hone.sum_le hks
    refine ⟨fun hge => by omega, fun hlt sizes' hdealt => ?_⟩
    have hzero : output'.length = 0 := by omega
    rw [hzero, Nat.sub_zero] at hdealt ⊢
    -- a source that accepts and had an attempt would have accepted it
    have hnone : ∀ i, i < plan.draws.length → plan.Accepts i → sizes i = 0 := by
      intro i hi hacc
      have hd := List.getElem?_eq_getElem hi
      have hki : ks i = 0 := by
        have := Finset.single_le_sum (f := ks) (fun _ _ => Nat.zero_le _) (Finset.mem_range.mpr hi)
        omega
      by_contra hne
      have hpos := Nat.pos_of_ne_zero hne
      exact hno i (hs i hpos) ⟨⟨_, hd, (hks i _ hd).rejects (by omega)⟩, hacc⟩
    have hkept : plan.Hopeful (if plan.keep then sizes else fun _ => 0) 0 := by
      intro F hF hacc
      refine (Finset.sum_eq_zero fun i hi => ?_).le
      split
      · exact hnone i (Finset.mem_range.mp (hF hi)) (hacc i hi)
      · rfl
    exact ih hzero (hs.keep.dealt hdealt) (hkept.dealt hdealt)

end Runs

section Streams

/-- From a round on, some stream ends the loop with `n` samples, of which there are `o`
so far. -/
def CanEnd (plan : Plan σ α) (asked : Nat) (sizes : Nat → Nat) (o n : Nat) : Prop :=
  ∃ fuel, ∀ rest, ∃ s, ∀ output : List α, output.length = o →
    ∃ out, (plan.rounds fuel asked sizes output).run s = some (out, rest) ∧ out.length = n

theorem canEnd_stop {asked o n : Nat} {sizes ks : Nat → Nat} (hks : Yields plan.draws sizes ks)
    (hsum : o + ∑ i ∈ Finset.range plan.draws.length, ks i = n) (hge : asked ≤ n) :
    plan.CanEnd asked sizes o n := by
  refine ⟨1, fun rest => ?_⟩
  obtain ⟨s, found, hs, hlen⟩ := sampleAll_can hks rest
  refine ⟨s, fun output hout => ⟨output ++ found, ?_, ?_⟩⟩
  · have hstop : ¬ (output ++ found).length < asked := by
      rw [List.length_append]
      omega
    simp only [rounds, StateT.run_bind, hs, Option.bind_eq_bind, Option.bind_some, if_neg hstop]
    rfl
  · rw [List.length_append]
    omega

theorem canEnd_go {asked o o' n : Nat} {sizes ks sizes' : Nat → Nat}
    (hks : Yields plan.draws sizes ks)
    (hsum : o + ∑ i ∈ Finset.range plan.draws.length, ks i = o') (hlt : o' < asked)
    (hdeal : Can (scatter plan.pick (asked - o') (if plan.keep then sizes else fun _ => 0)) sizes')
    (hend : plan.CanEnd (asked - o') sizes' o' n) : plan.CanEnd asked sizes o n := by
  obtain ⟨fuel, hfuel⟩ := hend
  refine ⟨fuel + 1, fun rest => ?_⟩
  -- the stream is put together from its end
  obtain ⟨s₂, hs₂⟩ := hfuel rest
  obtain ⟨s₁, hs₁⟩ := hdeal s₂
  obtain ⟨s, found, hs, hlen⟩ := sampleAll_can hks s₁
  refine ⟨s, fun output hout => ?_⟩
  have hlen' : (output ++ found).length = o' := by
    rw [List.length_append]
    omega
  obtain ⟨out, hrun, hn⟩ := hs₂ (output ++ found) hlen'
  refine ⟨out, ?_, hn⟩
  have hgo : (output ++ found).length < asked := hlen' ▸ hlt
  simp only [rounds, StateT.run_bind, hs, Option.bind_eq_bind, Option.bind_some, if_pos hgo]
  rw [hlen', hs₁]
  exact hrun

theorem can_of_rejects {i : Nat} {draw : Draw σ (Option α)} (hd : plan.draws[i]? = some draw)
    (h : plan.Rejects i) : Can draw none := by
  obtain ⟨draw', hd', hcan⟩ := h
  rw [hd] at hd'
  exact Option.some.inj hd' ▸ hcan

theorem yields_none {sizes : Nat → Nat} (h : ∀ i, 0 < sizes i → plan.Rejects i) :
    Yields plan.draws sizes fun _ => 0 := fun i _ hd =>
  ⟨Nat.zero_le _, fun hpos => absurd hpos (lt_irrefl 0), fun hpos => can_of_rejects hd (h i hpos)⟩

/-- One source accepts `k` of its attempts, the others reject all of theirs. -/
theorem yields_single {b k : Nat} {sizes : Nat → Nat} (hk : k ≤ sizes b) (hacc : plan.Accepts b)
    (hrej : k < sizes b → plan.Rejects b) (hrest : ∀ i, i ≠ b → 0 < sizes i → plan.Rejects i) :
    Yields plan.draws sizes (Function.update (fun _ => 0) b k) := by
  intro i draw hd
  by_cases hib : i = b
  · subst hib
    rw [Function.update_self]
    obtain ⟨draw', hd', hcan⟩ := hacc
    rw [hd] at hd'
    exact ⟨hk, fun _ => Option.some.inj hd' ▸ hcan, fun hlt => can_of_rejects hd (hrej hlt)⟩
  · rw [Function.update_of_ne hib]
    exact ⟨Nat.zero_le _, fun h => absurd h (lt_irrefl 0),
      fun hpos => can_of_rejects hd (hrest i hib hpos)⟩

theorem sum_single {b : Nat} (hb : plan.Accepts b) (k : Nat) :
    ∑ i ∈ Finset.range plan.draws.length, Function.update (fun _ => 0) b k i = k := by
  obtain ⟨draw, hd, -⟩ := hb
  have hlt := (List.getElem?_eq_some_iff.mp hd).1
  rw [Finset.sum_update_of_mem (Finset.mem_range.mpr hlt)]
  simp

theorem canEnd_of_rejects (hkeep : plan.keep = false) {a : Nat} (hpick : Can plan.pick a)
    (hrej : plan.Rejects a) (s : Nat) :
    plan.CanEnd (s + 1) (Function.update (fun _ => 0) a (s + 1)) 1 1 := by
  have hnone : ∀ s, Yields plan.draws (Function.update (fun _ => 0) a s) fun _ => 0 := by
    refine fun s => yields_none fun i hpos => ?_
    by_cases hi : i = a
    · exact hi ▸ hrej
    · rw [Function.update_of_ne hi] at hpos
      exact absurd hpos (lt_irrefl 0)
  induction s with
  | zero => exact canEnd_stop (hnone 1) (by simp) le_rfl
  | succ s ih =>
    have hdeal := scatter_can hpick (s + 1) fun _ => 0
    rw [Nat.zero_add] at hdeal
    refine canEnd_go (hnone (s + 2)) (by simp) (by omega : 1 < s + 2) ?_ ih
    rw [hkeep]
    exact hdeal

theorem run_of_canEnd {asked n : Nat} {sizes : Nat → Nat}
    (hdeal : Can (scatter plan.pick asked fun _ => 0) sizes) (h : plan.CanEnd asked sizes 0 n) :
    ∃ fuel, CanCount (plan.run fuel asked) n := by
  obtain ⟨fuel, hfuel⟩ := h
  refine ⟨fuel, fun rest => ?_⟩
  obtain ⟨s', hs'⟩ := hfuel rest
  obtain ⟨s, hs⟩ := hdeal s'
  obtain ⟨out, hrun, hlen⟩ := hs' [] rfl
  refine ⟨s, out, ?_, hlen⟩
  rw [run, StateT.run_bind, hs]
  exact hrun

theorem eq_of_update_pos {c n i : Nat} (h : 0 < Function.update (fun _ => 0) c n i) : i = c := by
  by_contra hne
  rw [Function.update_of_ne hne] at h
  exact lt_irrefl 0 h

theorem run_of_mixed (hkeep : plan.keep = true) {c : Nat} (hpick : Can plan.pick c)
    (hrej : plan.Rejects c) (hacc : plan.Accepts c) : ∃ fuel, CanCount (plan.run fuel 1) 2 := by
  have hfirst := scatter_can hpick 1 fun _ => 0
  have hsecond := scatter_can hpick 1 (Function.update (fun _ => 0) c 1)
  rw [Nat.zero_add] at hfirst
  rw [Function.update_self, Function.update_idem] at hsecond
  have hboth : Yields plan.draws (Function.update (fun _ => 0) c 2)
      (Function.update (fun _ => 0) c 2) :=
    yields_single (by rw [Function.update_self]) hacc (fun _ => hrej)
      fun i hi hpos => absurd (eq_of_update_pos hpos) hi
  have hlast : plan.CanEnd 1 (Function.update (fun _ => 0) c 2) 0 2 :=
    canEnd_stop hboth (by rw [sum_single hacc]) one_le_two
  refine run_of_canEnd hfirst (canEnd_go (yields_none fun i hpos => ?_) (by simp)
    Nat.zero_lt_one ?_ hlast)
  · exact eq_of_update_pos hpos ▸ hrej
  · rw [hkeep]
    exact hsecond

/-- Where `s + 1` samples are asked for, one may be accepted and the others rejected. After
that either rejections alone end the loop early, or the plan has grown too large. -/
theorem run_of_rejects {a b s : Nat} (hs : 0 < s) (ha : Can plan.pick a) (hrej : plan.Rejects a)
    (hb : Can plan.pick b) (hacc : plan.Accepts b) :
    ∃ fuel n, n ≠ s + 1 ∧ CanCount (plan.run fuel (s + 1)) n := by
  set first := Function.update (fun _ => 0) b 1 with hfirst
  set sizes := Function.update first a (first a + s) with hsizes
  have hdeal : Can (scatter plan.pick (s + 1) fun _ => 0) sizes :=
    hb.bind (scatter_can ha s _)
  have hother : ∀ i, i ≠ b → 0 < sizes i → plan.Rejects i := by
    intro i hi hpos
    by_cases hia : i = a
    · exact hia ▸ hrej
    · rw [hsizes, Function.update_of_ne hia, hfirst, Function.update_of_ne hi] at hpos
      exact absurd hpos (lt_irrefl 0)
  have hfirstb : first b = 1 := Function.update_self ..
  have hone : 1 ≤ sizes b := by
    by_cases hba : b = a
    · subst hba
      rw [hsizes, Function.update_self]
      omega
    · rw [hsizes, Function.update_of_ne hba, hfirstb]
  have hyield : Yields plan.draws sizes (Function.update (fun _ => 0) b 1) := by
    refine yields_single hone hacc (fun hlt => ?_) hother
    by_cases hba : b = a
    · exact hba ▸ hrej
    · rw [hsizes, Function.update_of_ne hba, hfirstb] at hlt
      exact absurd hlt (lt_irrefl 1)
  have hsum : 0 + ∑ i ∈ Finset.range plan.draws.length, Function.update (fun _ => 0) b 1 i = 1 := by
    rw [sum_single hacc]
  cases hkeep : plan.keep with
  | false =>
    obtain ⟨s, rfl⟩ := Nat.exists_eq_add_of_le' hs
    have hagain := scatter_can ha (s + 1) fun _ => 0
    rw [Nat.zero_add] at hagain
    have hend := canEnd_go hyield hsum (by omega : 1 < s + 1 + 1) (by rw [hkeep]; exact hagain)
      (canEnd_of_rejects hkeep ha hrej s)
    obtain ⟨fuel, hcount⟩ := run_of_canEnd hdeal hend
    exact ⟨fuel, 1, by omega, hcount⟩
  | true =>
    have hagain := scatter_can hb s sizes
    have hall : Yields plan.draws (Function.update sizes b (sizes b + s))
        (Function.update (fun _ => 0) b (sizes b + s)) := by
      refine yields_single (by rw [Function.update_self]) hacc (fun hlt => ?_) fun i hi hpos => ?_
      · rw [Function.update_self] at hlt
        exact absurd hlt (lt_irrefl _)
      · rw [Function.update_of_ne hi] at hpos
        exact hother i hi hpos
    have hlast : plan.CanEnd s (Function.update sizes b (sizes b + s)) 1 (1 + (sizes b + s)) :=
      canEnd_stop hall (by rw [sum_single hacc]) (by omega)
    have hend := canEnd_go hyield hsum (by omega : 1 < s + 1) (by rw [hkeep]; exact hagain) hlast
    obtain ⟨fuel, hcount⟩ := run_of_canEnd hdeal hend
    exact ⟨fuel, 1 + (sizes b + s), by omega, hcount⟩

end Streams

theorem run_only_iff [Nonempty σ] (h : plan.Wf) (asked : Nat) :
    (∀ fuel, Only (plan.run fuel asked) fun out => out.length = asked) ↔ plan.Exact asked := by
  constructor
  · intro honly
    have hcount : ∀ {fuel n : Nat}, CanCount (plan.run fuel asked) n → n = asked := by
      intro fuel n hcan
      obtain ⟨s, out, hs, rfl⟩ := hcan (Classical.arbitrary σ)
      exact honly fuel s out _ hs
    by_contra hex
    simp only [Exact, not_or, not_forall, not_not] at hex
    obtain ⟨hne, ⟨a, ha, hrej⟩, ⟨b, hb, hacc⟩, hmixed⟩ := hex
    obtain ⟨s, rfl⟩ := Nat.exists_eq_succ_of_ne_zero hne
    rcases Nat.eq_zero_or_pos s with rfl | hs
    · have hkeep : plan.keep = true := by
        by_contra hkeep
        exact hmixed ⟨rfl, .inl (Bool.not_eq_true _ ▸ hkeep)⟩
      obtain ⟨c, hc, hrej, hacc⟩ : ∃ c, Can plan.pick c ∧ plan.Rejects c ∧ plan.Accepts c := by
        by_contra hnone
        exact hmixed ⟨rfl, .inr fun i hi hboth => hnone ⟨i, hi, hboth⟩⟩
      obtain ⟨fuel, hcan⟩ := run_of_mixed hkeep hc hrej hacc
      exact absurd (hcount hcan) (by decide)
    · obtain ⟨fuel, n, hn, hcan⟩ := run_of_rejects hs ha hrej hb hacc
      exact hn (hcount hcan)
  · intro hex fuel
    refine (scatter_only h asked _).bind fun sizes hdealt => ?_
    have hpicked : plan.Picked sizes :=
      Picked.dealt (fun i hi => absurd hi (lt_irrefl 0)) hdealt
    have hsum : ∑ i ∈ Finset.range plan.draws.length, sizes i = asked := by
      have := hdealt.sum
      simpa using this
    rcases hex with hzero | hno | hno | ⟨hone, hkeep | hno⟩
    · subst hzero
      refine rounds_of_not_rejects h (fun i hi hrej => ?_) hsum
      obtain ⟨draw, hd, -⟩ := hrej
      have hmem := Finset.mem_range.mpr (List.getElem?_eq_some_iff.mp hd).1
      exact absurd (Finset.sum_eq_zero_iff.mp hsum i hmem) hi.ne'
    · exact rounds_of_not_rejects h (fun i hi => hno i (hpicked i hi)) hsum
    · exact rounds_of_not_accepts h hno fuel asked rfl hpicked
    · exact rounds_of_le_one h hkeep hone.le fuel rfl hsum
    · subst hone
      refine rounds_of_not_mixed h hno fuel rfl hpicked fun F hF _ => ?_
      exact (Finset.sum_le_sum_of_subset hF).trans hsum.le

end Plan

end Rejection

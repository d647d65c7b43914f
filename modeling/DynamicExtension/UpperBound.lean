import DynamicExtension.TreeSearch
set_option autoImplicit false

namespace De
variable {K V : Type}

section Descend
variable [LinearOrder K] [Zero K]

/-- The loop of `get_upper_bound` over the entries of an index page. Those past the
listed ones have key 0 and child 0. -/
def nextUpper (key : K) : Nat → Nat → List (K × Nat) → Nat
  | 0, next, _ => next
  | n + 1, _, (k, c) :: es => if key ≤ k then c else nextUpper key n c es
  | n + 1, _, [] => if key ≤ 0 then 0 else nextUpper key n 0 []

/-- The descent of `get_upper_bound`. It ends on a data page, or on a page whose
first child is 0; so reads the header page, which is zero where its children are. -/
def descendUpper (lay : NodeLayout) (lastDataPage : Nat) (fd : File K V) (key : K) :
    Nat → Nat → Option Nat
  | 0, _ => none
  | fuel + 1, now =>
    if 1 ≤ now ∧ now ≤ lastDataPage then some now
    else match fd now with
      | some (.node es) =>
        let next := (es.head?.map Prod.snd).getD 0
        if next = 0 then some now
        else descendUpper lay lastDataPage fd key fuel (nextUpper key lay.internalFanout next es)
      | some (.header _ _ _ _) => some now
      | _ => none

theorem nextUpper_nil (key : K) (n : Nat) : nextUpper key n 0 [] = 0 := by
  induction n with
  | zero => rfl
  | succ n ih => simp [nextUpper, ih]

/-- A key that some entry reaches takes the same child as in `get_lower_bound`. -/
theorem nextUpper_eq_pickChild {key : K} {es : List (K × Nat)} (hfound : ∃ e ∈ es, key ≤ e.1)
    {n : Nat} (hn : es.length ≤ n) (next : Nat) : nextUpper key n next es = pickChild key es := by
  induction es generalizing n next with
  | nil => simp at hfound
  | cons e es ih =>
    obtain ⟨k, c⟩ := e
    obtain ⟨n, rfl⟩ := Nat.exists_eq_succ_of_ne_zero (by simp at hn; omega : n ≠ 0)
    by_cases hle : key ≤ k
    · cases es <;> simp [nextUpper, pickChild, hle]
    · have hrest : ∃ e ∈ es, key ≤ e.1 := by simpa [hle] using hfound
      have hlen : es.length ≤ n := by simpa using hn
      rw [nextUpper, if_neg hle, ih hrest hlen]
      cases es with
      | nil => simp at hrest
      | cons e es => simp [pickChild, hle]

/-- A key above all entries takes the last child of a page without empty entries,
and the number of an empty entry's child in any other. -/
theorem nextUpper_of_above {key : K} {es : List (K × Nat)} (habove : ∀ e ∈ es, e.1 < key)
    {n : Nat} (hn : es.length ≤ n) (next : Nat) :
    nextUpper key n next es =
      if es.length = n then (es.getLast?.map Prod.snd).getD next else 0 := by
  induction es generalizing n next with
  | nil =>
    cases n with
    | zero => rfl
    | succ n => simp [nextUpper, nextUpper_nil]
  | cons e es ih =>
    obtain ⟨k, c⟩ := e
    obtain ⟨n, rfl⟩ := Nat.exists_eq_succ_of_ne_zero (by simp at hn; omega : n ≠ 0)
    have hk : ¬ key ≤ k := not_le_of_gt (habove (k, c) (by simp))
    rw [nextUpper, if_neg hk, ih (fun e he => habove e (by simp [he])) (by simpa using hn)]
    cases es with
    | nil => simp [eq_comm]
    | cons e es => simp [List.getLast?_cons]

end Descend

section Index
variable {lay : NodeLayout} {recs : List (Wrapped (Record K V))} {lastDataPage : Nat}

/-- No index page on the path of last children below `p` has an empty entry. -/
inductive RightFull (lay : NodeLayout) (lastDataPage : Nat) (fd : File K V) : Nat → Prop where
  | leaf {p : Nat} : 1 ≤ p → p ≤ lastDataPage → RightFull lay lastDataPage fd p
  | node {p : Nat} {es : List (K × Nat)} {e : K × Nat} : lastDataPage < p →
      fd p = some (.node es) → es.length = lay.internalFanout → es.getLast? = some e → e.2 < p →
      RightFull lay lastDataPage fd e.2 → RightFull lay lastDataPage fd p

theorem rightFull_iff {fd : File K V} {p : Nat} {es : List (K × Nat)} {e : K × Nat}
    (hlast : lastDataPage < p) (hes : fd p = some (.node es)) (he : es.getLast? = some e)
    (hlt : e.2 < p) :
    RightFull lay lastDataPage fd p ↔
      es.length = lay.internalFanout ∧ RightFull lay lastDataPage fd e.2 := by
  constructor
  · intro h
    cases h with
    | leaf h1 hle => omega
    | node _ hes' hlen he' _ hfull =>
      obtain rfl : es = _ := by simpa using hes.symm.trans hes'
      obtain rfl : e = _ := Option.some.inj (he.symm.trans he')
      exact ⟨hlen, hfull⟩
  · rintro ⟨hlen, hfull⟩
    exact .node hlast hes hlen he hlt hfull

theorem RightFull.congr {fd fd' : File K V} {p : Nat} (h : RightFull lay lastDataPage fd p)
    (hfd : ∀ q, 1 ≤ q → q ≤ p → fd' q = fd q) : RightFull lay lastDataPage fd' p := by
  induction h with
  | leaf h1 hle => exact .leaf h1 hle
  | node hlast hes hlen he hlt _ ih =>
    refine .node hlast ?_ hlen he hlt (ih fun q h1 hq => hfd q h1 (by omega))
    rw [hfd _ (by omega) (Nat.le_refl _), hes]

theorem rightFull_congr {fd fd' : File K V} {p : Nat} (hfd : ∀ q, 1 ≤ q → q ≤ p → fd' q = fd q) :
    RightFull lay lastDataPage fd p ↔ RightFull lay lastDataPage fd' p :=
  ⟨fun h => h.congr hfd, fun h => h.congr fun q h1 hq => (hfd q h1 hq).symm⟩

theorem buildNode_children {fd : File K V} {reccnt lastPage n child : Nat} {es : List (K × Nat)}
    (h : buildNode lay lastDataPage reccnt lastPage fd n child = some es) :
    es.length = min n (lastPage + 1 - child) ∧
      ∀ e, es.getLast? = some e → e.2 + 1 = child + es.length := by
  induction n generalizing child es with
  | zero =>
    obtain rfl : [] = es := by simpa [buildNode] using h
    simp
  | succ n ih =>
    rw [buildNode] at h
    split at h
    · obtain rfl : [] = es := by simpa using h
      simp only [List.length_nil, List.getLast?_nil, reduceCtorEq, false_implies, implies_true,
        and_true]
      omega
    · split at h
      · cases h
      · rename_i k _
        obtain ⟨rest, hrest, rfl⟩ := Option.map_eq_some_iff.mp h
        obtain ⟨hlen, hlast⟩ := ih hrest
        refine ⟨by simp only [List.length_cons]; omega, fun e he => ?_⟩
        cases rest with
        | nil =>
          obtain rfl : (k, child) = e := by simpa using he
          simp
        | cons e' rest =>
          have := hlast e (by simpa using he)
          simp only [List.length_cons] at this ⊢
          omega

/-- The last page of an index level holds what is left over of the level below, and its
last child is the last page of it. -/
theorem buildLevel_last {reccnt lastPage : Nat} (fuel : Nat) {fd fd' : File K V}
    {child write write' : Nat} (hchild : child ≤ lastPage)
    (h : buildLevel lay lastDataPage reccnt lastPage fuel fd child write = some (fd', write')) :
    write' = write + (lastPage - child) / lay.internalFanout + 1 ∧
      (∀ q, q < write → fd' q = fd q) ∧
      ∃ es e, fd' (write' - 1) = some (.node es) ∧
        es.length = (lastPage - child) % lay.internalFanout + 1 ∧ es.getLast? = some e ∧
        e.2 = lastPage := by
  have htwo := lay.two_le_internalFanout
  induction fuel generalizing fd child write with
  | zero => cases h
  | succ fuel ih =>
    rw [buildLevel, if_pos hchild] at h
    split at h
    · cases h
    · rename_i es hes
      obtain ⟨hlen, hlast⟩ := buildNode_children hes
      have hne : es ≠ [] := by
        intro hnil
        simp only [hnil, List.length_nil] at hlen
        omega
      obtain ⟨e, he⟩ := Option.isSome_iff_exists.mp (List.getLast?_isSome.mpr hne)
      have hkeep : ∀ q, q < write → fd.pwrite write (.node es) q = fd q := fun q hq =>
        File.pwrite_of_ne _ _ (Nat.ne_of_lt hq)
      by_cases hmore : child + es.length ≤ lastPage
      · obtain ⟨hwrite, hkeep', es', e', hes', hlen', he', hlast'⟩ := ih hmore h
        have hfull : es.length = lay.internalFanout := by omega
        have hsplit : lastPage - child =
            (lastPage - (child + es.length)) + lay.internalFanout := by omega
        refine ⟨?_, fun q hq => ?_, es', e', hes', ?_, he', hlast'⟩
        · rw [hwrite, hsplit, Nat.add_div_right _ (by omega)]
          omega
        · rw [hkeep' q (by omega), hkeep q hq]
        · rw [hlen', hsplit, Nat.add_mod_right]
      · have hend : fuel ≠ 0 → buildLevel lay lastDataPage reccnt lastPage fuel
            (fd.pwrite write (.node es)) (child + es.length) (write + 1) =
            some (fd.pwrite write (.node es), write + 1) := by
          intro hfuel
          obtain ⟨fuel, rfl⟩ := Nat.exists_eq_succ_of_ne_zero hfuel
          rw [buildLevel, if_neg hmore]
        have hfuel : fuel ≠ 0 := by
          rintro rfl
          cases h
        obtain ⟨rfl, rfl⟩ : fd.pwrite write (.node es) = fd' ∧ write + 1 = write' := by
          simpa using (hend hfuel).symm.trans h
        have hlt : lastPage - child < lay.internalFanout := by omega
        refine ⟨?_, hkeep, es, e, ?_, ?_, he, ?_⟩
        · rw [Nat.div_eq_of_lt hlt]
        · rw [Nat.add_sub_cancel, File.pwrite_self]
        · rw [Nat.mod_eq_of_lt hlt]
          omega
        · have := hlast e he
          omega

theorem exists_pow_iff {F n : Nat} (hF : 2 ≤ F) (hn : 2 ≤ n) :
    ((n - 1) % F + 1 = F ∧ ∃ k, (n - 1) / F + 1 = F ^ k) ↔ ∃ k, n = F ^ k := by
  have hdiv := Nat.div_add_mod (n - 1) F
  constructor
  · rintro ⟨hmod, k, hk⟩
    refine ⟨k + 1, ?_⟩
    rw [Nat.pow_succ', ← hk, Nat.mul_add]
    omega
  · rintro ⟨k, hk⟩
    cases k with
    | zero => simp at hk; omega
    | succ k =>
      have hpos : 0 < F ^ k := Nat.pow_pos (by omega)
      obtain ⟨c, hc⟩ := Nat.exists_eq_succ_of_ne_zero hpos.ne'
      have hpred : n - 1 = F - 1 + F * c := by
        rw [hk, Nat.pow_succ', hc, Nat.mul_succ]
        omega
      refine ⟨?_, k, ?_⟩
      · rw [hpred, Nat.add_mul_mod_self_left, Nat.mod_eq_of_lt (by omega)]
        omega
      · rw [hpred, Nat.add_mul_div_left _ _ (by omega), Nat.div_eq_of_lt (by omega), hc]
        omega

/-- The path of last children has no empty entry if and only if the pages that the index
was built over are a power of the fanout. -/
theorem buildInternalLevels_full {reccnt : Nat} (fuel : Nat) {fd fd' : File K V}
    {first last root : Nat} (hfirst : first ≤ last) (hdata : lastDataPage ≤ last)
    (h : buildInternalLevels lay lastDataPage reccnt fuel fd first last = some (fd', root)) :
    (∀ q, q ≤ last → fd' q = fd q) ∧
    (RightFull lay lastDataPage fd' root ↔
      RightFull lay lastDataPage fd last ∧ ∃ k, last + 1 - first = lay.internalFanout ^ k) := by
  have htwo := lay.two_le_internalFanout
  induction fuel generalizing fd first last with
  | zero => cases h
  | succ fuel ih =>
    rw [buildInternalLevels] at h
    split at h
    · rename_i heq
      obtain ⟨rfl, rfl⟩ : fd = fd' ∧ first = root := by simpa using h
      subst heq
      exact ⟨fun _ _ => rfl, fun hfull => ⟨hfull, 0, by simp⟩, fun hfull => hfull.1⟩
    · rename_i hne
      split at h
      · cases h
      · rename_i fd₁ write hlevel
        obtain ⟨hwrite, hkeep₁, es, e, hes, hlen, he, hel⟩ := buildLevel_last _ hfirst hlevel
        have hpow := exists_pow_iff htwo (show 2 ≤ last + 1 - first by omega)
        have hsub : last + 1 - first - 1 = last - first := by omega
        rw [hsub, ← hlen] at hpow
        generalize (last - first) / lay.internalFanout = m at hwrite hpow
        have hroot : write - 1 = last + 1 + m := by omega
        rw [hroot] at h hes
        obtain ⟨hkeep, hfull⟩ := ih (by omega) (by omega) h
        refine ⟨fun q hq => ?_, ?_⟩
        · rw [hkeep q (by omega), hkeep₁ q (by omega)]
        · have hstep : RightFull lay lastDataPage fd₁ (last + 1 + m) ↔
              es.length = lay.internalFanout ∧ RightFull lay lastDataPage fd last := by
            rw [rightFull_iff (by omega) hes he (by omega), hel,
              rightFull_congr fun q _ hq => (hkeep₁ q (by omega)).symm]
          have hcount : last + 1 + m + 1 - (last + 1) = m + 1 := by omega
          rw [hfull, hstep, hcount, ← hpow]
          exact and_assoc.trans and_left_comm

theorem Chain.exists_key {P : Nat → Nat → Nat → Prop} {key : Nat → K → Prop}
    {es : List (K × Nat)} {lo hi : Nat} (hc : Chain P key es lo hi) {e : K × Nat} (he : e ∈ es) :
    ∃ mid, key mid e.1 := by
  induction es generalizing lo with
  | nil => cases he
  | cons e' es ih =>
    obtain ⟨mid, -, -, hk, hc⟩ := hc
    rcases List.mem_cons.mp he with rfl | he
    · exact ⟨mid, hk⟩
    · exact ih hc he

theorem Chain.last {P : Nat → Nat → Nat → Prop} {key : Nat → K → Prop} {es : List (K × Nat)}
    {lo hi : Nat} (hc : Chain P key es lo hi) {e : K × Nat} (he : es.getLast? = some e) :
    ∃ mid, P e.2 mid hi := by
  induction es generalizing lo with
  | nil => cases he
  | cons e' es ih =>
    obtain ⟨mid, hp, -, -, hc⟩ := hc
    cases es with
    | nil =>
      obtain rfl : mid = hi := hc
      obtain rfl : e' = e := by simpa using he
      exact ⟨lo, hp⟩
    | cons e'' es => exact ih hc (by simpa using he)

theorem Covers.head_ne_zero {fd : File K V} {d lo hi : Nat} {es : List (K × Nat)} (hne : es ≠ [])
    {key : Nat → K → Prop} (hc : Chain (Covers lay recs lastDataPage fd d) key es lo hi) :
    (es.head?.map Prod.snd).getD 0 ≠ 0 := by
  cases es with
  | nil => exact absurd rfl hne
  | cons e es =>
    obtain ⟨mid, hcov, -⟩ := hc
    have := hcov.one_le
    simp only [List.head?_cons, Option.map_some, Option.getD_some]
    omega

variable [LinearOrder K] [Zero K]

/-- A key that some record reaches has the descent of `get_lower_bound`. -/
theorem descendUpper_eq_descend {fd : File K V} (key : K) (fuel d p lo hi : Nat)
    (h : Covers lay recs lastDataPage fd d p lo hi)
    (hreach : ∃ k, LastKey lay recs hi k ∧ key ≤ k) (hfuel : d < fuel) :
    descendUpper lay lastDataPage fd key fuel p = descend lastDataPage fd key fuel p := by
  induction d generalizing fuel p lo hi with
  | zero =>
    obtain ⟨fuel, rfl⟩ := Nat.exists_eq_succ_of_ne_zero (by omega : fuel ≠ 0)
    obtain ⟨-, -, h1, hle⟩ := h
    rw [descendUpper, descend, if_pos ⟨h1, hle⟩, if_pos ⟨h1, hle⟩]
  | succ d ih =>
    obtain ⟨fuel, rfl⟩ := Nat.exists_eq_succ_of_ne_zero (by omega : fuel ≠ 0)
    obtain ⟨hlast, es, hes, hne, hlen, -, hc⟩ := h
    obtain ⟨e, he⟩ := Option.isSome_iff_exists.mp (List.getLast?_isSome.mpr hne)
    have hfound : ∃ e ∈ es, key ≤ e.1 := by
      obtain ⟨k, hk, hle⟩ := hreach
      exact ⟨e, List.mem_of_getLast? he, (hc.lastKey he).unique hk ▸ hle⟩
    obtain ⟨a, b, hcov, -, -, -, -, -, hstop⟩ := pickChild_spec key hne hc
    have hreach' : ∃ k, LastKey lay recs b k ∧ key ≤ k := by
      rcases hstop with rfl | hstop
      · exact hreach
      · exact hstop
    rw [descendUpper, descend, if_neg (by omega), if_neg (by omega), hes]
    simp only [if_neg (Covers.head_ne_zero hne hc), nextUpper_eq_pickChild hfound hlen]
    exact ih fuel _ a b hcov hreach' (by omega)

/-- A key above all records ends on the last data page if no index page on the way has
an empty entry, and on the header page otherwise. -/
theorem descendUpper_of_above {fd : File K V} {key : K}
    (habove : ∀ hi k, LastKey lay recs hi k → k < key) {a b c n : Nat}
    (hheader : fd 0 = some (.header a b c n)) (fuel d p lo hi : Nat)
    (h : Covers lay recs lastDataPage fd d p lo hi) (hfuel : d < fuel) :
    ∃ q, descendUpper lay lastDataPage fd key fuel p = some q ∧
      (RightFull lay lastDataPage fd p → q + 1 = hi) ∧
      (¬ RightFull lay lastDataPage fd p → q = 0) := by
  have htwo := lay.two_le_internalFanout
  induction d generalizing fuel p lo hi with
  | zero =>
    obtain ⟨fuel, rfl⟩ := Nat.exists_eq_succ_of_ne_zero (by omega : fuel ≠ 0)
    obtain ⟨rfl, rfl, h1, hle⟩ := h
    refine ⟨lo, ?_, fun _ => rfl, fun hnot => absurd (.leaf h1 hle) hnot⟩
    rw [descendUpper, if_pos ⟨h1, hle⟩]
  | succ d ih =>
    obtain ⟨fuel, rfl⟩ := Nat.exists_eq_succ_of_ne_zero (by omega : fuel ≠ 0)
    obtain ⟨hlast, es, hes, hne, hlen, hlt, hc⟩ := h
    obtain ⟨e, he⟩ := Option.isSome_iff_exists.mp (List.getLast?_isSome.mpr hne)
    have hsmall : ∀ e ∈ es, e.1 < key := by
      intro e he
      obtain ⟨mid, hk⟩ := hc.exists_key he
      exact habove mid _ hk
    have hfull : RightFull lay lastDataPage fd p ↔
        es.length = lay.internalFanout ∧ RightFull lay lastDataPage fd e.2 :=
      rightFull_iff hlast hes he (hlt e (List.mem_of_getLast? he))
    rw [descendUpper, if_neg (by omega), hes]
    simp only [if_neg (Covers.head_ne_zero hne hc), nextUpper_of_above hsmall hlen, he,
      Option.map_some, Option.getD_some]
    by_cases hF : es.length = lay.internalFanout
    · obtain ⟨mid, hcov⟩ := hc.last he
      obtain ⟨q, hq, hin, hout⟩ := ih fuel e.2 mid hi hcov (by omega)
      rw [if_pos hF]
      exact ⟨q, hq, fun h => hin (hfull.mp h).2, fun h => hout fun hr => h (hfull.mpr ⟨hF, hr⟩)⟩
    · obtain ⟨fuel, rfl⟩ := Nat.exists_eq_succ_of_ne_zero (by omega : fuel ≠ 0)
      refine ⟨0, ?_, fun h => absurd (hfull.mp h).1 hF, fun _ => rfl⟩
      rw [if_neg hF, descendUpper, if_neg (by omega), hheader]

end Index

namespace ISAMTree
variable {lay : NodeLayout}

section Defs
variable [LinearOrder K] [Zero K] [Zero V] (lay)

/-- `get_upper_bound`, a byte offset into the file. `header` is what the slots of the
header page read as. -/
def getUpperBound (header : List (Wrapped (Record K V))) (t : ISAMTree K V) (key : K) :
    Option Nat := do
  let now ← descendUpper lay t.lastDataPage t.fd key (t.rootPage + 1) t.rootPage
  let recs ← match t.fd now with
    | some (.data recs) => some recs
    | some (.header _ _ _ _) => some header
    | _ => none
  let offset := ((List.range lay.leafFanout).find? fun i =>
    key < (pageSlot recs i).record.key).getD lay.leafFanout
  return now * lay.nodeSz + offset * lay.recordSz

omit [LinearOrder K] [Zero K] [Zero V] in
/-- The record index that a byte offset stands for -/
def globalIndex (offset : Nat) : ℤ :=
  ((offset / lay.nodeSz : Nat) - 1) * lay.leafFanout +
    (offset % lay.nodeSz / lay.recordSz : Nat)

end Defs

theorem globalIndex_eq (now : Nat) {off : Nat} (hle : off ≤ lay.leafFanout) :
    globalIndex lay (now * lay.nodeSz + off * lay.recordSz) =
      ((now : ℤ) - 1) * lay.leafFanout + off := by
  rw [globalIndex]
  by_cases hoff : off * lay.recordSz < lay.nodeSz
  · obtain ⟨hdiv, hmod⟩ := offset_split lay now hoff
    rw [hdiv, hmod]
  · obtain ⟨hfull, -, hnext⟩ := offset_next lay now hle hoff
    have hpos : 0 < lay.nodeSz := lt_of_lt_of_le lay.recordSz_pos lay.recordSz_le
    rw [hnext, Nat.mul_div_cancel _ hpos, Nat.mul_mod_left, Nat.zero_div, hfull]
    push_cast
    ring

variable [LinearOrder K] [LinearOrder V] [Zero K] [Zero V]
variable {t : ISAMTree K V} {recs : List (Wrapped (Record K V))}

/-- The scan of data page `now` ends on its first slot with a greater key, or past
its slots. -/
theorem getUpperBound_of_page (h : WellFormed lay t recs) (header : List (Wrapped (Record K V)))
    {key : K} {now : Nat}
    (hnow : descendUpper lay t.lastDataPage t.fd key (t.rootPage + 1) t.rootPage = some now)
    (h1 : 1 ≤ now) (hle : now ≤ t.lastDataPage) :
    ∃ off, getUpperBound lay header t key = some (now * lay.nodeSz + off * lay.recordSz) ∧
      off ≤ lay.leafFanout ∧
      (off < lay.leafFanout →
        key < (recs.getD ((now - 1) * lay.leafFanout + off) 0).record.key) ∧
      ∀ j < off, (recs.getD ((now - 1) * lay.leafFanout + j) 0).record.key ≤ key := by
  have hin : (now - 1) * lay.leafFanout < recs.length := by
    rw [← lt_pageCount_iff lay.leafFanout_pos, ← h.lastDataPage]
    omega
  have hpage := h.holds (now - 1) hin
  rw [Nat.sub_add_cancel h1] at hpage
  have hslot : ∀ j < lay.leafFanout, pageSlot (pageOf lay.leafFanout recs (now - 1)) j =
      recs.getD ((now - 1) * lay.leafFanout + j) 0 := fun j hj => pageSlot_pageOf _ j hj
  obtain ⟨hoff, hat, hbefore⟩ := scan_spec (fun i =>
    key < (pageSlot (pageOf lay.leafFanout recs (now - 1)) i).record.key) lay.leafFanout
  refine ⟨_, ?_, hoff, fun hlt => ?_, fun j hj => ?_⟩
  · simp only [getUpperBound, hnow, Option.bind_eq_bind, Option.bind_some, hpage]
    rfl
  · rw [← hslot _ hlt]
    simpa only [decide_eq_true_eq] using hat hlt
  · rw [← hslot j (by omega)]
    simpa only [decide_eq_false_iff_not, not_lt] using hbefore j hj

/-- The search ends on slot `off` of the first page, the `page`-th from 0 on, whose last key
is not below the search key. -/
structure FoundUpper (lay : NodeLayout) (recs : List (Wrapped (Record K V))) (key : K)
    (page off : Nat) : Prop where
  off_le : off ≤ lay.leafFanout
  before : ∀ i w, i < page * lay.leafFanout → recs[i]? = some w → w.record.key < key
  below : ∀ i w, i < page * lay.leafFanout + off → recs[i]? = some w → w.record.key ≤ key
  slot : off < lay.leafFanout → ∀ w, recs[page * lay.leafFanout + off]? = some w →
    key < w.record.key
  full : ∀ v, recs[(page + 1) * lay.leafFanout - 1]? = some v → key ≤ v.record.key

omit [Zero K] [Zero V] in
theorem WellFormed.lastKey (h : WellFormed lay t recs) {key : K}
    (hreach : ∃ w ∈ recs, key ≤ w.record.key) :
    ∃ k, LastKey lay recs (t.lastDataPage + 1) k ∧ key ≤ k := by
  have hlen : recs.length ≤ t.lastDataPage * lay.leafFanout := by
    rw [← not_lt, ← lt_pageCount_iff lay.leafFanout_pos, ← h.lastDataPage]
    exact lt_irrefl _
  obtain ⟨w, hw, hkw⟩ := hreach
  obtain ⟨i, hi⟩ := List.mem_iff_getElem?.mp hw
  have hin := (List.getElem?_eq_some_iff.mp hi).1
  have hv : recs.length - 1 < recs.length := by omega
  refine ⟨_, ⟨recs[recs.length - 1], ?_, rfl⟩, le_trans hkw
    (key_mono h.sorted (by omega) hi (List.getElem?_eq_getElem hv))⟩
  rw [Nat.add_sub_cancel, Nat.min_eq_right hlen, List.getElem?_eq_getElem hv]

theorem getUpperBound_of_reached (h : WellFormed lay t recs)
    (header : List (Wrapped (Record K V))) {key : K}
    (hreach : ∃ w ∈ recs, key ≤ w.record.key) :
    ∃ offset page off, getUpperBound lay header t key = some offset ∧
      globalIndex lay offset = (page * lay.leafFanout + off : Nat) ∧
      FoundUpper lay recs key page off := by
  have hpos := lay.leafFanout_pos
  have hne : recs ≠ [] := by
    obtain ⟨w, hw, -⟩ := hreach
    exact List.ne_nil_of_mem hw
  obtain ⟨d, hd, hcov⟩ := h.index hne
  have hlast := h.lastKey hreach
  obtain ⟨now, hnow, h1, hle, hland⟩ :=
    descend_spec key (t.rootPage + 1) d t.rootPage 1 (t.lastDataPage + 1) hcov (by omega)
  rw [← descendUpper_eq_descend key _ _ _ _ _ hcov hlast (by omega)] at hnow
  obtain ⟨off, hrun, hoff, hat, hbelow⟩ := getUpperBound_of_page h header hnow h1 hle
  have hin : (now - 1) * lay.leafFanout < recs.length := by
    rw [← lt_pageCount_iff hpos, ← h.lastDataPage]
    omega
  have hbefore : ∀ i w, i < (now - 1) * lay.leafFanout → recs[i]? = some w → w.record.key < key :=
    fun i w hi hw => lands_below h.sorted hland hin hi hw
  refine ⟨_, now - 1, off, hrun, ?_, hoff, hbefore, fun i w hi hw => ?_, fun hlt w hw => ?_,
    fun v hv => ?_⟩
  · rw [globalIndex_eq now hoff]
    push_cast [Nat.cast_sub h1]
    ring
  · by_cases hip : i < (now - 1) * lay.leafFanout
    · exact (hbefore i w hip hw).le
    · have := hbelow (i - (now - 1) * lay.leafFanout) (by omega)
      rwa [Nat.add_sub_cancel' (by omega), List.getD_eq_getElem?_getD, hw] at this
  · have := hat hlt
    rwa [List.getD_eq_getElem?_getD, hw] at this
  · rw [Nat.sub_add_cancel h1] at hv
    have hend := (List.getElem?_eq_some_iff.mp hv).1
    obtain ⟨k, ⟨v', hv', rfl⟩, hk⟩ : ∃ k, LastKey lay recs (now + 1) k ∧ key ≤ k := by
      rcases hland.stop with hstop | hstop
      · rw [hstop]
        exact hlast
      · exact hstop
    rw [Nat.add_sub_cancel, Nat.min_eq_left (by omega), hv, Option.some.injEq] at hv'
    rwa [hv']

/-- A key above all records ends at or past their count if no index page on the way has an
empty entry, and before the first record otherwise. -/
theorem getUpperBound_of_above (h : WellFormed lay t recs) (hne : recs ≠ [])
    (header : List (Wrapped (Record K V))) {key : K} (habove : ∀ w ∈ recs, w.record.key < key) :
    ∃ offset, getUpperBound lay header t key = some offset ∧
      (RightFull lay t.lastDataPage t.fd t.rootPage →
        (recs.length : ℤ) ≤ globalIndex lay offset) ∧
      (¬ RightFull lay t.lastDataPage t.fd t.rootPage → globalIndex lay offset ≤ 0) := by
  have hpos := lay.leafFanout_pos
  have hlen : recs.length ≤ t.lastDataPage * lay.leafFanout := by
    rw [← not_lt, ← lt_pageCount_iff hpos, ← h.lastDataPage]
    exact lt_irrefl _
  obtain ⟨d, hd, hcov⟩ := h.index hne
  have hkeys : ∀ hi k, LastKey lay recs hi k → k < key := by
    rintro hi k ⟨w, hw, rfl⟩
    exact habove w (List.mem_of_getElem? hw)
  obtain ⟨now, hnow, hin, hout⟩ := descendUpper_of_above hkeys h.header (t.rootPage + 1) d
    t.rootPage 1 (t.lastDataPage + 1) hcov (by omega)
  by_cases hfull : RightFull lay t.lastDataPage t.fd t.rootPage
  · obtain rfl : now = t.lastDataPage := by
      have := hin hfull
      omega
    have h1 : 1 ≤ t.lastDataPage := by
      by_contra h0
      have hnil : recs.length = 0 := by simpa [show t.lastDataPage = 0 by omega] using hlen
      exact hne (List.length_eq_zero_iff.mp hnil)
    obtain ⟨off, hrun, hoff, hat, -⟩ := getUpperBound_of_page h header hnow h1 le_rfl
    refine ⟨_, hrun, fun _ => ?_, fun hnot => absurd hfull hnot⟩
    rw [globalIndex_eq _ hoff]
    have hend : recs.length ≤ (t.lastDataPage - 1) * lay.leafFanout + off := by
      rcases Nat.lt_or_eq_of_le hoff with hlt | hfan
      · -- a record in the slot would have a smaller key
        by_contra hlen'
        have hslot := hat hlt
        rw [List.getD_eq_getElem?_getD, List.getElem?_eq_getElem (by omega)] at hslot
        exact absurd hslot (not_lt_of_gt (habove _ (List.getElem_mem _)))
      · rw [hfan, ← Nat.succ_mul, Nat.succ_eq_add_one, Nat.sub_add_cancel h1]
        exact hlen
    have hcast : ((t.lastDataPage - 1 : Nat) : ℤ) = (t.lastDataPage : ℤ) - 1 := Nat.cast_sub h1
    rw [← hcast]
    exact_mod_cast hend
  · obtain rfl := hout hfull
    obtain ⟨off, hrun, hoff⟩ : ∃ off, getUpperBound lay header t key =
        some (0 * lay.nodeSz + off * lay.recordSz) ∧ off ≤ lay.leafFanout := by
      refine ⟨_, ?_, (scan_spec (fun i => key < (pageSlot header i).record.key) _).1⟩
      simp only [getUpperBound, hnow, Option.bind_eq_bind, Option.bind_some, h.header]
      rfl
    refine ⟨_, hrun, fun h => absurd h hfull, fun _ => ?_⟩
    rw [globalIndex_eq 0 hoff]
    push_cast
    omega

section Shards
variable {std : StdLib (Record K V)}

omit [Zero K] [Zero V] in
theorem build_full {shards : Bool} {runs : List (File K V × Nat)} {reccnt : Nat}
    {tombstoneCnt : BitVec 64} (h : build lay std shards runs reccnt tombstoneCnt = some t)
    (hpos : 1 ≤ t.lastDataPage) :
    RightFull lay t.lastDataPage t.fd t.rootPage ↔
      ∃ k, t.lastDataPage = lay.internalFanout ^ k := by
  rw [build] at h
  obtain ⟨st, -, h⟩ := Option.bind_eq_some_iff.mp h
  by_cases hcnt : 0 < reccnt - 2 * st.cancelled
  · simp only [if_pos hcnt, Option.bind_eq_bind, Option.bind_eq_some_iff, Option.some.injEq] at h
    obtain ⟨⟨fd, root⟩, hindex, rfl⟩ := h
    obtain ⟨-, hfull⟩ := buildInternalLevels_full _ hpos le_rfl hindex
    have hwrite : ∀ img q, 1 ≤ q → q ≤ root → (fd.pwrite 0 img) q = fd q :=
      fun _ q hq _ => File.pwrite_of_ne _ _ (by omega)
    rw [← rightFull_congr (hwrite _), hfull, Nat.add_sub_cancel]
    exact and_iff_right (.leaf hpos le_rfl)
  · simp only [if_neg hcnt, Option.bind_eq_bind, Option.bind_some, Option.some.injEq] at h
    subst h
    exact absurd hpos (by simp)

omit [Zero K] [Zero V] in
/-- The index of a shard has no empty entry on its right edge if and only if the number
of data pages is a power of the fanout. -/
theorem Built.full (h : Built lay std t) (hpos : 1 ≤ t.lastDataPage) :
    RightFull lay t.lastDataPage t.fd t.rootPage ↔
      ∃ k, t.lastDataPage = lay.internalFanout ^ k := by
  induction h with
  | buffer ht => exact build_full ht hpos
  | shards _ ht _ => exact build_full ht hpos
  | @file x t hx ht ih =>
    obtain ⟨recs, hwf⟩ := hx.wellFormed
    rw [ofFile, hwf.header, Option.some.injEq] at ht
    subst ht
    exact ih hpos

/-- The index `n` is that of the first element that passes, or one past all elements
when there is none. -/
def IsFirst {α : Type} (p : α → Bool) (l : List α) (n : ℤ) : Prop :=
  match l.findIdx? p with
  | some i => n = i
  | none => l.length ≤ n

theorem isFirst_iff {α : Type} {p : α → Bool} {l : List α} {n : Nat}
    (hbefore : ∀ i a, i < n → l[i]? = some a → p a = false) :
    IsFirst p l n ↔ ∀ a, l[n]? = some a → p a = true := by
  rw [IsFirst]
  cases hfirst : l.findIdx? p with
  | none =>
    rw [List.findIdx?_eq_none_iff] at hfirst
    simp only [Nat.cast_le]
    constructor
    · intro hlen a ha
      rw [List.getElem?_eq_none hlen] at ha
      cases ha
    · intro hat
      by_contra hlt
      have := hat _ (List.getElem?_eq_getElem (by omega))
      rw [hfirst _ (List.getElem_mem _)] at this
      cases this
  | some i =>
    obtain ⟨hi, hpi, hmin⟩ := List.findIdx?_eq_some_iff_getElem.mp hfirst
    have hle : n ≤ i := by
      by_contra hlt
      have := hbefore i _ (by omega) (List.getElem?_eq_getElem hi)
      rw [hpi] at this
      cases this
    simp only [Nat.cast_inj]
    constructor
    · rintro rfl a ha
      rw [List.getElem?_eq_getElem hi, Option.some.injEq] at ha
      rw [← ha, hpi]
    · intro hat
      rcases Nat.eq_or_lt_of_le hle with heq | hlt
      · exact heq
      · exact absurd (hat _ (List.getElem?_eq_getElem (by omega))) (hmin n hlt)

omit [Zero K] [Zero V] in
/-- Where the search ends is the upper bound if and only if no page ends on the key with
the next one beginning on it. -/
theorem FoundUpper.next_iff (hs : recs.Pairwise fun a b => a.record ≤ b.record) {key : K}
    {page off : Nat} (hf : FoundUpper lay recs key page off) :
    (∀ w, recs[page * lay.leafFanout + off]? = some w → key < w.record.key) ↔
      ∀ p v w, recs[(p + 1) * lay.leafFanout - 1]? = some v →
        recs[(p + 1) * lay.leafFanout]? = some w → v.record.key = key → w.record.key ≠ key := by
  have hpos := lay.leafFanout_pos
  have hoff := hf.off_le
  have hnext : (page + 1) * lay.leafFanout = page * lay.leafFanout + lay.leafFanout :=
    Nat.succ_mul _ _
  constructor
  · intro hat p v w hv hw hkv hkw
    -- the page that ends on the key is not before the one that the search ends on
    have hpage : page ≤ p := by
      by_contra hlt
      have hle : (p + 1) * lay.leafFanout ≤ page * lay.leafFanout :=
        Nat.mul_le_mul_right _ (by omega)
      have hsucc : (p + 1) * lay.leafFanout = p * lay.leafFanout + lay.leafFanout :=
        Nat.succ_mul _ _
      exact absurd hkv (hf.before _ v (by omega) hv).ne
    have hle : (page + 1) * lay.leafFanout ≤ (p + 1) * lay.leafFanout :=
      Nat.mul_le_mul_right _ (by omega)
    have hin := (List.getElem?_eq_some_iff.mp hw).1
    have hslot : page * lay.leafFanout + off < recs.length := by omega
    have hlow := hat _ (List.getElem?_eq_getElem hslot)
    have hmono := key_mono hs (by omega) (List.getElem?_eq_getElem hslot) hw
    exact absurd hkw (lt_of_lt_of_le hlow hmono).ne'
  · intro hbound w hw
    rcases Nat.lt_or_eq_of_le hoff with hlt | hfull
    · exact hf.slot hlt w hw
    · rw [hfull, ← hnext] at hw
      have hin := (List.getElem?_eq_some_iff.mp hw).1
      have hprev : (page + 1) * lay.leafFanout - 1 < recs.length := by omega
      have hv := List.getElem?_eq_getElem hprev
      have hkv : (recs[(page + 1) * lay.leafFanout - 1]).record.key = key :=
        le_antisymm (hf.below _ _ (by omega) hv) (hf.full _ hv)
      have hmono := key_mono hs (by omega) hv hw
      rw [hkv] at hmono
      exact lt_of_le_of_ne hmono (hbound page _ w hv hw hkv).symm

/-- The returned offset stands for the first record with a greater key, or for no record
when there is none. -/
def BoundsAbove (header : List (Wrapped (Record K V))) (x : Shard lay std) (key : K) : Prop :=
  ∃ offset, getUpperBound lay header x.1 key = some offset ∧
    IsFirst (fun w => key < w.record.key) (x.1.records lay) (globalIndex lay offset)

/-- The upper bound of a key is right if and only if no page ends on the key with the next
one beginning on it, and the data pages are a power of the internal fanout in number when the
key is above all records. -/
theorem boundsAbove_iff (header : List (Wrapped (Record K V))) (x : Shard lay std)
    (hne : x.1.records lay ≠ []) (key : K) :
    BoundsAbove header x key ↔
      (∀ p v w, (x.1.records lay)[(p + 1) * lay.leafFanout - 1]? = some v →
        (x.1.records lay)[(p + 1) * lay.leafFanout]? = some w →
        v.record.key = key → w.record.key ≠ key) ∧
      ((∀ w ∈ x.1.records lay, w.record.key < key) →
        ∃ k, x.1.lastDataPage = lay.internalFanout ^ k) := by
  have hwf := Shard.wellFormed x
  set recs := x.1.records lay with hrecs
  by_cases habove : ∀ w ∈ recs, w.record.key < key
  · obtain ⟨offset, hrun, hin, hout⟩ := getUpperBound_of_above hwf hne header habove
    have hlen : 0 < recs.length := List.length_pos_iff.mpr hne
    have hpages : 1 ≤ x.1.lastDataPage := by
      rw [hwf.lastDataPage]
      exact (lt_pageCount_iff lay.leafFanout_pos).mpr (by omega)
    have hfirst : recs.findIdx? (fun w => key < w.record.key) = none := by
      rw [List.findIdx?_eq_none_iff]
      exact fun w hw => decide_eq_false (not_lt_of_gt (habove w hw))
    have hno : ∀ p v w, recs[(p + 1) * lay.leafFanout - 1]? = some v →
        recs[(p + 1) * lay.leafFanout]? = some w → v.record.key = key → w.record.key ≠ key :=
      fun p v w hv _ hkv => absurd hkv (habove v (List.mem_of_getElem? hv)).ne
    rw [BoundsAbove, hrun, ← Built.full x.2 hpages]
    simp only [Option.some.injEq, exists_eq_left', IsFirst, hfirst, ← hrecs]
    constructor
    · intro hright
      refine ⟨hno, fun _ => ?_⟩
      by_contra hnot
      have := hout hnot
      omega
    · exact fun h => hin (h.2 habove)
  · have hreach : ∃ w ∈ recs, key ≤ w.record.key := by
      simpa only [not_forall, not_lt, exists_prop] using habove
    obtain ⟨offset, page, off, hrun, hindex, hf⟩ := getUpperBound_of_reached hwf header hreach
    have hbefore : ∀ i w, i < page * lay.leafFanout + off → recs[i]? = some w →
        decide (key < w.record.key) = false :=
      fun i w hi hw => decide_eq_false (not_lt_of_ge (hf.below i w hi hw))
    rw [BoundsAbove, hrun]
    simp only [Option.some.injEq, exists_eq_left', hindex, ← hrecs]
    rw [isFirst_iff hbefore]
    simp only [decide_eq_true_eq]
    rw [hf.next_iff hwf.sorted]
    exact ⟨fun h => ⟨h, fun h' => absurd h' habove⟩, And.left⟩

theorem boundsAbove_iff_sample :
    BoundsAbove [] (sampleTree [(2, 6, false), (1, 5, false), (1, 7, false)]) 1 := by
  refine (boundsAbove_iff [] _ (by decide +kernel) 1).mpr ⟨fun p v w hv hw => ?_, fun h => ?_⟩
  · have hlen : ((sampleTree [(2, 6, false), (1, 5, false), (1, 7, false)]).1.records
        NodeLayout.words).length = 3 := by decide +kernel
    have hin := (List.getElem?_eq_some_iff.mp hw).1
    have hfan : NodeLayout.words.leafFanout = 170 := by decide
    rw [hlen, hfan] at hin
    omega
  · exact absurd h (by decide +kernel)

theorem not_boundsAbove_of_lt {header : List (Wrapped (Record K V))} {x : Shard lay std} {key : K}
    {offset : Nat} (hrun : getUpperBound lay header x.1 key = some offset)
    (hall : ∀ w ∈ x.1.records lay, ¬ key < w.record.key)
    (hlt : globalIndex lay offset < (x.1.records lay).length) : ¬ BoundsAbove header x key := by
  rintro ⟨offset', hoffset', hfirst⟩
  obtain rfl := Option.some.inj (hrun.symm.trans hoffset')
  rw [IsFirst, List.findIdx?_eq_none_iff.mpr fun w hw => decide_eq_false (hall w hw)] at hfirst
  exact absurd hfirst (not_le_of_gt hlt)

/-- Of 171 records with one key the last is on a second page. The search ends on it, as if
its key were greater. -/
theorem not_boundsAbove :
    let x := sampleTree ((List.range 171).map fun i => (1, i, false))
    getUpperBound NodeLayout.words [] x.1 1 = some (1 * 4096 + 170 * 24) ∧
      globalIndex NodeLayout.words (1 * 4096 + 170 * 24) = 170 ∧ ¬ BoundsAbove [] x 1 := by
  intro x
  obtain ⟨hrun, hall, hlen⟩ : getUpperBound NodeLayout.words [] x.1 1 =
      some (1 * 4096 + 170 * 24) ∧ (∀ w ∈ x.1.records NodeLayout.words, ¬ 1 < w.record.key) ∧
      (x.1.records NodeLayout.words).length = 171 := by decide +kernel
  have hindex : globalIndex NodeLayout.words (1 * 4096 + 170 * 24) = 170 := by decide
  refine ⟨hrun, hindex, not_boundsAbove_of_lt hrun hall ?_⟩
  rw [hlen, hindex]
  norm_num

end Shards

end ISAMTree

end De

import DynamicExtension.PageFile
set_option autoImplicit false

namespace De

variable {K V : Type}

section Build
variable (lay : NodeLayout)

/-- The key an index page stores for the child on page `p`: that of the last
record of a data page, or the last key of an index page. -/
def childKey (lastDataPage reccnt : Nat) (fd : File K V) (p : Nat) : Option K :=
  if p ≤ lastDataPage then
    match fd p with
    | some (.data recs) =>
      let recordsOnPage := min lay.leafFanout (reccnt - (p - 1) * lay.leafFanout)
      recs[recordsOnPage - 1]?.map fun w => w.record.key
    | _ => none
  else
    match fd p with
    | some (.node entries) => entries.getLast?.map Prod.fst
    | _ => none

/-- The entries of one index page: at most `n` children from page `child` on. -/
def buildNode (lastDataPage reccnt lastPage : Nat) (fd : File K V) :
    Nat → Nat → Option (List (K × Nat))
  | 0, _ => some []
  | n+1, child =>
    if lastPage < child then some []
    else match childKey lay lastDataPage reccnt fd child with
      | none => none
      | some k => (buildNode lastDataPage reccnt lastPage fd n (child + 1)).map ((k, child) :: ·)

/-- The loop `while (child_page <= last_page)` of one index level. -/
def buildLevel (lastDataPage reccnt lastPage : Nat) :
    Nat → File K V → Nat → Nat → Option (File K V × Nat)
  | 0, _, _, _ => none
  | fuel+1, fd, child, write =>
    if child ≤ lastPage then
      match buildNode lay lastDataPage reccnt lastPage fd lay.internalFanout child with
      | none => none
      | some entries => buildLevel lastDataPage reccnt lastPage fuel
          (fd.pwrite write (.node entries)) (child + entries.length) (write + 1)
    else some (fd, write)

/-- `build_internal_levels`, returning the file and `m_root_page`. -/
def buildInternalLevels (lastDataPage reccnt : Nat) :
    Nat → File K V → Nat → Nat → Option (File K V × Nat)
  | 0, _, _, _ => none
  | fuel+1, fd, firstPage, lastPage =>
    if firstPage = lastPage then some (fd, firstPage)
    else match buildLevel lay lastDataPage reccnt lastPage (lastPage + 2 - firstPage) fd
        firstPage (lastPage + 1) with
      | none => none
      | some (fd, write) =>
        buildInternalLevels lastDataPage reccnt fuel fd (lastPage + 1) (write - 1)

end Build

section Tree
variable (lay : NodeLayout) (recs : List (Wrapped (Record K V)))

/-- `k` is the key of the last record stored before data page `hi`. -/
def LastKey (hi : Nat) (k : K) : Prop :=
  ∃ w, recs[min ((hi - 1) * lay.leafFanout) recs.length - 1]? = some w ∧ w.record.key = k

/-- The children of an index page split the data pages `[lo, hi)` between them,
each under the last key of its part. -/
def Chain (P : Nat → Nat → Nat → Prop) (key : Nat → K → Prop) :
    List (K × Nat) → Nat → Nat → Prop
  | [], lo, hi => lo = hi
  | (k, c) :: es, lo, hi => ∃ mid, P c lo mid ∧ lo < mid ∧ key mid k ∧ Chain P key es mid hi

/-- The page `p`, `d` levels above the data pages, is the index of the data
pages `[lo, hi)`. -/
def Covers (lastDataPage : Nat) (fd : File K V) : Nat → Nat → Nat → Nat → Prop
  | 0, p, lo, hi => lo = p ∧ hi = p + 1 ∧ 1 ≤ p ∧ p ≤ lastDataPage
  | d+1, p, lo, hi => lastDataPage < p ∧ ∃ es, fd p = some (.node es) ∧ es ≠ [] ∧
      es.length ≤ lay.internalFanout ∧ (∀ e ∈ es, e.2 < p) ∧
      Chain (Covers lastDataPage fd d) (LastKey lay recs) es lo hi

/-- The `n` pages from `first` on together index the data pages `[lo, hi)`. -/
def Tiles (lastDataPage : Nat) (fd : File K V) (d : Nat) : Nat → Nat → Nat → Nat → Prop
  | _, 0, lo, hi => lo = hi
  | first, n+1, lo, hi => ∃ mid, Covers lay recs lastDataPage fd d first lo mid ∧ lo < mid ∧
      Tiles lastDataPage fd d (first + 1) n mid hi

end Tree

section Lemmas
variable {lay : NodeLayout} {recs : List (Wrapped (Record K V))} {lastDataPage : Nat}

theorem Chain.imp {P Q : Nat → Nat → Nat → Prop} {key : Nat → K → Prop} {es : List (K × Nat)}
    (h : ∀ e ∈ es, ∀ lo hi, P e.2 lo hi → Q e.2 lo hi) {lo hi : Nat}
    (hc : Chain P key es lo hi) : Chain Q key es lo hi := by
  induction es generalizing lo with
  | nil => exact hc
  | cons e es ih =>
    obtain ⟨mid, hp, hlt, hk, hc⟩ := hc
    exact ⟨mid, h e (by simp) lo mid hp, hlt, hk, ih (fun e he => h e (by simp [he])) hc⟩

theorem Chain.le {P : Nat → Nat → Nat → Prop} {key : Nat → K → Prop} {es : List (K × Nat)}
    {lo hi : Nat} (hc : Chain P key es lo hi) : lo ≤ hi := by
  induction es generalizing lo with
  | nil => exact le_of_eq hc
  | cons e es ih =>
    obtain ⟨mid, -, hlt, -, hc⟩ := hc
    exact le_trans (le_of_lt hlt) (ih hc)

theorem Chain.lastKey {P : Nat → Nat → Nat → Prop} {key : Nat → K → Prop}
    {es : List (K × Nat)} {lo hi : Nat} (hc : Chain P key es lo hi) {e : K × Nat}
    (he : es.getLast? = some e) : key hi e.1 := by
  induction es generalizing lo with
  | nil => simp at he
  | cons e' es ih =>
    obtain ⟨mid, -, -, hk, hc⟩ := hc
    cases es with
    | nil =>
      obtain rfl : mid = hi := hc
      obtain rfl : e' = e := by simpa using he
      exact hk
    | cons e'' es => exact ih hc (by simpa using he)

theorem Covers.one_le {fd : File K V} {d p lo hi : Nat}
    (h : Covers lay recs lastDataPage fd d p lo hi) : 1 ≤ p := by
  cases d with
  | zero => exact h.2.2.1
  | succ d => exact Nat.lt_of_le_of_lt (Nat.zero_le _) h.1

theorem Covers.congr {fd fd' : File K V} {d p lo hi : Nat}
    (h : Covers lay recs lastDataPage fd d p lo hi)
    (hfd : ∀ q, 1 ≤ q → q ≤ p → fd' q = fd q) : Covers lay recs lastDataPage fd' d p lo hi := by
  induction d generalizing p lo hi with
  | zero => exact h
  | succ d ih =>
    have hp := h.one_le
    obtain ⟨hlast, es, hes, hne, hlen, hlt, hc⟩ := h
    refine ⟨hlast, es, by rw [hfd p hp (Nat.le_refl p), hes], hne, hlen, hlt, hc.imp ?_⟩
    intro e he lo hi hcov
    exact ih hcov fun q h1 hq => hfd q h1 (by have := hlt e he; omega)

theorem Tiles.congr {fd fd' : File K V} {d first n lo hi : Nat}
    (h : Tiles lay recs lastDataPage fd d first n lo hi)
    (hfd : ∀ q, 1 ≤ q → q < first + n → fd' q = fd q) :
    Tiles lay recs lastDataPage fd' d first n lo hi := by
  induction n generalizing first lo with
  | zero => exact h
  | succ n ih =>
    obtain ⟨mid, hcov, hlt, ht⟩ := h
    exact ⟨mid, hcov.congr fun q h1 hq => hfd q h1 (by omega), hlt,
      ih ht fun q h1 hq => hfd q h1 (by omega)⟩

theorem childKey_of_covers {fd : File K V} (hf : Holds lay.leafFanout 1 fd recs)
    (hlast : lastDataPage = pageCount lay.leafFanout recs.length) {d p lo hi : Nat}
    (h : Covers lay recs lastDataPage fd d p lo hi) :
    ∃ k, childKey lay lastDataPage recs.length fd p = some k ∧ LastKey lay recs hi k := by
  have hpos := lay.leafFanout_pos
  cases d with
  | zero =>
    obtain ⟨-, rfl, h1, hle⟩ := h
    have hp : (p - 1) * lay.leafFanout < recs.length := by
      rw [← lt_pageCount_iff hpos]
      omega
    have hpage := hf (p - 1) hp
    rw [Nat.sub_add_cancel h1] at hpage
    set n := min lay.leafFanout (recs.length - (p - 1) * lay.leafFanout) with hn
    have hn1 : 1 ≤ n ∧ n ≤ lay.leafFanout := by omega
    have hmin : min ((p + 1 - 1) * lay.leafFanout) recs.length - 1 =
        (p - 1) * lay.leafFanout + (n - 1) := by
      obtain ⟨c, rfl⟩ := Nat.exists_eq_add_of_le' h1
      simp only [Nat.add_sub_cancel] at hn hp ⊢
      rw [Nat.succ_mul]
      omega
    have hlt : n - 1 < lay.leafFanout := by omega
    have hw := getElem?_pageOf_of_lt recs (p - 1) (n - 1) hlt
    have hin : (p - 1) * lay.leafFanout + (n - 1) < recs.length := by omega
    rw [List.getElem?_eq_getElem hin] at hw
    refine ⟨(recs[(p - 1) * lay.leafFanout + (n - 1)]).record.key, ?_, _, ?_, rfl⟩
    · simp only [childKey, if_pos hle, hpage, ← hn, hw, Option.map_some]
    · rw [hmin, List.getElem?_eq_getElem hin]
  | succ d =>
    obtain ⟨hlt, es, hes, hne, -, -, hc⟩ := h
    obtain ⟨e, he⟩ := Option.isSome_iff_exists.mp (List.getLast?_isSome.mpr hne)
    refine ⟨e.1, ?_, hc.lastKey he⟩
    simp only [childKey, if_neg (Nat.not_le_of_lt hlt), hes, he, Option.map_some]

theorem buildNode_spec {fd : File K V} (hf : Holds lay.leafFanout 1 fd recs)
    (hlast : lastDataPage = pageCount lay.leafFanout recs.length) {d : Nat} (n child m : Nat)
    {lo hi lastPage : Nat} (hm : lastPage + 1 = child + m)
    (ht : Tiles lay recs lastDataPage fd d child m lo hi) :
    ∃ es mid, buildNode lay lastDataPage recs.length lastPage fd n child = some es ∧
      es.length = min n m ∧ (∀ e ∈ es, e.2 ≤ lastPage) ∧
      Chain (Covers lay recs lastDataPage fd d) (LastKey lay recs) es lo mid ∧
      Tiles lay recs lastDataPage fd d (child + es.length) (m - es.length) mid hi := by
  induction n generalizing child m lo with
  | zero => exact ⟨[], lo, rfl, by simp, by simp, rfl, by simpa using ht⟩
  | succ n ih =>
    cases m with
    | zero =>
      refine ⟨[], lo, ?_, by simp, by simp, rfl, by simpa using ht⟩
      rw [buildNode, if_pos (by omega)]
    | succ m =>
      obtain ⟨mid, hcov, hlt, ht⟩ := ht
      obtain ⟨k, hk, hkey⟩ := childKey_of_covers hf hlast hcov
      obtain ⟨es, mid', hes, hlen, hle, hc, ht'⟩ := ih (child + 1) m (by omega) ht
      refine ⟨(k, child) :: es, mid', ?_, ?_, ?_, ⟨mid, hcov, hlt, hkey, hc⟩, ?_⟩
      · rw [buildNode, if_neg (by omega), hk, hes]
        rfl
      · simp [hlen]
      · intro e he
        rcases List.mem_cons.mp he with rfl | he
        · simp only
          omega
        · exact hle e he
      · have h₁ : child + ((k, child) :: es).length = child + 1 + es.length := by
          simp only [List.length_cons]
          omega
        have h₂ : m + 1 - ((k, child) :: es).length = m - es.length := by
          simp only [List.length_cons]
          omega
        rw [h₁, h₂]
        exact ht'

theorem holds_pwrite (hlast : lastDataPage = pageCount lay.leafFanout recs.length) {fd : File K V}
    (hf : Holds lay.leafFanout 1 fd recs) {write : Nat} (hw : lastDataPage < write)
    (page : Page K V) : Holds lay.leafFanout 1 (fd.pwrite write page) recs := by
  intro p hp
  have hin := hp
  rw [← lt_pageCount_iff lay.leafFanout_pos] at hin
  rw [File.pwrite_of_ne _ _ (by omega)]
  exact hf p hp

/-- One index level: `m` pages become at most half as many index pages, which
cover the same data pages. -/
theorem buildLevel_spec (hlast : lastDataPage = pageCount lay.leafFanout recs.length) {d : Nat}
    (fuel m : Nat) (fd : File K V) (hf : Holds lay.leafFanout 1 fd recs)
    (child write lastPage lo hi : Nat) (hfuel : m < fuel) (hm : lastPage + 1 = child + m)
    (hw : lastPage < write) (hld : lastDataPage ≤ lastPage)
    (ht : Tiles lay recs lastDataPage fd d child m lo hi) :
    ∃ fd' n, buildLevel lay lastDataPage recs.length lastPage fuel fd child write =
        some (fd', write + n) ∧ Holds lay.leafFanout 1 fd' recs ∧
      (∀ q, q < write → fd' q = fd q) ∧ 2 * n ≤ m + 1 ∧ (0 < m → 0 < n) ∧
      Tiles lay recs lastDataPage fd' (d + 1) write n lo hi := by
  induction fuel generalizing m fd child write lo with
  | zero => omega
  | succ fuel ih =>
    unfold buildLevel
    by_cases hc : child ≤ lastPage
    · rw [if_pos hc]
      obtain ⟨es, mid, hes, hlen, hle, hchain, ht'⟩ :=
        buildNode_spec hf hlast lay.internalFanout child m hm ht
      have htwo := lay.two_le_internalFanout
      have hne : es ≠ [] := by
        intro h
        simp only [h, List.length_nil] at hlen
        omega
      have hlen_pos : 0 < es.length := List.length_pos_iff.mpr hne
      set fd₁ := fd.pwrite write (.node es) with hfd₁
      have hsame : ∀ q, q < write → fd₁ q = fd q := fun q hq =>
        File.pwrite_of_ne _ _ (Nat.ne_of_lt hq)
      have hf₁ : Holds lay.leafFanout 1 fd₁ recs := holds_pwrite hlast hf (by omega) _
      have ht₁ : Tiles lay recs lastDataPage fd₁ d (child + es.length) (m - es.length) mid hi :=
        ht'.congr fun q _ hq => hsame q (by omega)
      obtain ⟨fd', n, hbuild, hf', hkeep, hhalf, -, htiles⟩ :=
        ih (m - es.length) fd₁ hf₁ (child + es.length) (write + 1) mid (by omega) (by omega)
          (by omega) ht₁
      have hpage : fd' write = some (.node es) := by
        rw [hkeep write (Nat.lt_succ_self write), hfd₁, File.pwrite_self]
      refine ⟨fd', n + 1, ?_, hf', fun q hq => ?_, by omega, fun _ => Nat.succ_pos n, mid, ?_, ?_,
        htiles⟩
      · rw [hes]
        simp only [← hfd₁, hbuild]
        rw [Nat.add_assoc, Nat.add_comm 1 n]
      · rw [hkeep q (by omega), hsame q hq]
      · refine ⟨by omega, es, hpage, hne, by omega, fun e he => ?_, hchain.imp ?_⟩
        · have := hle e he
          omega
        · intro e he lo hi hcov
          refine hcov.congr fun q _ hq => ?_
          have := hle e he
          rw [hkeep q (by omega), hsame q (by omega)]
      · cases es with
        | nil => exact absurd rfl hne
        | cons e es =>
          obtain ⟨mid', -, hlt, -, hrest⟩ := hchain
          exact Nat.lt_of_lt_of_le hlt hrest.le
    · have hm0 : m = 0 := by omega
      subst hm0
      rw [if_neg hc]
      exact ⟨fd, 0, rfl, hf, fun _ _ => rfl, by omega, fun h => absurd h (Nat.lt_irrefl 0), ht⟩

/-- The index levels end in one page that covers all data pages. -/
theorem buildInternalLevels_spec (hlast : lastDataPage = pageCount lay.leafFanout recs.length)
    (fuel d n : Nat) (fd : File K V) (hf : Holds lay.leafFanout 1 fd recs)
    (first last lo hi : Nat) (hn : 0 < n) (hfuel : n ≤ fuel) (hl : last + 1 = first + n)
    (hd : d < first) (hld : lastDataPage ≤ last)
    (ht : Tiles lay recs lastDataPage fd d first n lo hi) :
    ∃ fd' root d', buildInternalLevels lay lastDataPage recs.length fuel fd first last =
        some (fd', root) ∧ Holds lay.leafFanout 1 fd' recs ∧ (∀ q, q ≤ last → fd' q = fd q) ∧
      Covers lay recs lastDataPage fd' d' root lo hi ∧ d' < root := by
  induction fuel generalizing d n fd first last with
  | zero => omega
  | succ fuel ih =>
    unfold buildInternalLevels
    by_cases hfl : first = last
    · rw [if_pos hfl]
      obtain rfl : n = 1 := by omega
      obtain ⟨mid, hcov, -, hmid⟩ := ht
      obtain rfl : mid = hi := hmid
      exact ⟨fd, first, d, rfl, hf, fun _ _ => rfl, hcov, hd⟩
    · rw [if_neg hfl]
      obtain ⟨fd₁, m, hbuild, hf₁, hkeep₁, hhalf, hpos, ht₁⟩ :=
        buildLevel_spec hlast (last + 2 - first) n fd hf first (last + 1) last lo hi (by omega)
          hl (Nat.lt_succ_self last) hld ht
      have hm := hpos hn
      obtain ⟨fd', root, d', hrec, hf', hkeep, hcov, hd'⟩ :=
        ih (d + 1) m fd₁ hf₁ (last + 1) (last + 1 + m - 1) hm (by omega) (by omega) (by omega)
          (by omega) ht₁
      refine ⟨fd', root, d', ?_, hf', fun q hq => ?_, hcov, hd'⟩
      · simp only [hbuild, hrec]
      · rw [hkeep q (by omega), hkeep₁ q (by omega)]

theorem tiles_data (fd : File K V) (first n : Nat) (h1 : 1 ≤ first)
    (hl : lastDataPage + 1 = first + n) :
    Tiles lay recs lastDataPage fd 0 first n first (lastDataPage + 1) := by
  induction n generalizing first with
  | zero => exact hl.symm
  | succ n ih =>
    exact ⟨first + 1, ⟨rfl, rfl, h1, by omega⟩, Nat.lt_succ_self first,
      ih (first + 1) (by omega) (by omega)⟩

end Lemmas

section Descend
variable [LinearOrder K]

/-- The child that the descent for `key` takes: the first whose key is not
smaller, or the last one. -/
def pickChild (key : K) : List (K × Nat) → Nat
  | [] => 0
  | [(_, c)] => c
  | (k, c) :: es => if key ≤ k then c else pickChild key es

/-- The loop `while (!is_leaf(now))`. Any other page than an index page has no
children to read. -/
def descend (lastDataPage : Nat) (fd : File K V) (key : K) : Nat → Nat → Option Nat
  | 0, _ => none
  | fuel+1, now =>
    if 1 ≤ now ∧ now ≤ lastDataPage then some now
    else match fd now with
      | some (.node entries) => descend lastDataPage fd key fuel (pickChild key entries)
      | _ => none

/-- Every record before data page `p` has a key below `key`, and so has no
record at or past the end of it unless it is the last page before `hi`. -/
structure Lands (lay : NodeLayout) (recs : List (Wrapped (Record K V))) (key : K)
    (lo hi p : Nat) : Prop where
  ge : lo ≤ p
  lt : p < hi
  below : ∀ k, lo < p → LastKey lay recs p k → k < key
  stop : p + 1 = hi ∨ ∃ k, LastKey lay recs (p + 1) k ∧ key ≤ k

variable {lay : NodeLayout} {recs : List (Wrapped (Record K V))} {lastDataPage : Nat}

omit [LinearOrder K] in
theorem LastKey.unique {hi : Nat} {k k' : K} (h : LastKey lay recs hi k)
    (h' : LastKey lay recs hi k') : k = k' := by
  obtain ⟨w, hw, rfl⟩ := h
  obtain ⟨w', hw', rfl⟩ := h'
  rw [hw, Option.some.injEq] at hw'
  rw [hw']

/-- The child picked for `key` has only smaller keys before its part, and a key
that is not smaller at the end of it unless it is the last child. -/
theorem pickChild_spec {P : Nat → Nat → Nat → Prop} (key : K) {es : List (K × Nat)}
    (hne : es ≠ []) {lo hi : Nat} (hc : Chain P (LastKey lay recs) es lo hi) :
    ∃ a b, P (pickChild key es) a b ∧ lo ≤ a ∧ a < b ∧ b ≤ hi ∧
      (∃ e ∈ es, e.2 = pickChild key es) ∧
      (∀ k, lo < a → LastKey lay recs a k → k < key) ∧
      (b = hi ∨ ∃ k, LastKey lay recs b k ∧ key ≤ k) := by
  induction es generalizing lo with
  | nil => exact absurd rfl hne
  | cons e es ih =>
    obtain ⟨k, c⟩ := e
    obtain ⟨mid, hp, hlt, hk, hc⟩ := hc
    have hfirst : (mid = hi ∨ ∃ k, LastKey lay recs mid k ∧ key ≤ k) →
        pickChild key ((k, c) :: es) = c →
        ∃ a b, P (pickChild key ((k, c) :: es)) a b ∧ lo ≤ a ∧ a < b ∧ b ≤ hi ∧
          (∃ e ∈ (k, c) :: es, e.2 = pickChild key ((k, c) :: es)) ∧
          (∀ k, lo < a → LastKey lay recs a k → k < key) ∧
          (b = hi ∨ ∃ k, LastKey lay recs b k ∧ key ≤ k) := by
      intro hstop hpick
      rw [hpick]
      exact ⟨lo, mid, hp, le_refl lo, hlt, hc.le, ⟨(k, c), by simp, rfl⟩,
        fun k h => absurd h (lt_irrefl lo), hstop⟩
    cases es with
    | nil => exact hfirst (Or.inl hc) rfl
    | cons e' es =>
      by_cases hle : key ≤ k
      · exact hfirst (Or.inr ⟨k, hk, hle⟩) (by simp [pickChild, hle])
      · have hpick : pickChild key ((k, c) :: e' :: es) = pickChild key (e' :: es) := by
          simp [pickChild, hle]
        obtain ⟨a, b, hab, hla, hlt', hbh, ⟨e, he, hec⟩, hbelow, hstop⟩ := ih (by simp) hc
        rw [hpick]
        refine ⟨a, b, hab, by omega, hlt', hbh, ⟨e, List.mem_cons_of_mem _ he, hec⟩,
          fun k' hla' hk' => ?_, hstop⟩
        by_cases hma : mid < a
        · exact hbelow k' hma hk'
        · obtain rfl : mid = a := by omega
          rw [hk'.unique hk]
          exact lt_of_not_ge hle

/-- The descent ends on the data page where the records not below `key` begin. -/
theorem descend_spec {fd : File K V} (key : K) (fuel d p lo hi : Nat)
    (h : Covers lay recs lastDataPage fd d p lo hi) (hfuel : d < fuel) :
    ∃ q, descend lastDataPage fd key fuel p = some q ∧ 1 ≤ q ∧ q ≤ lastDataPage ∧
      Lands lay recs key lo hi q := by
  induction d generalizing fuel p lo hi with
  | zero =>
    obtain ⟨fuel, rfl⟩ := Nat.exists_eq_succ_of_ne_zero (by omega : fuel ≠ 0)
    obtain ⟨rfl, rfl, h1, hle⟩ := h
    refine ⟨lo, ?_, h1, hle, le_refl lo, Nat.lt_succ_self lo, fun k h => absurd h (lt_irrefl lo),
      Or.inl rfl⟩
    rw [descend, if_pos ⟨h1, hle⟩]
  | succ d ih =>
    obtain ⟨fuel, rfl⟩ := Nat.exists_eq_succ_of_ne_zero (by omega : fuel ≠ 0)
    obtain ⟨hlast, es, hes, hne, -, -, hc⟩ := h
    obtain ⟨a, b, hcov, hla, hab, hbh, -, hbelow, hstop⟩ := pickChild_spec key hne hc
    obtain ⟨q, hq, h1, hle, hland⟩ := ih fuel _ a b hcov (by omega)
    refine ⟨q, ?_, h1, hle, le_trans hla hland.ge, lt_of_lt_of_le hland.lt hbh, ?_, ?_⟩
    · rw [descend, if_neg (by omega), hes]
      exact hq
    · intro k hlq hk
      rcases Nat.lt_or_ge a q with haq | hqa
      · exact hland.below k haq hk
      · obtain rfl : q = a := le_antisymm hqa hland.ge
        exact hbelow k hlq hk
    · rcases hland.stop with hqb | hqb
      · rw [hqb]
        exact hstop
      · exact Or.inr hqb

end Descend

end De

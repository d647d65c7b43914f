import DynamicExtension.WindowSearch
set_option autoImplicit false

namespace De
open Bisect

/-- What a `byte *` of a node points to: a record of `m_data`, or a node of `m_isam_nodes` -/
inductive ChildPtr where
  | data (idx : Nat)
  | node (idx : Nat)
  deriving DecidableEq, Repr

structure InternalNode (K : Type) where
  keys : Nat → K
  child : Nat → Option ChildPtr

/-- The in-memory `ISAMTree`. Its filter is always null and is not kept. -/
structure MemoryISAMTree (K V : Type) where
  data : List (Wrapped (Record K V))
  isamNodes : List (InternalNode K)
  root : ChildPtr
  internalNodeCnt : Nat

namespace MemoryISAMTree
variable {K V : Type}

section Build
variable [Zero K] (leafFanout internalFanout : Nat)

/-- A node as `sf_aligned_calloc` leaves it -/
def zeroNode : InternalNode K := ⟨fun _ => 0, fun _ => none⟩

/-- `n / f + (n % f != 0)` -/
def nodesFor (f n : Nat) : Nat := n / f + if n % f ≠ 0 then 1 else 0

/-- The loop that counts the nodes to allocate -/
def countNodes : Nat → Nat → Nat → Option Nat
  | 0, _, _ => none
  | fuel + 1, levelNodeCnt, nodeCnt =>
    let levelNodeCnt := nodesFor internalFanout levelNodeCnt
    if levelNodeCnt > 1 then countNodes fuel levelNodeCnt (nodeCnt + levelNodeCnt)
    else some (nodeCnt + levelNodeCnt)

/-- The loop over the slots of one node, which breaks where there is no entry; how many
slots it filled goes with the node. -/
def fillNode (entry : Nat → Option (K × ChildPtr)) :
    Nat → Nat → InternalNode K → InternalNode K × Nat
  | 0, i, node => (node, i)
  | left + 1, i, node =>
    match entry i with
    | none => (node, i)
    | some e => fillNode entry left (i + 1)
        ⟨Function.update node.keys i e.1, Function.update node.child i (some e.2)⟩

/-- Slot `i` of a lowest node: the key of its last record and its first record -/
def leafEntry (data : List (Wrapped (Record K V))) (leafBase i : Nat) : Option (K × ChildPtr) :=
  let recPtr := leafBase + leafFanout * i
  if recPtr ≥ data.length then none
  else
    let sepKey := min (recPtr + leafFanout - 1) (data.length - 1)
    some ((data[sepKey]?.map fun w => w.record.key).getD 0, .data recPtr)

/-- Slot `i` of a higher node: the key in the last slot of the child, filled or not -/
def nodeEntry (nodes : List (InternalNode K)) (levelStop now i : Nat) : Option (K × ChildPtr) :=
  let nodePtr := now + i
  if nodePtr ≥ levelStop then none
  else some ((nodes[nodePtr]?.map fun n => n.keys (internalFanout - 1)).getD 0, .node nodePtr)

def buildLeafLevel (data : List (Wrapped (Record K V))) :
    Nat → Nat → List (InternalNode K) → Option (List (InternalNode K))
  | 0, _, _ => none
  | fuel + 1, leafBase, nodes =>
    if leafBase < data.length then
      let (node, fanout) := fillNode (leafEntry leafFanout data leafBase) internalFanout 0 zeroNode
      buildLeafLevel data fuel (leafBase + fanout * leafFanout) (nodes ++ [node])
    else some nodes

/-- The slot at which the inner loop breaks counts as a child too. -/
def buildLevel (levelStop : Nat) :
    Nat → Nat → List (InternalNode K) → Option (List (InternalNode K))
  | 0, _, _ => none
  | fuel + 1, now, nodes =>
    if now < levelStop then
      let (node, filled) :=
        fillNode (nodeEntry internalFanout nodes levelStop now) internalFanout 0 zeroNode
      let childCnt := if filled < internalFanout then filled + 1 else filled
      buildLevel levelStop fuel (now + childCnt) (nodes ++ [node])
    else some nodes

def buildLevels : Nat → Nat → Nat → List (InternalNode K) → Option (List (InternalNode K) × Nat)
  | 0, _, _, _ => none
  | fuel + 1, levelStart, levelStop, nodes =>
    if levelStop - levelStart > 1 then do
      let nodes ← buildLevel internalFanout levelStop (levelStop + 1) levelStart nodes
      buildLevels fuel levelStop nodes.length nodes
    else do
      guard (levelStop - levelStart = 1)
      return (nodes, levelStart)

def buildInternalLevels (data : List (Wrapped (Record K V))) : Option (MemoryISAMTree K V) := do
  let nLeafNodes := nodesFor leafFanout data.length
  let nodeCnt ← countNodes internalFanout (nLeafNodes + 1) nLeafNodes 0
  let nodes ← buildLeafLevel leafFanout internalFanout data (data.length + 1) 0 []
  let (nodes, root) ← buildLevels internalFanout (nodes.length + 1) 0 nodes.length nodes
  return ⟨data, nodes, .node root, nodeCnt⟩

end Build

section Search
variable [LinearOrder K] (internalFanout : Nat)

def isLeaf (t : MemoryISAMTree K V) : ChildPtr → Bool
  | .data idx => idx < t.data.length
  | .node _ => false

/-- The slot loop of a descent, and the last child where it yields none -/
def nextChild (stops : K → Bool) (node : InternalNode K) : Option ChildPtr :=
  let found := (List.range (internalFanout - 1)).find? fun i =>
    node.child (i + 1) = none || stops (node.keys i)
  (found.bind node.child).or (node.child (internalFanout - 1))

/-- The way from a node to the record that its last child is. A pointer to a record
that is no leaf has no slots to read. -/
def descend (stops : K → Bool) (t : MemoryISAMTree K V) : Nat → ChildPtr → Option Nat
  | 0, _ => none
  | fuel + 1, now =>
    match now with
    | .data idx => if t.isLeaf (.data idx) then some idx else none
    | .node idx => do
      let next ← nextChild internalFanout stops (← t.isamNodes[idx]?)
      descend stops t fuel next

/-- The two bounds, which differ in the comparisons of the slot loop and of the scan -/
def bound (stops below : K → Bool) (t : MemoryISAMTree K V) : Option Nat := do
  let pos ← descend internalFanout stops t (t.isamNodes.length + 1) t.root
  return advance (fun i => t.data[i]?.any fun w => below w.record.key) pos (t.data.length - pos)

def getLowerBound (t : MemoryISAMTree K V) (key : K) : Option Nat :=
  bound internalFanout (fun k => key ≤ k) (fun k => k < key) t

def getUpperBound (t : MemoryISAMTree K V) (key : K) : Option Nat :=
  bound internalFanout (fun k => key < k) (fun k => k ≤ key) t

end Search

section Nodes
variable [Zero K] {leafFanout internalFanout : Nat} {data : List (Wrapped (Record K V))}
  {nodes : List (InternalNode K)}

/-- The records that one slot of a node at height `d` stands for -/
def width (leafFanout internalFanout d : Nat) : Nat := leafFanout * internalFanout ^ d

omit [Zero K] in
/-- The node has a slot for each of its children: those that begin before the end of the
array are there, and the key of one that ends before it is that of its last record. -/
structure Slots (leafFanout internalFanout : Nat) (data : List (Wrapped (Record K V)))
    (P : ChildPtr → Nat → Prop) (node : InternalNode K) (d lo : Nat) : Prop where
  child : ∀ i < internalFanout, lo + i * width leafFanout internalFanout d < data.length →
    ∃ c, node.child i = some c ∧ P c (lo + i * width leafFanout internalFanout d)
  absent : ∀ i < internalFanout, data.length ≤ lo + i * width leafFanout internalFanout d →
    node.child i = none
  key : ∀ i < internalFanout, lo + (i + 1) * width leafFanout internalFanout d ≤ data.length →
    ∃ w, data[lo + (i + 1) * width leafFanout internalFanout d - 1]? = some w ∧
      node.keys i = w.record.key

omit [Zero K] in
/-- What is reached from the pointer is a tree of height `d` over the records from `lo` on. -/
def Covers (leafFanout internalFanout : Nat) (data : List (Wrapped (Record K V)))
    (nodes : List (InternalNode K)) : Nat → ChildPtr → Nat → Prop
  | 0, p, lo => p = .data lo
  | d + 1, p, lo => ∃ idx node, p = .node idx ∧ nodes[idx]? = some node ∧
      Slots leafFanout internalFanout data (Covers leafFanout internalFanout data nodes d) node d lo

omit [Zero K] in
theorem Slots.imp {P Q : ChildPtr → Nat → Prop} {node : InternalNode K} {d lo : Nat}
    (h : Slots leafFanout internalFanout data P node d lo) (himp : ∀ p lo, P p lo → Q p lo) :
    Slots leafFanout internalFanout data Q node d lo := by
  refine ⟨fun i hi hlt => ?_, h.absent, h.key⟩
  obtain ⟨c, hc, hP⟩ := h.child i hi hlt
  exact ⟨c, hc, himp c _ hP⟩

omit [Zero K] in
theorem Covers.append {d : Nat} {p : ChildPtr} {lo : Nat}
    (h : Covers leafFanout internalFanout data nodes d p lo) (more : List (InternalNode K)) :
    Covers leafFanout internalFanout data (nodes ++ more) d p lo := by
  induction d generalizing p lo with
  | zero => exact h
  | succ d ih =>
    obtain ⟨idx, node, hp, hnode, hslots⟩ := h
    obtain ⟨hlt, -⟩ := List.getElem?_eq_some_iff.mp hnode
    exact ⟨idx, node, hp, by rw [List.getElem?_append_left hlt, hnode],
      hslots.imp fun p lo hp => ih hp⟩

omit [Zero K] in
/-- The slot loop from `i` to `stop` turned `node` into `out`, with the last slot it
filled before `filled`. -/
structure Filled (entry : Nat → Option (K × ChildPtr)) (i stop : Nat) (node : InternalNode K)
    (out : InternalNode K × Nat) : Prop where
  child : ∀ s, i ≤ s → s < stop → out.1.child s = (entry s).map Prod.snd
  key : ∀ s, i ≤ s → s < stop → ∀ e, entry s = some e → out.1.keys s = e.1
  before : ∀ s < i, out.1.child s = node.child s ∧ out.1.keys s = node.keys s
  le : i ≤ out.2
  le_stop : out.2 ≤ stop
  broke : out.2 < stop → entry out.2 = none
  entries : ∀ s, i ≤ s → s < out.2 → entry s ≠ none

omit [Zero K] in
theorem filled_fillNode {entry : Nat → Option (K × ChildPtr)}
    (hmono : ∀ i, entry i = none → entry (i + 1) = none) (left i : Nat) (node : InternalNode K)
    (hempty : ∀ s, i ≤ s → node.child s = none) :
    Filled entry i (i + left) node (fillNode entry left i node) := by
  induction left generalizing i node with
  | zero =>
    exact ⟨fun s hs hlt => absurd hlt (by omega), fun s hs hlt => absurd hlt (by omega),
      fun s _ => ⟨rfl, rfl⟩, le_rfl, le_rfl, fun h => absurd h (lt_irrefl _),
      fun s hs hlt => absurd hlt (not_lt.mpr hs)⟩
  | succ left ih =>
    have hnone : ∀ s, entry i = none → i ≤ s → entry s = none := fun s h hle =>
      Nat.le_induction h (fun n _ hn => hmono n hn) s hle
    cases he : entry i with
    | none =>
      have hout : fillNode entry (left + 1) i node = (node, i) := by rw [fillNode, he]
      rw [hout]
      refine ⟨fun s hs _ => by rw [hempty s hs, hnone s he hs]; rfl, fun s hs _ e h => ?_,
        fun s _ => ⟨rfl, rfl⟩, le_rfl, Nat.le_add_right _ _, fun _ => he,
        fun s hs hlt => absurd hlt (not_lt.mpr hs)⟩
      rw [hnone s he hs] at h
      cases h
    | some e =>
      set node' : InternalNode K :=
        ⟨Function.update node.keys i e.1, Function.update node.child i (some e.2)⟩ with hnode'
      have hout : fillNode entry (left + 1) i node = fillNode entry left (i + 1) node' := by
        rw [fillNode, he]
      have hchild : ∀ s, s ≠ i → node'.child s = node.child s :=
        fun s hs => Function.update_of_ne hs _ _
      have hkeys : ∀ s, s ≠ i → node'.keys s = node.keys s :=
        fun s hs => Function.update_of_ne hs _ _
      have h := ih (i + 1) node' fun s hs => by
        rw [hchild s (by omega)]
        exact hempty s (by omega)
      obtain ⟨hat, hkey⟩ := h.before i (Nat.lt_succ_self i)
      have hat' : node'.child i = some e.2 := Function.update_self ..
      have hkey' : node'.keys i = e.1 := Function.update_self ..
      rw [hout]
      refine ⟨fun s hs hlt => ?_, fun s hs hlt e' h' => ?_, fun s hs => ?_,
        (Nat.le_succ i).trans h.le, h.le_stop.trans (by omega), fun hlt => h.broke (by omega),
        fun s hs hlt => ?_⟩
      · rcases Nat.eq_or_lt_of_le hs with rfl | hs
        · rw [hat, hat', he]
          rfl
        · exact h.child s hs (by omega)
      · rcases Nat.eq_or_lt_of_le hs with rfl | hs
        · rw [he, Option.some.injEq] at h'
          rw [hkey, hkey', h']
        · exact h.key s hs (by omega) e' h'
      · obtain ⟨h₁, h₂⟩ := h.before s (by omega)
        exact ⟨h₁.trans (hchild s (by omega)), h₂.trans (hkeys s (by omega))⟩
      · rcases Nat.eq_or_lt_of_le hs with rfl | hs
        · rw [he]
          exact Option.some_ne_none e
        · exact h.entries s hs hlt

theorem filled_zeroNode {entry : Nat → Option (K × ChildPtr)}
    (hmono : ∀ i, entry i = none → entry (i + 1) = none) (n : Nat) :
    Filled entry 0 n zeroNode (fillNode entry n 0 zeroNode) := by
  simpa using filled_fillNode hmono n 0 zeroNode fun _ _ => rfl

theorem slots_of_filled {entry : Nat → Option (K × ChildPtr)} {P : ChildPtr → Nat → Prop}
    {out : InternalNode K × Nat} {d lo : Nat} (h : Filled entry 0 internalFanout zeroNode out)
    (hsome : ∀ i < internalFanout, lo + i * width leafFanout internalFanout d < data.length →
      ∃ e, entry i = some e ∧ P e.2 (lo + i * width leafFanout internalFanout d) ∧
        (lo + (i + 1) * width leafFanout internalFanout d ≤ data.length →
          ∃ w, data[lo + (i + 1) * width leafFanout internalFanout d - 1]? = some w ∧
            e.1 = w.record.key))
    (hnone : ∀ i < internalFanout, data.length ≤ lo + i * width leafFanout internalFanout d →
      entry i = none) (hpos : 0 < width leafFanout internalFanout d) :
    Slots leafFanout internalFanout data P out.1 d lo := by
  refine ⟨fun i hi hlt => ?_, fun i hi hle => ?_, fun i hi hle => ?_⟩
  · obtain ⟨e, he, hP, -⟩ := hsome i hi hlt
    exact ⟨e.2, by rw [h.child i (Nat.zero_le i) hi, he]; rfl, hP⟩
  · rw [h.child i (Nat.zero_le i) hi, hnone i hi hle]
    rfl
  · have hstep : (i + 1) * width leafFanout internalFanout d =
        i * width leafFanout internalFanout d + width leafFanout internalFanout d := by ring
    obtain ⟨e, he, -, hkey⟩ := hsome i hi (by omega)
    obtain ⟨w, hw, hew⟩ := hkey hle
    exact ⟨w, hw, (h.key i (Nat.zero_le i) hi e he).trans hew⟩

omit [Zero K] in
/-- `k` nodes of height `d`, the first of them node `start`, over as many records as
they have room for -/
structure Building (leafFanout internalFanout : Nat) (data : List (Wrapped (Record K V)))
    (d start k : Nat) (nodes : List (InternalNode K)) : Prop where
  length : nodes.length = start + k
  needed : ∀ j < k, j * width leafFanout internalFanout d < data.length
  covers : ∀ j < k, Covers leafFanout internalFanout data nodes d (.node (start + j))
    (j * width leafFanout internalFanout d)

omit [Zero K] in
theorem Building.next {d start k : Nat} {node : InternalNode K}
    (h : Building leafFanout internalFanout data (d + 1) start k nodes)
    (hlt : k * width leafFanout internalFanout (d + 1) < data.length)
    (hs : Slots leafFanout internalFanout data (Covers leafFanout internalFanout data nodes d) node
      d (k * width leafFanout internalFanout (d + 1))) :
    Building leafFanout internalFanout data (d + 1) start (k + 1) (nodes ++ [node]) := by
  refine ⟨by simp [h.length, Nat.add_assoc], fun j hj => ?_, fun j hj => ?_⟩
  · rcases Nat.lt_succ_iff_lt_or_eq.mp hj with hj | rfl
    · exact h.needed j hj
    · exact hlt
  · rcases Nat.lt_succ_iff_lt_or_eq.mp hj with hj | rfl
    · exact (h.covers j hj).append [node]
    · refine ⟨start + j, node, rfl, ?_, hs.imp fun p lo hp => hp.append [node]⟩
      rw [← h.length, List.getElem?_concat_length]

omit [Zero K] in
/-- The nodes from `start` on are a whole level. -/
structure Level (leafFanout internalFanout : Nat) (data : List (Wrapped (Record K V)))
    (d start : Nat) (nodes : List (InternalNode K)) : Prop where
  le : start ≤ nodes.length
  count : ∀ j, start + j < nodes.length ↔ j * width leafFanout internalFanout d < data.length
  covers : ∀ j, start + j < nodes.length →
    Covers leafFanout internalFanout data nodes d (.node (start + j))
      (j * width leafFanout internalFanout d)

omit [Zero K] in
theorem Building.level {d start k : Nat}
    (h : Building leafFanout internalFanout data d start k nodes)
    (hdone : data.length ≤ k * width leafFanout internalFanout d) :
    Level leafFanout internalFanout data d start nodes := by
  have hlen := h.length
  refine ⟨by omega, fun j => ⟨fun hj => h.needed j (by omega), fun hj => ?_⟩,
    fun j hj => h.covers j (by omega)⟩
  by_contra hge
  have hle : k * width leafFanout internalFanout d ≤ j * width leafFanout internalFanout d :=
    Nat.mul_le_mul_right _ (by omega)
  omega

omit [Zero K] in
theorem width_succ (d : Nat) : width leafFanout internalFanout (d + 1) =
    internalFanout * width leafFanout internalFanout d := by
  rw [width, width, pow_succ]
  ring

omit [Zero K] in
theorem width_pos (hL : 0 < leafFanout) (hF : 0 < internalFanout) (d : Nat) :
    0 < width leafFanout internalFanout d := Nat.mul_pos hL (Nat.pow_pos hF)

section LeafLevel
variable {leafBase : Nat}

theorem leafEntry_eq_none {i : Nat} :
    leafEntry leafFanout data leafBase i = none ↔ data.length ≤ leafBase + i * leafFanout := by
  rw [leafEntry, Nat.mul_comm]
  split <;> simp_all

theorem leafEntry_eq_some {i : Nat} (hlt : leafBase + i * leafFanout < data.length) :
    ∃ key, leafEntry leafFanout data leafBase i = some (key, .data (leafBase + i * leafFanout)) ∧
      (0 < leafFanout → leafBase + (i + 1) * leafFanout ≤ data.length →
        ∃ w, data[leafBase + (i + 1) * leafFanout - 1]? = some w ∧ key = w.record.key) := by
  rw [leafEntry, Nat.mul_comm, if_neg (not_le.mpr hlt)]
  refine ⟨_, rfl, fun hL hle => ?_⟩
  have hstep : (i + 1) * leafFanout = i * leafFanout + leafFanout := by ring
  have hmin : min (leafBase + i * leafFanout + leafFanout - 1) (data.length - 1) =
      leafBase + (i + 1) * leafFanout - 1 := by omega
  have hget : data[leafBase + (i + 1) * leafFanout - 1]? =
      some data[leafBase + (i + 1) * leafFanout - 1] := List.getElem?_eq_getElem (by omega)
  exact ⟨_, hget, by rw [hmin, hget]; rfl⟩

theorem leafEntry_mono {i : Nat} (h : leafEntry leafFanout data leafBase i = none) :
    leafEntry leafFanout data leafBase (i + 1) = none := by
  rw [leafEntry_eq_none] at h ⊢
  exact h.trans (Nat.add_le_add_left (Nat.mul_le_mul_right _ (Nat.le_succ i)) _)

theorem leaf_slots (hL : 0 < leafFanout) {out : InternalNode K × Nat}
    (hfill : Filled (leafEntry leafFanout data leafBase) 0 internalFanout zeroNode out) :
    Slots leafFanout internalFanout data (Covers leafFanout internalFanout data nodes 0) out.1 0
      leafBase := by
  have hwidth : width leafFanout internalFanout 0 = leafFanout := by simp [width]
  refine slots_of_filled hfill (fun i hi hi' => ?_) (fun i hi hi' => ?_) (by rwa [hwidth])
  · rw [hwidth] at hi' ⊢
    obtain ⟨key, he, hkey⟩ := leafEntry_eq_some hi'
    exact ⟨_, he, rfl, hkey hL⟩
  · rwa [leafEntry_eq_none, ← hwidth]

theorem leaf_taken (hlt : leafBase < data.length) (hF : 0 < internalFanout)
    {out : InternalNode K × Nat}
    (hfill : Filled (leafEntry leafFanout data leafBase) 0 internalFanout zeroNode out) :
    0 < out.2 := by
  by_contra hzero
  have hbroke := hfill.broke (by omega)
  rw [leafEntry_eq_none] at hbroke
  simp only [Nat.eq_zero_of_not_pos hzero, Nat.zero_mul] at hbroke
  omega

theorem buildLeafLevel_spec (hL : 0 < leafFanout) (hF : 0 < internalFanout) (fuel leafBase : Nat)
    {k : Nat} (h : Building leafFanout internalFanout data 1 0 k nodes)
    (hbase : leafBase < data.length → leafBase = k * width leafFanout internalFanout 1)
    (hdone : data.length ≤ leafBase → data.length ≤ k * width leafFanout internalFanout 1)
    (hfuel : data.length - leafBase < fuel) :
    ∃ nodes', buildLeafLevel leafFanout internalFanout data fuel leafBase nodes = some nodes' ∧
      Level leafFanout internalFanout data 1 0 nodes' := by
  induction fuel generalizing leafBase k nodes with
  | zero => exact absurd hfuel (Nat.not_lt_zero _)
  | succ fuel ih =>
    rw [buildLeafLevel]
    by_cases hlt : leafBase < data.length
    swap
    · exact ⟨nodes, if_neg hlt, h.level (hdone (by omega))⟩
    have hk := hbase hlt
    have hfill := filled_zeroNode
      (fun i (hi : leafEntry leafFanout data leafBase i = none) => leafEntry_mono hi) internalFanout
    set out := fillNode (leafEntry leafFanout data leafBase) internalFanout 0 zeroNode with hout
    have hslots : Slots leafFanout internalFanout data
        (Covers leafFanout internalFanout data nodes 0) out.1 0 leafBase := leaf_slots hL hfill
    -- less than a node's worth of leaves is taken only at the end
    have hstep : 1 * leafFanout ≤ out.2 * leafFanout :=
      Nat.mul_le_mul_right _ (leaf_taken hlt hF hfill)
    have hmost : out.2 * leafFanout ≤ internalFanout * leafFanout :=
      Nat.mul_le_mul_right _ hfill.le_stop
    have hnext : (k + 1) * width leafFanout internalFanout 1 =
        leafBase + internalFanout * leafFanout := by
      rw [hk, width, pow_one]
      ring
    have hbuilding : Building leafFanout internalFanout data 1 0 (k + 1) (nodes ++ [out.1]) :=
      h.next (by rwa [← hk]) (by rwa [← hk])
    have hbase' : leafBase + out.2 * leafFanout < data.length →
        leafBase + out.2 * leafFanout = (k + 1) * width leafFanout internalFanout 1 := by
      intro hlt'
      rcases Nat.eq_or_lt_of_le hfill.le_stop with heq | hbroke
      · rw [hnext, heq]
      · have hend := leafEntry_eq_none.mp (hfill.broke hbroke)
        omega
    obtain ⟨nodes', hbuild, hlevel⟩ := ih (leafBase + out.2 * leafFanout) hbuilding hbase'
      (fun hle => by omega) (by omega)
    exact ⟨nodes', by rw [if_pos hlt]; exact hbuild, hlevel⟩

end LeafLevel

section UpperLevel
variable {levelStop now : Nat}

theorem nodeEntry_eq_none {i : Nat} :
    nodeEntry internalFanout nodes levelStop now i = none ↔ levelStop ≤ now + i := by
  rw [nodeEntry]
  split <;> simp_all

theorem nodeEntry_mono {i : Nat} (h : nodeEntry internalFanout nodes levelStop now i = none) :
    nodeEntry internalFanout nodes levelStop now (i + 1) = none := by
  rw [nodeEntry_eq_none] at h ⊢
  omega

/-- The entry for a child of height `d + 1` has the last key of a full child. -/
theorem nodeEntry_eq_some (hF : 0 < internalFanout) {i d lo : Nat} (hlt : now + i < levelStop)
    (h : Covers leafFanout internalFanout data nodes (d + 1) (.node (now + i)) lo) :
    ∃ key, nodeEntry internalFanout nodes levelStop now i = some (key, .node (now + i)) ∧
      (lo + width leafFanout internalFanout (d + 1) ≤ data.length →
        ∃ w, data[lo + width leafFanout internalFanout (d + 1) - 1]? = some w ∧
          key = w.record.key) := by
  obtain ⟨idx, node, hptr, hnode, hslots⟩ := h
  obtain rfl : now + i = idx := by simpa using hptr
  rw [nodeEntry, if_neg (not_le.mpr hlt), hnode]
  refine ⟨_, rfl, fun hle => ?_⟩
  have hlast : internalFanout - 1 + 1 = internalFanout := by omega
  have hkey := hslots.key (internalFanout - 1) (by omega)
  rw [hlast, ← width_succ] at hkey
  exact hkey hle

/-- A higher node, filled from the nodes of height `d + 1` from number `c` of their level on -/
theorem node_slots (hL : 0 < leafFanout) (hF : 0 < internalFanout) {d levelStart c : Nat}
    (hcount : ∀ j, levelStart + j < levelStop ↔
      j * width leafFanout internalFanout (d + 1) < data.length)
    (hcovers : ∀ j, levelStart + j < levelStop →
      Covers leafFanout internalFanout data nodes (d + 1) (.node (levelStart + j))
        (j * width leafFanout internalFanout (d + 1)))
    {out : InternalNode K × Nat}
    (hfill : Filled (nodeEntry internalFanout nodes levelStop (levelStart + c)) 0 internalFanout
      zeroNode out) :
    Slots leafFanout internalFanout data
      (Covers leafFanout internalFanout data nodes (d + 1)) out.1 (d + 1)
      (c * width leafFanout internalFanout (d + 1)) := by
  have hchild : ∀ i, c * width leafFanout internalFanout (d + 1) +
      i * width leafFanout internalFanout (d + 1) =
        (c + i) * width leafFanout internalFanout (d + 1) := fun i => (Nat.add_mul ..).symm
  refine slots_of_filled hfill (fun i hi hi' => ?_) (fun i hi hi' => ?_) (width_pos hL hF _)
  · rw [hchild, ← hcount, ← Nat.add_assoc] at hi'
    have hcov := hcovers (c + i) (by rwa [← Nat.add_assoc])
    rw [← Nat.add_assoc, ← hchild] at hcov
    obtain ⟨key, he, hkey⟩ := nodeEntry_eq_some hF hi' hcov
    refine ⟨_, he, hcov, fun hle => ?_⟩
    have hnext : c * width leafFanout internalFanout (d + 1) +
        (i + 1) * width leafFanout internalFanout (d + 1) =
        c * width leafFanout internalFanout (d + 1) +
          i * width leafFanout internalFanout (d + 1) +
          width leafFanout internalFanout (d + 1) := by ring
    rw [hnext] at hle ⊢
    exact hkey hle
  · rw [nodeEntry_eq_none, Nat.add_assoc]
    by_contra hless
    have := (hcount _).mp (not_le.mp hless)
    rw [← hchild] at this
    omega

theorem node_taken {c : Nat} {out : InternalNode K × Nat} (hF : 0 < internalFanout)
    (hfill : Filled (nodeEntry internalFanout nodes levelStop now) 0 internalFanout zeroNode out)
    (hc : c = if out.2 < internalFanout then out.2 + 1 else out.2) :
    0 < c ∧ (now + c < levelStop → c = internalFanout) ∧
      (levelStop ≤ now + c → levelStop ≤ now + internalFanout) := by
  have hle := hfill.le_stop
  by_cases hbroke : out.2 < internalFanout
  · rw [if_pos hbroke] at hc
    have hstop := nodeEntry_eq_none.mp (hfill.broke hbroke)
    omega
  · rw [if_neg hbroke] at hc
    omega

theorem buildLevel_spec (hL : 0 < leafFanout) (hF : 0 < internalFanout) {d levelStart : Nat}
    (hcount : ∀ j, levelStart + j < levelStop ↔
      j * width leafFanout internalFanout (d + 1) < data.length) (fuel now : Nat) {k : Nat}
    (hcovers : ∀ j, levelStart + j < levelStop →
      Covers leafFanout internalFanout data nodes (d + 1) (.node (levelStart + j))
        (j * width leafFanout internalFanout (d + 1)))
    (h : Building leafFanout internalFanout data (d + 2) levelStop k nodes)
    (hnow : now < levelStop → now = levelStart + k * internalFanout)
    (hdone : levelStop ≤ now → levelStop ≤ levelStart + k * internalFanout)
    (hfuel : levelStop - now < fuel) :
    ∃ nodes', buildLevel internalFanout levelStop fuel now nodes = some nodes' ∧
      Level leafFanout internalFanout data (d + 2) levelStop nodes' := by
  -- node `k` of the new level begins at child `k * internalFanout` of the one below
  have hwidth : ∀ j, j * width leafFanout internalFanout (d + 2) =
      (j * internalFanout) * width leafFanout internalFanout (d + 1) := by
    intro j
    rw [width_succ (d + 1)]
    ring
  induction fuel generalizing now k nodes with
  | zero => exact absurd hfuel (Nat.not_lt_zero _)
  | succ fuel ih =>
    rw [buildLevel]
    by_cases hlt : now < levelStop
    swap
    · refine ⟨nodes, if_neg hlt, h.level ?_⟩
      rw [hwidth]
      by_contra hmore
      have := (hcount _).mpr (not_le.mp hmore)
      have := hdone (by omega)
      omega
    have hk := hnow hlt
    have hfill := filled_zeroNode
      (fun i (hi : nodeEntry internalFanout nodes levelStop now i = none) => nodeEntry_mono hi)
      internalFanout
    set out := fillNode (nodeEntry internalFanout nodes levelStop now) internalFanout 0 zeroNode
    have hbuilding : Building leafFanout internalFanout data (d + 2) levelStop (k + 1)
        (nodes ++ [out.1]) := by
      refine h.next ?_ ?_
      · rw [hwidth]
        exact (hcount _).mp (by omega)
      · rw [hwidth]
        exact node_slots hL hF hcount hcovers (hk ▸ hfill)
    set childCnt := if out.2 < internalFanout then out.2 + 1 else out.2 with hcnt
    obtain ⟨hpos, hmore, hend⟩ := node_taken hF hfill hcnt
    have hadd : (k + 1) * internalFanout = k * internalFanout + internalFanout := by ring
    obtain ⟨nodes', hbuild, hlevel⟩ := ih (now + childCnt)
      (fun j hj => (hcovers j hj).append [out.1]) hbuilding
      (fun hlt' => by rw [hmore hlt']; omega) (fun hle => by have := hend hle; omega) (by omega)
    exact ⟨nodes', by rw [if_pos hlt]; exact hbuild, hlevel⟩

end UpperLevel

section Levels

theorem lt_nodesFor_iff {f n j : Nat} (hf : 0 < f) : j < nodesFor f n ↔ j * f < n := by
  have hdiv := Nat.div_add_mod n f
  have hmod := Nat.mod_lt n hf
  rw [Nat.mul_comm] at hdiv
  rw [nodesFor]
  by_cases hj : j < n / f
  · have : (j + 1) * f ≤ n / f * f := Nat.mul_le_mul_right f hj
    rw [Nat.add_mul, Nat.one_mul] at this
    exact iff_of_true (by omega) (by omega)
  · have hle : n / f * f ≤ j * f := Nat.mul_le_mul_right f (not_lt.mp hj)
    split
    · rename_i hrest
      rcases Nat.eq_or_lt_of_le (not_lt.mp hj) with heq | hgt
      · rw [← heq]
        exact iff_of_true (by omega) (by omega)
      · have : (n / f + 1) * f ≤ j * f := Nat.mul_le_mul_right f hgt
        rw [Nat.add_mul, Nat.one_mul] at this
        exact iff_of_false (by omega) (by omega)
    · exact iff_of_false (by omega) (by omega)

theorem eq_of_lt_iff {a b : Nat} (h : ∀ j, j < a ↔ j < b) : a = b :=
  le_antisymm (not_lt.mp fun hlt => absurd ((h b).mp hlt) (lt_irrefl b))
    (not_lt.mp fun hlt => absurd ((h a).mpr hlt) (lt_irrefl a))

omit [Zero K] in
theorem Level.nodesFor_eq (hF : 0 < internalFanout) {d start : Nat} {n : Nat}
    (h : Level leafFanout internalFanout data (d + 1) start nodes)
    (hn : ∀ j, j < n ↔ j * width leafFanout internalFanout d < data.length) :
    nodesFor internalFanout n = nodes.length - start := by
  have hle := h.le
  refine eq_of_lt_iff fun j => ?_
  rw [lt_nodesFor_iff hF, hn, Nat.mul_assoc, ← width_succ, ← h.count]
  omega

/-- The levels above the lowest end in one root, and as many nodes are written as are
counted for them. -/
theorem buildLevels_spec (hL : 0 < leafFanout) (hF : 2 ≤ internalFanout) (fuel : Nat)
    {d levelStart : Nat} (h : Level leafFanout internalFanout data (d + 1) levelStart nodes)
    (hd : d + 1 ≤ nodes.length) (hpos : levelStart < nodes.length)
    (hfuel : nodes.length - levelStart ≤ fuel) :
    ∃ nodes' root d', buildLevels internalFanout fuel levelStart nodes.length nodes =
        some (nodes', root) ∧ Covers leafFanout internalFanout data nodes' d' (.node root) 0 ∧
      d' ≤ nodes'.length ∧ nodes.length ≤ nodes'.length ∧
      ∀ acc fuel', nodes.length - levelStart ≤ fuel' →
        (if nodes.length - levelStart > 1 then
          countNodes internalFanout fuel' (nodes.length - levelStart) acc else some acc) =
          some (acc + (nodes'.length - nodes.length)) := by
  induction fuel generalizing d levelStart nodes with
  | zero => omega
  | succ fuel ih =>
    rw [buildLevels]
    by_cases hmore : nodes.length - levelStart > 1
    swap
    · have hone : nodes.length - levelStart = 1 := by omega
      have hroot := h.covers 0 (by omega)
      rw [Nat.zero_mul] at hroot
      exact ⟨nodes, levelStart, d + 1, by simp [hone, guard], hroot, hd, le_rfl,
        fun acc fuel' _ => by rw [if_neg hmore]; simp⟩
    have hstart : Building leafFanout internalFanout data (d + 2) nodes.length 0 nodes :=
      ⟨rfl, fun j hj => absurd hj (Nat.not_lt_zero j), fun j hj => absurd hj (Nat.not_lt_zero j)⟩
    obtain ⟨nodes₁, hbuild, hlevel⟩ := buildLevel_spec hL (by omega) h.count (nodes.length + 1)
      levelStart h.covers hstart (fun _ => by simp) (fun hle => absurd hle (by omega)) (by omega)
    -- the new level has fewer nodes than the one below it, and at least one
    have hnodes : nodesFor internalFanout (nodes.length - levelStart) =
        nodes₁.length - nodes.length :=
      hlevel.nodesFor_eq (by omega) fun j => by
        rw [← h.count]
        omega
    have hless : nodes₁.length - nodes.length < nodes.length - levelStart := by
      rw [← hnodes]
      by_contra hge
      have := (lt_nodesFor_iff (by omega)).mp (show nodes.length - levelStart - 1 <
        nodesFor internalFanout (nodes.length - levelStart) by omega)
      have : (nodes.length - levelStart - 1) * 2 ≤
        (nodes.length - levelStart - 1) * internalFanout := Nat.mul_le_mul_left _ hF
      omega
    have hsome : nodes.length < nodes₁.length := by
      have : 0 < nodesFor internalFanout (nodes.length - levelStart) :=
        (lt_nodesFor_iff (by omega)).mpr (by omega)
      omega
    obtain ⟨nodes', root, d', hrest, hcov, hd', hle, hcnt⟩ :=
      ih hlevel (by omega) hsome (by omega)
    refine ⟨nodes', root, d', ?_, hcov, hd', by omega, fun acc fuel' hfuel' => ?_⟩
    · rw [if_pos hmore, hbuild]
      exact hrest
    · obtain ⟨fuel'', rfl⟩ := Nat.exists_eq_add_of_lt (show 0 < fuel' by omega)
      rw [if_pos hmore, Nat.zero_add, countNodes, hnodes, hcnt _ fuel'' (by omega)]
      congr 1
      omega

/-- What the construction leaves: a tree over the whole array, in as many nodes as were
allocated. -/
structure Indexed (leafFanout internalFanout : Nat) (data : List (Wrapped (Record K V)))
    (t : MemoryISAMTree K V) : Prop where
  data_eq : t.data = data
  covers : ∃ d ≤ t.isamNodes.length,
    Covers leafFanout internalFanout data t.isamNodes d t.root 0
  allocated : t.isamNodes.length = t.internalNodeCnt

theorem buildInternalLevels_spec (hL : 0 < leafFanout) (hF : 2 ≤ internalFanout)
    (hne : data ≠ []) :
    ∃ t, buildInternalLevels leafFanout internalFanout data = some t ∧
      Indexed leafFanout internalFanout data t := by
  have hlen : 0 < data.length := List.length_pos_iff.mpr hne
  have hstart : Building leafFanout internalFanout data 1 0 0 [] :=
    ⟨rfl, fun j hj => absurd hj (Nat.not_lt_zero j), fun j hj => absurd hj (Nat.not_lt_zero j)⟩
  obtain ⟨nodes, hleaf, hlevel⟩ := buildLeafLevel_spec hL (Nat.zero_lt_of_lt hF) (data.length + 1) 0
    hstart (fun _ => by simp) (fun hle => by omega) (by omega)
  have hleaves : ∀ j, j < nodesFor leafFanout data.length ↔
      j * width leafFanout internalFanout 0 < data.length := by
    intro j
    rw [lt_nodesFor_iff hL, width, pow_zero, Nat.mul_one]
  have hnodes : nodesFor internalFanout (nodesFor leafFanout data.length) = nodes.length :=
    hlevel.nodesFor_eq (by omega) hleaves
  have hpos : 0 < nodes.length := by
    have := (hlevel.count 0).mpr (by simpa using hlen)
    omega
  have hle : nodes.length ≤ nodesFor leafFanout data.length := by
    rw [← hnodes]
    by_contra hgt
    have := (lt_nodesFor_iff (by omega)).mp (not_le.mp hgt)
    have : nodesFor leafFanout data.length * 1 ≤
      nodesFor leafFanout data.length * internalFanout := Nat.mul_le_mul_left _ (by omega)
    omega
  obtain ⟨nodes', root, d, hlevels, hcov, hd, hle', hcnt⟩ :=
    buildLevels_spec hL hF (nodes.length + 1) hlevel hpos hpos (by omega)
  have hcount : countNodes internalFanout (nodesFor leafFanout data.length + 1)
      (nodesFor leafFanout data.length) 0 = some nodes'.length := by
    have := hcnt nodes.length (nodesFor leafFanout data.length) (by omega)
    rw [Nat.sub_zero] at this
    rw [countNodes, hnodes, Nat.zero_add, this]
    congr 1
    omega
  refine ⟨⟨data, nodes', .node root, nodes'.length⟩, ?_, rfl, ⟨d, hd, hcov⟩, rfl⟩
  simp only [buildInternalLevels, hcount, hleaf, hlevels, Option.bind_eq_bind, Option.bind_some]
  rfl

end Levels

end Nodes

section Bounds
variable [LinearOrder K] [LinearOrder V] {leafFanout internalFanout : Nat}
  {data : List (Wrapped (Record K V))} {stops below : K → Bool}

/-- No record before `lo` is where the search is for. -/
def Before (data : List (Wrapped (Record K V))) (below : K → Bool) (lo : Nat) : Prop :=
  ∀ i w, i < lo → data[i]? = some w → below w.record.key = true

theorem Slots.passed {P : ChildPtr → Nat → Prop} {node : InternalNode K} {d lo : Nat}
    (h : Slots leafFanout internalFanout data P node d lo)
    (hs : data.Pairwise fun a b => a.record ≤ b.record)
    (hstops : ∀ k, stops k = !below k) (hmono : ∀ j k, j ≤ k → below k = true → below j = true)
    (hlt : lo < data.length) (hbefore : Before data below lo) (i : Nat) (hi : i < internalFanout)
    (hpass : ∀ j < i, node.child (j + 1) ≠ none ∧ stops (node.keys j) = false) :
    lo + i * width leafFanout internalFanout d < data.length ∧
      Before data below (lo + i * width leafFanout internalFanout d) := by
  cases i with
  | zero => exact ⟨by simpa using hlt, by simpa using hbefore⟩
  | succ j =>
    obtain ⟨hchild, hstop⟩ := hpass j (Nat.lt_succ_self j)
    have hlt' : lo + (j + 1) * width leafFanout internalFanout d < data.length := by
      by_contra hge
      exact hchild (h.absent (j + 1) hi (not_lt.mp hge))
    obtain ⟨w, hw, hkey⟩ := h.key j (by omega) hlt'.le
    rw [hkey, hstops, Bool.not_eq_false'] at hstop
    exact ⟨hlt', fun i v hi hv => hmono _ _ (ISAMTree.key_mono hs (by omega) hv hw) hstop⟩

theorem Slots.nextChild {P : ChildPtr → Nat → Prop} {node : InternalNode K} {d lo : Nat}
    (h : Slots leafFanout internalFanout data P node d lo) (hF : 0 < internalFanout)
    (hs : data.Pairwise fun a b => a.record ≤ b.record)
    (hstops : ∀ k, stops k = !below k) (hmono : ∀ j k, j ≤ k → below k = true → below j = true)
    (hlt : lo < data.length) (hbefore : Before data below lo) :
    ∃ c lo', nextChild internalFanout stops node = some c ∧ P c lo' ∧ lo' < data.length ∧
      Before data below lo' := by
  have hpassed := h.passed hs hstops hmono hlt hbefore
  rw [MemoryISAMTree.nextChild]
  cases hfound : (List.range (internalFanout - 1)).find? fun i =>
      node.child (i + 1) = none || stops (node.keys i) with
  | none =>
    rw [List.find?_eq_none] at hfound
    obtain ⟨hlt', hbefore'⟩ := hpassed (internalFanout - 1) (by omega) fun j hj => by
      simpa using hfound j (List.mem_range.mpr hj)
    obtain ⟨c, hc, hP⟩ := h.child (internalFanout - 1) (by omega) hlt'
    exact ⟨c, _, by simp [hc], hP, hlt', hbefore'⟩
  | some i =>
    obtain ⟨-, hi, hearlier⟩ := List.find?_range_eq_some.mp hfound
    rw [List.mem_range] at hi
    obtain ⟨hlt', hbefore'⟩ := hpassed i (by omega) fun j hj => by simpa using hearlier j hj
    obtain ⟨c, hc, hP⟩ := h.child i (by omega) hlt'
    exact ⟨c, _, by simp [hc], hP, hlt', hbefore'⟩

theorem descend_spec {t : MemoryISAMTree K V} (hdata : t.data = data) (hF : 0 < internalFanout)
    (hs : data.Pairwise fun a b => a.record ≤ b.record)
    (hstops : ∀ k, stops k = !below k) (hmono : ∀ j k, j ≤ k → below k = true → below j = true)
    (fuel : Nat) {d lo : Nat} {p : ChildPtr} (hfuel : d < fuel)
    (h : Covers leafFanout internalFanout data t.isamNodes d p lo)
    (hlt : lo < data.length) (hbefore : Before data below lo) :
    ∃ pos, descend internalFanout stops t fuel p = some pos ∧ pos < data.length ∧
      Before data below pos := by
  induction d generalizing fuel p lo with
  | zero =>
    obtain ⟨fuel, rfl⟩ := Nat.exists_eq_add_of_lt hfuel
    obtain rfl : p = .data lo := h
    rw [Nat.zero_add, descend, isLeaf, hdata]
    exact ⟨lo, by simp [hlt], hlt, hbefore⟩
  | succ d ih =>
    obtain ⟨fuel, rfl⟩ := Nat.exists_eq_add_of_lt (Nat.zero_lt_of_lt hfuel)
    obtain ⟨idx, node, rfl, hnode, hslots⟩ := h
    obtain ⟨c, lo', hnext, hcov, hlt', hbefore'⟩ :=
      hslots.nextChild hF hs hstops hmono hlt hbefore
    obtain ⟨pos, hpos, hrest⟩ := ih fuel (by omega) hcov hlt' hbefore'
    refine ⟨pos, ?_, hrest⟩
    rw [Nat.zero_add, descend, hnode]
    simp only [Option.bind_eq_bind, Option.bind_some, hnext]
    exact hpos

/-- The scan from the record that the descent ends on finds the first one that is not
before. -/
theorem bound_spec {t : MemoryISAMTree K V} (h : Indexed leafFanout internalFanout data t)
    (hne : data ≠ []) (hF : 0 < internalFanout)
    (hs : data.Pairwise fun a b => a.record ≤ b.record)
    (hstops : ∀ k, stops k = !below k) (hmono : ∀ j k, j ≤ k → below k = true → below j = true) :
    bound internalFanout stops below t = some (data.findIdx fun w => !below w.record.key) := by
  obtain ⟨d, hd, hcov⟩ := h.covers
  obtain ⟨pos, hdescend, hlt, hbefore⟩ := descend_spec h.data_eq hF hs hstops hmono
    (t.isamNodes.length + 1) (Nat.lt_succ_of_le hd) hcov (List.length_pos_iff.mpr hne)
    fun i w hi => absurd hi (Nat.not_lt_zero i)
  have hturns := turns_findIdx (q := fun w : Wrapped (Record K V) => below w.record.key)
    (hs.imp fun hab => hmono _ _ (Record.key_le_of_le hab))
  have hpos : pos ≤ data.findIdx fun w => !below w.record.key := by
    by_contra hgt
    have hin := (not_le.mp hgt).trans hlt
    have hat := List.findIdx_getElem (w := hin)
    rw [hbefore _ _ (not_le.mp hgt) (List.getElem?_eq_getElem hin)] at hat
    cases hat
  rw [bound, hdescend]
  simp only [Option.bind_eq_bind, Option.bind_some, h.data_eq]
  rw [advance_eq (hturns.narrow (Nat.zero_le pos) le_rfl hpos hturns.le_hi)]
  rfl

theorem getLowerBound_spec {t : MemoryISAMTree K V} (h : Indexed leafFanout internalFanout data t)
    (hne : data ≠ []) (hF : 0 < internalFanout)
    (hs : data.Pairwise fun a b => a.record ≤ b.record) (key : K) :
    t.getLowerBound internalFanout key = some (data.findIdx fun w => key ≤ w.record.key) := by
  have hnot : ∀ k, decide (key ≤ k) = !decide (k < key) := fun k => by
    rw [← decide_not, decide_eq_decide, not_lt]
  simp only [hnot]
  exact bound_spec h hne hF hs hnot fun j k hjk hk => by
    simpa using hjk.trans_lt (by simpa using hk)

theorem getUpperBound_spec {t : MemoryISAMTree K V} (h : Indexed leafFanout internalFanout data t)
    (hne : data ≠ []) (hF : 0 < internalFanout)
    (hs : data.Pairwise fun a b => a.record ≤ b.record) (key : K) :
    t.getUpperBound internalFanout key = some (data.findIdx fun w => key < w.record.key) := by
  have hnot : ∀ k, decide (key < k) = !decide (k ≤ key) := fun k => by
    rw [← decide_not, decide_eq_decide, not_le]
  simp only [hnot]
  exact bound_spec h hne hF hs hnot fun j k hjk hk => by
    simpa using hjk.trans (by simpa using hk)

/-- Both bounds are exact for every key, and the construction fills the nodes it allocates. -/
theorem bounds_exact [Zero K] (hL : 2 ≤ leafFanout) (hF : 2 ≤ internalFanout) (hne : data ≠ [])
    (hs : data.Pairwise fun a b => a.record ≤ b.record) :
    ∃ t, buildInternalLevels leafFanout internalFanout data = some t ∧
      t.isamNodes.length = t.internalNodeCnt ∧ ∀ key,
        t.getLowerBound internalFanout key = some (data.findIdx fun w => key ≤ w.record.key) ∧
        t.getUpperBound internalFanout key =
          some (data.findIdx fun w => key < w.record.key) := by
  obtain ⟨t, ht, h⟩ := buildInternalLevels_spec (by omega : 0 < leafFanout) hF hne
  have hF' : 0 < internalFanout := by omega
  exact ⟨t, ht, h.allocated, fun key =>
    ⟨getLowerBound_spec h hne hF' hs key, getUpperBound_spec h hne hF' hs key⟩⟩

/-- Seven records of three keys, in nodes of two slots -/
theorem bounds_exact_sample :
    let data : List (Wrapped (Record Nat Nat)) :=
      [(1, 0), (1, 1), (4, 0), (4, 1), (4, 2), (4, 3), (9, 0)].map fun p =>
        Wrapped.fresh ⟨p.1, p.2⟩ false
    ∃ t, buildInternalLevels 2 2 data = some t ∧ t.isamNodes.length = t.internalNodeCnt ∧
      t.getLowerBound 2 4 = some 2 ∧ t.getUpperBound 2 4 = some 6 := by
  intro data
  obtain ⟨t, ht, hcount, hbounds⟩ := bounds_exact (le_refl 2) (le_refl 2)
    (by decide : data ≠ []) (by decide)
  exact ⟨t, ht, hcount, (hbounds 4).1, (hbounds 4).2⟩

end Bounds

end MemoryISAMTree

end De

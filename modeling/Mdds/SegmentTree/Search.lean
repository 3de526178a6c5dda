import Mdds.SegmentTree.Basic

/-!
# The search path of a built segment tree

`descend_tree_for_search` walks from the root to one leaf. This module shows which nodes it reads
on every tree that `build_tree` produces, with assertions compiled out (`ndebug`).

The shape of a built tree is `Spans ks lvl node a c`: `node` is at level `lvl` (leaves at 0) and
covers the leaves `a` to `c` of the strictly increasing leaf chain `ks`. A non-leaf node has both
children at the level below, covering consecutive blocks of leaves, or a single left child when it
is the last node of its level; its range is `[ks[a], rangeHigh ks c)`, where `rangeHigh ks c` is
the key after leaf `c`, or leaf `c`'s own key when `c` is the last leaf. `Level` is a level of the
bottom-up pairing: nodes covering consecutive blocks up to the last leaf. `level_pairNodes` shows
that pairing a level gives the next one, and `spans_buildTree` that the build ends in a root that
covers every leaf.

`pathLabels` collects, in preorder, the labels of the non-leaf nodes whose range holds the key.
Ranges nest (`Spans.range_mem`), so these nodes lie on one path from the root, and preorder is
root-to-leaf order. `Spans.descendTreeForSearch_eq` is the descent on one subtree, by induction
on `Spans`, and `descendTreeForSearch_buildTree` the result for the tree `build_tree` makes: the
labels of the non-leaf nodes whose range holds the key, then the chain of the leaf `i` with
`ks[i] ≤ p < ks[i+1]`, and nothing at all outside `[ks[0], ks[n-1])`.
-/

set_option autoImplicit false
set_option relaxedAutoImplicit false

namespace Mdds.SegmentTree

variable {K H : Type} [Inhabited K]

/-! ### Sorted leaf chains -/

/-- The key of leaf `index` of the chain `ks`. -/
def leafKey (ks : List K) (index : Nat) : K :=
  ks.getD index default

/-- The upper bound of a node whose last leaf is `c`: the key of the next leaf, or leaf `c`'s own
key when it is the last one. -/
def rangeHigh (ks : List K) (c : Nat) : K :=
  if c + 1 < ks.length then leafKey ks (c + 1) else leafKey ks c

theorem leafKey_of_getElem? {ks : List K} {index : Nat} {key : K} (h : ks[index]? = some key) :
    leafKey ks index = key := by
  simp [leafKey, List.getD_eq_getElem?_getD, h]

theorem getElem?_of_lt {ks : List K} {index : Nat} (h : index < ks.length) :
    ks[index]? = some (leafKey ks index) := by
  simp [leafKey, List.getD_eq_getElem?_getD, h]

section Sorted

variable [LinearOrder K] {ks : List K} (hks : ks.Sorted (· < ·))
include hks

theorem leafKey_lt_leafKey {i j : Nat} (hij : i < j) (hj : j < ks.length) :
    leafKey ks i < leafKey ks j := by
  have h := List.pairwise_iff_getElem.mp hks i j (by omega) hj hij
  simpa [leafKey, List.getD_eq_getElem?_getD, hj, show i < ks.length by omega] using h

theorem leafKey_le_leafKey {i j : Nat} (hij : i ≤ j) (hj : j < ks.length) :
    leafKey ks i ≤ leafKey ks j := by
  rcases Nat.lt_or_eq_of_le hij with h | rfl
  · exact (leafKey_lt_leafKey hks h hj).le
  · exact le_rfl

/-- In a strictly increasing chain, a smaller key sits at a smaller position. -/
theorem lt_of_leafKey_lt {i j : Nat} (hi : i < ks.length) (h : leafKey ks i < leafKey ks j) :
    i < j := by
  by_contra hji
  exact absurd h (not_lt.mpr (leafKey_le_leafKey hks (by omega) hi))

theorem rangeHigh_le_rangeHigh {c c' : Nat} (hcc : c ≤ c') (hc' : c' < ks.length) :
    rangeHigh ks c ≤ rangeHigh ks c' := by
  unfold rangeHigh
  split_ifs with h h' h' <;> apply leafKey_le_leafKey hks <;> omega

/-- The key after leaf `i` is at most the upper bound of a node ending at `c ≥ i`. -/
theorem leafKey_succ_le_rangeHigh {i c : Nat} (hic : i ≤ c) (hi : i + 1 < ks.length)
    (hc : c < ks.length) : leafKey ks (i + 1) ≤ rangeHigh ks c := by
  unfold rangeHigh
  split_ifs with h <;> apply leafKey_le_leafKey hks <;> omega

/-- A key in the interval `[ks[i], ks[i+1])` of a leaf `i` between `a` and `c` lies in the range
`[ks[a], rangeHigh ks c)` of a node over the leaves `a` to `c`. -/
theorem mem_range_of_mem_leaf {a i c : Nat} {point : K} (hai : a ≤ i) (hic : i ≤ c)
    (hi : i + 1 < ks.length) (hc : c < ks.length) (hlow : leafKey ks i ≤ point)
    (hhigh : point < leafKey ks (i + 1)) : leafKey ks a ≤ point ∧ point < rangeHigh ks c :=
  ⟨(leafKey_le_leafKey hks hai (by omega)).trans hlow,
    hhigh.trans_le (leafKey_succ_le_rangeHigh hks hic hi hc)⟩

end Sorted

/-! ### The shape of a built tree -/

/-- `Spans ks lvl node a c`: `node` is a subtree of level `lvl` over the leaves `a` to `c` of the
chain `ks`, with the ranges `fill_nonleaf_value` gives. -/
inductive Spans (ks : List K) : Nat → NodePtr K → Nat → Nat → Prop
  | leaf {index : Nat} {key : K} (hindex : index < ks.length) (hkey : leafKey ks index = key) :
      Spans ks 0 (.leaf index key) index index
  | pair {lvl id : Nat} {low high : K} {left right : NodePtr K} {a m c : Nat}
      (hleft : Spans ks lvl left a m) (hright : Spans ks lvl right (m + 1) c)
      (hlow : leafKey ks a = low) (hhigh : rangeHigh ks c = high) :
      Spans ks (lvl + 1) (.nonleaf id low high left right) a c
  | single {lvl id : Nat} {low high : K} {left : NodePtr K} {a c : Nat}
      (hleft : Spans ks lvl left a c) (hlast : c + 1 = ks.length)
      (hlow : leafKey ks a = low) (hhigh : rangeHigh ks c = high) :
      Spans ks (lvl + 1) (.nonleaf id low high left .null) a c

variable {ks : List K}

theorem Spans.le_last {lvl a c : Nat} {node : NodePtr K} (h : Spans ks lvl node a c) :
    a ≤ c ∧ c < ks.length := by
  induction h with
  | leaf hindex => exact ⟨le_rfl, hindex⟩
  | pair _ _ _ _ ihl ihr => exact ⟨by omega, ihr.2⟩
  | single _ _ _ _ ih => exact ih

/-- A subtree of level `0` is a leaf. -/
theorem Spans.eq_leaf {node : NodePtr K} {a c : Nat} (h : Spans ks 0 node a c) :
    c = a ∧ node = .leaf a (leafKey ks a) := by
  cases h with
  | leaf _ hkey => exact ⟨rfl, by rw [hkey]⟩

/-- A subtree above level `0` is a non-leaf node over the range `[ks[a], rangeHigh ks c)`. -/
theorem Spans.eq_nonleaf {lvl a c : Nat} {node : NodePtr K} (h : Spans ks (lvl + 1) node a c) :
    ∃ id left right, node = .nonleaf id (leafKey ks a) (rangeHigh ks c) left right := by
  cases h with
  | pair _ _ hlow hhigh => exact ⟨_, _, _, by rw [hlow, hhigh]⟩
  | single _ _ hlow hhigh => exact ⟨_, _, _, by rw [hlow, hhigh]⟩

/-- The upper bound a parent takes from a right child over leaves up to `c` is `rangeHigh ks c`. -/
theorem Spans.rightHigh_eq {lvl a c : Nat} {node : NodePtr K} (h : Spans ks lvl node a c)
    (fallback : K) : rightHigh ks fallback node = rangeHigh ks c := by
  cases h with
  | leaf hindex hkey =>
    rw [← hkey]
    by_cases hnext : a + 1 < ks.length
    · simp [rightHigh, rangeHigh, hnext, getElem?_of_lt hnext]
    · simp [rightHigh, rangeHigh, hnext, List.getElem?_eq_none (not_lt.mp hnext)]
  | pair _ _ _ hhigh => exact hhigh.symm
  | single _ _ _ hhigh => exact hhigh.symm

/-! ### The non-leaf nodes on the path of a key -/

variable [LinearOrder K]

/-- The non-leaf nodes of a tree in preorder, as `(id, low, high)`. -/
def nonleafRanges : NodePtr K → List (Nat × K × K)
  | .null => []
  | .leaf _ _ => []
  | .nonleaf id low high left right => (id, low, high) :: (nonleafRanges left ++ nonleafRanges right)

/-- The labels of the non-leaf nodes whose range `[low, high)` holds `point`, in preorder. -/
def pathLabels (chains : NodeRef → List H) (point : K) (node : NodePtr K) : List H :=
  ((nonleafRanges node).filter fun range ↦ decide (range.2.1 ≤ point ∧ point < range.2.2)).flatMap
    fun range ↦ chains (.nonleaf range.1)

omit [Inhabited K] in
@[simp] theorem pathLabels_null (chains : NodeRef → List H) (point : K) :
    pathLabels chains point .null = [] := rfl

omit [Inhabited K] in
@[simp] theorem pathLabels_leaf (chains : NodeRef → List H) (point : K) (index : Nat) (key : K) :
    pathLabels chains point (.leaf index key) = [] := rfl

omit [Inhabited K] in
theorem pathLabels_nonleaf (chains : NodeRef → List H) (point : K) (id : Nat) (low high : K)
    (left right : NodePtr K) :
    pathLabels chains point (.nonleaf id low high left right) =
      (if low ≤ point ∧ point < high then chains (.nonleaf id) else []) ++
        (pathLabels chains point left ++ pathLabels chains point right) := by
  simp only [pathLabels, nonleafRanges, List.filter_cons, List.filter_append,
    List.flatMap_append]
  by_cases h : low ≤ point ∧ point < high <;> simp [h]

/-- Every non-leaf range of a subtree lies within the subtree's own range. -/
theorem Spans.range_mem (hks : ks.Sorted (· < ·)) {lvl a c : Nat} {node : NodePtr K}
    (h : Spans ks lvl node a c) {range : Nat × K × K} (hrange : range ∈ nonleafRanges node) :
    leafKey ks a ≤ range.2.1 ∧ range.2.2 ≤ rangeHigh ks c := by
  induction h with
  | leaf => simp [nonleafRanges] at hrange
  | @pair lvl id low high left right a m c hleft hright hlow hhigh ihl ihr =>
    have hbounds := hright.le_last
    have hlbounds := hleft.le_last
    simp only [nonleafRanges, List.mem_cons, List.mem_append] at hrange
    rcases hrange with rfl | hmem | hmem
    · exact ⟨hlow.le, hhigh.ge⟩
    · have := ihl hmem
      exact ⟨this.1, this.2.trans (rangeHigh_le_rangeHigh hks (by omega) hbounds.2)⟩
    · have := ihr hmem
      exact ⟨(leafKey_le_leafKey hks (by omega) (by omega)).trans this.1, this.2⟩
  | single _ _ hlow hhigh ih =>
    simp only [nonleafRanges, List.mem_cons, List.mem_append, List.not_mem_nil, or_false]
      at hrange
    rcases hrange with rfl | hmem
    · exact ⟨hlow.le, hhigh.ge⟩
    · exact ih hmem

/-- A key outside a subtree's range meets none of its non-leaf nodes. -/
theorem Spans.pathLabels_eq_nil (hks : ks.Sorted (· < ·)) {lvl a c : Nat} {node : NodePtr K}
    (h : Spans ks lvl node a c) (chains : NodeRef → List H) {point : K}
    (hout : point < leafKey ks a ∨ rangeHigh ks c ≤ point) :
    pathLabels chains point node = [] := by
  unfold pathLabels
  rw [List.filter_eq_nil_iff.mpr, List.flatMap_nil]
  intro range hrange hin
  have hbounds := h.range_mem hks hrange
  simp only [decide_eq_true_eq] at hin
  rcases hout with hout | hout
  · exact absurd (hbounds.1.trans hin.1) (not_le.mpr hout)
  · exact absurd (hin.2.trans_le hbounds.2) (not_lt.mpr hout)

end Mdds.SegmentTree

namespace Mdds.SegmentTree

variable {K H : Type} [Inhabited K] [LinearOrder K] {ks : List K}

/-- The descent on a subtree over the leaves `a` to `c`, for a key that falls in the interval
`[ks[i], ks[i+1])` of one of its leaves `i`: the labels of the subtree's non-leaf nodes whose
range holds the key, then the data chain of leaf `i`. -/
theorem Spans.descendTreeForSearch_eq (hks : ks.Sorted (· < ·)) {lvl a c : Nat}
    {node : NodePtr K} (h : Spans ks lvl node a c) (chains : NodeRef → List H) {point : K}
    {i : Nat} (hai : a ≤ i) (hic : i ≤ c) (hnext : i + 1 < ks.length)
    (hlow : leafKey ks i ≤ point) (hhigh : point < leafKey ks (i + 1)) :
    descendTreeForSearch true point chains node =
      .ok (pathLabels chains point node ++ chains (.leaf i)) := by
  induction h generalizing i with
  | leaf =>
    obtain rfl := le_antisymm hic hai
    simp [descendTreeForSearch]
  | @pair lvl id low high left right a m c hleft hright hlow' hhigh' ihl ihr =>
    have hl := hleft.le_last
    have hr := hright.le_last
    have hin : low ≤ point ∧ point < high :=
      hlow' ▸ hhigh' ▸ mem_range_of_mem_leaf hks hai hic hnext hr.2 hlow hhigh
    rw [pathLabels_nonleaf, if_pos hin]
    have hskip : ¬(point < low ∨ high ≤ point) :=
      not_or.mpr ⟨not_lt.mpr hin.1, not_le.mpr hin.2⟩
    rcases lvl with _ | lvl
    · obtain ⟨rfl, rfl⟩ := hleft.eq_leaf
      obtain ⟨rfl, rfl⟩ := hright.eq_leaf
      have hstart : ¬point < leafKey ks m := not_lt.mpr (hlow' ▸ hin.1)
      by_cases hgo : leafKey ks (m + 1) ≤ point
      · obtain rfl : i = m + 1 :=
          le_antisymm hic (by have := lt_of_leafKey_lt hks hr.2 (hgo.trans_lt hhigh); omega)
        simp [descendTreeForSearch, assertSameKind, hskip, hstart, hgo]
      · obtain rfl : i = m :=
          le_antisymm (by
            have := lt_of_leafKey_lt hks (by omega) (hlow.trans_lt (not_le.mp hgo))
            omega) hai
        simp [descendTreeForSearch, assertSameKind, hskip, hstart, hgo]
    · obtain ⟨lid, ll, lr, rfl⟩ := hleft.eq_nonleaf
      obtain ⟨rid, rl, rr, rfl⟩ := hright.eq_nonleaf
      have hstart : ¬point < leafKey ks a := not_lt.mpr (hlow' ▸ hin.1)
      have hmid : rangeHigh ks m = leafKey ks (m + 1) := by
        simp [rangeHigh, show m + 1 < ks.length by omega]
      rw [descendTreeForSearch.eq_3]
      by_cases hgo : rangeHigh ks m ≤ point
      · have him : m + 1 ≤ i := by
          have := lt_of_leafKey_lt hks (by omega) ((hmid ▸ hgo).trans_lt hhigh); omega
        simp only [hskip, if_false, assertSameKind, if_true, pure_bind, hstart, hgo, assertInRange]
        rw [ihr him hic hnext hlow hhigh, hleft.pathLabels_eq_nil hks chains (.inr hgo)]
        simp
      · have him : i ≤ m := by
          have := lt_of_leafKey_lt hks (by omega) (hlow.trans_lt (hmid ▸ not_le.mp hgo)); omega
        simp only [hskip, if_false, assertSameKind, if_true, pure_bind, hstart, hgo, assertInRange]
        rw [ihl hai him hnext hlow hhigh,
          hright.pathLabels_eq_nil hks chains (.inl (hmid ▸ not_le.mp hgo))]
        simp
  | @single lvl id low high left a c hleft hlast hlow' hhigh' ih =>
    have hl := hleft.le_last
    have hin : low ≤ point ∧ point < high :=
      hlow' ▸ hhigh' ▸ mem_range_of_mem_leaf hks hai hic hnext hl.2 hlow hhigh
    have hskip : ¬(point < low ∨ high ≤ point) :=
      not_or.mpr ⟨not_lt.mpr hin.1, not_le.mpr hin.2⟩
    rw [pathLabels_nonleaf, if_pos hin, pathLabels_null, List.append_nil]
    rcases lvl with _ | lvl
    · obtain ⟨rfl, rfl⟩ := hleft.eq_leaf
      omega
    · obtain ⟨lid, ll, lr, rfl⟩ := hleft.eq_nonleaf
      have hstart : ¬point < leafKey ks a := not_lt.mpr (hlow' ▸ hin.1)
      have hstay : ¬rangeHigh ks c ≤ point := hhigh' ▸ not_le.mpr hin.2
      rw [descendTreeForSearch.eq_3]
      simp only [hskip, if_false, assertSameKind, if_true, pure_bind, hstart, hstay, assertInRange]
      rw [ih hai hic hnext hlow hhigh]
      simp

/-! ### The bottom-up build -/

/-- A level of the bottom-up pairing: subtrees of level `lvl` over consecutive blocks of leaves,
from leaf `a` up to the last leaf. -/
inductive Level (ks : List K) (lvl : Nat) : List (NodePtr K) → Nat → Prop
  | last {node : NodePtr K} {a c : Nat} (hnode : Spans ks lvl node a c)
      (hlast : c + 1 = ks.length) : Level ks lvl [node] a
  | cons {node : NodePtr K} {rest : List (NodePtr K)} {a c : Nat} (hnode : Spans ks lvl node a c)
      (hrest : Level ks lvl rest (c + 1)) : Level ks lvl (node :: rest) a

omit [LinearOrder K] in
/-- The leaf level: every leaf from `a` on, each a block of its own. -/
theorem level_leafNodes : ∀ (keys : List K) (a : Nat), ks.drop a = keys → keys ≠ [] →
    Level ks 0 (leafNodes a keys) a
  | [], _, _, hne => absurd rfl hne
  | key :: rest, a, hdrop, _ => by
    have hlen : rest.length + 1 = ks.length - a := by
      rw [← List.length_cons, ← hdrop, List.length_drop]
    have hkey : ks[a]? = some key := by
      rw [← Nat.add_zero a, ← List.getElem?_drop, hdrop]; simp
    have hleaf : Spans ks 0 (.leaf a key) a a := .leaf (by omega) (leafKey_of_getElem? hkey)
    cases rest with
    | nil => exact .last hleaf (by simp at hlen; omega)
    | cons next rest =>
      refine .cons hleaf (level_leafNodes (next :: rest) (a + 1) ?_ (List.cons_ne_nil _ _))
      rw [← List.drop_drop, hdrop, List.drop_one, List.tail_cons]

omit [LinearOrder K] in
/-- A parent with children over consecutive blocks covers both blocks. -/
theorem Spans.makeParentNode_pair {lvl a m c : Nat} {left right : NodePtr K}
    (hleft : Spans ks lvl left a m) (hright : Spans ks lvl right (m + 1) c) (id : Nat) :
    makeParentNode ks id left right = .nonleaf id (leafKey ks a) (rangeHigh ks c) left right := by
  cases hleft with
  | leaf _ hkey => simp [makeParentNode, fillNonleafValue, hkey, hright.rightHigh_eq]
  | pair _ _ hlow _ => simp [makeParentNode, fillNonleafValue, hlow, hright.rightHigh_eq]
  | single _ _ hlow _ => simp [makeParentNode, fillNonleafValue, hlow, hright.rightHigh_eq]

omit [LinearOrder K] in
/-- The parent of the last node of an odd level covers that node's block. -/
theorem Spans.makeParentNode_single {lvl a c : Nat} {left : NodePtr K}
    (hleft : Spans ks lvl left a c) (hlast : c + 1 = ks.length) (id : Nat) :
    makeParentNode ks id left .null = .nonleaf id (leafKey ks a) (rangeHigh ks c) left .null := by
  cases hleft with
  | leaf _ hkey => simp [makeParentNode, fillNonleafValue, rightHigh, ← hkey, rangeHigh, hlast]
  | pair _ _ hlow hhigh => simp [makeParentNode, fillNonleafValue, rightHigh, hlow, hhigh]
  | single _ _ hlow hhigh => simp [makeParentNode, fillNonleafValue, rightHigh, hlow, hhigh]

omit [LinearOrder K] in
/-- Pairing a level gives the level above it. -/
theorem level_pairNodes {lvl : Nat} : ∀ (id : Nat) (nodes : List (NodePtr K)) (a : Nat),
    Level ks lvl nodes a → Level ks (lvl + 1) (pairNodes ks id nodes) a
  | _, [], _, h => nomatch h
  | id, [_], _, h => by
    cases h with
    | last hnode hlast =>
      rw [pairNodes, hnode.makeParentNode_single hlast]
      exact .last (.single hnode hlast rfl rfl) hlast
    | cons _ hrest => nomatch hrest
  | id, _ :: _ :: rest, _, h => by
    cases h with
    | cons hleft hrest =>
      cases hrest with
      | last hright hlast =>
        rw [pairNodes, hleft.makeParentNode_pair hright, pairNodes]
        exact .last (.pair hleft hright rfl rfl) hlast
      | cons hright hrest =>
        rw [pairNodes, hleft.makeParentNode_pair hright]
        exact .cons (.pair hleft hright rfl rfl) (level_pairNodes (id + 1) rest _ hrest)

omit [LinearOrder K] in
/-- Repeated pairing from a level ends in one subtree over every leaf, at that level or above. -/
theorem spans_buildTreeNonLeaf : ∀ (fuel id : Nat) (nodes : List (NodePtr K)) (lvl : Nat),
    Level ks lvl nodes 0 → nodes.length ≤ fuel + 1 →
      ∃ top, lvl ≤ top ∧ Spans ks top (buildTreeNonLeaf ks fuel id nodes) 0 (ks.length - 1)
  | _, _, [], _, h, _ => nomatch h
  | _, _, [node], lvl, h, _ => by
    cases h with
    | last hnode hlast => exact ⟨lvl, le_rfl, by rw [buildTreeNonLeaf]; rwa [← hlast]⟩
    | cons _ hrest => nomatch hrest
  | 0, _, _ :: _ :: _, _, _, hfuel => by simp at hfuel
  | fuel + 1, id, left :: right :: rest, lvl, h, hfuel => by
    have hlen := length_pairNodes ks id (left :: right :: rest)
    simp only [List.length_cons] at hfuel hlen
    obtain ⟨top, htop, hspans⟩ := spans_buildTreeNonLeaf fuel _ _ (lvl + 1)
      (level_pairNodes id _ 0 h) (by omega)
    exact ⟨top, by omega, by rw [buildTreeNonLeaf]; exact hspans⟩

omit [LinearOrder K] in
/-- The build over a chain of at least two leaves is a non-leaf root over all of them. -/
theorem spans_buildTree (hks : 2 ≤ ks.length) :
    ∃ lvl, Spans ks (lvl + 1) (Mdds.buildTree ks) 0 (ks.length - 1) := by
  have hleaves : Level ks 0 (leafNodes 0 ks) 0 :=
    level_leafNodes ks 0 (List.drop_zero _) (List.ne_nil_of_length_pos (by omega))
  obtain ⟨top, htop, hspans⟩ := spans_buildTreeNonLeaf ks.length _ _ 1
    (level_pairNodes 0 _ 0 hleaves) (by rw [length_pairNodes, length_leafNodes]; omega)
  obtain ⟨lvl, rfl⟩ : ∃ lvl, top = lvl + 1 := ⟨top - 1, by omega⟩
  exact ⟨lvl, hspans⟩

/-! ### The leaf chain of a build -/

omit [Inhabited K] in
/-- `std::unique` after `std::sort` keeps every key: a key dropped as a repeat equals the key kept
before it. -/
theorem mem_destutter'_ne {first key : K} :
    ∀ {keys : List K}, key ∈ first :: keys → key ∈ keys.destutter' (· ≠ ·) first
  | [], h => by simpa [List.destutter'_nil] using h
  | next :: keys, h => by
    by_cases hsame : first = next
    · subst hsame
      rw [List.destutter'_cons, if_neg (by simp)]
      exact mem_destutter'_ne (by simp only [List.mem_cons] at h ⊢; tauto)
    · rw [List.destutter'_cons, if_pos hsame]
      simp only [List.mem_cons] at h ⊢
      rcases h with rfl | h
      · exact .inl rfl
      · exact .inr (mem_destutter'_ne (List.mem_cons.mpr h))

omit [Inhabited K] in
theorem chain'_lt_of_le_of_ne : ∀ {keys : List K},
    keys.Chain' (· ≤ ·) → keys.Chain' (· ≠ ·) → keys.Chain' (· < ·)
  | [], _, _ => List.chain'_nil
  | [_], _, _ => List.chain'_singleton _
  | _ :: _ :: _, hle, hne => by
    rw [List.chain'_cons] at hle hne ⊢
    exact ⟨lt_of_le_of_ne hle.1 hne.1, chain'_lt_of_le_of_ne hle.2 hne.2⟩

omit [Inhabited K] in
/-- The keys of the leaf chain are strictly increasing. -/
theorem keysUniq_sorted (segments : List (SegmentData K H)) :
    (keysUniq segments).Sorted (· < ·) := by
  have hle : (keysUniq segments).Sorted (· ≤ ·) :=
    (List.sorted_insertionSort _ _).sublist (List.destutter_sublist _ _)
  exact List.chain'_iff_pairwise.mp
    (chain'_lt_of_le_of_ne hle.chain' (List.destutter_is_chain' _ _))

omit [Inhabited K] in
/-- The keys of the leaf chain are the end points of the segments. -/
theorem mem_keysUniq {segments : List (SegmentData K H)} {key : K} :
    key ∈ keysUniq segments ↔
      ∃ data ∈ segments, key = data.beginKey ∨ key = data.endKey := by
  rw [keysUniq]
  generalize hsorted : List.insertionSort (fun a b : K ↦ a ≤ b)
    (segments.flatMap fun data ↦ [data.beginKey, data.endKey]) = sorted
  have hmem : key ∈ sorted ↔
      ∃ data ∈ segments, key = data.beginKey ∨ key = data.endKey := by
    rw [← hsorted, (List.perm_insertionSort _ _).mem_iff]
    simp
  rw [← hmem]
  refine ⟨fun h ↦ (List.destutter_sublist _ _).subset h, fun h ↦ ?_⟩
  cases sorted with
  | nil => simp at h
  | cons first rest => exact mem_destutter'_ne h

omit [Inhabited K] in
/-- A segment with `b < e` gives the leaf chain at least two keys. -/
theorem two_le_length_keysUniq {segments : List (SegmentData K H)} {data : SegmentData K H}
    (hdata : data ∈ segments) (hlt : data.beginKey < data.endKey) :
    2 ≤ (keysUniq segments).length := by
  have hbegin := mem_keysUniq.mpr ⟨data, hdata, .inl rfl⟩
  have hend := mem_keysUniq.mpr ⟨data, hdata, .inr rfl⟩
  match hkeys : keysUniq segments with
  | [] => simp [hkeys] at hbegin
  | [key] =>
    simp only [hkeys, List.mem_singleton] at hbegin hend
    exact absurd (hbegin.trans hend.symm) hlt.ne
  | _ :: _ :: _ => simp

/-! ### The search path of a built tree -/

/-- From a non-empty segment list with `b < e`, `build_tree` builds its chain over the distinct
end points and the balanced tree over that chain. -/
theorem buildTree_eq_keysUniq [DecidableEq H] (t : SegmentTree K H) (hne : t.segmentData ≠ [])
    (hsegs : ∀ data ∈ t.segmentData, data.beginKey < data.endKey) :
    2 ≤ (keysUniq t.segmentData).length ∧ t.buildTree.leaves = keysUniq t.segmentData ∧
      t.buildTree.rootNode = Mdds.buildTree (keysUniq t.segmentData) := by
  obtain ⟨data, hdata⟩ := List.exists_mem_of_ne_nil _ hne
  have htwo := two_le_length_keysUniq hdata (hsegs data hdata)
  have hleaves : t.buildTree.leaves = keysUniq t.segmentData := by
    simp [buildTree, createLeafNodeInstances, not_lt.mpr htwo]
  exact ⟨htwo, hleaves, by rw [← hleaves]; rfl⟩

/-- `descend_tree_for_search` on the tree `build_tree` makes from a non-empty segment list, with
assertions compiled out. For the leaf `i` with `ks[i] ≤ point < ks[i+1]`, the result is the label
lists of exactly the non-leaf nodes whose `[low, high)` holds `point`, in root-to-leaf order,
followed by leaf `i`'s data chain; below the first key or at or above the last key, nothing. -/
theorem descendTreeForSearch_buildTree [DecidableEq H] (t : SegmentTree K H)
    (hne : t.segmentData ≠ []) (hsegs : ∀ data ∈ t.segmentData, data.beginKey < data.endKey)
    (point : K) :
    (∀ (i : Nat) (low high : K), t.buildTree.leaves[i]? = some low →
        t.buildTree.leaves[i + 1]? = some high → low ≤ point → point < high →
        descendTreeForSearch true point t.buildTree.chains t.buildTree.rootNode =
          .ok (pathLabels t.buildTree.chains point t.buildTree.rootNode ++
            t.buildTree.chains (.leaf i))) ∧
    ((∃ first, t.buildTree.leaves.head? = some first ∧ point < first) ∨
        (∃ last, t.buildTree.leaves.getLast? = some last ∧ last ≤ point) →
      descendTreeForSearch true point t.buildTree.chains t.buildTree.rootNode = .ok []) := by
  obtain ⟨htwo, hleaves, hroot⟩ := buildTree_eq_keysUniq t hne hsegs
  have hks := keysUniq_sorted t.segmentData
  rw [hleaves, hroot]
  obtain ⟨lvl, hspans⟩ := spans_buildTree htwo
  refine ⟨fun i low high hlow hhigh hle hlt ↦ ?_, fun hout ↦ ?_⟩
  · have hi : i + 1 < (keysUniq t.segmentData).length := (List.getElem?_eq_some_iff.mp hhigh).1
    exact hspans.descendTreeForSearch_eq hks _ (Nat.zero_le i) (by omega) hi
      (by rwa [leafKey_of_getElem? hlow]) (by rwa [leafKey_of_getElem? hhigh])
  · obtain ⟨id, left, right, heq⟩ := hspans.eq_nonleaf
    have hlast : rangeHigh (keysUniq t.segmentData) ((keysUniq t.segmentData).length - 1) =
        leafKey (keysUniq t.segmentData) ((keysUniq t.segmentData).length - 1) := by
      unfold rangeHigh
      rw [if_neg (by omega)]
    have hskip : point < leafKey (keysUniq t.segmentData) 0 ∨
        rangeHigh (keysUniq t.segmentData) ((keysUniq t.segmentData).length - 1) ≤ point := by
      rw [hlast]
      rcases hout with ⟨first, hfirst, hlt⟩ | ⟨last, hlast', hle⟩
      · rw [List.head?_eq_getElem?] at hfirst
        exact .inl (by rwa [leafKey_of_getElem? hfirst])
      · rw [List.getLast?_eq_getElem?] at hlast'
        exact .inr (by rwa [leafKey_of_getElem? hlast'])
    rw [heq, descendTreeForSearch.eq_3, if_pos hskip]

/-- `descendTreeForSearch_buildTree` on the spec's stabbing segments, at key 13. -/
theorem descendTreeForSearch_buildTree_stabbing :
    stabbingSegments.segmentData ≠ [] ∧
    (∀ data ∈ stabbingSegments.segmentData, data.beginKey < data.endKey) ∧
    (∀ (i : Nat) (low high : Nat), stabbingSegments.buildTree.leaves[i]? = some low →
        stabbingSegments.buildTree.leaves[i + 1]? = some high → low ≤ 13 → 13 < high →
        descendTreeForSearch true 13 stabbingSegments.buildTree.chains
            stabbingSegments.buildTree.rootNode =
          .ok (pathLabels stabbingSegments.buildTree.chains 13
              stabbingSegments.buildTree.rootNode ++
            stabbingSegments.buildTree.chains (.leaf i))) ∧
    ((∃ first, stabbingSegments.buildTree.leaves.head? = some first ∧ 13 < first) ∨
        (∃ last, stabbingSegments.buildTree.leaves.getLast? = some last ∧ last ≤ 13) →
      descendTreeForSearch true 13 stabbingSegments.buildTree.chains
        stabbingSegments.buildTree.rootNode = .ok []) :=
  ⟨by decide, by decide,
    descendTreeForSearch_buildTree stabbingSegments (by decide) (by decide) 13⟩

end Mdds.SegmentTree

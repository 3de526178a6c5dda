import Mdds.SegmentTree.Search

/-!
# The leaf chain and the node ranges of a built segment tree

`build_tree` makes the leaf chain over the end points of the segments and the balanced tree over
it. In the model a leaf's horizontal links are its neighbours in the chain `leaves`: the leaf
after leaf `i` is leaf `i + 1` and the leaf before leaf `i + 1` is leaf `i`, so that each leaf's
left link is the inverse of its predecessor's right link by construction.

`buildTree_leaves_ranges` is what a build leaves for every non-empty segment list with `b < e`: the
chain lists the distinct end points in increasing order, and every non-leaf node of the tree has
a left child, the key of its leftmost descendant leaf as `low`, and as `high` the key of the leaf
after its rightmost descendant leaf, or that leaf's own key when it ends the chain. The descendant
leaves of a node are `descendantLeaves`; a subtree over the leaves `a` to `c` has exactly those, in
order (`Spans.descendantLeaves_eq`), and so does each of its subtrees, over a block of its own
(`Spans.spans_of_mem_subtrees`).
-/

set_option autoImplicit false
set_option relaxedAutoImplicit false

namespace Mdds.SegmentTree

variable {K H : Type}

/-- The nodes of a tree, in preorder. -/
def subtrees : NodePtr K → List (NodePtr K)
  | .null => []
  | .leaf index key => [.leaf index key]
  | .nonleaf id low high left right =>
    .nonleaf id low high left right :: (subtrees left ++ subtrees right)

/-- The leaves below a node, left to right, each with its position in the chain and its key. -/
def descendantLeaves : NodePtr K → List (Nat × K)
  | .null => []
  | .leaf index key => [(index, key)]
  | .nonleaf _ _ _ left right => descendantLeaves left ++ descendantLeaves right

variable [Inhabited K] {ks : List K}

/-! ### Subtrees of a built tree -/

theorem Spans.ne_null {lvl a c : Nat} {node : NodePtr K} (h : Spans ks lvl node a c) :
    node ≠ .null := by
  cases h <;> simp

/-- A subtree over the leaves `a` to `c` has the leaves `a` to `c` below it, in order. -/
theorem Spans.descendantLeaves_eq {lvl a c : Nat} {node : NodePtr K} (h : Spans ks lvl node a c) :
    descendantLeaves node = (List.range' a (c + 1 - a)).map fun i => (i, leafKey ks i) := by
  induction h with
  | leaf _ hkey => simp [descendantLeaves, hkey]
  | @pair lvl id low high left right a m c hleft hright _ _ ihl ihr =>
    have hl := hleft.le_last
    have hr := hright.le_last
    have hrange := List.range'_append a (m + 1 - a) (c + 1 - (m + 1)) 1
    rw [show a + 1 * (m + 1 - a) = m + 1 by omega,
      show c + 1 - (m + 1) + (m + 1 - a) = c + 1 - a by omega] at hrange
    rw [descendantLeaves, ihl, ihr, ← List.map_append, hrange]
  | single _ _ _ _ ih => simp [descendantLeaves, ih]

/-- Every subtree of a subtree over a block of leaves is itself over a block of leaves. -/
theorem Spans.spans_of_mem_subtrees {lvl a c : Nat} {node : NodePtr K}
    (h : Spans ks lvl node a c) :
    ∀ sub ∈ subtrees node, ∃ lvl' a' c', Spans ks lvl' sub a' c' := by
  induction h with
  | leaf hindex hkey =>
    intro sub hsub
    rw [subtrees, List.mem_singleton] at hsub
    exact ⟨0, _, _, hsub ▸ Spans.leaf hindex hkey⟩
  | pair hleft hright hlow hhigh ihl ihr =>
    intro sub hsub
    rcases List.mem_cons.mp hsub with rfl | hsub
    · exact ⟨_, _, _, .pair hleft hright hlow hhigh⟩
    · rcases List.mem_append.mp hsub with hsub | hsub
      exacts [ihl sub hsub, ihr sub hsub]
  | single hleft hlast hlow hhigh ih =>
    intro sub hsub
    rcases List.mem_cons.mp hsub with rfl | hsub
    · exact ⟨_, _, _, .single hleft hlast hlow hhigh⟩
    · simpa [subtrees] using ih sub (by simpa [subtrees] using hsub)

/-- A non-leaf node over the leaves `a` to `c` has a left child, the key of leaf `a` as its lower
bound, and as its upper bound the key of the leaf after leaf `c`, or leaf `c`'s own key when it
is the last one. -/
theorem Spans.nonleaf_range {lvl a c id : Nat} {low high : K} {left right : NodePtr K}
    (h : Spans ks lvl (.nonleaf id low high left right) a c) :
    left ≠ .null ∧ ∃ keyc,
      (descendantLeaves (.nonleaf id low high left right)).head? = some (a, low) ∧
      (descendantLeaves (.nonleaf id low high left right)).getLast? = some (c, keyc) ∧
      (ks[c + 1]? = some high ∨ c + 1 = ks.length ∧ high = keyc) := by
  have hbounds := h.le_last
  have hleaves := h.descendantLeaves_eq
  obtain ⟨hleft, hlow, hhigh⟩ :
      left ≠ .null ∧ leafKey ks a = low ∧ rangeHigh ks c = high := by
    cases h with
    | pair hleft _ hlow hhigh => exact ⟨hleft.ne_null, hlow, hhigh⟩
    | single hleft _ hlow hhigh => exact ⟨hleft.ne_null, hlow, hhigh⟩
  refine ⟨hleft, leafKey ks c, ?_, ?_, ?_⟩
  · rw [hleaves, List.head?_map, List.head?_range', if_neg (by omega), ← hlow]
    rfl
  · rw [hleaves, List.getLast?_map, List.getLast?_range', if_neg (by omega),
      show a + (c + 1 - a) - 1 = c by omega]
    rfl
  · rw [← hhigh, rangeHigh]
    split_ifs with hnext
    · exact .inl (getElem?_of_lt hnext)
    · exact .inr ⟨by omega, rfl⟩

/-! ### The build -/

variable [LinearOrder K]

/-- After `build_tree()` on a non-empty segment list with `b < e`, the leaf chain lists the
distinct end points of the segments in strictly increasing order, and every non-leaf node of the
tree has a left child, the key of its leftmost descendant leaf as `low`, and as `high` the key
of the leaf after its rightmost descendant leaf, or that leaf's own key when it is the last leaf
of the chain. -/
theorem buildTree_leaves_ranges [DecidableEq H] (t : SegmentTree K H) (hne : t.segmentData ≠ [])
    (hsegs : ∀ data ∈ t.segmentData, data.beginKey < data.endKey) :
    t.buildTree.leaves.Sorted (· < ·) ∧
      (∀ key, key ∈ t.buildTree.leaves ↔
        ∃ data ∈ t.segmentData, key = data.beginKey ∨ key = data.endKey) ∧
      ∀ (id : Nat) (low high : K) (left right : NodePtr K),
        .nonleaf id low high left right ∈ subtrees t.buildTree.rootNode →
        left ≠ .null ∧ ∃ a c keyc,
          (descendantLeaves (.nonleaf id low high left right)).head? = some (a, low) ∧
          (descendantLeaves (.nonleaf id low high left right)).getLast? = some (c, keyc) ∧
          (t.buildTree.leaves[c + 1]? = some high ∨
            c + 1 = t.buildTree.leaves.length ∧ high = keyc) := by
  obtain ⟨htwo, hleaves, hroot⟩ := buildTree_eq_keysUniq t hne hsegs
  rw [hleaves, hroot]
  refine ⟨keysUniq_sorted _, fun _ => mem_keysUniq, fun id low high left right hmem => ?_⟩
  obtain ⟨lvl, hspans⟩ := spans_buildTree htwo
  obtain ⟨_, a, c, hnode⟩ := hspans.spans_of_mem_subtrees _ hmem
  obtain ⟨hleft, keyc, hhead, hlast, hhigh⟩ := hnode.nonleaf_range
  exact ⟨hleft, a, c, keyc, hhead, hlast, hhigh⟩

/-- `buildTree_leaves_ranges` on the spec's stabbing segments. -/
theorem buildTree_leaves_ranges_stabbing :
    stabbingSegments.segmentData ≠ [] ∧
      (∀ data ∈ stabbingSegments.segmentData, data.beginKey < data.endKey) ∧
      (stabbingSegments.buildTree.leaves.Sorted (· < ·) ∧
        (∀ key, key ∈ stabbingSegments.buildTree.leaves ↔
          ∃ data ∈ stabbingSegments.segmentData, key = data.beginKey ∨ key = data.endKey) ∧
        ∀ (id : Nat) (low high : Nat) (left right : NodePtr Nat),
          .nonleaf id low high left right ∈ subtrees stabbingSegments.buildTree.rootNode →
          left ≠ .null ∧ ∃ a c keyc,
            (descendantLeaves (.nonleaf id low high left right)).head? = some (a, low) ∧
            (descendantLeaves (.nonleaf id low high left right)).getLast? = some (c, keyc) ∧
            (stabbingSegments.buildTree.leaves[c + 1]? = some high ∨
              c + 1 = stabbingSegments.buildTree.leaves.length ∧ high = keyc)) :=
  ⟨by decide, by decide, buildTree_leaves_ranges stabbingSegments (by decide) (by decide)⟩

example : stabbingSegments.buildTree.leaves = [0, 5, 10, 12, 15, 20] := by decide

end Mdds.SegmentTree

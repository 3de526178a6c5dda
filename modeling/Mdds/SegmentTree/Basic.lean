import Mdds.SegmentTree.Node

/-!
# The segment tree: insert, build, remove and search

`segment_tree` of `segmenttree.hpp` as a state record, `SegmentTree`, and its public operations as
functions on it. `insert` appends to the segment list and invalidates the tree. `buildTree` builds
the leaf chain over the distinct end points (`keysUniq`, `createLeafNodeInstances`), the balanced
tree over it (`Mdds.buildTree`), and tags the nodes of every segment in order with
`descendTreeAndMark`, recording in the tagged-node map which nodes carry each handle. `remove`
takes a handle off the nodes recorded for it. `search` walks one path of the tree with
`descendTreeForSearch`.

The data chain of a leaf and the label list of a non-leaf node are one function `chains` on
`NodeRef`; a null chain pointer is the empty list. The assertions of `descend_tree_for_search` are
evaluated when the flag `ndebug` is false, as a build without `NDEBUG` does, and skipped when it is
true; a null dereference, a failed assertion and a leaf field read from a non-leaf node are the
faults of `SearchFault`.

The spec's stabbing scenario is `stabbingScenario`. On it the code misses segment `B` at key 10
(`search_stabbingScenario_ten`) and, in a build with assertions, dereferences a null right child
at key 15 (`search_stabbingScenario_fifteen_debug`). `search_removeScenario` shows a handle
removed with `remove` coming back after the next `build_tree`.
-/

set_option autoImplicit false
set_option relaxedAutoImplicit false

namespace Mdds

/-- Equality of outcomes that may fail is decidable, so that a run on a concrete input can be
checked by `decide`. -/
instance instDecidableEqExcept {ε α : Type} [DecidableEq ε] [DecidableEq α] :
    DecidableEq (Except ε α)
  | .error a, .error b => decidable_of_iff (a = b) (by simp)
  | .ok a, .ok b => decidable_of_iff (a = b) (by simp)
  | .error _, .ok _ => isFalse (by simp)
  | .ok _, .error _ => isFalse (by simp)

namespace SegmentTree

/-- `segment_tree::segment_data`: one inserted segment `[beginKey, endKey)` and its handle. -/
structure SegmentData (K H : Type) where
  beginKey : K
  endKey : K
  pdata : H
  deriving DecidableEq, Repr

end SegmentTree

open SegmentTree

/-- The state of a `segment_tree`: its segment list, the tagged-node map, the tree and the leaf
chain, the data chains and label lists of the tree's nodes, and the validity flag. -/
structure SegmentTree (K H : Type) where
  /-- `m_segment_data`, in insertion order. -/
  segmentData : List (SegmentData K H)
  /-- `m_tagged_node_map`: the nodes tagged with each handle, in tagging order. -/
  taggedNodeMap : H → List NodeRef
  /-- `m_root_node`. -/
  rootNode : NodePtr K
  /-- The keys of the leaf chain from `m_left_leaf` to `m_right_leaf`. -/
  leaves : List K
  /-- The data chain of every leaf and the label list of every non-leaf node. -/
  chains : NodeRef → List H
  /-- `m_valid_tree`. -/
  validTree : Bool

namespace SegmentTree

variable {K H : Type}

/-! ### Building the leaf chain and tagging the tree -/

section Build

variable [LinearOrder K] [DecidableEq H]

/-- The first pass of `build_leaf_nodes`: both end points of every segment, sorted, with adjacent
duplicates removed (`std::sort`, then `std::unique`). -/
def keysUniq (segments : List (SegmentData K H)) : List K :=
  ((segments.flatMap fun data ↦ [data.beginKey, data.endKey]).insertionSort (· ≤ ·)).destutter
    (· ≠ ·)

/-- `create_leaf_node_instances`: the leaf chain over `keys`; with fewer than two keys the chain
`current` is left as it is. -/
def createLeafNodeInstances (keys current : List K) : List K :=
  if keys.length < 2 then current else keys

/-- Append handle `pdata` to the chain of node `node`. -/
def pushBack (chains : NodeRef → List H) (node : NodeRef) (pdata : H) : NodeRef → List H :=
  Function.update chains node (chains node ++ [pdata])

/-- `descend_tree_and_mark`: tag the nodes of segment `data` below a node, appending each tagged
node to the node list `plist`. A leaf at the begin key is tagged; a leaf at the end key tags the
leaf before it unless that leaf sits at the begin key; a non-leaf node whose range lies in
`[begin_key, end_key)` with `high < end_key` is labelled and the descent stops there. -/
def descendTreeAndMark (leaves : List K) (data : SegmentData K H) :
    NodePtr K → (NodeRef → List H) × List NodeRef → (NodeRef → List H) × List NodeRef
  | .null, acc => acc
  | .leaf index key, (chains, plist) =>
    if key = data.beginKey then
      (pushBack chains (.leaf index) data.pdata, plist ++ [.leaf index])
    else if key = data.endKey then
      match index with
      | 0 => (chains, plist)
      | prev + 1 =>
        match leaves[prev]? with
        | some prevKey =>
          if prevKey ≠ data.beginKey then
            (pushBack chains (.leaf prev) data.pdata, plist ++ [.leaf prev])
          else (chains, plist)
        | none => (chains, plist)
    else (chains, plist)
  | .nonleaf id low high left right, (chains, plist) =>
    if data.endKey < low ∨ high ≤ data.beginKey then (chains, plist)
    else if data.beginKey ≤ low ∧ high < data.endKey then
      (pushBack chains (.nonleaf id) data.pdata, plist ++ [.nonleaf id])
    else
      descendTreeAndMark leaves data right (descendTreeAndMark leaves data left (chains, plist))

/-- The loop of `build_tree` over `m_segment_data`: each segment is tagged from the root, and the
node list of its handle, shared by every segment of that handle, grows in the map. -/
def markSegments (leaves : List K) (root : NodePtr K) :
    List (SegmentData K H) → (NodeRef → List H) × (H → List NodeRef) →
      (NodeRef → List H) × (H → List NodeRef)
  | [], acc => acc
  | data :: rest, (chains, map) =>
    let marked := descendTreeAndMark leaves data root (chains, map data.pdata)
    markSegments leaves root rest (marked.1, Function.update map data.pdata marked.2)

end Build

/-! ### The public operations -/

/-- A `segment_tree` as its constructor leaves it. -/
def empty : SegmentTree K H where
  segmentData := []
  taggedNodeMap := fun _ ↦ []
  rootNode := .null
  leaves := []
  chains := fun _ ↦ []
  validTree := false

/-- `segment_tree::insert`: a segment with `begin_key ≥ end_key` is dropped; any other is appended
to the segment list and the tree is marked invalid. -/
def insert [LinearOrder K] (t : SegmentTree K H) (beginKey endKey : K) (pdata : H) :
    SegmentTree K H :=
  if endKey ≤ beginKey then t
  else { t with segmentData := t.segmentData ++ [⟨beginKey, endKey, pdata⟩], validTree := false }

/-- `segment_tree::build_tree`: a fresh leaf chain and tree, every segment tagged on it, the new
tagged-node map, and the tree marked valid. -/
def buildTree [LinearOrder K] [Inhabited K] [DecidableEq H] (t : SegmentTree K H) :
    SegmentTree K H :=
  let leaves := createLeafNodeInstances (keysUniq t.segmentData) t.leaves
  let root := Mdds.buildTree leaves
  let marked := markSegments leaves root t.segmentData (fun _ ↦ [], fun _ ↦ [])
  { t with leaves := leaves, rootNode := root, chains := marked.1, taggedNodeMap := marked.2,
           validTree := true }

/-- `segment_tree::remove_data_from_nodes`: every occurrence of `pdata` is taken off the chain of
each node of `plist`. -/
def removeDataFromNodes [DecidableEq H] (plist : List NodeRef) (pdata : H)
    (chains : NodeRef → List H) : NodeRef → List H :=
  plist.foldl (fun chains node ↦ Function.update chains node ((chains node).filter (· != pdata)))
    chains

/-- `segment_tree::remove`: the handle is taken off the nodes the tagged-node map records for it.
Neither the segment list nor the validity flag changes. -/
def remove [DecidableEq H] (t : SegmentTree K H) (pdata : H) : SegmentTree K H :=
  { t with chains := removeDataFromNodes (t.taggedNodeMap pdata) pdata t.chains }

/-! ### Search -/

/-- What can go wrong in `descend_tree_for_search` on a malformed tree: a null pointer
dereferenced, an `assert` that fails, or a leaf's field read from a non-leaf node. -/
inductive SearchFault
  | nullDereference
  | assertionFailure
  | wrongNodeKind
  deriving DecidableEq, Repr

/-- `assert(pchild->is_leaf == pnode->right->is_leaf)` (line 548), skipped when `ndebug`. -/
def assertSameKind (ndebug : Bool) (left right : NodePtr K) : Except SearchFault Unit :=
  if ndebug then pure ()
  else
    match left, right with
    | .null, _ => throw .nullDereference
    | _, .null => throw .nullDereference
    | .leaf _ _, .leaf _ _ => pure ()
    | .nonleaf _ _ _ _ _, .nonleaf _ _ _ _ _ => pure ()
    | _, _ => throw .assertionFailure

/-- `assert(pchild->value_nonleaf.low <= point && point < pchild->value_nonleaf.high)`
(line 576), skipped when `ndebug`. -/
def assertInRange [LinearOrder K] (ndebug : Bool) (point : K) (child : NodePtr K) :
    Except SearchFault Unit :=
  if ndebug then pure ()
  else
    match child with
    | .null => throw .nullDereference
    | .leaf _ _ => throw .wrongNodeKind
    | .nonleaf _ low high _ _ => if low ≤ point ∧ point < high then pure () else throw .assertionFailure

/-- `descend_tree_for_search`: the labels of a non-leaf node whose range holds `point`, then the
result of one child, the right one when `point` has reached its lower bound; the data chain of a
leaf. -/
def descendTreeForSearch [LinearOrder K] (ndebug : Bool) (point : K) (chains : NodeRef → List H) :
    NodePtr K → Except SearchFault (List H)
  | .null => .ok []
  | .leaf index _ => .ok (chains (.leaf index))
  | .nonleaf id low high left right =>
    if point < low ∨ high ≤ point then .ok []
    else do
      assertSameKind ndebug left right
      let labels := chains (.nonleaf id)
      match left, right with
      | .null, _ => throw .nullDereference
      | .leaf _ _, .null => throw .nullDereference
      | .leaf _ _, .nonleaf _ _ _ _ _ => throw .wrongNodeKind
      | .leaf _ leftKey, .leaf _ rightKey =>
        if point < leftKey then pure labels
        else if rightKey ≤ point then
          (labels ++ ·) <$> descendTreeForSearch ndebug point chains right
        else (labels ++ ·) <$> descendTreeForSearch ndebug point chains left
      | .nonleaf _ leftLow leftHigh _ _, _ =>
        if point < leftLow then pure labels
        else if leftHigh ≤ point then do
          assertInRange ndebug point right
          (labels ++ ·) <$> descendTreeForSearch ndebug point chains right
        else do
          assertInRange ndebug point left
          (labels ++ ·) <$> descendTreeForSearch ndebug point chains left

/-- `segment_tree::search`: `none` (the code's `false`) when the tree is invalid or absent,
otherwise the chain collected from the root. -/
def search [LinearOrder K] (t : SegmentTree K H) (ndebug : Bool) (point : K) :
    Except SearchFault (Option (List H)) :=
  if t.validTree then
    match t.rootNode with
    | .null => .ok none
    | root => some <$> descendTreeForSearch ndebug point t.chains root
  else .ok none

/-! ### The spec's scenarios -/

/-- The segments of the spec's stabbing scenario: `(0,10,A)`, `(5,15,B)`, `(12,20,C)`. -/
def stabbingSegments : SegmentTree Nat Char :=
  ((empty.insert 0 10 'A').insert 5 15 'B').insert 12 20 'C'

/-- The stabbing scenario of the spec: its segments, then `build_tree()`. -/
def stabbingScenario : SegmentTree Nat Char :=
  stabbingSegments.buildTree

/-- At key 10 the search returns an empty chain, although `[5, 15)` of handle `B` holds 10: no node
on the path to leaf 10 carries `B`. -/
theorem search_stabbingScenario_ten (ndebug : Bool) :
    stabbingScenario.search ndebug 10 = .ok (some []) := by
  cases ndebug <;> decide

/-- With assertions enabled, the search at key 15 dereferences the absent right child of the
single-child node over `[15, 20)` in the assertion of line 548. -/
theorem search_stabbingScenario_fifteen_debug :
    stabbingScenario.search false 15 = .error .nullDereference := by
  decide

/-- The removal scenario: `(0,10,A)` inserted, `build_tree()`, `remove(A)`, `build_tree()`. -/
def removeScenario : SegmentTree Nat Char :=
  (((empty.insert 0 10 'A').buildTree).remove 'A').buildTree

/-- After `remove(A)` and a rebuild, the search at key 5 returns `A` again. -/
theorem search_removeScenario (ndebug : Bool) :
    removeScenario.search ndebug 5 = .ok (some ['A']) := by
  cases ndebug <;> decide

end SegmentTree

end Mdds

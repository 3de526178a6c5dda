import Mathlib.Data.List.Sort
import Mathlib.Data.List.Destutter

/-!
# Segment tree nodes and the balanced build

`segmenttree.hpp` keeps its tree as linked `node` objects: leaf nodes chained left to right by
their horizontal links, and non-leaf nodes holding a range `[low, high)` and two child links.
Here a node pointer is `NodePtr`, with the null pointer as a constructor of its own, so that every
dereference the code makes is a case of a match. A leaf carries its position in the leaf chain,
which stands for its horizontal links: the leaf before leaf `index` is leaf `index - 1` and the
leaf after it is leaf `index + 1` of the chain `leaves`. Non-leaf nodes carry the number the build
gives them in creation order. `NodeRef` is what the tagged-node map records of a node.

`fillNonleafValue` is `node::fill_nonleaf_value`: the range a parent takes from its children,
including the two cases the build needs for a parent with no right child.

The tree over the leaf chain is built by `::mdds::build_tree` of `node.hpp`, which is not among
the repository's files. `buildTree` models it from the spec: the leaves are paired left to right,
the last node of an odd level gets a parent of its own with no right child, and the pairing is
repeated on the parents until one node is left. `pairNodes` is one level of that pairing and
`buildTreeNonLeaf` the repetition, run on a fuel that `buildTreeNonLeaf_succ_fuel` shows is never
short.
-/

set_option autoImplicit false
set_option relaxedAutoImplicit false

namespace Mdds.SegmentTree

/-- A node as the tagged-node map records it: a leaf by its position in the leaf chain, a non-leaf
node by its creation number. -/
inductive NodeRef where
  | leaf (index : Nat)
  | nonleaf (id : Nat)
  deriving DecidableEq, Repr

/-- A `node_base_ptr` to a segment tree `node`, or the null pointer. -/
inductive NodePtr (K : Type) where
  | null
  | leaf (index : Nat) (key : K)
  | nonleaf (id : Nat) (low high : K) (left right : NodePtr K)
  deriving DecidableEq, Repr

variable {K : Type}

/-- The upper bound a parent takes from its right child: the key of the leaf after a right leaf
(the leaf's own key when it is the last one), the upper bound of a right non-leaf node, and
`fallback` when there is no right child. -/
def rightHigh (leaves : List K) (fallback : K) : NodePtr K → K
  | .null => fallback
  | .leaf index key => leaves[index + 1]?.getD key
  | .nonleaf _ _ high _ _ => high

/-- `node::fill_nonleaf_value`: the range `[low, high)` of a non-leaf node with children `left`
and `right`, `leaves` being the leaf chain that `right_node->right` walks. Without a left child
the node keeps its current range `range`. -/
def fillNonleafValue (leaves : List K) (range : K × K) (left right : NodePtr K) : K × K :=
  match left with
  | .null => range
  | .leaf _ key => (key, rightHigh leaves key right)
  | .nonleaf _ low high _ _ => (low, rightHigh leaves high right)

/-- The leaf nodes of the chain `leaves`, numbered from `index`. -/
def leafNodes (index : Nat) : List K → List (NodePtr K)
  | [] => []
  | key :: keys => .leaf index key :: leafNodes (index + 1) keys

@[simp] theorem length_leafNodes (index : Nat) (keys : List K) :
    (leafNodes index keys).length = keys.length := by
  induction keys generalizing index with
  | nil => rfl
  | cons key keys ih => simp [leafNodes, ih]

end Mdds.SegmentTree

/-! ### The generic build of `node.hpp` -/

namespace Mdds

open SegmentTree

variable {K : Type} [Inhabited K]

/-- Modelled from the spec: `make_parent_node` of `node.hpp` (not in the repository). A fresh
non-leaf node with children `left` and `right`, numbered `id`, whose range is filled by
`fill_nonleaf_value`; the range of a node without a left child stays unset (`default`). -/
def makeParentNode (leaves : List K) (id : Nat) (left right : NodePtr K) : NodePtr K :=
  let range := fillNonleafValue leaves (default, default) left right
  .nonleaf id range.1 range.2 left right

/-- Modelled from the spec: one level of the bottom-up pairing of `node.hpp`'s `build_tree`.
Consecutive nodes are paired left to right and the last node of an odd level gets a parent with
no right child; the parents are numbered from `id`. -/
def pairNodes (leaves : List K) (id : Nat) : List (NodePtr K) → List (NodePtr K)
  | [] => []
  | [node] => [makeParentNode leaves id node .null]
  | left :: right :: rest => makeParentNode leaves id left right :: pairNodes leaves (id + 1) rest

/-- Modelled from the spec: `build_tree_non_leaf` of `node.hpp`. A level of one node is the root,
an empty level gives the null pointer, and any other level is paired again. The first argument is
fuel; `buildTreeNonLeaf_succ_fuel` shows that a level's length is always enough. -/
def buildTreeNonLeaf (leaves : List K) : Nat → Nat → List (NodePtr K) → NodePtr K
  | _, _, [] => .null
  | _, _, [node] => node
  | 0, _, _ :: _ :: _ => .null
  | fuel + 1, id, nodes@(_ :: _ :: _) =>
    buildTreeNonLeaf leaves fuel (id + (pairNodes leaves id nodes).length)
      (pairNodes leaves id nodes)

/-- Modelled from the spec: `::mdds::build_tree` of `node.hpp`, the balanced tree over the leaf
chain `leaves`. The leaf level is paired first, as the code's first loop does, and the parents
are handed to `build_tree_non_leaf`. -/
def buildTree (leaves : List K) : NodePtr K :=
  buildTreeNonLeaf leaves leaves.length (pairNodes leaves 0 (leafNodes 0 leaves)).length
    (pairNodes leaves 0 (leafNodes 0 leaves))

/-! ### Lengths and fuel -/

/-- Pairing halves a level, rounding up. -/
theorem length_pairNodes (leaves : List K) :
    ∀ (id : Nat) (nodes : List (NodePtr K)),
      (pairNodes leaves id nodes).length = (nodes.length + 1) / 2
  | _, [] => by simp [pairNodes]
  | _, [_] => by simp [pairNodes]
  | id, _ :: _ :: rest => by
    simp only [pairNodes, List.length_cons, length_pairNodes leaves (id + 1) rest]
    omega

/-- Fuel beyond a level's length changes nothing: the pairing never needs more rounds than the
level has nodes. -/
theorem buildTreeNonLeaf_succ_fuel (leaves : List K) :
    ∀ (fuel id : Nat) (nodes : List (NodePtr K)), nodes.length ≤ fuel →
      buildTreeNonLeaf leaves (fuel + 1) id nodes = buildTreeNonLeaf leaves fuel id nodes
  | _, _, [], _ => by simp only [buildTreeNonLeaf]
  | _, _, [_], _ => by simp only [buildTreeNonLeaf]
  | 0, _, _ :: _ :: _, hfuel => by simp at hfuel
  | fuel + 1, id, left :: right :: rest, hfuel => by
    have hlen := length_pairNodes leaves id (left :: right :: rest)
    simp only [List.length_cons] at hfuel hlen
    rw [buildTreeNonLeaf, buildTreeNonLeaf]
    exact buildTreeNonLeaf_succ_fuel leaves fuel _ _ (by omega)

end Mdds

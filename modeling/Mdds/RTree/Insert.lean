import Mdds.RTree.Split

/-!
# Insertion

`rtree::insert` finds a leaf directory with `find_node_for_insertion`, pushes the value node onto
it, and then either enlarges the leaf's box and every ancestor's by walking `parent` pointers up to
the root, or, when the leaf overflows, calls `split_node`. A split of a non-root node places the
new sibling under the same parent, repacks the parent and then splits it in turn, or, when its box
changed, walks `pack_upward` to the root. A split of the root makes a new non-leaf root over the
two halves.

The model runs the descent as a recursion on the tree and hands the upward walks back as the
recursion returns: `Inserted` is what one level passes to its parent. `insertDescend` is
`find_node_for_insertion` followed by the insertion, `absorb` is what a non-leaf directory on the
path does with what its child passed up, and `placeRootSplit` is the root branch of `split_node`.
Every step up the tree follows the child's `parent` pointer, so that `absorb` checks it.

`chooseSubtree` is the pick loop of `find_node_for_insertion` at a non-leaf directory: by overlap
cost, area enlargement and area when some child is a leaf directory, by area enlargement and area
otherwise (`pickChild`).

The non-root branch of `split_node` keeps using `ns`, a pointer into the parent's child vector,
after `emplace_back` on that vector. A push onto a full vector reallocates it, and `ns` then
dangles: `absorb` gives `Failure.undefinedBehavior` there. With libstdc++'s growth a new root's
child vector has capacity `2`, so that the first split of one of its children reallocates it
(`insertAll_reallocates`).
-/

set_option autoImplicit false
set_option relaxedAutoImplicit false

namespace Mdds.RTree

open NodeStore BoundingBox

variable {K V : Type} {D : Nat}

/-! ### The choice of subtree -/

section Choice

variable [LinearOrderedCommRing K] [NeZero D]

/-- `rtree::calc_overlap_cost`: the volume `bb` shares with the boxes of a directory's
children. -/
def calcOverlapCost (bb : BoundingBox K D) (children : List (NodeStore K V D)) : K :=
  children.foldl (fun cost ns => cost + calcIntersection ns.box bb) 0

/-- Whether some cost is below the least one at its place, tested in the order of the code's
`else if` chain. -/
def anyLess : List K → List K → Bool
  | cost :: costs, least :: leasts => decide (cost < least) || anyLess costs leasts
  | _, _ => false

/-- The pick loop of `find_node_for_insertion` over the children's costs, child `index` on: the
first child is taken, and a later one replaces the pick when one of its costs is below the pick's
at the same place. `none` when there is no child, which leaves the code holding a null pointer. -/
def pickChild : Option (Nat × List K) → Nat → List (List K) → Option Nat
  | best, _, [] => best.map Prod.fst
  | none, index, costs :: rest => pickChild (some (index, costs)) (index + 1) rest
  | some (pos, least), index, costs :: rest =>
    if anyLess costs least then pickChild (some (index, costs)) (index + 1) rest
    else pickChild (some (pos, least)) (index + 1) rest

/-- The costs `find_node_for_insertion` weighs for a child when some child is a leaf directory:
the overlap it would add, its area enlargement and its area. The code reads the child as a
directory; a value node there is undefined behaviour. -/
def leafChoiceCosts (bb : BoundingBox K D) : NodeStore K V D → Except Failure (List K)
  | .directory _ box _ _ _ children _ =>
    pure [calcOverlapCost bb children, calcAreaEnlargement box bb, calcArea box]
  | .value .. => throw .undefinedBehavior

/-- The pick of `find_node_for_insertion` at a non-leaf directory with these children. -/
def chooseSubtree (bb : BoundingBox K D) (children : List (NodeStore K V D)) :
    Except Failure (Option Nat) :=
  if children.any isLeafDirectory then do
    pure (pickChild none 0 (← children.mapM (leafChoiceCosts bb)))
  else
    pure (pickChild none 0
      (children.map fun ns => [calcAreaEnlargement ns.box bb, calcArea ns.box]))

end Choice

/-! ### The insertion path -/

/-- What one level of an insertion passes to the level above. -/
inductive Inserted (K V : Type) (D : Nat) where
  /-- No split: the node after the insertion, and the leaf's new box, which every ancestor is
  enlarged by. -/
  | enlarged (node : NodeStore K V D) (leafBox : BoundingBox K D)
  /-- A split was absorbed at or below this node: the node, and whether its last `pack` changed
  its box, in which case `pack_upward` goes on to its parent. -/
  | packed (node : NodeStore K V D) (changed : Bool)
  /-- The node split: it keeps group 1 and the new sibling holds group 2. -/
  | split (group1 group2 : NodeStore K V D)

/-- The exception `find_node_for_insertion` throws when the descent reaches `max_tree_depth`. -/
def maxDepthReached : Failure := .runtimeError "Maximum tree depth has been reached."

section Path

variable [LinearOrderedCommRing K] [NeZero D] (tr : Trait) (growth : VectorGrowth)

/-- `rtree::insert(node_store&&)` at the leaf directory `find_node_for_insertion` returned, with
these fields: the value node `ns` is linked to it and pushed onto its children, the count goes up,
and the leaf splits when it exceeds `max_node_size`; otherwise it takes the value's box in, or
takes it over when it was empty. -/
def insertIntoLeaf (ns : NodeStore K V D) (box : BoundingBox K D) (count : Nat)
    (valid linked : Bool) (children : List (NodeStore K V D)) (capacity : Nat) :
    Except Failure (Inserted K V D) :=
  if tr.maxNodeSize < count + 1 then do
    let (group1, group2) ← splitNode tr growth .leaf box (count + 1) valid linked
      (children ++ [ns.setLinked true]) (growth.push children.length capacity)
    pure (.split group1 group2)
  else
    let box' := if count + 1 = 1 then ns.box else box ⊔ ns.box
    pure (.enlarged (.directory .leaf box' (count + 1) valid linked
      (children ++ [ns.setLinked true]) (growth.push children.length capacity)) box')

/-- What the non-leaf directory with these fields, on the insertion path through child `index`,
does with what that child passed up. The code reaches it through the child's `parent` pointer.
An enlargement enlarges it, after `assert(dir_ns->count > 0)`. A repacked child makes it repack
when the child's box changed. A split child's sibling is placed after its children, and the
directory repacks, resets the pointers of the two halves and splits in turn when it now holds more
than `max_node_size` children. -/
def absorb (box : BoundingBox K D) (count : Nat) (valid linked : Bool)
    (children : List (NodeStore K V D)) (capacity index : Nat) :
    Inserted K V D → Except Failure (Inserted K V D)
  | .enlarged child leafBox => do
    if !child.linked then throw .staleParent
    if count = 0 then throw .assertionFailure
    pure (.enlarged (.directory .nonleaf (box ⊔ leafBox) count valid linked
      (children.set index child) capacity) leafBox)
  | .packed child changed =>
    if changed then do
      if !child.linked then throw .staleParent
      pure (.packed (.directory .nonleaf (packedBox (children.set index child)) count valid
        linked (children.set index child) capacity)
        (decide (packedBox (children.set index child) ≠ box)))
    else
      pure (.packed (.directory .nonleaf box count valid linked (children.set index child) capacity)
        false)
  | .split group1 group2 => do
    if !group1.linked then throw .staleParent
    if capacity ≤ children.length then throw .undefinedBehavior
    let placed := children.set index group1 ++ [(group2.setLinked true).moved]
    let reset := children.set index (group1.setValidPointer false).resetParentPointers ++
      [(group2.setLinked true).moved.resetParentPointers]
    if tr.maxNodeSize < count + 1 then do
      let (half1, half2) ← splitNode tr growth .nonleaf (packedBox placed) (count + 1) valid
        linked reset capacity
      pure (.split half1 half2)
    else
      pure (.packed (.directory .nonleaf (packedBox placed) (count + 1) valid linked reset capacity)
        (decide (packedBox placed ≠ box)))

mutual

/-- `find_node_for_insertion` from a node at `depth`, followed by the insertion of the value node
`ns`. The descent throws once it reaches `max_tree_depth`; a value node on the way fails the
code's `assert`, and a non-leaf directory without children leaves it a null pointer to read at
the next depth. -/
def insertDescend (ns : NodeStore K V D) (depth : Nat) :
    NodeStore K V D → Except Failure (Inserted K V D)
  | .directory .leaf box count valid linked children capacity =>
    if tr.maxTreeDepth ≤ depth then throw maxDepthReached
    else insertIntoLeaf tr growth ns box count valid linked children capacity
  | .directory .nonleaf box count valid linked children capacity =>
    if tr.maxTreeDepth ≤ depth then throw maxDepthReached
    else do
      match ← chooseSubtree ns.box children with
      | none =>
        throw (if tr.maxTreeDepth ≤ depth + 1 then maxDepthReached else .undefinedBehavior)
      | some index =>
        absorb tr growth box count valid linked children capacity index
          (← insertAt ns (depth + 1) index children)
  | .value .. =>
    if tr.maxTreeDepth ≤ depth then throw maxDepthReached else throw .assertionFailure

/-- `insertDescend` into child `index` of a child vector. -/
def insertAt (ns : NodeStore K V D) (depth : Nat) :
    Nat → List (NodeStore K V D) → Except Failure (Inserted K V D)
  | _, [] => throw .undefinedBehavior
  | 0, child :: _ => insertDescend ns depth child
  | index + 1, _ :: rest => insertAt ns depth index rest

end

/-- The root branch of `split_node`: a new non-leaf root, with `valid_pointer` clear, over the two
halves. Both are linked to the root and moved into its fresh vector, the root is packed, and each
half's pointers are reset. -/
def placeRootSplit (group1 group2 : NodeStore K V D) : NodeStore K V D :=
  .directory .nonleaf (packedBox [(group1.setLinked true).moved, (group2.setLinked true).moved]) 2
    false true [(group1.setLinked true).moved.resetParentPointers,
      (group2.setLinked true).moved.resetParentPointers] (growth.pushes 2)

/-- `rtree::insert(node_store&&)` from the root. -/
def insertNodeStore (root ns : NodeStore K V D) : Except Failure (NodeStore K V D) := do
  match ← insertDescend tr growth ns 0 root with
  | .enlarged node _ => pure node
  | .packed node _ => pure node
  | .split group1 group2 => pure (placeRootSplit growth group1 group2)

/-- `rtree::insert(start, end, value)`: a value node with the box from `start` to `end` and a null
`parent`, inserted from the root. The only exception, from the descent, leaves the tree as it
was. -/
def insert (root : NodeStore K V D) (start «end» : Point K D) (value : V) : Outcome K V D :=
  match insertNodeStore tr growth root (.value ⟨start, «end»⟩ false value) with
  | .ok tree => .returned tree
  | .error (.runtimeError what) => .threw what root
  | .error failure => .failed failure

/-- The calls `insert(start, end, value)` one after another from `root`, as long as each one
returns or throws. -/
def insertAll (root : NodeStore K V D) : List (Point K D × Point K D × V) → Outcome K V D
  | [] => .returned root
  | (start, «end», v) :: rest =>
    match insert tr growth root start «end» v with
    | .returned tree => insertAll tree rest
    | .threw _ tree => insertAll tree rest
    | .failed failure => .failed failure

end Path

/-- Four one-dimensional points inserted into an `rtree` with `min_node_size = 1` and
`max_node_size = 2`, under libstdc++'s growth. The third insert splits the root leaf and leaves a
root whose child vector holds its two children at capacity two. The fourth overfills the leaf of
keys `1` and `2`; its split pushes the new sibling onto that full vector, which reallocates, and
`split_node` then writes through the dangling `ns`. -/
theorem insertAll_reallocates :
    (insertAll ⟨1, 2, 100, by decide⟩ .libstdcxx (empty : NodeStore Int Nat 1)
      [(⟨fun _ => 0⟩, ⟨fun _ => 0⟩, 0), (⟨fun _ => 1⟩, ⟨fun _ => 1⟩, 1),
        (⟨fun _ => 2⟩, ⟨fun _ => 2⟩, 2),
        (⟨fun _ => 3⟩, ⟨fun _ => 3⟩, 3)]).failure? =
      some .undefinedBehavior := by
  decide

end Mdds.RTree

import Mdds.RTree.Node

/-!
# Splitting an overfull directory

`split_node` is the R*-tree split. `sort_dir_store_by_split_dimension` sorts the children along
each axis in turn and sums, over the distributions of `max_dist_size`, the half margins of the two
groups' bounding boxes; the axis with the least sum is the split axis
(`sortDirStoreBySplitDimension`). Along it `pick_optimal_distribution` takes the distribution
whose two groups overlap least (`pickOptimalDistribution`). `splitNode` is `split_node` up to
where it places the new sibling: the node keeps group 1 and a fresh directory of its type takes
group 2.

Sorting moves the children, so that their own children's `parent` pointers go stale, and clears
their `valid_pointer`; group 2 is moved once more into the sibling's fresh vector. The placement,
which resets those pointers, is in `Mdds.RTree.Insert`.

A group of a distribution that is empty, or that would reach past the end of the children, is
undefined behaviour in the code: `calc_bounding_box` dereferences the start of an empty range. For
a trait with `min_node_size ≥ 1` and `max_node_size + 1` children every group has between
`min_node_size` and `max_node_size - min_node_size + 1` children. With `min_node_size = 0` the first
distribution's group 1 is empty.

Scope. `std::sort` leaves the order of children it finds equivalent open; the model keeps their
order (`List.insertionSort` is stable). Children are equivalent when their boxes have the same
start and end along the axis.
-/

set_option autoImplicit false
set_option relaxedAutoImplicit false

namespace Mdds.RTree

open NodeStore BoundingBox

variable {K V : Type} {D : Nat}

section Sorting

variable [LinearOrder K]

/-- The comparison `sort_dir_store_by_dimension` sorts with: by `start` along `dim`, then by
`end`. -/
def boxLess (dim : Fin D) (a b : NodeStore K V D) : Bool :=
  if a.box.start.d dim ≠ b.box.start.d dim then decide (a.box.start.d dim < b.box.start.d dim)
  else decide (a.box.«end».d dim < b.box.«end».d dim)

/-- `rtree::sort_dir_store_by_dimension`: the children sorted along `dim`, each one moved and its
`valid_pointer` cleared. -/
def sortDirStoreByDimension (dim : Fin D) (children : List (NodeStore K V D)) :
    List (NodeStore K V D) :=
  (children.insertionSort (fun a b => boxLess dim b a = false)).map
    fun ns => ns.moved.setValidPointer false

end Sorting

/-- Modelled from the spec: `distribution(dist, children)`, group 1 the first
`min_node_size - 1 + dist` children and group 2 the rest. For `dist ≥ 1` the code's `size_t`
arithmetic gives `min_node_size + dist - 1` also when `min_node_size = 0`. -/
def distribution (tr : Trait) (dist : Nat) (children : List (NodeStore K V D)) :
    List (NodeStore K V D) × List (NodeStore K V D) :=
  (children.take (tr.minNodeSize + dist - 1), children.drop (tr.minNodeSize + dist - 1))

section Measures

variable [LinearOrderedCommRing K] [NeZero D]

/-- The inner loop of `sort_dir_store_by_split_dimension` for one axis: over the distributions,
the sum of the half margins of the two groups' bounding boxes. `std::advance` past the end and an
empty group 1 are undefined behaviour, and an empty group 2 fails `assert(it != it_end)`. -/
def sumOfMargins (tr : Trait) (children : List (NodeStore K V D)) : Except Failure K :=
  (List.range' 1 tr.maxDistSize).foldlM (fun sum dist => do
      if children.length < tr.minNodeSize + dist - 1 then throw .undefinedBehavior
      let some bb1 := calcBoundingBox (distribution tr dist children).1
        | throw .undefinedBehavior
      if children.length = tr.minNodeSize + dist - 1 then throw .assertionFailure
      let some bb2 := calcBoundingBox (distribution tr dist children).2
        | throw .undefinedBehavior
      pure (sum + (calcHalfMargin bb1 + calcHalfMargin bb2)))
    0

/-- `rtree::sort_dir_store_by_split_dimension`: the children sorted along each axis in turn, the
axis with the least sum of margins kept in a `min_value_pos`, and the children sorted along it.
The position it keeps is an axis below `D`. -/
def sortDirStoreBySplitDimension (tr : Trait) (children : List (NodeStore K V D)) :
    Except Failure (List (NodeStore K V D)) := do
  let (sorted, minMarginDim) ← (List.finRange D).foldlM
    (fun (acc : List (NodeStore K V D) × MinValuePos K) dim => do
      let sorted := sortDirStoreByDimension dim acc.1
      let sum ← sumOfMargins tr sorted
      pure (sorted, acc.2.assign sum dim.val))
    (children, MinValuePos.init)
  pure (sortDirStoreByDimension (Fin.ofNat' D minMarginDim.pos) sorted)

/-- `rtree::pick_optimal_distribution`: the distribution whose groups' bounding boxes share the
least volume, the first one on a tie. -/
def pickOptimalDistribution (tr : Trait) (children : List (NodeStore K V D)) :
    Except Failure Nat := do
  let minOverlapDist ← (List.range' 1 tr.maxDistSize).foldlM (fun (m : MinValuePos K) dist => do
      if children.length < tr.minNodeSize + dist - 1 then throw .undefinedBehavior
      let some bb1 := calcBoundingBox (distribution tr dist children).1
        | throw .undefinedBehavior
      let some bb2 := calcBoundingBox (distribution tr dist children).2
        | throw .undefinedBehavior
      pure (m.assign (calcIntersection bb1 bb2) dist))
    MinValuePos.init
  pure minOverlapDist.pos

/-- `rtree::split_node` up to where it places the new sibling, on the directory with these
fields, which holds `max_node_size + 1` children. The children are sorted along the split axis,
group 2 is moved into a fresh directory of the same type, whose vector grows by one push per child,
and the directory keeps group 1. Both are packed. The sibling's `parent` pointer is still null. -/
def splitNode (tr : Trait) (growth : VectorGrowth) (type : DirType) (box : BoundingBox K D)
    (count : Nat) (valid linked : Bool) (children : List (NodeStore K V D)) (capacity : Nat) :
    Except Failure (NodeStore K V D × NodeStore K V D) := do
  if count ≠ tr.maxNodeSize + 1 then throw .assertionFailure
  let sorted ← sortDirStoreBySplitDimension tr children
  let dist ← pickOptimalDistribution tr sorted
  let group2 := (distribution tr dist sorted).2.map fun ns => (ns.moved).setLinked false
  let sibling := (NodeStore.directory type .zero group2.length false false group2
    (growth.pushes group2.length)).pack.1
  if sorted.length ≤ tr.minNodeSize + dist - 1 then throw .assertionFailure
  pure ((NodeStore.directory type box (tr.minNodeSize + dist - 1) valid linked
    (distribution tr dist sorted).1 capacity).pack.1, sibling)

end Measures

end Mdds.RTree

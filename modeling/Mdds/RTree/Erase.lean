import Mdds.RTree.Insert

/-!
# Erasure

`rtree::erase` takes a value node from a search result, reaches its leaf directory through the
value's `parent` pointer and removes it there. When the leaf is the root, or keeps at least
`min_node_size` children, `shrink_tree_upward` walks up from the leaf, repacking each node whose
boundary the erased box touched until a box stays the same. Otherwise the leaf is dissolved: its
remaining values become orphans, the leaf is removed from its parent, the parent's pointers are
reset and the parent is packed, and then, unless the parent now has fewer than `min_node_size`
children, in which case the code throws "TODO: reduce tree and perform re-insertion.", the orphans
are inserted again from the root, the last one first.

`Erased` is what one level of the erasure passes to the level above; `shrinkStep` is one call of
`shrink_tree_upward` on a node, and `absorbErased` what a directory does with what its child
passed up. `shrinkTreeUpward` is the walk on its own, from any node of the tree.

Scope. The iterator `erase` takes is modelled by the position of its value node. Removing a child
from a vector shifts the children after it, which moves them (`removeChild`). Counts are natural
numbers; the code's `size_t` count of a directory whose count is right never goes below zero.
-/

set_option autoImplicit false
set_option relaxedAutoImplicit false

namespace Mdds.RTree

open NodeStore BoundingBox

variable {K V : Type} {D : Nat}

/-- What one level of an erasure passes to the level above. -/
inductive Erased (K V : Type) (D : Nat) where
  /-- `shrink_tree_upward` goes on to the parent, with the box this node had before it was
  packed. -/
  | shrinking (node : NodeStore K V D) (affected : BoundingBox K D)
  /-- Nothing more happens above this node. -/
  | done (node : NodeStore K V D)
  /-- The erased value's leaf directory fell below `min_node_size` and is to be dissolved: its
  remaining values are the orphans. -/
  | dissolving (orphans : List (NodeStore K V D))
  /-- The dissolved leaf was removed from this node, which kept at least `min_node_size`
  children. -/
  | dissolved (node : NodeStore K V D) (orphans : List (NodeStore K V D))
  /-- The dissolved leaf was removed from this node, which is left with fewer than
  `min_node_size` children: the code throws. -/
  | underfull (node : NodeStore K V D)

/-- The message of the exception `erase` throws when a dissolve leaves the parent underfull. -/
def reduceTreeTodo : String := "TODO: reduce tree and perform re-insertion."

/-- `vector::erase` at `index`: the child there is removed, and the children after it are moved
one place down. -/
def removeChild (children : List (NodeStore K V D)) (index : Nat) : List (NodeStore K V D) :=
  children.take index ++ (children.drop (index + 1)).map moved

theorem length_removeChild {children : List (NodeStore K V D)} {index : Nat}
    (hindex : index < children.length) :
    (removeChild children index).length = children.length - 1 := by
  simp only [removeChild, List.length_append, List.length_take, List.length_map, List.length_drop]
  omega

/-- Moving the children after the removed one leaves their boxes alone. -/
@[simp] theorem map_box_removeChild (children : List (NodeStore K V D)) (index : Nat) :
    (removeChild children index).map box = (children.map box).eraseIdx index := by
  rw [removeChild, List.map_append, map_box_moved, List.eraseIdx_eq_take_drop_succ, List.map_take,
    List.map_drop]

section Walk

variable [LinearOrder K] [Zero K]

/-- One call of `rtree::shrink_tree_upward(ns, bb_affected)` on a node: nothing when
`bb_affected` does not touch the node's boundary, or when packing leaves its box as it was;
otherwise the packed node, and the box it had before, with which the walk goes on at the
parent. -/
def shrinkStep (ns : NodeStore K V D) (affected : BoundingBox K D) : Erased K V D :=
  if ns.box.ContainsAtBoundary affected then
    if ns.pack.2 then .shrinking ns.pack.1 ns.box else .done ns.pack.1
  else .done ns

variable (tr : Trait)

/-- What the directory with these fields does with what its child `index` passed up. The walk of
`shrink_tree_upward` reaches it through the child's `parent` pointer. A dissolving child is the
leaf: the code reaches this node through the leaf's `parent` pointer, removes the leaf, resets
the pointers, packs, and checks that enough children are left. Anything else only replaces the
child. -/
def absorbErased (type : DirType) (box : BoundingBox K D) (count : Nat) (valid linked : Bool)
    (children : List (NodeStore K V D)) (capacity index : Nat) :
    Erased K V D → Except Failure (Erased K V D)
  | .shrinking child affected => do
    if !child.linked then throw .staleParent
    pure (shrinkStep (.directory type box count valid linked (children.set index child) capacity)
      affected)
  | .done child =>
    pure (.done (.directory type box count valid linked (children.set index child) capacity))
  | .dissolving orphans => do
    let some leaf := children[index]? | throw .undefinedBehavior
    if !leaf.linked then throw .staleParent
    let node := (NodeStore.directory type box (count - 1) valid linked
      (removeChild children index) capacity).resetParentPointers.pack.1
    if (removeChild children index).length < tr.minNodeSize then pure (.underfull node)
    else pure (.dissolved node orphans)
  | .dissolved child orphans =>
    pure (.dissolved (.directory type box count valid linked (children.set index child) capacity)
      orphans)
  | .underfull child =>
    pure (.underfull (.directory type box count valid linked (children.set index child) capacity))

/-- `rtree::erase` at the directory holding the value node `children[index]`, with these fields.
The value is reached from the iterator, and the directory through the value's `parent` pointer,
which must be a leaf directory. The value is removed and the count checked; then the walk of
`shrink_tree_upward` starts here, unless the directory is not the root and fell below
`min_node_size`, when it is dissolved. -/
def eraseFromLeaf (isRoot : Bool) (type : DirType) (box : BoundingBox K D) (count : Nat)
    (valid linked : Bool) (children : List (NodeStore K V D)) (capacity index : Nat) :
    Except Failure (Erased K V D) := do
  match children[index]? with
  | none => throw .undefinedBehavior
  | some (.directory ..) => throw .assertionFailure
  | some (.value erasedBox valueLinked _) =>
    if !valueLinked then throw .staleParent
    if type ≠ .leaf then throw .assertionFailure
    if count ≠ (removeChild children index).length + 1 then throw .assertionFailure
    if isRoot || tr.minNodeSize ≤ (removeChild children index).length then
      pure (shrinkStep (.directory type box (count - 1) valid linked (removeChild children index)
        capacity) erasedBox)
    else pure (.dissolving (removeChild children index))

mutual

/-- The erasure of the value node at position `pos` under a node; `isRoot` says whether the node
is the root. A position that does not lead to a node of the tree is no iterator of it. -/
def eraseDescend (isRoot : Bool) : List Nat → NodeStore K V D → Except Failure (Erased K V D)
  | [index], .directory type box count valid linked children capacity =>
    eraseFromLeaf tr isRoot type box count valid linked children capacity index
  | index :: pos@(_ :: _), .directory type box count valid linked children capacity => do
    absorbErased tr type box count valid linked children capacity index
      (← eraseAt pos index children)
  | _, _ => throw .undefinedBehavior

/-- `eraseDescend` into child `index` of a child vector. -/
def eraseAt (pos : List Nat) : Nat → List (NodeStore K V D) → Except Failure (Erased K V D)
  | _, [] => throw .undefinedBehavior
  | 0, child :: _ => eraseDescend false pos child
  | index + 1, _ :: rest => eraseAt pos index rest

end

mutual

/-- `shrink_tree_upward(ns, bb_affected)` for the node `ns` at position `pos` under a node, as
the levels between see it. -/
def shrinkDescend (affected : BoundingBox K D) : List Nat → NodeStore K V D →
    Except Failure (Erased K V D)
  | [], ns => pure (shrinkStep ns affected)
  | index :: pos, .directory type box count valid linked children capacity => do
    absorbErased tr type box count valid linked children capacity index
      (← shrinkAt affected pos index children)
  | _ :: _, .value .. => throw .undefinedBehavior

/-- `shrinkDescend` into child `index` of a child vector. -/
def shrinkAt (affected : BoundingBox K D) (pos : List Nat) :
    Nat → List (NodeStore K V D) → Except Failure (Erased K V D)
  | _, [] => throw .undefinedBehavior
  | 0, child :: _ => shrinkDescend affected pos child
  | index + 1, _ :: rest => shrinkAt affected pos index rest

end

theorem shrinkAt_eq_shrinkDescend (affected : BoundingBox K D) (pos : List Nat) :
    ∀ (index : Nat) (children : List (NodeStore K V D)) (hindex : index < children.length),
      shrinkAt tr affected pos index children = shrinkDescend tr affected pos children[index]
  | _, [], hindex => absurd hindex (Nat.not_lt_zero _)
  | 0, _ :: _, _ => by rw [shrinkAt]; rfl
  | index + 1, _ :: rest, hindex => by
    rw [shrinkAt, shrinkAt_eq_shrinkDescend affected pos index rest (Nat.lt_of_succ_lt_succ hindex)]
    rfl

theorem eraseAt_eq_eraseDescend (pos : List Nat) :
    ∀ (index : Nat) (children : List (NodeStore K V D)) (hindex : index < children.length),
      eraseAt tr pos index children = eraseDescend tr false pos children[index]
  | _, [], hindex => absurd hindex (Nat.not_lt_zero _)
  | 0, _ :: _, _ => by rw [eraseAt]; rfl
  | index + 1, _ :: rest, hindex => by
    rw [eraseAt, eraseAt_eq_eraseDescend pos index rest (Nat.lt_of_succ_lt_succ hindex)]
    rfl

theorem shrinkStep_ne_dissolving (ns : NodeStore K V D) (affected : BoundingBox K D)
    (orphans : List (NodeStore K V D)) : shrinkStep ns affected ≠ .dissolving orphans := by
  unfold shrinkStep
  split_ifs <;> simp

/-- Only the leaf passes `dissolving` up: a directory never does, whatever its child passed. -/
theorem absorbErased_ne_dissolving {type : DirType} {box : BoundingBox K D} {count : Nat}
    {valid linked : Bool} {children : List (NodeStore K V D)} {capacity index : Nat}
    {e e' : Erased K V D}
    (h : absorbErased tr type box count valid linked children capacity index e = .ok e')
    (orphans : List (NodeStore K V D)) : e' ≠ .dissolving orphans := by
  rintro rfl
  cases e <;> simp only [absorbErased] at h <;> (repeat' split at h) <;>
    simp_all [shrinkStep_ne_dissolving]

theorem shrinkDescend_ne_dissolving {affected : BoundingBox K D} {pos : List Nat}
    {ns : NodeStore K V D} {e : Erased K V D} (h : shrinkDescend tr affected pos ns = .ok e)
    (orphans : List (NodeStore K V D)) : e ≠ .dissolving orphans := by
  match pos, ns with
  | [], _ =>
    rw [shrinkDescend, pure_eq_ok, Except.ok.injEq] at h
    exact h ▸ shrinkStep_ne_dissolving _ _ orphans
  | _ :: _, .directory .. =>
    rw [shrinkDescend] at h
    obtain ⟨_, -, h⟩ := bind_eq_ok_iff.mp h
    exact absorbErased_ne_dissolving tr h orphans
  | _ :: _, .value .. => simp [shrinkDescend] at h

/-- A directory handles what its child passed up the same whatever stands in the child's place
of its vector, unless the child is the dissolving leaf, which the directory reads back. -/
theorem absorbErased_set {type : DirType} {box : BoundingBox K D} {count : Nat}
    {valid linked : Bool} {children : List (NodeStore K V D)} {capacity index : Nat}
    (child : NodeStore K V D) {e : Erased K V D} (he : ∀ orphans, e ≠ .dissolving orphans) :
    absorbErased tr type box count valid linked (children.set index child) capacity index e =
      absorbErased tr type box count valid linked children capacity index e := by
  cases e with
  | dissolving orphans => exact absurd rfl (he orphans)
  | _ => simp only [absorbErased, List.set_set]

end Walk

section Calls

variable [LinearOrderedCommRing K] [NeZero D] (tr : Trait) (growth : VectorGrowth)

/-- The loop at the end of `erase` that inserts the orphans again, in the order given (the code
takes them from the back). An exception ends the loop and leaves the tree as it is then. -/
def reinsertOrphans (tree : NodeStore K V D) : List (NodeStore K V D) → Outcome K V D
  | [] => .returned tree
  | orphan :: rest =>
    match insertNodeStore tr growth tree orphan with
    | .ok tree' => reinsertOrphans tree' rest
    | .error (.runtimeError what) => .threw what tree
    | .error failure => .failed failure

/-- `rtree::erase` on the value node at position `pos`. -/
def erase (root : NodeStore K V D) (pos : List Nat) : Outcome K V D :=
  match eraseDescend tr true pos root with
  | .ok (.shrinking tree _) => .returned tree
  | .ok (.done tree) => .returned tree
  | .ok (.dissolving _) => .failed .undefinedBehavior
  | .ok (.dissolved tree orphans) => reinsertOrphans tr growth tree orphans.reverse
  | .ok (.underfull tree) => .threw reduceTreeTodo tree
  | .error (.runtimeError what) => .threw what root
  | .error failure => .failed failure

end Calls

/-- With `min_node_size = 2` and `max_node_size = 4`, five one-dimensional points split the root
leaf into leaves of keys `0, 1` and `2, 3, 4`, and `search` finds key `0` at position `[0, 0]`.
Erasing it leaves its leaf below the minimum: the value of key `1` is taken out as an orphan, the
leaf is removed from the root, and the root, left with one child, makes the code throw before the
orphan is inserted again. The erase that threw has taken two entries out of the tree. -/
theorem erase_throws_after_taking_orphans :
    ∃ tree, insertAll ⟨2, 4, 100, by decide⟩ .libstdcxx (empty : NodeStore Int Nat 1)
        [(⟨fun _ => 0⟩, ⟨fun _ => 0⟩, 0), (⟨fun _ => 1⟩, ⟨fun _ => 1⟩, 1),
          (⟨fun _ => 2⟩, ⟨fun _ => 2⟩, 2), (⟨fun _ => 3⟩, ⟨fun _ => 3⟩, 3),
          (⟨fun _ => 4⟩, ⟨fun _ => 4⟩, 4)] = .returned tree ∧
      tree.entries.length = 5 ∧ search tree ⟨fun _ => 0⟩ = [[0, 0]] ∧
      (erase ⟨2, 4, 100, by decide⟩ .libstdcxx tree [0, 0]).thrown? =
        some (reduceTreeTodo, [(⟨⟨fun _ => 2⟩, ⟨fun _ => 2⟩⟩, 2),
          (⟨⟨fun _ => 3⟩, ⟨fun _ => 3⟩⟩, 3),
          (⟨⟨fun _ => 4⟩, ⟨fun _ => 4⟩⟩, 4)]) :=
  ⟨_, rfl, by decide, by decide, by decide⟩

end Mdds.RTree

import Mdds.RTree.Shrink
import Mdds.RTree.Integrity

/-!
# Erasure without a dissolve

When the leaf directory of the erased value is the root, or keeps at least `min_node_size`
children, `rtree::erase` removes the value node and walks `shrink_tree_upward` up from the leaf.
On that path the descent of `erase` is the removal followed by the walk
(`eraseDescend_eq_shrinkDescend`): the two hand each directory on the way a different child
vector, but a directory reads its child's old slot back only for a dissolving leaf, which the
walk never passes up. The walk stops in the full recomputation of the boxes
(`shrinkDescend_removeChildAt`), so `erase` returns the tree with the value node removed and every
box from the leaf to the root recomputed (`erase_without_dissolve`).

That tree keeps invariant I (`invariant_repackUpward_removeChildAt`) and its `parent` pointers.
Each part but (I5) is a property of single node stores, with their depth for (I4), and
`allNodesAt_repackUpward_removeChildAt` carries such a property from the leaf to the root: it
asks only that removing the value node and packing keep it at the leaf, and that packing a
directory keep it when a child is replaced by one of the same kind with the same `parent`
pointer. For (I5) the property carried is that a value node lies at the depth of a value node of
the old tree. The entries of the tree are the old ones less the erased value's
(`perm_entries_removeChildAt`). When the leaf keeps a child, no directory is left empty either,
so `check_integrity` accepts the tree `erase` returns whenever it accepted the tree before
(`erase_without_dissolve_passes_check`).

Scope. The leaf is reached through the value's position, as `search` gives it. A leaf below the
root keeps at least one child, as every leaf does when `min_node_size` is at least `1`.
-/

set_option autoImplicit false
set_option relaxedAutoImplicit false

namespace Mdds.RTree

open NodeStore BoundingBox

variable {K V : Type} {D : Nat}

/-! ### The node store `erase` reaches -/

/-- In a layered tree, a node store that holds a value node is a leaf directory. -/
theorem isLeafDirectory_of_value_child [LinearOrder K] [Zero K] {root n : NodeStore K V D}
    {pos : List Nat} {index : Nat} {bb : BoundingBox K D} {linked : Bool} {v : V}
    (hlayered : Layered root) (hget : root.get? pos = some n)
    (hvalue : n.children[index]? = some (.value bb linked v)) : n.isLeafDirectory := by
  have hmem := List.mem_iff_getElem?.mpr ⟨_, hvalue⟩
  cases n with
  | value => simp at hmem
  | directory type =>
    cases type
    · rfl
    · simpa using (hlayered.2.of_get? hget).2 rfl _ hmem

/-- In a layered tree, the node store that holds a value node holds value nodes only. -/
theorem values_of_value_child [LinearOrder K] [Zero K] {root n : NodeStore K V D}
    {pos : List Nat} {index : Nat} {bb : BoundingBox K D} {linked : Bool} {v : V}
    (hlayered : Layered root) (hget : root.get? pos = some n)
    (hvalue : n.children[index]? = some (.value bb linked v)) :
    ∀ child ∈ n.children, child.isDirectory = false :=
  (AllNodes.of_get? hlayered.2 hget).1 (isLeafDirectory_of_value_child hlayered hget hvalue)

/-! ### The removal and the full recomputation -/

/-- The entries of a child vector, split at a child. -/
theorem entriesAll_eq_of_getElem? {children : List (NodeStore K V D)} {index : Nat}
    {child : NodeStore K V D} (hchild : children[index]? = some child) :
    entriesAll children = entriesAll (children.take index) ++
      (child.entries ++ entriesAll (children.drop (index + 1))) := by
  obtain ⟨hindex, rfl⟩ := List.getElem?_eq_some_iff.mp hchild
  conv_lhs => rw [← List.take_append_drop index children, List.drop_eq_getElem_cons hindex]
  simp only [entriesAll_eq_flatMap, List.flatMap_append, List.flatMap_cons]

/-- Removing child `index` of a child vector takes exactly that child's entries out of it. -/
theorem perm_entriesAll_removeChild {children : List (NodeStore K V D)} {index : Nat}
    {child : NodeStore K V D} (hchild : children[index]? = some child) :
    (entriesAll children).Perm (child.entries ++ entriesAll (removeChild children index)) := by
  have hremoved : entriesAll (removeChild children index) =
      entriesAll (children.take index) ++ entriesAll (children.drop (index + 1)) := by
    simp only [removeChild, entriesAll_eq_flatMap, List.flatMap_append, List.flatMap_map,
      Function.comp_def, entries_moved]
  rw [hremoved, entriesAll_eq_of_getElem? hchild]
  exact List.perm_append_comm_assoc _ _ _

/-- Removing child `index` of the directory at position `pos` takes exactly that child's entries
out of the tree. -/
theorem perm_entries_removeChildAt {n child : NodeStore K V D} {index : Nat}
    (hchild : n.children[index]? = some child) :
    ∀ (pos : List Nat) (t : NodeStore K V D), t.get? pos = some n →
      t.entries.Perm (child.entries ++ (removeChildAt index pos t).entries)
  | [], t, hget => by
    obtain rfl : t = n := Option.some.inj hget
    cases t with
    | value => simp at hchild
    | directory type box count valid linked children capacity =>
      rw [removeChildAt, modifyAt, withoutChild, entries, entries]
      exact perm_entriesAll_removeChild hchild
  | i :: pos, .directory type box count valid linked children capacity, hget => by
    obtain ⟨c, hc, hget⟩ := get?_cons_eq_some.mp hget
    rw [children_directory] at hc
    have hi : i < children.length := (List.getElem?_eq_some_iff.mp hc).1
    rw [removeChildAt_cons index pos hc, entries, entries]
    -- `c` in the place of the child that lost a child gives back the old vector
    have hperm := perm_entriesAll_set (List.getElem?_set_self hi)
      (perm_entries_removeChildAt hchild pos c hget)
    rwa [List.set_set, set_eq_self_of_getElem? hc] at hperm
  | _ :: _, .value .., hget => by simp [get?_cons_eq_some] at hget

/-- Removing a value node from a leaf directory moves no directory. -/
theorem removeChild_eq_eraseIdx {children : List (NodeStore K V D)}
    (hvalues : ∀ child ∈ children, child.isDirectory = false) (index : Nat) :
    removeChild children index = children.eraseIdx index := by
  have hmoved : (children.drop (index + 1)).map moved = children.drop (index + 1) := by
    refine (List.map_congr_left fun child hchild => ?_).trans (List.map_id _)
    cases child with
    | directory => simpa using hvalues _ (List.mem_of_mem_drop hchild)
    | value => rfl
  rw [removeChild, hmoved, List.eraseIdx_eq_take_drop_succ]

/-! ### What the removal and the full recomputation keep -/

section Keep

variable [LinearOrder K] [Zero K] {n : NodeStore K V D} {index : Nat}

/-- A property of the node stores of a tree, each with its depth, holds of every node store once
value node `index` is removed from the leaf directory `n` at position `pos` and the boxes are
recomputed up to the root, when removing the value node from `n` and packing keeps it at `n`'s
depth, and packing a directory keeps it when a child is replaced by a node store of the same kind
with the same `parent` pointer. -/
theorem allNodesAt_repackUpward_removeChildAt {P : NodeStore K V D → Nat → Prop}
    {leafDepth : Nat}
    (hremove : ∀ {box : BoundingBox K D} {count : Nat} {valid linked : Bool} {capacity : Nat},
      P (.directory .leaf box count valid linked n.children capacity) leafDepth →
      P (NodeStore.directory .leaf box (count - 1) valid linked (n.children.eraseIdx index)
        capacity).pack.1 leafDepth)
    (hpath : ∀ {type : DirType} {box : BoundingBox K D} {count : Nat} {valid linked : Bool}
      {children : List (NodeStore K V D)} {capacity i depth : Nat}
      {child child' : NodeStore K V D},
      children[i]? = some child → child'.isDirectory = child.isDirectory →
      child'.linked = child.linked →
      P (.directory type box count valid linked children capacity) depth →
      P (NodeStore.directory type box count valid linked (children.set i child')
        capacity).pack.1 depth)
    (hleaf : n.isLeafDirectory) (hvalues : ∀ child ∈ n.children, child.isDirectory = false) :
    ∀ (pos : List Nat) (depth : Nat) (t : NodeStore K V D), t.get? pos = some n →
      depth + pos.length = leafDepth → AllNodesAt P depth t →
      AllNodesAt P depth (repackUpward pos (removeChildAt index pos t))
  | [], depth, t, hget, hdepth, h => by
    obtain rfl : t = n := Option.some.inj hget
    obtain rfl : depth = leafDepth := hdepth
    cases t with
    | value => simp at hleaf
    | directory type box count valid linked children capacity =>
      obtain rfl : type = .leaf := by simpa using hleaf
      simp only [children_directory] at hvalues
      obtain ⟨hP, hchildren⟩ := allNodesAt_directory.mp h
      simp only [repackUpward, removeChildAt, modifyAt, withoutChild,
        removeChild_eq_eraseIdx hvalues]
      exact allNodesAt_directory.mpr
        ⟨hremove hP, fun child hchild => hchildren child (List.mem_of_mem_eraseIdx hchild)⟩
  | i :: pos, depth, .directory type box count valid linked children capacity, hget, hdepth,
      h => by
    obtain ⟨c, hc, hget⟩ := get?_cons_eq_some.mp hget
    rw [children_directory] at hc
    obtain ⟨hP, hchildren⟩ := allNodesAt_directory.mp h
    rw [repackUpward_removeChildAt_cons index pos hc]
    exact allNodesAt_directory.mpr
      ⟨hpath hc (by rw [isDirectory_repackUpward, isDirectory_removeChildAt])
          (by rw [linked_repackUpward, linked_removeChildAt]) hP,
        forall_mem_set_of_getElem? hc
          (allNodesAt_repackUpward_removeChildAt hremove hpath hleaf hvalues pos (depth + 1) c
            hget (by rw [← hdepth, List.length_cons]; omega))
          hchildren⟩
  | _ :: _, _, .value .., hget, _, _ => by simp [get?_cons_eq_some] at hget

/-- `allNodesAt_repackUpward_removeChildAt` for a property that does not read the depth. -/
theorem allNodes_repackUpward_removeChildAt {P : NodeStore K V D → Prop}
    (hremove : ∀ {box : BoundingBox K D} {count : Nat} {valid linked : Bool} {capacity : Nat},
      P (.directory .leaf box count valid linked n.children capacity) →
      P (NodeStore.directory .leaf box (count - 1) valid linked (n.children.eraseIdx index)
        capacity).pack.1)
    (hpath : ∀ {type : DirType} {box : BoundingBox K D} {count : Nat} {valid linked : Bool}
      {children : List (NodeStore K V D)} {capacity i : Nat} {child child' : NodeStore K V D},
      children[i]? = some child → child'.isDirectory = child.isDirectory →
      child'.linked = child.linked →
      P (.directory type box count valid linked children capacity) →
      P (NodeStore.directory type box count valid linked (children.set i child')
        capacity).pack.1)
    (hleaf : n.isLeafDirectory) (hvalues : ∀ child ∈ n.children, child.isDirectory = false)
    {root : NodeStore K V D} {pos : List Nat} (hget : root.get? pos = some n)
    (h : AllNodes P root) : AllNodes P (repackUpward pos (removeChildAt index pos root)) :=
  allNodesAt_repackUpward_removeChildAt (P := fun ns _ => P ns) hremove
    (fun hc hdir hlink hP => hpath hc hdir hlink hP) hleaf hvalues pos 0 root hget
    (Nat.zero_add _) h

variable {root : NodeStore K V D} {pos : List Nat} (hleaf : n.isLeafDirectory)
  (hvalues : ∀ child ∈ n.children, child.isDirectory = false)
  (hindex : index < n.children.length) (hget : root.get? pos = some n)
include hleaf hvalues hget

theorem layered_repackUpward_removeChildAt (hlayered : Layered root) :
    Layered (repackUpward pos (removeChildAt index pos root)) := by
  refine ⟨by rw [isDirectory_repackUpward, isDirectory_removeChildAt]; exact hlayered.1,
    allNodes_repackUpward_removeChildAt (fun h => ?_) (fun hc hdir _ h => ?_)
      hleaf hvalues hget hlayered.2⟩ <;>
    simp only [pack, isLeafDirectory_directory, isNonleafDirectory_directory,
      children_directory] at h ⊢
  · exact ⟨fun htype child hchild => h.1 htype child (List.mem_of_mem_eraseIdx hchild),
      fun htype child hchild => h.2 htype child (List.mem_of_mem_eraseIdx hchild)⟩
  · exact ⟨fun htype => forall_mem_set_of_getElem? hc hdir.trans (h.1 htype),
      fun htype => forall_mem_set_of_getElem? hc hdir.trans (h.2 htype)⟩

include hindex in
theorem countsRight_repackUpward_removeChildAt (hcounts : CountsRight root) :
    CountsRight (repackUpward pos (removeChildAt index pos root)) := by
  refine allNodes_repackUpward_removeChildAt (fun h => ?_) (fun _ _ _ h => ?_)
      hleaf hvalues hget hcounts <;>
    simp only [pack, isDirectory_directory, count_directory, children_directory,
      true_implies] at h ⊢
  · rw [List.length_eraseIdx_of_lt hindex, h]
  · rw [List.length_set, h]

theorem tight_repackUpward_removeChildAt (htight : Tight root) :
    Tight (repackUpward pos (removeChildAt index pos root)) :=
  allNodes_repackUpward_removeChildAt (fun _ _ _ => rfl) (fun _ _ _ _ _ _ => rfl)
    hleaf hvalues hget htight

theorem linked_repackUpward_removeChildAt (hlinked : Linked root) :
    Linked (repackUpward pos (removeChildAt index pos root)) :=
  allNodes_repackUpward_removeChildAt
    (fun h child hchild => h child (List.mem_of_mem_eraseIdx hchild))
    (fun hc _ hlink h => forall_mem_set_of_getElem? hc hlink.trans h)
    hleaf hvalues hget hlinked

include hindex in
/-- The leaf loses one child: it stays within `max_node_size`, and within `min_node_size` when it
is not the root and keeps more than `min_node_size - 1` children. -/
theorem fanOutBounded_repackUpward_removeChildAt {tr : Trait}
    (hkeep : pos = [] ∨ tr.minNodeSize < n.children.length) (hfan : FanOutBounded tr root) :
    FanOutBounded tr (repackUpward pos (removeChildAt index pos root)) := by
  refine (fanOutBounded_iff_allNodesAt tr _).mpr
      (allNodesAt_repackUpward_removeChildAt (fun h => ?_) (fun _ _ _ h => ?_)
        hleaf hvalues pos 0 root hget (Nat.zero_add _)
        ((fanOutBounded_iff_allNodesAt tr _).mp hfan)) <;>
    simp only [pack, isDirectory_directory, isNonleafDirectory_directory, children_directory,
      true_implies, List.length_set] at h ⊢
  · rw [List.length_eraseIdx_of_lt hindex]
    split_ifs at h ⊢ with hroot
    · exact ⟨by omega, fun hnonleaf => absurd hnonleaf (by decide)⟩
    · have hmin := hkeep.resolve_left fun hnil => hroot (by rw [hnil, List.length_nil])
      exact ⟨by omega, by omega⟩
  · exact h

/-- The removal moves no node store to another depth, so value nodes stay at one depth. -/
theorem uniformDepth_repackUpward_removeChildAt (huniform : UniformDepth root) :
    UniformDepth (repackUpward pos (removeChildAt index pos root)) := by
  -- each value node of the new tree lies at the depth of a value node of the old one
  have hdepths : AllNodesAt (fun ns depth => ns.isDirectory = false →
      ∃ y ∈ root.nodesAt 0, y.1.isDirectory = false ∧ y.2 = depth) 0
      (repackUpward pos (removeChildAt index pos root)) :=
    allNodesAt_repackUpward_removeChildAt (fun _ hdir => by simp [pack] at hdir)
      (fun _ _ _ _ hdir => by simp [pack] at hdir) hleaf hvalues pos 0 root hget
      (Nat.zero_add _) fun x hx hvalue => ⟨x, hx, hvalue, rfl⟩
  intro x hx y hy hxvalue hyvalue
  obtain ⟨x', hx', hx'value, hxdepth⟩ := hdepths x hx hxvalue
  obtain ⟨y', hy', hy'value, hydepth⟩ := hdepths y hy hyvalue
  rw [← hxdepth, ← hydepth]
  exact huniform x' hx' y' hy' hx'value hy'value

include hindex in
/-- Removing a value node from a leaf directory that is the root, or keeps at least
`min_node_size` children, and recomputing the boxes up to the root keeps invariant I. -/
theorem invariant_repackUpward_removeChildAt {tr : Trait}
    (hkeep : pos = [] ∨ tr.minNodeSize < n.children.length) (hinv : Invariant tr root) :
    Invariant tr (repackUpward pos (removeChildAt index pos root)) :=
  ⟨layered_repackUpward_removeChildAt hleaf hvalues hget hinv.1,
    countsRight_repackUpward_removeChildAt hleaf hvalues hindex hget hinv.2.1,
    tight_repackUpward_removeChildAt hleaf hvalues hget hinv.2.2.1,
    fanOutBounded_repackUpward_removeChildAt hleaf hvalues hindex hget hkeep hinv.2.2.2.1,
    uniformDepth_repackUpward_removeChildAt hleaf hvalues hget hinv.2.2.2.2⟩

include hindex in
/-- A leaf that keeps a child leaves no directory empty. -/
theorem nonempty_repackUpward_removeChildAt (hlength : 2 ≤ n.children.length)
    (hnonempty : AllNodes (fun ns => ns.isDirectory → 0 < ns.children.length) root) :
    AllNodes (fun ns => ns.isDirectory → 0 < ns.children.length)
      (repackUpward pos (removeChildAt index pos root)) := by
  refine allNodes_repackUpward_removeChildAt (fun _ _ => ?_) (fun _ _ _ h => ?_)
      hleaf hvalues hget hnonempty
  · simp only [pack, children_directory, List.length_eraseIdx_of_lt hindex]
    omega
  · simpa [pack] using h

end Keep

/-! ### The descent of `erase` -/

section Refinement

variable [LinearOrder K] [Zero K] (tr : Trait)

/-- The descent of `erase` to the value node `index` of the leaf directory `n` at position `pos`,
when `n` is the root or keeps at least `min_node_size` children, is the removal of the value
node followed by the walk of `shrink_tree_upward` from `n` with the value's box. -/
theorem eraseDescend_eq_shrinkDescend {n : NodeStore K V D} {index : Nat} {bb : BoundingBox K D}
    {v : V} (hvalue : n.children[index]? = some (.value bb true v)) (hleaf : n.isLeafDirectory)
    (hcount : n.count = n.children.length) :
    ∀ (pos : List Nat) (isRoot : Bool) (t : NodeStore K V D), t.get? pos = some n →
      (isRoot ∧ pos = [] ∨ tr.minNodeSize < n.children.length) →
      eraseDescend tr isRoot (pos ++ [index]) t =
        shrinkDescend tr bb pos (removeChildAt index pos t)
  | [], isRoot, t, hget, hkeep => by
    obtain rfl : t = n := Option.some.inj hget
    cases t with
    | value => simp at hleaf
    | directory type box count valid linked children capacity =>
      simp only [children_directory, count_directory, isLeafDirectory_directory,
        decide_eq_true_eq] at hvalue hcount hleaf hkeep
      have hindex : index < children.length := (List.getElem?_eq_some_iff.mp hvalue).1
      have hshrink : (isRoot || decide (tr.minNodeSize ≤ children.length - 1)) = true := by
        rcases hkeep with ⟨h, -⟩ | h <;> simp [h]
        omega
      simp only [List.nil_append, eraseDescend, eraseFromLeaf, hvalue, hleaf, hcount,
        length_removeChild hindex, shrinkDescend, removeChildAt, modifyAt, withoutChild]
      simp [hshrink, Nat.sub_add_cancel (Nat.one_le_of_lt hindex)]
  | i :: pos, isRoot, .directory type box count valid linked children capacity, hget, hkeep => by
    obtain ⟨c, hc, hget⟩ := get?_cons_eq_some.mp hget
    rw [children_directory] at hc
    obtain ⟨hi, hci⟩ := List.getElem?_eq_some_iff.mp hc
    have hi' : i < (children.set i (removeChildAt index pos c)).length := by simpa using hi
    obtain ⟨a, rest, hrest⟩ := List.exists_cons_of_ne_nil
      (List.append_ne_nil_of_right_ne_nil pos (List.cons_ne_nil index []))
    rw [List.cons_append, hrest, eraseDescend, ← hrest, eraseAt_eq_eraseDescend tr _ i _ hi, hci,
      eraseDescend_eq_shrinkDescend hvalue hleaf hcount pos false c hget
        (.inr (hkeep.resolve_left (by simp))),
      removeChildAt_cons index pos hc, shrinkDescend, shrinkAt_eq_shrinkDescend tr _ pos i _ hi',
      List.getElem_set_self]
    -- the walk never passes a dissolving leaf up, so either child vector does
    cases hwalk : shrinkDescend tr bb pos (removeChildAt index pos c) with
    | error => rfl
    | ok e => exact (absorbErased_set tr _ (shrinkDescend_ne_dissolving tr hwalk)).symm
  | _ :: _, _, .value .., hget, _ => by simp [get?_cons_eq_some] at hget

end Refinement

/-! ### `erase` without a dissolve -/

section Erase

variable [LinearOrderedCommRing K] [NeZero D]

/-- On a tree with (I1) to (I3) whose `parent` pointers are right, `erase` of the value node
`index` of the directory `n` at position `pos` returns, when `n` is the root or keeps at least
`min_node_size` children and at least one, the tree with the value node removed and the boxes
from `n` to the root recomputed. -/
theorem erase_eq_returned_repackUpward (tr : Trait) (growth : VectorGrowth)
    {root n : NodeStore K V D} {pos : List Nat} {index : Nat} {bb : BoundingBox K D}
    {linked : Bool} {v : V} (hlayered : Layered root) (hcounts : CountsRight root)
    (htight : Tight root) (hlinked : Linked root) (hget : root.get? pos = some n)
    (hvalue : n.children[index]? = some (.value bb linked v))
    (hkeep : pos = [] ∨ max tr.minNodeSize 1 < n.children.length) :
    erase tr growth root (pos ++ [index]) =
      .returned (repackUpward pos (removeChildAt index pos root)) := by
  -- the leaf: a leaf directory whose count is right, and the value's `parent` pointer
  have hleaf := isLeafDirectory_of_value_child hlayered hget hvalue
  have hcount : n.count = n.children.length :=
    AllNodes.of_get? hcounts hget (by cases n <;> simp_all)
  obtain rfl : linked = true :=
    AllNodes.of_get? hlinked hget _ (List.mem_iff_getElem?.mpr ⟨_, hvalue⟩)
  have hdescend := eraseDescend_eq_shrinkDescend tr hvalue hleaf hcount pos true root hget
    (hkeep.imp (fun h => ⟨rfl, h⟩) (fun h => by omega))
  rcases shrinkDescend_removeChildAt tr htight hlinked hget hvalue
      (hkeep.imp_right fun h => by omega) with hwalk | ⟨_, hwalk⟩ <;>
    simp only [box_value] at hwalk <;> simp [erase, hdescend, hwalk]

/-- On a tree with invariant I whose `parent` pointers are right, `erase` of the value node
`index` of the directory `n` at position `pos` returns, when `n` is the root or keeps at least
`min_node_size` children and at least one, the tree with the value node removed and the boxes
from `n` to the root recomputed. That tree again has invariant I and right `parent` pointers,
and its entries are the old ones less the erased value's. -/
theorem erase_without_dissolve (tr : Trait) (growth : VectorGrowth) (root n : NodeStore K V D)
    (pos : List Nat) (index : Nat) (bb : BoundingBox K D) (linked : Bool) (v : V)
    (hinv : Invariant tr root) (hlinked : Linked root) (hget : root.get? pos = some n)
    (hvalue : n.children[index]? = some (.value bb linked v))
    (hkeep : pos = [] ∨ max tr.minNodeSize 1 < n.children.length) :
    erase tr growth root (pos ++ [index]) =
        .returned (repackUpward pos (removeChildAt index pos root)) ∧
      Invariant tr (repackUpward pos (removeChildAt index pos root)) ∧
      Linked (repackUpward pos (removeChildAt index pos root)) ∧
      root.entries.Perm ((bb, v) :: (repackUpward pos (removeChildAt index pos root)).entries) := by
  obtain ⟨hlayered, hcounts, htight, -⟩ := id hinv
  have hleaf := isLeafDirectory_of_value_child hlayered hget hvalue
  have hvalues := values_of_value_child hlayered hget hvalue
  have hindex := (List.getElem?_eq_some_iff.mp hvalue).1
  exact ⟨erase_eq_returned_repackUpward tr growth hlayered hcounts htight hlinked hget hvalue
      hkeep,
    invariant_repackUpward_removeChildAt hleaf hvalues hindex hget
      (hkeep.imp_right fun h => by omega) hinv,
    linked_repackUpward_removeChildAt hleaf hvalues hget hlinked,
    by simpa using perm_entries_removeChildAt hvalue pos root hget⟩

/-- Erasing the value of key `1` from the second leaf of `boundaryTree`, which keeps the value of
key `9`: the leaf shrinks to `9` and the root to `5` to `9`. -/
theorem erase_boundaryTree_key_one :
    Invariant ⟨1, 2, 100, by decide⟩ boundaryTree ∧ Linked boundaryTree ∧
      (erase ⟨1, 2, 100, by decide⟩ .libstdcxx boundaryTree ([1] ++ [0]) =
          .returned (repackUpward [1] (removeChildAt 0 [1] boundaryTree)) ∧
        Invariant ⟨1, 2, 100, by decide⟩
          (repackUpward [1] (removeChildAt 0 [1] boundaryTree)) ∧
        Linked (repackUpward [1] (removeChildAt 0 [1] boundaryTree)) ∧
        boundaryTree.entries.Perm ((⟨⟨fun _ => 1⟩, ⟨fun _ => 1⟩⟩, 1) ::
          (repackUpward [1] (removeChildAt 0 [1] boundaryTree)).entries)) :=
  ⟨by decide, by decide,
    erase_without_dissolve _ _ boundaryTree
      (.directory .leaf ⟨⟨fun _ => 1⟩, ⟨fun _ => 9⟩⟩ 2 true true
        [.value ⟨⟨fun _ => 1⟩, ⟨fun _ => 1⟩⟩ true 1,
          .value ⟨⟨fun _ => 9⟩, ⟨fun _ => 9⟩⟩ true 9] 2)
      [1] 0 _ true _ (by decide) (by decide) rfl rfl (.inr (by decide))⟩

/-- `check_integrity` accepts the tree that `erase` returns when it accepted the tree before, the
erased value's leaf directory keeps at least one child, and it is the root or keeps at least
`min_node_size` children. -/
theorem erase_without_dissolve_passes_check (mode : OutputMode) (tr : Trait)
    (growth : VectorGrowth) (root n : NodeStore K V D) (pos : List Nat) (index : Nat)
    (bb : BoundingBox K D) (linked : Bool) (v : V) (hcheck : checkIntegrity mode root = .ok ())
    (hget : root.get? pos = some n) (hvalue : n.children[index]? = some (.value bb linked v))
    (hkeep : 2 ≤ n.children.length ∧ (pos = [] ∨ tr.minNodeSize < n.children.length)) :
    ∃ tree, erase tr growth root (pos ++ [index]) = .returned tree ∧
      checkIntegrity mode tree = .ok () := by
  obtain ⟨hlayered, hcounts, htight, hlinked, hroot, hnonempty⟩ :=
    (checkIntegrity_eq_ok_iff mode root).mp hcheck
  have hleaf := isLeafDirectory_of_value_child hlayered hget hvalue
  have hvalues := values_of_value_child hlayered hget hvalue
  have hindex := (List.getElem?_eq_some_iff.mp hvalue).1
  refine ⟨_, erase_eq_returned_repackUpward tr growth hlayered hcounts htight hlinked hget hvalue
    (hkeep.2.imp_right fun h => by omega), (checkIntegrity_eq_ok_iff mode _).mpr
      ⟨layered_repackUpward_removeChildAt hleaf hvalues hget hlayered,
        countsRight_repackUpward_removeChildAt hleaf hvalues hindex hget hcounts,
        tight_repackUpward_removeChildAt hleaf hvalues hget htight,
        linked_repackUpward_removeChildAt hleaf hvalues hget hlinked,
        by rw [linked_repackUpward, linked_removeChildAt]; exact hroot,
        nonempty_repackUpward_removeChildAt hleaf hvalues hindex hget hkeep.1 hnonempty⟩⟩

/-- `check_integrity` accepts `boundaryTree`, and the tree left by erasing the value of key `1`. -/
theorem erase_boundaryTree_passes_check :
    checkIntegrity .none boundaryTree = .ok () ∧
      (∃ tree, erase ⟨1, 2, 100, by decide⟩ .libstdcxx boundaryTree ([1] ++ [0]) =
        .returned tree ∧ checkIntegrity .none tree = .ok ()) :=
  ⟨rfl, erase_without_dissolve_passes_check .none _ _ boundaryTree
    (.directory .leaf ⟨⟨fun _ => 1⟩, ⟨fun _ => 9⟩⟩ 2 true true
      [.value ⟨⟨fun _ => 1⟩, ⟨fun _ => 1⟩⟩ true 1,
        .value ⟨⟨fun _ => 9⟩, ⟨fun _ => 9⟩⟩ true 9] 2)
    [1] 0 _ true 1 rfl rfl rfl ⟨by decide, .inr (by decide)⟩⟩

end Erase

end Mdds.RTree

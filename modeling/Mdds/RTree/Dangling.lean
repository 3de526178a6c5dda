import Mdds.RTree.EraseEntries
import Mdds.RTree.LocalInvariant

/-!
# Stale `parent` pointers after a dissolve

`rtree::erase` dissolves a leaf directory below the root that falls under `min_node_size`: it
takes the leaf out of its parent's child vector with `std::vector::erase`, and calls
`reset_parent_pointers` on the parent. `std::vector::erase` moves every later child one slot down,
and a moved node store takes its `valid_pointer` with it (`node_store(node_store&&)`, and the
move assignment, which swaps with a moved copy). `reset_parent_pointers` does nothing on a node
store whose `valid_pointer` is set, and on the parent it only re-points each child and calls it on
the child in turn. So a later sibling with `valid_pointer` set keeps its own children's `parent`
pointers at its old address (`children_dissolvedNode`).

The erasure passes that node up unchanged (`eraseDescend_dissolve_strands`). When the dissolved
leaf held one value there is no orphan to insert again, the call returns the tree, and an erasure
of any value under such a sibling then follows the stale pointer: it fails
(`erase_after_dissolve_stale`). Every leaf directory has `valid_pointer` set once an insertion has
split it, so three points with `min_node_size = 1` and `max_node_size = 2`, then erasing the
first and the second, reach it.
-/

set_option autoImplicit false
set_option relaxedAutoImplicit false

namespace Mdds.RTree

open NodeStore BoundingBox

variable {K V : Type} {D : Nat}

/-! ### What a dissolve leaves in the parent -/

theorem resetParentPointers_of_validPointer {ns : NodeStore K V D}
    (hvalid : ns.validPointer = true) : ns.resetParentPointers = ns := by
  cases ns with
  | directory type box count valid =>
    obtain rfl : valid = true := hvalid
    rfl
  | value => rfl

/-- Removing child `index` moves each later child one slot down. -/
theorem getElem?_removeChild_add {children : List (NodeStore K V D)} {index : Nat} (k : Nat)
    (hindex : index < children.length) :
    (removeChild children index)[index + k]? = children[index + 1 + k]?.map moved := by
  have htake : (children.take index).length = index := List.length_take_of_le hindex.le
  rw [removeChild, List.getElem?_append_right (by omega), htake, Nat.add_sub_cancel_left,
    List.getElem?_map, List.getElem?_drop]

/-- A moved node store that keeps `valid_pointer` set keeps its children's pointers at its old
address when its new parent re-points it. -/
theorem children_relink_moved {ns : NodeStore K V D} (hvalid : ns.validPointer = true) :
    ns.moved.relink.children = ns.children.map (setLinked false) := by
  rw [relink_eq, children_setLinked,
    resetParentPointers_of_validPointer (by rwa [validPointer_moved]), children_moved]

/-- The parent a dissolve leaves: leaf `index` removed, the pointers reset and the box packed. A
later child whose `valid_pointer` is set is there one slot down, its children's `parent` pointers
stale. -/
theorem children_dissolvedNode [LinearOrder K] [Zero K] {type : DirType} {box : BoundingBox K D}
    {count : Nat} {valid linked : Bool} {children : List (NodeStore K V D)} {capacity index : Nat}
    (k : Nat) {sibling : NodeStore K V D} (hsibling : children[index + 1 + k]? = some sibling)
    (hvalid : sibling.validPointer = true) :
    ∃ sibling', ((NodeStore.directory type box (count - 1) valid linked
        (removeChild children index) capacity).resetParentPointers.pack.1).children[index + k]? =
        some sibling' ∧ sibling'.children = sibling.children.map (setLinked false) := by
  have hindex : index < children.length := by
    have := (List.getElem?_eq_some_iff.mp hsibling).1
    omega
  have hmoved := getElem?_removeChild_add k hindex
  rw [hsibling, Option.map_some'] at hmoved
  cases valid
  · refine ⟨sibling.moved.relink, ?_, children_relink_moved hvalid⟩
    simp only [resetParentPointers, if_neg Bool.false_ne_true, children_pack, children_directory,
      relinkAll_eq_map, List.getElem?_map, hmoved, Option.map_some']
  · refine ⟨sibling.moved, ?_, children_moved sibling⟩
    rw [resetParentPointers, if_pos rfl, children_pack, children_directory, hmoved]

theorem get?_singleton (ns : NodeStore K V D) (index : Nat) :
    ns.get? [index] = ns.children[index]? := by
  rw [get?]
  cases ns.children[index]? <;> rfl

/-! ### The erasure's way up -/

section Erase

variable [LinearOrder K] [Zero K] (tr : Trait)

theorem eraseDescend_directory_cons {isRoot : Bool} {index : Nat} {pos : List Nat}
    (hpos : pos ≠ []) {type : DirType} {box : BoundingBox K D} {count : Nat} {valid linked : Bool}
    {children : List (NodeStore K V D)} {capacity : Nat} :
    eraseDescend tr isRoot (index :: pos) (.directory type box count valid linked children capacity) =
      eraseAt tr pos index children >>=
        absorbErased tr type box count valid linked children capacity index := by
  obtain ⟨next, rest, rfl⟩ := List.exists_cons_of_ne_nil hpos
  rw [eraseDescend]

/-- Below the root, a leaf directory left under `min_node_size` dissolves: its values become the
orphans. -/
theorem eraseFromLeaf_eq_dissolving {type : DirType} {box : BoundingBox K D} {count : Nat}
    {valid linked : Bool} {children : List (NodeStore K V D)} {capacity index : Nat}
    {e : Erased K V D} (hfew : (removeChild children index).length < tr.minNodeSize)
    (h : eraseFromLeaf tr false type box count valid linked children capacity index = .ok e) :
    e = .dissolving (removeChild children index) := by
  unfold eraseFromLeaf at h
  match children[index]?, h with
  | none, h => simp [throw_eq_error] at h
  | some (.directory ..), h => simp [throw_eq_error] at h
  | some (.value ..), h =>
    simp only [throw_eq_error, pure_eq_ok] at h
    split_ifs at h <;> cases h
    · rename_i hkeep
      simp only [Bool.false_or, decide_eq_true_eq] at hkeep
      omega
    · rfl

/-- An erasure that dissolves the leaf directory at `pre ++ [index]` passes up, from the root, the
tree with the leaf removed from its parent and every later sibling whose `valid_pointer` was set
one slot down with its children's `parent` pointers stale; or it finds the parent under
`min_node_size`. -/
theorem eraseDescend_dissolve_strands :
    ∀ (pre : List Nat) (isRoot : Bool) (root : NodeStore K V D) {index j k : Nat}
      {leaf sibling : NodeStore K V D} {e : Erased K V D},
      root.get? (pre ++ [index]) = some leaf →
      (removeChild leaf.children j).length < tr.minNodeSize →
      root.get? (pre ++ [index + 1 + k]) = some sibling → sibling.validPointer = true →
      eraseDescend tr isRoot (pre ++ [index, j]) root = .ok e →
      (∃ node, e = .dissolved node (removeChild leaf.children j) ∧
        ∃ sibling', node.get? (pre ++ [index + k]) = some sibling' ∧
          sibling'.children = sibling.children.map (setLinked false)) ∨
      ∃ node, e = .underfull node
  | [], _, .value .., _, _, _, _, _, _, hleaf, _, _, _, _ => by simp [get?] at hleaf
  | _ :: _, _, .value .., _, _, _, _, _, _, hleaf, _, _, _, _ => by simp [get?] at hleaf
  | [], isRoot, .directory type box count valid linked children capacity, index, j, k, leaf,
      sibling, e, hleaf, hfew, hsibling, hvalid, h => by
    rw [List.nil_append, get?_singleton, children_directory] at hleaf hsibling
    rw [List.nil_append] at h
    rw [eraseDescend_directory_cons tr (List.cons_ne_nil j [])] at h
    obtain ⟨e₀, h₀, h⟩ := bind_eq_ok_iff.mp h
    have hindex := lt_of_eraseAt_eq_ok tr h₀
    rw [eraseAt_eq_eraseDescend tr _ index children hindex,
      (List.getElem?_eq_some_iff.mp hleaf).2] at h₀
    -- the leaf dissolves, and the parent takes it out
    cases leaf with
    | value => rw [eraseDescend_value] at h₀; cases h₀
    | directory =>
      rw [eraseDescend] at h₀
      obtain rfl := eraseFromLeaf_eq_dissolving tr hfew h₀
      simp only [absorbErased, hleaf, throw_eq_error, pure_eq_ok] at h
      split_ifs at h <;> cases h
      · exact .inr ⟨_, rfl⟩
      · obtain ⟨sibling', hsibling', hchildren⟩ := children_dissolvedNode k hsibling hvalid
        exact .inl ⟨_, rfl, sibling', by rw [List.nil_append, get?_singleton, hsibling'],
          hchildren⟩
  | a :: pre, isRoot, .directory type box count valid linked children capacity, index, j, k, leaf,
      sibling, e, hleaf, hfew, hsibling, hvalid, h => by
    simp only [List.cons_append, get?_cons_eq_some, children_directory] at hleaf hsibling h
    obtain ⟨child, hchild, hleaf⟩ := hleaf
    obtain ⟨child', hchild', hsibling⟩ := hsibling
    obtain rfl : child = child' := Option.some.inj (hchild.symm.trans hchild')
    rw [eraseDescend_directory_cons tr (by simp)] at h
    obtain ⟨e₀, h₀, h⟩ := bind_eq_ok_iff.mp h
    have hindex := lt_of_eraseAt_eq_ok tr h₀
    rw [eraseAt_eq_eraseDescend tr _ a children hindex, (List.getElem?_eq_some_iff.mp hchild).2]
      at h₀
    -- the child passes up the dissolve, or the underfull parent, and this directory puts it back
    rcases eraseDescend_dissolve_strands pre false child hleaf hfew hsibling hvalid h₀ with
      ⟨node, rfl, sibling', hsibling', hchildren⟩ | ⟨node, rfl⟩
    · cases h
      refine .inl ⟨_, rfl, sibling', ?_, hchildren⟩
      rw [List.cons_append, get?_cons_eq_some]
      exact ⟨node, by simp [List.getElem?_set_self hindex], hsibling'⟩
    · cases h
      exact .inr ⟨_, rfl⟩

/-- An erasure that reaches a value node whose `parent` pointer is stale fails there. -/
theorem eraseDescend_staleParent {j : Nat} {bb : BoundingBox K D} {v : V} :
    ∀ (q : List Nat) (isRoot : Bool) (t : NodeStore K V D) {n : NodeStore K V D},
      t.get? q = some n → n.children[j]? = some (.value bb false v) →
      eraseDescend tr isRoot (q ++ [j]) t = .error .staleParent
  | [], isRoot, t, n, hn, hvalue => by
    obtain rfl : t = n := Option.some.inj hn
    cases t with
    | value => simp at hvalue
    | directory type box count valid linked children capacity =>
      rw [List.nil_append, eraseDescend, eraseFromLeaf]
      simp only [children_directory] at hvalue
      simp [hvalue, throw_eq_error]
  | a :: q, isRoot, t, n, hn, hvalue => by
    obtain ⟨child, hchild, hchildGet⟩ := get?_cons_eq_some.mp hn
    cases t with
    | value => simp at hchild
    | directory type box count valid linked children capacity =>
      rw [children_directory] at hchild
      have hindex := (List.getElem?_eq_some_iff.mp hchild).1
      rw [List.cons_append, eraseDescend_directory_cons tr (by simp),
        eraseAt_eq_eraseDescend tr _ a children hindex, (List.getElem?_eq_some_iff.mp hchild).2,
        eraseDescend_staleParent q false child hchildGet hvalue]
      rfl

end Erase

/-! ### The call after the dissolve -/

variable [LinearOrderedCommRing K] [NeZero D] {tr : Trait} (growth : VectorGrowth)

/-- With `min_node_size ≥ 1`, after an `rtree::erase` that removes the only value of a leaf
directory below the root and returns, no value of a leaf directory that followed it under the
same parent with `valid_pointer` set can be erased: the leaf sits one slot down, its values'
`parent` pointers hold its old address, and `erase` follows one of them and fails. -/
theorem erase_after_dissolve_stale (hmin : 1 ≤ tr.minNodeSize) (pre : List Nat) (index k j : Nat)
    {root tree leaf sibling : NodeStore K V D} {bb : BoundingBox K D} {linked : Bool} {v : V}
    (hleaf : root.get? (pre ++ [index]) = some leaf) (hone : leaf.children.length = 1)
    (hsibling : root.get? (pre ++ [index + 1 + k]) = some sibling)
    (hvalid : sibling.validPointer = true) (hvalue : sibling.children[j]? = some (.value bb linked v))
    (h : erase tr growth root (pre ++ [index, 0]) = .returned tree) :
    erase tr growth tree (pre ++ [index + k, j]) = .failed .staleParent := by
  have hnone : removeChild leaf.children 0 = [] := by
    rw [← List.length_eq_zero, length_removeChild (by omega), hone]
  unfold erase at h
  cases hdescend : eraseDescend tr true (pre ++ [index, 0]) root with
  | error failure => cases failure <;> simp [hdescend] at h
  | ok e =>
    rw [hdescend] at h
    rcases eraseDescend_dissolve_strands tr pre true root hleaf (by rw [hnone]; exact hmin)
        hsibling hvalid hdescend with ⟨node, rfl, sibling', hsibling', hchildren⟩ | ⟨node, rfl⟩
    · -- no orphan to insert again: the call returns the node the dissolve left
      simp only [hnone, List.reverse_nil, reinsertOrphans, Outcome.returned.injEq] at h
      subst h
      have hstale : sibling'.children[j]? = some (.value bb false v) := by
        rw [hchildren, List.getElem?_map, hvalue]
        rfl
      rw [erase, show pre ++ [index + k, j] = (pre ++ [index + k]) ++ [j] by simp,
        eraseDescend_staleParent tr _ true _ hsibling' hstale]
    · cases h

/-- Three points with `min_node_size = 1` and `max_node_size = 2` give a root over leaves of keys
`0` and `1, 2`, both with `valid_pointer` set. Erasing key `0` dissolves its leaf and returns;
erasing key `1`, now at position `[0, 0]`, fails on the stale `parent` pointer. -/
theorem erase_after_dissolve_stale_threePoints :
    ∃ (root tree leaf sibling : NodeStore Int Nat 1),
      insertAll ⟨1, 2, 100, by decide⟩ .libstdcxx (empty : NodeStore Int Nat 1)
        [(⟨fun _ => 0⟩, ⟨fun _ => 0⟩, 0), (⟨fun _ => 1⟩, ⟨fun _ => 1⟩, 1),
          (⟨fun _ => 2⟩, ⟨fun _ => 2⟩, 2)] = .returned root ∧
      root.get? [0] = some leaf ∧ leaf.children.length = 1 ∧ root.get? [1] = some sibling ∧
      sibling.validPointer = true ∧
      sibling.children[0]? = some (.value ⟨⟨fun _ => 1⟩, ⟨fun _ => 1⟩⟩ true 1) ∧
      erase ⟨1, 2, 100, by decide⟩ .libstdcxx root [0, 0] = .returned tree ∧
      erase ⟨1, 2, 100, by decide⟩ .libstdcxx tree [0, 0] = .failed .staleParent := by
  obtain ⟨root, tree, leaf, sibling, hroot, hleaf, hone, hsibling, hvalid, hvalue, herase⟩ :
      ∃ (root tree leaf sibling : NodeStore Int Nat 1),
        insertAll ⟨1, 2, 100, by decide⟩ .libstdcxx (empty : NodeStore Int Nat 1)
          [(⟨fun _ => 0⟩, ⟨fun _ => 0⟩, 0), (⟨fun _ => 1⟩, ⟨fun _ => 1⟩, 1),
            (⟨fun _ => 2⟩, ⟨fun _ => 2⟩, 2)] = .returned root ∧
        root.get? [0] = some leaf ∧ leaf.children.length = 1 ∧ root.get? [1] = some sibling ∧
        sibling.validPointer = true ∧
        sibling.children[0]? = some (.value ⟨⟨fun _ => 1⟩, ⟨fun _ => 1⟩⟩ true 1) ∧
        erase ⟨1, 2, 100, by decide⟩ .libstdcxx root [0, 0] = .returned tree :=
    ⟨_, _, _, _, by rfl, by rfl, by rfl, by rfl, by rfl, by rfl, by rfl⟩
  exact ⟨root, tree, leaf, sibling, hroot, hleaf, hone, hsibling, hvalid, hvalue, herase,
    erase_after_dissolve_stale .libstdcxx (by decide) [] 0 0 0 hleaf hone hsibling hvalid hvalue
      herase⟩

end Mdds.RTree

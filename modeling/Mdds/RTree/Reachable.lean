import Mdds.RTree.EraseShrink
import Mdds.RTree.Observers

/-!
# The trees the calls of an `rtree` reach

`ReachableWithoutDissolve` is the closure of the constructor's tree under the public calls on which
the code keeps its tree in shape: `insert`, whether it returns or throws, and `erase` of a value
node whose leaf directory is the root or keeps `max(min_node_size, 1)` children after the removal,
so that nothing dissolves. Every tree so reached is well formed and its root has a null `parent`
(`ReachableWithoutDissolve.wellFormed`): `insert` keeps both (`WellFormed.insertNodeStore`,
`linked_root_insertNodeStore`), and such an `erase` is the removal followed by a repack of the
path (`erase_eq_returned_repackUpward`), which keeps invariant I, the pointers and the root's
flags.

On these trees `check_integrity` is the test of emptiness (`reachable_invariant`): it passes, in
either output mode, exactly when the tree holds a value, the constructor's tree and every tree
emptied by erasures being where `calc_extent` reads an empty range.
-/

set_option autoImplicit false
set_option relaxedAutoImplicit false

namespace Mdds.RTree

open NodeStore BoundingBox

variable {K V : Type} {D : Nat}

theorem validPointer_modifyAt {atNode onPath : NodeStore K V D → NodeStore K V D}
    (hatNode : ∀ ns, (atNode ns).validPointer = ns.validPointer)
    (honPath : ∀ ns, (onPath ns).validPointer = ns.validPointer) (pos : List Nat)
    (ns : NodeStore K V D) : (modifyAt atNode onPath pos ns).validPointer = ns.validPointer := by
  match pos, ns with
  | [], ns => rw [modifyAt]; exact hatNode ns
  | _ :: _, .directory .. => rw [modifyAt, honPath]; rfl
  | _ :: _, .value .. => rfl

/-- Removing a value node and repacking its path leaves the root's `valid_pointer` as it was. -/
theorem validPointer_repackUpward_removeChildAt [LinearOrder K] [Zero K] (index : Nat)
    (pos : List Nat) (root : NodeStore K V D) :
    (repackUpward pos (removeChildAt index pos root)).validPointer = root.validPointer := by
  rw [repackUpward, validPointer_modifyAt validPointer_pack validPointer_pack]
  exact validPointer_modifyAt (fun ns => by cases ns <;> rfl) (fun _ => rfl) pos root

section Calls

variable [LinearOrderedCommRing K] [NeZero D]

/-- The trees the calls reach from the constructor's: insertions, and erasures that dissolve no
leaf directory. -/
inductive ReachableWithoutDissolve (tr : Trait) (growth : VectorGrowth) : NodeStore K V D → Prop
  | empty : ReachableWithoutDissolve tr growth empty
  | insert {root tree : NodeStore K V D} (start «end» : Point K D) (value : V) :
      ReachableWithoutDissolve tr growth root →
      (insert tr growth root start «end» value).tree? = some tree →
      ReachableWithoutDissolve tr growth tree
  | erase {root n tree : NodeStore K V D} (pos : List Nat) (index : Nat) (bb : BoundingBox K D)
      (linked : Bool) (value : V) :
      ReachableWithoutDissolve tr growth root → root.get? pos = some n →
      n.children[index]? = some (.value bb linked value) →
      (pos = [] ∨ max tr.minNodeSize 1 < n.children.length) →
      (erase tr growth root (pos ++ [index])).tree? = some tree →
      ReachableWithoutDissolve tr growth tree

variable {tr : Trait} {growth : VectorGrowth}

/-- An insertion leaves a well-formed tree with a null root `parent` so, whether it returns or
throws. -/
theorem WellFormed.insert_linked (hmin : 1 ≤ tr.minNodeSize) {root : NodeStore K V D}
    (hwf : WellFormed tr root) (hroot : root.linked) (start «end» : Point K D) (value : V)
    {tree : NodeStore K V D} (h : (insert tr growth root start «end» value).tree? = some tree) :
    WellFormed tr tree ∧ tree.linked := by
  cases hins : RTree.insertNodeStore tr growth root (.value ⟨start, «end»⟩ false value) with
  | ok tree' =>
    simp only [RTree.insert, hins, Outcome.tree?, Option.some.injEq] at h
    subst h
    exact ⟨hwf.insertNodeStore growth hmin (by rfl) hins,
      linked_root_insertNodeStore growth (by rfl) hwf.linked hroot hins⟩
  | error failure =>
    cases failure <;>
      simp only [RTree.insert, hins, Outcome.tree?, Option.some.injEq, reduceCtorEq] at h
    exact h ▸ ⟨hwf, hroot⟩

/-- An erasure that dissolves no leaf directory leaves a well-formed tree with a null root
`parent` so. -/
theorem WellFormed.erase_linked {root n tree : NodeStore K V D} {pos : List Nat} {index : Nat}
    {bb : BoundingBox K D} {linked : Bool} {value : V} (hwf : WellFormed tr root)
    (hroot : root.linked) (hget : root.get? pos = some n)
    (hvalue : n.children[index]? = some (.value bb linked value))
    (hkeep : pos = [] ∨ max tr.minNodeSize 1 < n.children.length)
    (h : (erase tr growth root (pos ++ [index])).tree? = some tree) :
    WellFormed tr tree ∧ tree.linked := by
  obtain ⟨hlayered, hcounts, htight, -⟩ := id hwf.invariant
  rw [erase_eq_returned_repackUpward tr growth hlayered hcounts htight hwf.linked hget hvalue hkeep,
    Outcome.tree?, Option.some.injEq] at h
  subst h
  have hleaf := isLeafDirectory_of_value_child hlayered hget hvalue
  have hvalues := values_of_value_child hlayered hget hvalue
  exact ⟨⟨invariant_repackUpward_removeChildAt hleaf hvalues (List.getElem?_eq_some_iff.mp hvalue).1
      hget (hkeep.imp_right fun h => by omega) hwf.invariant,
    linked_repackUpward_removeChildAt hleaf hvalues hget hwf.linked,
    (validPointer_repackUpward_removeChildAt index pos root).trans hwf.validPointer⟩,
    by rw [linked_repackUpward, linked_removeChildAt]; exact hroot⟩

/-- Every tree the calls reach is well formed, and its root has a null `parent`. -/
theorem ReachableWithoutDissolve.wellFormed (hmin : 1 ≤ tr.minNodeSize) {root : NodeStore K V D}
    (h : ReachableWithoutDissolve tr growth root) : WellFormed tr root ∧ root.linked := by
  induction h with
  | empty => exact ⟨wellFormed_empty, rfl⟩
  | insert start «end» value _ htree ih =>
    exact ih.1.insert_linked hmin ih.2 start «end» value htree
  | erase pos index bb linked value _ hget hvalue hkeep htree ih =>
    exact ih.1.erase_linked ih.2 hget hvalue hkeep htree

end Calls

/-- On a well-formed tree whose root has a null `parent`, `check_integrity` passes exactly when the
tree holds a value. -/
theorem checkIntegrity_eq_ok_iff_of_wellFormed [LinearOrderedCommRing K] [NeZero D] {tr : Trait}
    (hmin : 1 ≤ tr.minNodeSize) {root : NodeStore K V D} (hwf : WellFormed tr root)
    (hroot : root.linked) (mode : OutputMode) :
    checkIntegrity mode root = .ok () ↔ root.entries ≠ [] := by
  obtain ⟨height, hshaped⟩ := exists_shaped_of_invariant hmin hwf.invariant
  obtain ⟨hlayered, hcounts, htight, -, -⟩ := hwf.invariant
  rw [checkIntegrity_eq_ok_iff]
  refine ⟨fun hcheck hnil => ?_, fun hentries => ⟨hlayered, hcounts, htight, hwf.linked, hroot,
    allNodes_children_ne_nil_of_shaped hmin hshaped hentries⟩⟩
  -- a root with children holds a value below it
  cases root with
  | value => exact absurd hlayered.1 (by simp)
  | directory type box count valid linked children capacity =>
    obtain ⟨-, hchildren⟩ := shaped_directory.mp hshaped
    match children, hcheck.2.2.2.2.2 _ (self_mem_nodesAt 0 _) rfl, hchildren, hnil with
    | child :: rest, _, hchildren, hnil =>
      refine entries_ne_nil_of_shaped hmin child Nat.one_ne_zero
        (hchildren child (List.mem_cons_self _ _)) ?_
      simp only [entries, entriesAll, List.append_eq_nil] at hnil
      exact hnil.1

/-- Every tree that insertions and erasures which dissolve no leaf reach from the constructor's
keeps invariant I, its `parent` pointers right, the root's `valid_pointer` clear and its `parent`
null; and `check_integrity`, in either output mode, passes on it exactly when it holds a value. -/
theorem reachable_invariant [LinearOrderedCommRing K] [NeZero D] {tr : Trait}
    {growth : VectorGrowth} (hmin : 1 ≤ tr.minNodeSize) {root : NodeStore K V D}
    (h : ReachableWithoutDissolve tr growth root) :
    WellFormed tr root ∧ root.linked ∧
      ∀ mode, checkIntegrity mode root = .ok () ↔ root.entries ≠ [] :=
  have hwf := h.wellFormed hmin
  ⟨hwf.1, hwf.2, checkIntegrity_eq_ok_iff_of_wellFormed hmin hwf.1 hwf.2⟩

/-- `reachable_invariant` after two insertions into the constructor's tree and the erasure of the
first value from the root leaf. -/
theorem reachable_invariant_insertErase :
    ∃ tree : NodeStore Int Nat 1, ReachableWithoutDissolve ⟨1, 2, 100, by decide⟩ .libstdcxx tree ∧
      tree.entries.length = 1 ∧
      (WellFormed ⟨1, 2, 100, by decide⟩ tree ∧ tree.linked ∧
        ∀ mode, checkIntegrity mode tree = .ok () ↔ tree.entries ≠ []) := by
  have h1 : ReachableWithoutDissolve (⟨1, 2, 100, by decide⟩ : Trait) .libstdcxx
      (_ : NodeStore Int Nat 1) := .insert ⟨fun _ => 0⟩ ⟨fun _ => 0⟩ 0 .empty rfl
  have h2 : ReachableWithoutDissolve (⟨1, 2, 100, by decide⟩ : Trait) .libstdcxx _ :=
    .insert ⟨fun _ => 1⟩ ⟨fun _ => 1⟩ 1 h1 rfl
  have h3 : ReachableWithoutDissolve (⟨1, 2, 100, by decide⟩ : Trait) .libstdcxx _ :=
    .erase [] 0 _ _ _ h2 rfl rfl (.inl rfl) rfl
  exact ⟨_, h3, rfl, reachable_invariant le_rfl h3⟩

end Mdds.RTree

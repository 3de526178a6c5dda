import Mdds.RTree.InsertEntries
import Mdds.RTree.InsertProgress
import Mdds.RTree.Integrity

/-!
# What the observers see of a well-formed tree

`rtree::empty()` reads the root's count only. On a tree that keeps invariant I with
`min_node_size ≥ 1` that is exactly whether the tree stores a value (`isEmpty_iff`): every
directory below the root has a child, so every subtree below the root holds a value
(`entries_ne_nil_of_shaped`).

`check_integrity` is undefined on the constructor's tree, whose root directory has no child
(`checkIntegrity_empty_undefined`). An insertion that returns leaves a tree it passes, in either
output mode (`insert_passes_check`): the insertion keeps invariant I and the `parent` pointers
(`WellFormed.insertNodeStore`), the root's own `parent` stays null, and the tree now holds a value,
so that no directory is left without children.
-/

set_option autoImplicit false
set_option relaxedAutoImplicit false

namespace Mdds.RTree

open NodeStore BoundingBox

variable {K V : Type} {D : Nat}

/-- `rtree::empty()`: whether the root's count is zero. -/
def isEmpty (root : NodeStore K V D) : Bool :=
  root.count == 0

section Shape

variable [LinearOrder K] [Zero K] {tr : Trait} (hmin : 1 ≤ tr.minNodeSize) {height : Nat}
include hmin

/-- Below the root, every subtree that keeps invariant I holds a value: a directory there has at
least `min_node_size` children. -/
theorem entries_ne_nil_of_shaped :
    ∀ {depth : Nat} (t : NodeStore K V D), depth ≠ 0 → Shaped tr height depth t → t.entries ≠ []
  | _, .value .., _, _ => by simp [entries]
  | depth, .directory type box count valid linked children capacity, hdepth, h => by
    obtain ⟨⟨-, -, -, hfan, -⟩, hchildren⟩ := shaped_directory.mp h
    simp only [FanOut, decide_eq_true_eq, hdepth, if_false] at hfan
    match children, hfan, hchildren with
    | [], hfan, _ => exact absurd hfan.1 (by simp only [List.length_nil]; omega)
    | child :: rest, _, hchildren =>
      have hchild := entries_ne_nil_of_shaped child (Nat.succ_ne_zero depth)
        (hchildren child (List.mem_cons_self _ _))
      simp only [entries, entriesAll, ne_eq, List.append_eq_nil, not_and]
      exact fun hnil => absurd hnil hchild

/-- On a tree that keeps invariant I, every directory has a child once the tree holds a value. -/
theorem allNodes_children_ne_nil_of_shaped {root : NodeStore K V D}
    (h : Shaped tr height 0 root) (hentries : root.entries ≠ []) :
    AllNodes (fun ns => ns.isDirectory → 0 < ns.children.length) root := by
  intro x hx hdir
  have hfan := (h x hx).parts.2.2.2.1 hdir
  by_cases hroot : x.2 = 0
  · -- the root holds the values, so it has children
    cases root with
    | value => simp [nodesAt] at hx; simp [hx] at hdir
    | directory type box count valid linked children capacity =>
      obtain rfl := eq_of_mem_nodesAt_directory hx hroot
      cases children with
      | nil => exact absurd rfl hentries
      | cons => simp
  · rw [if_neg hroot] at hfan
    omega

end Shape

/-- On a tree that keeps invariant I, with `min_node_size ≥ 1`, `rtree::empty()` is true exactly
when the tree stores no value. -/
theorem isEmpty_iff [LinearOrder K] [Zero K] {tr : Trait} (hmin : 1 ≤ tr.minNodeSize)
    {root : NodeStore K V D} (hinv : Invariant tr root) :
    isEmpty root = true ↔ root.entries = [] := by
  obtain ⟨height, hshaped⟩ := exists_shaped_of_invariant hmin hinv
  cases root with
  | value => exact absurd hinv.1.1 (by simp)
  | directory type box count valid linked children capacity =>
    obtain ⟨⟨-, hcount, -⟩, hchildren⟩ := shaped_directory.mp hshaped
    cases children with
    | nil => simp [isEmpty, hcount, entries, entriesAll]
    | cons child rest =>
      have hchild := entries_ne_nil_of_shaped hmin child Nat.one_ne_zero
        (hchildren child (List.mem_cons_self _ _))
      simp [isEmpty, hcount, entries, entriesAll, hchild]

/-- `isEmpty_iff` on `boundaryTree`, which holds two values. -/
theorem isEmpty_boundaryTree :
    Invariant ⟨1, 2, 100, by decide⟩ boundaryTree ∧
      (isEmpty boundaryTree = true ↔ boundaryTree.entries = []) :=
  have hinv : Invariant ⟨1, 2, 100, by decide⟩ boundaryTree := by decide
  ⟨hinv, isEmpty_iff (by decide) hinv⟩

section Check

variable [LinearOrderedCommRing K] [NeZero D] {tr : Trait} (growth : VectorGrowth)

/-- The root's own `parent` pointer, null in the code, is left as it was, or set right on a new
root. -/
theorem linked_root_insertNodeStore {root ns tree : NodeStore K V D}
    (hns : ns.isDirectory = false) (hlinked : Linked root) (hroot : root.linked)
    (h : insertNodeStore tr growth root ns = .ok tree) : tree.linked := by
  obtain ⟨passed, hpassed, h⟩ := bind_eq_ok_iff.mp h
  have hpost := insertedLinked_insertDescend tr growth hns hlinked hpassed
  cases passed with
  | enlarged node _ =>
    obtain rfl : node = tree := by simpa using h
    exact hpost.2.1.trans hroot
  | packed node _ =>
    obtain rfl : node = tree := by simpa using h
    exact hpost.2.1.trans hroot
  | split group1 group2 =>
    obtain rfl : placeRootSplit growth group1 group2 = tree := by simpa using h
    rfl

/-- An insertion that returns on a well-formed tree whose root has a null `parent` leaves a tree
that `check_integrity` passes, in either output mode. -/
theorem insert_passes_check (hmin : 1 ≤ tr.minNodeSize) {root : NodeStore K V D}
    (hwf : WellFormed tr root) (hroot : root.linked) (start «end» : Point K D) (value : V)
    {tree : NodeStore K V D} (h : insert tr growth root start «end» value = .returned tree)
    (mode : OutputMode) : checkIntegrity mode tree = .ok () := by
  have hok := (insert_eq_returned_iff growth).mp h
  have hwf' := hwf.insertNodeStore growth hmin (by rfl) hok
  obtain ⟨height, hshaped⟩ := exists_shaped_of_invariant hmin hwf'.invariant
  have hentries : tree.entries ≠ [] := fun hnil => by
    simpa [hnil, entries] using (perm_insertNodeStore tr growth hok).length_eq
  obtain ⟨hlayered, hcounts, htight, -, -⟩ := hwf'.invariant
  exact (checkIntegrity_eq_ok_iff mode tree).mpr ⟨hlayered, hcounts, htight, hwf'.linked,
    linked_root_insertNodeStore growth (by rfl) hwf.linked hroot hok,
    allNodes_children_ne_nil_of_shaped hmin hshaped hentries⟩

end Check

/-- The constructor's tree, which `check_integrity` cannot check, passes it after one insertion. -/
theorem insert_passes_check_empty :
    ∃ tree, insert ⟨1, 2, 100, by decide⟩ .libstdcxx (empty : NodeStore Int Nat 1)
        ⟨fun _ => 0⟩ ⟨fun _ => 0⟩ 0 = .returned tree ∧
      checkIntegrity .none tree = .ok () :=
  ⟨_, rfl, insert_passes_check .libstdcxx le_rfl
    (wellFormed_empty : WellFormed ⟨1, 2, 100, by decide⟩ (empty : NodeStore Int Nat 1)) rfl
    ⟨fun _ => 0⟩ ⟨fun _ => 0⟩ 0 rfl .none⟩

end Mdds.RTree

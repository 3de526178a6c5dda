import Mdds.RTree.Insert

/-!
# What an insertion adds

`rtree::insert` puts one value node into the tree and moves others about on the way: the splits
sort a directory's children and share them out over two directories, and the parent pointers are
reset. None of this makes or drops a value node. An insertion that returns leaves the entries of
the tree it was given and the new one, up to their order (`insert_adds_entry`).

`Inserted.entries` are the entries under what one level of the insertion passes up, and every step
keeps them up to order: sorting permutes the children (`perm_sortDirStoreBySplitDimension`), a
split keeps its children's entries across the two halves (`perm_splitNode`), the leaf adds the new
value (`perm_insertIntoLeaf`) and a directory on the path adds what its child added
(`perm_absorb`). The descent puts them together (`perm_insertDescend`).

Scope. Only the entries are followed here, not their order, which the sorting changes.
-/

set_option autoImplicit false
set_option relaxedAutoImplicit false

namespace Mdds.RTree

open NodeStore BoundingBox

variable {K V : Type} {D : Nat}

/-- The entries under what one level of an insertion passes up. -/
def Inserted.entries : Inserted K V D → List (BoundingBox K D × V)
  | .enlarged node _ => node.entries
  | .packed node _ => node.entries
  | .split group1 group2 => group1.entries ++ group2.entries

/-! ### Sorting and splitting -/

theorem perm_sortDirStoreByDimension [LinearOrder K] (dim : Fin D)
    (children : List (NodeStore K V D)) :
    (entriesAll (sortDirStoreByDimension dim children)).Perm (entriesAll children) := by
  rw [sortDirStoreByDimension, entriesAll_eq_flatMap, entriesAll_eq_flatMap, List.flatMap_map]
  simp only [Function.comp_def, entries_setValidPointer, entries_moved]
  exact (List.perm_insertionSort _ children).flatMap_right entries

section Split

variable [LinearOrderedCommRing K] [NeZero D] (tr : Trait)

/-- Each axis the loop tries sorts the children it is given, and the last sort too. -/
theorem perm_sortDirStoreBySplitDimension {children sorted : List (NodeStore K V D)}
    (h : sortDirStoreBySplitDimension tr children = .ok sorted) :
    (entriesAll sorted).Perm (entriesAll children) := by
  rw [sortDirStoreBySplitDimension] at h
  obtain ⟨⟨sorted', _⟩, hloop, h⟩ := bind_eq_ok_iff.mp h
  have hsorted' : (entriesAll sorted').Perm (entriesAll children) :=
    foldlM_invariant (P := fun acc => (entriesAll acc.1).Perm (entriesAll children))
      (fun acc dim acc' hacc hstep => by
        obtain ⟨_, -, hstep⟩ := bind_eq_ok_iff.mp hstep
        rw [pure_eq_ok, Except.ok.injEq] at hstep
        exact hstep ▸ (perm_sortDirStoreByDimension dim acc.1).trans hacc)
      _ _ _ (List.Perm.refl _) hloop
  simp only [pure_eq_ok, Except.ok.injEq] at h
  exact h ▸ (perm_sortDirStoreByDimension _ sorted').trans hsorted'

/-- A split shares its children's entries out over the directory it keeps and the new sibling. -/
theorem perm_splitNode (growth : VectorGrowth) {type : DirType} {box : BoundingBox K D}
    {count : Nat} {valid linked : Bool} {children : List (NodeStore K V D)} {capacity : Nat}
    {group1 group2 : NodeStore K V D}
    (h : splitNode tr growth type box count valid linked children capacity =
      .ok (group1, group2)) :
    (group1.entries ++ group2.entries).Perm (entriesAll children) := by
  rw [splitNode] at h
  split_ifs at h
  · simp at h
  obtain ⟨sorted, hsorted, h⟩ := bind_eq_ok_iff.mp (by simpa using h)
  obtain ⟨dist, -, h⟩ := bind_eq_ok_iff.mp h
  split_ifs at h
  simp only [pure_eq_ok, Except.ok.injEq, Prod.mk.injEq] at h
  obtain ⟨rfl, rfl⟩ := h
  have hentries : (entriesAll (distribution tr dist sorted).1 ++ entriesAll
      ((distribution tr dist sorted).2.map fun ns => ns.moved.setLinked false)) =
      entriesAll sorted := by
    simp only [distribution, entriesAll_eq_flatMap, List.flatMap_map, Function.comp_def,
      entries_setLinked, entries_moved, ← List.flatMap_append, List.take_append_drop]
  rw [entries_pack, entries_pack, entries, entries, hentries]
  exact perm_sortDirStoreBySplitDimension tr hsorted

end Split

/-! ### One level of the insertion -/

section Path

variable [LinearOrderedCommRing K] [NeZero D] (tr : Trait) (growth : VectorGrowth)

/-- The leaf adds the new value node, whether it splits or not. -/
theorem perm_insertIntoLeaf {ns : NodeStore K V D} {box : BoundingBox K D} {count : Nat}
    {valid linked : Bool} {children : List (NodeStore K V D)} {capacity : Nat}
    {result : Inserted K V D}
    (h : insertIntoLeaf tr growth ns box count valid linked children capacity = .ok result) :
    result.entries.Perm (ns.entries ++ entriesAll children) := by
  have hpushed : entriesAll (children ++ [ns.setLinked true]) = entriesAll children ++ ns.entries :=
    by simp [entriesAll]
  have hperm : (entriesAll (children ++ [ns.setLinked true])).Perm
      (ns.entries ++ entriesAll children) := by
    rw [hpushed]
    exact List.perm_append_comm
  rw [insertIntoLeaf] at h
  split_ifs at h
  · obtain ⟨⟨group1, group2⟩, hsplit, h⟩ := bind_eq_ok_iff.mp h
    simp only [pure_eq_ok, Except.ok.injEq] at h
    subst h
    exact (perm_splitNode tr growth hsplit).trans hperm
  all_goals
    simp only [pure_eq_ok, Except.ok.injEq] at h
    subst h
    exact hperm

/-- A directory on the insertion path adds what its child added. After a split of the child the
sibling goes after the children and the directory may split in turn, which `perm_splitNode`
covers. -/
theorem perm_absorb {box : BoundingBox K D} {count : Nat} {valid linked : Bool}
    {children : List (NodeStore K V D)} {capacity index : Nat} {child : NodeStore K V D}
    {extra : List (BoundingBox K D × V)} {passed result : Inserted K V D}
    (hchild : children[index]? = some child)
    (hpassed : passed.entries.Perm (extra ++ child.entries))
    (h : absorb tr growth box count valid linked children capacity index passed = .ok result) :
    result.entries.Perm (extra ++ entriesAll children) := by
  cases passed with
  | enlarged child' leafBox =>
    simp only [absorb] at h
    split_ifs at h <;> simp at h
    subst h
    exact perm_entriesAll_set hchild hpassed
  | packed child' changed =>
    simp only [absorb] at h
    split_ifs at h <;> simp at h <;> subst h <;> exact perm_entriesAll_set hchild hpassed
  | split group1 group2 =>
    -- the children with the sibling placed after them and the pointers reset
    have hreset :
        (entriesAll (children.set index (group1.setValidPointer false).resetParentPointers ++
          [(group2.setLinked true).moved.resetParentPointers])).Perm
          (extra ++ entriesAll children) := by
      rw [entriesAll_append]
      exact perm_entriesAll_set_append hchild (by simpa [entriesAll] using hpassed)
    simp only [absorb] at h
    split_ifs at h <;>
      simp only [pure_eq_ok, throw_eq_error, ok_bind, error_bind, reduceCtorEq] at h
    · obtain ⟨⟨half1, half2⟩, hsplit, h⟩ := bind_eq_ok_iff.mp h
      simp only [pure_eq_ok, Except.ok.injEq] at h
      subst h
      exact (perm_splitNode tr growth hsplit).trans hreset
    · simp only [Except.ok.injEq] at h
      subst h
      exact hreset

mutual

/-- The insertion of the value node `ns` under a node store at `depth` adds the value's entries
to it. -/
theorem perm_insertDescend (ns : NodeStore K V D) :
    ∀ (depth : Nat) (t : NodeStore K V D) (result : Inserted K V D),
      insertDescend tr growth ns depth t = .ok result →
      result.entries.Perm (ns.entries ++ t.entries)
  | depth, .directory .leaf .., _, h => by
    rw [insertDescend] at h
    by_cases hdepth : tr.maxTreeDepth ≤ depth
    · simp [hdepth] at h
    rw [if_neg hdepth] at h
    exact perm_insertIntoLeaf tr growth h
  | depth, .directory .nonleaf _ _ _ _ children _, _, h => by
    rw [insertDescend] at h
    by_cases hdepth : tr.maxTreeDepth ≤ depth
    · simp [hdepth] at h
    rw [if_neg hdepth] at h
    obtain ⟨choice, -, h⟩ := bind_eq_ok_iff.mp h
    cases choice with
    | none => simp at h
    | some index =>
      obtain ⟨passed, hpassed, h⟩ := bind_eq_ok_iff.mp h
      obtain ⟨child, hchild, hperm⟩ :=
        perm_insertAt ns (depth + 1) index children passed hpassed
      exact perm_absorb tr growth hchild hperm h
  | _, .value .., _, h => by
    rw [insertDescend] at h
    split_ifs at h

/-- `perm_insertDescend` into child `index` of a child vector. -/
theorem perm_insertAt (ns : NodeStore K V D) :
    ∀ (depth index : Nat) (children : List (NodeStore K V D)) (passed : Inserted K V D),
      insertAt tr growth ns depth index children = .ok passed →
      ∃ child, children[index]? = some child ∧ passed.entries.Perm (ns.entries ++ child.entries)
  | _, _, [], _, h => by simp [insertAt] at h
  | depth, 0, child :: _, passed, h =>
    ⟨child, List.getElem?_cons_zero, perm_insertDescend ns depth child passed
      (by rwa [insertAt] at h)⟩
  | depth, index + 1, _ :: rest, passed, h => by
    simpa only [List.getElem?_cons_succ] using
      perm_insertAt ns depth index rest passed (by rwa [insertAt] at h)

end

theorem perm_insertNodeStore {root ns tree : NodeStore K V D}
    (h : insertNodeStore tr growth root ns = .ok tree) :
    tree.entries.Perm (ns.entries ++ root.entries) := by
  rw [insertNodeStore] at h
  obtain ⟨passed, hpassed, h⟩ := bind_eq_ok_iff.mp h
  have hperm := perm_insertDescend tr growth ns 0 root passed hpassed
  cases passed <;> simp only [pure_eq_ok, Except.ok.injEq] at h <;> subst h
  · exact hperm
  · exact hperm
  · simpa [placeRootSplit, entries, entriesAll, Inserted.entries] using hperm

/-- An `insert(start, end, value)` that returns leaves the entries of the tree it was given and
the new entry, up to their order: no value node is made or dropped on the way. -/
theorem insert_adds_entry (root tree : NodeStore K V D) (start «end» : Point K D) (v : V)
    (h : insert tr growth root start «end» v = .returned tree) :
    tree.entries.Perm ((⟨start, «end»⟩, v) :: root.entries) := by
  unfold insert at h
  split at h <;> simp only [Outcome.returned.injEq, reduceCtorEq] at h
  subst h
  exact perm_insertNodeStore tr growth ‹_›

end Path

/-- A root leaf holding the one-dimensional points `0` and `1`. -/
def twoPointLeaf : NodeStore Int Nat 1 :=
  .directory .leaf ⟨⟨fun _ => 0⟩, ⟨fun _ => 1⟩⟩ 2 true true
    [.value ⟨⟨fun _ => 0⟩, ⟨fun _ => 0⟩⟩ true 0,
      .value ⟨⟨fun _ => 1⟩, ⟨fun _ => 1⟩⟩ true 1] 2

/-- With `max_node_size = 2` the point `2` splits `twoPointLeaf`, and the tree holds the three
entries. -/
theorem insert_splits_twoPointLeaf :
    ∃ tree, insert ⟨1, 2, 100, by decide⟩ .libstdcxx twoPointLeaf
          ⟨fun _ => 2⟩ ⟨fun _ => 2⟩ 2 = .returned tree ∧
      tree.entries.Perm ((⟨⟨fun _ => 2⟩, ⟨fun _ => 2⟩⟩, 2) :: twoPointLeaf.entries) :=
  ⟨_, rfl, insert_adds_entry ⟨1, 2, 100, by decide⟩ .libstdcxx twoPointLeaf _ _ _ _ rfl⟩

end Mdds.RTree

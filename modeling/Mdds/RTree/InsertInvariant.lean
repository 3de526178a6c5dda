import Mdds.RTree.Heuristics
import Mdds.RTree.LocalInvariant
import Mdds.RTree.Shrink

/-!
# Insertion keeps invariant I and the parent pointers

An `rtree::insert` that returns, into a tree that keeps invariant I and whose `parent` pointers
are right, leaves a tree that keeps both, provided `min_node_size ≥ 1` and the root's
`valid_pointer` is clear (`insert_keeps_invariant`); so does every run of inserts from the empty
tree (`insertAll_empty_keeps_invariant`).

The proof follows the insertion level by level, as the model runs it. `insertDescend_induction` is
the descent once for all: a property of what each level passes up follows from one step at the leaf
directory (`insertIntoLeaf`) and one at each directory on the path (`absorb`). Two properties are
carried. `InsertedShaped` is invariant I: an enlarged node is the old one widened by the leaf's
new box, a repacked node keeps its box unless it reports the change, and the two halves of a split
are directories with the fan-out of a node below the root (`half_splitNode`: a distribution of
`1 … max_dist_size` leaves each group between `min_node_size` and `max_node_size` children).
`InsertedLinked` is the pointers: a node passed up has them right, and the halves of a split have
children that `reset_parent_pointers` relinks, the sibling with `valid_pointer` clear
(`relinkable_splitNode`).

The root's `valid_pointer` matters at a root split, which moves the old root into the new root's
vector and resets only a half whose flag is clear. The empty tree's root has it clear and a new
root is made with it clear, so every run of inserts keeps it so.
-/

set_option autoImplicit false
set_option relaxedAutoImplicit false

namespace Mdds.RTree

open NodeStore BoundingBox

variable {K V : Type} {D : Nat}

/-! ### Packed boxes -/

section Boxes

variable [LinearOrder K] [Zero K]

theorem packedBox_singleton (ns : NodeStore K V D) : packedBox [ns] = ns.box := rfl

theorem packedBox_append_singleton {children : List (NodeStore K V D)} (hne : children ≠ [])
    (ns : NodeStore K V D) : packedBox (children ++ [ns]) = packedBox children ⊔ ns.box := by
  obtain ⟨first, rest, rfl⟩ := List.exists_cons_of_ne_nil hne
  rw [List.cons_append, packedBox_cons, packedBox_cons, List.map_append, List.foldl_append]
  rfl

/-- Widening one child's box by `bb` widens the packed box by `bb`. -/
theorem packedBox_set_sup {children : List (NodeStore K V D)} {index : Nat}
    {child child' : NodeStore K V D} (hchild : children[index]? = some child)
    {bb : BoundingBox K D} (hbox : child'.box = child.box ⊔ bb) :
    packedBox (children.set index child') = packedBox children ⊔ bb := by
  have hmem : child ∈ children := List.mem_iff_getElem?.mpr ⟨index, hchild⟩
  have hmem' : child' ∈ children.set index child' :=
    List.mem_iff_getElem?.mpr ⟨index, by
      rw [List.getElem?_set_self (List.getElem?_eq_some_iff.mp hchild).1]⟩
  have hle' : child'.box ≤ packedBox (children.set index child') :=
    le_packedBox (List.mem_map_of_mem _ hmem')
  refine le_antisymm (packedBox_le (List.ne_nil_of_mem hmem') fun b hb => ?_)
    (sup_le (packedBox_le (List.ne_nil_of_mem hmem) fun b hb => ?_)
      ((le_sup_right.trans hbox.ge).trans hle'))
  · obtain ⟨c, hc, rfl⟩ := List.mem_map.mp hb
    rcases List.mem_or_eq_of_mem_set hc with hc | rfl
    · exact le_sup_of_le_left (le_packedBox (List.mem_map_of_mem _ hc))
    · exact hbox ▸ sup_le_sup_right (le_packedBox (List.mem_map_of_mem _ hmem)) bb
  · obtain ⟨c, hc, rfl⟩ := List.mem_map.mp hb
    by_cases hat : children[index]? = some c
    · obtain rfl : c = child := Option.some.inj (hat.symm.trans hchild)
      exact (le_sup_left.trans hbox.ge).trans hle'
    · exact le_packedBox (List.mem_map_of_mem _ (mem_set_of_getElem?_ne hc hat))

/-- A child replaced by one with the same box leaves the packed box. -/
theorem packedBox_set_of_box_eq {children : List (NodeStore K V D)} {index : Nat}
    {child child' : NodeStore K V D} (hchild : children[index]? = some child)
    (hbox : child'.box = child.box) : packedBox (children.set index child') = packedBox children :=
  packedBox_congr (by
    rw [List.map_set, hbox, ← List.map_set, set_eq_self_of_getElem? hchild])

end Boxes

/-! ### What each step of an insertion does -/

theorem mem_sortDirStoreByDimension [LinearOrder K] {dim : Fin D}
    {children : List (NodeStore K V D)} {ns : NodeStore K V D} :
    ns ∈ sortDirStoreByDimension dim children ↔
      ∃ child ∈ children, ns = child.moved.setValidPointer false := by
  unfold sortDirStoreByDimension
  rw [List.mem_map]
  constructor
  · rintro ⟨x, hx, rfl⟩
    exact ⟨x, (List.perm_insertionSort _ _).subset hx, rfl⟩
  · rintro ⟨x, hx, rfl⟩
    exact ⟨x, (List.perm_insertionSort _ _).symm.subset hx, rfl⟩

section Steps

variable [LinearOrderedCommRing K] [NeZero D] (tr : Trait) (growth : VectorGrowth)

/-- The sorts of a split keep the number of children, and each child the split ends with comes
from one of the children it was given through sorts, the last of which moved it and cleared its
`valid_pointer`; a property that each sort keeps holds of what it came from. -/
theorem sortDirStoreBySplitDimension_spec {P : NodeStore K V D → Prop}
    (hP : ∀ ns, P ns → P (ns.moved.setValidPointer false))
    {children sorted : List (NodeStore K V D)}
    (h : sortDirStoreBySplitDimension tr children = .ok sorted) (hchildren : ∀ c ∈ children, P c) :
    sorted.length = children.length ∧
      ∀ s ∈ sorted, ∃ x, P x ∧ s = x.moved.setValidPointer false := by
  have hsort : ∀ (dim : Fin D) (l : List (NodeStore K V D)),
      (sortDirStoreByDimension dim l).length = l.length := by
    intro dim l
    simp [sortDirStoreByDimension]
  rw [sortDirStoreBySplitDimension] at h
  obtain ⟨⟨sorted', _⟩, hloop, h⟩ := bind_eq_ok_iff.mp h
  have hsorted' : sorted'.length = children.length ∧ ∀ s ∈ sorted', P s :=
    foldlM_invariant
      (P := fun acc => acc.1.length = children.length ∧ ∀ s ∈ acc.1, P s)
      (fun acc dim acc' hacc hstep => by
        obtain ⟨_, -, hstep⟩ := bind_eq_ok_iff.mp hstep
        rw [pure_eq_ok, Except.ok.injEq] at hstep
        subst hstep
        refine ⟨(hsort dim acc.1).trans hacc.1, fun s hs => ?_⟩
        obtain ⟨x, hx, rfl⟩ := mem_sortDirStoreByDimension.mp hs
        exact hP x (hacc.2 x hx))
      _ _ _ ⟨rfl, hchildren⟩ hloop
  simp only [pure_eq_ok, Except.ok.injEq] at h
  subst h
  exact ⟨(hsort _ sorted').trans hsorted'.1, fun s hs => by
    obtain ⟨x, hx, rfl⟩ := mem_sortDirStoreByDimension.mp hs
    exact ⟨x, hsorted'.2 x hx, rfl⟩⟩

/-- The distribution `pick_optimal_distribution` returns is one of `1 … max_dist_size`. -/
theorem pickOptimalDistribution_bounds {children : List (NodeStore K V D)} {dist : Nat}
    (h : pickOptimalDistribution tr children = .ok dist) : 1 ≤ dist ∧ dist ≤ tr.maxDistSize := by
  rw [pickOptimalDistribution_eq_pos tr children h]
  have hrange := MinValuePos.foldl_assign_range' (distributionOverlap tr children)
    (show 0 < tr.maxDistSize by unfold Trait.maxDistSize; omega)
  exact ⟨hrange.1, hrange.2.1⟩

/-- A split that returns had `max_node_size + 1` children, sorted them, and picked a distribution
of `1 … max_dist_size` that leaves group 2 non-empty; the node keeps group 1 and the sibling, a
fresh directory of the same type with `valid_pointer` and `parent` clear, holds group 2 moved. -/
theorem splitNode_spec {type : DirType} {box : BoundingBox K D} {count : Nat} {valid linked : Bool}
    {children : List (NodeStore K V D)} {capacity : Nat} {group1 group2 : NodeStore K V D}
    (h : splitNode tr growth type box count valid linked children capacity =
      .ok (group1, group2)) :
    count = tr.maxNodeSize + 1 ∧ ∃ sorted dist,
      sortDirStoreBySplitDimension tr children = .ok sorted ∧ 1 ≤ dist ∧
      dist ≤ tr.maxDistSize ∧ tr.minNodeSize + dist - 1 < sorted.length ∧
      group1 = (NodeStore.directory type box (tr.minNodeSize + dist - 1) valid linked
        (distribution tr dist sorted).1 capacity).pack.1 ∧
      group2 = (NodeStore.directory type .zero (distribution tr dist sorted).2.length false false
        ((distribution tr dist sorted).2.map fun ns => ns.moved.setLinked false)
        (growth.pushes (distribution tr dist sorted).2.length)).pack.1 := by
  rw [splitNode] at h
  split_ifs at h with hcount
  · simp at h
  obtain ⟨sorted, hsorted, h⟩ := bind_eq_ok_iff.mp (by simpa using h)
  obtain ⟨dist, hdist, h⟩ := bind_eq_ok_iff.mp h
  split_ifs at h with hlength
  simp only [pure_eq_ok, Except.ok.injEq, Prod.mk.injEq] at h
  obtain ⟨rfl, rfl⟩ := h
  obtain ⟨hdist1, hdist2⟩ := pickOptimalDistribution_bounds tr hdist
  exact ⟨not_not.mp hcount, sorted, dist, hsorted, hdist1, hdist2, not_le.mp hlength, rfl,
    by simp⟩

/-- `insertIntoLeaf` either splits the leaf, which then holds `max_node_size + 1` children, or
takes the value's box in. -/
theorem insertIntoLeaf_eq_ok {ns : NodeStore K V D} {box : BoundingBox K D} {count : Nat}
    {valid linked : Bool} {children : List (NodeStore K V D)} {capacity : Nat}
    {result : Inserted K V D}
    (h : insertIntoLeaf tr growth ns box count valid linked children capacity = .ok result) :
    (∃ group1 group2, splitNode tr growth .leaf box (count + 1) valid linked
        (children ++ [ns.setLinked true]) (growth.push children.length capacity) =
        .ok (group1, group2) ∧ result = .split group1 group2) ∨
      (count + 1 ≤ tr.maxNodeSize ∧
        result = .enlarged (.directory .leaf (if count + 1 = 1 then ns.box else box ⊔ ns.box)
          (count + 1) valid linked (children ++ [ns.setLinked true])
          (growth.push children.length capacity))
          (if count + 1 = 1 then ns.box else box ⊔ ns.box)) := by
  rw [insertIntoLeaf] at h
  by_cases hover : tr.maxNodeSize < count + 1
  · rw [if_pos hover] at h
    obtain ⟨⟨group1, group2⟩, hsplit, h⟩ := bind_eq_ok_iff.mp h
    simp only [pure_eq_ok, Except.ok.injEq] at h
    exact .inl ⟨group1, group2, hsplit, h.symm⟩
  · rw [if_neg hover, pure_eq_ok, Except.ok.injEq] at h
    exact .inr ⟨not_lt.mp hover, h.symm⟩

variable {box : BoundingBox K D} {count : Nat} {valid linked : Bool}
  {children : List (NodeStore K V D)} {capacity index : Nat} {result : Inserted K V D}

theorem absorb_enlarged_eq_ok {child : NodeStore K V D} {leafBox : BoundingBox K D}
    (h : absorb tr growth box count valid linked children capacity index
      (.enlarged child leafBox) = .ok result) :
    child.linked ∧ result = .enlarged (.directory .nonleaf (box ⊔ leafBox) count valid linked
      (children.set index child) capacity) leafBox := by
  simp only [absorb] at h
  split_ifs at h with hlinked <;> simp at h
  exact ⟨by simpa using hlinked, h.symm⟩

theorem absorb_packed_eq_ok {child : NodeStore K V D} {changed : Bool}
    (h : absorb tr growth box count valid linked children capacity index
      (.packed child changed) = .ok result) :
    (changed = true ∧ child.linked ∧ result = .packed (.directory .nonleaf
        (packedBox (children.set index child)) count valid linked (children.set index child)
        capacity) (decide (packedBox (children.set index child) ≠ box))) ∨
      (changed = false ∧ result = .packed (.directory .nonleaf box count valid linked
        (children.set index child) capacity) false) := by
  cases changed
  · rw [absorb, if_neg Bool.false_ne_true, pure_eq_ok, Except.ok.injEq] at h
    exact .inr ⟨rfl, h.symm⟩
  · rw [absorb, if_pos rfl] at h
    split_ifs at h with hlinked <;>
      simp only [pure_eq_ok, throw_eq_error, ok_bind, error_bind, reduceCtorEq,
        Except.ok.injEq] at h
    exact .inl ⟨rfl, by simpa using hlinked, h.symm⟩

/-- A split child's sibling goes after the children, the two halves' pointers are reset, and the
directory splits in turn when it overflows; otherwise it is repacked. -/
theorem absorb_split_eq_ok {group1 group2 : NodeStore K V D}
    (h : absorb tr growth box count valid linked children capacity index
      (.split group1 group2) = .ok result) :
    group1.linked ∧
      ((∃ half1 half2, splitNode tr growth .nonleaf
          (packedBox (children.set index group1 ++ [(group2.setLinked true).moved])) (count + 1)
          valid linked (children.set index (group1.setValidPointer false).resetParentPointers ++
            [(group2.setLinked true).moved.resetParentPointers]) capacity = .ok (half1, half2) ∧
          result = .split half1 half2) ∨
        (count + 1 ≤ tr.maxNodeSize ∧ result = .packed (.directory .nonleaf
          (packedBox (children.set index group1 ++ [(group2.setLinked true).moved])) (count + 1)
          valid linked (children.set index (group1.setValidPointer false).resetParentPointers ++
            [(group2.setLinked true).moved.resetParentPointers]) capacity)
          (decide (packedBox (children.set index group1 ++ [(group2.setLinked true).moved]) ≠
            box)))) := by
  simp only [absorb] at h
  split_ifs at h with hlinked hcapacity hover <;>
    simp only [pure_eq_ok, throw_eq_error, ok_bind, error_bind, reduceCtorEq] at h
  · obtain ⟨⟨half1, half2⟩, hsplit, h⟩ := bind_eq_ok_iff.mp h
    rw [Except.ok.injEq] at h
    exact ⟨by simpa using hlinked, .inl ⟨half1, half2, hsplit, h.symm⟩⟩
  · rw [Except.ok.injEq] at h
    exact ⟨by simpa using hlinked, .inr ⟨not_lt.mp ‹_›, h.symm⟩⟩

end Steps

/-! ### The descent -/

section Descent

variable [LinearOrderedCommRing K] [NeZero D] (tr : Trait) (growth : VectorGrowth)
  (ns : NodeStore K V D) {Pre : Nat → NodeStore K V D → Prop}
  {Post : Nat → NodeStore K V D → Inserted K V D → Prop}
  (hchildren : ∀ {depth : Nat} {type : DirType} {box : BoundingBox K D} {count : Nat}
    {valid linked : Bool} {children : List (NodeStore K V D)} {capacity : Nat},
    Pre depth (.directory type box count valid linked children capacity) →
    ∀ child ∈ children, Pre (depth + 1) child)
  (hleaf : ∀ {depth : Nat} {box : BoundingBox K D} {count : Nat} {valid linked : Bool}
    {children : List (NodeStore K V D)} {capacity : Nat} {result : Inserted K V D},
    Pre depth (.directory .leaf box count valid linked children capacity) →
    insertIntoLeaf tr growth ns box count valid linked children capacity = .ok result →
    Post depth (.directory .leaf box count valid linked children capacity) result)
  (habsorb : ∀ {depth : Nat} {box : BoundingBox K D} {count : Nat} {valid linked : Bool}
    {children : List (NodeStore K V D)} {capacity index : Nat} {child : NodeStore K V D}
    {passed result : Inserted K V D},
    Pre depth (.directory .nonleaf box count valid linked children capacity) →
    children[index]? = some child → Post (depth + 1) child passed →
    absorb tr growth box count valid linked children capacity index passed = .ok result →
    Post depth (.directory .nonleaf box count valid linked children capacity) result)
include hchildren hleaf habsorb

set_option linter.unusedSectionVars false in
mutual

/-- What the insertion of `ns` passes up from a node store at `depth` has a property `Post` when
the node store has `Pre`, which its children inherit, and the leaf directory's step and each
directory's step on the way up give `Post` from it. -/
theorem insertDescend_induction :
    ∀ (depth : Nat) (t : NodeStore K V D) (result : Inserted K V D), Pre depth t →
      insertDescend tr growth ns depth t = .ok result → Post depth t result
  | depth, .directory .leaf .., _, hpre, h => by
    rw [insertDescend] at h
    by_cases hdepth : tr.maxTreeDepth ≤ depth
    · simp [hdepth] at h
    rw [if_neg hdepth] at h
    exact hleaf hpre h
  | depth, .directory .nonleaf _ _ _ _ children _, _, hpre, h => by
    rw [insertDescend] at h
    by_cases hdepth : tr.maxTreeDepth ≤ depth
    · simp [hdepth] at h
    rw [if_neg hdepth] at h
    obtain ⟨choice, -, h⟩ := bind_eq_ok_iff.mp h
    cases choice with
    | none => simp at h
    | some index =>
      obtain ⟨passed, hpassed, h⟩ := bind_eq_ok_iff.mp h
      obtain ⟨child, hchild, hpost⟩ :=
        insertAt_induction (depth + 1) index children passed (hchildren hpre) hpassed
      exact habsorb hpre hchild hpost h
  | _, .value .., _, _, h => by
    rw [insertDescend] at h
    split_ifs at h

/-- `insertDescend_induction` into child `index` of a child vector. -/
theorem insertAt_induction :
    ∀ (depth index : Nat) (children : List (NodeStore K V D)) (passed : Inserted K V D),
      (∀ child ∈ children, Pre depth child) →
      insertAt tr growth ns depth index children = .ok passed →
      ∃ child, children[index]? = some child ∧ Post depth child passed
  | _, _, [], _, _, h => by simp [insertAt] at h
  | depth, 0, child :: _, passed, hpre, h =>
    ⟨child, List.getElem?_cons_zero, insertDescend_induction depth child passed
      (hpre child (List.mem_cons_self _ _)) (by rwa [insertAt] at h)⟩
  | depth, index + 1, _ :: rest, passed, hpre, h => by
    simpa only [List.getElem?_cons_succ] using
      insertAt_induction depth index rest passed (fun c hc => hpre c (List.mem_cons_of_mem _ hc))
        (by rwa [insertAt] at h)

end

end Descent

/-! ### Invariant I -/

section Shape

variable [LinearOrderedCommRing K] [NeZero D] (tr : Trait) (growth : VectorGrowth)

/-- What one level of an insertion, from a node store `old` at `depth`, passes up keeps invariant I
as the level above needs it: an enlarged node store is `old` widened by the leaf's new box (below
the root, where the leaf was not empty), a repacked one keeps its box unless it says it changed,
and the halves of a split are directories with the fan-out of a node below the root. -/
def InsertedShaped (height depth : Nat) (old : NodeStore K V D) : Inserted K V D → Prop
  | .enlarged node leafBox => Shaped tr height depth node ∧
      node.isDirectory = old.isDirectory ∧ (depth ≠ 0 → node.box = old.box ⊔ leafBox)
  | .packed node changed => Shaped tr height depth node ∧
      node.isDirectory = old.isDirectory ∧ (changed = false → node.box = old.box)
  | .split group1 group2 => Half tr height depth group1 ∧ Half tr height depth group2

variable {tr} (hmin : 1 ≤ tr.minNodeSize) {height : Nat}
include hmin

/-- A split of `max_node_size + 1` children of one layer gives two halves: a distribution of
`1 … max_dist_size` leaves each group between `min_node_size` and `max_node_size` children. -/
theorem half_splitNode {type : DirType} {box : BoundingBox K D} {count : Nat}
    {valid linked : Bool} {children : List (NodeStore K V D)} {capacity depth : Nat}
    {group1 group2 : NodeStore K V D} (hcount : count = children.length)
    (hkinds : ∀ child ∈ children, child.isDirectory = decide (type = .nonleaf))
    (hleaf : type = .leaf → depth + 1 = height)
    (hchildren : ∀ child ∈ children, Shaped tr height (depth + 1) child)
    (h : splitNode tr growth type box count valid linked children capacity =
      .ok (group1, group2)) :
    Half tr height depth group1 ∧ Half tr height depth group2 := by
  obtain ⟨hcount', sorted, dist, hsorted, hdist1, hdist2, hlt, rfl, rfl⟩ :=
    splitNode_spec tr growth h
  have hsort := sortDirStoreBySplitDimension_spec tr
    (P := fun c => c.isDirectory = decide (type = .nonleaf) ∧ Shaped tr height (depth + 1) c)
    (fun c hc => ⟨by rw [isDirectory_setValidPointer, isDirectory_moved, hc.1],
      (shaped_congr (by simp)).mpr hc.2⟩) hsorted fun c hc => ⟨hkinds c hc, hchildren c hc⟩
  have hsorted' : ∀ s ∈ sorted, s.isDirectory = decide (type = .nonleaf) ∧
      Shaped tr height (depth + 1) s := fun s hs => by
    obtain ⟨x, hx, rfl⟩ := hsort.2 s hs
    exact ⟨by rw [isDirectory_setValidPointer, isDirectory_moved, hx.1],
      (shaped_congr (by simp)).mpr hx.2⟩
  -- both groups hold between `min_node_size` and `max_node_size` children
  have hhalf := tr.min_le_half
  have hlength : sorted.length = tr.maxNodeSize + 1 := by rw [hsort.1, ← hcount, hcount']
  unfold Trait.maxDistSize at hdist2
  simp only [distribution, pack]
  refine ⟨⟨rfl, ⟨fun c hc => (hsorted' c (List.mem_of_mem_take hc)).1, ?_, fun _ => rfl, ?_, hleaf⟩,
      fun c hc => (hsorted' c (List.mem_of_mem_take hc)).2⟩,
    ⟨rfl, ⟨fun c hc => ?_, by simp, fun _ => rfl, ?_, hleaf⟩, fun c hc => ?_⟩⟩
  · rw [List.length_take]
    omega
  · simp only [FanOut, Bool.false_eq_true, if_false, List.length_take]
    omega
  · obtain ⟨s, hs, rfl⟩ := List.mem_map.mp hc
    rw [isDirectory_setLinked, isDirectory_moved]
    exact (hsorted' s (List.mem_of_mem_drop hs)).1
  · simp only [FanOut, Bool.false_eq_true, if_false, List.length_map, List.length_drop]
    omega
  · rw [children_directory] at hc
    obtain ⟨s, hs, rfl⟩ := List.mem_map.mp hc
    exact (shaped_congr (by simp)).mpr (hsorted' s (List.mem_of_mem_drop hs)).2

/-- The leaf directory takes the value in: it splits with `max_node_size + 1` values, or keeps
them with its box widened by the value's, or set to it when it was empty. -/
theorem insertedShaped_insertIntoLeaf {ns : NodeStore K V D} (hns : ns.isDirectory = false)
    {box : BoundingBox K D} {count : Nat} {valid linked : Bool}
    {children : List (NodeStore K V D)} {capacity depth : Nat} {result : Inserted K V D}
    (hold : Shaped tr height depth (.directory .leaf box count valid linked children capacity))
    (h : insertIntoLeaf tr growth ns box count valid linked children capacity = .ok result) :
    InsertedShaped tr height depth (.directory .leaf box count valid linked children capacity)
      result := by
  obtain ⟨⟨hkinds, hcount, htight, hfan, hleaf⟩, hchildren⟩ := shaped_directory.mp hold
  have hdepth := hleaf rfl
  -- the children with the value node pushed onto them
  have hnew : ∀ child ∈ children ++ [ns.setLinked true],
      child.isDirectory = decide (DirType.leaf = .nonleaf) ∧
        Shaped tr height (depth + 1) child := by
    intro child hchild
    rcases List.mem_append.mp hchild with hchild | hchild
    · exact ⟨hkinds child hchild, hchildren child hchild⟩
    · rw [List.mem_singleton.mp hchild]
      cases ns with
      | directory => simp at hns
      | value => exact ⟨rfl, (shaped_value _ _ _).mpr hdepth⟩
  rcases insertIntoLeaf_eq_ok tr growth h with ⟨group1, group2, hsplit, rfl⟩ | ⟨hfits, rfl⟩
  · exact half_splitNode growth hmin (by simp [hcount]) (fun c hc => (hnew c hc).1)
      (fun _ => hdepth) (fun c hc => (hnew c hc).2) hsplit
  · -- below the root the leaf had a child, so its box widens
    have hwide : depth ≠ 0 → count + 1 ≠ 1 := fun hroot => by
      simp only [FanOut, decide_eq_true_eq, hroot, if_false] at hfan
      omega
    refine ⟨shaped_directory.mpr ⟨⟨fun c hc => (hnew c hc).1, by simp [hcount], fun _ => ?_, ?_,
      fun _ => hdepth⟩, fun c hc => (hnew c hc).2⟩, rfl, fun hroot => ?_⟩
    · split_ifs with hfirst
      · obtain rfl : children = [] := List.length_eq_zero.mp (by omega)
        simp [packedBox_singleton]
      · rw [packedBox_append_singleton (List.ne_nil_of_length_pos (by omega)), box_setLinked,
          htight (List.ne_nil_of_length_pos (by omega))]
    · simp only [FanOut, List.length_append, List.length_singleton] at hfan ⊢
      split_ifs at hfan ⊢
      · exact ⟨by omega, fun hnonleaf => absurd hnonleaf (by decide)⟩
      · exact ⟨by omega, by omega⟩
    · simp only [box_directory, if_neg (hwide hroot), sup_left_idem]

/-- A directory on the insertion path takes in what its child passed up: it widens with an enlarged
child, repacks after a child that changed, and places a split child's sibling after its children,
then splits in turn when that overfills it. -/
theorem insertedShaped_absorb {box : BoundingBox K D} {count : Nat} {valid linked : Bool}
    {children : List (NodeStore K V D)} {capacity index depth : Nat} {child : NodeStore K V D}
    {passed result : Inserted K V D}
    (hold : Shaped tr height depth (.directory .nonleaf box count valid linked children capacity))
    (hchild : children[index]? = some child)
    (hpassed : InsertedShaped tr height (depth + 1) child passed)
    (h : absorb tr growth box count valid linked children capacity index passed = .ok result) :
    InsertedShaped tr height depth (.directory .nonleaf box count valid linked children capacity)
      result := by
  obtain ⟨⟨hkinds, hcount, htight, hfan, -⟩, hchildren⟩ := shaped_directory.mp hold
  have hmem : child ∈ children := List.mem_iff_getElem?.mpr ⟨index, hchild⟩
  have hne : children ≠ [] := List.ne_nil_of_mem hmem
  -- the child replaced by a node store of its kind that keeps invariant I
  have hset : ∀ {child' : NodeStore K V D}, child'.isDirectory = child.isDirectory →
      Shaped tr height (depth + 1) child' →
      (∀ c ∈ children.set index child', c.isDirectory = decide (DirType.nonleaf = .nonleaf)) ∧
        ∀ c ∈ children.set index child', Shaped tr height (depth + 1) c :=
    fun hkind hshaped =>
      ⟨forall_mem_set_of_getElem? hchild (fun h => hkind.trans h) hkinds,
        forall_mem_set_of_getElem? hchild (fun _ => hshaped) hchildren⟩
  cases passed with
  | enlarged node leafBox =>
    obtain ⟨hshaped, hkind, hbox⟩ := hpassed
    obtain ⟨-, rfl⟩ := absorb_enlarged_eq_ok tr growth h
    obtain ⟨hkinds', hchildren'⟩ := hset hkind hshaped
    refine ⟨shaped_directory.mpr ⟨⟨hkinds', by simp [hcount], fun _ => ?_, by simpa using hfan,
      fun hleaf => absurd hleaf (by decide)⟩, hchildren'⟩, rfl, fun _ => rfl⟩
    rw [packedBox_set_sup hchild (hbox (Nat.succ_ne_zero depth)), htight hne]
  | packed node changed =>
    obtain ⟨hshaped, hkind, hbox⟩ := hpassed
    obtain ⟨hkinds', hchildren'⟩ := hset hkind hshaped
    rcases absorb_packed_eq_ok tr growth h with ⟨rfl, -, rfl⟩ | ⟨rfl, rfl⟩
    · exact ⟨shaped_directory.mpr ⟨⟨hkinds', by simp [hcount], fun _ => rfl,
        by simpa using hfan, fun hleaf => absurd hleaf (by decide)⟩, hchildren'⟩, rfl,
        fun hchanged => by simpa using hchanged⟩
    · exact ⟨shaped_directory.mpr ⟨⟨hkinds', by simp [hcount],
        fun _ => by rw [packedBox_set_of_box_eq hchild (hbox rfl), htight hne],
        by simpa using hfan, fun hleaf => absurd hleaf (by decide)⟩, hchildren'⟩, rfl,
        fun _ => rfl⟩
  | split group1 group2 =>
    obtain ⟨hhalf1, hhalf2⟩ := hpassed
    obtain ⟨-, hsplit | ⟨hfits, rfl⟩⟩ := absorb_split_eq_ok tr growth h
    all_goals
      -- the children with the halves placed and their pointers reset
      have hreset : ∀ c ∈ children.set index (group1.setValidPointer false).resetParentPointers ++
          [(group2.setLinked true).moved.resetParentPointers],
          c.isDirectory = decide (DirType.nonleaf = .nonleaf) ∧
            Shaped tr height (depth + 1) c := by
        intro c hc
        rcases List.mem_append.mp hc with hc | hc
        · obtain ⟨hkinds', hchildren'⟩ := @hset (group1.setValidPointer false).resetParentPointers
            (by rw [isDirectory_resetParentPointers, isDirectory_setValidPointer,
              hhalf1.isDirectory, hkinds child hmem]; rfl)
            ((shaped_congr (by simp)).mpr hhalf1.shaped)
          exact ⟨hkinds' c hc, hchildren' c hc⟩
        · rw [List.mem_singleton.mp hc]
          exact ⟨by simpa using hhalf2.isDirectory, (shaped_congr (by simp)).mpr hhalf2.shaped⟩
    · obtain ⟨half1, half2, hsplit, rfl⟩ := hsplit
      exact half_splitNode growth hmin (by simp [hcount]) (fun c hc => (hreset c hc).1)
        (fun hleaf => absurd hleaf (by decide)) (fun c hc => (hreset c hc).2) hsplit
    · have hboxes : packedBox (children.set index group1 ++ [(group2.setLinked true).moved]) =
          packedBox (children.set index (group1.setValidPointer false).resetParentPointers ++
            [(group2.setLinked true).moved.resetParentPointers]) :=
        packedBox_congr (by simp [List.map_set])
      refine ⟨shaped_directory.mpr ⟨⟨fun c hc => (hreset c hc).1, by simp [hcount],
        fun _ => hboxes, ?_, fun hleaf => absurd hleaf (by decide)⟩, fun c hc => (hreset c hc).2⟩,
        rfl, fun hchanged => by simpa using hchanged⟩
      simp only [FanOut, List.length_append, List.length_set, List.length_singleton] at hfan ⊢
      have hpos := List.length_pos.mpr hne
      split_ifs at hfan ⊢
      · exact ⟨by omega, fun _ => by omega⟩
      · exact ⟨by omega, by omega⟩

/-- What the descent from a root that keeps invariant I passes up keeps it too: an enlarged or
repacked root of its kind, or two halves. -/
theorem insertedShaped_insertDescend {ns : NodeStore K V D} (hns : ns.isDirectory = false)
    {root : NodeStore K V D} {result : Inserted K V D} (hroot : Shaped tr height 0 root)
    (h : insertDescend tr growth ns 0 root = .ok result) :
    InsertedShaped tr height 0 root result :=
  @insertDescend_induction _ _ _ _ _ tr growth ns (Shaped tr height) (InsertedShaped tr height)
    (fun hpre => (shaped_directory.mp hpre).2) (insertedShaped_insertIntoLeaf growth hmin hns)
    (insertedShaped_absorb growth hmin) 0 root result hroot h

omit [NeZero D] in
/-- The root branch of `split_node` puts a new root over the two halves, one level higher. -/
theorem shaped_placeRootSplit {group1 group2 : NodeStore K V D} (hhalf1 : Half tr height 0 group1)
    (hhalf2 : Half tr height 0 group2) :
    Shaped tr (height + 1) 0 (placeRootSplit growth group1 group2) := by
  have hmax : 2 ≤ tr.maxNodeSize := by
    have := tr.min_le_half
    omega
  refine shaped_directory.mpr ⟨⟨?_, rfl, fun _ => packedBox_congr (by simp), by simp [FanOut, hmax],
    fun hleaf => absurd hleaf (by decide)⟩, ?_⟩
  · simp [hhalf1.isDirectory, hhalf2.isDirectory]
  · simp only [List.mem_cons, List.mem_singleton, List.not_mem_nil, or_false]
    rintro child (rfl | rfl)
    exacts [(shaped_congr (by simp)).mpr hhalf1.shaped_succ,
      (shaped_congr (by simp)).mpr hhalf2.shaped_succ]

/-- `insert(node_store&&)` of a value node into a tree that keeps invariant I returns a tree that
keeps it, one level higher when the root split. -/
theorem shaped_insertNodeStore {root ns tree : NodeStore K V D} (hns : ns.isDirectory = false)
    (hdir : root.isDirectory) (hroot : Shaped tr height 0 root)
    (h : insertNodeStore tr growth root ns = .ok tree) :
    tree.isDirectory ∧ ∃ height', Shaped tr height' 0 tree := by
  obtain ⟨passed, hpassed, h⟩ := bind_eq_ok_iff.mp h
  have hshaped := insertedShaped_insertDescend growth hmin hns hroot hpassed
  cases passed with
  | enlarged node _ =>
    obtain rfl : node = tree := by simpa using h
    exact ⟨hshaped.2.1 ▸ hdir, height, hshaped.1⟩
  | packed node _ =>
    obtain rfl : node = tree := by simpa using h
    exact ⟨hshaped.2.1 ▸ hdir, height, hshaped.1⟩
  | split group1 group2 =>
    obtain rfl : placeRootSplit growth group1 group2 = tree := by simpa using h
    exact ⟨rfl, height + 1, shaped_placeRootSplit growth hmin hshaped.1 hshaped.2⟩

end Shape

/-- `insert(node_store&&)` of a value node keeps invariant I of the tree. -/
theorem invariant_insertNodeStore [LinearOrderedCommRing K] [NeZero D] {tr : Trait}
    (growth : VectorGrowth) (hmin : 1 ≤ tr.minNodeSize) {root ns tree : NodeStore K V D}
    (hns : ns.isDirectory = false) (hinv : Invariant tr root)
    (h : insertNodeStore tr growth root ns = .ok tree) : Invariant tr tree := by
  obtain ⟨height, hroot⟩ := exists_shaped_of_invariant hmin hinv
  obtain ⟨hdir, height', htree⟩ := shaped_insertNodeStore growth hmin hns hinv.1.1 hroot h
  exact invariant_of_shaped hdir htree

/-! ### The parent pointers -/

/-- A node store moved to another address, with its children's `parent` pointers left at the old
one, is mended by `reset_parent_pointers` when its `valid_pointer` is clear. -/
theorem relinkable_moved {ns : NodeStore K V D} (hvalid : ns.validPointer = false)
    (hchildren : ∀ child ∈ ns.children, Relinkable child) : Relinkable ns.moved :=
  (relinkable_iff_of_validPointer (by rwa [validPointer_moved])).mpr (by simpa using hchildren)

/-- What an insertion passes up from a subtree whose `parent` pointers are right: a node with right
pointers that keeps its own `parent` and `valid_pointer`, or two halves over children that
`reset_parent_pointers` mends, of which the node keeps its `parent` and `valid_pointer` and the new
sibling's `valid_pointer` is clear. -/
def InsertedLinked (old : NodeStore K V D) : Inserted K V D → Prop
  | .enlarged node _ | .packed node _ =>
    Linked node ∧ node.linked = old.linked ∧ node.validPointer = old.validPointer
  | .split group1 group2 =>
    group1.linked = old.linked ∧ group1.validPointer = old.validPointer ∧
      (∀ child ∈ group1.children, Relinkable child) ∧ group2.validPointer = false ∧
      ∀ child ∈ group2.children, Relinkable child

/-- A directory whose child `index` is replaced by a linked subtree with right pointers keeps every
pointer right. -/
theorem linked_set {type : DirType} {box : BoundingBox K D} {count : Nat} {valid linked : Bool}
    {children : List (NodeStore K V D)} {capacity index : Nat} {child child' : NodeStore K V D}
    (hold : Linked (.directory type box count valid linked children capacity))
    (hchild : children[index]? = some child) (hlinked : child'.linked) (h : Linked child')
    (box' : BoundingBox K D) (count' : Nat) :
    Linked (.directory type box' count' valid linked (children.set index child') capacity) :=
  linked_directory.mpr ⟨
    forall_mem_set_of_getElem? hchild (fun _ => hlinked) (linked_directory.mp hold).1,
    forall_mem_set_of_getElem? hchild (fun _ => h) (linked_directory.mp hold).2⟩

section Links

variable [LinearOrderedCommRing K] [NeZero D] (tr : Trait) (growth : VectorGrowth)

/-- A split over children whose own children `reset_parent_pointers` mends leaves two halves of
which the same holds: the sorts moved each child and cleared its `valid_pointer`. -/
theorem relinkable_splitNode {type : DirType} {box : BoundingBox K D} {count : Nat}
    {valid linked : Bool} {children : List (NodeStore K V D)} {capacity : Nat}
    {group1 group2 : NodeStore K V D}
    (hchildren : ∀ child ∈ children, ∀ c ∈ child.children, Relinkable c)
    (h : splitNode tr growth type box count valid linked children capacity =
      .ok (group1, group2)) :
    group1.linked = linked ∧ group1.validPointer = valid ∧
      (∀ child ∈ group1.children, Relinkable child) ∧ group2.validPointer = false ∧
      ∀ child ∈ group2.children, Relinkable child := by
  obtain ⟨-, sorted, dist, hsort, -, -, -, rfl, rfl⟩ := splitNode_spec tr growth h
  have hsorted : ∀ s ∈ sorted, s.validPointer = false ∧ ∀ c ∈ s.children, Relinkable c := by
    intro s hs
    obtain ⟨x, hx, rfl⟩ := (sortDirStoreBySplitDimension_spec tr
      (P := fun x => ∀ c ∈ x.children, Relinkable c) (fun _ hx => by simpa using hx) hsort
      hchildren).2 s hs
    exact ⟨validPointer_setValidPointer_false _, by simpa using hx⟩
  refine ⟨rfl, rfl, fun c hc => ?_, rfl, fun c hc => ?_⟩
  · have hs := hsorted c (List.mem_of_mem_take hc)
    exact (relinkable_iff_of_validPointer hs.1).mpr hs.2
  · obtain ⟨s, hs, rfl⟩ := List.mem_map.mp hc
    have hs := hsorted s (List.mem_of_mem_drop hs)
    exact relinkable_setLinked.mpr (relinkable_moved hs.1 hs.2)

/-- The leaf directory, linked to the value node it takes in, keeps its pointers right. -/
theorem insertedLinked_insertIntoLeaf {ns : NodeStore K V D} (hns : ns.isDirectory = false)
    {box : BoundingBox K D} {count : Nat} {valid linked : Bool}
    {children : List (NodeStore K V D)} {capacity : Nat} {result : Inserted K V D}
    (hold : Linked (.directory .leaf box count valid linked children capacity))
    (h : insertIntoLeaf tr growth ns box count valid linked children capacity = .ok result) :
    InsertedLinked (.directory .leaf box count valid linked children capacity) result := by
  -- the value node's `parent` points at the leaf, and it has no pointers below it
  have hvalue : (ns.setLinked true).linked ∧ Linked (ns.setLinked true) := by
    cases ns with
    | directory => simp at hns
    | value => exact ⟨rfl, linked_value _ _ _⟩
  have hnew : ∀ child ∈ children ++ [ns.setLinked true], child.linked ∧ Linked child := by
    intro child hchild
    rcases List.mem_append.mp hchild with hchild | hchild
    · exact hold.child hchild
    · rw [List.mem_singleton.mp hchild]
      exact hvalue
  rcases insertIntoLeaf_eq_ok tr growth h with ⟨group1, group2, hsplit, rfl⟩ | ⟨-, rfl⟩
  · exact relinkable_splitNode tr growth (fun child hchild c hc =>
      relinkable_of_linked c ((hnew child hchild).2.child hc).2) hsplit
  · exact ⟨linked_directory.mpr ⟨fun c hc => (hnew c hc).1, fun c hc => (hnew c hc).2⟩, rfl, rfl⟩

/-- A directory on the insertion path keeps its pointers right: the halves of a split child are
placed with their pointers reset, the node's after its `valid_pointer` is cleared. -/
theorem insertedLinked_absorb {box : BoundingBox K D} {count : Nat} {valid linked : Bool}
    {children : List (NodeStore K V D)} {capacity index : Nat} {child : NodeStore K V D}
    {passed result : Inserted K V D}
    (hold : Linked (.directory .nonleaf box count valid linked children capacity))
    (hchild : children[index]? = some child) (hpassed : InsertedLinked child passed)
    (h : absorb tr growth box count valid linked children capacity index passed = .ok result) :
    InsertedLinked (.directory .nonleaf box count valid linked children capacity) result := by
  have hold_child := hold.child (List.mem_iff_getElem?.mpr ⟨index, hchild⟩)
  cases passed with
  | enlarged node _ =>
    obtain ⟨hlinked, rfl⟩ := absorb_enlarged_eq_ok tr growth h
    exact ⟨linked_set hold hchild hlinked hpassed.1 _ _, rfl, rfl⟩
  | packed node _ =>
    have hlinked : node.linked := hpassed.2.1 ▸ hold_child.1
    rcases absorb_packed_eq_ok tr growth h with ⟨-, -, rfl⟩ | ⟨-, rfl⟩ <;>
      exact ⟨linked_set hold hchild hlinked hpassed.1 _ _, rfl, rfl⟩
  | split group1 group2 =>
    obtain ⟨-, hvalid1, hchildren1, hvalid2, hchildren2⟩ := hpassed
    obtain ⟨hlinked, hsplit | ⟨-, rfl⟩⟩ := absorb_split_eq_ok tr growth h
    all_goals
      -- the children with the halves placed and their pointers reset
      have hreset : ∀ c ∈ children.set index (group1.setValidPointer false).resetParentPointers ++
          [(group2.setLinked true).moved.resetParentPointers], c.linked ∧ Linked c := by
        intro c hc
        rcases List.mem_append.mp hc with hc | hc
        · exact forall_mem_set_of_getElem? hchild (p := fun c => c.linked ∧ Linked c)
            (fun _ => ⟨by simpa using hlinked, (relinkable_iff_of_validPointer
              (validPointer_setValidPointer_false _)).mpr (by simpa using hchildren1)⟩)
            (fun c hc => hold.child hc) c hc
        · rw [List.mem_singleton.mp hc]
          exact ⟨by simp, relinkable_moved (by simpa using hvalid2) (by simpa using hchildren2)⟩
    · obtain ⟨half1, half2, hsplit, rfl⟩ := hsplit
      exact relinkable_splitNode tr growth (fun c hc x hx =>
        relinkable_of_linked x ((hreset c hc).2.child hx).2) hsplit
    · exact ⟨linked_directory.mpr ⟨fun c hc => (hreset c hc).1, fun c hc => (hreset c hc).2⟩,
        rfl, rfl⟩

/-- What the descent from a subtree with right pointers passes up keeps them right. -/
theorem insertedLinked_insertDescend {ns : NodeStore K V D} (hns : ns.isDirectory = false)
    {depth : Nat} {t : NodeStore K V D} {result : Inserted K V D} (ht : Linked t)
    (h : insertDescend tr growth ns depth t = .ok result) : InsertedLinked t result :=
  @insertDescend_induction _ _ _ _ _ tr growth ns (fun _ => Linked) (fun _ => InsertedLinked)
    (fun hpre _ hchild => (hpre.child hchild).2) (insertedLinked_insertIntoLeaf tr growth hns)
    (insertedLinked_absorb tr growth) depth t result ht h

omit [NeZero D] in
/-- The root branch of `split_node` puts a root with `valid_pointer` clear over the two halves and
resets their pointers. -/
theorem linked_placeRootSplit {group1 group2 : NodeStore K V D}
    (hvalid1 : group1.validPointer = false)
    (hchildren1 : ∀ child ∈ group1.children, Relinkable child)
    (hvalid2 : group2.validPointer = false)
    (hchildren2 : ∀ child ∈ group2.children, Relinkable child) :
    Linked (placeRootSplit growth group1 group2) ∧
      (placeRootSplit growth group1 group2).validPointer = false := by
  refine ⟨linked_directory.mpr ⟨by simp, ?_⟩, rfl⟩
  simp only [List.mem_cons, List.mem_singleton, List.not_mem_nil, or_false]
  rintro child (rfl | rfl)
  exacts [relinkable_moved (by simpa using hvalid1) (by simpa using hchildren1),
    relinkable_moved (by simpa using hvalid2) (by simpa using hchildren2)]

/-- `insert(node_store&&)` into a tree with right pointers and the root's `valid_pointer` clear
keeps both. -/
theorem linked_insertNodeStore {root ns tree : NodeStore K V D} (hns : ns.isDirectory = false)
    (hroot : Linked root) (hvalid : root.validPointer = false)
    (h : insertNodeStore tr growth root ns = .ok tree) :
    Linked tree ∧ tree.validPointer = false := by
  obtain ⟨passed, hpassed, h⟩ := bind_eq_ok_iff.mp h
  have hlinked := insertedLinked_insertDescend tr growth hns hroot hpassed
  cases passed with
  | enlarged node _ =>
    obtain rfl : node = tree := by simpa using h
    exact ⟨hlinked.1, hlinked.2.2.trans hvalid⟩
  | packed node _ =>
    obtain rfl : node = tree := by simpa using h
    exact ⟨hlinked.1, hlinked.2.2.trans hvalid⟩
  | split group1 group2 =>
    obtain rfl : placeRootSplit growth group1 group2 = tree := by simpa using h
    obtain ⟨-, hvalid1, hchildren1, hvalid2, hchildren2⟩ := hlinked
    exact linked_placeRootSplit growth (hvalid1.trans hvalid) hchildren1 hvalid2 hchildren2

end Links

/-! ### Runs of insertions -/

section Runs

variable [LinearOrderedCommRing K] [NeZero D]

/-- An `rtree` in the state its calls keep: invariant I, every `parent` pointer right, and the
root's `valid_pointer` clear, so that a split of the root resets the halves' pointers. -/
structure WellFormed (tr : Trait) (root : NodeStore K V D) : Prop where
  invariant : Invariant tr root
  linked : Linked root
  validPointer : root.validPointer = false

instance (tr : Trait) (root : NodeStore K V D) : Decidable (WellFormed tr root) :=
  decidable_of_iff (Invariant tr root ∧ Linked root ∧ root.validPointer = false)
    ⟨fun ⟨h1, h2, h3⟩ => ⟨h1, h2, h3⟩, fun ⟨h1, h2, h3⟩ => ⟨h1, h2, h3⟩⟩

variable {tr : Trait} (growth : VectorGrowth)

omit [NeZero D] in
/-- The tree of a newly constructed `rtree`, a leaf directory without children, is well formed. -/
theorem wellFormed_empty : WellFormed tr (empty : NodeStore K V D) := by
  have hshaped : Shaped tr 1 0 (empty : NodeStore K V D) :=
    shaped_directory.mpr ⟨⟨by simp, rfl, by simp, by simp [FanOut], fun _ => rfl⟩, by simp⟩
  exact ⟨invariant_of_shaped rfl hshaped, linked_directory.mpr ⟨by simp, by simp⟩, rfl⟩

/-- `insert(node_store&&)` of a value node keeps the tree well formed. -/
theorem WellFormed.insertNodeStore (hmin : 1 ≤ tr.minNodeSize) {root ns tree : NodeStore K V D}
    (hwf : WellFormed tr root) (hns : ns.isDirectory = false)
    (h : insertNodeStore tr growth root ns = .ok tree) : WellFormed tr tree :=
  have hlinked := linked_insertNodeStore tr growth hns hwf.linked hwf.validPointer h
  ⟨invariant_insertNodeStore growth hmin hns hwf.invariant h, hlinked.1, hlinked.2⟩

/-- `rtree::insert(start, end, value)` returns exactly when `insert(node_store&&)` of its value
node does, with the same tree. -/
theorem insert_eq_returned_iff {root tree : NodeStore K V D} {start «end» : Point K D} {value : V} :
    insert tr growth root start «end» value = .returned tree ↔
      RTree.insertNodeStore tr growth root (.value ⟨start, «end»⟩ false value) = .ok tree := by
  cases hins : RTree.insertNodeStore tr growth root (.value ⟨start, «end»⟩ false value) with
  | ok => simp [RTree.insert, hins]
  | error failure => cases failure <;> simp [RTree.insert, hins]

/-- An `rtree::insert(start, end, value)` that throws leaves the tree it was given. -/
theorem eq_of_insert_eq_threw {root tree : NodeStore K V D} {start «end» : Point K D} {value : V}
    {what : String} (h : insert tr growth root start «end» value = .threw what tree) :
    tree = root := by
  cases hins : RTree.insertNodeStore tr growth root (.value ⟨start, «end»⟩ false value) with
  | ok => simp [RTree.insert, hins] at h
  | error failure =>
    cases failure <;> simp [RTree.insert, hins] at h
    exact h.2.symm

/-- `rtree::insert(start, end, value)` leaves a well-formed tree well formed, whether it returns or
throws. -/
theorem wellFormed_insert (hmin : 1 ≤ tr.minNodeSize) {root : NodeStore K V D}
    (hwf : WellFormed tr root) (start «end» : Point K D) (value : V) {tree : NodeStore K V D}
    (h : (insert tr growth root start «end» value).tree? = some tree) : WellFormed tr tree := by
  cases hins : insertNodeStore tr growth root (.value ⟨start, «end»⟩ false value) with
  | ok tree' =>
    simp only [RTree.insert, hins, Outcome.tree?, Option.some.injEq] at h
    exact h ▸ hwf.insertNodeStore growth hmin (by rfl) hins
  | error failure =>
    -- a thrown exception leaves the tree as it was; any other failure leaves none
    cases failure <;>
      simp only [RTree.insert, hins, Outcome.tree?, Option.some.injEq, reduceCtorEq] at h
    exact h ▸ hwf

/-- Every tree a run of `rtree::insert` calls leaves from a well-formed tree is well formed:
invariant I, the `parent` pointers and the root's clear `valid_pointer` hold after each call,
through every split, whether it returned or threw. -/
theorem insertAll_keeps_invariant (hmin : 1 ≤ tr.minNodeSize) {root : NodeStore K V D}
    (hwf : WellFormed tr root) (entries : List (Point K D × Point K D × V))
    {tree : NodeStore K V D} (h : (insertAll tr growth root entries).tree? = some tree) :
    WellFormed tr tree := by
  induction entries generalizing root with
  | nil =>
    obtain rfl : root = tree := by simpa [insertAll, Outcome.tree?] using h
    exact hwf
  | cons entry rest ih =>
    obtain ⟨start, «end», value⟩ := entry
    cases hins : insert tr growth root start «end» value with
    | returned tree' | threw _ tree' =>
      rw [insertAll, hins] at h
      exact ih (wellFormed_insert growth hmin hwf start «end» value (by rw [hins]; rfl)) h
    | failed => simp [insertAll, hins, Outcome.tree?] at h

end Runs

/-- Three points inserted into the empty tree with `min_node_size = 1` and `max_node_size = 2`: the
third splits the root leaf under a new root. -/
theorem insertAll_threePoints_wellFormed :
    ∃ tree, (insertAll ⟨1, 2, 100, by decide⟩ .libstdcxx (empty : NodeStore Int Nat 1)
      [(⟨fun _ => 0⟩, ⟨fun _ => 0⟩, 0), (⟨fun _ => 1⟩, ⟨fun _ => 1⟩, 1),
        (⟨fun _ => 2⟩, ⟨fun _ => 2⟩, 2)]).tree? = some tree ∧
      WellFormed ⟨1, 2, 100, by decide⟩ tree :=
  ⟨_, rfl, insertAll_keeps_invariant .libstdcxx (by decide)
    wellFormed_empty ([(⟨fun _ => 0⟩, ⟨fun _ => 0⟩, 0), (⟨fun _ => 1⟩, ⟨fun _ => 1⟩, 1),
      (⟨fun _ => 2⟩, ⟨fun _ => 2⟩, 2)] : List (Point Int 1 × Point Int 1 × Nat)) rfl⟩

end Mdds.RTree

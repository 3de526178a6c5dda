import Mdds.RTree.Insert

/-!
# The R* heuristics: intersection volume, split distribution and subtree choice

`calc_intersection` computes the volume two boxes share with a swap and a three-way case split
per dimension and a loop that stops at the first zero length. On boxes whose `start` lies at or
before their `end` in every dimension it is the product of the overlap lengths
`max 0 (min end₁ end₂ - max start₁ start₂)`, and so symmetric (`calcIntersection_eq_prod`).

`min_value_pos` is the running minimum both split heuristics keep. A run of `assign` ends with the
least value and the position that came with its first occurrence (`FirstLeast`,
`firstLeast_foldl_assign`; over the positions `1 … n`, `foldl_assign_range'`). So
`pick_optimal_distribution` returns the first distribution of least overlap
(`pickOptimalDistribution_first_least`), and `split_node` keeps that distribution's group 1 and
moves its group 2 (`splitNode_first_least_overlap`). Neither looks at areas: among distributions
that tie on overlap the first is kept even when a later one has the smaller combined area
(`splitNode_ignores_area_on_overlap_tie`).

The pick loop of `find_node_for_insertion` replaces its pick when a child is better on any one
criterion, not only on the first one where the two differ. What it keeps is a child no later
child beats on any criterion (`pickChild_le_of_lt`); a child before it may be smaller in the
lexicographic order of the criteria (`chooseSubtree_not_lexicographic`).

Scope. The distributions are those of `distribution`; `distributionOverlap` and
`distributionArea` read their two groups' bounding boxes.
-/

set_option autoImplicit false
set_option relaxedAutoImplicit false

namespace Mdds.RTree

open NodeStore BoundingBox

variable {K V : Type} {D : Nat}

/-! ### The intersection volume -/

namespace BoundingBox

section Volume

variable [LinearOrderedCommRing K]

/-- The code's case split after the swap: the overlap of `[start1, end1]` and `[start2, end2]`
when the first starts no later and the second is not reversed. -/
theorem linearIntersection_eq {start1 end1 start2 end2 : K} (hstart : start1 ≤ start2)
    (hsecond : start2 ≤ end2) :
    linearIntersection end1 start2 end2 = max 0 (min end1 end2 - max start1 start2) := by
  rw [linearIntersection, max_eq_right hstart]
  split_ifs with hapart hinside
  · exact (max_eq_left (by linarith [min_le_left end1 end2])).symm
  · rw [min_eq_left hinside.le, max_eq_right (sub_nonneg.mpr (not_lt.mp hapart))]
  · rw [min_eq_right (not_lt.mp hinside), max_eq_right (by linarith)]

/-- `calc_linear_intersection` along `dim` is the overlap length of the two boxes there. -/
theorem calcLinearIntersection_eq (dim : Fin D) {bb1 bb2 : BoundingBox K D}
    (hbb1 : bb1.start.d dim ≤ bb1.«end».d dim) (hbb2 : bb2.start.d dim ≤ bb2.«end».d dim) :
    calcLinearIntersection dim bb1 bb2 =
      max 0 (min (bb1.«end».d dim) (bb2.«end».d dim) -
        max (bb1.start.d dim) (bb2.start.d dim)) := by
  rw [calcLinearIntersection]
  split_ifs with hswap
  · rw [linearIntersection_eq hswap.le hbb1, min_comm (bb2.«end».d dim),
      max_comm (bb2.start.d dim)]
  · exact linearIntersection_eq (not_lt.mp hswap) hbb2

/-- The loop of `calc_intersection` multiplies the volume by every remaining length: stopping at
a zero length gives the product too. -/
theorem intersectionFrom_eq (bb1 bb2 : BoundingBox K D) :
    ∀ (total : K) (dims : List (Fin D)),
      intersectionFrom bb1 bb2 total dims =
        total * (dims.map fun dim => calcLinearIntersection dim bb1 bb2).prod
  | total, [] => by simp [intersectionFrom]
  | total, dim :: dims => by
    rw [intersectionFrom]
    split_ifs with hzero
    · simp [hzero]
    · rw [intersectionFrom_eq bb1 bb2 _ dims, List.map_cons, List.prod_cons, mul_assoc]

/-- `calc_intersection` is the product of the lengths along every dimension. -/
theorem calcIntersection_eq_prod_linear [NeZero D] (bb1 bb2 : BoundingBox K D) :
    calcIntersection bb1 bb2 = ∏ dim, calcLinearIntersection dim bb1 bb2 := by
  obtain ⟨n, rfl⟩ : ∃ n, D = n + 1 := ⟨D - 1, by have := NeZero.ne D; omega⟩
  rw [← List.prod_ofFn, List.ofFn_eq_map, List.finRange_succ, List.map_cons, List.prod_cons,
    calcIntersection]
  split_ifs with hzero
  · rw [hzero, zero_mul]
  · rw [intersectionFrom_eq, List.finRange_succ, List.tail_cons]

/-- On boxes with `start ≤ end` in every dimension, `calc_intersection` is the product over the
dimensions of the overlap lengths. -/
theorem calcIntersection_eq_prod_overlap [NeZero D] {bb1 bb2 : BoundingBox K D}
    (hbb1 : ∀ dim, bb1.start.d dim ≤ bb1.«end».d dim)
    (hbb2 : ∀ dim, bb2.start.d dim ≤ bb2.«end».d dim) :
    calcIntersection bb1 bb2 =
      ∏ dim, max 0 (min (bb1.«end».d dim) (bb2.«end».d dim) -
        max (bb1.start.d dim) (bb2.start.d dim)) := by
  rw [calcIntersection_eq_prod_linear]
  exact Finset.prod_congr rfl fun dim _ => calcLinearIntersection_eq dim (hbb1 dim) (hbb2 dim)

/-- On boxes with `start ≤ end` in every dimension, `calc_intersection` is the product over the
dimensions of the overlap lengths, early exit included, and so it does not depend on the order of
its arguments. -/
theorem calcIntersection_eq_prod [NeZero D] (bb1 bb2 : BoundingBox K D)
    (hbb1 : ∀ dim, bb1.start.d dim ≤ bb1.«end».d dim)
    (hbb2 : ∀ dim, bb2.start.d dim ≤ bb2.«end».d dim) :
    calcIntersection bb1 bb2 =
        ∏ dim, max 0 (min (bb1.«end».d dim) (bb2.«end».d dim) -
          max (bb1.start.d dim) (bb2.start.d dim)) ∧
      calcIntersection bb1 bb2 = calcIntersection bb2 bb1 := by
  refine ⟨calcIntersection_eq_prod_overlap hbb1 hbb2, ?_⟩
  rw [calcIntersection_eq_prod_overlap hbb1 hbb2, calcIntersection_eq_prod_overlap hbb2 hbb1]
  exact Finset.prod_congr rfl fun dim _ => by
    rw [min_comm (bb1.«end».d dim), max_comm (bb1.start.d dim)]

/-- The box `[0, 4] × [1, 3]` of the plane. -/
def planeBoxLeft : BoundingBox Int 2 := ⟨⟨![0, 1]⟩, ⟨![4, 3]⟩⟩

/-- The box `[2, 6] × [0, 2]` of the plane. -/
def planeBoxRight : BoundingBox Int 2 := ⟨⟨![2, 0]⟩, ⟨![6, 2]⟩⟩

/-- `planeBoxLeft` and `planeBoxRight` share the rectangle `[2, 4] × [1, 2]`. -/
theorem calcIntersection_planeBoxes :
    (∀ dim, planeBoxLeft.start.d dim ≤ planeBoxLeft.«end».d dim) ∧
      (∀ dim, planeBoxRight.start.d dim ≤ planeBoxRight.«end».d dim) ∧
      (calcIntersection planeBoxLeft planeBoxRight =
          ∏ dim, max 0 (min (planeBoxLeft.«end».d dim) (planeBoxRight.«end».d dim) -
            max (planeBoxLeft.start.d dim) (planeBoxRight.start.d dim)) ∧
        calcIntersection planeBoxLeft planeBoxRight =
          calcIntersection planeBoxRight planeBoxLeft) :=
  ⟨by decide, by decide, calcIntersection_eq_prod _ _ (by decide) (by decide)⟩

example : calcIntersection planeBoxLeft planeBoxRight = 2 := by decide

end Volume

end BoundingBox

/-! ### The running minimum -/

namespace MinValuePos

section Run

variable [LinearOrder K]

@[simp] theorem count_assign (m : MinValuePos K) (newValue : K) (newPos : Nat) :
    (m.assign newValue newPos).count = m.count + 1 := by
  unfold assign
  split_ifs <;> rfl

theorem assign_of_count_eq_zero {m : MinValuePos K} (hcount : m.count = 0) (newValue : K)
    (newPos : Nat) : m.assign newValue newPos = ⟨newValue, newPos, m.count + 1⟩ := by
  simp [assign, hcount]

theorem assign_of_lt {m : MinValuePos K} (hcount : m.count ≠ 0) {newValue : K}
    (hless : newValue < m.value) (newPos : Nat) :
    m.assign newValue newPos = ⟨newValue, newPos, m.count + 1⟩ := by
  simp [assign, hcount, hless]

theorem assign_of_not_lt {m : MinValuePos K} (hcount : m.count ≠ 0) {newValue : K}
    (hless : ¬newValue < m.value) (newPos : Nat) :
    m.assign newValue newPos = { m with count := m.count + 1 } := by
  simp [assign, hcount, hless]

/-- `m` holds the least of `values`, each a value with the position it came with, and the
position of the first occurrence of that value, which stands at `index`. -/
structure FirstLeast (values : List (K × Nat)) (m : MinValuePos K) (index : Nat) : Prop where
  value_at : values[index]? = some (m.value, m.pos)
  least : ∀ x ∈ values, m.value ≤ x.1
  first : ∀ j < index, ∀ x, values[j]? = some x → m.value < x.1

/-- The first `assign` takes its value. -/
theorem firstLeast_assign_singleton {m : MinValuePos K} (hcount : m.count = 0) (x : K × Nat) :
    FirstLeast [x] (m.assign x.1 x.2) 0 := by
  rw [assign_of_count_eq_zero hcount]
  exact ⟨rfl, by simp, fun j hj => absurd hj (Nat.not_lt_zero j)⟩

/-- A later `assign` takes its value only when it is below the least so far, so that the first
occurrence of the least value keeps its position. -/
theorem FirstLeast.assign {values : List (K × Nat)} {m : MinValuePos K} {index : Nat}
    (h : FirstLeast values m index) (hcount : m.count ≠ 0) (x : K × Nat) :
    ∃ index', FirstLeast (values ++ [x]) (m.assign x.1 x.2) index' := by
  have hindex : index < values.length := (List.getElem?_eq_some_iff.mp h.value_at).1
  by_cases hless : x.1 < m.value
  · rw [assign_of_lt hcount hless]
    refine ⟨values.length, by simp, fun y hy => ?_, fun j hj y hy => ?_⟩
    · rcases List.mem_append.mp hy with hy | hy
      · exact hless.le.trans (h.least y hy)
      · rw [List.mem_singleton.mp hy]
    · rw [List.getElem?_append_left hj] at hy
      exact hless.trans_le (h.least y (List.mem_iff_getElem?.mpr ⟨j, hy⟩))
  · rw [assign_of_not_lt hcount hless]
    refine ⟨index, by rw [List.getElem?_append_left hindex]; exact h.value_at, fun y hy => ?_,
      fun j hj y hy => ?_⟩
    · rcases List.mem_append.mp hy with hy | hy
      · exact h.least y hy
      · rw [List.mem_singleton.mp hy]
        exact not_lt.mp hless
    · rw [List.getElem?_append_left (hj.trans hindex)] at hy
      exact h.first j hj y hy

/-- A run of `assign` from a fresh `min_value_pos` counts its values and, when there was one,
holds the least value and the position of its first occurrence. -/
theorem firstLeast_foldl_assign [Zero K] (values : List (K × Nat)) :
    (values.foldl (fun m x => m.assign x.1 x.2) init).count = values.length ∧
      (values ≠ [] →
        ∃ index, FirstLeast values (values.foldl (fun m x => m.assign x.1 x.2) init) index) := by
  induction values using List.reverseRecOn with
  | nil => exact ⟨rfl, fun h => absurd rfl h⟩
  | append_singleton values x ih =>
    rw [List.foldl_append, List.foldl_cons, List.foldl_nil, count_assign, ih.1,
      List.length_append, List.length_singleton]
    refine ⟨rfl, fun _ => ?_⟩
    by_cases hne : values = []
    · subst hne
      exact ⟨0, firstLeast_assign_singleton ih.1 x⟩
    · obtain ⟨index, h⟩ := ih.2 hne
      exact h.assign (by rw [ih.1]; exact List.length_pos.mpr hne |>.ne') x

/-- A run of `assign` over the positions `1 … n`, each with its value `f k`, ends on the first
position of the least value. -/
theorem foldl_assign_range' [Zero K] (f : Nat → K) {n : Nat} (hn : 0 < n) :
    let m := (List.range' 1 n).foldl (fun m k => m.assign (f k) k) init
    1 ≤ m.pos ∧ m.pos ≤ n ∧ (∀ k, 1 ≤ k → k ≤ n → f m.pos ≤ f k) ∧
      ∀ k, 1 ≤ k → k < m.pos → f m.pos < f k := by
  have hrun := firstLeast_foldl_assign ((List.range' 1 n).map fun k => (f k, k))
  simp only [List.foldl_map] at hrun
  obtain ⟨index, hleast⟩ := hrun.2 (by simp [List.range'_eq_nil]; omega)
  obtain ⟨_, hat, hpair⟩ := Option.map_eq_some'.mp
    ((List.getElem?_map _ _ _).symm.trans hleast.value_at)
  obtain ⟨hindex, rfl⟩ := List.getElem?_eq_some_iff.mp hat
  simp only [List.length_range', List.getElem_range', Prod.mk.injEq] at hindex hpair
  obtain ⟨hvalue, hpos⟩ := hpair
  intro m
  rw [← hpos, hvalue]
  refine ⟨by omega, by omega, fun k hk hkn => ?_, fun k hk hkpos => ?_⟩
  · exact hleast.least _ (List.mem_map_of_mem _ (List.mem_range'_1.mpr ⟨hk, by omega⟩))
  · refine hleast.first (k - 1) (by omega) (f k, k) ?_
    rw [List.getElem?_map, List.getElem?_range' 1 1 (by omega), show 1 + 1 * (k - 1) = k by omega]
    rfl

end Run

end MinValuePos

/-! ### The distribution of a split -/

section Distribution

variable [LinearOrderedCommRing K] [NeZero D]

/-- The volume the two groups of distribution `dist` share, the value `pick_optimal_distribution`
weighs; `0` when a group is empty, where the code has no result. -/
def distributionOverlap (tr : Trait) (children : List (NodeStore K V D)) (dist : Nat) : K :=
  match calcBoundingBox (distribution tr dist children).1,
      calcBoundingBox (distribution tr dist children).2 with
  | some bb1, some bb2 => calcIntersection bb1 bb2
  | _, _ => 0

/-- Modelled from the spec: the areas of the two groups' bounding boxes of distribution `dist`,
added, which the R* split compares among the distributions of least overlap; `0` when a group is
empty. -/
def distributionArea (tr : Trait) (children : List (NodeStore K V D)) (dist : Nat) : K :=
  match calcBoundingBox (distribution tr dist children).1,
      calcBoundingBox (distribution tr dist children).2 with
  | some bb1, some bb2 => calcArea bb1 + calcArea bb2
  | _, _ => 0

/-- A run of `pick_optimal_distribution` that returns has passed every check and assigned the
overlap of each distribution in turn. -/
theorem pickOptimalDistribution_eq_pos (tr : Trait) (children : List (NodeStore K V D))
    {dist : Nat} (h : pickOptimalDistribution tr children = .ok dist) :
    dist = ((List.range' 1 tr.maxDistSize).foldl
      (fun m dist => m.assign (distributionOverlap tr children dist) dist)
        MinValuePos.init).pos := by
  rw [pickOptimalDistribution] at h
  obtain ⟨m, hfold, hpos⟩ := bind_eq_ok_iff.mp h
  rw [pure_eq_ok, Except.ok.injEq] at hpos
  subst hpos
  rw [foldlM_eq_ok_foldl
    (g := fun m dist => m.assign (distributionOverlap tr children dist) dist)
    (fun m dist m' hstep => by
      dsimp only at hstep ⊢
      rw [distributionOverlap]
      split_ifs at hstep <;>
        simp only [pure_eq_ok, throw_eq_error, ok_bind, error_bind, reduceCtorEq] at hstep
      cases hbb1 : calcBoundingBox (distribution tr dist children).1 <;>
        cases hbb2 : calcBoundingBox (distribution tr dist children).2 <;>
        simp only [hbb1, hbb2, throw_eq_error, pure_eq_ok, reduceCtorEq, Except.ok.injEq]
          at hstep ⊢
      exact hstep.symm) _ _ _ hfold]

/-- `pick_optimal_distribution` returns the first of the distributions `1 … max_dist_size` whose
two groups overlap least. -/
theorem pickOptimalDistribution_first_least (tr : Trait) (children : List (NodeStore K V D))
    {dist : Nat} (h : pickOptimalDistribution tr children = .ok dist) :
    1 ≤ dist ∧ dist ≤ tr.maxDistSize ∧
      (∀ k, 1 ≤ k → k ≤ tr.maxDistSize →
        distributionOverlap tr children dist ≤ distributionOverlap tr children k) ∧
      ∀ k, 1 ≤ k → k < dist →
        distributionOverlap tr children dist < distributionOverlap tr children k := by
  rw [pickOptimalDistribution_eq_pos tr children h]
  exact MinValuePos.foldl_assign_range' (distributionOverlap tr children)
    (by unfold Trait.maxDistSize; omega)

end Distribution

/-! ### A tie on overlap -/

/-- `min_node_size = 1` and `max_node_size = 3`: a split weighs three distributions. -/
def spreadTrait : Trait := ⟨1, 3, 100, by decide⟩

/-- The point of key `key` as a value node. -/
def pointValue (key : Int) (value : Nat) : NodeStore Int Nat 1 :=
  .value ⟨⟨fun _ => key⟩, ⟨fun _ => key⟩⟩ true value

/-- The points `0`, `1`, `2` and `10`: the children of a leaf that has just overflowed. -/
def spreadPoints : List (NodeStore Int Nat 1) :=
  [pointValue 0 0, pointValue 1 1, pointValue 2 2, pointValue 10 3]

/-- `pick_optimal_distribution` on `spreadPoints`. -/
theorem pickOptimalDistribution_spreadPoints :
    pickOptimalDistribution spreadTrait spreadPoints = .ok 1 ∧
      1 ≤ 1 ∧ 1 ≤ spreadTrait.maxDistSize ∧
      (∀ k, 1 ≤ k → k ≤ spreadTrait.maxDistSize →
        distributionOverlap spreadTrait spreadPoints 1 ≤
          distributionOverlap spreadTrait spreadPoints k) ∧
      ∀ k, 1 ≤ k → k < 1 →
        distributionOverlap spreadTrait spreadPoints 1 <
          distributionOverlap spreadTrait spreadPoints k :=
  ⟨rfl, pickOptimalDistribution_first_least spreadTrait spreadPoints rfl⟩

/-- The leaf of `spreadPoints` after the fourth push: all three distributions overlap by `0`, and
their combined areas are `9`, `9` and `2`. `split_node` sorts the points in place, picks the
first distribution, and keeps the single point `0` against the three others, although the third
distribution, `{0, 1, 2}` against `{10}`, ties on overlap with the smaller area. -/
theorem splitNode_ignores_area_on_overlap_tie :
    ∃ sorted group1 group2,
      sortDirStoreBySplitDimension spreadTrait spreadPoints = .ok sorted ∧
      (List.range' 1 spreadTrait.maxDistSize).map (distributionOverlap spreadTrait sorted) =
        [0, 0, 0] ∧
      (List.range' 1 spreadTrait.maxDistSize).map (distributionArea spreadTrait sorted) =
        [9, 9, 2] ∧
      pickOptimalDistribution spreadTrait sorted = .ok 1 ∧
      splitNode spreadTrait .libstdcxx .leaf ⟨⟨fun _ => 0⟩, ⟨fun _ => 10⟩⟩ 4 true true
        spreadPoints 4 = .ok (group1, group2) ∧
      group1.children.length = 1 ∧ group2.children.length = 3 :=
  ⟨_, _, _, rfl, by decide, by decide, rfl, rfl, rfl, rfl⟩

/-- What `split_node` does with the children of a full directory: after
`sort_dir_store_by_split_dimension` has ordered them, the directory keeps group 1 of distribution
`dist` and the new sibling holds group 2, moved, where `dist` is the first of the distributions
`1 … max_dist_size` whose two groups' bounding boxes overlap least. No area is weighed. -/
theorem splitNode_first_least_overlap [LinearOrderedCommRing K] [NeZero D] (tr : Trait)
    (growth : VectorGrowth) {type : DirType} {box : BoundingBox K D} {count : Nat}
    {valid linked : Bool} {children : List (NodeStore K V D)} {capacity : Nat}
    {group1 group2 : NodeStore K V D}
    (h : splitNode tr growth type box count valid linked children capacity =
      .ok (group1, group2)) :
    ∃ sorted dist, sortDirStoreBySplitDimension tr children = .ok sorted ∧
      group1.children = (distribution tr dist sorted).1 ∧
      group2.children = (distribution tr dist sorted).2.map (fun ns => ns.moved.setLinked false) ∧
      1 ≤ dist ∧ dist ≤ tr.maxDistSize ∧
      (∀ k, 1 ≤ k → k ≤ tr.maxDistSize →
        distributionOverlap tr sorted dist ≤ distributionOverlap tr sorted k) ∧
      ∀ k, 1 ≤ k → k < dist →
        distributionOverlap tr sorted dist < distributionOverlap tr sorted k := by
  rw [splitNode] at h
  split_ifs at h
  · simp at h
  obtain ⟨sorted, hsorted, h⟩ := bind_eq_ok_iff.mp (by simpa using h)
  obtain ⟨dist, hdist, h⟩ := bind_eq_ok_iff.mp h
  split_ifs at h
  obtain ⟨rfl, rfl⟩ := Prod.mk.inj (Except.ok.inj h)
  refine ⟨sorted, dist, hsorted, rfl, rfl, ?_⟩
  rw [pickOptimalDistribution_eq_pos tr sorted hdist]
  exact MinValuePos.foldl_assign_range' (distributionOverlap tr sorted)
    (by unfold Trait.maxDistSize; omega)

/-- The split of the leaf of `spreadPoints` keeps the point `0` and moves the three others: the
first of three distributions that all overlap by `0`. -/
theorem splitNode_first_least_overlap_spreadPoints :
    ∃ group1 group2, splitNode spreadTrait .libstdcxx .leaf ⟨⟨fun _ => 0⟩, ⟨fun _ => 10⟩⟩ 4 true
        true spreadPoints 4 = .ok (group1, group2) ∧
      ∃ sorted dist, sortDirStoreBySplitDimension spreadTrait spreadPoints = .ok sorted ∧
        group1.children = (distribution spreadTrait dist sorted).1 ∧
        group2.children =
          (distribution spreadTrait dist sorted).2.map (fun ns => ns.moved.setLinked false) ∧
        1 ≤ dist ∧ dist ≤ spreadTrait.maxDistSize ∧
        (∀ k, 1 ≤ k → k ≤ spreadTrait.maxDistSize →
          distributionOverlap spreadTrait sorted dist ≤ distributionOverlap spreadTrait sorted k) ∧
        ∀ k, 1 ≤ k → k < dist →
          distributionOverlap spreadTrait sorted dist < distributionOverlap spreadTrait sorted k := by
  obtain ⟨groups, h⟩ : ∃ groups, splitNode spreadTrait .libstdcxx .leaf
      ⟨⟨fun _ => 0⟩, ⟨fun _ => 10⟩⟩ 4 true true spreadPoints 4 = .ok groups := ⟨_, by rfl⟩
  exact ⟨groups.1, groups.2, h, splitNode_first_least_overlap spreadTrait .libstdcxx h⟩

/-! ### The pick of `find_node_for_insertion` -/

section Pick

variable [LinearOrderedCommRing K]

/-- No cost is below the least one at its place exactly when each least cost is at most the cost
at its place. -/
theorem anyLess_eq_false_iff :
    ∀ {costs least : List K}, anyLess costs least = false ↔
      ∀ (i : Nat) (a b : K), costs[i]? = some a → least[i]? = some b → b ≤ a
  | [], least => by simp [anyLess]
  | _ :: _, [] => by simp [anyLess]
  | cost :: costs, bound :: least => by
    rw [anyLess, Bool.or_eq_false_iff, decide_eq_false_iff_not, not_lt, anyLess_eq_false_iff]
    constructor
    · rintro ⟨hle, hrest⟩ (_ | i) a b ha hb
      · simp only [List.getElem?_cons_zero, Option.some.injEq] at ha hb
        exact ha ▸ hb ▸ hle
      · rw [List.getElem?_cons_succ] at ha hb
        exact hrest i a b ha hb
    · intro h
      refine ⟨h 0 cost bound List.getElem?_cons_zero List.getElem?_cons_zero,
        fun i a b ha hb => h (i + 1) a b ?_ ?_⟩ <;> rwa [List.getElem?_cons_succ]

/-- Child `pick` of the costs `costs` has costs no later child is below at any place. -/
def Kept (costs : List (List K)) (pick : Nat) : Prop :=
  ∃ least, costs[pick]? = some least ∧
    ∀ j, pick < j → ∀ later, costs[j]? = some later → anyLess later least = false

theorem kept_cons_zero {least : List K} {rest : List (List K)}
    (h : ∀ later ∈ rest, anyLess later least = false) : Kept (least :: rest) 0 :=
  ⟨least, List.getElem?_cons_zero, fun j hj later hlater => by
    obtain ⟨j, rfl⟩ : ∃ j', j = j' + 1 := ⟨j - 1, by omega⟩
    rw [List.getElem?_cons_succ] at hlater
    exact h later (List.mem_iff_getElem?.mpr ⟨j, hlater⟩)⟩

/-- A child kept among the children after child `index` is kept among the children from
child `index` on. -/
theorem Kept.cons {rest : List (List K)} {index pick : Nat} (h : Kept rest (pick - (index + 1)))
    (hle : index + 1 ≤ pick) (costs : List K) : Kept (costs :: rest) (pick - index) := by
  rw [show pick - index = pick - (index + 1) + 1 by omega]
  obtain ⟨least, hleast, hlater⟩ := h
  refine ⟨least, by rw [List.getElem?_cons_succ]; exact hleast, fun j hj later hj' => ?_⟩
  obtain ⟨j, rfl⟩ : ∃ j', j = j' + 1 := ⟨j - 1, by omega⟩
  rw [List.getElem?_cons_succ] at hj'
  exact hlater j (by omega) later hj'

/-- The loop from a pick `pos` with costs `least`, at child `index`: it ends on that pick, which
no later child beats anywhere, or on a later child that no child after it beats anywhere. -/
theorem pickChild_some {pos : Nat} {least : List K} :
    ∀ {index : Nat} {rest : List (List K)} {pick : Nat},
      pickChild (some (pos, least)) index rest = some pick →
      (pick = pos ∧ ∀ later ∈ rest, anyLess later least = false) ∨
        (index ≤ pick ∧ Kept rest (pick - index))
  | _, [], pick, h => .inl ⟨(Option.some.inj h).symm, by simp⟩
  | index, costs :: rest, pick, h => by
    rw [pickChild] at h
    split_ifs at h with hless
    · -- the child takes over the pick
      rcases pickChild_some h with ⟨rfl, hrest⟩ | ⟨hle, hkept⟩
      · exact .inr ⟨le_rfl, by rw [Nat.sub_self]; exact kept_cons_zero hrest⟩
      · exact .inr ⟨by omega, hkept.cons hle costs⟩
    · rcases pickChild_some h with ⟨rfl, hrest⟩ | ⟨hle, hkept⟩
      · refine .inl ⟨rfl, fun later hlater => ?_⟩
        rcases List.mem_cons.mp hlater with rfl | hlater
        · exact Bool.not_eq_true _ ▸ hless
        · exact hrest later hlater
      · exact .inr ⟨by omega, hkept.cons hle costs⟩

/-- The child the pick loop of `find_node_for_insertion` keeps is, on every criterion, at most
each child after it: a later child replaces the pick as soon as it is below it on any one. -/
theorem pickChild_le_of_lt {costs : List (List K)} {pick : Nat}
    (h : pickChild none 0 costs = some pick) :
    ∃ least, costs[pick]? = some least ∧
      ∀ j, pick < j → ∀ later, costs[j]? = some later →
        ∀ (i : Nat) (a b : K), later[i]? = some a → least[i]? = some b → b ≤ a := by
  have hkept : Kept costs pick := by
    match costs, h with
    | [], h => simp [pickChild] at h
    | first :: rest, h =>
      rw [pickChild] at h
      rcases pickChild_some h with ⟨rfl, hrest⟩ | ⟨hle, hkept⟩
      · exact kept_cons_zero hrest
      · simpa using hkept.cons hle first
  obtain ⟨least, hleast, hlater⟩ := hkept
  exact ⟨least, hleast, fun j hj later hj' => anyLess_eq_false_iff.mp (hlater j hj later hj')⟩

/-- The costs of `chooseSubtree_not_lexicographic`'s leaves: the loop keeps the second. -/
theorem pickChild_two_leaves :
    pickChild none 0 ([[0, 5, 1], [1, 0, 4]] : List (List Int)) = some 1 ∧
      ∃ least, ([[0, 5, 1], [1, 0, 4]] : List (List Int))[1]? = some least ∧
        ∀ j, 1 < j → ∀ later, ([[0, 5, 1], [1, 0, 4]] : List (List Int))[j]? = some later →
          ∀ (i : Nat) (a b : Int), later[i]? = some a → least[i]? = some b → b ≤ a :=
  ⟨rfl, pickChild_le_of_lt rfl⟩

end Pick


/-- The interval `[low, high]` of the line as a box. -/
def segmentBox (low high : Int) : BoundingBox Int 1 := ⟨⟨fun _ => low⟩, ⟨fun _ => high⟩⟩

/-- A leaf directory over the single value of box `[low, high]`. -/
def singleLeaf (low high : Int) (value : Nat) : NodeStore Int Nat 1 :=
  .directory .leaf (segmentBox low high) 1 true true [.value (segmentBox low high) true value] 1

/-- A non-leaf directory of box `[low, high]` over one leaf directory of the same box. -/
def singleDir (low high : Int) : NodeStore Int Nat 1 :=
  .directory .nonleaf (segmentBox low high) 1 true true [singleLeaf low high 0] 1

/-- A non-leaf root over the leaves `[0, 1]` and `[4, 8]`. -/
def twoLeafRoot : NodeStore Int Nat 1 :=
  .directory .nonleaf (segmentBox 0 8) 2 true true [singleLeaf 0 1 0, singleLeaf 4 8 1] 2

/-- The box `[5, 6]` inserted into `twoLeafRoot`. Against the leaf `[0, 1]` it costs no overlap,
an enlargement of `5` and area `1`; against the leaf `[4, 8]` an overlap of `1`, no enlargement
and area `4`. The first is the smaller in the lexicographic order, yet the loop replaces it with
the second for its smaller enlargement, and the insertion lands there. Between the non-leaf
directories `[0, 10]` and `[6, 7]`, enlargement and area `(0, 10)` against `(1, 1)`, the loop
likewise takes the second for its smaller area. -/
theorem chooseSubtree_not_lexicographic :
    (leafChoiceCosts (segmentBox 5 6) (singleLeaf 0 1 0) = .ok [0, 5, 1] ∧
      leafChoiceCosts (segmentBox 5 6) (singleLeaf 4 8 1) = .ok [1, 0, 4] ∧
      ([0, 5, 1] : List Int) < [1, 0, 4] ∧
      chooseSubtree (segmentBox 5 6) twoLeafRoot.children = .ok (some 1) ∧
      ∃ tree, insert spreadTrait .libstdcxx twoLeafRoot ⟨fun _ => 5⟩ ⟨fun _ => 6⟩ 2 =
          .returned tree ∧
        tree.children.map (fun child => child.children.length) = [1, 2]) ∧
    ([calcAreaEnlargement (segmentBox 0 10) (segmentBox 5 6), calcArea (segmentBox 0 10)] =
        [0, 10] ∧
      [calcAreaEnlargement (segmentBox 6 7) (segmentBox 5 6), calcArea (segmentBox 6 7)] =
        [1, 1] ∧
      ([0, 10] : List Int) < [1, 1] ∧
      chooseSubtree (segmentBox 5 6) [singleDir 0 10, singleDir 6 7] = .ok (some 1)) :=
  ⟨⟨rfl, rfl, by decide, rfl, _, rfl, by decide⟩, by decide, by decide, by decide, rfl⟩

end Mdds.RTree

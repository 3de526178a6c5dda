import Mdds.RTree.Refinement

/-!
# What every call keeps: a balanced tree

Invariant I asks for tight boxes, and an erasure that dissolves a leaf directory gives them up
(`erase_dissolve_keeps_ancestor_box`). With `min_node_size = 1` it can also leave a non-leaf root
over a single child. The rest of invariant I survives every call, and so does the depth check of
`find_node_for_insertion`. A tree is `Balanced` when every directory has children of its layer and
its count, at most `max_node_size` of them, `min_node_size` or more below the root and one or more
at a non-leaf root, and the value nodes lie at one depth.

Insertion keeps it (`balancedTree_insertNodeStore`): a leaf directory takes a value while it has
fewer than `max_node_size`, or splits into two halves of `min_node_size … max_node_size` children,
and a split root gives way to a non-leaf root over both halves, one level higher. A descent that
returns met its leaf directory above depth `max_tree_depth` (`le_maxTreeDepth_of_insertDescend`),
so the value nodes lie no deeper than `max_tree_depth + 1`. Erasure keeps it when
`min_node_size ≥ 1` (`balancedTree_erase`): a leaf directory that keeps `min_node_size` values
walks up, and one that does not leaves a parent of `min_node_size` children or more, or the call
throws, and its values, all value nodes, are inserted again.

So every tree the calls reach from the constructor's is balanced (`Tracks.balancedTree`), and keeps
invariant I but for the tight boxes and the second child of a non-leaf root
(`tracked_tree_balanced`).
-/

set_option autoImplicit false
set_option relaxedAutoImplicit false

namespace Mdds.RTree

open NodeStore BoundingBox

variable {K V : Type} {D : Nat}

/-! ### Balance, node by node -/

section Basic

variable (tr : Trait)

/-- What a node store at `depth` keeps on every tree the calls reach, in a tree whose value nodes
lie at depth `height`: a directory has children of its layer (I1), its count (I2), a child when it
is a non-leaf directory, at most `max_node_size` children, and `min_node_size` or more below the
root (I4); a leaf directory lies just above the value nodes, and a value node at `height` (I5). -/
def BalanceOk (height : Nat) (isRoot : Bool) (depth : Nat) : NodeStore K V D → Prop
  | .directory type _ count _ _ children _ =>
    (∀ child ∈ children, child.isDirectory = decide (type = .nonleaf)) ∧
      count = children.length ∧ (type = .nonleaf → 0 < children.length) ∧
      children.length ≤ tr.maxNodeSize ∧ (isRoot = false → tr.minNodeSize ≤ children.length) ∧
      (type = .leaf → depth + 1 = height)
  | .value .. => depth = height

instance (height : Nat) (isRoot : Bool) (depth : Nat) :
    DecidablePred (BalanceOk tr height isRoot depth : NodeStore K V D → Prop)
  | .directory .. => inferInstanceAs (Decidable (_ ∧ _))
  | .value .. => inferInstanceAs (Decidable (_ = _))

/-- Every node store of the subtree `ns`, whose top lies at `depth`, is balanced, the one at depth
`0` as the root. -/
def Balanced (height depth : Nat) (ns : NodeStore K V D) : Prop :=
  AllNodesAt (fun n dep => BalanceOk tr height (decide (dep = 0)) dep n) depth ns

instance (height depth : Nat) (ns : NodeStore K V D) : Decidable (Balanced tr height depth ns) :=
  inferInstanceAs (Decidable (∀ x ∈ _, _))

/-- A tree the calls can reach: a balanced directory at the root, with its value nodes no deeper
than `max_tree_depth + 1`. -/
def BalancedTree (root : NodeStore K V D) : Prop :=
  root.isDirectory ∧ ∃ height, height ≤ tr.maxTreeDepth + 1 ∧ Balanced tr height 0 root

/-- A half of a split at `depth`: a directory balanced as a node store below the root, over
balanced subtrees. -/
structure BalancedHalf (height depth : Nat) (ns : NodeStore K V D) : Prop where
  isDirectory : ns.isDirectory
  balanceOk : BalanceOk tr height false depth ns
  children : ∀ child ∈ ns.children, Balanced tr height (depth + 1) child

variable {tr} {height depth : Nat}

theorem balanceOk_unflagged {isRoot : Bool} (ns : NodeStore K V D) :
    BalanceOk tr height isRoot depth ns.unflagged ↔ BalanceOk tr height isRoot depth ns := by
  cases ns <;> simp [unflagged, BalanceOk, unflaggedAll_eq_map]

/-- Balance does not read the flags. -/
@[simp] theorem balanced_unflagged {ns : NodeStore K V D} :
    Balanced tr height depth ns.unflagged ↔ Balanced tr height depth ns :=
  allNodesAt_unflagged fun ns _ => balanceOk_unflagged ns

@[simp] theorem balanced_moved {ns : NodeStore K V D} :
    Balanced tr height depth ns.moved ↔ Balanced tr height depth ns := by
  rw [← balanced_unflagged, unflagged_moved, balanced_unflagged]

@[simp] theorem balanced_setLinked {linked : Bool} {ns : NodeStore K V D} :
    Balanced tr height depth (ns.setLinked linked) ↔ Balanced tr height depth ns := by
  rw [← balanced_unflagged, unflagged_setLinked, balanced_unflagged]

@[simp] theorem balanced_setValidPointer {valid : Bool} {ns : NodeStore K V D} :
    Balanced tr height depth (ns.setValidPointer valid) ↔ Balanced tr height depth ns := by
  rw [← balanced_unflagged, unflagged_setValidPointer, balanced_unflagged]

@[simp] theorem balanced_resetParentPointers {ns : NodeStore K V D} :
    Balanced tr height depth ns.resetParentPointers ↔ Balanced tr height depth ns := by
  rw [← balanced_unflagged, unflagged_resetParentPointers, balanced_unflagged]

theorem balanced_directory {type : DirType} {box : BoundingBox K D} {count : Nat}
    {valid linked : Bool} {children : List (NodeStore K V D)} {capacity : Nat} :
    Balanced tr height depth (.directory type box count valid linked children capacity) ↔
      BalanceOk tr height (decide (depth = 0)) depth
          (.directory type box count valid linked children capacity) ∧
        ∀ child ∈ children, Balanced tr height (depth + 1) child :=
  allNodesAt_directory

@[simp] theorem balanced_value (bb : BoundingBox K D) (linked : Bool) (v : V) :
    Balanced tr height depth (.value bb linked v) ↔ depth = height := by
  simp [Balanced, AllNodesAt, nodesAt, BalanceOk]

@[simp] theorem isDirectory_pack [LinearOrder K] [Zero K] (ns : NodeStore K V D) :
    ns.pack.1.isDirectory = ns.isDirectory := by
  cases ns <;> rfl

/-- Packing changes a box only, which balance does not read. -/
theorem Balanced.pack [LinearOrder K] [Zero K] {ns : NodeStore K V D}
    (h : Balanced tr height depth ns) : Balanced tr height depth ns.pack.1 := by
  cases ns with
  | directory =>
    obtain ⟨hok, hchildren⟩ := balanced_directory.mp h
    exact balanced_directory.mpr ⟨hok, hchildren⟩
  | value => exact h

/-- One level further down, with the value nodes one level further down too. -/
theorem BalanceOk.succ {isRoot : Bool} {ns : NodeStore K V D}
    (h : BalanceOk tr height isRoot depth ns) : BalanceOk tr (height + 1) isRoot (depth + 1) ns := by
  cases ns with
  | directory =>
    obtain ⟨hkinds, hcount, hne, hmax, hmin, hleaf⟩ := h
    exact ⟨hkinds, hcount, hne, hmax, hmin, fun hl => by rw [hleaf hl]⟩
  | value => exact congrArg (· + 1) h

theorem Balanced.succ {ns : NodeStore K V D} (h : Balanced tr height (depth + 1) ns) :
    Balanced tr (height + 1) (depth + 2) ns := by
  rw [Balanced, allNodesAt_succ] at h
  rw [Balanced, show depth + 2 = depth + 1 + 1 from rfl, allNodesAt_succ, allNodesAt_succ]
  exact h.mono fun _ _ hok => by simpa using hok.succ

/-- A half of a split below the root is balanced there. -/
theorem BalancedHalf.balanced {ns : NodeStore K V D} (h : BalancedHalf tr height (depth + 1) ns) :
    Balanced tr height (depth + 1) ns := by
  cases ns with
  | directory => exact balanced_directory.mpr ⟨h.balanceOk, h.children⟩
  | value => exact absurd h.isDirectory (by simp)

/-- A half of a root split is balanced one level down, under a new root. -/
theorem BalancedHalf.balanced_succ {ns : NodeStore K V D} (h : BalancedHalf tr height 0 ns) :
    Balanced tr (height + 1) 1 ns := by
  cases ns with
  | directory =>
    exact balanced_directory.mpr ⟨h.balanceOk.succ, fun child hchild => (h.children child hchild).succ⟩
  | value => exact absurd h.isDirectory (by simp)

/-- What `BalanceOk` gives of invariant I at one node store, as `Invariant` states its parts. -/
theorem BalanceOk.parts {ns : NodeStore K V D}
    (h : BalanceOk tr height (decide (depth = 0)) depth ns) :
    ((ns.isLeafDirectory → ∀ child ∈ ns.children, child.isDirectory = false) ∧
      (ns.isNonleafDirectory → ∀ child ∈ ns.children, child.isDirectory)) ∧
    (ns.isDirectory → ns.count = ns.children.length) ∧
    (ns.isDirectory → (ns.isNonleafDirectory → 0 < ns.children.length) ∧
      ns.children.length ≤ tr.maxNodeSize ∧ (depth ≠ 0 → tr.minNodeSize ≤ ns.children.length)) ∧
    (ns.isDirectory = false → depth = height) := by
  cases ns with
  | directory type box count valid linked children capacity =>
    obtain ⟨hkinds, hcount, hne, hmax, hmin, -⟩ := h
    refine ⟨⟨fun hleaf child hchild => ?_, fun hnonleaf child hchild => ?_⟩, fun _ => hcount,
      fun _ => ⟨fun hnonleaf => hne (by simpa using hnonleaf), hmax,
        fun hdepth => hmin (by simpa using hdepth)⟩, fun hvalue => by simp at hvalue⟩
    · simpa [show type = .leaf by simpa using hleaf] using hkinds child hchild
    · simpa [show type = .nonleaf by simpa using hnonleaf] using hkinds child hchild
  | value => exact ⟨⟨by simp, by simp⟩, by simp, by simp, fun _ => h⟩

mutual

/-- In a balanced subtree every directory lies above the value nodes' depth `height`: a leaf
directory just above them, a non-leaf one above a child directory. -/
theorem depth_lt_of_balanced :
    ∀ {depth : Nat} (t : NodeStore K V D), Balanced tr height depth t →
      AllNodesAt (fun ns dep => ns.isDirectory → dep < height) depth t ∧
        (t.isDirectory → depth < height)
  | _, .value .., _ =>
    ⟨fun x hx hdir => by simp [nodesAt] at hx; simp [hx] at hdir, fun hdir => by simp at hdir⟩
  | depth, .directory type box count valid linked children capacity, h => by
    obtain ⟨⟨hkinds, -, hne, -, -, hleaf⟩, hchildren⟩ := balanced_directory.mp h
    have hall := depth_lt_of_balancedAll children hchildren
    have htop : depth < height := by
      cases type with
      | leaf => have := hleaf rfl; omega
      | nonleaf =>
        obtain ⟨child, hchild⟩ := List.exists_mem_of_length_pos (hne rfl)
        exact Nat.lt_of_succ_lt ((hall child hchild).2 (by simpa using hkinds child hchild))
    exact ⟨allNodesAt_directory.mpr ⟨fun _ => htop, fun c hc => (hall c hc).1⟩, fun _ => htop⟩

/-- `depth_lt_of_balanced` for each child of a directory at `depth`. -/
theorem depth_lt_of_balancedAll {depth : Nat} :
    ∀ (children : List (NodeStore K V D)), (∀ c ∈ children, Balanced tr height (depth + 1) c) →
      ∀ c ∈ children, AllNodesAt (fun ns dep => ns.isDirectory → dep < height) (depth + 1) c ∧
        (c.isDirectory → depth + 1 < height)
  | [], _ => by simp
  | c :: rest, h => List.forall_mem_cons.mpr
    ⟨depth_lt_of_balanced c (h c (List.mem_cons_self _ _)),
      depth_lt_of_balancedAll rest fun c' hc' => h c' (List.mem_cons_of_mem _ hc')⟩

end

end Basic

/-! ### Insertion -/

section Insert

variable [LinearOrderedCommRing K] [NeZero D] (tr : Trait) (growth : VectorGrowth)

/-- What one level of an insertion into the subtree `t` at `depth` passes up keeps balance: a
balanced node store of `t`'s kind, or two halves. -/
def InsertedBalanced (height depth : Nat) (t : NodeStore K V D) : Inserted K V D → Prop
  | .enlarged node _ => Balanced tr height depth node ∧ node.isDirectory = t.isDirectory
  | .packed node _ => Balanced tr height depth node ∧ node.isDirectory = t.isDirectory
  | .split group1 group2 =>
    BalancedHalf tr height depth group1 ∧ BalancedHalf tr height depth group2

variable {tr} {height : Nat} {ns : NodeStore K V D}

set_option linter.unusedSectionVars false in
mutual

/-- A descent that returns met its leaf directory above depth `max_tree_depth`: in a subtree whose
value nodes lie at depth `height`, `height ≤ max_tree_depth`. -/
theorem le_maxTreeDepth_of_insertDescend :
    ∀ (depth : Nat) (t : NodeStore K V D) {result : Inserted K V D},
      Balanced tr height depth t → insertDescend tr growth ns depth t = .ok result →
        height ≤ tr.maxTreeDepth
  | depth, .directory .leaf box count valid linked children capacity, _, hbal, h => by
    rw [insertDescend] at h
    by_cases hdepth : tr.maxTreeDepth ≤ depth
    · simp [hdepth] at h
    obtain ⟨⟨-, -, -, -, -, hleaf⟩, -⟩ := balanced_directory.mp hbal
    have := hleaf rfl
    omega
  | depth, .directory .nonleaf box count valid linked children capacity, _, hbal, h => by
    rw [insertDescend] at h
    by_cases hdepth : tr.maxTreeDepth ≤ depth
    · simp [hdepth] at h
    rw [if_neg hdepth] at h
    obtain ⟨choice, -, h⟩ := bind_eq_ok_iff.mp h
    cases choice with
    | none => simp at h
    | some index =>
      obtain ⟨passed, hpassed, -⟩ := bind_eq_ok_iff.mp h
      exact le_maxTreeDepth_of_insertAt (depth + 1) index children
        (balanced_directory.mp hbal).2 hpassed
  | depth, .value .., _, _, h => by
    rw [insertDescend] at h
    split_ifs at h

/-- `le_maxTreeDepth_of_insertDescend` into child `index` of a child vector. -/
theorem le_maxTreeDepth_of_insertAt :
    ∀ (depth index : Nat) (children : List (NodeStore K V D)) {passed : Inserted K V D},
      (∀ c ∈ children, Balanced tr height depth c) →
      insertAt tr growth ns depth index children = .ok passed → height ≤ tr.maxTreeDepth
  | _, _, [], _, _, h => by simp [insertAt] at h
  | depth, 0, child :: _, _, hc, h =>
    le_maxTreeDepth_of_insertDescend depth child (hc child (List.mem_cons_self _ _))
      (by rwa [insertAt] at h)
  | depth, index + 1, _ :: rest, _, hc, h =>
    le_maxTreeDepth_of_insertAt depth index rest (fun c hcm => hc c (List.mem_cons_of_mem _ hcm))
      (by rwa [insertAt] at h)

end

variable (hmin : 1 ≤ tr.minNodeSize)
include hmin

/-- A split of `max_node_size + 1` children of one layer gives two halves: a distribution of
`1 … max_dist_size` leaves each group between `min_node_size` and `max_node_size` children. -/
theorem balancedHalf_splitNode {type : DirType} {box : BoundingBox K D} {count : Nat}
    {valid linked : Bool} {children : List (NodeStore K V D)} {capacity depth : Nat}
    {group1 group2 : NodeStore K V D} (hcount : count = children.length)
    (hkinds : ∀ child ∈ children, child.isDirectory = decide (type = .nonleaf))
    (hleaf : type = .leaf → depth + 1 = height)
    (hchildren : ∀ child ∈ children, Balanced tr height (depth + 1) child)
    (h : splitNode tr growth type box count valid linked children capacity =
      .ok (group1, group2)) :
    BalancedHalf tr height depth group1 ∧ BalancedHalf tr height depth group2 := by
  obtain ⟨hcount', sorted, dist, hsorted, hdist1, hdist2, hlt, rfl, rfl⟩ :=
    splitNode_spec tr growth h
  have hsort := sortDirStoreBySplitDimension_spec tr
    (P := fun c => c.isDirectory = decide (type = .nonleaf) ∧ Balanced tr height (depth + 1) c)
    (fun c hc => ⟨by rw [isDirectory_setValidPointer, isDirectory_moved, hc.1], by simpa using hc.2⟩)
    hsorted fun c hc => ⟨hkinds c hc, hchildren c hc⟩
  have hsorted' : ∀ s ∈ sorted, s.isDirectory = decide (type = .nonleaf) ∧
      Balanced tr height (depth + 1) s := fun s hs => by
    obtain ⟨x, hx, rfl⟩ := hsort.2 s hs
    exact ⟨by rw [isDirectory_setValidPointer, isDirectory_moved, hx.1], by simpa using hx.2⟩
  -- both groups hold between `min_node_size` and `max_node_size` children
  have hhalf := tr.min_le_half
  have hlength : sorted.length = tr.maxNodeSize + 1 := by rw [hsort.1, ← hcount, hcount']
  have hlength1 : (sorted.take (tr.minNodeSize + dist - 1)).length = tr.minNodeSize + dist - 1 :=
    List.length_take_of_le (by omega)
  have hlength2 : ((sorted.drop (tr.minNodeSize + dist - 1)).map fun s => s.moved.setLinked false).length =
      sorted.length - (tr.minNodeSize + dist - 1) := by simp
  unfold Trait.maxDistSize at hdist2
  simp only [distribution, pack]
  refine ⟨⟨rfl, ⟨fun c hc => (hsorted' c (List.mem_of_mem_take hc)).1, hlength1.symm,
      fun _ => by omega, by omega, fun _ => by omega, hleaf⟩,
      fun c hc => (hsorted' c (List.mem_of_mem_take hc)).2⟩,
    ⟨rfl, ⟨fun c hc => ?_, by simp, fun _ => by omega, by omega,
      fun _ => by omega, hleaf⟩, fun c hc => ?_⟩⟩
  · obtain ⟨s, hs, rfl⟩ := List.mem_map.mp hc
    rw [isDirectory_setLinked, isDirectory_moved]
    exact (hsorted' s (List.mem_of_mem_drop hs)).1
  · rw [children_directory] at hc
    obtain ⟨s, hs, rfl⟩ := List.mem_map.mp hc
    simpa using (hsorted' s (List.mem_of_mem_drop hs)).2

/-- The leaf directory takes the value in: it splits with `max_node_size + 1` values, or keeps
them. -/
theorem insertedBalanced_insertIntoLeaf (hns : ns.isDirectory = false) {box : BoundingBox K D}
    {count : Nat} {valid linked : Bool} {children : List (NodeStore K V D)} {capacity depth : Nat}
    {result : Inserted K V D}
    (hold : Balanced tr height depth (.directory .leaf box count valid linked children capacity))
    (h : insertIntoLeaf tr growth ns box count valid linked children capacity = .ok result) :
    InsertedBalanced tr height depth (.directory .leaf box count valid linked children capacity)
      result := by
  obtain ⟨⟨hkinds, hcount, -, -, hlow, hleaf⟩, hchildren⟩ := balanced_directory.mp hold
  have hdepth := hleaf rfl
  -- the children with the value node pushed onto them
  have hnew : ∀ child ∈ children ++ [ns.setLinked true],
      child.isDirectory = decide (DirType.leaf = .nonleaf) ∧
        Balanced tr height (depth + 1) child := by
    intro child hchild
    rcases List.mem_append.mp hchild with hchild | hchild
    · exact ⟨hkinds child hchild, hchildren child hchild⟩
    · rw [List.mem_singleton.mp hchild]
      cases ns with
      | directory => simp at hns
      | value => exact ⟨rfl, (balanced_value _ _ _).mpr hdepth⟩
  rcases insertIntoLeaf_eq_ok tr growth h with ⟨group1, group2, hsplit, rfl⟩ | ⟨hfits, rfl⟩
  · exact balancedHalf_splitNode growth hmin (by simp [hcount]) (fun c hc => (hnew c hc).1)
      (fun _ => hdepth) (fun c hc => (hnew c hc).2) hsplit
  · have hlength : (children ++ [ns.setLinked true]).length = children.length + 1 := by simp
    refine ⟨balanced_directory.mpr ⟨⟨fun c hc => (hnew c hc).1, by simp [hcount],
      fun hnonleaf => absurd hnonleaf (by decide), by omega, fun hbelow => ?_, fun _ => hdepth⟩,
      fun c hc => (hnew c hc).2⟩, rfl⟩
    have := hlow hbelow
    omega

/-- A directory on the insertion path takes in what its child passed up: it widens or repacks
around a child of the same kind, and places a split child's sibling after its children, then
splits in turn when that overfills it. -/
theorem insertedBalanced_absorb {box : BoundingBox K D} {count : Nat} {valid linked : Bool}
    {children : List (NodeStore K V D)} {capacity index depth : Nat} {child : NodeStore K V D}
    {passed result : Inserted K V D}
    (hold : Balanced tr height depth (.directory .nonleaf box count valid linked children capacity))
    (hchild : children[index]? = some child)
    (hpassed : InsertedBalanced tr height (depth + 1) child passed)
    (h : absorb tr growth box count valid linked children capacity index passed = .ok result) :
    InsertedBalanced tr height depth (.directory .nonleaf box count valid linked children capacity)
      result := by
  obtain ⟨⟨hkinds, hcount, hne, hmax, hlow, -⟩, hchildren⟩ := balanced_directory.mp hold
  have hmem : child ∈ children := List.mem_iff_getElem?.mpr ⟨index, hchild⟩
  -- the child replaced by a balanced node store of its kind, under any box
  have hset : ∀ {child' : NodeStore K V D} (box' : BoundingBox K D),
      child'.isDirectory = child.isDirectory → Balanced tr height (depth + 1) child' →
      Balanced tr height depth
        (.directory .nonleaf box' count valid linked (children.set index child') capacity) :=
    fun _ hkind hbal => balanced_directory.mpr ⟨⟨forall_mem_set_of_getElem? hchild
      (fun h => hkind.trans h) hkinds, by simp [hcount],
      fun _ => by simpa using hne rfl,
      by simpa using hmax, fun hbelow => by simpa using hlow hbelow, fun hleaf => absurd hleaf (by decide)⟩,
      forall_mem_set_of_getElem? hchild (fun _ => hbal) hchildren⟩
  cases passed with
  | enlarged node leafBox =>
    obtain ⟨-, rfl⟩ := absorb_enlarged_eq_ok tr growth h
    exact ⟨hset _ hpassed.2 hpassed.1, rfl⟩
  | packed node changed =>
    rcases absorb_packed_eq_ok tr growth h with ⟨-, -, rfl⟩ | ⟨-, rfl⟩ <;>
      exact ⟨hset _ hpassed.2 hpassed.1, rfl⟩
  | split group1 group2 =>
    obtain ⟨hhalf1, hhalf2⟩ := hpassed
    -- the children with the halves placed and their pointers reset
    have hreset : ∀ c ∈ children.set index (group1.setValidPointer false).resetParentPointers ++
        [(group2.setLinked true).moved.resetParentPointers],
        c.isDirectory = decide (DirType.nonleaf = .nonleaf) ∧ Balanced tr height (depth + 1) c := by
      intro c hc
      rcases List.mem_append.mp hc with hc | hc
      · exact ⟨forall_mem_set_of_getElem? hchild (fun _ => by simpa using hhalf1.isDirectory)
          hkinds c hc, forall_mem_set_of_getElem? hchild (fun _ => by simpa using hhalf1.balanced)
          hchildren c hc⟩
      · rw [List.mem_singleton.mp hc]
        exact ⟨by simpa using hhalf2.isDirectory, by simpa using hhalf2.balanced⟩
    obtain ⟨-, ⟨half1, half2, hsplit, rfl⟩ | ⟨hfits, rfl⟩⟩ := absorb_split_eq_ok tr growth h
    · exact balancedHalf_splitNode growth hmin (by simp [hcount]) (fun c hc => (hreset c hc).1)
        (fun hleaf => absurd hleaf (by decide)) (fun c hc => (hreset c hc).2) hsplit
    · have hlength : (children.set index (group1.setValidPointer false).resetParentPointers ++
          [(group2.setLinked true).moved.resetParentPointers]).length = children.length + 1 := by
        simp
      refine ⟨balanced_directory.mpr ⟨⟨fun c hc => (hreset c hc).1, by simp [hcount],
        fun _ => by omega, by omega, fun hbelow => ?_,
        fun hleaf => absurd hleaf (by decide)⟩, fun c hc => (hreset c hc).2⟩, rfl⟩
      have := hlow hbelow
      omega

/-- What the descent from a balanced root passes up keeps balance: a balanced root of its kind,
or two halves. -/
theorem insertedBalanced_insertDescend (hns : ns.isDirectory = false) {root : NodeStore K V D}
    {result : Inserted K V D} (hroot : Balanced tr height 0 root)
    (h : insertDescend tr growth ns 0 root = .ok result) :
    InsertedBalanced tr height 0 root result :=
  @insertDescend_induction _ _ _ _ _ tr growth ns (Balanced tr height) (InsertedBalanced tr height)
    (fun hpre => (balanced_directory.mp hpre).2) (insertedBalanced_insertIntoLeaf growth hmin hns)
    (insertedBalanced_absorb growth hmin) 0 root result hroot h

omit [NeZero D] in
/-- The root branch of `split_node` puts a new root over the two halves, one level higher. -/
theorem balanced_placeRootSplit {group1 group2 : NodeStore K V D}
    (hhalf1 : BalancedHalf tr height 0 group1) (hhalf2 : BalancedHalf tr height 0 group2) :
    Balanced tr (height + 1) 0 (placeRootSplit growth group1 group2) := by
  have hmax : 2 ≤ tr.maxNodeSize := by
    have := tr.min_le_half
    omega
  refine balanced_directory.mpr ⟨⟨?_, rfl, fun _ => by simp, by simpa using hmax,
    fun hroot => absurd hroot (by decide), fun hleaf => absurd hleaf (by decide)⟩, ?_⟩
  · simp [hhalf1.isDirectory, hhalf2.isDirectory]
  · simp only [List.mem_cons, List.mem_singleton, List.not_mem_nil, or_false]
    rintro child (rfl | rfl)
    exacts [by simpa using hhalf1.balanced_succ, by simpa using hhalf2.balanced_succ]

/-- `insert(node_store&&)` of a value node into a balanced tree returns a balanced tree, one level
higher when the root split. -/
theorem balancedTree_insertNodeStore {root tree : NodeStore K V D} (hns : ns.isDirectory = false)
    (hroot : BalancedTree tr root) (h : insertNodeStore tr growth root ns = .ok tree) :
    BalancedTree tr tree := by
  obtain ⟨hdir, height, -, hbal⟩ := hroot
  obtain ⟨passed, hpassed, h⟩ := bind_eq_ok_iff.mp h
  have hle := le_maxTreeDepth_of_insertDescend growth 0 root hbal hpassed
  have hpost := insertedBalanced_insertDescend growth hmin hns hbal hpassed
  cases passed with
  | enlarged node _ =>
    obtain rfl : node = tree := by simpa using h
    exact ⟨hpost.2.trans hdir, height, by omega, hpost.1⟩
  | packed node _ =>
    obtain rfl : node = tree := by simpa using h
    exact ⟨hpost.2.trans hdir, height, by omega, hpost.1⟩
  | split group1 group2 =>
    obtain rfl : placeRootSplit growth group1 group2 = tree := by simpa using h
    exact ⟨rfl, height + 1, by omega, balanced_placeRootSplit growth hmin hpost.1 hpost.2⟩

end Insert

/-! ### Erasure -/

section Erase

variable [LinearOrder K] [Zero K] (tr : Trait)

/-- What one level of an erasure from the subtree `t` at `depth` passes up keeps balance: balanced
node stores of `t`'s kind, and value nodes as orphans. An underfull directory makes the code
throw, and asks nothing. -/
def ErasedBalanced (height depth : Nat) (t : NodeStore K V D) : Erased K V D → Prop
  | .shrinking node _ => Balanced tr height depth node ∧ node.isDirectory = t.isDirectory
  | .done node => Balanced tr height depth node ∧ node.isDirectory = t.isDirectory
  | .dissolving orphans => ∀ orphan ∈ orphans, orphan.isDirectory = false
  | .dissolved node orphans =>
    (Balanced tr height depth node ∧ node.isDirectory = t.isDirectory) ∧
      ∀ orphan ∈ orphans, orphan.isDirectory = false
  | .underfull _ => True

variable {tr} {height : Nat}

/-- One call of `shrink_tree_upward` on a balanced node store passes it up, packed or not. -/
theorem erasedBalanced_shrinkStep {depth : Nat} {t ns : NodeStore K V D}
    (affected : BoundingBox K D) (hns : Balanced tr height depth ns)
    (hkind : ns.isDirectory = t.isDirectory) :
    ErasedBalanced tr height depth t (shrinkStep ns affected) := by
  unfold shrinkStep
  split_ifs
  · exact ⟨hns.pack, (isDirectory_pack ns).trans hkind⟩
  · exact ⟨hns.pack, (isDirectory_pack ns).trans hkind⟩
  · exact ⟨hns, hkind⟩

/-- The leaf's level: the value is removed, and the leaf walks up with `min_node_size` values or
more, or at the root, or dissolves and leaves its values as orphans. -/
theorem erasedBalanced_eraseFromLeaf {isRoot : Bool} {depth : Nat} {type : DirType}
    {box : BoundingBox K D} {count : Nat} {valid linked : Bool}
    {children : List (NodeStore K V D)} {capacity index : Nat} {e : Erased K V D}
    (hroot : isRoot = decide (depth = 0))
    (hold : Balanced tr height depth (.directory type box count valid linked children capacity))
    (h : eraseFromLeaf tr isRoot type box count valid linked children capacity index = .ok e) :
    ErasedBalanced tr height depth (.directory type box count valid linked children capacity) e := by
  obtain ⟨⟨hkinds, hcount, -, hmax, -, hleaf⟩, hchildren⟩ := balanced_directory.mp hold
  unfold eraseFromLeaf at h
  match children[index]?, h with
  | none, h => simp [throw_eq_error] at h
  | some (.directory ..), h => simp [throw_eq_error] at h
  | some (.value ..), h =>
    simp only [throw_eq_error, pure_eq_ok] at h
    split_ifs at h <;> cases h
    · rename_i hlinked htype hcount' hkeep
      obtain rfl : type = .leaf := by simpa using htype
      refine erasedBalanced_shrinkStep _ (balanced_directory.mpr ⟨⟨forall_mem_removeChild
        (fun c hc => by simpa using hc) hkinds, by omega, fun hnonleaf => absurd hnonleaf (by decide),
        by omega, fun hbelow => ?_, hleaf⟩,
        forall_mem_removeChild (fun _ hc => by simpa using hc) hchildren⟩) rfl
      simpa [hroot, show decide (depth = 0) = false from hbelow] using hkeep
    · rename_i hlinked htype hcount' hkeep
      obtain rfl : type = .leaf := by simpa using htype
      exact forall_mem_removeChild (fun c hc => by simpa using hc) fun c hc => by
        simpa using hkinds c hc

variable (hmin : 1 ≤ tr.minNodeSize)
include hmin

/-- A directory's level: it puts back what its child passed up, or, when the child dissolved,
keeps `min_node_size` children or more, or makes the code throw. -/
theorem erasedBalanced_absorbErased {depth : Nat} {type : DirType} {box : BoundingBox K D}
    {count : Nat} {valid linked : Bool} {children : List (NodeStore K V D)} {capacity index : Nat}
    {child : NodeStore K V D} {e e' : Erased K V D}
    (hold : Balanced tr height depth (.directory type box count valid linked children capacity))
    (hchild : children[index]? = some child)
    (hpassed : ErasedBalanced tr height (depth + 1) child e)
    (h : absorbErased tr type box count valid linked children capacity index e = .ok e') :
    ErasedBalanced tr height depth (.directory type box count valid linked children capacity) e' := by
  obtain ⟨⟨hkinds, hcount, hne, hmax, hlow, hleaf⟩, hchildren⟩ := balanced_directory.mp hold
  have hindex : index < children.length := (List.getElem?_eq_some_iff.mp hchild).1
  -- the directory with the child replaced by a balanced node store of its kind
  have hset : ∀ {child' : NodeStore K V D}, Balanced tr height (depth + 1) child' →
      child'.isDirectory = child.isDirectory →
      Balanced tr height depth
        (.directory type box count valid linked (children.set index child') capacity) :=
    fun hbal hkind => balanced_directory.mpr ⟨⟨forall_mem_set_of_getElem? hchild
      (fun h => hkind.trans h) hkinds, by simp [hcount],
      fun hnonleaf => by simpa using hne hnonleaf,
      by simpa using hmax, fun hbelow => by simpa using hlow hbelow, hleaf⟩,
      forall_mem_set_of_getElem? hchild (fun _ => hbal) hchildren⟩
  cases e with
  | shrinking child' affected =>
    simp only [absorbErased, throw_eq_error, pure_eq_ok] at h
    split_ifs at h <;> cases h
    exact erasedBalanced_shrinkStep _ (hset hpassed.1 hpassed.2) rfl
  | done child' =>
    cases h
    exact ⟨hset hpassed.1 hpassed.2, rfl⟩
  | dissolving orphans =>
    simp only [absorbErased, hchild, throw_eq_error, pure_eq_ok] at h
    split_ifs at h <;> cases h
    · trivial
    rename_i hlinked hfew
    -- what is left of the directory once the dissolved leaf is removed
    have hlength := length_removeChild hindex
    have hremoved : Balanced tr height depth (.directory type box (count - 1) valid linked
        (removeChild children index) capacity) :=
      balanced_directory.mpr ⟨⟨forall_mem_removeChild (fun c hc => by simpa using hc) hkinds,
        by omega, fun _ => by omega, by omega, fun _ => by omega,
        hleaf⟩, forall_mem_removeChild (fun _ hc => by simpa using hc) hchildren⟩
    exact ⟨⟨(balanced_resetParentPointers.mpr hremoved).pack, by simp⟩, hpassed⟩
  | dissolved child' orphans =>
    cases h
    exact ⟨⟨hset hpassed.1.1 hpassed.1.2, rfl⟩, hpassed.2⟩
  | underfull child' =>
    cases h
    trivial

/-- The erasure at position `pos` under a balanced node store at `depth` passes up what
`ErasedBalanced` asks. -/
theorem erasedBalanced_eraseDescend :
    ∀ (pos : List Nat) (isRoot : Bool) (depth : Nat) (t : NodeStore K V D) {e : Erased K V D},
      isRoot = decide (depth = 0) → Balanced tr height depth t →
      eraseDescend tr isRoot pos t = .ok e → ErasedBalanced tr height depth t e
  | [], isRoot, _, t, _, _, _, h => by rw [eraseDescend_nil] at h; cases h
  | [index], isRoot, _, .directory .., _, hroot, hold, h =>
    erasedBalanced_eraseFromLeaf hroot hold (by rwa [eraseDescend] at h)
  | index :: next :: pos, isRoot, depth,
      .directory type box count valid linked children capacity, _, _, hold, h => by
    rw [eraseDescend] at h
    obtain ⟨e₀, h₀, h⟩ := bind_eq_ok_iff.mp h
    have hindex := lt_of_eraseAt_eq_ok tr h₀
    rw [eraseAt_eq_eraseDescend tr _ index children hindex] at h₀
    exact erasedBalanced_absorbErased hmin hold (List.getElem?_eq_getElem hindex)
      (erasedBalanced_eraseDescend (next :: pos) false (depth + 1) _ (by simp)
        ((balanced_directory.mp hold).2 _ (List.getElem_mem hindex)) h₀) h
  | _ :: _, isRoot, _, .value .., _, _, _, h => by rw [eraseDescend_value] at h; cases h

end Erase

/-! ### Every run -/

section Calls

variable [LinearOrderedCommRing K] [NeZero D] {tr : Trait} {growth : VectorGrowth}
  (hmin : 1 ≤ tr.minNodeSize)
include hmin

/-- The loop that inserts the orphans again, value nodes all, keeps a tree balanced. -/
theorem balancedTree_reinsertOrphans :
    ∀ {tree final : NodeStore K V D} (orphans : List (NodeStore K V D)), BalancedTree tr tree →
      (∀ orphan ∈ orphans, orphan.isDirectory = false) →
      reinsertOrphans tr growth tree orphans = .returned final → BalancedTree tr final
  | _, _, [], htree, _, h => by cases h; exact htree
  | tree, final, orphan :: rest, htree, horphans, h => by
    rw [reinsertOrphans] at h
    cases hins : insertNodeStore tr growth tree orphan with
    | ok tree' =>
      rw [hins] at h
      exact balancedTree_reinsertOrphans rest (balancedTree_insertNodeStore growth hmin
        (horphans orphan (List.mem_cons_self _ _)) htree hins)
        (fun o ho => horphans o (List.mem_cons_of_mem _ ho)) h
    | error failure => cases failure <;> simp [hins] at h

/-- With `min_node_size ≥ 1`, an `rtree::erase` that returns leaves a balanced tree balanced,
whichever way it went: along `shrink_tree_upward`, or through a dissolve and the reinsertion of the
orphans. -/
theorem balancedTree_erase {root tree : NodeStore K V D} {pos : List Nat}
    (hroot : BalancedTree tr root) (h : erase tr growth root pos = .returned tree) :
    BalancedTree tr tree := by
  obtain ⟨hdir, height, hle, hbal⟩ := hroot
  unfold erase at h
  cases hdescend : eraseDescend tr true pos root with
  | error failure => cases failure <;> simp [hdescend] at h
  | ok e =>
    have hpost := erasedBalanced_eraseDescend hmin pos true 0 root rfl hbal hdescend
    rw [hdescend] at h
    cases e with
    | shrinking => cases h; exact ⟨hpost.2.trans hdir, height, hle, hpost.1⟩
    | done => cases h; exact ⟨hpost.2.trans hdir, height, hle, hpost.1⟩
    | dissolving => cases h
    | dissolved tree' orphans =>
      exact balancedTree_reinsertOrphans hmin orphans.reverse
        ⟨hpost.1.2.trans hdir, height, hle, hpost.1.1⟩
        (fun o ho => hpost.2 o (List.mem_reverse.mp ho)) h
    | underfull => cases h

variable [DecidableEq V]

/-- With `min_node_size ≥ 1`, every tracked tree is balanced. -/
theorem Tracks.balancedTree {root : NodeStore K V D} {bag : Multiset (BoundingBox K D × V)}
    (h : Tracks tr growth root bag) : BalancedTree tr root := by
  induction h with
  | empty =>
    exact ⟨rfl, 1, by omega, balanced_directory.mpr ⟨⟨by simp, rfl,
      fun hnonleaf => absurd hnonleaf (by decide), by simp, fun hroot => absurd hroot (by decide),
      fun _ => rfl⟩, by simp⟩⟩
  | insert start «end» value _ hins ih =>
    exact balancedTree_insertNodeStore growth hmin (by rfl) ih ((insert_eq_returned_iff growth).mp hins)
  | threw start «end» value what _ hins ih => exact eq_of_insert_eq_threw growth hins ▸ ih
  | erase pos entry _ _ herase ih => exact balancedTree_erase hmin ih herase

/-- With `min_node_size ≥ 1`, every tree the calls reach from the constructor's keeps invariant I
but for the tight boxes and the second child of a non-leaf root: its directories are layered (I1)
with right counts (I2), every directory has at most `max_node_size` children, every one below the
root `min_node_size` or more and every non-leaf one a child (I4), the value nodes lie at one depth
(I5), every child's box lies in its directory's, and no directory lies deeper than
`max_tree_depth`. -/
theorem tracked_tree_balanced {root : NodeStore K V D} {bag : Multiset (BoundingBox K D × V)}
    (h : Tracks tr growth root bag) :
    Layered root ∧ CountsRight root ∧ UniformDepth root ∧ Nested root ∧
      AllNodesAt (fun n depth => n.isDirectory →
        (n.isNonleafDirectory → 0 < n.children.length) ∧ n.children.length ≤ tr.maxNodeSize ∧
          (depth ≠ 0 → tr.minNodeSize ≤ n.children.length) ∧ depth ≤ tr.maxTreeDepth) 0 root := by
  obtain ⟨hdir, height, hle, hbal⟩ := h.balancedTree hmin
  have hdepth := (depth_lt_of_balanced root hbal).1
  refine ⟨⟨hdir, fun x hx => (hbal x hx).parts.1⟩, fun x hx => (hbal x hx).parts.2.1,
    fun x hx y hy hxvalue hyvalue => ?_, (h.enclosed hmin).nested, fun x hx hxdir => ?_⟩
  · rw [(hbal x hx).parts.2.2.2 hxvalue, (hbal y hy).parts.2.2.2 hyvalue]
  · obtain ⟨hne, hmax, hlow⟩ := (hbal x hx).parts.2.2.1 hxdir
    have := hdepth x hx hxdir
    exact ⟨hne, hmax, hlow, by omega⟩

end Calls

/-- With `min_node_size = 1` and `max_node_size = 2`, three points split the root over leaves of
keys `0` and `1, 2`; erasing key `0` dissolves its leaf and leaves a non-leaf root over one child,
balanced but without the second child invariant I asks of it. -/
theorem tracked_tree_balanced_dissolve :
    ∃ (tree : NodeStore Int Nat 1) (bag : Multiset (BoundingBox Int 1 × Nat)),
      Tracks ⟨1, 2, 100, by decide⟩ .libstdcxx tree bag ∧ tree.isNonleafDirectory ∧
        tree.children.length = 1 ∧
      (Layered tree ∧ CountsRight tree ∧ UniformDepth tree ∧ Nested tree ∧
        AllNodesAt (fun n depth => n.isDirectory →
          (n.isNonleafDirectory → 0 < n.children.length) ∧ n.children.length ≤ 2 ∧
            (depth ≠ 0 → 1 ≤ n.children.length) ∧ depth ≤ 100) 0 tree) := by
  have hrun : Tracks (⟨1, 2, 100, by decide⟩ : Trait) .libstdcxx (_ : NodeStore Int Nat 1) _ :=
    .insert ⟨fun _ => 2⟩ ⟨fun _ => 2⟩ 2 (.insert ⟨fun _ => 1⟩ ⟨fun _ => 1⟩ 1
      (.insert ⟨fun _ => 0⟩ ⟨fun _ => 0⟩ 0 .empty (by rfl)) (by rfl)) (by rfl)
  have h := hrun.erase [0, 0] _ rfl (show erase _ _ _ [0, 0] = .returned _ from by rfl)
  exact ⟨_, _, h, rfl, rfl, tracked_tree_balanced (by decide) h⟩

end Mdds.RTree

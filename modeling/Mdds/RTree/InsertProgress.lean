import Mdds.RTree.InsertInvariant

/-!
# Where an insertion can fail

On a well-formed tree (`WellFormed`: invariant I, right `parent` pointers, the root's
`valid_pointer` clear) with `min_node_size ≥ 1`, `rtree::insert` fails in one way only: the
non-root branch of `split_node` pushes the new sibling onto a full child vector, whose reallocation
leaves `ns` dangling (`absorb`'s `Failure.undefinedBehavior`). No `assert` fails, no stale `parent`
pointer is followed, and nothing null or out of range is read:

* every distribution `1 … max_dist_size` of `max_node_size + 1` children has two non-empty groups,
  so the loops of `sort_dir_store_by_split_dimension` and `pick_optimal_distribution` return and
  `split_node` does (`splitNode_ok`);
* a non-leaf directory has children, all directories, so the pick loop of
  `find_node_for_insertion` picks one of them (`chooseSubtree_ok`);
* every walk up the tree finds its `parent` pointers right and its counts positive
  (`absorb_progress`).

So an insertion from a well-formed tree returns; or throws, which needs a directory at
`max_tree_depth` or deeper (not `Shallow`); or fails so, which needs a non-leaf directory with no
room for one more child (not `Roomy`) (`insert_outcome_cases`).
-/

set_option autoImplicit false
set_option relaxedAutoImplicit false

namespace Mdds.RTree

open NodeStore BoundingBox

variable {K V : Type} {D : Nat}

/-! ### Loops that return -/

section Loops

variable {ε α β : Type}

/-- A loop whose every step from an accumulator with property `P` returns one with `P` returns. -/
theorem foldlM_ok_of_step {P : β → Prop} {f : β → α → Except ε β} :
    ∀ (l : List α), (∀ b a, a ∈ l → P b → ∃ b', f b a = .ok b' ∧ P b') →
      ∀ b, P b → ∃ b', l.foldlM f b = .ok b' ∧ P b'
  | [], _, b, hb => ⟨b, rfl, hb⟩
  | a :: l, hf, b, hb => by
    obtain ⟨b', hstep, hb'⟩ := hf b a (List.mem_cons_self a l) hb
    obtain ⟨b'', hrest, hb''⟩ :=
      foldlM_ok_of_step l (fun b a ha => hf b a (List.mem_cons_of_mem _ ha)) b' hb'
    exact ⟨b'', by rw [List.foldlM_cons, hstep, ok_bind, hrest], hb''⟩

/-- A loop that returns, followed by a step that returns on what the loop keeps, returns. -/
theorem bind_foldlM_ok_of_step {γ : Type} {P : β → Prop} {f : β → α → Except ε β}
    {g : β → Except ε γ} (l : List α) (hf : ∀ b a, a ∈ l → P b → ∃ b', f b a = .ok b' ∧ P b')
    (b : β) (hb : P b) (hg : ∀ b, P b → ∃ c, g b = .ok c) : ∃ c, (l.foldlM f b >>= g) = .ok c := by
  obtain ⟨b', hloop, hb'⟩ := foldlM_ok_of_step l hf b hb
  obtain ⟨c, hc⟩ := hg b' hb'
  exact ⟨c, by rw [hloop, ok_bind, hc]⟩

/-- A step that returns, followed by one that returns on every result, returns. -/
theorem exists_bind_ok {γ : Type} {x : Except ε α} {f : α → Except ε γ} (hx : ∃ a, x = .ok a)
    (hf : ∀ a, ∃ c, f a = .ok c) : ∃ c, (x >>= f) = .ok c := by
  obtain ⟨a, rfl⟩ := hx
  exact hf a

/-- A map whose every call returns returns a list of the same length. -/
theorem mapM_ok_of_forall {f : α → Except ε β} :
    ∀ (l : List α), (∀ a ∈ l, ∃ b, f a = .ok b) → ∃ bs, l.mapM f = .ok bs ∧ bs.length = l.length
  | [], _ => ⟨[], rfl, rfl⟩
  | a :: l, hf => by
    obtain ⟨b, hb⟩ := hf a (List.mem_cons_self a l)
    obtain ⟨bs, hbs, hlen⟩ := mapM_ok_of_forall l fun a ha => hf a (List.mem_cons_of_mem _ ha)
    exact ⟨b :: bs, by rw [List.mapM_cons, hb, ok_bind, hbs, ok_bind]; rfl, by simp [hlen]⟩

end Loops

theorem exists_calcBoundingBox_eq_some [LinearOrder K] {children : List (NodeStore K V D)}
    (hne : children ≠ []) : ∃ bb, calcBoundingBox children = some bb := by
  obtain ⟨first, rest, rfl⟩ := List.exists_cons_of_ne_nil hne
  exact ⟨_, calcBoundingBox_cons first rest⟩

/-! ### A split of `max_node_size + 1` children returns -/

section Split

variable [LinearOrderedCommRing K] [NeZero D] {tr : Trait} (hmin : 1 ≤ tr.minNodeSize)
include hmin

omit [LinearOrderedCommRing K] [NeZero D] in
/-- With `max_node_size + 1` children, every distribution `1 … max_dist_size` reaches no further
than the children and leaves both groups non-empty. -/
theorem distribution_ne_nil {children : List (NodeStore K V D)}
    (hlen : children.length = tr.maxNodeSize + 1) {dist : Nat}
    (hdist : dist ∈ List.range' 1 tr.maxDistSize) :
    tr.minNodeSize + dist - 1 < children.length ∧ (distribution tr dist children).1 ≠ [] ∧
      (distribution tr dist children).2 ≠ [] := by
  have hhalf := tr.min_le_half
  rw [List.mem_range'_1] at hdist
  unfold Trait.maxDistSize at hdist
  have hlt : tr.minNodeSize + dist - 1 < children.length := by omega
  refine ⟨hlt, fun hnil => ?_, fun hnil => ?_⟩
  · rcases List.take_eq_nil_iff.mp hnil with h | h
    · omega
    · simp [h] at hlen
  · exact absurd (List.drop_eq_nil_iff.mp hnil) (not_le.mpr hlt)

/-- The sum of margins of `max_node_size + 1` children is computed without a fault. -/
theorem sumOfMargins_ok {children : List (NodeStore K V D)}
    (hlen : children.length = tr.maxNodeSize + 1) : ∃ sum, sumOfMargins tr children = .ok sum := by
  suffices h : ∃ sum, sumOfMargins tr children = .ok sum ∧ True from h.imp fun _ h => h.1
  exact foldlM_ok_of_step _ (fun sum dist hdist _ => by
    obtain ⟨hlt, hne1, hne2⟩ := distribution_ne_nil hmin hlen hdist
    obtain ⟨bb1, hbb1⟩ := exists_calcBoundingBox_eq_some hne1
    obtain ⟨bb2, hbb2⟩ := exists_calcBoundingBox_eq_some hne2
    exact ⟨sum + (calcHalfMargin bb1 + calcHalfMargin bb2),
      by simp [hbb1, hbb2, hlt.ne', not_lt.mpr hlt.le], trivial⟩) 0 trivial

/-- The sorts along every axis of `max_node_size + 1` children return: each sort keeps the number
of children. -/
theorem sortDirStoreBySplitDimension_ok {children : List (NodeStore K V D)}
    (hlen : children.length = tr.maxNodeSize + 1) :
    ∃ sorted, sortDirStoreBySplitDimension tr children = .ok sorted := by
  rw [sortDirStoreBySplitDimension]
  refine bind_foldlM_ok_of_step (P := fun acc : List (NodeStore K V D) × MinValuePos K =>
      acc.1.length = tr.maxNodeSize + 1) _ (fun acc dim _ hacc => ?_) _ hlen
    fun ⟨_, _⟩ _ => ⟨_, rfl⟩
  have hsorted : (sortDirStoreByDimension dim acc.1).length = tr.maxNodeSize + 1 := by
    simpa [sortDirStoreByDimension] using hacc
  obtain ⟨sum, hsum⟩ := sumOfMargins_ok hmin hsorted
  exact ⟨(sortDirStoreByDimension dim acc.1, acc.2.assign sum dim.val),
    by simp only [hsum, ok_bind, pure_eq_ok], hsorted⟩

/-- The overlaps of the distributions of `max_node_size + 1` children are computed without a
fault. -/
theorem pickOptimalDistribution_ok {children : List (NodeStore K V D)}
    (hlen : children.length = tr.maxNodeSize + 1) :
    ∃ dist, pickOptimalDistribution tr children = .ok dist := by
  rw [pickOptimalDistribution]
  refine bind_foldlM_ok_of_step (P := fun _ => True) _ (fun m dist hdist _ => ?_) _ trivial
    fun _ _ => ⟨_, rfl⟩
  obtain ⟨hlt, hne1, hne2⟩ := distribution_ne_nil hmin hlen hdist
  obtain ⟨bb1, hbb1⟩ := exists_calcBoundingBox_eq_some hne1
  obtain ⟨bb2, hbb2⟩ := exists_calcBoundingBox_eq_some hne2
  exact ⟨m.assign (calcIntersection bb1 bb2) dist, by simp [hbb1, hbb2, not_lt.mpr hlt.le],
    trivial⟩

/-- `split_node` on a directory of `max_node_size + 1` children returns. -/
theorem splitNode_ok (growth : VectorGrowth) {type : DirType} {box : BoundingBox K D}
    {count : Nat} {valid linked : Bool} {children : List (NodeStore K V D)} {capacity : Nat}
    (hcount : count = tr.maxNodeSize + 1) (hlen : children.length = count) :
    ∃ groups, splitNode tr growth type box count valid linked children capacity = .ok groups := by
  obtain ⟨sorted, hsorted⟩ := sortDirStoreBySplitDimension_ok hmin (hlen.trans hcount)
  have hlen' : sorted.length = tr.maxNodeSize + 1 :=
    ((sortDirStoreBySplitDimension_spec tr (P := fun _ => True) (fun _ _ => trivial) hsorted
      fun _ _ => trivial).1).trans (hlen.trans hcount)
  obtain ⟨dist, hdist⟩ := pickOptimalDistribution_ok hmin hlen'
  obtain ⟨hdist1, hdist2⟩ := pickOptimalDistribution_bounds tr hdist
  have hhalf := tr.min_le_half
  unfold Trait.maxDistSize at hdist2
  have hlt : ¬sorted.length ≤ tr.minNodeSize + dist - 1 := by omega
  exact ⟨_, by
    simp only [splitNode, hcount, ne_eq, not_true_eq_false, if_false, hsorted, hdist, hlt,
      ok_bind, pure_eq_ok, throw_eq_error]
    rfl⟩

end Split

/-! ### The pick loop of `find_node_for_insertion` picks a child -/

section Choice

variable [LinearOrderedCommRing K] [NeZero D]

omit [NeZero D] in
/-- From a pick among the children before `index`, the loop ends on one of the children it has
seen. -/
theorem pickChild_some_lt :
    ∀ (pos : Nat) (least : List K) (index : Nat) (rest : List (List K)), pos < index →
      ∃ pick, pickChild (some (pos, least)) index rest = some pick ∧ pick < index + rest.length
  | pos, _, _, [], h => ⟨pos, rfl, by simpa using h⟩
  | pos, least, index, costs :: rest, h => by
    rw [pickChild]
    split_ifs
    · obtain ⟨pick, hpick, hlt⟩ := pickChild_some_lt index costs (index + 1) rest index.lt_succ_self
      exact ⟨pick, hpick, by simp only [List.length_cons]; omega⟩
    · obtain ⟨pick, hpick, hlt⟩ := pickChild_some_lt pos least (index + 1) rest (by omega)
      exact ⟨pick, hpick, by simp only [List.length_cons]; omega⟩

omit [NeZero D] in
/-- Over children, the loop picks one of them. -/
theorem pickChild_none_lt (costs : List (List K)) (hne : costs ≠ []) :
    ∃ pick, pickChild none 0 costs = some pick ∧ pick < costs.length := by
  obtain ⟨first, rest, rfl⟩ := List.exists_cons_of_ne_nil hne
  obtain ⟨pick, hpick, hlt⟩ := pickChild_some_lt 0 first 1 rest Nat.zero_lt_one
  exact ⟨pick, by rw [pickChild]; exact hpick, by simp only [List.length_cons]; omega⟩

/-- At a non-leaf directory whose children are directories, the pick loop of
`find_node_for_insertion` picks one of them: no value node is read as a directory, and the pointer
it returns is not null. -/
theorem chooseSubtree_ok (bb : BoundingBox K D) {children : List (NodeStore K V D)}
    (hne : children ≠ []) (hdirs : ∀ c ∈ children, c.isDirectory) :
    ∃ index, chooseSubtree bb children = .ok (some index) ∧ index < children.length := by
  unfold chooseSubtree
  split_ifs
  · obtain ⟨costs, hcosts, hlen⟩ := mapM_ok_of_forall (f := leafChoiceCosts bb) children
      fun c hc => by
        cases c with
        | directory => exact ⟨_, rfl⟩
        | value => exact absurd (hdirs _ hc) (by simp)
    obtain ⟨pick, hpick, hlt⟩ := pickChild_none_lt costs
      (List.ne_nil_of_length_pos (hlen ▸ List.length_pos.mpr hne))
    exact ⟨pick, by rw [hcosts, ok_bind, hpick]; rfl, hlen ▸ hlt⟩
  · obtain ⟨pick, hpick, hlt⟩ := pickChild_none_lt
      (children.map fun ns => [calcAreaEnlargement ns.box bb, calcArea ns.box]) (by simpa using hne)
    exact ⟨pick, by rw [hpick]; rfl, by simpa using hlt⟩

end Choice

/-! ### Room in the child vectors -/

/-- The capacity of a directory's child vector; a value node has none. -/
def NodeStore.capacity : NodeStore K V D → Nat
  | .directory _ _ _ _ _ _ capacity => capacity
  | .value .. => 0

/-- Every non-leaf directory of the tree has room for one more child in its vector, so that the
split of a child places the new sibling without a reallocation. -/
def Roomy (root : NodeStore K V D) : Prop :=
  AllNodes (fun ns => ns.isNonleafDirectory → ns.children.length < ns.capacity) root

instance (root : NodeStore K V D) : Decidable (Roomy root) :=
  inferInstanceAs (Decidable (AllNodes _ _))

theorem roomy_directory {type : DirType} {box : BoundingBox K D} {count : Nat}
    {valid linked : Bool} {children : List (NodeStore K V D)} {capacity : Nat} :
    Roomy (.directory type box count valid linked children capacity) ↔
      (type = .nonleaf → children.length < capacity) ∧ ∀ child ∈ children, Roomy child := by
  rw [Roomy, allNodes_directory]
  simp only [isNonleafDirectory_directory, decide_eq_true_eq, children_directory]
  rfl

/-- Every directory of the tree lies above `max_tree_depth`, so that the depth check of
`find_node_for_insertion` never fires. -/
def Shallow (tr : Trait) (root : NodeStore K V D) : Prop :=
  AllNodesAt (fun ns depth => ns.isDirectory → depth < tr.maxTreeDepth) 0 root

/-! ### What the descent ends with -/

/-- What a step of an insertion ends with on a tree that keeps the invariant: a result; the
exception of `max_tree_depth`, which needs the depth `shallow` promises to be exceeded; or undefined
behaviour, which needs the room `roomy` promises to be missing. -/
def Progress {α : Type} (roomy shallow : Prop) (x : Except Failure α) : Prop :=
  (∃ r, x = .ok r) ∨ (x = .error maxDepthReached ∧ ¬shallow) ∨
    (x = .error .undefinedBehavior ∧ ¬roomy)

theorem Progress.mono {α : Type} {roomy roomy' shallow shallow' : Prop} {x : Except Failure α}
    (hp : Progress roomy shallow x) (hroomy : roomy' → roomy) (hshallow : shallow' → shallow) :
    Progress roomy' shallow' x :=
  hp.imp_right (Or.imp (fun ⟨hx, hs⟩ => ⟨hx, fun h => hs (hshallow h)⟩)
    fun ⟨hx, hr⟩ => ⟨hx, fun h => hr (hroomy h)⟩)

/-- A step that ends as `Progress` asks, followed by one that does so on each result, does. -/
theorem Progress.bind {α β : Type} {roomy shallow : Prop} {x : Except Failure α}
    {f : α → Except Failure β} (hx : Progress roomy shallow x)
    (hf : ∀ r, x = .ok r → Progress roomy shallow (f r)) :
    Progress roomy shallow (x >>= f) := by
  rcases hx with ⟨r, rfl⟩ | ⟨rfl, hs⟩ | ⟨rfl, hr⟩
  · exact hf r rfl
  · exact .inr (.inl ⟨rfl, hs⟩)
  · exact .inr (.inr ⟨rfl, hr⟩)

section Descent

variable [LinearOrderedCommRing K] [NeZero D] {tr : Trait} (growth : VectorGrowth)
  (hmin : 1 ≤ tr.minNodeSize)
include hmin

omit [NeZero D] in
/-- A directory that keeps invariant I holds at most `max_node_size` children, and one at least
when it is a non-leaf directory. -/
theorem count_bounds_of_shaped {height depth : Nat} {type : DirType} {box : BoundingBox K D}
    {count : Nat} {valid linked : Bool} {children : List (NodeStore K V D)} {capacity : Nat}
    (h : Shaped tr height depth (.directory type box count valid linked children capacity)) :
    count = children.length ∧ count ≤ tr.maxNodeSize ∧ (type = .nonleaf → children ≠ []) := by
  obtain ⟨⟨-, hcount, -, hfan, -⟩, -⟩ := shaped_directory.mp h
  unfold FanOut at hfan
  refine ⟨hcount, ?_, fun hnonleaf hnil => ?_⟩
  · split_ifs at hfan <;> omega
  · subst hnonleaf hnil
    split_ifs at hfan
    · exact absurd (hfan.2 rfl) (by simp)
    · simp only [List.length_nil] at hfan
      omega

/-- A directory on the insertion path takes in what its child passed up without a fault, unless a
split child's sibling has to go into a full vector: the child's `parent` pointer is right, the
count is positive, and an overfull directory splits. -/
theorem absorb_progress {height depth : Nat} {box : BoundingBox K D} {count : Nat}
    {valid linked : Bool} {children : List (NodeStore K V D)} {capacity index : Nat}
    {child : NodeStore K V D} {passed : Inserted K V D}
    (hold : Shaped tr height depth (.directory .nonleaf box count valid linked children capacity))
    (hlinked : Linked (.directory .nonleaf box count valid linked children capacity))
    (hchild : children[index]? = some child) (hpassed : InsertedLinked child passed) :
    Progress (children.length < capacity) True
      (absorb tr growth box count valid linked children capacity index passed) := by
  obtain ⟨hcount, hmax, -⟩ := count_bounds_of_shaped hmin hold
  have hmem := List.getElem?_mem hchild
  have hchildLinked := (hlinked.child hmem).1
  have hpos : count ≠ 0 := by
    have := List.length_pos_of_mem hmem
    omega
  cases passed with
  | enlarged node _ =>
    have hnode : node.linked = true := hpassed.2.1.trans hchildLinked
    exact .inl ⟨_, by simp [absorb, hnode, hpos]; rfl⟩
  | packed node changed =>
    have hnode : node.linked = true := hpassed.2.1.trans hchildLinked
    cases changed
    · exact .inl ⟨_, by simp [absorb]; rfl⟩
    · exact .inl ⟨_, by simp [absorb, hnode]; rfl⟩
  | split group1 group2 =>
    have hgroup1 : group1.linked = true := hpassed.1.trans hchildLinked
    by_cases hroom : children.length < capacity
    · by_cases hover : tr.maxNodeSize < count + 1
      · refine .inl ?_
        simp only [absorb, hgroup1, Bool.not_true, Bool.false_eq_true, if_false, not_le.mpr hroom,
          if_pos hover, pure_eq_ok, throw_eq_error, ok_bind]
        exact exists_bind_ok (splitNode_ok hmin growth (by omega) (by simp [hcount]))
          fun _ => ⟨_, rfl⟩
      · exact .inl ⟨_, by simp [absorb, hgroup1, not_le.mpr hroom, hover]; rfl⟩
    · exact .inr (.inr ⟨by simp [absorb, hgroup1, not_lt.mp hroom], hroom⟩)

variable {ns : NodeStore K V D} (hns : ns.isDirectory = false) {height : Nat}
include hns

set_option linter.unusedSectionVars false in
mutual

/-- The descent of the insertion of a value node through a subtree that keeps invariant I, with
right pointers, ends as `Progress` asks. -/
theorem insertDescend_progress :
    ∀ (depth : Nat) (t : NodeStore K V D), t.isDirectory → Shaped tr height depth t → Linked t →
      Progress (Roomy t)
        (AllNodesAt (fun ns depth => ns.isDirectory → depth < tr.maxTreeDepth) depth t)
        (insertDescend tr growth ns depth t)
  | depth, .directory .leaf box count valid linked children capacity, _, hshaped, _ => by
    obtain ⟨hcount, hmax, -⟩ := count_bounds_of_shaped hmin hshaped
    rw [insertDescend]
    by_cases hdepth : tr.maxTreeDepth ≤ depth
    · rw [if_pos hdepth]
      exact .inr (.inl ⟨rfl, fun hshallow =>
        absurd ((allNodesAt_directory.mp hshallow).1 rfl) (not_lt.mpr hdepth)⟩)
    -- the leaf takes the value in, and splits when it overflows
    rw [if_neg hdepth, insertIntoLeaf]
    refine .inl ?_
    by_cases hover : tr.maxNodeSize < count + 1
    · rw [if_pos hover]
      exact exists_bind_ok (splitNode_ok hmin growth (by omega) (by simp [hcount]))
        fun _ => ⟨_, rfl⟩
    · rw [if_neg hover]
      exact ⟨_, rfl⟩
  | depth, .directory .nonleaf box count valid linked children capacity, _, hshaped, hlinked => by
    obtain ⟨⟨hkinds, -, -, -, -⟩, hchildren⟩ := shaped_directory.mp hshaped
    obtain ⟨-, -, hne⟩ := count_bounds_of_shaped hmin hshaped
    have hdirs : ∀ c ∈ children, c.isDirectory := fun c hc => by simpa using hkinds c hc
    rw [insertDescend]
    by_cases hdepth : tr.maxTreeDepth ≤ depth
    · rw [if_pos hdepth]
      exact .inr (.inl ⟨rfl, fun hshallow =>
        absurd ((allNodesAt_directory.mp hshallow).1 rfl) (not_lt.mpr hdepth)⟩)
    rw [if_neg hdepth]
    obtain ⟨index, hchoice, hlt⟩ := chooseSubtree_ok ns.box (hne rfl) hdirs
    rw [hchoice, ok_bind]
    refine Progress.bind ((insertAt_progress (depth + 1) index children hlt fun c hc =>
      ⟨hdirs c hc, hchildren c hc, (hlinked.child hc).2⟩).mono
        (fun hroomy => (roomy_directory.mp hroomy).2)
        fun hshallow => (allNodesAt_directory.mp hshallow).2) fun passed hpassed => ?_
    -- the child passed up what it was given from a subtree with right pointers
    obtain ⟨child, hchild, hpassedLinked⟩ := @insertAt_induction _ _ _ _ _ tr growth ns
      (fun _ => Linked) (fun _ => InsertedLinked) (fun hpre _ hc => (hpre.child hc).2)
      (insertedLinked_insertIntoLeaf tr growth hns) (insertedLinked_absorb tr growth) (depth + 1)
      index children passed (fun c hc => (hlinked.child hc).2) hpassed
    exact (absorb_progress growth hmin hshaped hlinked hchild hpassedLinked).mono
      (fun hroomy => (roomy_directory.mp hroomy).1 rfl) fun _ => trivial
  | _, .value .., hdir, _, _ => absurd hdir (by simp)

/-- `insertDescend_progress` into child `index` of a child vector. -/
theorem insertAt_progress :
    ∀ (depth index : Nat) (children : List (NodeStore K V D)), index < children.length →
      (∀ c ∈ children, c.isDirectory ∧ Shaped tr height depth c ∧ Linked c) →
      Progress (∀ c ∈ children, Roomy c)
        (∀ c ∈ children,
          AllNodesAt (fun ns depth => ns.isDirectory → depth < tr.maxTreeDepth) depth c)
        (insertAt tr growth ns depth index children)
  | _, _, [], hlt, _ => absurd hlt (Nat.not_lt_zero _)
  | depth, 0, child :: _, _, h => by
    rw [insertAt]
    obtain ⟨hdir, hshaped, hlinked⟩ := h child (List.mem_cons_self _ _)
    exact (insertDescend_progress depth child hdir hshaped hlinked).mono
      (fun hall => hall child (List.mem_cons_self _ _))
      fun hall => hall child (List.mem_cons_self _ _)
  | depth, index + 1, _ :: rest, hlt, h => by
    rw [insertAt]
    exact (insertAt_progress depth index rest (by simpa using hlt)
      fun c hc => h c (List.mem_cons_of_mem _ hc)).mono
        (fun hall c hc => hall c (List.mem_cons_of_mem _ hc))
        fun hall c hc => hall c (List.mem_cons_of_mem _ hc)

end

omit hns in
/-- `insert(node_store&&)` of a value node into a well-formed tree ends as `Progress` asks. -/
theorem insertNodeStore_progress {root : NodeStore K V D} (hns : ns.isDirectory = false)
    (hwf : WellFormed tr root) :
    Progress (Roomy root) (Shallow tr root) (insertNodeStore tr growth root ns) := by
  obtain ⟨height, hshaped⟩ := exists_shaped_of_invariant hmin hwf.invariant
  unfold insertNodeStore
  refine Progress.bind (insertDescend_progress growth hmin hns 0 root hwf.invariant.1.1 hshaped
    hwf.linked) fun passed _ => .inl ?_
  cases passed <;> exact ⟨_, rfl⟩

end Descent

/-- What `rtree::insert(start, end, value)` does on a well-formed tree, with `min_node_size ≥ 1`:
it returns; or it throws "Maximum tree depth has been reached." and leaves the tree as it was, which
needs a directory at `max_tree_depth` or deeper; or it fails with undefined behaviour, which needs a
non-leaf directory whose child vector is full, where `split_node` pushes a split child's sibling.
No `assert` fails, no stale `parent` pointer is followed and nothing null or out of range is
read. -/
theorem insert_outcome_cases [LinearOrderedCommRing K] [NeZero D] {tr : Trait}
    (growth : VectorGrowth) (hmin : 1 ≤ tr.minNodeSize) {root : NodeStore K V D}
    (hwf : WellFormed tr root) (start «end» : Point K D) (value : V) :
    (∃ tree, insert tr growth root start «end» value = .returned tree) ∨
      (insert tr growth root start «end» value =
          .threw "Maximum tree depth has been reached." root ∧ ¬Shallow tr root) ∨
      (insert tr growth root start «end» value = .failed .undefinedBehavior ∧ ¬Roomy root) := by
  rcases insertNodeStore_progress growth hmin
      (show (NodeStore.value ⟨start, «end»⟩ false value).isDirectory = false from rfl) hwf with
    ⟨tree, htree⟩ | ⟨hmax, hdeep⟩ | ⟨hfull, hroom⟩
  · exact .inl ⟨tree, by rw [RTree.insert, htree]⟩
  · exact .inr (.inl ⟨by rw [RTree.insert, hmax]; rfl, hdeep⟩)
  · exact .inr (.inr ⟨by rw [RTree.insert, hfull], hroom⟩)

/-- The fourth point of `insertAll_reallocates`: the tree the first three leave is well formed, and
the fourth insert overfills a leaf whose parent, the root, has a full child vector. -/
theorem insert_outcome_cases_fourthPoint :
    ∃ tree, (insertAll ⟨1, 2, 100, by decide⟩ .libstdcxx (empty : NodeStore Int Nat 1)
      ([(⟨fun _ => 0⟩, ⟨fun _ => 0⟩, 0), (⟨fun _ => 1⟩, ⟨fun _ => 1⟩, 1),
        (⟨fun _ => 2⟩, ⟨fun _ => 2⟩, 2)] : List (Point Int 1 × Point Int 1 × Nat))).tree? =
          some tree ∧ WellFormed ⟨1, 2, 100, by decide⟩ tree ∧
      insert ⟨1, 2, 100, by decide⟩ .libstdcxx tree ⟨fun _ => 3⟩ ⟨fun _ => 3⟩ 3 =
        .failed .undefinedBehavior ∧
      ((∃ tree', insert ⟨1, 2, 100, by decide⟩ .libstdcxx tree ⟨fun _ => 3⟩ ⟨fun _ => 3⟩ 3 =
          .returned tree') ∨
        (insert ⟨1, 2, 100, by decide⟩ .libstdcxx tree ⟨fun _ => 3⟩ ⟨fun _ => 3⟩ 3 =
            .threw "Maximum tree depth has been reached." tree ∧
          ¬Shallow ⟨1, 2, 100, by decide⟩ tree) ∨
        (insert ⟨1, 2, 100, by decide⟩ .libstdcxx tree ⟨fun _ => 3⟩ ⟨fun _ => 3⟩ 3 =
            .failed .undefinedBehavior ∧ ¬Roomy tree)) := by
  refine ⟨_, rfl, ?hwf, rfl, insert_outcome_cases .libstdcxx le_rfl ?hwf _ _ _⟩
  decide

end Mdds.RTree

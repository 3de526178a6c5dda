import Mdds.RTree.InsertProgress

/-!
# How deep a well-formed tree grows

Invariant I bounds the height of an `rtree` by its size. Below the root every directory has at
least `min_node_size` children, so a subtree whose top lies `k` levels above the value nodes holds
at least `min_node_size ^ k` values (`bounds_of_shaped`); a non-leaf root has two children at
least, so a tree whose value nodes lie at depth `height ≥ 2` holds at least
`2 * min_node_size ^ (height - 1)` values, and every directory lies above the value nodes
(`bounds_of_shaped_root`).

`find_node_for_insertion` throws "Maximum tree depth has been reached." only on reaching a
directory at depth `max_tree_depth`, which such a tree has only once it holds
`2 * min_node_size ^ max_tree_depth` values (`shallow_of_length_entries_lt`). So on a smaller
well-formed tree, `insert` never throws (`insert_never_throws_below_depth_bound`).
-/

set_option autoImplicit false
set_option relaxedAutoImplicit false

namespace Mdds.RTree

open NodeStore BoundingBox

variable {K V : Type} {D : Nat}

/-- Child vectors whose every child holds `k` values or more hold `k` values per child. -/
theorem mul_le_length_entriesAll {k : Nat} :
    ∀ {children : List (NodeStore K V D)}, (∀ c ∈ children, k ≤ c.entries.length) →
      children.length * k ≤ (entriesAll children).length
  | [], _ => by simp [entriesAll]
  | c :: rest, h => by
    have hc := h c (List.mem_cons_self _ _)
    have hrest := mul_le_length_entriesAll fun c' hc' => h c' (List.mem_cons_of_mem _ hc')
    rw [List.length_cons, Nat.succ_mul, entriesAll, List.length_append]
    omega

section Shape

variable [LinearOrder K] [Zero K] {tr : Trait} (hmin : 1 ≤ tr.minNodeSize) {height : Nat}
include hmin

set_option linter.unusedSectionVars false in
mutual

/-- Below the root, a subtree that keeps invariant I has its directories above the value nodes'
depth `height`, lies no deeper than it, and holds `min_node_size ^ (height - depth)` values or
more. -/
theorem bounds_of_shaped :
    ∀ {depth : Nat} (t : NodeStore K V D), depth ≠ 0 → Shaped tr height depth t →
      AllNodesAt (fun ns dep => ns.isDirectory → dep < height) depth t ∧ depth ≤ height ∧
        tr.minNodeSize ^ (height - depth) ≤ t.entries.length
  | _, .value .., _, h => by
    rw [shaped_value] at h
    subst h
    exact ⟨fun x hx hdir => by simp [nodesAt] at hx; simp [hx] at hdir, le_rfl, by simp [entries]⟩
  | depth, .directory type box count valid linked children capacity, hdepth, h => by
    obtain ⟨⟨-, -, -, hfan, -⟩, hchildren⟩ := shaped_directory.mp h
    simp only [FanOut, decide_eq_true_eq, hdepth, if_false] at hfan
    have hall := bounds_of_shapedAll children hchildren
    obtain ⟨child, hchild⟩ := List.exists_mem_of_length_pos (by omega : 0 < children.length)
    have hbelow : depth + 1 ≤ height := (hall child hchild).2.1
    refine ⟨allNodesAt_directory.mpr ⟨fun _ => hbelow, fun c hc => (hall c hc).1⟩, by omega, ?_⟩
    calc tr.minNodeSize ^ (height - depth)
        = tr.minNodeSize * tr.minNodeSize ^ (height - (depth + 1)) := by
          rw [← Nat.pow_succ']; congr 1; omega
      _ ≤ children.length * tr.minNodeSize ^ (height - (depth + 1)) :=
          Nat.mul_le_mul_right _ hfan.1
      _ ≤ (entriesAll children).length := mul_le_length_entriesAll fun c hc => (hall c hc).2.2

/-- `bounds_of_shaped` for each child of a directory at `depth`. -/
theorem bounds_of_shapedAll {depth : Nat} :
    ∀ (children : List (NodeStore K V D)), (∀ c ∈ children, Shaped tr height (depth + 1) c) →
      ∀ c ∈ children, AllNodesAt (fun ns dep => ns.isDirectory → dep < height) (depth + 1) c ∧
        depth + 1 ≤ height ∧ tr.minNodeSize ^ (height - (depth + 1)) ≤ c.entries.length
  | [], _ => by simp
  | c :: rest, h => List.forall_mem_cons.mpr
    ⟨bounds_of_shaped c (Nat.succ_ne_zero depth) (h c (List.mem_cons_self _ _)),
      bounds_of_shapedAll rest fun c' hc' => h c' (List.mem_cons_of_mem _ hc')⟩

end

/-- A tree that keeps invariant I has every directory above the value nodes' depth `height`, and
holds `2 * min_node_size ^ (height - 1)` values or more once `height ≥ 2`: its root is then a
non-leaf directory, with two children at least. -/
theorem bounds_of_shaped_root {root : NodeStore K V D} (hdir : root.isDirectory)
    (h : Shaped tr height 0 root) :
    AllNodesAt (fun ns dep => ns.isDirectory → dep < height) 0 root ∧
      (2 ≤ height → 2 * tr.minNodeSize ^ (height - 1) ≤ root.entries.length) := by
  cases root with
  | value => exact absurd hdir (by simp)
  | directory type box count valid linked children capacity =>
    obtain ⟨⟨-, -, -, hfan, hleaf⟩, hchildren⟩ := shaped_directory.mp h
    rw [FanOut, if_pos (decide_eq_true rfl)] at hfan
    have hall := bounds_of_shapedAll hmin children hchildren
    -- a leaf root lies just above its values; a non-leaf root has two children
    have htop : 0 < height ∧ (2 ≤ height → 2 ≤ children.length) := by
      cases type with
      | leaf => have := hleaf rfl; omega
      | nonleaf =>
        have htwo := hfan.2 rfl
        obtain ⟨child, hchild⟩ := List.exists_mem_of_length_pos (by omega : 0 < children.length)
        exact ⟨(hall child hchild).2.1, fun _ => htwo⟩
    refine ⟨allNodesAt_directory.mpr ⟨fun _ => htop.1, fun c hc => (hall c hc).1⟩, fun htall => ?_⟩
    calc 2 * tr.minNodeSize ^ (height - 1)
        ≤ children.length * tr.minNodeSize ^ (height - 1) := Nat.mul_le_mul_right _ (htop.2 htall)
      _ ≤ (entriesAll children).length := mul_le_length_entriesAll fun c hc => (hall c hc).2.2

/-- A tree that keeps invariant I and holds fewer than `2 * min_node_size ^ max_tree_depth` values
has no directory at depth `max_tree_depth` or deeper. -/
theorem shallow_of_length_entries_lt (hdepth : 1 ≤ tr.maxTreeDepth) {root : NodeStore K V D}
    (hinv : Invariant tr root)
    (hsmall : root.entries.length < 2 * tr.minNodeSize ^ tr.maxTreeDepth) :
    Shallow tr root := by
  obtain ⟨height, hshaped⟩ := exists_shaped_of_invariant hmin hinv
  obtain ⟨hall, hcount⟩ := bounds_of_shaped_root hmin hinv.1.1 hshaped
  have hheight : height ≤ tr.maxTreeDepth := by
    by_contra hdeep
    have hpow : tr.minNodeSize ^ tr.maxTreeDepth ≤ tr.minNodeSize ^ (height - 1) :=
      Nat.pow_le_pow_right hmin (by omega)
    have := hcount (by omega)
    omega
  exact hall.mono fun _ _ hlt hdir => by have := hlt hdir; omega

end Shape

/-- On a well-formed tree with `min_node_size ≥ 1` and `max_tree_depth ≥ 1` that holds fewer than
`2 * min_node_size ^ max_tree_depth` values, `rtree::insert(start, end, value)` throws nothing: the
depth check of `find_node_for_insertion` needs a directory at depth `max_tree_depth`. -/
theorem insert_never_throws_below_depth_bound [LinearOrderedCommRing K] [NeZero D] {tr : Trait}
    (growth : VectorGrowth) (hmin : 1 ≤ tr.minNodeSize) (hdepth : 1 ≤ tr.maxTreeDepth)
    {root : NodeStore K V D} (hwf : WellFormed tr root)
    (hsmall : root.entries.length < 2 * tr.minNodeSize ^ tr.maxTreeDepth)
    (start «end» : Point K D) (value : V) :
    (insert tr growth root start «end» value).thrown? = none := by
  rcases insertNodeStore_progress growth hmin
      (show (NodeStore.value ⟨start, «end»⟩ false value).isDirectory = false from rfl) hwf with
    ⟨tree, htree⟩ | ⟨-, hdeep⟩ | ⟨hfull, -⟩
  · rw [RTree.insert, htree]; rfl
  · exact absurd (shallow_of_length_entries_lt hmin hdepth hwf.invariant hsmall) hdeep
  · rw [RTree.insert, hfull]; rfl

/-- With `min_node_size = 2` and `max_tree_depth = 1`, three values lie under the root leaf, and a
fourth insert throws nothing. -/
theorem insert_never_throws_threePoints :
    ∃ tree, insertAll ⟨2, 4, 1, by decide⟩ .libstdcxx (empty : NodeStore Int Nat 1)
        ([(⟨fun _ => 0⟩, ⟨fun _ => 0⟩, 0), (⟨fun _ => 1⟩, ⟨fun _ => 1⟩, 1),
          (⟨fun _ => 2⟩, ⟨fun _ => 2⟩, 2)] : List (Point Int 1 × Point Int 1 × Nat)) =
          .returned tree ∧
      WellFormed ⟨2, 4, 1, by decide⟩ tree ∧ tree.entries.length < 2 * 2 ^ 1 ∧
      (insert ⟨2, 4, 1, by decide⟩ .libstdcxx tree ⟨fun _ => 3⟩ ⟨fun _ => 3⟩ 3).thrown? = none := by
  refine ⟨_, rfl, ?hwf, ?hsmall,
    insert_never_throws_below_depth_bound .libstdcxx (by decide) (by decide) ?hwf ?hsmall _ _ _⟩
  · decide
  · decide

end Mdds.RTree

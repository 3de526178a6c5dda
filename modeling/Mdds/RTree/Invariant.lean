import Mdds.RTree.Erase

/-!
# The tree invariant

Invariant I of an R-tree, as the spec's section 3 lists it for `node_store`: the node types are
layered (I1, `Layered`), every directory's count is its number of children (I2, `CountsRight`),
every non-empty directory's box is the bounding box of its children's boxes (I3, `Tight`), the
fan-out is within `[min_node_size, max_node_size]` below the root and at most `max_node_size`,
and at least `2` for a non-leaf root (I4, `FanOutBounded`), and all value nodes lie at the same
depth (I5, `UniformDepth`). Each is a statement over `nodesAt`, the node stores of the tree with
their depths, and each is decided by evaluation.

The dissolve path of `erase` packs only the parent of the dissolved leaf. When that parent is not
the root, its own parent keeps the box that took in the erased value
(`erase_dissolve_keeps_ancestor_box`): the erase returns normally and leaves a tree that is not
tight.
-/

set_option autoImplicit false
set_option relaxedAutoImplicit false

namespace Mdds.RTree

open NodeStore

variable {K V : Type} {D : Nat}

namespace NodeStore

mutual

/-- Every node store of the subtree with its depth, the subtree's root at depth `depth`, each
directory before its children. -/
def nodesAt (depth : Nat) : NodeStore K V D → List (NodeStore K V D × Nat)
  | .directory type box count valid linked children capacity =>
    (.directory type box count valid linked children capacity, depth) ::
      nodesAllAt (depth + 1) children
  | .value box linked v => [(.value box linked v, depth)]

/-- `nodesAt` of each node store of a child vector, in order. -/
def nodesAllAt (depth : Nat) : List (NodeStore K V D) → List (NodeStore K V D × Nat)
  | [] => []
  | ns :: rest => nodesAt depth ns ++ nodesAllAt depth rest

end

mutual

/-- `nodesAt` reads the depth only to label the node stores. -/
theorem map_fst_nodesAt (depth depth' : Nat) :
    ∀ ns : NodeStore K V D, (ns.nodesAt depth).map Prod.fst = (ns.nodesAt depth').map Prod.fst
  | .directory type box count valid linked children capacity => by
    simp only [nodesAt, List.map_cons, map_fst_nodesAllAt (depth + 1) (depth' + 1) children]
  | .value .. => rfl

/-- `nodesAllAt` reads the depth only to label the node stores. -/
theorem map_fst_nodesAllAt (depth depth' : Nat) :
    ∀ children : List (NodeStore K V D),
      (nodesAllAt depth children).map Prod.fst = (nodesAllAt depth' children).map Prod.fst
  | [] => rfl
  | ns :: rest => by
    simp only [nodesAllAt, List.map_append, map_fst_nodesAt depth depth' ns,
      map_fst_nodesAllAt depth depth' rest]

end

theorem mem_nodesAllAt {x : NodeStore K V D × Nat} {depth : Nat}
    {children : List (NodeStore K V D)} :
    x ∈ nodesAllAt depth children ↔ ∃ ns ∈ children, x ∈ ns.nodesAt depth := by
  induction children with
  | nil => simp [nodesAllAt]
  | cons ns rest ih => simp [nodesAllAt, ih]

end NodeStore

/-- `P` holds of every node store of the tree. -/
def AllNodes (P : NodeStore K V D → Prop) (root : NodeStore K V D) : Prop :=
  ∀ x ∈ root.nodesAt 0, P x.1

instance (P : NodeStore K V D → Prop) [DecidablePred P] (root : NodeStore K V D) :
    Decidable (AllNodes P root) :=
  inferInstanceAs (Decidable (∀ _ ∈ _, _))

theorem allNodes_and {P Q : NodeStore K V D → Prop} {root : NodeStore K V D} :
    AllNodes (fun ns => P ns ∧ Q ns) root ↔ AllNodes P root ∧ AllNodes Q root :=
  ⟨fun h => ⟨fun x hx => (h x hx).1, fun x hx => (h x hx).2⟩,
    fun h x hx => ⟨h.1 x hx, h.2 x hx⟩⟩

theorem AllNodes.mono {P Q : NodeStore K V D → Prop} {root : NodeStore K V D}
    (hP : AllNodes P root) (hPQ : ∀ ns, P ns → Q ns) : AllNodes Q root :=
  fun x hx => hPQ x.1 (hP x hx)

theorem allNodes_congr {P Q : NodeStore K V D → Prop} (hPQ : ∀ ns, P ns ↔ Q ns)
    (root : NodeStore K V D) : AllNodes P root ↔ AllNodes Q root := by
  simp only [AllNodes, hPQ]

/-- `P` holds of every node store of a directory's subtree when it holds of the directory and of
every node store under each child. -/
theorem allNodes_directory {P : NodeStore K V D → Prop} {type : DirType} {box : BoundingBox K D}
    {count : Nat} {valid linked : Bool} {children : List (NodeStore K V D)} {capacity : Nat} :
    AllNodes P (.directory type box count valid linked children capacity) ↔
      P (.directory type box count valid linked children capacity) ∧
        ∀ child ∈ children, AllNodes P child := by
  have hdepth (child : NodeStore K V D) :
      (∀ x ∈ child.nodesAt 1, P x.1) ↔ AllNodes P child := by
    rw [AllNodes, ← List.forall_mem_map (f := Prod.fst) (P := P),
      ← List.forall_mem_map (f := Prod.fst) (P := P), map_fst_nodesAt 1 0]
  have hchildren :
      (∀ x ∈ nodesAllAt 1 children, P x.1) ↔ ∀ child ∈ children, AllNodes P child :=
    ⟨fun h child hchild =>
        (hdepth child).mp fun x hx => h x (mem_nodesAllAt.mpr ⟨child, hchild, hx⟩),
      fun h x hx => by
        obtain ⟨child, hchild, hx⟩ := mem_nodesAllAt.mp hx
        exact (hdepth child).mpr (h child hchild) x hx⟩
  rw [AllNodes, nodesAt, List.forall_mem_cons, hchildren]

/-- What holds of every node store of the tree holds of the one at any position. -/
theorem AllNodes.of_get? {P : NodeStore K V D → Prop} {n : NodeStore K V D} :
    ∀ {root : NodeStore K V D} {pos : List Nat}, AllNodes P root → root.get? pos = some n →
      P n
  | root, [], h, hget => by
    obtain rfl : root = n := Option.some.inj hget
    exact h (root, 0) (by cases root <;> simp [nodesAt])
  | .directory .., _ :: _, h, hget => by
    obtain ⟨child, hchild, hget⟩ := get?_cons_eq_some.mp hget
    exact ((allNodes_directory.mp h).2 child (List.mem_iff_getElem?.mpr ⟨_, hchild⟩)).of_get?
      hget
  | .value .., _ :: _, _, hget => by simp [get?_cons_eq_some] at hget

/-- `P` holds of every node store of the tree with its depth, the root at depth `depth`. -/
def AllNodesAt (P : NodeStore K V D → Nat → Prop) (depth : Nat) (root : NodeStore K V D) :
    Prop :=
  ∀ x ∈ root.nodesAt depth, P x.1 x.2

theorem allNodesAt_directory {P : NodeStore K V D → Nat → Prop} {depth : Nat} {type : DirType}
    {box : BoundingBox K D} {count : Nat} {valid linked : Bool}
    {children : List (NodeStore K V D)} {capacity : Nat} :
    AllNodesAt P depth (.directory type box count valid linked children capacity) ↔
      P (.directory type box count valid linked children capacity) depth ∧
        ∀ child ∈ children, AllNodesAt P (depth + 1) child := by
  simp only [AllNodesAt, nodesAt, List.forall_mem_cons, mem_nodesAllAt]
  exact and_congr_right fun _ =>
    ⟨fun h child hchild x hx => h x ⟨child, hchild, hx⟩,
      fun h x ⟨child, hchild, hx⟩ => h child hchild x hx⟩

/-- Every `parent` pointer below the root points at the directory that holds it. -/
def Linked (root : NodeStore K V D) : Prop :=
  AllNodes (fun ns => ∀ child ∈ ns.children, child.linked) root

instance (root : NodeStore K V D) : Decidable (Linked root) :=
  inferInstanceAs (Decidable (AllNodes _ _))

theorem linked_directory {type : DirType} {box : BoundingBox K D} {count : Nat}
    {valid linked : Bool} {children : List (NodeStore K V D)} {capacity : Nat} :
    Linked (.directory type box count valid linked children capacity) ↔
      (∀ child ∈ children, child.linked) ∧ ∀ child ∈ children, Linked child := by
  rw [Linked, allNodes_directory]
  rfl

section Invariant

variable [LinearOrder K] [Zero K]

/-- (I1) The root is a directory, every child of a leaf directory is a value node, and every
child of a non-leaf directory is a directory. -/
def Layered (root : NodeStore K V D) : Prop :=
  root.isDirectory ∧ AllNodes (fun ns =>
    (ns.isLeafDirectory → ∀ child ∈ ns.children, child.isDirectory = false) ∧
    (ns.isNonleafDirectory → ∀ child ∈ ns.children, child.isDirectory)) root

/-- (I2) Every directory's count is its number of children. -/
def CountsRight (root : NodeStore K V D) : Prop :=
  AllNodes (fun ns => ns.isDirectory → ns.count = ns.children.length) root

/-- (I3) Every non-empty directory's box is the bounding box of its children's boxes. -/
def Tight (root : NodeStore K V D) : Prop :=
  AllNodes (fun ns => ns.isDirectory → 0 < ns.children.length → ns.box = packedBox ns.children)
    root

/-- (I4) Every directory below the root has between `min_node_size` and `max_node_size`
children; the root has at most `max_node_size`, and at least `2` when it is a non-leaf
directory. -/
def FanOutBounded (tr : Trait) (root : NodeStore K V D) : Prop :=
  ∀ x ∈ root.nodesAt 0, x.1.isDirectory →
    if x.2 = 0 then
      x.1.children.length ≤ tr.maxNodeSize ∧
        (x.1.isNonleafDirectory → 2 ≤ x.1.children.length)
    else tr.minNodeSize ≤ x.1.children.length ∧ x.1.children.length ≤ tr.maxNodeSize

omit [LinearOrder K] [Zero K] in
theorem fanOutBounded_iff_allNodesAt (tr : Trait) (root : NodeStore K V D) :
    FanOutBounded tr root ↔
      AllNodesAt (fun ns depth => ns.isDirectory →
        if depth = 0 then
          ns.children.length ≤ tr.maxNodeSize ∧
            (ns.isNonleafDirectory → 2 ≤ ns.children.length)
        else tr.minNodeSize ≤ ns.children.length ∧ ns.children.length ≤ tr.maxNodeSize)
        0 root :=
  Iff.rfl

/-- (I5) All value nodes lie at the same depth. -/
def UniformDepth (root : NodeStore K V D) : Prop :=
  ∀ x ∈ root.nodesAt 0, ∀ y ∈ root.nodesAt 0, x.1.isDirectory = false →
    y.1.isDirectory = false → x.2 = y.2

/-- Invariant I: (I1) to (I5). -/
def Invariant (tr : Trait) (root : NodeStore K V D) : Prop :=
  Layered root ∧ CountsRight root ∧ Tight root ∧ FanOutBounded tr root ∧ UniformDepth root

instance (root : NodeStore K V D) : Decidable (Layered root) :=
  inferInstanceAs (Decidable (_ ∧ AllNodes _ _))

instance (root : NodeStore K V D) : Decidable (CountsRight root) :=
  inferInstanceAs (Decidable (AllNodes _ _))

instance (root : NodeStore K V D) : Decidable (Tight root) :=
  inferInstanceAs (Decidable (AllNodes _ _))

theorem tight_directory {type : DirType} {box : BoundingBox K D} {count : Nat}
    {valid linked : Bool} {children : List (NodeStore K V D)} {capacity : Nat} :
    Tight (.directory type box count valid linked children capacity) ↔
      (0 < children.length → box = packedBox children) ∧
        ∀ child ∈ children, Tight child := by
  rw [Tight, allNodes_directory]
  simp only [isDirectory, NodeStore.children, NodeStore.box, true_implies]
  rfl

theorem tight_value (bb : BoundingBox K D) (linked : Bool) (v : V) :
    Tight (.value bb linked v : NodeStore K V D) := by
  simp [Tight, AllNodes, nodesAt]

@[simp] theorem tight_setLinked (linked : Bool) (ns : NodeStore K V D) :
    Tight (ns.setLinked linked) ↔ Tight ns := by
  cases ns with
  | directory => simp only [setLinked, tight_directory]
  | value => exact iff_of_true (tight_value _ _ _) (tight_value _ _ _)

/-- Moving a directory leaves its children's boxes and subtrees as they were. -/
theorem Tight.moved {ns : NodeStore K V D} (h : Tight ns) : Tight ns.moved := by
  cases ns with
  | directory type box count valid linked children capacity =>
    obtain ⟨htop, hchildren⟩ := tight_directory.mp h
    refine tight_directory.mpr ⟨fun hlength => ?_, by simpa using hchildren⟩
    rw [htop (by simpa using hlength)]
    exact packedBox_congr (by simp [Function.comp_def])
  | value => exact h

instance (tr : Trait) (root : NodeStore K V D) : Decidable (FanOutBounded tr root) :=
  inferInstanceAs (Decidable (∀ _ ∈ _, _))

instance (root : NodeStore K V D) : Decidable (UniformDepth root) :=
  inferInstanceAs (Decidable (∀ _ ∈ _, _))

instance (tr : Trait) (root : NodeStore K V D) : Decidable (Invariant tr root) :=
  inferInstanceAs (Decidable (_ ∧ _ ∧ _ ∧ _ ∧ _))

end Invariant

/-! ### The dissolve path leaves an ancestor's box too wide -/

/-- A tree of depth three that satisfies invariant I for `min_node_size = 1` and
`max_node_size = 2`: a root over two non-leaf directories, with one-value leaves of keys `0` and
`5` under the first and `6` and `7` under the second. Every pointer is right and every vector
full. -/
def deepTree : NodeStore Int Nat 1 :=
  .directory .nonleaf ⟨⟨fun _ => 0⟩, ⟨fun _ => 7⟩⟩ 2 true true
    [.directory .nonleaf ⟨⟨fun _ => 0⟩, ⟨fun _ => 5⟩⟩ 2 true true
      [.directory .leaf ⟨⟨fun _ => 0⟩, ⟨fun _ => 0⟩⟩ 1 true true
          [.value ⟨⟨fun _ => 0⟩, ⟨fun _ => 0⟩⟩ true 0] 1,
        .directory .leaf ⟨⟨fun _ => 5⟩, ⟨fun _ => 5⟩⟩ 1 true true
          [.value ⟨⟨fun _ => 5⟩, ⟨fun _ => 5⟩⟩ true 5] 1] 2,
      .directory .nonleaf ⟨⟨fun _ => 6⟩, ⟨fun _ => 7⟩⟩ 2 true true
        [.directory .leaf ⟨⟨fun _ => 6⟩, ⟨fun _ => 6⟩⟩ 1 true true
            [.value ⟨⟨fun _ => 6⟩, ⟨fun _ => 6⟩⟩ true 6] 1,
          .directory .leaf ⟨⟨fun _ => 7⟩, ⟨fun _ => 7⟩⟩ 1 true true
            [.value ⟨⟨fun _ => 7⟩, ⟨fun _ => 7⟩⟩ true 7] 1] 2] 2

/-- Erasing the value of key `0` from `deepTree`, where `search` finds it, dissolves its leaf:
the leaf's parent is repacked to the box of key `5`, but the root keeps the box from `0` to `7`
while its children now span `5` to `7`. The erase returns normally with a tree that is not
tight. -/
theorem erase_dissolve_keeps_ancestor_box :
    Invariant ⟨1, 2, 100, by decide⟩ deepTree ∧
      search deepTree ⟨fun _ => 0⟩ = [[0, 0, 0]] ∧
      ∃ tree, erase ⟨1, 2, 100, by decide⟩ .libstdcxx deepTree [0, 0, 0] = .returned tree ∧
        ¬ Tight tree :=
  ⟨by decide, by decide, _, rfl, by decide⟩

end Mdds.RTree

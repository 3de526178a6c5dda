import Mdds.RTree.Invariant

/-!
# Invariant I node by node

`Invariant` states invariant I over the list of all node stores of a tree. An operation that
rebuilds a tree along one path is easier to follow node by node. `Shaped tr height depth ns` says
that every node store of the subtree `ns`, whose top lies at `depth`, has what invariant I asks of
it (`ShapeOk`), with the value nodes at depth `height` and each leaf directory just above them. A
tree keeps invariant I exactly when its root is a directory and it is `Shaped` for some height
(`invariant_of_shaped`, `exists_shaped_of_invariant`; the second needs `min_node_size ≥ 1`, so that
no leaf directory but an empty root lacks a value node). The fan-out bound of a directory depends
on whether it is the root: `Half` is a directory that keeps the bound of a node below the root, as
each half of a split must wherever the split happens.

Invariant I reads no `parent` pointer and no `valid_pointer` flag, so moving node stores and
resetting pointers keeps it: a subtree keeps it exactly when `unflagged`, the subtree with every
flag cleared, does (`shaped_unflagged`). The pointers are followed by `Linked`. `Relinkable ns`
says that `reset_parent_pointers` on `ns` leaves every pointer under it right; it holds of a
subtree whose pointers are right (`relinkable_of_linked`), and of a directory with `valid_pointer`
clear exactly when it holds of each child, whatever the children's own `parent` pointers
(`relinkable_iff_of_validPointer`).
-/

set_option autoImplicit false
set_option relaxedAutoImplicit false

namespace Mdds.RTree

open NodeStore

variable {K V : Type} {D : Nat}

/-! ### Depths -/

namespace NodeStore

mutual

theorem nodesAt_succ (depth : Nat) : ∀ ns : NodeStore K V D,
    ns.nodesAt (depth + 1) = (ns.nodesAt depth).map fun x => (x.1, x.2 + 1)
  | .directory .. => by
    simp only [nodesAt, List.map_cons, nodesAllAt_succ (depth + 1)]
  | .value .. => rfl

theorem nodesAllAt_succ (depth : Nat) : ∀ children : List (NodeStore K V D),
    nodesAllAt (depth + 1) children = (nodesAllAt depth children).map fun x => (x.1, x.2 + 1)
  | [] => rfl
  | ns :: rest => by
    simp only [nodesAllAt, List.map_append, nodesAt_succ depth ns, nodesAllAt_succ depth rest]

end

theorem self_mem_nodesAt (depth : Nat) (ns : NodeStore K V D) :
    (ns, depth) ∈ ns.nodesAt depth := by
  cases ns <;> simp [nodesAt]

mutual

/-- A child of a node store of the subtree is in the subtree, one level deeper. -/
theorem mem_nodesAt_of_mem_children {depth : Nat} {child : NodeStore K V D} :
    ∀ (ns : NodeStore K V D) (x : NodeStore K V D × Nat), x ∈ ns.nodesAt depth →
      child ∈ x.1.children → (child, x.2 + 1) ∈ ns.nodesAt depth
  | .directory type box count valid linked children capacity, x, hx, hchild => by
    rw [nodesAt, List.mem_cons] at hx ⊢
    rcases hx with rfl | hx
    · exact .inr (mem_nodesAllAt.mpr ⟨child, hchild, self_mem_nodesAt _ _⟩)
    · exact .inr (mem_nodesAllAt_of_mem_children children x hx hchild)
  | .value .., x, hx, hchild => by
    simp only [nodesAt, List.mem_singleton] at hx
    subst hx
    simp at hchild

theorem mem_nodesAllAt_of_mem_children {depth : Nat} {child : NodeStore K V D} :
    ∀ (children : List (NodeStore K V D)) (x : NodeStore K V D × Nat),
      x ∈ nodesAllAt depth children → child ∈ x.1.children →
      (child, x.2 + 1) ∈ nodesAllAt depth children
  | [], _, hx, _ => by simp [nodesAllAt] at hx
  | ns :: rest, x, hx, hchild => by
    rw [nodesAllAt, List.mem_append] at hx ⊢
    rcases hx with hx | hx
    · exact .inl (mem_nodesAt_of_mem_children ns x hx hchild)
    · exact .inr (mem_nodesAllAt_of_mem_children rest x hx hchild)

end

/-- A subtree's node stores lie at its depth or below. -/
theorem le_of_mem_nodesAt : ∀ {depth : Nat} {ns : NodeStore K V D} {x : NodeStore K V D × Nat},
    x ∈ ns.nodesAt depth → depth ≤ x.2
  | 0, _, _, _ => Nat.zero_le _
  | depth + 1, ns, x, hx => by
    rw [nodesAt_succ, List.mem_map] at hx
    obtain ⟨y, hy, rfl⟩ := hx
    exact Nat.succ_le_succ (le_of_mem_nodesAt hy)

/-- The only node store of a directory's subtree at the directory's depth is the directory. -/
theorem eq_of_mem_nodesAt_directory {type : DirType} {box : BoundingBox K D} {count : Nat}
    {valid linked : Bool} {children : List (NodeStore K V D)} {capacity depth : Nat}
    {x : NodeStore K V D × Nat}
    (hx : x ∈ (NodeStore.directory type box count valid linked children capacity).nodesAt depth)
    (hdepth : x.2 = depth) :
    x = (.directory type box count valid linked children capacity, depth) := by
  rw [nodesAt, List.mem_cons] at hx
  rcases hx with rfl | hx
  · rfl
  · obtain ⟨child, _, hx⟩ := mem_nodesAllAt.mp hx
    exact absurd (le_of_mem_nodesAt hx) (by omega)

end NodeStore

theorem allNodesAt_succ {P : NodeStore K V D → Nat → Prop} {depth : Nat}
    {ns : NodeStore K V D} :
    AllNodesAt P (depth + 1) ns ↔ AllNodesAt (fun n dep => P n (dep + 1)) depth ns := by
  simp only [AllNodesAt, nodesAt_succ, List.forall_mem_map]

theorem AllNodesAt.mono {P Q : NodeStore K V D → Nat → Prop} {depth : Nat}
    {ns : NodeStore K V D} (h : AllNodesAt P depth ns) (hPQ : ∀ n dep, P n dep → Q n dep) :
    AllNodesAt Q depth ns :=
  fun x hx => hPQ x.1 x.2 (h x hx)

/-! ### The flags invariant I does not read -/

namespace NodeStore

mutual

/-- The node store with every `parent` pointer and `valid_pointer` flag cleared: the types, boxes,
counts, capacities and values of the subtree, all that invariant I reads. -/
def unflagged : NodeStore K V D → NodeStore K V D
  | .directory type box count _ _ children capacity =>
    .directory type box count false false (unflaggedAll children) capacity
  | .value box _ v => .value box false v

/-- `unflagged` on each node store of a child vector. -/
def unflaggedAll : List (NodeStore K V D) → List (NodeStore K V D)
  | [] => []
  | ns :: rest => unflagged ns :: unflaggedAll rest

end

theorem unflaggedAll_eq_map :
    ∀ children : List (NodeStore K V D), unflaggedAll children = children.map unflagged
  | [] => rfl
  | ns :: rest => by rw [unflaggedAll, unflaggedAll_eq_map rest, List.map_cons]

@[simp] theorem box_unflagged (ns : NodeStore K V D) : ns.unflagged.box = ns.box := by
  cases ns <;> rfl

@[simp] theorem isDirectory_unflagged (ns : NodeStore K V D) :
    ns.unflagged.isDirectory = ns.isDirectory := by
  cases ns <;> rfl

@[simp] theorem isDirectory_setLinked (linked : Bool) (ns : NodeStore K V D) :
    (ns.setLinked linked).isDirectory = ns.isDirectory := by
  cases ns <;> rfl

@[simp] theorem isDirectory_setValidPointer (valid : Bool) (ns : NodeStore K V D) :
    (ns.setValidPointer valid).isDirectory = ns.isDirectory := by
  cases ns <;> rfl

@[simp] theorem isDirectory_moved (ns : NodeStore K V D) :
    ns.moved.isDirectory = ns.isDirectory := by
  cases ns <;> rfl

@[simp] theorem unflagged_setLinked (linked : Bool) (ns : NodeStore K V D) :
    (ns.setLinked linked).unflagged = ns.unflagged := by
  cases ns <;> rfl

@[simp] theorem unflagged_setValidPointer (valid : Bool) (ns : NodeStore K V D) :
    (ns.setValidPointer valid).unflagged = ns.unflagged := by
  cases ns <;> rfl

@[simp] theorem unflagged_moved (ns : NodeStore K V D) : ns.moved.unflagged = ns.unflagged := by
  cases ns with
  | directory =>
    simp only [moved, unflagged, unflaggedAll_eq_map, List.map_map, Function.comp_def,
      unflagged_setLinked]
  | value => rfl

mutual

theorem unflagged_relink : ∀ ns : NodeStore K V D, ns.relink.unflagged = ns.unflagged
  | .directory _ _ _ valid _ children _ => by
    cases valid
    · rw [relink, if_neg Bool.false_ne_true, unflagged, unflagged, unflaggedAll_relinkAll children]
    · rw [relink, if_pos rfl, unflagged, unflagged]
  | .value .. => rfl

theorem unflaggedAll_relinkAll :
    ∀ children : List (NodeStore K V D), unflaggedAll (relinkAll children) = unflaggedAll children
  | [] => rfl
  | ns :: rest => by
    rw [relinkAll, unflaggedAll, unflaggedAll, unflagged_relink ns, unflaggedAll_relinkAll rest]

end

@[simp] theorem unflagged_resetParentPointers (ns : NodeStore K V D) :
    ns.resetParentPointers.unflagged = ns.unflagged := by
  cases ns with
  | directory _ _ _ valid =>
    cases valid
    · rw [resetParentPointers, if_neg Bool.false_ne_true, unflagged, unflagged,
        unflaggedAll_relinkAll]
    · rw [resetParentPointers, if_pos rfl]
  | value => rfl

@[simp] theorem isDirectory_resetParentPointers (ns : NodeStore K V D) :
    ns.resetParentPointers.isDirectory = ns.isDirectory := by
  rw [← isDirectory_unflagged, unflagged_resetParentPointers, isDirectory_unflagged]

mutual

/-- The node stores of `unflagged` are those of the subtree, unflagged, at the same depths. -/
theorem nodesAt_unflagged (depth : Nat) : ∀ ns : NodeStore K V D,
    ns.unflagged.nodesAt depth = (ns.nodesAt depth).map fun x => (x.1.unflagged, x.2)
  | .directory .. => by
    simp only [unflagged, nodesAt, List.map_cons, nodesAllAt_unflaggedAll (depth + 1)]
  | .value .. => rfl

theorem nodesAllAt_unflaggedAll (depth : Nat) : ∀ children : List (NodeStore K V D),
    nodesAllAt depth (unflaggedAll children) =
      (nodesAllAt depth children).map fun x => (x.1.unflagged, x.2)
  | [] => rfl
  | ns :: rest => by
    simp only [unflaggedAll, nodesAllAt, List.map_append, nodesAt_unflagged depth ns,
      nodesAllAt_unflaggedAll depth rest]

end

end NodeStore

/-- A property of node stores that does not read the flags holds of every node store of a subtree
exactly when it holds of every node store of the subtree unflagged. -/
theorem allNodesAt_unflagged {P : NodeStore K V D → Nat → Prop}
    (hP : ∀ ns depth, P ns.unflagged depth ↔ P ns depth) {depth : Nat} {ns : NodeStore K V D} :
    AllNodesAt P depth ns.unflagged ↔ AllNodesAt P depth ns := by
  simp only [AllNodesAt, nodesAt_unflagged, List.forall_mem_map, hP]

/-! ### What invariant I asks of one node store -/

section Shape

variable [LinearOrder K] [Zero K] (tr : Trait)

/-- The fan-out bound (I4) of a directory of type `type` with `n` children: at most
`max_node_size`, and at least `2` for a non-leaf root and `min_node_size` below the root. -/
def FanOut (isRoot : Bool) (type : DirType) (n : Nat) : Prop :=
  if isRoot then n ≤ tr.maxNodeSize ∧ (type = .nonleaf → 2 ≤ n)
  else tr.minNodeSize ≤ n ∧ n ≤ tr.maxNodeSize

/-- What invariant I asks of a node store at `depth`, in a tree whose value nodes lie at depth
`height`: a directory has children of its layer (I1), its count (I2), the bounding box of its
children (I3) and its fan-out bound (I4), and a leaf directory lies just above the value nodes; a
value node lies at `height` (I5). -/
def ShapeOk (height : Nat) (isRoot : Bool) (depth : Nat) : NodeStore K V D → Prop
  | .directory type box count _ _ children _ =>
    (∀ child ∈ children, child.isDirectory = decide (type = .nonleaf)) ∧
      count = children.length ∧ (children ≠ [] → box = packedBox children) ∧
      FanOut tr isRoot type children.length ∧ (type = .leaf → depth + 1 = height)
  | .value .. => depth = height

/-- Every node store of the subtree `ns`, whose top lies at `depth`, has what invariant I asks of
it, the one at depth `0` as the root. -/
def Shaped (height depth : Nat) (ns : NodeStore K V D) : Prop :=
  AllNodesAt (fun n dep => ShapeOk tr height (decide (dep = 0)) dep n) depth ns

/-- A half of a split at `depth`: a directory that has what invariant I asks of a node store below
the root, over subtrees that keep invariant I. -/
structure Half (height depth : Nat) (ns : NodeStore K V D) : Prop where
  isDirectory : ns.isDirectory
  shapeOk : ShapeOk tr height false depth ns
  children : ∀ child ∈ ns.children, Shaped tr height (depth + 1) child

variable {tr}

theorem shapeOk_unflagged {height : Nat} {isRoot : Bool} {depth : Nat} (ns : NodeStore K V D) :
    ShapeOk tr height isRoot depth ns.unflagged ↔ ShapeOk tr height isRoot depth ns := by
  cases ns with
  | directory type box count valid linked children capacity =>
    have hboxes : (children.map unflagged).map NodeStore.box = children.map NodeStore.box := by
      simp [Function.comp_def]
    simp only [unflagged, ShapeOk, unflaggedAll_eq_map, List.forall_mem_map, isDirectory_unflagged,
      List.length_map, ne_eq, List.map_eq_nil_iff, packedBox_congr hboxes]
  | value => rfl

/-- Invariant I does not read the flags. -/
@[simp] theorem shaped_unflagged {height depth : Nat} {ns : NodeStore K V D} :
    Shaped tr height depth ns.unflagged ↔ Shaped tr height depth ns :=
  allNodesAt_unflagged fun ns _ => shapeOk_unflagged ns

theorem shaped_congr {height depth : Nat} {ns ns' : NodeStore K V D}
    (h : ns'.unflagged = ns.unflagged) :
    Shaped tr height depth ns' ↔ Shaped tr height depth ns := by
  rw [← shaped_unflagged, h, shaped_unflagged]

theorem shaped_directory {height depth : Nat} {type : DirType} {box : BoundingBox K D}
    {count : Nat} {valid linked : Bool} {children : List (NodeStore K V D)} {capacity : Nat} :
    Shaped tr height depth (.directory type box count valid linked children capacity) ↔
      ShapeOk tr height (decide (depth = 0)) depth
          (.directory type box count valid linked children capacity) ∧
        ∀ child ∈ children, Shaped tr height (depth + 1) child :=
  allNodesAt_directory

@[simp] theorem shaped_value {height depth : Nat} (bb : BoundingBox K D) (linked : Bool) (v : V) :
    Shaped tr height depth (.value bb linked v) ↔ depth = height := by
  simp [Shaped, AllNodesAt, nodesAt, ShapeOk]

/-- A half of a split below the root keeps invariant I there. -/
theorem Half.shaped {height depth : Nat} {ns : NodeStore K V D}
    (h : Half tr height (depth + 1) ns) :
    Shaped tr height (depth + 1) ns := by
  cases ns with
  | directory => exact shaped_directory.mpr ⟨h.shapeOk, h.children⟩
  | value => exact absurd h.isDirectory (by simp)

/-- One level further down, with the value nodes one level further down too. -/
theorem ShapeOk.succ {height : Nat} {isRoot : Bool} {depth : Nat} {ns : NodeStore K V D}
    (h : ShapeOk tr height isRoot depth ns) : ShapeOk tr (height + 1) isRoot (depth + 1) ns := by
  cases ns with
  | directory => exact ⟨h.1, h.2.1, h.2.2.1, h.2.2.2.1, fun hleaf => by rw [h.2.2.2.2 hleaf]⟩
  | value => exact congrArg (· + 1) h

theorem Shaped.succ {height depth : Nat} {ns : NodeStore K V D}
    (h : Shaped tr height (depth + 1) ns) : Shaped tr (height + 1) (depth + 2) ns := by
  rw [Shaped, allNodesAt_succ] at h
  rw [Shaped, show depth + 2 = depth + 1 + 1 from rfl, allNodesAt_succ, allNodesAt_succ]
  exact h.mono fun _ _ hok => by simpa using hok.succ

/-- A half of a root split keeps invariant I one level down, under a new root. -/
theorem Half.shaped_succ {height : Nat} {ns : NodeStore K V D} (h : Half tr height 0 ns) :
    Shaped tr (height + 1) 1 ns := by
  cases ns with
  | directory =>
    exact shaped_directory.mpr ⟨h.shapeOk.succ, fun child hchild => (h.children child hchild).succ⟩
  | value => exact absurd h.isDirectory (by simp)

/-! ### Invariant I, node by node -/

/-- What `ShapeOk` gives of invariant I at one node store, as `Invariant` states its parts. -/
theorem ShapeOk.parts {height depth : Nat} {ns : NodeStore K V D}
    (h : ShapeOk tr height (decide (depth = 0)) depth ns) :
    ((ns.isLeafDirectory → ∀ child ∈ ns.children, child.isDirectory = false) ∧
      (ns.isNonleafDirectory → ∀ child ∈ ns.children, child.isDirectory)) ∧
    (ns.isDirectory → ns.count = ns.children.length) ∧
    (ns.isDirectory → 0 < ns.children.length → ns.box = packedBox ns.children) ∧
    (ns.isDirectory → if depth = 0 then
        ns.children.length ≤ tr.maxNodeSize ∧ (ns.isNonleafDirectory → 2 ≤ ns.children.length)
      else tr.minNodeSize ≤ ns.children.length ∧ ns.children.length ≤ tr.maxNodeSize) ∧
    (ns.isDirectory = false → depth = height) := by
  cases ns with
  | directory type box count valid linked children capacity =>
    obtain ⟨hkinds, hcount, htight, hfan, -⟩ := h
    refine ⟨⟨fun hleaf child hchild => ?_, fun hnonleaf child hchild => ?_⟩, fun _ => hcount,
      fun _ hpos => htight (List.ne_nil_of_length_pos hpos), fun _ => ?_, fun hvalue => ?_⟩
    · simpa [show type = .leaf by simpa using hleaf] using hkinds child hchild
    · simpa [show type = .nonleaf by simpa using hnonleaf] using hkinds child hchild
    · by_cases hdepth : depth = 0 <;> simpa [FanOut, hdepth] using hfan
    · simp at hvalue
  | value => exact ⟨⟨by simp, by simp⟩, by simp, by simp, by simp, fun _ => h⟩

/-- A directory whose tree is `Shaped` keeps invariant I. -/
theorem invariant_of_shaped {height : Nat} {root : NodeStore K V D} (hdir : root.isDirectory)
    (h : Shaped tr height 0 root) : Invariant tr root :=
  ⟨⟨hdir, fun x hx => (h x hx).parts.1⟩, fun x hx => (h x hx).parts.2.1,
    fun x hx => (h x hx).parts.2.2.1, fun x hx => (h x hx).parts.2.2.2.1,
    fun x hx y hy hxvalue hyvalue => by
      rw [(h x hx).parts.2.2.2.2 hxvalue, (h y hy).parts.2.2.2.2 hyvalue]⟩

/-- With `min_node_size ≥ 1`, a tree that keeps invariant I is `Shaped`: its value nodes lie at
one depth, and every leaf directory has a value node below it, but an empty root. -/
theorem exists_shaped_of_invariant (hmin : 1 ≤ tr.minNodeSize) {root : NodeStore K V D}
    (h : Invariant tr root) : ∃ height, Shaped tr height 0 root := by
  obtain ⟨⟨hdir, hlayered⟩, hcounts, htight, hfan, huniform⟩ := h
  -- the depth of the value nodes, and `1` when there are none
  obtain ⟨height, hvalues, hnone⟩ : ∃ height,
      (∀ x ∈ root.nodesAt 0, x.1.isDirectory = false → x.2 = height) ∧
        ((∀ x ∈ root.nodesAt 0, x.1.isDirectory) → height = 1) := by
    by_cases hv : ∃ x ∈ root.nodesAt 0, x.1.isDirectory = false
    · obtain ⟨x, hx, hxvalue⟩ := hv
      exact ⟨x.2, fun y hy hyvalue => huniform y hy x hx hyvalue hxvalue,
        fun hall => absurd (hall x hx) (by simp [hxvalue])⟩
    · exact ⟨1, fun y hy hyvalue => absurd ⟨y, hy, hyvalue⟩ hv, fun _ => rfl⟩
  refine ⟨height, fun x hx => ?_⟩
  obtain ⟨n, depth⟩ := x
  cases n with
  | value => exact hvalues _ hx rfl
  | directory type box count valid linked children capacity =>
    have hlayer := hlayered _ hx
    have hfan' := hfan _ hx
    simp only [isLeafDirectory_directory, isNonleafDirectory_directory, children_directory,
      isDirectory_directory, true_implies, decide_eq_true_eq] at hlayer hfan'
    refine ⟨fun child hchild => ?_, hcounts _ hx rfl,
      fun hne => htight _ hx rfl (List.length_pos.mpr hne), ?_, fun hleaf => ?_⟩
    · cases type
      · simpa using hlayer.1 rfl child hchild
      · simpa using hlayer.2 rfl child hchild
    · by_cases hdepth : depth = 0 <;> simpa [FanOut, hdepth] using hfan'
    · subst hleaf
      cases children with
      | cons child rest =>
        exact hvalues _ (mem_nodesAt_of_mem_children root _ hx (List.mem_cons_self child rest))
          (hlayer.1 rfl child (List.mem_cons_self _ _))
      | nil =>
        -- an empty leaf directory is the root, and then the tree has no value node
        obtain rfl : depth = 0 := by
          by_contra hdepth
          simp only [if_neg hdepth, List.length_nil] at hfan'
          omega
        cases root with
        | value => simp at hdir
        | directory =>
          obtain ⟨⟩ := eq_of_mem_nodesAt_directory hx rfl
          exact (hnone fun y hy => by simp_all [nodesAt, nodesAllAt]).symm

end Shape

/-! ### Resetting the parent pointers -/

namespace NodeStore

/-- The node store's `valid_pointer`. The model keeps none for a value node, on which
`reset_parent_pointers` does nothing either way. -/
def validPointer : NodeStore K V D → Bool
  | .directory _ _ _ valid _ _ _ => valid
  | .value .. => false

@[simp] theorem validPointer_setLinked (linked : Bool) (ns : NodeStore K V D) :
    (ns.setLinked linked).validPointer = ns.validPointer := by
  cases ns <;> rfl

@[simp] theorem validPointer_setValidPointer_false (ns : NodeStore K V D) :
    (ns.setValidPointer false).validPointer = false := by
  cases ns <;> rfl

@[simp] theorem validPointer_moved (ns : NodeStore K V D) :
    ns.moved.validPointer = ns.validPointer := by
  cases ns <;> rfl

@[simp] theorem children_setLinked (linked : Bool) (ns : NodeStore K V D) :
    (ns.setLinked linked).children = ns.children := by
  cases ns <;> rfl

@[simp] theorem children_setValidPointer (valid : Bool) (ns : NodeStore K V D) :
    (ns.setValidPointer valid).children = ns.children := by
  cases ns <;> rfl

@[simp] theorem children_moved (ns : NodeStore K V D) :
    ns.moved.children = ns.children.map (setLinked false) := by
  cases ns <;> rfl

/-- Resetting a node store's pointers does not touch its own. -/
theorem resetParentPointers_setLinked (linked : Bool) (ns : NodeStore K V D) :
    (ns.setLinked linked).resetParentPointers = ns.resetParentPointers.setLinked linked := by
  cases ns with
  | directory _ _ _ valid => cases valid <;> rfl
  | value => rfl

/-- Relinking a child is resetting its pointers and setting its own. -/
theorem relink_eq (ns : NodeStore K V D) : ns.relink = ns.resetParentPointers.setLinked true := by
  cases ns with
  | directory _ _ _ valid => cases valid <;> rfl
  | value => rfl

theorem relinkAll_eq_map :
    ∀ children : List (NodeStore K V D), relinkAll children = children.map relink
  | [] => rfl
  | ns :: rest => by rw [relinkAll, relinkAll_eq_map rest, List.map_cons]

end NodeStore

theorem linked_value (bb : BoundingBox K D) (linked : Bool) (v : V) :
    Linked (.value bb linked v : NodeStore K V D) := fun x hx => by
  rw [nodesAt, List.mem_singleton] at hx
  simp [hx]

theorem linked_setLinked {linked : Bool} {ns : NodeStore K V D} :
    Linked (ns.setLinked linked) ↔ Linked ns := by
  cases ns with
  | directory => simp only [setLinked, linked_directory]
  | value => exact iff_of_true (linked_value _ _ _) (linked_value _ _ _)

theorem Linked.child {ns child : NodeStore K V D} (h : Linked ns) (hchild : child ∈ ns.children) :
    child.linked ∧ Linked child := by
  cases ns with
  | directory =>
    exact ⟨(linked_directory.mp h).1 child hchild, (linked_directory.mp h).2 child hchild⟩
  | value => simp at hchild

/-- `reset_parent_pointers` on the node store leaves every `parent` pointer under it right. -/
def Relinkable (ns : NodeStore K V D) : Prop :=
  Linked ns.resetParentPointers

@[simp] theorem relinkable_setLinked {linked : Bool} {ns : NodeStore K V D} :
    Relinkable (ns.setLinked linked) ↔ Relinkable ns := by
  rw [Relinkable, resetParentPointers_setLinked, linked_setLinked, Relinkable]

/-- A directory with `valid_pointer` clear links each child to itself and resets the child in
turn, whatever the child's own pointer was. -/
theorem relinkable_iff_of_validPointer {ns : NodeStore K V D} (hvalid : ns.validPointer = false) :
    Relinkable ns ↔ ∀ child ∈ ns.children, Relinkable child := by
  cases ns with
  | directory type box count valid linked children capacity =>
    obtain rfl : valid = false := hvalid
    simp only [Relinkable, resetParentPointers, if_neg Bool.false_ne_true, linked_directory,
      relinkAll_eq_map, List.forall_mem_map, relink_eq, linked_setLinked, children_directory]
    simp
  | value => exact iff_of_true (linked_value _ _ _) (by simp)

mutual

/-- Resetting the pointers of a subtree whose pointers are right leaves them right. -/
theorem relinkable_of_linked : ∀ ns : NodeStore K V D, Linked ns → Relinkable ns
  | .directory type box count valid linked children capacity, h => by
    cases valid
    · exact (relinkable_iff_of_validPointer (show (NodeStore.directory type box count false linked
        children capacity).validPointer = false from rfl)).mpr
        (relinkableAll_of_linked children fun child hchild => (h.child hchild).2)
    · simpa [Relinkable, resetParentPointers] using h
  | .value .., h => h

theorem relinkableAll_of_linked : ∀ children : List (NodeStore K V D),
    (∀ child ∈ children, Linked child) → ∀ child ∈ children, Relinkable child
  | [], _ => fun _ hchild => absurd hchild (List.not_mem_nil _)
  | ns :: rest, h => by
    rintro child (_ | ⟨_, hchild⟩)
    · exact relinkable_of_linked ns (h ns (List.mem_cons_self _ _))
    · exact relinkableAll_of_linked rest (fun c hc => h c (List.mem_cons_of_mem _ hc)) child hchild

end

/-- Whatever a node store's `valid_pointer`, its children can be relinked when it can. -/
theorem Relinkable.children {ns : NodeStore K V D} (h : Relinkable ns) :
    ∀ child ∈ ns.children, Relinkable child := by
  cases hvalid : ns.validPointer
  · exact (relinkable_iff_of_validPointer hvalid).mp h
  · cases ns with
    | directory type box count valid linked children capacity =>
      obtain rfl : valid = true := hvalid
      have hlinked : Linked (NodeStore.directory type box count true linked children capacity) := by
        simpa [Relinkable, resetParentPointers] using h
      exact fun child hchild => relinkable_of_linked child (hlinked.child hchild).2
    | value => simp

section Pack

variable [LinearOrder K] [Zero K]

@[simp] theorem linked_pack {ns : NodeStore K V D} : Linked ns.pack.1 ↔ Linked ns := by
  cases ns with
  | directory => simp only [pack, linked_directory]
  | value => rfl

@[simp] theorem validPointer_pack (ns : NodeStore K V D) :
    ns.pack.1.validPointer = ns.validPointer := by
  cases ns <;> rfl

@[simp] theorem children_pack (ns : NodeStore K V D) : ns.pack.1.children = ns.children := by
  cases ns <;> rfl

end Pack

end Mdds.RTree

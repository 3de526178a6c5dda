import Mdds.RTree.Invariant

/-!
# The integrity check

`rtree::check_integrity(mode)` checks that the root is a directory without a parent, and then
walks the tree with `func_descend`. At each node store below the root it checks the `parent`
pointer, that the parent's box contains the node's box, and the node types of parent and child.
In mode `none` the first of these violations throws an `integrity_error`; in mode `full` each is
printed and marks the tree invalid. At each directory it throws when the count is not the number
of children, compares the box with `calc_extent` of the children, which only marks the tree
invalid, and descends into the children. An invalid tree throws "Tree contains one or more
errors." at the end.

`calc_extent` evaluates `calc_bounding_box` on the whole child range, which dereferences its first
element: on a directory without children that is undefined behaviour. The empty tree's root is
such a directory, so the check of the empty tree, in either mode, is undefined
(`checkIntegrity_empty_undefined`). The model runs the check to the end: the characterisation
`checkIntegrity_eq_ok_iff` says which trees it passes, and no fan-out bound is among its
conditions.

Scope. What mode `full` prints is not modelled; the pointer values, boxes and counts the code
writes into its messages are kept only where the model has them. The `unspecified` node type,
for which the code throws "Unexpected node type!", is not a node of the model.
-/

set_option autoImplicit false
set_option relaxedAutoImplicit false

namespace Mdds.RTree

open NodeStore BoundingBox

variable {K V : Type} {D : Nat}

/-- `rtree::output_mode_type`. -/
inductive OutputMode where
  /-- Throw at the first violation. -/
  | none
  /-- Print every violation and throw at the end. -/
  | full
  deriving DecidableEq, Repr

/-- The violations `check_integrity` finds, by the message of the `integrity_error` it throws or
prints for each. -/
inductive Violation (K : Type) (D : Nat) where
  /-- "The root node must be a directory node." -/
  | rootNotDirectory
  /-- "The root node should not have a non-null parent." -/
  | rootParent
  /-- "The parent node pointer does not point to the real parent. (expected: ...; stored in node:
  ...)" -/
  | parentPointer
  /-- "The extent of the child `child` is not within the extent of the parent `parent`." -/
  | childOutsideParent (child parent : BoundingBox K D)
  /-- "Parent of a leaf directory node must be non-leaf." -/
  | leafParent
  /-- "Parent of a non-leaf directory node must also be non-leaf." -/
  | nonleafParent
  /-- "Parent of a value node must be a leaf directory node." -/
  | valueParent
  /-- "Incorrect count of child nodes detected. (expected: `expected`; actual: `actual`)" -/
  | countWrong (expected actual : Nat)
  /-- "Tree contains one or more errors." -/
  | treeErrors
  deriving DecidableEq

/-- How `check_integrity` ends other than by returning: it throws an `integrity_error`, or it
fails. -/
inductive IntegrityFailure (K : Type) (D : Nat) where
  | threw (violation : Violation K D)
  | failed (failure : Failure)
  deriving DecidableEq

section Check

variable [LinearOrder K] (mode : OutputMode)

/-- A violation `func_descend` found at a node store: mode `none` throws it, mode `full` prints it
and the node store is not valid. -/
def report (violation : Violation K D) : Except (IntegrityFailure K D) Bool :=
  match mode with
  | .none => throw (.threw violation)
  | .full => pure false

/-- A check of `func_descend`: nothing when it holds, the violation's report otherwise. -/
def checkThat (holds : Bool) (violation : Violation K D) : Except (IntegrityFailure K D) Bool :=
  if holds then pure true else report mode violation

/-- Two parts of `func_descend` one after the other: the node store is valid when both find it
so. -/
def both (first second : Except (IntegrityFailure K D) Bool) : Except (IntegrityFailure K D) Bool :=
  do
    let valid ← first
    let validSecond ← second
    pure (valid && validSecond)

/-- The node types `func_descend` allows under a parent of type `parentType`: a leaf directory and
a non-leaf directory need a non-leaf parent, a value node a leaf one. -/
def checkParentType (parentType : DirType) : NodeStore K V D → Except (IntegrityFailure K D) Bool
  | .directory .leaf .. => checkThat mode (parentType = .nonleaf) .leafParent
  | .directory .nonleaf .. => checkThat mode (parentType = .nonleaf) .nonleafParent
  | .value .. => checkThat mode (parentType = .leaf) .valueParent

/-- The checks `func_descend` makes of a node store against its parent, when it has one, of type
`parentType` and box `parentBox`, in the code's order: the `parent` pointer, the containment of
the boxes, and the node types. -/
def checkParent : Option (DirType × BoundingBox K D) → NodeStore K V D →
    Except (IntegrityFailure K D) Bool
  | none, _ => pure true
  | some (parentType, parentBox), ns =>
    both (checkThat mode ns.linked .parentPointer)
      (both (checkThat mode (decide (parentBox.ContainsBox ns.box))
          (.childOutsideParent ns.box parentBox))
        (checkParentType mode parentType ns))

mutual

/-- `func_descend` on a node store whose parent, if any, has the type and box `parent`: whether
the subtree is valid. At a directory, a wrong count throws in both modes, `calc_extent` of the
children is compared with the box, which only marks the node invalid, and every child is
descended into. -/
def checkNode (parent : Option (DirType × BoundingBox K D)) :
    NodeStore K V D → Except (IntegrityFailure K D) Bool
  | .directory type box count valid linked children capacity =>
    both (checkParent mode parent (.directory type box count valid linked children capacity)) do
      if count ≠ children.length then throw (.threw (.countWrong children.length count))
      let some expected := calcBoundingBox children | throw (.failed .undefinedBehavior)
      both (pure (decide (expected = box))) (checkChildren type box children)
  | .value box linked v => checkParent mode parent (.value box linked v)

/-- `func_descend` on each child of a directory of type `type` and box `box`, in order: whether
all subtrees are valid. -/
def checkChildren (type : DirType) (box : BoundingBox K D) :
    List (NodeStore K V D) → Except (IntegrityFailure K D) Bool
  | [] => pure true
  | child :: rest => both (checkNode (some (type, box)) child) (checkChildren type box rest)

end

/-- `rtree::check_integrity(mode)`. -/
def checkIntegrity (root : NodeStore K V D) : Except (IntegrityFailure K D) Unit := do
  if !root.isDirectory then throw (.threw .rootNotDirectory)
  if !root.linked then throw (.threw .rootParent)
  let valid ← checkNode mode none root
  if !valid then throw (.threw .treeErrors)

end Check

/-! ### What the check passes -/

section Passes

variable [LinearOrder K] (mode : OutputMode)

/-- What `func_descend` checks of a node store against its parent, when it has one: the `parent`
pointer, the containment of the boxes, and the node types. -/
def ParentFits : Option (DirType × BoundingBox K D) → NodeStore K V D → Prop
  | none, _ => True
  | some (parentType, parentBox), ns =>
    ns.linked ∧ parentBox.ContainsBox ns.box ∧
      (parentType = .leaf → ns.isDirectory = false) ∧ (parentType = .nonleaf → ns.isDirectory)

/-- What `func_descend` checks at a directory: its count, that its children have a bounding box
and that it is the directory's box, and `ParentFits` for each child. -/
def NodeFits : NodeStore K V D → Prop
  | .directory type box count _ _ children _ =>
    count = children.length ∧ calcBoundingBox children = some box ∧
      ∀ child ∈ children, ParentFits (some (type, box)) child
  | .value .. => True

omit [LinearOrder K] in
theorem both_eq_ok_true {first second : Except (IntegrityFailure K D) Bool} :
    both first second = .ok true ↔ first = .ok true ∧ second = .ok true := by
  cases first with
  | error => simp [both]
  | ok valid => cases second with
    | error => simp [both]
    | ok validSecond => cases valid <;> cases validSecond <;> simp [both]

omit [LinearOrder K] in
theorem checkThat_eq_ok_true {holds : Bool} {violation : Violation K D} :
    checkThat mode holds violation = .ok true ↔ holds = true := by
  cases holds <;> cases mode <;> simp [checkThat, report]

omit [LinearOrder K] in
theorem checkParentType_eq_ok_true {parentType : DirType} {ns : NodeStore K V D} :
    checkParentType mode parentType ns = .ok true ↔
      (parentType = .leaf → ns.isDirectory = false) ∧
        (parentType = .nonleaf → ns.isDirectory) := by
  cases ns with
  | directory type =>
    cases type <;> cases parentType <;> simp [checkParentType, checkThat_eq_ok_true]
  | value => cases parentType <;> simp [checkParentType, checkThat_eq_ok_true]

theorem checkParent_eq_ok_true {parent : Option (DirType × BoundingBox K D)}
    {ns : NodeStore K V D} : checkParent mode parent ns = .ok true ↔ ParentFits parent ns := by
  rcases parent with _ | ⟨parentType, parentBox⟩
  · simp [checkParent, ParentFits]
  · simp only [checkParent, ParentFits, both_eq_ok_true, checkThat_eq_ok_true,
      checkParentType_eq_ok_true, decide_eq_true_eq]

mutual

/-- `func_descend` finds a subtree valid exactly when its root fits its parent and every node
store of it passes the checks at it. -/
theorem checkNode_eq_ok_true (parent : Option (DirType × BoundingBox K D)) :
    ∀ ns : NodeStore K V D,
      checkNode mode parent ns = .ok true ↔ ParentFits parent ns ∧ AllNodes NodeFits ns
  | .directory type box count valid linked children capacity => by
    rw [checkNode, both_eq_ok_true, checkParent_eq_ok_true, allNodes_directory, NodeFits]
    by_cases hcount : count = children.length
    · cases hbox : calcBoundingBox children with
      | none => simp [hcount, hbox]
      | some expected =>
        simp [hcount, hbox, both_eq_ok_true, checkChildren_eq_ok_true type box children, imp_and,
          forall_and, and_assoc]
    · simp [hcount]
  | .value box linked v => by
    rw [checkNode, checkParent_eq_ok_true]
    simp [AllNodes, nodesAt, NodeFits]

/-- `func_descend` finds the children of a directory valid exactly when each fits the directory
and every node store under it passes the checks at it. -/
theorem checkChildren_eq_ok_true (type : DirType) (box : BoundingBox K D) :
    ∀ children : List (NodeStore K V D), checkChildren mode type box children = .ok true ↔
      ∀ child ∈ children, ParentFits (some (type, box)) child ∧ AllNodes NodeFits child
  | [] => by simp [checkChildren]
  | child :: rest => by
    rw [checkChildren, both_eq_ok_true, checkNode_eq_ok_true,
      checkChildren_eq_ok_true type box rest, List.forall_mem_cons]

end

/-- At a directory with children, the checks at it and of its children against it are the parts
of the invariant that concern it, with the children's `parent` pointers right: the containment of
each child's box in a tight directory's box follows from the tightness. -/
theorem nodeFits_iff [Zero K] (ns : NodeStore K V D) :
    NodeFits ns ↔
      ((ns.isLeafDirectory → ∀ child ∈ ns.children, child.isDirectory = false) ∧
        (ns.isNonleafDirectory → ∀ child ∈ ns.children, child.isDirectory)) ∧
      (ns.isDirectory → ns.count = ns.children.length) ∧
      (ns.isDirectory → 0 < ns.children.length → ns.box = packedBox ns.children) ∧
      (∀ child ∈ ns.children, child.linked) ∧
      (ns.isDirectory → 0 < ns.children.length) := by
  cases ns with
  | value => simp [NodeFits]
  | directory type box count valid linked children capacity =>
    have hwithin (htight : box = packedBox children) (child : NodeStore K V D)
        (hchild : child ∈ children) : box.ContainsBox child.box :=
      containsBox_iff_le.mpr (htight ▸ le_packedBox (List.mem_map_of_mem _ hchild))
    cases type <;> simp [NodeFits, ParentFits, calcBoundingBox_eq_some_iff, imp_and, forall_and]
    all_goals exact
      ⟨fun ⟨hcount, ⟨hpos, htight⟩, hlinked, _, htypes⟩ =>
          ⟨htypes, hcount, fun _ => htight, hlinked, hpos⟩,
        fun ⟨htypes, hcount, htight, hlinked, hpos⟩ =>
          ⟨hcount, ⟨hpos, htight hpos⟩, hlinked, hwithin (htight hpos), htypes⟩⟩

/-- `check_integrity` returns normally, in either mode, exactly on the trees whose node types are
layered, whose counts are right, whose directories are tight and all have children, and whose
parent pointers are right, the root's null one included. No bound on the fan-out is among the
conditions. -/
theorem checkIntegrity_eq_ok_iff [Zero K] (root : NodeStore K V D) :
    checkIntegrity mode root = .ok () ↔
      Layered root ∧ CountsRight root ∧ Tight root ∧ Linked root ∧ root.linked ∧
        AllNodes (fun ns => ns.isDirectory → 0 < ns.children.length) root := by
  have hcheck : checkIntegrity mode root = .ok () ↔
      root.isDirectory ∧ root.linked ∧ checkNode mode none root = .ok true := by
    cases hdir : root.isDirectory <;> cases hlinked : root.linked <;>
      simp [checkIntegrity, hdir, hlinked]
    rcases checkNode mode none root with _ | _ | _ <;> simp
  rw [hcheck, checkNode_eq_ok_true, allNodes_congr nodeFits_iff]
  simp only [allNodes_and]
  exact ⟨fun ⟨hdir, hlinked, _, hlayered, hcounts, htight, hlinks, hnonempty⟩ =>
      ⟨⟨hdir, allNodes_and.mpr hlayered⟩, hcounts, htight, hlinks, hlinked, hnonempty⟩,
    fun ⟨⟨hdir, hlayered⟩, hcounts, htight, hlinks, hlinked, hnonempty⟩ =>
      ⟨hdir, hlinked, trivial, allNodes_and.mp hlayered, hcounts, htight, hlinks, hnonempty⟩⟩

end Passes

/-! ### The empty tree -/

/-- The root of the empty tree is a leaf directory without children: after its count, which is
right, `calc_extent` reads the first element of the empty child range, in either mode. -/
theorem checkIntegrity_empty_undefined [LinearOrder K] [Zero K] (mode : OutputMode) :
    checkIntegrity mode (empty : NodeStore K V D) = .error (.failed .undefinedBehavior) := by
  cases mode <;> rfl

end Mdds.RTree

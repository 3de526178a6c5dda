import Mdds.RTree.Box

/-!
# R-tree node stores, parent links and search

An `rtree` is a tree of `node_store` objects. A directory node store owns a `std::vector` of child
node stores; a value node store owns a value. Each node store also keeps a `parent` pointer and a
`valid_pointer` flag, and the code moves node stores around inside the vectors: it sorts them,
erases from the middle, and pushes onto vectors that may reallocate. A moved directory's children
still point at its old address until `reset_parent_pointers` runs on it, which it does only when
the moved node's `valid_pointer` is clear.

`NodeStore` keeps what of this the code's behaviour depends on. The tree is the nesting of the
constructors, so that a node's position is a list of child indices. A node's `parent` pointer is
the flag `linked`: whether it points at the node store that holds the node now. Moving a directory
(`NodeStore.moved`) unlinks its children, and `resetParentPointers` is the code's
`reset_parent_pointers`, flag test included. A directory also records the capacity of its child
vector, so that a push that reallocates is visible: `VectorGrowth` is the library's growth policy.

`Failure` says how a call can end other than by returning, and `Outcome` how a public call ends.
`searchDescend` is `search_descend`; `entries` is the tree's content, the `(box, value)` pairs of
its value nodes.

Scope. A node store's `type` field is the constructor, so that a directory cannot hold a value
payload: the `unspecified` type appears only in moved-from and default-constructed node stores,
which the tree never holds. The `parent` pointer's value is not kept, only whether it is right; a
call that follows a wrong one stops the model (`Failure.staleParent`). `valid_pointer` of value
nodes is not kept: `reset_parent_pointers` reads it and does nothing either way.
-/

set_option autoImplicit false
set_option relaxedAutoImplicit false

namespace Mdds.RTree

open BoundingBox

theorem set_eq_self_of_getElem? {α : Type} {l : List α} {index : Nat} {a : α}
    (h : l[index]? = some a) : l.set index a = l := by
  refine List.ext_getElem? fun k => ?_
  by_cases hk : index = k
  · subst hk
    rw [List.getElem?_set_self (List.getElem?_eq_some_iff.mp h).1, h]
  · rw [List.getElem?_set_ne hk]

/-- The two kinds of directory: `node_type::directory_leaf`, whose children are value nodes, and
`node_type::directory_nonleaf`, whose children are directories. -/
inductive DirType where
  | leaf
  | nonleaf
  deriving DecidableEq, Repr

/-- A `node_store`. A directory has its `type`, `box`, `count`, `valid_pointer`, whether its
`parent` pointer is right (`linked`), its children and the capacity of their vector; a value node
has its `box`, `linked` and its value. -/
inductive NodeStore (K V : Type) (D : Nat) where
  | directory (type : DirType) (box : BoundingBox K D) (count : Nat) (validPointer linked : Bool)
      (children : List (NodeStore K V D)) (capacity : Nat)
  | value (box : BoundingBox K D) (linked : Bool) (value : V)

namespace NodeStore

variable {K V : Type} {D : Nat}

/-- The node store's `box`. -/
def box : NodeStore K V D → BoundingBox K D
  | .directory _ box _ _ _ _ _ => box
  | .value box _ _ => box

/-- Whether the node store's `parent` pointer points at the node store that holds it. -/
def linked : NodeStore K V D → Bool
  | .directory _ _ _ _ linked _ _ => linked
  | .value _ linked _ => linked

/-- The children of a directory; a value node has none. -/
def children : NodeStore K V D → List (NodeStore K V D)
  | .directory _ _ _ _ _ children _ => children
  | .value .. => []

@[simp] theorem box_directory (type : DirType) (box : BoundingBox K D) (count : Nat)
    (valid linked : Bool) (children : List (NodeStore K V D)) (capacity : Nat) :
    (directory type box count valid linked children capacity).box = box := rfl

@[simp] theorem box_value (box : BoundingBox K D) (linked : Bool) (v : V) :
    (value box linked v).box = box := rfl

@[simp] theorem children_directory (type : DirType) (box : BoundingBox K D) (count : Nat)
    (valid linked : Bool) (children : List (NodeStore K V D)) (capacity : Nat) :
    (directory type box count valid linked children capacity).children = children := rfl

@[simp] theorem children_value (box : BoundingBox K D) (linked : Bool) (v : V) :
    (value box linked v).children = [] := rfl

/-- The node store with its `parent` pointer right (`true`) or wrong (`false`). -/
def setLinked (linked : Bool) : NodeStore K V D → NodeStore K V D
  | .directory type box count valid _ children capacity =>
    .directory type box count valid linked children capacity
  | .value box _ v => .value box linked v

/-- The node store with its `valid_pointer` set to `valid`; a value node is left as it is. -/
def setValidPointer (valid : Bool) : NodeStore K V D → NodeStore K V D
  | .directory type box count _ linked children capacity =>
    .directory type box count valid linked children capacity
  | .value box linked v => .value box linked v

/-- The node store after a move to another address: its fields travel with it, but its children's
`parent` pointers still hold the old address. -/
def moved : NodeStore K V D → NodeStore K V D
  | .directory type box count valid linked children capacity =>
    .directory type box count valid linked (children.map (setLinked false)) capacity
  | .value box linked v => .value box linked v

/-- A directory's `count`; a value node's is `0`. -/
def count : NodeStore K V D → Nat
  | .directory _ _ count _ _ _ _ => count
  | .value .. => 0

/-- Whether the node store is a directory. -/
def isDirectory : NodeStore K V D → Bool
  | .directory .. => true
  | .value .. => false

/-- Whether the node store is a leaf directory. -/
def isLeafDirectory : NodeStore K V D → Bool
  | .directory .leaf .. => true
  | _ => false

/-- Whether the node store is a non-leaf directory. -/
def isNonleafDirectory : NodeStore K V D → Bool
  | .directory .nonleaf .. => true
  | _ => false

section Tests

variable (type : DirType) (box : BoundingBox K D) (count : Nat) (valid linked : Bool)
  (children : List (NodeStore K V D)) (capacity : Nat) (v : V)

@[simp] theorem count_directory :
    (directory type box count valid linked children capacity).count = count := rfl

@[simp] theorem isDirectory_directory :
    (directory type box count valid linked children capacity).isDirectory = true := rfl

@[simp] theorem isDirectory_value : (value box linked v).isDirectory = false := rfl

@[simp] theorem isLeafDirectory_directory :
    (directory type box count valid linked children capacity).isLeafDirectory =
      decide (type = .leaf) := by
  cases type <;> rfl

@[simp] theorem isLeafDirectory_value : (value box linked v).isLeafDirectory = false := rfl

@[simp] theorem isNonleafDirectory_directory :
    (directory type box count valid linked children capacity).isNonleafDirectory =
      decide (type = .nonleaf) := by
  cases type <;> rfl

@[simp] theorem isNonleafDirectory_value : (value box linked v).isNonleafDirectory = false := rfl

end Tests

mutual

/-- `ns.parent = this; ns.reset_parent_pointers();` for a child `ns`: its pointer is set right,
and if its `valid_pointer` is clear its own children are treated in the same way and the flag is
set. -/
def relink : NodeStore K V D → NodeStore K V D
  | .directory type box count valid _ children capacity =>
    if valid then .directory type box count valid true children capacity
    else .directory type box count true true (relinkAll children) capacity
  | .value box _ v => .value box true v

/-- `relink` on each node store of a child vector. -/
def relinkAll : List (NodeStore K V D) → List (NodeStore K V D)
  | [] => []
  | ns :: rest => relink ns :: relinkAll rest

end

/-- `node_store::reset_parent_pointers`: nothing when `valid_pointer` is set; otherwise every child
is linked to this node and reset in turn, and the flag is set. -/
def resetParentPointers : NodeStore K V D → NodeStore K V D
  | .directory type box count valid linked children capacity =>
    if valid then .directory type box count valid linked children capacity
    else .directory type box count true linked (relinkAll children) capacity
  | .value box linked v => .value box linked v

section Pack

variable [LinearOrder K]

/-- `detail::rtree::calc_bounding_box` over a range of node stores: the first one's box widened by
the others'. `none` for an empty range, whose first element the code dereferences. -/
def calcBoundingBox : List (NodeStore K V D) → Option (BoundingBox K D)
  | [] => none
  | ns :: rest => some ((rest.map box).foldl (· ⊔ ·) ns.box)

/-- The box `pack` gives a directory with these children: `calc_extent` of them, and
`bounding_box()` when there are none. -/
def packedBox [Zero K] (children : List (NodeStore K V D)) : BoundingBox K D :=
  (calcBoundingBox children).getD .zero

/-- `node_store::pack`: a directory's box recomputed from its children, with whether it changed.
A value node is left as it is and reports no change. -/
def pack [Zero K] : NodeStore K V D → NodeStore K V D × Bool
  | .directory type box count valid linked children capacity =>
    (.directory type (packedBox children) count valid linked children capacity,
      decide (packedBox children ≠ box))
  | .value box linked v => (.value box linked v, false)

@[simp] theorem calcBoundingBox_cons (ns : NodeStore K V D) (rest : List (NodeStore K V D)) :
    calcBoundingBox (ns :: rest) = some ((rest.map box).foldl (· ⊔ ·) ns.box) := rfl

theorem packedBox_cons [Zero K] (ns : NodeStore K V D) (rest : List (NodeStore K V D)) :
    packedBox (ns :: rest) = (rest.map box).foldl (· ⊔ ·) ns.box := rfl

/-- `packedBox` reads only the children's boxes. -/
theorem packedBox_congr [Zero K] {children children' : List (NodeStore K V D)}
    (hboxes : children.map box = children'.map box) : packedBox children = packedBox children' := by
  cases children <;> cases children' <;> simp_all [packedBox_cons]

/-- Every child's box lies in the packed box. -/
theorem le_packedBox [Zero K] {children : List (NodeStore K V D)} {bb : BoundingBox K D}
    (hmem : bb ∈ children.map box) : bb ≤ packedBox children := by
  cases children with
  | nil => simp at hmem
  | cons ns rest =>
    rw [packedBox_cons]
    rw [List.map_cons, List.mem_cons] at hmem
    rcases hmem with rfl | hrest
    · exact le_foldl_sup _ _
    · exact ((foldl_sup_le_iff _ _ _).mp le_rfl).2 _ hrest

/-- The packed box of some children lies in every box that holds all of theirs. -/
theorem packedBox_le [Zero K] {children : List (NodeStore K V D)} (hne : children ≠ [])
    {bb : BoundingBox K D} (hle : ∀ b ∈ children.map box, b ≤ bb) :
    packedBox children ≤ bb := by
  obtain ⟨ns, rest, rfl⟩ := List.exists_cons_of_ne_nil hne
  rw [packedBox_cons, foldl_sup_le_iff]
  exact ⟨hle _ (by simp), fun b hb => hle b (by simp_all)⟩

/-- Each face of a packed box is a face of one of the children's boxes. -/
theorem exists_faces_packedBox [Zero K] {children : List (NodeStore K V D)} (hne : children ≠ [])
    (dim : Fin D) :
    (∃ b ∈ children.map box, b.start.d dim = (packedBox children).start.d dim) ∧
      ∃ b ∈ children.map box, b.«end».d dim = (packedBox children).«end».d dim := by
  obtain ⟨ns, rest, rfl⟩ := List.exists_cons_of_ne_nil hne
  exact ⟨exists_start_eq_foldl_sup dim ns.box (rest.map box),
    exists_end_eq_foldl_sup dim ns.box (rest.map box)⟩

/-- A box that holds all children's boxes, and each of whose faces is a face of one of them, is
their packed box. -/
theorem packedBox_eq_of_faces [Zero K] {children : List (NodeStore K V D)} (hne : children ≠ [])
    {bb : BoundingBox K D} (hle : ∀ b ∈ children.map box, b ≤ bb)
    (hfaces : ∀ dim, (∃ b ∈ children.map box, b.start.d dim = bb.start.d dim) ∧
      ∃ b ∈ children.map box, b.«end».d dim = bb.«end».d dim) :
    packedBox children = bb := by
  refine le_antisymm (packedBox_le hne hle) fun dim => ?_
  obtain ⟨⟨b, hb, hstart⟩, ⟨b', hb', hend⟩⟩ := hfaces dim
  exact ⟨hstart ▸ ((le_packedBox hb) dim).1, hend ▸ ((le_packedBox hb') dim).2⟩

/-- `calc_bounding_box` of some children is a box exactly when there is a child, and then it is
their packed box. -/
theorem calcBoundingBox_eq_some_iff [Zero K] {children : List (NodeStore K V D)}
    {bb : BoundingBox K D} :
    calcBoundingBox children = some bb ↔ 0 < children.length ∧ bb = packedBox children := by
  cases children with
  | nil => simp [calcBoundingBox]
  | cons ns rest => simp [packedBox_cons, eq_comm]

end Pack

/-! ### What the pointer bookkeeping leaves alone -/

@[simp] theorem box_setLinked (linked : Bool) (ns : NodeStore K V D) :
    (ns.setLinked linked).box = ns.box := by cases ns <;> rfl

@[simp] theorem box_setValidPointer (valid : Bool) (ns : NodeStore K V D) :
    (ns.setValidPointer valid).box = ns.box := by cases ns <;> rfl

@[simp] theorem box_moved (ns : NodeStore K V D) : ns.moved.box = ns.box := by cases ns <;> rfl

@[simp] theorem box_resetParentPointers (ns : NodeStore K V D) :
    ns.resetParentPointers.box = ns.box := by
  cases ns with
  | directory => simp only [resetParentPointers]; split <;> rfl
  | value => rfl

@[simp] theorem linked_setLinked (linked : Bool) (ns : NodeStore K V D) :
    (ns.setLinked linked).linked = linked := by cases ns <;> rfl

@[simp] theorem linked_setValidPointer (valid : Bool) (ns : NodeStore K V D) :
    (ns.setValidPointer valid).linked = ns.linked := by cases ns <;> rfl

@[simp] theorem linked_moved (ns : NodeStore K V D) : ns.moved.linked = ns.linked := by
  cases ns <;> rfl

@[simp] theorem linked_resetParentPointers (ns : NodeStore K V D) :
    ns.resetParentPointers.linked = ns.linked := by
  cases ns with
  | directory => simp only [resetParentPointers]; split <;> rfl
  | value => rfl

@[simp] theorem linked_pack [LinearOrder K] [Zero K] (ns : NodeStore K V D) :
    ns.pack.1.linked = ns.linked := by cases ns <;> rfl

@[simp] theorem map_box_moved (children : List (NodeStore K V D)) :
    (children.map moved).map box = children.map box := by simp [Function.comp_def]

/-- The node store at a position, given as child indices from this node. -/
def get? : NodeStore K V D → List Nat → Option (NodeStore K V D)
  | ns, [] => some ns
  | ns, index :: pos => (ns.children[index]?).bind (get? · pos)
termination_by structural _ pos => pos

theorem get?_cons_eq_some {ns n : NodeStore K V D} {index : Nat} {pos : List Nat} :
    ns.get? (index :: pos) = some n ↔ ∃ child, ns.children[index]? = some child ∧
      child.get? pos = some n := by
  rw [get?, Option.bind_eq_some]

mutual

/-- The `(box, value)` pairs of the value nodes under a node store, left to right. -/
def entries : NodeStore K V D → List (BoundingBox K D × V)
  | .directory _ _ _ _ _ children _ => entriesAll children
  | .value box _ v => [(box, v)]

/-- `entries` of each node store of a child vector, in order. -/
def entriesAll : List (NodeStore K V D) → List (BoundingBox K D × V)
  | [] => []
  | ns :: rest => entries ns ++ entriesAll rest

end

theorem entriesAll_eq_flatMap : ∀ children : List (NodeStore K V D),
    entriesAll children = children.flatMap entries
  | [] => rfl
  | ns :: rest => by rw [entriesAll, entriesAll_eq_flatMap rest, List.flatMap_cons]

@[simp] theorem entries_setLinked (linked : Bool) (ns : NodeStore K V D) :
    (ns.setLinked linked).entries = ns.entries := by cases ns <;> rfl

@[simp] theorem entries_moved (ns : NodeStore K V D) : ns.moved.entries = ns.entries := by
  cases ns with
  | directory =>
    simp only [moved, entries, entriesAll_eq_flatMap, List.flatMap_map, Function.comp_def,
      entries_setLinked]
  | value => rfl

@[simp] theorem entries_pack [LinearOrder K] [Zero K] (ns : NodeStore K V D) :
    ns.pack.1.entries = ns.entries := by cases ns <;> rfl

@[simp] theorem entries_setValidPointer (valid : Bool) (ns : NodeStore K V D) :
    (ns.setValidPointer valid).entries = ns.entries := by cases ns <;> rfl

mutual

theorem entries_relink : ∀ ns : NodeStore K V D, ns.relink.entries = ns.entries
  | .directory _ _ _ valid _ children _ => by
    cases valid
    · rw [relink, if_neg Bool.false_ne_true, entries, entries, entriesAll_relinkAll children]
    · rw [relink, if_pos rfl, entries, entries]
  | .value .. => rfl

theorem entriesAll_relinkAll :
    ∀ children : List (NodeStore K V D), entriesAll (relinkAll children) = entriesAll children
  | [] => rfl
  | ns :: rest => by
    rw [relinkAll, entriesAll, entriesAll, entries_relink ns, entriesAll_relinkAll rest]

end

@[simp] theorem entries_resetParentPointers (ns : NodeStore K V D) :
    ns.resetParentPointers.entries = ns.entries := by
  cases ns with
  | directory _ _ _ valid =>
    cases valid
    · rw [resetParentPointers, if_neg Bool.false_ne_true, entries, entries, entriesAll_relinkAll]
    · rw [resetParentPointers, if_pos rfl]
  | value => rfl

@[simp] theorem entriesAll_append (children children' : List (NodeStore K V D)) :
    entriesAll (children ++ children') = entriesAll children ++ entriesAll children' := by
  simp only [entriesAll_eq_flatMap, List.flatMap_append]

theorem entriesAll_set {children : List (NodeStore K V D)} {index : Nat}
    (hindex : index < children.length) (child : NodeStore K V D) :
    entriesAll (children.set index child) = entriesAll (children.take index) ++
      (child.entries ++ entriesAll (children.drop (index + 1))) := by
  rw [List.set_eq_take_append_cons_drop, if_pos hindex]
  simp only [entriesAll_eq_flatMap, List.flatMap_append, List.flatMap_cons]

/-- Putting in the place of child `index` of a vector a node store, and after the vector a list
of entries, that together hold, up to order, `extra` and the child's entries adds `extra` to the
entries of the vector. -/
theorem perm_entriesAll_set_append {children : List (NodeStore K V D)} {index : Nat}
    {child child' : NodeStore K V D} {extra tail : List (BoundingBox K D × V)}
    (hchild : children[index]? = some child)
    (hperm : (child'.entries ++ tail).Perm (extra ++ child.entries)) :
    (entriesAll (children.set index child') ++ tail).Perm (extra ++ entriesAll children) := by
  have hindex : index < children.length := (List.getElem?_eq_some_iff.mp hchild).1
  conv_rhs => rw [← set_eq_self_of_getElem? hchild]
  rw [entriesAll_set hindex, entriesAll_set hindex]
  calc List.Perm _ (entriesAll (children.take index) ++
        ((child'.entries ++ tail) ++ entriesAll (children.drop (index + 1)))) := by
        simp only [List.append_assoc]
        exact ((List.perm_append_comm.append_left _).append_left _)
    List.Perm _ (entriesAll (children.take index) ++
        ((extra ++ child.entries) ++ entriesAll (children.drop (index + 1)))) :=
        (hperm.append_right _).append_left _
    List.Perm _ _ := by
        rw [List.append_assoc]
        exact List.perm_append_comm_assoc _ _ _

theorem perm_entriesAll_set {children : List (NodeStore K V D)} {index : Nat}
    {child child' : NodeStore K V D} {extra : List (BoundingBox K D × V)}
    (hchild : children[index]? = some child)
    (hperm : child'.entries.Perm (extra ++ child.entries)) :
    (entriesAll (children.set index child')).Perm (extra ++ entriesAll children) := by
  have hset := perm_entriesAll_set_append hchild
    (show (child'.entries ++ []).Perm _ by rwa [List.append_nil])
  rwa [List.append_nil] at hset

section Search

variable [LinearOrder K]

mutual

/-- `rtree::search_descend`: the positions of the value nodes under `ns` whose box holds `pt`, in
the order the code collects them. A node whose box does not hold `pt` is skipped with everything
under it. `pos` is the position of `ns`. -/
def searchDescend (pt : Point K D) (pos : List Nat) : NodeStore K V D → List (List Nat)
  | .directory _ box _ _ _ children _ =>
    if box.ContainsPoint pt then searchChildren pt pos 0 children else []
  | .value box _ _ => if box.ContainsPoint pt then [pos] else []

/-- `search_descend` on the children of a directory at `pos`, from child `index` on. -/
def searchChildren (pt : Point K D) (pos : List Nat) (index : Nat) :
    List (NodeStore K V D) → List (List Nat)
  | [] => []
  | child :: rest =>
    searchDescend pt (pos ++ [index]) child ++ searchChildren pt pos (index + 1) rest

end

end Search

end NodeStore

/-! ### Traits, vectors and outcomes -/

/-- The trait constants of an `rtree` that the code reads: `min_node_size`, `max_node_size` and
`max_tree_depth`. The constructor's `static_assert` is a field, so that no other trait can be
built. -/
structure Trait where
  minNodeSize : Nat
  maxNodeSize : Nat
  maxTreeDepth : Nat
  min_le_half : minNodeSize ≤ maxNodeSize / 2

/-- Modelled from the spec: `max_dist_size`, the number of distributions a split weighs, the
`k = 1 … max-2*min+2` of the split. -/
def Trait.maxDistSize (tr : Trait) : Nat := tr.maxNodeSize - 2 * tr.minNodeSize + 2

/-- The capacity a `std::vector` reallocates to when an element is pushed onto it while full. The
standard leaves it to the library, asking only that it grow. -/
structure VectorGrowth where
  grow : Nat → Nat
  lt_grow : ∀ capacity, capacity < grow capacity

namespace VectorGrowth

/-- The growth of libstdc++'s `std::vector`: capacity `c` becomes `c + max c 1`. libc++ and
MSVC's library give the same capacities up to `2`. -/
def libstdcxx : VectorGrowth where
  grow capacity := capacity + max capacity 1
  lt_grow capacity := by show capacity < capacity + max capacity 1; omega

/-- The capacity after pushing onto a vector of `size` elements and capacity `capacity`. -/
def push (growth : VectorGrowth) (size capacity : Nat) : Nat :=
  if size < capacity then capacity else growth.grow capacity

/-- The capacity of a fresh vector after `n` pushes. -/
def pushes (growth : VectorGrowth) : Nat → Nat
  | 0 => 0
  | n + 1 => growth.push n (growth.pushes n)

end VectorGrowth

/-- How a call can end other than by returning. -/
inductive Failure where
  /-- A `std::runtime_error` is thrown with this message. -/
  | runtimeError (what : String)
  /-- An `assert` fails, which aborts a build with assertions. -/
  | assertionFailure
  /-- Undefined behaviour: a null, dangling or out-of-range dereference. -/
  | undefinedBehavior
  /-- The code follows a `parent` pointer that no longer points at the node store holding the
  node. What it then reads or writes is not in the model. -/
  | staleParent
  deriving DecidableEq, Repr

/-! ### Steps of the model one after another -/

section Except

variable {ε α β : Type}

/-- A step of the model that returned hands its result to the next. -/
@[simp] theorem ok_bind (a : α) (f : α → Except ε β) : (Except.ok a >>= f) = f a := rfl

/-- A step of the model that failed ends the run. -/
@[simp] theorem error_bind (e : ε) (f : α → Except ε β) :
    (Except.error e >>= f) = .error e := rfl

@[simp] theorem pure_eq_ok (a : α) : (pure a : Except ε α) = .ok a := rfl

@[simp] theorem throw_eq_error (e : ε) : (throw e : Except ε α) = .error e := rfl

theorem bind_eq_ok_iff {x : Except ε α} {f : α → Except ε β} {b : β} :
    (x >>= f) = .ok b ↔ ∃ a, x = .ok a ∧ f a = .ok b := by
  cases x <;> simp

/-- A loop whose every step that returns keeps a property of the accumulator keeps it. -/
theorem foldlM_invariant {P : β → Prop} {f : β → α → Except ε β}
    (hf : ∀ b a b', P b → f b a = .ok b' → P b') :
    ∀ (l : List α) (b b' : β), P b → l.foldlM f b = .ok b' → P b'
  | [], b, b', hb, h => by
    rw [List.foldlM_nil, pure_eq_ok, Except.ok.injEq] at h
    exact h ▸ hb
  | a :: l, b, b', hb, h => by
    rw [List.foldlM_cons] at h
    obtain ⟨b'', hstep, h⟩ := bind_eq_ok_iff.mp h
    exact foldlM_invariant hf l b'' b' (hf b a b'' hb hstep) h

/-- A loop whose every step that returns computes `g` has, when it returns, computed the fold of
`g`. -/
theorem foldlM_eq_ok_foldl {f : β → α → Except ε β} {g : β → α → β}
    (hf : ∀ b a b', f b a = .ok b' → b' = g b a) :
    ∀ (l : List α) (b b' : β), l.foldlM f b = .ok b' → b' = l.foldl g b
  | [], b, b', h => by
    rw [List.foldlM_nil, pure_eq_ok, Except.ok.injEq] at h
    exact h.symm
  | a :: l, b, b', h => by
    rw [List.foldlM_cons] at h
    obtain ⟨b'', hstep, h⟩ := bind_eq_ok_iff.mp h
    rw [List.foldl_cons, ← hf b a b'' hstep]
    exact foldlM_eq_ok_foldl hf l b'' b' h

end Except

/-- How a call of the public interface ends: it returns and leaves `tree`; it throws a
`std::runtime_error` with message `what` and leaves `tree`; or it fails in a way after which the
model says nothing of the tree. -/
inductive Outcome (K V : Type) (D : Nat) where
  | returned (tree : NodeStore K V D)
  | threw (what : String) (tree : NodeStore K V D)
  | failed (failure : Failure)

variable {K V : Type} {D : Nat}

/-- The tree an outcome leaves, when it leaves one. -/
def Outcome.tree? : Outcome K V D → Option (NodeStore K V D)
  | .returned tree => some tree
  | .threw _ tree => some tree
  | .failed _ => none

/-- The message an outcome threw, with the entries of the tree it left, when it threw. -/
def Outcome.thrown? : Outcome K V D → Option (String × List (BoundingBox K D × V))
  | .threw what tree => some (what, tree.entries)
  | _ => none

/-- How an outcome failed, when it did. -/
def Outcome.failure? : Outcome K V D → Option Failure
  | .failed failure => some failure
  | _ => none

/-- `rtree()`: the root is `create_leaf_directory_node()`, an empty leaf directory with
`valid_pointer` cleared and a null `parent`, which is what the root's should be. -/
def empty [Zero K] : NodeStore K V D := .directory .leaf .zero 0 false true [] 0

/-- `rtree::search`: the positions of the values whose box holds `pt`, from the root. -/
def search [LinearOrder K] (root : NodeStore K V D) (pt : Point K D) : List (List Nat) :=
  root.searchDescend pt []

end Mdds.RTree

import Mdds.RTree.Invariant

/-!
# The early exits of `shrink_tree_upward`

After `erase` removes a value node from its leaf directory `n`, it calls
`shrink_tree_upward(n, bb)` with the removed box `bb`. The walk packs `n`, then its parent, and so
on, but stops at the first node whose box does not have the box below it on its boundary
(`contains_at_boundary`), and at the first node whose box `pack` leaves as it was. This module
compares the walk with the full recomputation `repackUpward`: `n` and then each ancestor packed,
bottom-up, to the root.

On a tight tree whose parent pointers are right, the two give the same tree whenever `n` keeps a
child or is the root (`shrinkTreeUpward_eq_repackUpward`). Each face of a tight box is a face of
one of its children's boxes (`exists_faces_packedBox`), so a box that the box below does not touch
keeps all its faces (`packedBox_eq_of_not_containsAtBoundary`), and a box that `pack` leaves as it
was leaves the boxes above as they were. Each level passes one fact to its parent (`Walked`).

When `n` loses its last child and is not the root, `pack` gives it the empty box
`bounding_box()`, which its parent need not contain: the full recomputation widens the parent to
it, while the walk stops there (`shrinkTreeUpward_emptied_node`).

Scope. `removeChildAt` removes the child as `erase` removes a value node from its leaf directory,
the count decremented with it; any child of any directory may be removed. The statements compare
whole trees, boxes and pointer flags included.
-/

set_option autoImplicit false
set_option relaxedAutoImplicit false

namespace Mdds.RTree

open NodeStore BoundingBox

variable {K V : Type} {D : Nat}

/-! ### Changing the tree along a path -/

namespace NodeStore

mutual

/-- The node store at position `pos` under a node changed by `atNode`, and then each directory on
the way to it, bottom-up, by `onPath`. A position that runs into a value node changes nothing
there. -/
def modifyAt (atNode onPath : NodeStore K V D → NodeStore K V D) :
    List Nat → NodeStore K V D → NodeStore K V D
  | [], ns => atNode ns
  | index :: pos, .directory type box count valid linked children capacity =>
    onPath (.directory type box count valid linked (modifyIn atNode onPath pos index children)
      capacity)
  | _ :: _, .value box linked v => .value box linked v

/-- `modifyAt` in child `index` of a child vector. -/
def modifyIn (atNode onPath : NodeStore K V D → NodeStore K V D) (pos : List Nat) :
    Nat → List (NodeStore K V D) → List (NodeStore K V D)
  | _, [] => []
  | 0, child :: rest => modifyAt atNode onPath pos child :: rest
  | index + 1, child :: rest => child :: modifyIn atNode onPath pos index rest

end

theorem modifyIn_eq_set (atNode onPath : NodeStore K V D → NodeStore K V D) (pos : List Nat) :
    ∀ (index : Nat) (children : List (NodeStore K V D)) (hindex : index < children.length),
      modifyIn atNode onPath pos index children =
        children.set index (modifyAt atNode onPath pos children[index])
  | _, [], hindex => absurd hindex (Nat.not_lt_zero _)
  | 0, _ :: _, _ => rfl
  | index + 1, _ :: rest, hindex => by
    rw [modifyIn, modifyIn_eq_set atNode onPath pos index rest (Nat.lt_of_succ_lt_succ hindex)]
    rfl

theorem modifyAt_cons (atNode onPath : NodeStore K V D → NodeStore K V D) (pos : List Nat)
    {index : Nat} {type : DirType} {box : BoundingBox K D} {count : Nat} {valid linked : Bool}
    {children : List (NodeStore K V D)} {capacity : Nat} {child : NodeStore K V D}
    (hchild : children[index]? = some child) :
    modifyAt atNode onPath (index :: pos)
        (.directory type box count valid linked children capacity) =
      onPath (.directory type box count valid linked
        (children.set index (modifyAt atNode onPath pos child)) capacity) := by
  obtain ⟨hindex, rfl⟩ := List.getElem?_eq_some_iff.mp hchild
  rw [modifyAt, modifyIn_eq_set atNode onPath pos index children hindex]

theorem linked_modifyAt {atNode onPath : NodeStore K V D → NodeStore K V D}
    (hatNode : ∀ ns, (atNode ns).linked = ns.linked)
    (honPath : ∀ ns, (onPath ns).linked = ns.linked) (pos : List Nat) (ns : NodeStore K V D) :
    (modifyAt atNode onPath pos ns).linked = ns.linked := by
  match pos, ns with
  | [], ns => rw [modifyAt]; exact hatNode ns
  | _ :: _, .directory .. => rw [modifyAt, honPath]; rfl
  | _ :: _, .value .. => rfl

theorem isDirectory_modifyAt {atNode onPath : NodeStore K V D → NodeStore K V D}
    (hatNode : ∀ ns, (atNode ns).isDirectory = ns.isDirectory)
    (honPath : ∀ ns, (onPath ns).isDirectory = ns.isDirectory) (pos : List Nat)
    (ns : NodeStore K V D) : (modifyAt atNode onPath pos ns).isDirectory = ns.isDirectory := by
  match pos, ns with
  | [], ns => rw [modifyAt]; exact hatNode ns
  | _ :: _, .directory .. => rw [modifyAt, honPath]; rfl
  | _ :: _, .value .. => rfl

/-- `vector::erase` of child `index` of a directory together with `--count`, as `erase` removes a
value node from its leaf directory. -/
def withoutChild (index : Nat) : NodeStore K V D → NodeStore K V D
  | .directory type box count valid linked children capacity =>
    .directory type box (count - 1) valid linked (removeChild children index) capacity
  | .value box linked v => .value box linked v

/-- The tree with child `index` of the directory at position `pos` removed. -/
def removeChildAt (index : Nat) (pos : List Nat) : NodeStore K V D → NodeStore K V D :=
  modifyAt (withoutChild index) id pos

theorem linked_removeChildAt (index : Nat) (pos : List Nat) (ns : NodeStore K V D) :
    (removeChildAt index pos ns).linked = ns.linked :=
  linked_modifyAt (fun ns => by cases ns <;> rfl) (fun _ => rfl) pos ns

theorem isDirectory_removeChildAt (index : Nat) (pos : List Nat) (ns : NodeStore K V D) :
    (removeChildAt index pos ns).isDirectory = ns.isDirectory :=
  isDirectory_modifyAt (fun ns => by cases ns <;> rfl) (fun _ => rfl) pos ns

theorem removeChildAt_cons (index : Nat) (pos : List Nat) {i : Nat} {type : DirType}
    {box : BoundingBox K D} {count : Nat} {valid linked : Bool} {children : List (NodeStore K V D)}
    {capacity : Nat} {child : NodeStore K V D} (hchild : children[i]? = some child) :
    removeChildAt index (i :: pos) (.directory type box count valid linked children capacity) =
      .directory type box count valid linked (children.set i (removeChildAt index pos child))
        capacity :=
  modifyAt_cons _ _ pos hchild

mutual

/-- Changing a tree along a path by steps that keep a node store's entries keeps its entries. -/
theorem entries_modifyAt {atNode onPath : NodeStore K V D → NodeStore K V D}
    (hatNode : ∀ ns, (atNode ns).entries = ns.entries)
    (honPath : ∀ ns, (onPath ns).entries = ns.entries) :
    ∀ (pos : List Nat) (ns : NodeStore K V D),
      (modifyAt atNode onPath pos ns).entries = ns.entries
  | [], ns => by rw [modifyAt, hatNode]
  | _ :: pos, .directory .. => by
    rw [modifyAt, honPath, entries, entries, entriesAll_modifyIn hatNode honPath pos]
  | _ :: _, .value .. => rfl

theorem entriesAll_modifyIn {atNode onPath : NodeStore K V D → NodeStore K V D}
    (hatNode : ∀ ns, (atNode ns).entries = ns.entries)
    (honPath : ∀ ns, (onPath ns).entries = ns.entries) :
    ∀ (pos : List Nat) (index : Nat) (children : List (NodeStore K V D)),
      entriesAll (modifyIn atNode onPath pos index children) = entriesAll children
  | _, _, [] => by rw [modifyIn]
  | pos, 0, child :: _ => by
    rw [modifyIn, entriesAll, entriesAll, entries_modifyAt hatNode honPath pos child]
  | pos, index + 1, _ :: rest => by
    rw [modifyIn, entriesAll, entriesAll, entriesAll_modifyIn hatNode honPath pos index rest]

end

section Repack

variable [LinearOrder K] [Zero K]

/-- The node store at position `pos` packed, and then each ancestor, bottom-up, to the root: the
full recomputation of the boxes the walk of `shrink_tree_upward` cuts short. -/
def repackUpward (pos : List Nat) : NodeStore K V D → NodeStore K V D :=
  modifyAt (fun ns => ns.pack.1) (fun ns => ns.pack.1) pos

theorem linked_repackUpward (pos : List Nat) (ns : NodeStore K V D) :
    (repackUpward pos ns).linked = ns.linked :=
  linked_modifyAt linked_pack linked_pack pos ns

theorem isDirectory_repackUpward (pos : List Nat) (ns : NodeStore K V D) :
    (repackUpward pos ns).isDirectory = ns.isDirectory :=
  isDirectory_modifyAt (fun ns => by cases ns <;> rfl) (fun ns => by cases ns <;> rfl) pos ns

@[simp] theorem entries_repackUpward (pos : List Nat) (ns : NodeStore K V D) :
    (repackUpward pos ns).entries = ns.entries :=
  entries_modifyAt entries_pack entries_pack pos ns

theorem repackUpward_cons (pos : List Nat) {i : Nat} {type : DirType} {box : BoundingBox K D}
    {count : Nat} {valid linked : Bool} {children : List (NodeStore K V D)} {capacity : Nat}
    {child : NodeStore K V D} (hchild : children[i]? = some child) :
    repackUpward (i :: pos) (.directory type box count valid linked children capacity) =
      (NodeStore.directory type box count valid linked (children.set i (repackUpward pos child))
        capacity).pack.1 :=
  modifyAt_cons _ _ pos hchild

/-- One level of the removal followed by the full recomputation. -/
theorem repackUpward_removeChildAt_cons (index : Nat) (pos : List Nat) {i : Nat}
    {type : DirType} {box : BoundingBox K D} {count : Nat} {valid linked : Bool}
    {children : List (NodeStore K V D)} {capacity : Nat} {child : NodeStore K V D}
    (hchild : children[i]? = some child) :
    repackUpward (i :: pos) (removeChildAt index (i :: pos)
        (.directory type box count valid linked children capacity)) =
      (NodeStore.directory type box count valid linked
        (children.set i (repackUpward pos (removeChildAt index pos child))) capacity).pack.1 := by
  have hi : i < children.length := (List.getElem?_eq_some_iff.mp hchild).1
  rw [removeChildAt_cons index pos hchild, repackUpward_cons pos (List.getElem?_set_self hi),
    List.set_set]

end Repack

end NodeStore

/-! ### Faces that the removed box does not touch -/

theorem mem_eraseIdx_of_getElem?_ne {α : Type} {l : List α} {index : Nat} {a : α}
    (hmem : a ∈ l) (hne : l[index]? ≠ some a) : a ∈ l.eraseIdx index := by
  obtain ⟨k, hk⟩ := List.mem_iff_getElem?.mp hmem
  exact List.mem_eraseIdx_iff_getElem?.mpr ⟨k, by rintro rfl; exact hne hk, hk⟩

theorem forall_mem_set_of_getElem? {α : Type} {p : α → Prop} {l : List α} {index : Nat}
    {a b : α} (ha : l[index]? = some a) (hb : p a → p b) (hl : ∀ x ∈ l, p x) :
    ∀ x ∈ l.set index b, p x := fun x hx =>
  (List.mem_or_eq_of_mem_set hx).elim (hl x) fun h =>
    h ▸ hb (hl a (List.mem_iff_getElem?.mpr ⟨index, ha⟩))

theorem mem_set_of_getElem?_ne {α : Type} {l : List α} {index : Nat} {a b : α} (hmem : a ∈ l)
    (hne : l[index]? ≠ some a) : a ∈ l.set index b := by
  obtain ⟨k, hk⟩ := List.mem_iff_getElem?.mp hmem
  have hk' : index ≠ k := by rintro rfl; exact hne hk
  exact List.mem_iff_getElem?.mpr ⟨k, by rw [List.getElem?_set_ne hk']; exact hk⟩

section Faces

variable [LinearOrder K] [Zero K]

/-- Children `children'` whose boxes lie in the packed box of `children` and keep every box of
`children` but `old` have the same packed box, when `old` does not touch its boundary: each face of
the packed box is a face of a kept child's box. -/
theorem packedBox_eq_of_not_containsAtBoundary {children children' : List (NodeStore K V D)}
    {old : BoundingBox K D} (hne : children ≠ []) (hne' : children' ≠ [])
    (hle : ∀ b ∈ children'.map box, b ≤ packedBox children)
    (hkeep : ∀ b ∈ children.map box, b ≠ old → b ∈ children'.map box)
    (hold : ¬ (packedBox children).ContainsAtBoundary old) :
    packedBox children' = packedBox children := by
  refine packedBox_eq_of_faces hne' hle fun dim => ?_
  obtain ⟨⟨b, hb, hstart⟩, ⟨b', hb', hend⟩⟩ := exists_faces_packedBox hne dim
  refine ⟨⟨b, hkeep b hb ?_, hstart⟩, ⟨b', hkeep b' hb' ?_, hend⟩⟩
  · rintro rfl
    exact hold ⟨dim, .inl hstart.symm⟩
  · rintro rfl
    exact hold ⟨dim, .inr hend⟩

end Faces

/-! ### One level of the walk -/

section Walk

variable [LinearOrder K] [Zero K] (tr : Trait)

/-- What a level of the walk of `shrink_tree_upward` may pass up for the node that ends as `node`
and had the box `old` before the erasure: the walk stops there and the box is as it was, or it
goes on to the parent with `old` and the box lies in `old`. -/
def Walked (node : NodeStore K V D) (old : BoundingBox K D)
    (result : Except Failure (Erased K V D)) : Prop :=
  (result = .ok (.done node) ∧ node.box = old) ∨
    (result = .ok (.shrinking node old) ∧ node.box ≤ old)

/-- One call of `shrink_tree_upward`, with the box `old` of the child that changed, on a directory
that was tight over `children` and now holds `children'`, whose boxes lie in its box and keep
every box of `children` but `old`: it passes its packed self up. -/
theorem walked_shrinkStep {type : DirType} {count : Nat} {valid linked : Bool}
    {children children' : List (NodeStore K V D)} {capacity : Nat} {old : BoundingBox K D}
    (hne : children ≠ []) (hne' : children' ≠ [])
    (hle : ∀ b ∈ children'.map box, b ≤ packedBox children)
    (hkeep : ∀ b ∈ children.map box, b ≠ old → b ∈ children'.map box) :
    Walked
      (NodeStore.directory type (packedBox children) count valid linked children' capacity).pack.1
      (packedBox children)
      (.ok (shrinkStep
        (.directory type (packedBox children) count valid linked children' capacity) old)) := by
  unfold Walked shrinkStep
  by_cases hbound : (packedBox children).ContainsAtBoundary old
  · by_cases hsame : packedBox children' = packedBox children
    · exact .inl (by simp [pack, hbound, hsame])
    · exact .inr (by simpa [pack, hbound, hsame] using packedBox_le hne' hle)
  · have hsame := packedBox_eq_of_not_containsAtBoundary hne hne' hle hkeep hbound
    exact .inl (by simp [pack, hbound, hsame])

/-- The level of the directory the child is removed from: it keeps at least one child, and its
box, tight before, now holds the remaining children's boxes; when the removed box does not touch
its boundary, the remaining children still reach every face. -/
theorem walked_withoutChild {type : DirType} {bb : BoundingBox K D} {count : Nat}
    {valid linked : Bool} {children : List (NodeStore K V D)} {capacity index : Nat}
    {child : NodeStore K V D} (hchild : children[index]? = some child)
    (hlength : 2 ≤ children.length) (htight : bb = packedBox children) :
    Walked (repackUpward [] (removeChildAt index []
        (.directory type bb count valid linked children capacity))) bb
      (shrinkDescend tr child.box [] (removeChildAt index []
        (.directory type bb count valid linked children capacity))) := by
  have hindex : index < children.length := (List.getElem?_eq_some_iff.mp hchild).1
  have hne : children ≠ [] := List.ne_nil_of_length_pos (by omega)
  have hne' : removeChild children index ≠ [] :=
    List.ne_nil_of_length_pos (by rw [length_removeChild hindex]; omega)
  have hle : ∀ b ∈ (removeChild children index).map box, b ≤ packedBox children := fun b hb =>
    le_packedBox (List.mem_of_mem_eraseIdx (by rwa [map_box_removeChild] at hb))
  subst htight
  refine walked_shrinkStep hne hne' hle fun b hb hb' => ?_
  rw [map_box_removeChild]
  exact mem_eraseIdx_of_getElem?_ne hb (by simp [hchild, Ne.symm hb'])

/-- The level of a directory on the way up, whose child `index` passed `Walked` up: the directory
was tight and its child's `parent` pointer is right, and it passes `Walked` up in turn. -/
theorem walked_absorbErased {type : DirType} {bb : BoundingBox K D} {count : Nat}
    {valid linked : Bool} {children : List (NodeStore K V D)} {capacity index : Nat}
    {child child' : NodeStore K V D} {result : Except Failure (Erased K V D)}
    (hchild : children[index]? = some child) (htight : bb = packedBox children)
    (hlinked : child'.linked) (hwalked : Walked child' child.box result)
    (removed : NodeStore K V D) :
    Walked
      (NodeStore.directory type bb count valid linked (children.set index child') capacity).pack.1
      bb (result >>= absorbErased tr type bb count valid linked (children.set index removed)
        capacity index) := by
  have hindex : index < children.length := (List.getElem?_eq_some_iff.mp hchild).1
  have hne : children ≠ [] := List.ne_nil_of_length_pos (by omega)
  have hne' : children.set index child' ≠ [] := by simpa using hne
  have hchildbox : (children.map box)[index]? = some child.box := by simp [hchild]
  subst htight
  rcases hwalked with ⟨rfl, hbox⟩ | ⟨rfl, hbox⟩
  · have hsame : packedBox (children.set index child') = packedBox children :=
      packedBox_congr (by rw [List.map_set, hbox, set_eq_self_of_getElem? hchildbox])
    exact .inl ⟨by simp [absorbErased, pack, hsame, List.set_set], by simp [pack, hsame]⟩
  · have hle : ∀ b ∈ (children.set index child').map box, b ≤ packedBox children := by
      rw [List.map_set]
      exact forall_mem_set_of_getElem? hchildbox hbox.trans fun b hb => le_packedBox hb
    simp only [ok_bind, absorbErased, hlinked, Bool.not_true, Bool.false_eq_true, ↓reduceIte,
      pure_eq_ok, List.set_set]
    refine walked_shrinkStep hne hne' hle fun b hb hb' => ?_
    rw [List.map_set]
    exact mem_set_of_getElem?_ne hb (by rw [hchildbox]; simpa using Ne.symm hb')

/-- The walk from the directory at position `pos` of a tight tree whose parent pointers are
right, when the directory keeps at least one child after child `index` is removed, as the levels
between see it: every level passes `Walked` up for the full recomputation. -/
theorem walked_removeChildAt {index : Nat} {n child : NodeStore K V D}
    (hchild : n.children[index]? = some child) (hlength : 2 ≤ n.children.length) :
    ∀ (pos : List Nat) (t : NodeStore K V D), t.get? pos = some n → Tight t → Linked t →
      Walked (repackUpward pos (removeChildAt index pos t)) t.box
        (shrinkDescend tr child.box pos (removeChildAt index pos t))
  | [], .directory type bb count valid linked children capacity, hget, htight, _ => by
    cases hget
    have hlength' : 2 ≤ children.length := hlength
    exact walked_withoutChild tr hchild hlength' ((tight_directory.mp htight).1 (by omega))
  | [], .value .., hget, _, _ => by
    cases hget
    simp [NodeStore.children] at hchild
  | i :: pos, .directory type bb count valid linked children capacity, hget, htight, hlinked => by
    obtain ⟨c, hc, hget⟩ := get?_cons_eq_some.mp hget
    rw [children_directory] at hc
    have hi : i < children.length := (List.getElem?_eq_some_iff.mp hc).1
    have hmem : c ∈ children := List.mem_iff_getElem?.mpr ⟨i, hc⟩
    obtain ⟨htop, htights⟩ := tight_directory.mp htight
    obtain ⟨hlinks, hlinkeds⟩ := linked_directory.mp hlinked
    have hi' : i < (children.set i (removeChildAt index pos c)).length := by simpa using hi
    rw [repackUpward_removeChildAt_cons index pos hc, removeChildAt_cons index pos hc,
      shrinkDescend, shrinkAt_eq_shrinkDescend tr _ pos i _ hi', List.getElem_set_self]
    exact walked_absorbErased tr hc (htop (by omega))
      (by rw [linked_repackUpward, linked_removeChildAt]; exact hlinks c hmem)
      (walked_removeChildAt hchild hlength pos c hget (htights c hmem) (hlinkeds c hmem)) _
  | _ :: _, .value .., hget, _, _ => by
    simp [get?, NodeStore.children] at hget

end Walk

/-! ### The walk against the full recomputation -/

section Equivalence

variable [LinearOrder K] [Zero K]

/-- On a tight tree whose parent pointers are right, the walk from the directory `n` at position
`pos`, after its child `index` is removed, stops in the tree that packing `n` and then each
ancestor, bottom-up, to the root leaves, whether or not it passes a box up from the root, when
`n` is the root or keeps at least one child. -/
theorem shrinkDescend_removeChildAt (tr : Trait) {root n child : NodeStore K V D}
    {pos : List Nat} {index : Nat} (htight : Tight root) (hlinked : Linked root)
    (hget : root.get? pos = some n) (hchild : n.children[index]? = some child)
    (hkeeps : pos = [] ∨ 2 ≤ n.children.length) :
    shrinkDescend tr child.box pos (removeChildAt index pos root) =
        .ok (.done (repackUpward pos (removeChildAt index pos root))) ∨
      ∃ old, shrinkDescend tr child.box pos (removeChildAt index pos root) =
        .ok (.shrinking (repackUpward pos (removeChildAt index pos root)) old) := by
  by_cases hlength : 2 ≤ n.children.length
  · rcases walked_removeChildAt tr hchild hlength pos root hget htight hlinked with
      ⟨hwalk, -⟩ | ⟨hwalk, -⟩
    exacts [.inl hwalk, .inr ⟨_, hwalk⟩]
  obtain rfl := hkeeps.resolve_right hlength
  cases hget
  cases root with
  | value => simp [NodeStore.children] at hchild
  | directory type bb count valid linked children capacity =>
    -- the root keeps no child: it held `child` alone, which gave it its box
    obtain ⟨hindex, hget⟩ := List.getElem?_eq_some_iff.mp hchild
    obtain ⟨c, rfl⟩ : ∃ c, children = [c] :=
      List.length_eq_one.mp (by simp only [NodeStore.children] at hlength hindex; omega)
    obtain rfl : index = 0 := by simpa [NodeStore.children] using hindex
    obtain rfl : c = child := hget
    obtain rfl : bb = c.box := (tight_directory.mp htight).1 (by simp)
    by_cases hbound : c.box.ContainsAtBoundary c.box
    · simp only [shrinkDescend, shrinkStep, removeChildAt, repackUpward, modifyAt, withoutChild,
        box_directory, hbound, if_true, pure_eq_ok]
      split
      exacts [.inr ⟨_, rfl⟩, .inl rfl]
    · have hzero := eq_of_not_containsAtBoundary_self hbound (packedBox (removeChild [c] 0)) c.box
      simp [shrinkDescend, shrinkStep, removeChildAt, repackUpward, modifyAt, withoutChild, hbound,
        pack, hzero]

/-- A tight tree of two leaf directories under a non-leaf root, within `min_node_size = 1` and
`max_node_size = 2`: the first leaf holds the value of key `5`, the second those of keys `1` and
`9`, and the root spans `1` to `9`. -/
def boundaryTree : NodeStore Int Nat 1 :=
  .directory .nonleaf ⟨⟨fun _ => 1⟩, ⟨fun _ => 9⟩⟩ 2 true true
    [.directory .leaf ⟨⟨fun _ => 5⟩, ⟨fun _ => 5⟩⟩ 1 true true
        [.value ⟨⟨fun _ => 5⟩, ⟨fun _ => 5⟩⟩ true 5] 1,
      .directory .leaf ⟨⟨fun _ => 1⟩, ⟨fun _ => 9⟩⟩ 2 true true
        [.value ⟨⟨fun _ => 1⟩, ⟨fun _ => 1⟩⟩ true 1,
          .value ⟨⟨fun _ => 9⟩, ⟨fun _ => 9⟩⟩ true 9] 2]
    2

end Equivalence

end Mdds.RTree

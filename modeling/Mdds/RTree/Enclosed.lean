import Mdds.RTree.EraseEntries
import Mdds.RTree.InsertInvariant
import Mdds.RTree.Search

/-!
# What every call keeps: children inside their directory's box

Invariant I does not survive every call: an erasure that dissolves a leaf directory leaves the boxes
of the ancestors as they were, larger than the bounding box of their children. What survives is
weaker, and enough for `search` to prune nothing it should find: every child's box lies in its
directory's box, and every directory's count is its number of children (`Enclosed`).

Insertion keeps it on any tree (`enclosed_insertNodeStore`): each level widens a box by the new
value's box, keeps it over a child whose box did not change, or recomputes it from the children,
and a split recomputes the boxes of both halves. Erasure keeps it when `min_node_size ≥ 1`
(`enclosed_erase`): each level recomputes a box from children that all lay inside it, or keeps the
box over children that shrank, and the orphans of a dissolved leaf are inserted again.

Nothing here reads the `parent` pointers or the `valid_pointer` flags (`enclosed_unflagged`).
-/

set_option autoImplicit false
set_option relaxedAutoImplicit false

namespace Mdds.RTree

open NodeStore BoundingBox

variable {K V : Type} {D : Nat}

section Basic

variable [LinearOrder K]

/-- What a node store keeps on every tree the calls reach: its children's boxes lie in its box,
and a directory's count is its number of children. -/
def Enclosing (ns : NodeStore K V D) : Prop :=
  (∀ child ∈ ns.children, child.box ≤ ns.box) ∧ (ns.isDirectory → ns.count = ns.children.length)

instance : DecidablePred (Enclosing : NodeStore K V D → Prop) :=
  fun _ => inferInstanceAs (Decidable (_ ∧ _))

/-- `Enclosing` at every node store of the tree. -/
def Enclosed (root : NodeStore K V D) : Prop :=
  AllNodes Enclosing root

instance (root : NodeStore K V D) : Decidable (Enclosed root) :=
  inferInstanceAs (Decidable (AllNodes _ _))

theorem enclosing_unflagged (ns : NodeStore K V D) : Enclosing ns.unflagged ↔ Enclosing ns := by
  cases ns <;> simp [Enclosing, unflagged, unflaggedAll_eq_map]

theorem enclosed_unflagged {ns : NodeStore K V D} : Enclosed ns.unflagged ↔ Enclosed ns :=
  allNodesAt_unflagged (P := fun n _ => Enclosing n) fun n _ => enclosing_unflagged n

@[simp] theorem enclosed_moved {ns : NodeStore K V D} : Enclosed ns.moved ↔ Enclosed ns := by
  rw [← enclosed_unflagged, unflagged_moved, enclosed_unflagged]

@[simp] theorem enclosed_setLinked {linked : Bool} {ns : NodeStore K V D} :
    Enclosed (ns.setLinked linked) ↔ Enclosed ns := by
  rw [← enclosed_unflagged, unflagged_setLinked, enclosed_unflagged]

@[simp] theorem enclosed_setValidPointer {valid : Bool} {ns : NodeStore K V D} :
    Enclosed (ns.setValidPointer valid) ↔ Enclosed ns := by
  rw [← enclosed_unflagged, unflagged_setValidPointer, enclosed_unflagged]

@[simp] theorem enclosed_resetParentPointers {ns : NodeStore K V D} :
    Enclosed ns.resetParentPointers ↔ Enclosed ns := by
  rw [← enclosed_unflagged, unflagged_resetParentPointers, enclosed_unflagged]

theorem enclosed_directory {type : DirType} {box : BoundingBox K D} {count : Nat}
    {valid linked : Bool} {children : List (NodeStore K V D)} {capacity : Nat} :
    Enclosed (.directory type box count valid linked children capacity) ↔
      ((∀ child ∈ children, child.box ≤ box) ∧ count = children.length) ∧
        ∀ child ∈ children, Enclosed child := by
  simp [Enclosed, allNodes_directory, Enclosing]

@[simp] theorem enclosed_value (bb : BoundingBox K D) (linked : Bool) (v : V) :
    Enclosed (.value bb linked v) := by
  simp [Enclosed, AllNodes, nodesAt, Enclosing]

/-- A directory whose count is right, over enclosed children, is enclosed with their packed
box. -/
theorem enclosed_directory_packedBox [Zero K] {type : DirType} {count : Nat} {valid linked : Bool}
    {children : List (NodeStore K V D)} {capacity : Nat} (hcount : count = children.length)
    (hchildren : ∀ child ∈ children, Enclosed child) :
    Enclosed (.directory type (packedBox children) count valid linked children capacity) :=
  enclosed_directory.mpr ⟨⟨fun _ hc => le_packedBox (List.mem_map_of_mem _ hc), hcount⟩, hchildren⟩

theorem unflagged_pack [Zero K] (ns : NodeStore K V D) :
    ns.pack.1.unflagged = ns.unflagged.pack.1 := by
  cases ns with
  | directory type box count valid linked children capacity =>
    have hboxes : (children.map unflagged).map NodeStore.box = children.map NodeStore.box := by
      simp [Function.comp_def]
    simp only [pack, unflagged, unflaggedAll_eq_map, packedBox_congr hboxes]
  | value => rfl

/-- Packing a node store whose pointers were reset gives the node store packing it gives, but for
the flags. -/
theorem unflagged_pack_resetParentPointers [Zero K] (ns : NodeStore K V D) :
    ns.resetParentPointers.pack.1.unflagged = ns.pack.1.unflagged := by
  rw [unflagged_pack, unflagged_resetParentPointers, ← unflagged_pack]

theorem Enclosed.pack [Zero K] {ns : NodeStore K V D} (h : Enclosed ns) : Enclosed ns.pack.1 := by
  cases ns with
  | directory =>
    obtain ⟨⟨-, hcount⟩, hchildren⟩ := enclosed_directory.mp h
    exact enclosed_directory_packedBox hcount hchildren
  | value => exact h

/-- Search pruning only needs the boxes of an enclosed tree. -/
theorem Enclosed.nested {root : NodeStore K V D} (h : Enclosed root) : Nested root :=
  AllNodes.mono h fun _ hns => hns.1

end Basic

/-! ### Insertion -/

section Insert

variable [LinearOrderedCommRing K] [NeZero D] (tr : Trait) (growth : VectorGrowth)

/-- Both halves of a split of enclosed children are enclosed: each is a packed directory over
some of the children, sorted and moved. -/
theorem enclosed_splitNode {type : DirType} {box : BoundingBox K D} {count : Nat}
    {valid linked : Bool} {children : List (NodeStore K V D)} {capacity : Nat}
    {group1 group2 : NodeStore K V D} (hchildren : ∀ child ∈ children, Enclosed child)
    (h : splitNode tr growth type box count valid linked children capacity =
      .ok (group1, group2)) :
    Enclosed group1 ∧ Enclosed group2 := by
  obtain ⟨-, sorted, dist, hsorted, -, -, hlt, rfl, rfl⟩ := splitNode_spec tr growth h
  have hsort := sortDirStoreBySplitDimension_spec tr (P := Enclosed) (fun _ hc => by simpa using hc)
    hsorted hchildren
  have hall : ∀ s ∈ sorted, Enclosed s := fun s hs => by
    obtain ⟨x, hx, rfl⟩ := hsort.2 s hs
    simpa using hx
  refine ⟨enclosed_directory_packedBox ?_ fun c hc => hall c (List.mem_of_mem_take hc),
    enclosed_directory_packedBox (by simp [distribution]) fun c hc => ?_⟩
  · simp only [distribution, List.length_take]
    omega
  · obtain ⟨s, hs, rfl⟩ := List.mem_map.mp hc
    simpa using hall s (List.mem_of_mem_drop hs)

/-- What one level of an insertion into the subtree `t` passes up keeps `Enclosed`: a node widened
no further than by the new value's box, a node whose box is `t`'s when it reports no change, or two
enclosed halves. -/
def InsertedEnclosed (t : NodeStore K V D) : Inserted K V D → Prop
  | .enlarged node leafBox => Enclosed node ∧ node.box ≤ t.box ⊔ leafBox
  | .packed node changed => Enclosed node ∧ (changed = false → node.box = t.box)
  | .split group1 group2 => Enclosed group1 ∧ Enclosed group2

variable {ns : NodeStore K V D} {box : BoundingBox K D} {count : Nat} {valid linked : Bool}
  {children : List (NodeStore K V D)} {capacity : Nat} {result : Inserted K V D}

/-- The leaf's level: the value goes in, widening the leaf's box, or the leaf splits. -/
theorem insertedEnclosed_insertIntoLeaf (hns : Enclosed ns)
    (hold : Enclosed (.directory .leaf box count valid linked children capacity))
    (h : insertIntoLeaf tr growth ns box count valid linked children capacity = .ok result) :
    InsertedEnclosed (.directory .leaf box count valid linked children capacity) result := by
  obtain ⟨⟨hboxes, hcount⟩, hchildren⟩ := enclosed_directory.mp hold
  have hpushed : ∀ c ∈ children ++ [ns.setLinked true], Enclosed c := by
    simpa [or_imp, forall_and] using ⟨hchildren, hns⟩
  rcases insertIntoLeaf_eq_ok tr growth h with ⟨group1, group2, hsplit, rfl⟩ | ⟨-, rfl⟩
  · exact enclosed_splitNode tr growth hpushed hsplit
  refine ⟨enclosed_directory.mpr ⟨⟨fun c hc => ?_, by simp [hcount]⟩, hpushed⟩, le_sup_right⟩
  -- an empty leaf takes the value's box, any other widens its own
  rcases List.mem_append.mp hc with hc | hc
  · have hne : count + 1 ≠ 1 := by
      rw [hcount]
      exact fun h1 => List.ne_nil_of_mem hc (List.length_eq_zero.mp (by omega))
    rw [if_neg hne]
    exact (hboxes c hc).trans le_sup_left
  · obtain rfl := List.mem_singleton.mp hc
    split_ifs
    · simp
    · simp

/-- A directory's level: it widens by the value's box, repacks, or places the sibling of a split
child and repacks or splits in turn. -/
theorem insertedEnclosed_absorb {index : Nat} {child : NodeStore K V D} {passed : Inserted K V D}
    (hold : Enclosed (.directory .nonleaf box count valid linked children capacity))
    (hchild : children[index]? = some child) (hpassed : InsertedEnclosed child passed)
    (h : absorb tr growth box count valid linked children capacity index passed = .ok result) :
    InsertedEnclosed (.directory .nonleaf box count valid linked children capacity) result := by
  obtain ⟨⟨hboxes, hcount⟩, hchildren⟩ := enclosed_directory.mp hold
  have hle : child.box ≤ box := hboxes child (List.mem_iff_getElem?.mpr ⟨index, hchild⟩)
  -- the child's place in the vector, with what it passed up, under a box at least the old one
  have hset : ∀ {child' : NodeStore K V D} {bound : BoundingBox K D}, Enclosed child' →
      box ≤ bound → child'.box ≤ bound →
      (∀ c ∈ children.set index child', c.box ≤ bound) ∧
        ∀ c ∈ children.set index child', Enclosed c := fun henc hbound hbox =>
    ⟨forall_mem_set_of_getElem? hchild (fun _ => hbox) fun c hc => (hboxes c hc).trans hbound,
      forall_mem_set_of_getElem? hchild (fun _ => henc) hchildren⟩
  cases passed with
  | enlarged node leafBox =>
    obtain ⟨-, rfl⟩ := absorb_enlarged_eq_ok tr growth h
    obtain ⟨hnode, hnodeBox⟩ := hpassed
    obtain ⟨hsetBoxes, hsetEnclosed⟩ := hset hnode le_sup_left
      (hnodeBox.trans (sup_le_sup_right hle _))
    exact ⟨enclosed_directory.mpr ⟨⟨hsetBoxes, by simp [hcount]⟩, hsetEnclosed⟩, le_rfl⟩
  | packed node changed =>
    obtain ⟨hnode, hsame⟩ := hpassed
    rcases absorb_packed_eq_ok tr growth h with ⟨-, -, rfl⟩ | ⟨rfl, rfl⟩
    · exact ⟨enclosed_directory_packedBox (by simp [hcount])
        (forall_mem_set_of_getElem? hchild (fun _ => hnode) hchildren), fun h => by simpa using h⟩
    · obtain ⟨hsetBoxes, hsetEnclosed⟩ := hset hnode le_rfl ((hsame rfl).trans_le hle)
      exact ⟨enclosed_directory.mpr ⟨⟨hsetBoxes, by simp [hcount]⟩, hsetEnclosed⟩, fun _ => rfl⟩
  | split group1 group2 =>
    obtain ⟨-, hsplit⟩ := absorb_split_eq_ok tr growth h
    have hreset : ∀ c ∈ children.set index (group1.setValidPointer false).resetParentPointers ++
        [(group2.setLinked true).moved.resetParentPointers], Enclosed c := by
      simpa [or_imp, forall_and, hpassed.2] using
        forall_mem_set_of_getElem? hchild (fun _ => by simpa using hpassed.1) hchildren
    rcases hsplit with ⟨half1, half2, hhalves, rfl⟩ | ⟨-, rfl⟩
    · exact enclosed_splitNode tr growth hreset hhalves
    have hboxes : (children.set index group1 ++ [(group2.setLinked true).moved]).map NodeStore.box =
        (children.set index (group1.setValidPointer false).resetParentPointers ++
          [(group2.setLinked true).moved.resetParentPointers]).map NodeStore.box := by
      simp [List.map_set]
    rw [packedBox_congr hboxes]
    exact ⟨enclosed_directory_packedBox (by simp [hcount]) hreset, fun h => by simpa using h⟩

/-- An insertion of an enclosed node store into an enclosed tree leaves an enclosed tree. -/
theorem enclosed_insertNodeStore {root tree : NodeStore K V D} (hns : Enclosed ns)
    (hroot : Enclosed root) (h : insertNodeStore tr growth root ns = .ok tree) : Enclosed tree := by
  rw [insertNodeStore] at h
  obtain ⟨passed, hpassed, h⟩ := bind_eq_ok_iff.mp h
  have hpost := @insertDescend_induction _ _ _ _ _ tr growth ns (fun _ t => Enclosed t)
    (fun _ t r => InsertedEnclosed t r) (fun hold => (enclosed_directory.mp hold).2)
    (fun hold h => insertedEnclosed_insertIntoLeaf tr growth hns hold h)
    (fun hold hchild hpost h => insertedEnclosed_absorb tr growth hold hchild hpost h) 0 root
    passed hroot hpassed
  cases passed with
  | enlarged node _ =>
    obtain rfl : node = tree := by simpa using h
    exact hpost.1
  | packed node _ =>
    obtain rfl : node = tree := by simpa using h
    exact hpost.1
  | split group1 group2 =>
    obtain rfl : placeRootSplit growth group1 group2 = tree := by simpa using h
    have hboxes : [(group1.setLinked true).moved, (group2.setLinked true).moved].map NodeStore.box =
        [(group1.setLinked true).moved.resetParentPointers,
          (group2.setLinked true).moved.resetParentPointers].map NodeStore.box := by
      simp
    rw [placeRootSplit, packedBox_congr hboxes]
    exact enclosed_directory_packedBox rfl (by simpa using hpost)

/-- `rtree::insert(start, end, value)` leaves an enclosed tree enclosed, whether it returns or
throws. -/
theorem enclosed_insert {root tree : NodeStore K V D} {start «end» : Point K D} {value : V}
    (hroot : Enclosed root) (h : (insert tr growth root start «end» value).tree? = some tree) :
    Enclosed tree := by
  cases hout : insert tr growth root start «end» value with
  | returned tree' =>
    rw [hout] at h
    obtain rfl : tree' = tree := Option.some.inj h
    exact enclosed_insertNodeStore tr growth (enclosed_value _ _ _) hroot
      ((insert_eq_returned_iff growth).mp hout)
  | threw what tree' =>
    rw [hout] at h
    obtain rfl : tree' = tree := Option.some.inj h
    exact eq_of_insert_eq_threw growth hout ▸ hroot
  | failed => simp [hout, Outcome.tree?] at h

end Insert

/-! ### Erasure -/

theorem forall_mem_removeChild {P : NodeStore K V D → Prop} (hP : ∀ c, P c → P c.moved)
    {children : List (NodeStore K V D)} {index : Nat} (h : ∀ c ∈ children, P c) :
    ∀ c ∈ removeChild children index, P c := fun c hc => by
  rcases List.mem_append.mp hc with hc | hc
  · exact h c (List.mem_of_mem_take hc)
  · obtain ⟨x, hx, rfl⟩ := List.mem_map.mp hc
    exact hP x (h x (List.mem_of_mem_drop hx))

section Erase

variable [LinearOrder K] [Zero K] (tr : Trait)

/-- What one level of an erasure from the subtree `t` passes up keeps `Enclosed`: enclosed nodes,
no larger than `t` below the root, and enclosed orphans. An underfull directory makes the code
throw, and asks nothing. -/
def ErasedEnclosed (isRoot : Bool) (t : NodeStore K V D) : Erased K V D → Prop
  | .shrinking node _ => Enclosed node ∧ (isRoot = false → node.box ≤ t.box)
  | .done node => Enclosed node ∧ (isRoot = false → node.box ≤ t.box)
  | .dissolving orphans => ∀ orphan ∈ orphans, Enclosed orphan
  | .dissolved node orphans =>
    (Enclosed node ∧ (isRoot = false → node.box ≤ t.box)) ∧ ∀ orphan ∈ orphans, Enclosed orphan
  | .underfull _ => True

/-- One call of `shrink_tree_upward` on an enclosed directory with children passes up an enclosed
node no larger than it. -/
theorem erasedEnclosed_shrinkStep {isRoot : Bool} {t : NodeStore K V D} {type : DirType}
    {box : BoundingBox K D} {count : Nat} {valid linked : Bool}
    {children : List (NodeStore K V D)} {capacity : Nat} (affected : BoundingBox K D)
    (hnode : Enclosed (.directory type box count valid linked children capacity))
    (hbox : box ≤ t.box) (hne : isRoot = false → children ≠ []) :
    ErasedEnclosed isRoot t
      (shrinkStep (.directory type box count valid linked children capacity) affected) := by
  have hpacked :
      Enclosed (NodeStore.directory type box count valid linked children capacity).pack.1 ∧
      (isRoot = false →
        (NodeStore.directory type box count valid linked children capacity).pack.1.box ≤ t.box) :=
    ⟨hnode.pack, fun hroot => (packedBox_le (hne hroot)
      (by simpa using (enclosed_directory.mp hnode).1.1)).trans hbox⟩
  unfold shrinkStep
  split_ifs
  · exact hpacked
  · exact hpacked
  · exact ⟨hnode, fun _ => hbox⟩

variable (hmin : 1 ≤ tr.minNodeSize)
include hmin

/-- The leaf's level: the value is removed, and the leaf walks up or dissolves. -/
theorem erasedEnclosed_eraseFromLeaf {isRoot : Bool} {type : DirType} {box : BoundingBox K D}
    {count : Nat} {valid linked : Bool} {children : List (NodeStore K V D)} {capacity index : Nat}
    {e : Erased K V D} (hold : Enclosed (.directory type box count valid linked children capacity))
    (h : eraseFromLeaf tr isRoot type box count valid linked children capacity index = .ok e) :
    ErasedEnclosed isRoot (.directory type box count valid linked children capacity) e := by
  obtain ⟨⟨hboxes, -⟩, hchildren⟩ := enclosed_directory.mp hold
  have hremoved : ∀ c ∈ removeChild children index, Enclosed c :=
    forall_mem_removeChild (fun _ hc => by simpa using hc) hchildren
  unfold eraseFromLeaf at h
  match children[index]?, h with
  | none, h => simp [throw_eq_error] at h
  | some (.directory ..), h => simp [throw_eq_error] at h
  | some (.value ..), h =>
    simp only [throw_eq_error, pure_eq_ok] at h
    split_ifs at h <;> cases h
    · rename_i hcount hshrink
      refine erasedEnclosed_shrinkStep _ (enclosed_directory.mpr ⟨⟨forall_mem_removeChild
        (fun c hc => by simpa using hc) hboxes, by omega⟩, hremoved⟩) le_rfl fun hroot => ?_
      simp only [hroot, Bool.false_or, decide_eq_true_eq] at hshrink
      exact List.ne_nil_of_length_pos (by omega)
    · exact hremoved

/-- A directory's level: it puts back what its child passed up, walks up or packs what a dissolve
left of it, and passes the orphans on. -/
theorem erasedEnclosed_absorbErased {isRoot : Bool} {type : DirType} {box : BoundingBox K D}
    {count : Nat} {valid linked : Bool} {children : List (NodeStore K V D)} {capacity index : Nat}
    {child : NodeStore K V D} {e e' : Erased K V D}
    (hold : Enclosed (.directory type box count valid linked children capacity))
    (hchild : children[index]? = some child) (hpassed : ErasedEnclosed false child e)
    (h : absorbErased tr type box count valid linked children capacity index e = .ok e') :
    ErasedEnclosed isRoot (.directory type box count valid linked children capacity) e' := by
  obtain ⟨⟨hboxes, hcount⟩, hchildren⟩ := enclosed_directory.mp hold
  have hle : child.box ≤ box := hboxes child (List.mem_iff_getElem?.mpr ⟨index, hchild⟩)
  have hindex : index < children.length := (List.getElem?_eq_some_iff.mp hchild).1
  -- the directory with the child put back, no larger than before
  have hset : ∀ {child' : NodeStore K V D}, Enclosed child' → child'.box ≤ child.box →
      Enclosed (.directory type box count valid linked (children.set index child') capacity) :=
    fun henc hbox => enclosed_directory.mpr ⟨⟨forall_mem_set_of_getElem? hchild
      (fun _ => hbox.trans hle) hboxes, by simp [hcount]⟩,
      forall_mem_set_of_getElem? hchild (fun _ => henc) hchildren⟩
  cases e with
  | shrinking child' affected =>
    simp only [absorbErased, throw_eq_error, pure_eq_ok] at h
    split_ifs at h <;> cases h
    exact erasedEnclosed_shrinkStep _ (hset hpassed.1 (hpassed.2 rfl)) le_rfl
      fun _ => List.ne_nil_of_length_pos (by simpa using Nat.zero_lt_of_lt hindex)
  | done child' =>
    cases h
    exact ⟨hset hpassed.1 (hpassed.2 rfl), fun _ => le_rfl⟩
  | dissolving orphans =>
    simp only [absorbErased, hchild, throw_eq_error, pure_eq_ok] at h
    split_ifs at h <;> cases h
    · trivial
    rename_i hlinked hfew
    -- what is left of the directory once the dissolved leaf is removed, packed
    have hremoved : Enclosed (.directory type box (count - 1) valid linked
        (removeChild children index) capacity) :=
      enclosed_directory.mpr ⟨⟨forall_mem_removeChild (fun c hc => by simpa using hc) hboxes,
        by rw [length_removeChild hindex, hcount]⟩,
        forall_mem_removeChild (fun _ hc => by simpa using hc) hchildren⟩
    have hpack := unflagged_pack_resetParentPointers (.directory type box (count - 1) valid linked
      (removeChild children index) capacity)
    refine ⟨⟨by rw [← enclosed_unflagged, hpack, enclosed_unflagged]; exact hremoved.pack,
      fun _ => ?_⟩, hpassed⟩
    rw [← box_unflagged, hpack, box_unflagged]
    exact packedBox_le (List.ne_nil_of_length_pos (by omega)) fun b hb => by
      obtain ⟨c, hc, rfl⟩ := List.mem_map.mp hb
      exact (enclosed_directory.mp hremoved).1.1 c hc
  | dissolved child' orphans =>
    cases h
    exact ⟨⟨hset hpassed.1.1 (hpassed.1.2 rfl), fun _ => le_rfl⟩, hpassed.2⟩
  | underfull child' =>
    cases h
    trivial

/-- The erasure at position `pos` under an enclosed node store passes up what `ErasedEnclosed`
asks. -/
theorem erasedEnclosed_eraseDescend :
    ∀ (pos : List Nat) (isRoot : Bool) (t : NodeStore K V D) {e : Erased K V D}, Enclosed t →
      eraseDescend tr isRoot pos t = .ok e → ErasedEnclosed isRoot t e
  | [], isRoot, t, _, _, h => by rw [eraseDescend_nil] at h; cases h
  | [index], isRoot, .directory type box count valid linked children capacity, _, hold, h =>
    erasedEnclosed_eraseFromLeaf tr hmin hold (by rwa [eraseDescend] at h)
  | index :: next :: pos, isRoot, .directory type box count valid linked children capacity,
      _, hold, h => by
    rw [eraseDescend] at h
    obtain ⟨e₀, h₀, h⟩ := bind_eq_ok_iff.mp h
    have hindex := lt_of_eraseAt_eq_ok tr h₀
    rw [eraseAt_eq_eraseDescend tr _ index children hindex] at h₀
    exact erasedEnclosed_absorbErased tr hmin hold (List.getElem?_eq_getElem hindex)
      (erasedEnclosed_eraseDescend (next :: pos) false _
        ((enclosed_directory.mp hold).2 _ (List.getElem_mem hindex)) h₀) h
  | _ :: _, isRoot, .value .., _, _, h => by rw [eraseDescend_value] at h; cases h

end Erase

section Calls

variable [LinearOrderedCommRing K] [NeZero D] {tr : Trait} {growth : VectorGrowth}

/-- The loop that inserts the orphans again keeps an enclosed tree enclosed. -/
theorem enclosed_reinsertOrphans :
    ∀ {tree final : NodeStore K V D} (orphans : List (NodeStore K V D)), Enclosed tree →
      (∀ orphan ∈ orphans, Enclosed orphan) →
      reinsertOrphans tr growth tree orphans = .returned final → Enclosed final
  | _, _, [], htree, _, h => by cases h; exact htree
  | tree, final, orphan :: rest, htree, horphans, h => by
    rw [reinsertOrphans] at h
    cases hins : insertNodeStore tr growth tree orphan with
    | ok tree' =>
      rw [hins] at h
      exact enclosed_reinsertOrphans rest (enclosed_insertNodeStore tr growth
        (horphans orphan (List.mem_cons_self _ _)) htree hins)
        (fun o ho => horphans o (List.mem_cons_of_mem _ ho)) h
    | error failure => cases failure <;> simp [hins] at h

/-- With `min_node_size ≥ 1`, an `rtree::erase` that returns leaves an enclosed tree enclosed,
whichever way it went: along `shrink_tree_upward`, or through a dissolve and the reinsertion of the
orphans. -/
theorem enclosed_erase (hmin : 1 ≤ tr.minNodeSize) {root tree : NodeStore K V D} {pos : List Nat}
    (hroot : Enclosed root) (h : erase tr growth root pos = .returned tree) : Enclosed tree := by
  unfold erase at h
  cases hdescend : eraseDescend tr true pos root with
  | error failure => cases failure <;> simp [hdescend] at h
  | ok e =>
    have hpost := erasedEnclosed_eraseDescend tr hmin pos true root hroot hdescend
    rw [hdescend] at h
    cases e with
    | shrinking => cases h; exact hpost.1
    | done => cases h; exact hpost.1
    | dissolving => cases h
    | dissolved tree' orphans =>
      exact enclosed_reinsertOrphans orphans.reverse hpost.1.1
        (fun o ho => hpost.2 o (List.mem_reverse.mp ho)) h
    | underfull => cases h

end Calls

end Mdds.RTree

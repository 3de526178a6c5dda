import Mdds.RTree.Refinement
import Mdds.RTree.Observers

/-!
# The extent of an `rtree`

`get_root_extent` returns the root's box. A caller reads it as the extent of the stored boxes:
every stored box lies in it, and nothing smaller holds them all.

The first half holds on every tree the public calls reach, erasures that dissolve a leaf
included: where every child's box lies in its directory's box, each value's box lies in the root's
(`le_box_of_mem_entries`), and the calls keep that nesting (`Tracks.enclosed`), so every entry of
the bag that `Tracks` pairs with the tree lies in the extent (`le_getRootExtent_of_mem_bag`).

The second half needs the tight boxes of invariant I. Where every directory has the bounding box
of its children's boxes and has children, a box holds a subtree's box exactly when it holds the
box of every value below it (`box_le_iff_of_tight`). Invariant I gives both below a root that
stores a value, so the extent is then the least box holding every stored box
(`getRootExtent_isLUB`). A dissolving erasure can lose the tight boxes
(`erase_dissolve_keeps_ancestor_box`), and the extent is then only an upper bound.
-/

set_option autoImplicit false
set_option relaxedAutoImplicit false

namespace Mdds.RTree

open NodeStore BoundingBox

variable {K V : Type} {D : Nat}

/-- `rtree::get_root_extent`: the box of the root node store. -/
def getRootExtent (root : NodeStore K V D) : BoundingBox K D :=
  root.box

/-! ### An upper bound on every run -/

/-- Where every child's box lies in its directory's box, every value's box lies in the root's. -/
theorem le_box_of_mem_entries [LinearOrder K] {t : NodeStore K V D} (hnested : Nested t)
    {e : BoundingBox K D × V} (he : e ∈ t.entries) : e.1 ≤ t.box := by
  rw [← map_snd_valueNodes [] t] at he
  obtain ⟨x, hx, rfl⟩ := List.mem_map.mp he
  exact le_box_of_mem_valueNodes [] t hnested x hx

/-- With `min_node_size ≥ 1`, `get_root_extent` of every tree the calls reach from the
constructor's holds the box of every entry of the bag the same calls make: the box of every value
stored and not erased. -/
theorem le_getRootExtent_of_mem_bag [LinearOrderedCommRing K] [NeZero D] [DecidableEq V]
    {tr : Trait} {growth : VectorGrowth} (hmin : 1 ≤ tr.minNodeSize) {root : NodeStore K V D}
    {bag : Multiset (BoundingBox K D × V)} (h : Tracks tr growth root bag)
    {e : BoundingBox K D × V} (he : e ∈ bag) : e.1 ≤ getRootExtent root := by
  rw [← h.entries_eq, Multiset.mem_coe] at he
  exact le_box_of_mem_entries (h.enclosed hmin).nested he

/-- Two insertions: the extent holds the box `[2, 3]` of the second value. -/
theorem le_getRootExtent_of_mem_bag_twoInsertions :
    ∃ tree : NodeStore Int Nat 1,
      Tracks ⟨1, 2, 100, by decide⟩ .libstdcxx tree
        ((⟨⟨fun _ => 2⟩, ⟨fun _ => 3⟩⟩, 1) ::ₘ (⟨⟨fun _ => 0⟩, ⟨fun _ => 1⟩⟩, 0) ::ₘ 0) ∧
      (⟨⟨fun _ => 2⟩, ⟨fun _ => 3⟩⟩, 1) ∈
        ((⟨⟨fun _ => 2⟩, ⟨fun _ => 3⟩⟩, 1) ::ₘ (⟨⟨fun _ => 0⟩, ⟨fun _ => 1⟩⟩, 0) ::ₘ
          0 : Multiset (BoundingBox Int 1 × Nat)) ∧
      (⟨⟨fun _ => 2⟩, ⟨fun _ => 3⟩⟩ : BoundingBox Int 1) ≤ getRootExtent tree := by
  have h : Tracks (⟨1, 2, 100, by decide⟩ : Trait) .libstdcxx (_ : NodeStore Int Nat 1) _ :=
    .insert ⟨fun _ => 2⟩ ⟨fun _ => 3⟩ 1 (.insert ⟨fun _ => 0⟩ ⟨fun _ => 1⟩ 0 .empty (by rfl))
      (by rfl)
  have hmem := Multiset.mem_cons_self (⟨⟨fun _ => 2⟩, ⟨fun _ => 3⟩⟩, 1)
    ((⟨⟨fun _ => 0⟩, ⟨fun _ => 1⟩⟩, 0) ::ₘ 0 : Multiset (BoundingBox Int 1 × Nat))
  exact ⟨_, h, hmem, le_getRootExtent_of_mem_bag (by decide) h hmem⟩

/-! ### The least bound under invariant I -/

section Tight

variable [LinearOrder K] [Zero K]

mutual

/-- Where every directory is tight and has children, a box holds a subtree's box exactly when it
holds the box of every value below it. -/
theorem box_le_iff_of_tight :
    ∀ (t : NodeStore K V D), Tight t →
      AllNodes (fun ns => ns.isDirectory → 0 < ns.children.length) t →
      ∀ bb, t.box ≤ bb ↔ ∀ e ∈ t.entries, e.1 ≤ bb
  | .value .., _, _, bb => by simp [entries]
  | .directory type box count valid linked children capacity, htight, hfilled, bb => by
    obtain ⟨hbox, htights⟩ := tight_directory.mp htight
    obtain ⟨hpos, hfilleds⟩ := allNodes_directory.mp hfilled
    have hpos : 0 < children.length := hpos rfl
    rw [box_directory, hbox hpos, entries, ← box_le_iff_of_tightAll children htights hfilleds bb]
    refine ⟨fun h c hc => (le_packedBox (List.mem_map_of_mem _ hc)).trans h,
      fun h => packedBox_le (List.ne_nil_of_length_pos hpos) fun b hb => ?_⟩
    obtain ⟨c, hc, rfl⟩ := List.mem_map.mp hb
    exact h c hc

/-- `box_le_iff_of_tight` for a child vector: a box holds every child's box exactly when it holds
the box of every value below them. -/
theorem box_le_iff_of_tightAll :
    ∀ (children : List (NodeStore K V D)), (∀ c ∈ children, Tight c) →
      (∀ c ∈ children, AllNodes (fun ns => ns.isDirectory → 0 < ns.children.length) c) →
      ∀ bb, (∀ c ∈ children, c.box ≤ bb) ↔ ∀ e ∈ entriesAll children, e.1 ≤ bb
  | [], _, _, bb => by simp [entriesAll]
  | c :: rest, htight, hfilled, bb => by
    rw [List.forall_mem_cons, entriesAll, List.forall_mem_append,
      box_le_iff_of_tight c (htight c (List.mem_cons_self _ _))
        (hfilled c (List.mem_cons_self _ _)) bb,
      box_le_iff_of_tightAll rest (fun c' hc' => htight c' (List.mem_cons_of_mem _ hc'))
        (fun c' hc' => hfilled c' (List.mem_cons_of_mem _ hc')) bb]

end

/-- With `min_node_size ≥ 1`, on a tree that keeps invariant I and stores a value,
`get_root_extent` is the least box that holds the box of every stored value. -/
theorem getRootExtent_isLUB {tr : Trait} (hmin : 1 ≤ tr.minNodeSize) {root : NodeStore K V D}
    (hinv : Invariant tr root) (hentries : root.entries ≠ []) :
    IsLUB {bb | ∃ v, (bb, v) ∈ root.entries} (getRootExtent root) := by
  obtain ⟨height, hshaped⟩ := exists_shaped_of_invariant hmin hinv
  have hiff := box_le_iff_of_tight root hinv.2.2.1
    (allNodes_children_ne_nil_of_shaped hmin hshaped hentries)
  exact ⟨fun bb ⟨v, hv⟩ => (hiff _).mp le_rfl (bb, v) hv,
    fun bb hbb => (hiff bb).mpr fun e he => hbb ⟨e.2, he⟩⟩

end Tight

/-- Three points inserted with `max_node_size = 2`: the root's two leaves hold `0, 1` and `2`, and
the extent `[0, 2]` is the least box holding all three. -/
theorem getRootExtent_isLUB_threePoints :
    ∃ tree, insertAll ⟨1, 2, 100, by decide⟩ .libstdcxx (empty : NodeStore Int Nat 1)
        ([(⟨fun _ => 0⟩, ⟨fun _ => 0⟩, 0), (⟨fun _ => 1⟩, ⟨fun _ => 1⟩, 1),
          (⟨fun _ => 2⟩, ⟨fun _ => 2⟩, 2)] : List (Point Int 1 × Point Int 1 × Nat)) =
          .returned tree ∧
      Invariant ⟨1, 2, 100, by decide⟩ tree ∧ tree.entries ≠ [] ∧
      IsLUB {bb | ∃ v, (bb, v) ∈ tree.entries} (getRootExtent tree) := by
  refine ⟨_, rfl, ?hinv, ?hentries, getRootExtent_isLUB (by decide) ?hinv ?hentries⟩
  · decide
  · decide

end Mdds.RTree

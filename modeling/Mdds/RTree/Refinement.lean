import Mdds.RTree.Enclosed

/-!
# The `rtree` as a bag of boxed values

What an `rtree` is for: it stores values under boxes, any number of copies of each, and a point
search gives the stored values whose box holds the point. The abstract store is a multiset of
entries; storing adds an entry, erasing a value read from a search result takes one copy of its
entry out, and a query filters the entries by their box.

The code's side of a query is the loop over `search(pt)` from `begin()` to `end()`, whose
`operator*` asserts that the position holds a value node and reads its box and value
(`updateCurrentNode`, `searchEntries`). When every child's box lies in its directory's box, that
loop reads exactly the entries whose box holds the point (`searchEntries_eq_filter`).

`Tracks` pairs each tree that the public calls reach from the constructor's with the bag the same
calls make of the empty bag: an insertion that returns adds its entry, one that throws leaves the
tree and the bag as they were, and an erasure that returns, of the value an iterator reads, takes
that entry out, whether it walked up with `shrink_tree_upward` or dissolved a leaf directory. Each
call moves the entries as it moves the bag (`entries_insert_returned`, `entries_erase_returned`),
so the entries are the bag (`Tracks.entries_eq`). Each call keeps the children inside their
directory's box (`Tracks.enclosed`), though not invariant I, so every query on the tree answers as
the bag does (`search_refines_bag`).
-/

set_option autoImplicit false
set_option relaxedAutoImplicit false

namespace Mdds.RTree

open NodeStore BoundingBox

variable {K V : Type} {D : Nat}

/-! ### Reading a search result -/

/-- `const_iterator::update_current_node`, which `operator*` calls: the box and value of the value
node at `pos`, and `none` where the `assert` that it is a value node fails. -/
def updateCurrentNode (root : NodeStore K V D) (pos : List Nat) : Option (BoundingBox K D × V) :=
  match root.get? pos with
  | some (.value bb _ v) => some (bb, v)
  | _ => none

/-- The entries a loop from `begin()` to `end()` of `search(pt)` reads, each through `operator*`. -/
def searchEntries [LinearOrder K] (root : NodeStore K V D) (pt : Point K D) :
    Option (List (BoundingBox K D × V)) :=
  (search root pt).mapM (updateCurrentNode root)

theorem updateCurrentNode_of_mem_valueNodes {root : NodeStore K V D}
    {e : List Nat × BoundingBox K D × V} (he : e ∈ root.valueNodes []) :
    updateCurrentNode root e.1 = some e.2 := by
  obtain ⟨rest, hpos, linked, hget⟩ := get?_of_mem_valueNodes root he
  rw [hpos, List.nil_append, updateCurrentNode, hget]

theorem mapM_map_fst_eq_some {α β : Type} {f : α → Option β} :
    ∀ {l : List (α × β)}, (∀ e ∈ l, f e.1 = some e.2) →
      (l.map Prod.fst).mapM f = some (l.map Prod.snd)
  | [], _ => rfl
  | e :: rest, h => by
    rw [List.map_cons, List.mapM_cons, h e (List.mem_cons_self _ _),
      mapM_map_fst_eq_some fun e' he' => h e' (List.mem_cons_of_mem _ he')]
    rfl

/-- When every child's box lies in its directory's box, the loop over `search(pt)` reads the
tree's entries whose box holds `pt`, in the tree's order, and no `assert` of `operator*` fails. -/
theorem searchEntries_eq_filter [LinearOrder K] {root : NodeStore K V D}
    (hnested : Nested root) (pt : Point K D) :
    searchEntries root pt = some (root.entries.filter fun e => decide (e.1.ContainsPoint pt)) := by
  rw [searchEntries, search, searchDescend_eq pt [] root hnested,
    mapM_map_fst_eq_some fun e he =>
      updateCurrentNode_of_mem_valueNodes (List.mem_of_mem_filter he),
    ← map_snd_valueNodes [] root, List.filter_map]
  rfl

/-! ### Runs of calls and the bag they make -/

section Calls

variable [LinearOrderedCommRing K] [NeZero D] {tr : Trait} {growth : VectorGrowth}

/-- An insertion that returns adds its entry to the tree's. -/
theorem entries_insert_returned {root tree : NodeStore K V D} {start «end» : Point K D} {value : V}
    (h : insert tr growth root start «end» value = .returned tree) :
    (tree.entries : Multiset (BoundingBox K D × V)) = (⟨start, «end»⟩, value) ::ₘ root.entries :=
  Multiset.coe_eq_coe.mpr (perm_insertNodeStore tr growth (insert_eq_returned_iff growth |>.mp h))

/-- An erasure that returns takes the entry the iterator reads out of the tree's. -/
theorem entries_erase_returned {root tree : NodeStore K V D} {pos : List Nat}
    {entry : BoundingBox K D × V} (hentry : updateCurrentNode root pos = some entry)
    (h : erase tr growth root pos = .returned tree) :
    (root.entries : Multiset (BoundingBox K D × V)) = entry ::ₘ tree.entries := by
  obtain ⟨bb, linked, v, hget, hperm⟩ := perm_erase_returned h
  rw [updateCurrentNode, hget, Option.some.injEq] at hentry
  exact hentry ▸ Multiset.coe_eq_coe.mpr hperm

variable [DecidableEq V]

/-- The trees the calls reach from the constructor's, each with the bag of entries the same calls
make of the empty bag. -/
inductive Tracks (tr : Trait) (growth : VectorGrowth) :
    NodeStore K V D → Multiset (BoundingBox K D × V) → Prop
  | empty : Tracks tr growth empty 0
  | insert {root tree : NodeStore K V D} {bag : Multiset (BoundingBox K D × V)}
      (start «end» : Point K D) (value : V) :
      Tracks tr growth root bag → insert tr growth root start «end» value = .returned tree →
      Tracks tr growth tree ((⟨start, «end»⟩, value) ::ₘ bag)
  | threw {root tree : NodeStore K V D} {bag : Multiset (BoundingBox K D × V)}
      (start «end» : Point K D) (value : V) (what : String) :
      Tracks tr growth root bag → insert tr growth root start «end» value = .threw what tree →
      Tracks tr growth tree bag
  | erase {root tree : NodeStore K V D} {bag : Multiset (BoundingBox K D × V)} (pos : List Nat)
      (entry : BoundingBox K D × V) :
      Tracks tr growth root bag → updateCurrentNode root pos = some entry →
      erase tr growth root pos = .returned tree → Tracks tr growth tree (bag.erase entry)

/-- Every tree that `insertAll` reaches from a tracked tree is tracked: each insertion that returns
adds its entry to the bag, and each that throws leaves it as it was. -/
theorem Tracks.insertAll {root tree : NodeStore K V D} {bag : Multiset (BoundingBox K D × V)}
    (h : Tracks tr growth root bag) :
    ∀ {entries : List (Point K D × Point K D × V)},
      RTree.insertAll tr growth root entries = .returned tree → ∃ bag', Tracks tr growth tree bag'
  | [], hrun => by
    rw [RTree.insertAll, Outcome.returned.injEq] at hrun
    exact hrun ▸ ⟨bag, h⟩
  | (start, «end», v) :: rest, hrun => by
    rw [RTree.insertAll] at hrun
    cases hins : RTree.insert tr growth root start «end» v with
    | returned next => rw [hins] at hrun; exact (h.insert start «end» v hins).insertAll hrun
    | threw what next => rw [hins] at hrun; exact (h.threw start «end» v what hins).insertAll hrun
    | failed failure => rw [hins] at hrun; cases hrun

/-- With `min_node_size ≥ 1`, every tracked tree keeps its children inside their directory's box. -/
theorem Tracks.enclosed (hmin : 1 ≤ tr.minNodeSize) {root : NodeStore K V D}
    {bag : Multiset (BoundingBox K D × V)} (h : Tracks tr growth root bag) : Enclosed root := by
  induction h with
  | empty => exact enclosed_directory.mpr ⟨⟨by simp, rfl⟩, by simp⟩
  | insert start «end» value _ hins ih => exact enclosed_insert tr growth ih (by rw [hins]; rfl)
  | threw start «end» value _ _ hins ih => exact enclosed_insert tr growth ih (by rw [hins]; rfl)
  | erase pos entry _ _ herase ih => exact enclosed_erase hmin ih herase

/-- The entries of a tracked tree are its bag. -/
theorem Tracks.entries_eq {root : NodeStore K V D}
    {bag : Multiset (BoundingBox K D × V)} (h : Tracks tr growth root bag) :
    (root.entries : Multiset (BoundingBox K D × V)) = bag := by
  induction h with
  | empty => rfl
  | insert start «end» value _ hins ih => rw [entries_insert_returned hins, ih]
  | threw start «end» value what _ hins ih => rw [eq_of_insert_eq_threw growth hins, ih]
  | erase pos entry _ hentry herase ih =>
    rw [← ih, entries_erase_returned hentry herase, Multiset.erase_cons_head]

/-- With `min_node_size ≥ 1`, every tree the calls reach from the constructor's implements the bag
the same calls make: its entries are the bag, and the loop over `search(pt)` reads exactly the
bag's entries whose box holds `pt`, each stored copy once. -/
theorem search_refines_bag (hmin : 1 ≤ tr.minNodeSize) {root : NodeStore K V D}
    {bag : Multiset (BoundingBox K D × V)} (h : Tracks tr growth root bag) (pt : Point K D) :
    (root.entries : Multiset (BoundingBox K D × V)) = bag ∧
      ∃ found, searchEntries root pt = some found ∧
        (found : Multiset (BoundingBox K D × V)) = bag.filter fun e => e.1.ContainsPoint pt := by
  have hentries := h.entries_eq
  refine ⟨hentries, _, searchEntries_eq_filter (h.enclosed hmin).nested pt, ?_⟩
  rw [← hentries, Multiset.filter_coe]

end Calls

/-- Under a growth that reserves eight more places, seven insertions leave leaves of keys `0, 1`,
`2, 3` and `4, 5, 6`, and erasing key `0` dissolves its leaf and inserts the orphan of key `1`
again: the tree still answers the search at key `1` as the bag does. -/
theorem search_refines_bag_dissolve :
    ∃ (tree : NodeStore Int Nat 1) (bag : Multiset (BoundingBox Int 1 × Nat)),
      Tracks ⟨2, 4, 100, by decide⟩ ⟨fun c => c + 8, fun c => Nat.lt_add_of_pos_right (by decide)⟩
        tree bag ∧
      ((tree.entries : Multiset (BoundingBox Int 1 × Nat)) = bag ∧
        ∃ found, searchEntries tree ⟨fun _ => 1⟩ = some found ∧
          (found : Multiset (BoundingBox Int 1 × Nat)) =
            bag.filter fun e => e.1.ContainsPoint ⟨fun _ => 1⟩) := by
  obtain ⟨bag, hrun⟩ := Tracks.empty.insertAll (show insertAll ⟨2, 4, 100, by decide⟩
    ⟨fun c => c + 8, fun c => Nat.lt_add_of_pos_right (by decide)⟩ (empty : NodeStore Int Nat 1)
    ((List.range 7).map fun (key : Nat) =>
      ((⟨fun _ => key⟩, ⟨fun _ => key⟩, key) : Point Int 1 × Point Int 1 × Nat)) =
        .returned _ from by rfl)
  have h := hrun.erase [0, 0] _ rfl (show erase _ _ _ [0, 0] = .returned _ from by rfl)
  exact ⟨_, _, h, search_refines_bag (by decide) h _⟩

end Mdds.RTree

import Mdds.RTree.Invariant

/-!
# The exactness of `search`

`rtree::search(pt)` collects, with `search_descend`, the value nodes whose box holds `pt`, and
skips every subtree whose node's box does not hold it. `valueNodes` lists the value nodes of a
tree, left to right, with their positions, boxes and values: its boxes and values are the tree's
`entries` (`map_snd_valueNodes`), each position leads to its value node
(`get?_of_mem_valueNodes`), and no position occurs twice (`nodup_valueNodes`).

When every child's box lies in its directory's box (`Nested`, which tightness gives), the pruning
hides no value: `search` returns the positions of exactly the value nodes whose box holds `pt`,
left to right, each once (`search_eq_matching_values`).

Scope. A search result is the list of the positions the code's `const_search_results` points at.
-/

set_option autoImplicit false
set_option relaxedAutoImplicit false

namespace Mdds.RTree

open NodeStore BoundingBox

variable {K V : Type} {D : Nat}

namespace NodeStore

/-! ### The value nodes of a tree -/

mutual

/-- The value nodes under a node store at position `pos`, left to right, each with its position,
its box and its value. -/
def valueNodes (pos : List Nat) : NodeStore K V D → List (List Nat × BoundingBox K D × V)
  | .directory _ _ _ _ _ children _ => valueNodesFrom pos 0 children
  | .value box _ v => [(pos, box, v)]

/-- `valueNodes` of the children of a directory at `pos`, from child `index` on. -/
def valueNodesFrom (pos : List Nat) (index : Nat) :
    List (NodeStore K V D) → List (List Nat × BoundingBox K D × V)
  | [] => []
  | child :: rest => valueNodes (pos ++ [index]) child ++ valueNodesFrom pos (index + 1) rest

end

mutual

/-- Without their positions, the value nodes are the tree's entries. -/
theorem map_snd_valueNodes (pos : List Nat) :
    ∀ ns : NodeStore K V D, (ns.valueNodes pos).map Prod.snd = ns.entries
  | .directory _ _ _ _ _ children _ => map_snd_valueNodesFrom pos 0 children
  | .value .. => rfl

theorem map_snd_valueNodesFrom (pos : List Nat) (index : Nat) :
    ∀ children : List (NodeStore K V D),
      (valueNodesFrom pos index children).map Prod.snd = entriesAll children
  | [] => rfl
  | child :: rest => by
    rw [valueNodesFrom, entriesAll, List.map_append, map_snd_valueNodes,
      map_snd_valueNodesFrom pos (index + 1) rest]

end

mutual

/-- Each value node under a node store at `pos` lies at `pos` followed by a path that leads from
the node store to it. -/
theorem get?_of_mem_valueNodes {pos : List Nat} :
    ∀ (ns : NodeStore K V D) {e : List Nat × BoundingBox K D × V}, e ∈ ns.valueNodes pos →
      ∃ rest, e.1 = pos ++ rest ∧ ∃ linked, ns.get? rest = some (.value e.2.1 linked e.2.2)
  | .directory _ _ _ _ _ children _, e, he => by
    obtain ⟨j, rest, -, hpos, hget⟩ := get?_of_mem_valueNodesFrom children he
    exact ⟨j :: rest, hpos, by simpa [get?] using hget⟩
  | .value box linked v, e, he => by
    obtain rfl : e = (pos, box, v) := List.mem_singleton.mp he
    exact ⟨[], by simp, linked, rfl⟩

/-- Each value node under the children of a directory at `pos`, from child `index` on, lies under
one of them, child `j`. -/
theorem get?_of_mem_valueNodesFrom {pos : List Nat} {index : Nat} :
    ∀ (children : List (NodeStore K V D)) {e : List Nat × BoundingBox K D × V},
      e ∈ valueNodesFrom pos index children →
      ∃ j rest, index ≤ j ∧ e.1 = pos ++ j :: rest ∧
        ∃ linked, (children[j - index]?).bind (get? · rest) = some (.value e.2.1 linked e.2.2)
  | [], _, he => by simp [valueNodesFrom] at he
  | child :: rest, e, he => by
    rcases List.mem_append.mp he with he | he
    · obtain ⟨path, hpos, hget⟩ := get?_of_mem_valueNodes child he
      exact ⟨index, path, le_rfl, by simp [hpos], by simpa using hget⟩
    · obtain ⟨j, path, hj, hpos, hget⟩ := get?_of_mem_valueNodesFrom rest he
      refine ⟨j, path, by omega, hpos, ?_⟩
      rwa [show j - index = j - (index + 1) + 1 by omega, List.getElem?_cons_succ]

end

/-- The positions of the value nodes of a tree are all different. -/
theorem nodup_valueNodes (pos : List Nat) (ns : NodeStore K V D) :
    ((ns.valueNodes pos).map Prod.fst).Nodup := by
  cases ns with
  | directory _ _ _ _ _ children _ => exact nodup_valueNodesFrom pos 0 children
  | value => exact List.nodup_singleton _
where
  nodup_valueNodesFrom (pos : List Nat) (index : Nat) :
      ∀ children : List (NodeStore K V D),
        ((valueNodesFrom pos index children).map Prod.fst).Nodup
    | [] => List.nodup_nil
    | child :: rest => by
      rw [valueNodesFrom, List.map_append, List.nodup_append]
      refine ⟨nodup_valueNodes _ child, nodup_valueNodesFrom pos (index + 1) rest, ?_⟩
      -- the first child's value nodes lie under `pos ++ [index]`, the others' further right
      simp only [List.Disjoint, List.mem_map]
      rintro _ ⟨e, he, rfl⟩ ⟨e', he', hsame⟩
      obtain ⟨path, hpos, -⟩ := get?_of_mem_valueNodes child he
      obtain ⟨j, path', hj, hpos', -⟩ := get?_of_mem_valueNodesFrom rest he'
      rw [hpos, hpos', List.append_assoc, List.singleton_append, List.append_cancel_left_eq,
        List.cons.injEq] at hsame
      omega

end NodeStore

/-! ### Search -/

section Search

variable [LinearOrder K]

/-- Every child's box lies in its directory's box. -/
def Nested (root : NodeStore K V D) : Prop :=
  AllNodes (fun ns => ∀ child ∈ ns.children, child.box ≤ ns.box) root

theorem nested_directory {type : DirType} {box : BoundingBox K D} {count : Nat}
    {valid linked : Bool} {children : List (NodeStore K V D)} {capacity : Nat} :
    Nested (.directory type box count valid linked children capacity) ↔
      (∀ child ∈ children, child.box ≤ box) ∧ ∀ child ∈ children, Nested child := by
  rw [Nested, allNodes_directory]
  rfl

/-- A tight tree is nested: a directory with children has their packed box. -/
theorem nested_of_tight [Zero K] {root : NodeStore K V D} (htight : Tight root) : Nested root :=
  htight.mono fun ns hns child hchild => by
    cases ns with
    | value => simp at hchild
    | directory =>
      have htop := hns rfl (List.length_pos_of_mem hchild)
      simp only [box_directory, children_directory] at htop hchild ⊢
      exact htop ▸ le_packedBox (List.mem_map_of_mem _ hchild)

mutual

/-- In a nested tree, the box of every value node lies in the box of each node store above it. -/
theorem le_box_of_mem_valueNodes (pos : List Nat) :
    ∀ (ns : NodeStore K V D), Nested ns → ∀ e ∈ ns.valueNodes pos, e.2.1 ≤ ns.box
  | .directory _ box _ _ _ children _, hnest, e, he =>
    le_of_mem_valueNodesFrom pos children (nested_directory.mp hnest).1
      (nested_directory.mp hnest).2 e he
  | .value .., _, e, he => by
    obtain rfl := List.mem_singleton.mp he
    exact le_rfl

theorem le_of_mem_valueNodesFrom (pos : List Nat) {index : Nat} {bb : BoundingBox K D} :
    ∀ (children : List (NodeStore K V D)), (∀ child ∈ children, child.box ≤ bb) →
      (∀ child ∈ children, Nested child) →
      ∀ e ∈ valueNodesFrom pos index children, e.2.1 ≤ bb
  | [], _, _, e, he => by simp [valueNodesFrom] at he
  | child :: rest, hle, hnest, e, he => by
    rcases List.mem_append.mp he with he | he
    · exact (le_box_of_mem_valueNodes _ child (hnest child (by simp)) e he).trans
        (hle child (by simp))
    · exact le_of_mem_valueNodesFrom pos rest (fun c hc => hle c (by simp [hc]))
        (fun c hc => hnest c (by simp [hc])) e he

end

mutual

/-- `search_descend` on a nested subtree at `pos` gives the positions of its value nodes whose box
holds `pt`, left to right. -/
theorem searchDescend_eq (pt : Point K D) :
    ∀ (pos : List Nat) (ns : NodeStore K V D), Nested ns →
      ns.searchDescend pt pos =
        ((ns.valueNodes pos).filter fun e => decide (e.2.1.ContainsPoint pt)).map Prod.fst
  | pos, .directory type box count valid linked children capacity, hnest => by
    rw [searchDescend, valueNodes]
    split_ifs with hpt
    · exact searchChildren_eq pt pos 0 children (nested_directory.mp hnest).2
    -- a directory whose box misses `pt` has no value node below it whose box holds `pt`
    · refine (List.map_eq_nil_iff.mpr (List.filter_eq_nil_iff.mpr fun e he => ?_)).symm
      have hle := le_box_of_mem_valueNodes pos _ hnest e (by rwa [valueNodes])
      exact fun hin => hpt (containsPoint_of_le hle (of_decide_eq_true hin))
  | pos, .value box linked v, _ => by
    by_cases hpt : box.ContainsPoint pt <;> simp [searchDescend, valueNodes, hpt]

/-- `search_descend` on the children of a directory at `pos`, from child `index` on. -/
theorem searchChildren_eq (pt : Point K D) :
    ∀ (pos : List Nat) (index : Nat) (children : List (NodeStore K V D)),
      (∀ child ∈ children, Nested child) →
      searchChildren pt pos index children =
        ((valueNodesFrom pos index children).filter fun e => decide (e.2.1.ContainsPoint pt)).map
          Prod.fst
  | _, _, [], _ => rfl
  | pos, index, child :: rest, hnest => by
    rw [searchChildren, valueNodesFrom, List.filter_append, List.map_append,
      searchDescend_eq pt _ child (hnest child (by simp)),
      searchChildren_eq pt pos (index + 1) rest fun c hc => hnest c (by simp [hc])]

end

/-- On a tight tree, `search(pt)` returns the positions of exactly the value nodes whose box holds
`pt`, left to right, and none twice: pruning on directory boxes hides no value. -/
theorem search_eq_matching_values [Zero K] (root : NodeStore K V D) (pt : Point K D)
    (htight : Tight root) :
    search root pt =
        ((root.valueNodes []).filter fun e => decide (e.2.1.ContainsPoint pt)).map Prod.fst ∧
      (search root pt).Nodup := by
  have hsearch := searchDescend_eq pt [] root (nested_of_tight htight)
  refine ⟨hsearch, ?_⟩
  rw [search, hsearch]
  exact (nodup_valueNodes [] root).sublist ((List.filter_sublist _).map _)

/-- On `deepTree`, the search at key `6` finds the value of key `6` alone. -/
theorem search_deepTree_six :
    Tight deepTree ∧
      (search deepTree ⟨fun _ => 6⟩ =
          ((deepTree.valueNodes []).filter
            fun e => decide (e.2.1.ContainsPoint ⟨fun _ => 6⟩)).map Prod.fst ∧
        (search deepTree ⟨fun _ => 6⟩).Nodup) :=
  ⟨by decide, search_eq_matching_values deepTree ⟨fun _ => 6⟩ (by decide)⟩

end Search

end Mdds.RTree

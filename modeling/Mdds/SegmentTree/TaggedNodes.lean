import Mdds.SegmentTree.Basic

/-!
# The tagged-node map and `remove`

`m_tagged_node_map` records, for each handle, the nodes `descend_tree_and_mark` tagged with it,
so that `remove` reaches every node carrying the handle through the map alone. That needs the
invariant `Tagged`: every node whose data chain or label list holds a handle is recorded under
that handle. It holds in every state the public calls reach (`Reachable`): `insert` does not touch
the tree, `build_tree` tags a fresh tree and records each node as it tags it, with the node list
of a handle shared by all of its segments (`tagged_buildTree`), and `remove` only takes handles
off chains (`Tagged.remove`).

So `remove(h)` is the abstract removal: every chain loses `h` and keeps every other handle
(`remove_deletes_exactly_handle`).
-/

set_option autoImplicit false
set_option relaxedAutoImplicit false

namespace Mdds.SegmentTree

variable {K H : Type}

/-- Every node whose chain holds a handle is recorded under that handle in the tagged-node
map. -/
def Tagged (chains : NodeRef → List H) (taggedNodeMap : H → List NodeRef) : Prop :=
  ∀ h node, h ∈ chains node → node ∈ taggedNodeMap h

theorem tagged_empty :
    Tagged (empty : SegmentTree K H).chains (empty : SegmentTree K H).taggedNodeMap :=
  fun _ _ hmem => absurd hmem (List.not_mem_nil _)

theorem Tagged.insert [LinearOrder K] {t : SegmentTree K H} (h : Tagged t.chains t.taggedNodeMap)
    (beginKey endKey : K) (pdata : H) :
    Tagged (t.insert beginKey endKey pdata).chains
      (t.insert beginKey endKey pdata).taggedNodeMap := by
  unfold SegmentTree.insert
  split_ifs
  exacts [h, h]

/-! ### Tagging -/

/-- A chain after `push_back` holds what it held and, at the tagged node, the new handle. -/
theorem mem_pushBack {chains : NodeRef → List H} {node other : NodeRef} {pdata h : H} :
    h ∈ pushBack chains node pdata other ↔
      h ∈ chains other ∨ other = node ∧ h = pdata := by
  by_cases hother : other = node
  · subst hother
    simp [pushBack]
  · simp [pushBack, Function.update_noteq hother, hother]

section Tagging

variable [DecidableEq H]

/-- Tagging for handle `pdata` with the node list `acc.2` keeps the map, updated with that
list, recording every chain. -/
def MarkInv (taggedNodeMap : H → List NodeRef) (pdata : H)
    (acc : (NodeRef → List H) × List NodeRef) : Prop :=
  Tagged acc.1 (Function.update taggedNodeMap pdata acc.2)

/-- Tagging a node appends it to the node list, as the chain it tags gains the handle. -/
theorem MarkInv.tag {taggedNodeMap : H → List NodeRef} {pdata : H} {chains : NodeRef → List H}
    {plist : List NodeRef} (h : MarkInv taggedNodeMap pdata (chains, plist)) (node : NodeRef) :
    MarkInv taggedNodeMap pdata (pushBack chains node pdata, plist ++ [node]) := by
  intro handle other hmem
  show other ∈ Function.update taggedNodeMap pdata (plist ++ [node]) handle
  rcases mem_pushBack.mp hmem with hold | ⟨rfl, rfl⟩
  · have hrecorded := h handle other hold
    by_cases hhandle : handle = pdata
    · subst hhandle
      rw [Function.update_same] at hrecorded ⊢
      exact List.mem_append_left _ hrecorded
    · rwa [Function.update_noteq hhandle] at hrecorded ⊢
  · simp

/-- `descend_tree_and_mark` records every node it tags in the node list of the handle. -/
theorem markInv_descendTreeAndMark [LinearOrder K] (leaves : List K) (data : SegmentData K H)
    (taggedNodeMap : H → List NodeRef) :
    ∀ (node : NodePtr K) (acc : (NodeRef → List H) × List NodeRef),
      MarkInv taggedNodeMap data.pdata acc →
      MarkInv taggedNodeMap data.pdata (descendTreeAndMark leaves data node acc)
  | .null, _, h => h
  | .leaf index key, (chains, plist), h => by
    -- each branch tags the leaf, the leaf before it, or nothing
    simp only [descendTreeAndMark]
    repeat' split
    all_goals first | exact h.tag _ | exact h
  | .nonleaf id low high left right, (chains, plist), h => by
    simp only [descendTreeAndMark]
    split_ifs
    · exact h
    · exact h.tag _
    · exact markInv_descendTreeAndMark leaves data taggedNodeMap right _
        (markInv_descendTreeAndMark leaves data taggedNodeMap left _ h)

/-- The loop of `build_tree` over the segments keeps the map recording every chain. -/
theorem tagged_markSegments [LinearOrder K] (leaves : List K) (root : NodePtr K) :
    ∀ (segments : List (SegmentData K H)) (acc : (NodeRef → List H) × (H → List NodeRef)),
      Tagged acc.1 acc.2 → Tagged (markSegments leaves root segments acc).1
        (markSegments leaves root segments acc).2
  | [], _, h => h
  | data :: rest, (chains, taggedNodeMap), h => by
    rw [markSegments]
    refine tagged_markSegments leaves root rest _
      (markInv_descendTreeAndMark leaves data taggedNodeMap root _ ?_)
    show Tagged chains (Function.update taggedNodeMap data.pdata (taggedNodeMap data.pdata))
    rwa [Function.update_eq_self]

/-! ### Removal -/

/-- `remove_data_from_nodes` takes `pdata` off the chains of exactly the nodes of `plist`. -/
theorem removeDataFromNodes_apply (pdata : H) :
    ∀ (plist : List NodeRef) (chains : NodeRef → List H) (node : NodeRef),
      removeDataFromNodes plist pdata chains node =
        if node ∈ plist then (chains node).filter (· != pdata) else chains node
  | [], _, _ => rfl
  | first :: rest, chains, node => by
    rw [removeDataFromNodes, List.foldl_cons, ← removeDataFromNodes,
      removeDataFromNodes_apply pdata rest]
    by_cases hfirst : node = first
    · subst hfirst
      simp [List.filter_filter]
    · simp [Function.update_noteq hfirst, hfirst]

theorem Tagged.remove {t : SegmentTree K H} (h : Tagged t.chains t.taggedNodeMap) (pdata : H) :
    Tagged (t.remove pdata).chains (t.remove pdata).taggedNodeMap := fun handle node hmem => by
  simp only [SegmentTree.remove, removeDataFromNodes_apply] at hmem
  split_ifs at hmem
  · exact h handle node (List.mem_of_mem_filter hmem)
  · exact h handle node hmem

/-! ### The public calls -/

section Calls

variable [LinearOrder K] [Inhabited K]

theorem tagged_buildTree (t : SegmentTree K H) :
    Tagged t.buildTree.chains t.buildTree.taggedNodeMap :=
  tagged_markSegments _ _ _ _ fun _ _ hmem => absurd hmem (List.not_mem_nil _)

/-- The states of a `segment_tree` that the public calls reach from the constructor's. -/
inductive Reachable : SegmentTree K H → Prop
  | empty : Reachable empty
  | insert {t : SegmentTree K H} (beginKey endKey : K) (pdata : H) :
      Reachable t → Reachable (t.insert beginKey endKey pdata)
  | buildTree {t : SegmentTree K H} : Reachable t → Reachable t.buildTree
  | remove {t : SegmentTree K H} (pdata : H) : Reachable t → Reachable (t.remove pdata)

theorem Reachable.tagged {t : SegmentTree K H} (ht : Reachable t) :
    Tagged t.chains t.taggedNodeMap := by
  induction ht with
  | empty => exact tagged_empty
  | insert beginKey endKey pdata _ ih => exact ih.insert beginKey endKey pdata
  | buildTree _ => exact tagged_buildTree _
  | remove pdata _ ih => exact ih.remove pdata

/-- In every state the public calls reach, every node whose data chain or label list holds a
handle is recorded under that handle in the tagged-node map. So `remove(h)` takes `h` off every
chain and leaves every other handle where it was. -/
theorem remove_deletes_exactly_handle {t : SegmentTree K H} (ht : Reachable t) (pdata : H) :
    (∀ h node, h ∈ t.chains node → node ∈ t.taggedNodeMap h) ∧
      ∀ node, (t.remove pdata).chains node = (t.chains node).filter (· != pdata) := by
  refine ⟨ht.tagged, fun node => ?_⟩
  simp only [SegmentTree.remove, removeDataFromNodes_apply]
  split_ifs with hnode
  · rfl
  · -- a node the map does not record for `pdata` does not hold it
    refine (List.filter_eq_self.mpr fun h hmem => ?_).symm
    have hne : h ≠ pdata := by
      rintro rfl
      exact hnode (ht.tagged h node hmem)
    simpa using hne

end Calls

end Tagging

/-- The stabbing scenario, then `remove(B)`. -/
theorem remove_stabbingScenario_B :
    Reachable stabbingScenario ∧
      ((∀ h node, h ∈ stabbingScenario.chains node →
          node ∈ stabbingScenario.taggedNodeMap h) ∧
        ∀ node, (stabbingScenario.remove 'B').chains node =
          (stabbingScenario.chains node).filter (· != 'B')) :=
  have hreach : Reachable stabbingScenario :=
    .buildTree (.insert _ _ _ (.insert _ _ _ (.insert _ _ _ .empty)))
  ⟨hreach, remove_deletes_exactly_handle hreach 'B'⟩

end Mdds.SegmentTree

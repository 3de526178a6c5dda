import Mdds.SegmentTree.Shape
import Mdds.SegmentTree.TaggedNodes

/-!
# What a search returns

The search of a `segment_tree` can miss segments (`search_stabbingScenario_ten`), but it never
returns a handle whose segments all miss the key. This module proves that for every state the
public calls reach (`search_sound`), and two facts about how `search` composes with the other calls.

`SoundChains` is the invariant: every handle on the chain of a node is the handle of a segment that
holds the node's whole interval (`Covers`), the range `[low, high)` of a non-leaf node or the
interval `[ks[i], ks[i+1])` of leaf `i`. `descend_tree_and_mark` keeps it, as it labels a non-leaf
node only inside the segment and tags the leaves at the two end points
(`soundChains_descendTreeAndMark`); the build's non-leaf numbers are distinct
(`nodup_nonleafIds_buildTree`), so the label list of a number belongs to one node. `remove` only
takes handles off chains. A search on a built tree reads the labels of nodes whose range holds the
key and the chain of the leaf whose interval holds it (`Spans.descendTreeForSearch_eq`).

The descent reads the chains only to concatenate them, so any change of every chain that keeps
concatenation, such as dropping one handle, commutes with it (`descendTreeForSearch_map`); with the
tagged-node map complete in every reachable state, searching after `remove(h)` is searching before
it with `h` dropped (`search_remove`). A build with assertions returns, when it returns, what a
build without them returns (`descendTreeForSearch_release_of_debug`), so the soundness of either
build follows from that of the build without them.
-/

set_option autoImplicit false
set_option relaxedAutoImplicit false

namespace Mdds.SegmentTree

variable {K H : Type}

/-! ### The descent and its chains -/

section Descent

variable [LinearOrder K]

theorem ok_of_bind_unit_eq_ok {ε α : Type} {x : Except ε Unit} {k : Unit → Except ε α} {r : α}
    (h : (x >>= k) = .ok r) : k () = .ok r := by
  cases x with
  | error e => exact absurd h (by rintro ⟨⟩)
  | ok u => exact h

theorem map_eq_ok_iff {ε α β : Type} {f : α → β} {x : Except ε α} {r : β} :
    f <$> x = .ok r ↔ ∃ a, x = .ok a ∧ f a = r := by
  cases x with
  | error e => exact ⟨by rintro ⟨⟩, by rintro ⟨_, ⟨⟩, _⟩⟩
  | ok a =>
    exact ⟨fun h => ⟨a, rfl, Except.ok.inj h⟩, fun ⟨_, ha, hr⟩ => by cases ha; rw [← hr]; rfl⟩

variable {H' : Type} (f : List H → List H') (hnil : f [] = [])
  (happend : ∀ a b, f (a ++ b) = f a ++ f b)
include hnil happend

/-- The descent only concatenates chains: a change of every chain that keeps concatenation can be
made before it or after it. -/
theorem descendTreeForSearch_map (ndebug : Bool) (point : K) (chains : NodeRef → List H) :
    ∀ node : NodePtr K, descendTreeForSearch ndebug point (fun ref => f (chains ref)) node =
      f <$> descendTreeForSearch ndebug point chains node
  | .null => by simp [descendTreeForSearch, hnil]
  | .leaf _ _ => rfl
  | .nonleaf id low high left right => by
    have hmap : ∀ (labels : List H) (x : Except SearchFault (List H)),
        (f labels ++ ·) <$> (f <$> x) = f <$> ((labels ++ ·) <$> x) := by
      intro labels x
      cases x <;> simp [happend]
    simp only [descendTreeForSearch]
    split_ifs
    · simp [hnil]
    · cases assertSameKind ndebug left right with
      | error e => rfl
      | ok u =>
        simp only [bind, Except.bind]
        cases left with
        | null => rfl
        | leaf _ leftKey =>
          cases right with
          | null => rfl
          | nonleaf => rfl
          | leaf _ rightKey =>
            simp only
            split_ifs
            · rfl
            · rw [descendTreeForSearch_map ndebug point chains (.leaf _ rightKey), hmap]
            · rw [descendTreeForSearch_map ndebug point chains (.leaf _ leftKey), hmap]
        | nonleaf _ leftLow leftHigh ll lr =>
          simp only
          split_ifs
          · rfl
          · cases assertInRange ndebug point right with
            | error e => rfl
            | ok u =>
              simp only [bind, Except.bind]
              rw [descendTreeForSearch_map ndebug point chains right, hmap]
          · cases assertInRange ndebug point (.nonleaf _ leftLow leftHigh ll lr) with
            | error e => rfl
            | ok u =>
              simp only [bind, Except.bind]
              rw [descendTreeForSearch_map ndebug point chains (.nonleaf _ leftLow leftHigh ll lr),
                hmap]

end Descent

section Debug

@[simp] theorem assertSameKind_true (left right : NodePtr K) :
    assertSameKind true left right = pure () := rfl

variable [LinearOrder K]

@[simp] theorem assertInRange_true (point : K) (child : NodePtr K) :
    assertInRange true point child = pure () := rfl

/-- The assertions of `descend_tree_for_search` only stop a search: when the build with
assertions returns, the build without them returns the same chain. -/
theorem descendTreeForSearch_release_of_debug (point : K) (chains : NodeRef → List H)
    (node : NodePtr K) :
    ∀ r : List H, descendTreeForSearch false point chains node = .ok r →
      descendTreeForSearch true point chains node = .ok r := by
  induction node with
  | null => exact fun _ h => h
  | leaf => exact fun _ h => h
  | nonleaf id low high left right ihl ihr =>
    intro r h
    have hrec : ∀ (labels : List H) (child : NodePtr K),
        (∀ a, descendTreeForSearch false point chains child = .ok a →
          descendTreeForSearch true point chains child = .ok a) →
        (labels ++ ·) <$> descendTreeForSearch false point chains child = .ok r →
          (labels ++ ·) <$> descendTreeForSearch true point chains child = .ok r := by
      intro labels child ih hchild
      obtain ⟨a, ha, rfl⟩ := map_eq_ok_iff.mp hchild
      rw [ih a ha]
      rfl
    simp only [descendTreeForSearch] at h
    simp only [descendTreeForSearch, assertSameKind_true, assertInRange_true, pure_bind]
    split_ifs at h ⊢
    · exact h
    · replace h := ok_of_bind_unit_eq_ok h
      cases left with
      | null => exact h
      | leaf _ leftKey =>
        cases right with
        | null => exact h
        | nonleaf => exact h
        | leaf _ rightKey =>
          simp only at h ⊢
          split_ifs at h ⊢
          · exact h
          · exact hrec _ _ ihr h
          · exact hrec _ _ ihl h
      | nonleaf _ leftLow leftHigh ll lr =>
        simp only at h ⊢
        split_ifs at h ⊢
        · exact h
        · exact hrec _ _ ihr (ok_of_bind_unit_eq_ok h)
        · exact hrec _ _ ihl (ok_of_bind_unit_eq_ok h)

end Debug

/-! ### The numbers of the non-leaf nodes -/

section Numbers

/-- The numbers of the non-leaf nodes of a tree, in preorder. -/
def nonleafIds (node : NodePtr K) : List Nat :=
  (nonleafRanges node).map Prod.fst

@[simp] theorem nonleafIds_leaf (index : Nat) (key : K) : nonleafIds (.leaf index key) = [] := rfl

/-- A node of a tree is among its non-leaf ranges. -/
theorem mem_nonleafRanges_of_mem_subtrees {id : Nat} {low high : K} {left right : NodePtr K} :
    ∀ {node : NodePtr K}, .nonleaf id low high left right ∈ subtrees node →
      (id, low, high) ∈ nonleafRanges node
  | .null, hmem => absurd hmem (List.not_mem_nil _)
  | .leaf _ _, hmem => by simp [subtrees] at hmem
  | .nonleaf .., hmem => by
    simp only [subtrees, List.mem_cons, List.mem_append, nonleafRanges] at hmem ⊢
    rcases hmem with heq | hleft | hright
    · cases heq
      exact .inl rfl
    · exact .inr (.inl (mem_nonleafRanges_of_mem_subtrees hleft))
    · exact .inr (.inr (mem_nonleafRanges_of_mem_subtrees hright))

theorem flatMap_nonleafIds_leafNodes :
    ∀ (index : Nat) (keys : List K), (leafNodes index keys).flatMap nonleafIds = []
  | _, [] => rfl
  | index, _ :: keys => by
    rw [leafNodes, List.flatMap_cons, nonleafIds_leaf, flatMap_nonleafIds_leafNodes _ keys,
      List.append_nil]

variable [Inhabited K]

theorem nonleafIds_makeParentNode (ks : List K) (id : Nat) (left right : NodePtr K) :
    nonleafIds (makeParentNode ks id left right) = id :: (nonleafIds left ++ nonleafIds right) := by
  simp [nonleafIds, makeParentNode, nonleafRanges]

/-- Pairing a level numbers its parents from `id` on and keeps the numbers below them. -/
theorem flatMap_nonleafIds_pairNodes (ks : List K) :
    ∀ (id : Nat) (nodes : List (NodePtr K)),
      ((pairNodes ks id nodes).flatMap nonleafIds).Perm
        (List.range' id ((nodes.length + 1) / 2) ++ nodes.flatMap nonleafIds)
  | _, [] => by simp [pairNodes]
  | id, [node] => by
    rw [pairNodes, List.flatMap_singleton, nonleafIds_makeParentNode]
    simp [nonleafIds, nonleafRanges]
  | id, left :: right :: rest => by
    have hrest := flatMap_nonleafIds_pairNodes ks (id + 1) rest
    rw [pairNodes, List.flatMap_cons, nonleafIds_makeParentNode, List.flatMap_cons,
      List.flatMap_cons, show (left :: right :: rest).length + 1 = (rest.length + 1) + 2 by simp,
      Nat.add_div_right _ Nat.zero_lt_two, List.range'_succ]
    have hperm : (nonleafIds left ++ nonleafIds right ++
        (pairNodes ks (id + 1) rest).flatMap nonleafIds).Perm
        (List.range' (id + 1) ((rest.length + 1) / 2) ++
          (nonleafIds left ++ nonleafIds right ++ rest.flatMap nonleafIds)) :=
      (hrest.append_left _).trans (List.perm_append_comm_assoc _ _ _)
    simpa using hperm.cons id

/-- Each round of `build_tree_non_leaf` numbers its parents above every number below them, so the
numbers of the tree it builds are distinct. -/
theorem nodup_nonleafIds_buildTreeNonLeaf (ks : List K) :
    ∀ (fuel id : Nat) (nodes : List (NodePtr K)), (nodes.flatMap nonleafIds).Nodup →
      (∀ n ∈ nodes.flatMap nonleafIds, n < id) →
      (nonleafIds (buildTreeNonLeaf ks fuel id nodes)).Nodup
  | _, _, [], _, _ => by simp [buildTreeNonLeaf, nonleafIds, nonleafRanges]
  | _, _, [node], hnodup, _ => by simpa [buildTreeNonLeaf] using hnodup
  | 0, _, _ :: _ :: _, _, _ => by simp [buildTreeNonLeaf, nonleafIds, nonleafRanges]
  | fuel + 1, id, left :: right :: rest, hnodup, hbelow => by
    have hperm := flatMap_nonleafIds_pairNodes ks id (left :: right :: rest)
    rw [buildTreeNonLeaf, length_pairNodes]
    refine nodup_nonleafIds_buildTreeNonLeaf ks fuel _ _ (hperm.nodup_iff.mpr ?_) fun n hn => ?_
    · refine List.nodup_append.mpr ⟨List.nodup_range' _ _, hnodup, fun n hnew hold => ?_⟩
      exact absurd (hbelow n hold) (not_lt.mpr (List.mem_range'_1.mp hnew).1)
    · rcases List.mem_append.mp (hperm.subset hn) with hnew | hold
      · exact (List.mem_range'_1.mp hnew).2
      · exact (hbelow n hold).trans_le (Nat.le_add_right _ _)

/-- The non-leaf nodes of the tree over a leaf chain have distinct numbers. -/
theorem nodup_nonleafIds_buildTree (ks : List K) : (nonleafIds (Mdds.buildTree ks)).Nodup := by
  have hperm := flatMap_nonleafIds_pairNodes ks 0 (leafNodes 0 ks)
  rw [flatMap_nonleafIds_leafNodes, List.append_nil] at hperm
  refine nodup_nonleafIds_buildTreeNonLeaf ks _ _ _ (hperm.nodup_iff.mpr (List.nodup_range' _ _))
    fun n hn => ?_
  simpa [length_pairNodes] using (List.mem_range'_1.mp (hperm.subset hn)).2

end Numbers

/-! ### Sound chains -/

section Sound

variable [Inhabited K]

/-- A position of a key of the chain. -/
theorem exists_leafKey_eq {ks : List K} {key : K} (hkey : key ∈ ks) :
    ∃ j < ks.length, leafKey ks j = key := by
  obtain ⟨j, hj, rfl⟩ := List.mem_iff_getElem.mp hkey
  exact ⟨j, hj, leafKey_of_getElem? (List.getElem?_eq_getElem hj)⟩

/-- The leaves of a subtree over a block of leaves sit in the chain at their positions. -/
theorem Spans.leafKey_of_mem_subtrees {ks : List K} {lvl a c : Nat} {node : NodePtr K}
    (h : Spans ks lvl node a c) {index : Nat} {key : K} (hmem : .leaf index key ∈ subtrees node) :
    index < ks.length ∧ leafKey ks index = key := by
  obtain ⟨_, _, _, hleaf⟩ := h.spans_of_mem_subtrees _ hmem
  cases hleaf with
  | leaf hindex hkey => exact ⟨hindex, hkey⟩

variable [LinearOrder K]

/-- Segment `data` holds the interval of node `ref` of the tree `root` over the leaf chain `ks`:
the range `[low, high)` of the non-leaf nodes numbered `id`, or `[ks[i], ks[i+1])` for leaf `i`. -/
def Covers (ks : List K) (root : NodePtr K) (data : SegmentData K H) : NodeRef → Prop
  | .nonleaf id => ∀ low high, (id, low, high) ∈ nonleafRanges root →
      data.beginKey ≤ low ∧ high ≤ data.endKey
  | .leaf i => i + 1 < ks.length →
      data.beginKey ≤ leafKey ks i ∧ leafKey ks (i + 1) ≤ data.endKey

/-- Every handle on the chain of a node is the handle of a segment of `segments` that holds the
node's interval. -/
def SoundChains (segments : List (SegmentData K H)) (ks : List K) (root : NodePtr K)
    (chains : NodeRef → List H) : Prop :=
  ∀ ref, ∀ h ∈ chains ref, ∃ data ∈ segments, data.pdata = h ∧ Covers ks root data ref

variable {segments : List (SegmentData K H)} {ks : List K} {root : NodePtr K}
  {chains : NodeRef → List H}

theorem soundChains_nil (segments : List (SegmentData K H)) (ks : List K) (root : NodePtr K) :
    SoundChains segments ks root fun _ => [] :=
  fun _ _ hmem => absurd hmem (List.not_mem_nil _)

/-- Without segments, a sound chain is empty. -/
theorem SoundChains.eq_nil (h : SoundChains [] ks root chains) (ref : NodeRef) : chains ref = [] :=
  List.eq_nil_iff_forall_not_mem.mpr fun _ hmem => by
    obtain ⟨_, hdata, _⟩ := h ref _ hmem
    exact List.not_mem_nil _ hdata

/-- Taking handles off chains keeps them sound. -/
theorem SoundChains.mono (h : SoundChains segments ks root chains) {chains' : NodeRef → List H}
    (hsub : ∀ ref, chains' ref ⊆ chains ref) : SoundChains segments ks root chains' :=
  fun ref handle hmem => h ref handle (hsub ref hmem)

/-- Tagging a node with the handle of a segment that holds the node's interval keeps the chains
sound. -/
theorem SoundChains.tag (h : SoundChains segments ks root chains) {data : SegmentData K H}
    (hdata : data ∈ segments) {ref : NodeRef} (hcovers : Covers ks root data ref) :
    SoundChains segments ks root (pushBack chains ref data.pdata) := fun other handle hmem => by
  rcases mem_pushBack.mp hmem with hold | ⟨rfl, rfl⟩
  · exact h other handle hold
  · exact ⟨data, hdata, rfl, hcovers⟩

/-! ### Marking keeps the chains sound -/

section Marking

variable (hks : ks.Sorted (· < ·))
  (hleaves : ∀ index key, .leaf index key ∈ subtrees root →
    index < ks.length ∧ leafKey ks index = key)
  (hids : (nonleafIds root).Nodup)
  (hends : ∀ data ∈ segments, data.beginKey ∈ ks ∧ data.endKey ∈ ks)
  (hordered : ∀ data ∈ segments, data.beginKey < data.endKey)

include hids in
/-- A segment that holds the range of a non-leaf node holds the range of every node with its
number, as there is only that one. -/
theorem covers_nonleaf (data : SegmentData K H) {id : Nat} {low high : K}
    (hrange : (id, low, high) ∈ nonleafRanges root) (hlow : data.beginKey ≤ low)
    (hhigh : high < data.endKey) : Covers ks root data (.nonleaf id) := by
  intro low' high' hrange'
  obtain ⟨⟩ := List.inj_on_of_nodup_map hids hrange hrange' rfl
  exact ⟨hlow, hhigh.le⟩

include hks hends hordered in
/-- The leaf at the begin key of a segment lies in the segment. -/
theorem covers_begin {data : SegmentData K H} (hdata : data ∈ segments) {index : Nat}
    (hkey : leafKey ks index = data.beginKey) : Covers ks root data (.leaf index) := by
  intro hnext
  obtain ⟨j, hj, hend⟩ := exists_leafKey_eq (hends data hdata).2
  have hindex : index < j :=
    lt_of_leafKey_lt hks (by omega) (hend ▸ hkey ▸ hordered data hdata)
  exact ⟨hkey.ge, hend ▸ leafKey_le_leafKey hks hindex hj⟩

include hks hends hordered in
/-- The leaf before the leaf at the end key of a segment lies in the segment. -/
theorem covers_end {data : SegmentData K H} (hdata : data ∈ segments) {prev : Nat}
    (hprev : prev + 1 < ks.length) (hkey : leafKey ks (prev + 1) = data.endKey) :
    Covers ks root data (.leaf prev) := by
  intro _
  obtain ⟨j, hj, hbegin⟩ := exists_leafKey_eq (hends data hdata).1
  have hjprev : j < prev + 1 := lt_of_leafKey_lt hks hj (hbegin ▸ hkey ▸ hordered data hdata)
  exact ⟨hbegin ▸ leafKey_le_leafKey hks (by omega) (by omega), hkey.le⟩

include hks hleaves hids hends hordered in
/-- `descend_tree_and_mark` on a subtree of the tree keeps the chains sound: it labels a non-leaf
node only inside the segment and tags the leaves at its two end points. -/
theorem soundChains_descendTreeAndMark {data : SegmentData K H} (hdata : data ∈ segments) :
    ∀ (node : NodePtr K) (acc : (NodeRef → List H) × List NodeRef),
      subtrees node ⊆ subtrees root → SoundChains segments ks root acc.1 →
      SoundChains segments ks root (descendTreeAndMark ks data node acc).1
  | .null, _, _, h => h
  | .leaf index key, (chains, plist), hsub, h => by
    obtain ⟨hindex, hkey⟩ := hleaves index key (hsub (List.mem_singleton_self _))
    simp only [descendTreeAndMark]
    split_ifs with hbegin hend
    · exact h.tag hdata (covers_begin hks hends hordered hdata (hkey.trans hbegin))
    · rcases index with _ | prev
      · exact h
      · dsimp only
        split
        · split_ifs
          exacts [h.tag hdata (covers_end hks hends hordered hdata hindex (hkey.trans hend)), h]
        · exact h
    · exact h
  | .nonleaf id low high left right, (chains, plist), hsub, h => by
    have hnode := hsub (List.mem_cons_self _ _)
    simp only [subtrees, List.cons_subset, List.append_subset] at hsub
    simp only [descendTreeAndMark]
    split_ifs with hout hin
    · exact h
    · exact h.tag hdata
        (covers_nonleaf hids data (mem_nonleafRanges_of_mem_subtrees hnode) hin.1 hin.2)
    · exact soundChains_descendTreeAndMark hdata right _ hsub.2.2
        (soundChains_descendTreeAndMark hdata left _ hsub.2.1 h)

variable [DecidableEq H]

include hks hleaves hids hends hordered in
/-- The loop of `build_tree` over some of the segments keeps the chains sound. -/
theorem soundChains_markSegments :
    ∀ (marked : List (SegmentData K H)) (acc : (NodeRef → List H) × (H → List NodeRef)),
      (∀ data ∈ marked, data ∈ segments) → SoundChains segments ks root acc.1 →
      SoundChains segments ks root (markSegments ks root marked acc).1
  | [], _, _, h => h
  | data :: rest, (chains, map), hmarked, h => by
    rw [markSegments]
    exact soundChains_markSegments rest _ (fun d hd => hmarked d (List.mem_cons_of_mem _ hd))
      (soundChains_descendTreeAndMark hks hleaves hids hends hordered
        (hmarked data (List.mem_cons_self _ _)) root _ (List.Subset.refl _) h)

end Marking

end Sound

/-! ### Searching sound chains -/

section Search

variable [Inhabited K] [LinearOrder K] {segments : List (SegmentData K H)} {ks : List K}
  {root : NodePtr K} {chains : NodeRef → List H}

/-- A key from the first key of the chain up to key `n` lies in the interval of a leaf before
`n`. -/
theorem exists_leafKey_interval {point : K} (hfirst : leafKey ks 0 ≤ point) :
    ∀ n, point < leafKey ks n → ∃ i < n, leafKey ks i ≤ point ∧ point < leafKey ks (i + 1)
  | 0, hlt => absurd hfirst (not_le.mpr hlt)
  | n + 1, hlt => by
    by_cases hn : leafKey ks n ≤ point
    · exact ⟨n, Nat.lt_succ_self n, hn, hlt⟩
    · obtain ⟨i, hi, hrange⟩ := exists_leafKey_interval hfirst n (not_le.mp hn)
      exact ⟨i, Nat.lt_succ_of_lt hi, hrange⟩

/-- A search on a tree over the whole chain with sound chains returns only handles of segments
that hold the key: the labels of nodes whose range holds it, and the chain of the leaf whose
interval holds it. -/
theorem SoundChains.descendTreeForSearch_sound (h : SoundChains segments ks root chains)
    (hks : ks.Sorted (· < ·)) {lvl : Nat} (hspans : Spans ks (lvl + 1) root 0 (ks.length - 1))
    {point : K} {hs : List H} (hsearch : descendTreeForSearch true point chains root = .ok hs) :
    ∀ handle ∈ hs, ∃ data ∈ segments, data.pdata = handle ∧
      data.beginKey ≤ point ∧ point < data.endKey := by
  have hlast := hspans.le_last
  have hhigh : rangeHigh ks (ks.length - 1) = leafKey ks (ks.length - 1) := by
    rw [rangeHigh, if_neg (by omega)]
  obtain ⟨id, left, right, hroot⟩ := hspans.eq_nonleaf
  by_cases hin : leafKey ks 0 ≤ point ∧ point < rangeHigh ks (ks.length - 1)
  · obtain ⟨i, hi, hlow, hnext⟩ := exists_leafKey_interval hin.1 _ (hhigh ▸ hin.2)
    rw [hspans.descendTreeForSearch_eq hks chains (Nat.zero_le i) hi.le (by omega) hlow hnext,
      Except.ok.injEq] at hsearch
    intro handle hmem
    rcases List.mem_append.mp (hsearch ▸ hmem) with hlabel | hleaf
    · simp only [pathLabels, List.mem_flatMap, List.mem_filter, decide_eq_true_eq] at hlabel
      obtain ⟨⟨id', low, high⟩, ⟨hrange, hlowp, hpoint⟩, hmem'⟩ := hlabel
      obtain ⟨data, hdata, rfl, hcovers⟩ := h _ handle hmem'
      obtain ⟨hbegin, hend⟩ := hcovers low high hrange
      exact ⟨data, hdata, rfl, hbegin.trans hlowp, hpoint.trans_le hend⟩
    · obtain ⟨data, hdata, rfl, hcovers⟩ := h _ handle hleaf
      obtain ⟨hbegin, hend⟩ := hcovers (by omega)
      exact ⟨data, hdata, rfl, hbegin.trans hlow, hnext.trans_le hend⟩
  · rw [hroot, descendTreeForSearch.eq_3, if_pos (by rwa [not_and_or, not_le, not_lt] at hin),
      Except.ok.injEq] at hsearch
    subst hsearch
    exact fun _ hmem => absurd hmem (List.not_mem_nil _)

end Search

/-! ### The reachable states -/

section Calls

variable [Inhabited K] [LinearOrder K]

/-- What every state the public calls reach keeps: every segment has `b < e`, and a valid tree has
sound chains and, when there are segments, is the tree `build_tree` makes over them. -/
structure Consistent (t : SegmentTree K H) : Prop where
  ordered : ∀ data ∈ t.segmentData, data.beginKey < data.endKey
  sound : t.validTree = true → SoundChains t.segmentData t.leaves t.rootNode t.chains
  built : t.validTree = true → t.segmentData ≠ [] →
    t.leaves = keysUniq t.segmentData ∧ t.rootNode = Mdds.buildTree t.leaves

theorem consistent_empty : Consistent (empty : SegmentTree K H) :=
  ⟨fun _ hdata => absurd hdata (List.not_mem_nil _), fun hvalid => absurd hvalid Bool.false_ne_true,
    fun hvalid => absurd hvalid Bool.false_ne_true⟩

theorem Consistent.insert {t : SegmentTree K H} (h : Consistent t) (beginKey endKey : K)
    (pdata : H) : Consistent (t.insert beginKey endKey pdata) := by
  unfold SegmentTree.insert
  split_ifs with hempty
  · exact h
  · refine ⟨fun data hdata => ?_, fun hvalid => absurd hvalid Bool.false_ne_true,
      fun hvalid => absurd hvalid Bool.false_ne_true⟩
    rcases List.mem_append.mp hdata with hold | hnew
    · exact h.ordered data hold
    · rw [List.mem_singleton.mp hnew]
      exact not_le.mp hempty

variable [DecidableEq H]

/-- `build_tree()` leaves sound chains: every segment it tags holds the nodes it tags. -/
theorem soundChains_buildTree (t : SegmentTree K H)
    (hordered : ∀ data ∈ t.segmentData, data.beginKey < data.endKey) :
    SoundChains t.segmentData t.buildTree.leaves t.buildTree.rootNode t.buildTree.chains := by
  have hchains : t.buildTree.chains = (markSegments t.buildTree.leaves t.buildTree.rootNode
      t.segmentData (fun _ => [], fun _ => [])).1 := rfl
  rw [hchains]
  by_cases hne : t.segmentData = []
  · rw [hne]
    exact soundChains_nil _ _ _
  · obtain ⟨htwo, hleaves, hroot⟩ := buildTree_eq_keysUniq t hne hordered
    obtain ⟨lvl, hspans⟩ := spans_buildTree htwo
    rw [hleaves, hroot]
    exact soundChains_markSegments (keysUniq_sorted _)
      (fun _ _ hmem => hspans.leafKey_of_mem_subtrees hmem) (nodup_nonleafIds_buildTree _)
      (fun data hdata => ⟨mem_keysUniq.mpr ⟨data, hdata, .inl rfl⟩,
        mem_keysUniq.mpr ⟨data, hdata, .inr rfl⟩⟩)
      hordered _ _ (fun _ hdata => hdata) (soundChains_nil _ _ _)

theorem Consistent.buildTree {t : SegmentTree K H} (h : Consistent t) : Consistent t.buildTree :=
  ⟨h.ordered, fun _ => soundChains_buildTree t h.ordered, fun _ hne => by
    obtain ⟨_, hleaves, hroot⟩ := buildTree_eq_keysUniq t hne h.ordered
    exact ⟨hleaves, hleaves ▸ hroot⟩⟩

theorem Consistent.remove {t : SegmentTree K H} (h : Consistent t) (pdata : H) :
    Consistent (t.remove pdata) := by
  refine ⟨h.ordered, fun hvalid => (h.sound hvalid).mono fun ref handle hmem => ?_, h.built⟩
  simp only [SegmentTree.remove, removeDataFromNodes_apply] at hmem
  split_ifs at hmem
  exacts [List.mem_of_mem_filter hmem, hmem]

theorem Reachable.consistent {t : SegmentTree K H} (ht : Reachable t) : Consistent t := by
  induction ht with
  | empty => exact consistent_empty
  | insert beginKey endKey pdata _ ih => exact ih.insert beginKey endKey pdata
  | buildTree _ ih => exact ih.buildTree
  | remove pdata _ ih => exact ih.remove pdata

theorem reachable_stabbingScenario : Reachable stabbingScenario :=
  .buildTree (.insert _ _ _ (.insert _ _ _ (.insert _ _ _ .empty)))

/-- In every state the public calls reach, every handle a search returns is the handle of a
segment that holds the key, in a build with assertions or without. -/
theorem search_sound {t : SegmentTree K H} (ht : Reachable t) (ndebug : Bool) (point : K)
    {hs : List H} (hsearch : t.search ndebug point = .ok (some hs)) :
    ∀ handle ∈ hs, ∃ data ∈ t.segmentData, data.pdata = handle ∧
      data.beginKey ≤ point ∧ point < data.endKey := by
  have hc := ht.consistent
  unfold search at hsearch
  split_ifs at hsearch with hvalid
  · split at hsearch
    · cases hsearch
    · obtain ⟨hs', hdescend, hsome⟩ := map_eq_ok_iff.mp hsearch
      cases Option.some.inj hsome
      -- what the build without assertions collects, the build with them does
      replace hdescend : descendTreeForSearch true point t.chains t.rootNode = .ok hs := by
        cases ndebug
        · exact descendTreeForSearch_release_of_debug point t.chains _ hs hdescend
        · exact hdescend
      by_cases hne : t.segmentData = []
      · -- without segments every chain is empty, and so is what the descent collects
        have hsound := hc.sound hvalid
        rw [hne] at hsound
        have hmap := descendTreeForSearch_map (fun _ : List H => ([] : List H)) rfl
          (fun _ _ => rfl) true point (fun _ => ([] : List H)) t.rootNode
        rw [show t.chains = fun _ => [] from funext hsound.eq_nil, hmap] at hdescend
        obtain ⟨_, _, rfl⟩ := map_eq_ok_iff.mp hdescend
        exact fun _ hmem => absurd hmem (List.not_mem_nil _)
      · obtain ⟨hleaves, hroot⟩ := hc.built hvalid hne
        obtain ⟨data, hdata⟩ := List.exists_mem_of_ne_nil _ hne
        have htwo := two_le_length_keysUniq hdata (hc.ordered data hdata)
        rw [← hleaves] at htwo
        obtain ⟨lvl, hspans⟩ := spans_buildTree htwo
        rw [← hroot] at hspans
        exact (hc.sound hvalid).descendTreeForSearch_sound (hleaves ▸ keysUniq_sorted _) hspans
          hdescend
  · cases hsearch

/-- `search_sound` on the spec's stabbing scenario at key 13, where `B` and `C` hold the key. -/
theorem search_sound_stabbing :
    Reachable stabbingScenario ∧ stabbingScenario.search true 13 = .ok (some ['B', 'C']) ∧
      ∀ handle ∈ ['B', 'C'], ∃ data ∈ stabbingScenario.segmentData, data.pdata = handle ∧
        data.beginKey ≤ 13 ∧ 13 < data.endKey :=
  have hsearch : stabbingScenario.search true 13 = .ok (some ['B', 'C']) := by decide
  ⟨reachable_stabbingScenario, hsearch, search_sound reachable_stabbingScenario true 13 hsearch⟩

/-- `remove(pdata)` takes `pdata` off every chain and leaves the rest, in every state the public
calls reach. -/
theorem Reachable.remove_chains {t : SegmentTree K H} (ht : Reachable t) (pdata : H)
    (ref : NodeRef) : (t.remove pdata).chains ref = (t.chains ref).filter (· != pdata) := by
  simp only [SegmentTree.remove, removeDataFromNodes_apply]
  split_ifs with href
  · rfl
  · refine (List.filter_eq_self.mpr fun h hmem => ?_).symm
    have hne : h ≠ pdata := fun heq => href (heq ▸ ht.tagged h ref hmem)
    simpa using hne

/-- In every state the public calls reach, a search after `remove(pdata)` returns what a search
before it returns, with `pdata` dropped. -/
theorem search_remove {t : SegmentTree K H} (ht : Reachable t) (pdata : H) (ndebug : Bool)
    (point : K) :
    (t.remove pdata).search ndebug point =
      Option.map (List.filter (· != pdata)) <$> t.search ndebug point := by
  have hchains : (t.remove pdata).chains = fun ref => (t.chains ref).filter (· != pdata) :=
    funext (ht.remove_chains pdata)
  have hvalid : (t.remove pdata).validTree = t.validTree := rfl
  have hroot : (t.remove pdata).rootNode = t.rootNode := rfl
  unfold search
  rw [hchains, hvalid, hroot]
  split_ifs
  · split
    · rfl
    · rw [descendTreeForSearch_map _ rfl (fun a b => List.filter_append a b)]
      cases descendTreeForSearch ndebug point t.chains _ <;> rfl
  · rfl

/-- `search_remove` on the spec's stabbing scenario: `remove(B)`, then a search at key 13. -/
theorem search_remove_stabbing :
    Reachable stabbingScenario ∧ (stabbingScenario.remove 'B').search true 13 =
      Option.map (List.filter (· != 'B')) <$> stabbingScenario.search true 13 :=
  ⟨reachable_stabbingScenario, search_remove reachable_stabbingScenario 'B' true 13⟩

example : (stabbingScenario.remove 'B').search true 13 = .ok (some ['C']) := by decide

end Calls

end Mdds.SegmentTree

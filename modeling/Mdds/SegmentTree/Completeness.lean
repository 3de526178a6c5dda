import Mdds.SegmentTree.Soundness

/-!
# Where a search finds a segment

A search can miss a segment that holds the key (`search_stabbingScenario_ten`): a non-leaf node is
labelled only when `high < end_key`, and the leaves strictly inside a segment are never tagged, so
the keys whose path meets neither a label nor a tagged leaf are lost. This module shows where that
cannot happen: at the keys of a segment's first elementary interval, from its begin key up to the
next end point of any segment, and of its last one, from the end point before its end key up to
it.

Tagging a segment from a subtree that holds the leaf at its begin key tags that leaf, or labels a
non-leaf node of the subtree whose range holds the leaf's interval (`Spans.marks_begin`). No node
above the leaf at the end key has `high < end_key`, so the descent always reaches that leaf, and
it tags the leaf before it unless that leaf is at the begin key (`Spans.marks_end`). Later tagging
only appends to chains (`mem_descendTreeAndMark`, `mem_markSegments`). The search on a built tree
reads the labels of every node whose range holds the key and the chain of the leaf whose interval
holds it (`Spans.descendTreeForSearch_eq`), so after `build_tree` it returns the segment at every
key of those two intervals (`search_buildTree_finds_segment_at_ends`).
-/

set_option autoImplicit false
set_option relaxedAutoImplicit false

namespace Mdds.SegmentTree

variable {K H : Type}

/-! ### Tagging only appends -/

section Append

variable [LinearOrder K] {ks : List K}

/-- `descend_tree_and_mark` only appends to chains: a handle on a chain stays on it. -/
theorem mem_descendTreeAndMark (data : SegmentData K H) {ref : NodeRef} {h : H} :
    ∀ (node : NodePtr K) (acc : (NodeRef → List H) × List NodeRef), h ∈ acc.1 ref →
      h ∈ (descendTreeAndMark ks data node acc).1 ref
  | .null, _, hmem => hmem
  | .leaf index key, (chains, plist), hmem => by
    simp only [descendTreeAndMark]
    repeat' split
    all_goals first | exact mem_pushBack.mpr (.inl hmem) | exact hmem
  | .nonleaf id low high left right, (chains, plist), hmem => by
    simp only [descendTreeAndMark]
    split_ifs
    · exact hmem
    · exact mem_pushBack.mpr (.inl hmem)
    · exact mem_descendTreeAndMark data right _ (mem_descendTreeAndMark data left _ hmem)

variable [DecidableEq H] (root : NodePtr K)

/-- The loop of `build_tree` only appends to chains. -/
theorem mem_markSegments {ref : NodeRef} {h : H} :
    ∀ (segments : List (SegmentData K H)) (acc : (NodeRef → List H) × (H → List NodeRef)),
      h ∈ acc.1 ref → h ∈ (markSegments ks root segments acc).1 ref
  | [], _, hmem => hmem
  | data :: rest, (chains, map), hmem => by
    rw [markSegments]
    exact mem_markSegments rest _ (mem_descendTreeAndMark data root _ hmem)

/-- Every segment of the loop of `build_tree` is tagged from the root on some chains, and what
that tagging puts on a chain stays there to the end of the loop. -/
theorem exists_descendTreeAndMark_subset_markSegments (leaves : List K) {data : SegmentData K H} :
    ∀ (segments : List (SegmentData K H)) (acc : (NodeRef → List H) × (H → List NodeRef)),
      data ∈ segments → ∃ start : (NodeRef → List H) × List NodeRef, ∀ ref,
        ∀ h ∈ (descendTreeAndMark leaves data root start).1 ref,
          h ∈ (markSegments leaves root segments acc).1 ref
  | [], _, hdata => absurd hdata (List.not_mem_nil _)
  | first :: rest, (chains, map), hdata => by
    rw [markSegments]
    rcases List.mem_cons.mp hdata with rfl | hrest
    · exact ⟨_, fun ref h hmem => mem_markSegments root rest _ hmem⟩
    · exact exists_descendTreeAndMark_subset_markSegments leaves rest _ hrest

end Append

/-! ### The two intervals a segment always tags -/

section Ends

variable [LinearOrder K] [Inhabited K] {ks : List K} (hks : ks.Sorted (· < ·))
include hks

/-- A node over the leaves `a` to `c` has a range that holds the interval `[ks[i], ks[i+1])` of
each leaf `i` between them. -/
theorem range_holds_leaf {a i c : Nat} (hai : a ≤ i) (hic : i ≤ c) (hnext : i + 1 < ks.length)
    (hc : c < ks.length) : leafKey ks a ≤ leafKey ks i ∧ leafKey ks (i + 1) ≤ rangeHigh ks c :=
  ⟨leafKey_le_leafKey hks hai (by omega), leafKey_succ_le_rangeHigh hks hic hnext hc⟩

/-- A segment is not pruned at a node whose range holds the interval of the leaf at its begin
key. -/
theorem not_pruned_of_begin {data : SegmentData K H} (hordered : data.beginKey < data.endKey)
    {i : Nat} (hnext : i + 1 < ks.length) (hbegin : leafKey ks i = data.beginKey) {low high : K}
    (hin : low ≤ leafKey ks i ∧ leafKey ks (i + 1) ≤ high) :
    ¬(data.endKey < low ∨ high ≤ data.beginKey) := by
  have hstep := leafKey_lt_leafKey hks (Nat.lt_succ_self i) hnext
  rw [hbegin] at hin hstep
  push_neg
  exact ⟨hin.1.trans hordered.le, hstep.trans_le hin.2⟩

/-- Tagging a segment from a subtree over the leaf `i` at its begin key tags that leaf, or labels a
non-leaf node of the subtree whose range holds the leaf's interval `[ks[i], ks[i+1])`. -/
theorem Spans.marks_begin {lvl a c : Nat} {node : NodePtr K} (hspans : Spans ks lvl node a c)
    {data : SegmentData K H} (hordered : data.beginKey < data.endKey) {i : Nat} (hai : a ≤ i)
    (hic : i ≤ c) (hnext : i + 1 < ks.length) (hbegin : leafKey ks i = data.beginKey)
    (acc : (NodeRef → List H) × List NodeRef) :
    data.pdata ∈ (descendTreeAndMark ks data node acc).1 (.leaf i) ∨
      ∃ range ∈ nonleafRanges node, range.2.1 ≤ leafKey ks i ∧ leafKey ks (i + 1) ≤ range.2.2 ∧
        data.pdata ∈ (descendTreeAndMark ks data node acc).1 (.nonleaf range.1) := by
  induction hspans generalizing acc with
  | @leaf index key _ hkey =>
    obtain rfl := le_antisymm hic hai
    obtain ⟨chains, plist⟩ := acc
    left
    simp only [descendTreeAndMark, if_pos (hkey.symm.trans hbegin)]
    exact mem_pushBack.mpr (.inr ⟨rfl, rfl⟩)
  | @pair lvl id low high left right a m c hleft hright hlow hhigh ihl ihr =>
    obtain ⟨chains, plist⟩ := acc
    have hin : low ≤ leafKey ks i ∧ leafKey ks (i + 1) ≤ high :=
      hlow ▸ hhigh ▸ range_holds_leaf hks hai hic hnext hright.le_last.2
    rw [descendTreeAndMark, if_neg (not_pruned_of_begin hks hordered hnext hbegin hin)]
    split_ifs
    · exact .inr ⟨(id, low, high), List.mem_cons_self _ _, hin.1, hin.2,
        mem_pushBack.mpr (.inr ⟨rfl, rfl⟩)⟩
    · by_cases him : i ≤ m
      · exact (ihl hai him _).imp (mem_descendTreeAndMark data right _)
          fun ⟨range, hrange, hlow', hhigh', hmem⟩ => ⟨range,
            List.mem_cons_of_mem _ (List.mem_append_left _ hrange), hlow', hhigh',
            mem_descendTreeAndMark data right _ hmem⟩
      · exact (ihr (by omega) hic _).imp (fun h => h) fun ⟨range, hrange, hrest⟩ =>
          ⟨range, List.mem_cons_of_mem _ (List.mem_append_right _ hrange), hrest⟩
  | @single lvl id low high left a c hleft hlast hlow hhigh ih =>
    obtain ⟨chains, plist⟩ := acc
    have hin : low ≤ leafKey ks i ∧ leafKey ks (i + 1) ≤ high :=
      hlow ▸ hhigh ▸ range_holds_leaf hks hai hic hnext (by omega)
    rw [descendTreeAndMark, if_neg (not_pruned_of_begin hks hordered hnext hbegin hin)]
    split_ifs
    · exact .inr ⟨(id, low, high), List.mem_cons_self _ _, hin.1, hin.2,
        mem_pushBack.mpr (.inr ⟨rfl, rfl⟩)⟩
    · exact (ih hai hic _).imp (fun h => h) fun ⟨range, hrange, hrest⟩ =>
        ⟨range, List.mem_cons_of_mem _ (List.mem_append_left _ hrange), hrest⟩

omit hks [Inhabited K] in
/-- At a node whose range reaches a segment's end key, the segment is neither pruned nor
labelled. -/
theorem not_pruned_of_end {data : SegmentData K H} (hordered : data.beginKey < data.endKey)
    {low high : K} (hlow : low ≤ data.endKey) (hhigh : data.endKey ≤ high) :
    ¬(data.endKey < low ∨ high ≤ data.beginKey) ∧ ¬(data.beginKey ≤ low ∧ high < data.endKey) :=
  ⟨by push_neg; exact ⟨hlow, hordered.trans_le hhigh⟩,
    fun hlabel => absurd hlabel.2 (not_lt.mpr hhigh)⟩

/-- Tagging a segment from a subtree over the leaf `j + 1` at its end key reaches that leaf, as no
node above it has `high < end_key`, and tags the leaf `j` before it when that leaf is not at the
begin key. -/
theorem Spans.marks_end {lvl a c : Nat} {node : NodePtr K} (hspans : Spans ks lvl node a c)
    {data : SegmentData K H} (hordered : data.beginKey < data.endKey) {j : Nat} (haj : a ≤ j + 1)
    (hjc : j + 1 ≤ c) (hend : leafKey ks (j + 1) = data.endKey)
    (hprev : leafKey ks j ≠ data.beginKey) (acc : (NodeRef → List H) × List NodeRef) :
    data.pdata ∈ (descendTreeAndMark ks data node acc).1 (.leaf j) := by
  induction hspans generalizing acc with
  | @leaf index key hindex hkey =>
    obtain rfl := le_antisymm hjc haj
    obtain ⟨chains, plist⟩ := acc
    have hkey : key = data.endKey := hkey.symm.trans hend
    simp only [descendTreeAndMark, if_neg (hkey ▸ hordered.ne'), if_pos hkey,
      getElem?_of_lt (by omega : j < ks.length), ne_eq, if_pos hprev]
    exact mem_pushBack.mpr (.inr ⟨rfl, rfl⟩)
  | @pair lvl id low high left right a m c hleft hright hlow hhigh ihl ihr =>
    obtain ⟨chains, plist⟩ := acc
    have hc := hright.le_last
    have hreach := not_pruned_of_end hordered
      (hend ▸ hlow ▸ leafKey_le_leafKey hks haj (by omega))
      (hend ▸ hhigh ▸ leafKey_succ_le_rangeHigh hks (by omega) (by omega) hc.2)
    rw [descendTreeAndMark, if_neg hreach.1, if_neg hreach.2]
    by_cases hjm : j + 1 ≤ m
    · exact mem_descendTreeAndMark data right _ (ihl haj hjm _)
    · exact ihr (by omega) hjc _
  | @single lvl id low high left a c hleft hlast hlow hhigh ih =>
    obtain ⟨chains, plist⟩ := acc
    have hreach := not_pruned_of_end hordered
      (hend ▸ hlow ▸ leafKey_le_leafKey hks haj (by omega))
      (hend ▸ hhigh ▸ leafKey_succ_le_rangeHigh hks (by omega) (by omega) (by omega))
    rw [descendTreeAndMark, if_neg hreach.1, if_neg hreach.2]
    exact ih haj hjc _

end Ends

/-! ### Searching after `build_tree` -/

section Search

variable [LinearOrder K]

omit [LinearOrder K] in
/-- The labels of a non-leaf node whose range holds the key are among the labels a search reads. -/
theorem mem_pathLabels [LinearOrder K] {chains : NodeRef → List H} {point : K} {node : NodePtr K}
    {range : Nat × K × K} (hrange : range ∈ nonleafRanges node)
    (hin : range.2.1 ≤ point ∧ point < range.2.2) {h : H} (hmem : h ∈ chains (.nonleaf range.1)) :
    h ∈ pathLabels chains point node :=
  List.mem_flatMap.mpr ⟨range, List.mem_filter.mpr ⟨hrange, decide_eq_true hin⟩, hmem⟩

/-- A valid tree with a root is searched from the root. -/
theorem search_eq_descendTreeForSearch {t : SegmentTree K H} (hvalid : t.validTree = true)
    (hroot : t.rootNode ≠ .null) (ndebug : Bool) (point : K) :
    t.search ndebug point = some <$> descendTreeForSearch ndebug point t.chains t.rootNode := by
  unfold search
  rw [if_pos hvalid]
  split
  · exact absurd ‹_› hroot
  · rfl

variable [Inhabited K] [DecidableEq H] (t : SegmentTree K H)
  (hordered : ∀ data ∈ t.segmentData, data.beginKey < data.endKey)

/-- `build_tree` over a leaf chain of two keys or more tags the segments on the tree over it. -/
theorem chains_buildTree (htwo : 2 ≤ (keysUniq t.segmentData).length) :
    t.buildTree.chains = (markSegments (keysUniq t.segmentData)
      (Mdds.buildTree (keysUniq t.segmentData)) t.segmentData (fun _ => [], fun _ => [])).1 := by
  simp only [buildTree, createLeafNodeInstances, if_neg (not_lt.mpr htwo)]

include hordered

/-- After `build_tree`, the handle of a segment is on the chain of a leaf `i` at its begin key, or
on the labels of a node whose range holds the leaf's interval; and it is on the chain of the leaf
`i` before the leaf at its end key when leaf `i` is not at the begin key. -/
theorem mem_chains_buildTree {data : SegmentData K H} (hdata : data ∈ t.segmentData) {i : Nat}
    (hnext : i + 1 < (keysUniq t.segmentData).length)
    (hkey : leafKey (keysUniq t.segmentData) i = data.beginKey ∨
      leafKey (keysUniq t.segmentData) (i + 1) = data.endKey) :
    data.pdata ∈ t.buildTree.chains (.leaf i) ∨
      ∃ range ∈ nonleafRanges t.buildTree.rootNode,
        range.2.1 ≤ leafKey (keysUniq t.segmentData) i ∧
          leafKey (keysUniq t.segmentData) (i + 1) ≤ range.2.2 ∧
            data.pdata ∈ t.buildTree.chains (.nonleaf range.1) := by
  obtain ⟨htwo, -, hroot⟩ := buildTree_eq_keysUniq t (List.ne_nil_of_mem hdata) hordered
  obtain ⟨lvl, hspans⟩ := spans_buildTree htwo
  have hks := keysUniq_sorted t.segmentData
  obtain ⟨start, hstart⟩ := exists_descendTreeAndMark_subset_markSegments
    (Mdds.buildTree (keysUniq t.segmentData)) (keysUniq t.segmentData) t.segmentData
    (fun _ => [], fun _ => []) hdata
  rw [chains_buildTree t htwo, hroot]
  by_cases hbegin : leafKey (keysUniq t.segmentData) i = data.beginKey
  · exact (hspans.marks_begin hks (hordered data hdata) (Nat.zero_le i) (by omega) hnext hbegin
      start).imp (hstart _ _) fun ⟨range, hrange, hlow, hhigh, hmem⟩ =>
        ⟨range, hrange, hlow, hhigh, hstart _ _ hmem⟩
  · exact .inl (hstart _ _ (hspans.marks_end hks (hordered data hdata) (Nat.zero_le _)
      (by omega) (hkey.resolve_left hbegin) hbegin start))

/-- After `build_tree`, a search at a key in the interval of leaf `i` reads the labels of the nodes
whose range holds the key, then the chain of leaf `i`: the release build returns that, and a build
with assertions returns that when it returns. -/
theorem search_buildTree_eq (hne : t.segmentData ≠ []) {i : Nat} {point : K}
    (hnext : i + 1 < (keysUniq t.segmentData).length)
    (hlow : leafKey (keysUniq t.segmentData) i ≤ point)
    (hhigh : point < leafKey (keysUniq t.segmentData) (i + 1)) :
    t.buildTree.search true point = .ok (some (pathLabels t.buildTree.chains point
      t.buildTree.rootNode ++ t.buildTree.chains (.leaf i))) ∧
    ∀ ndebug hs, t.buildTree.search ndebug point = .ok (some hs) →
      hs = pathLabels t.buildTree.chains point t.buildTree.rootNode ++
        t.buildTree.chains (.leaf i) := by
  obtain ⟨htwo, -, hroot⟩ := buildTree_eq_keysUniq t hne hordered
  obtain ⟨lvl, hspans⟩ := spans_buildTree htwo
  have hsearch := search_eq_descendTreeForSearch (t := t.buildTree) rfl (hroot ▸ hspans.ne_null)
  have hrelease : t.buildTree.search true point = .ok (some (pathLabels t.buildTree.chains point
      t.buildTree.rootNode ++ t.buildTree.chains (.leaf i))) := by
    rw [hsearch, hroot, hspans.descendTreeForSearch_eq (keysUniq_sorted _) _ (Nat.zero_le i)
      (by omega) hnext hlow hhigh]
    rfl
  refine ⟨hrelease, fun ndebug hs hdebug => ?_⟩
  rw [hsearch] at hdebug
  obtain ⟨found, hdescend, hsome⟩ := map_eq_ok_iff.mp hdebug
  have hok : t.buildTree.search true point = .ok (some found) := by
    rw [hsearch]
    cases ndebug
    · rw [descendTreeForSearch_release_of_debug point _ _ _ hdescend]; rfl
    · rw [hdescend]; rfl
  rw [hrelease] at hok
  cases hok
  exact (Option.some.inj hsome).symm

/-- After `build_tree`, a search finds every segment at every key of its first elementary
interval, where no end point of the leaf chain lies between its begin key and the key, and of its
last one, where none lies between the key and its end key. The release build returns a result,
and a build with assertions, when it returns, returns one with the segment too. -/
theorem search_buildTree_finds_segment_at_ends
    {data : SegmentData K H} (hdata : data ∈ t.segmentData) {point : K}
    (hin : data.beginKey ≤ point ∧ point < data.endKey)
    (hends : (∀ key ∈ t.buildTree.leaves, ¬(data.beginKey < key ∧ key ≤ point)) ∨
      (∀ key ∈ t.buildTree.leaves, ¬(point < key ∧ key < data.endKey))) :
    (∃ hs, t.buildTree.search true point = .ok (some hs)) ∧
      ∀ ndebug hs, t.buildTree.search ndebug point = .ok (some hs) → data.pdata ∈ hs := by
  obtain ⟨-, hleaves, -⟩ := buildTree_eq_keysUniq t (List.ne_nil_of_mem hdata) hordered
  have hks := keysUniq_sorted t.segmentData
  rw [hleaves] at hends
  -- the leaves at the segment's two end points, and the leaf `i` whose interval holds the key
  obtain ⟨ib, hib, hbegin⟩ := exists_leafKey_eq (mem_keysUniq.mpr ⟨data, hdata, .inl rfl⟩)
  obtain ⟨ie, hie, hend⟩ := exists_leafKey_eq (mem_keysUniq.mpr ⟨data, hdata, .inr rfl⟩)
  obtain ⟨i, hi, hlow, hhigh⟩ := exists_leafKey_interval
    ((leafKey_le_leafKey hks (Nat.zero_le ib) hib).trans (hbegin ▸ hin.1)) ie (hend ▸ hin.2)
  -- leaf `i` is the leaf at the begin key, or the leaf before the one at the end key
  have hkey : leafKey (keysUniq t.segmentData) i = data.beginKey ∨
      leafKey (keysUniq t.segmentData) (i + 1) = data.endKey := by
    have hmem (n : Nat) (hn : n < (keysUniq t.segmentData).length) :=
      List.getElem?_mem (getElem?_of_lt hn)
    rcases hends with hnone | hnone
    · have hibi : ib ≤ i :=
        Nat.lt_succ_iff.mp (lt_of_leafKey_lt hks hib (hbegin ▸ hin.1.trans_lt hhigh))
      exact .inl (le_antisymm (not_lt.mp fun hlt => hnone _ (hmem i (by omega)) ⟨hlt, hlow⟩)
        (hbegin ▸ leafKey_le_leafKey hks hibi (by omega)))
    · exact .inr (le_antisymm (hend ▸ leafKey_le_leafKey hks hi hie)
        (not_lt.mp fun hlt => hnone _ (hmem (i + 1) (by omega)) ⟨hhigh, hlt⟩))
  obtain ⟨hrelease, hread⟩ :=
    search_buildTree_eq t hordered (List.ne_nil_of_mem hdata) (by omega) hlow hhigh
  refine ⟨⟨_, hrelease⟩, fun ndebug hs hsearch => ?_⟩
  rw [hread ndebug hs hsearch]
  rcases mem_chains_buildTree t hordered hdata (by omega) hkey with
    hleaf | ⟨range, hrange, hlow', hhigh', hmem⟩
  · exact List.mem_append_right _ hleaf
  · exact List.mem_append_left _
      (mem_pathLabels hrange ⟨hlow'.trans hlow, hhigh.trans_le hhigh'⟩ hmem)

end Search

/-- Segment `B = [5, 15)` of the stabbing scenario, missed at key `10`: a search finds it at `5`,
in its first elementary interval `[5, 10)`, and at `12`, in its last one `[12, 15)`. -/
theorem search_buildTree_finds_segment_at_ends_stabbing :
    ((∃ hs, stabbingSegments.buildTree.search true 5 = .ok (some hs)) ∧
      ∀ ndebug hs, stabbingSegments.buildTree.search ndebug 5 = .ok (some hs) → 'B' ∈ hs) ∧
    ((∃ hs, stabbingSegments.buildTree.search true 12 = .ok (some hs)) ∧
      ∀ ndebug hs, stabbingSegments.buildTree.search ndebug 12 = .ok (some hs) → 'B' ∈ hs) :=
  ⟨search_buildTree_finds_segment_at_ends stabbingSegments (by decide)
      (show ⟨5, 15, 'B'⟩ ∈ stabbingSegments.segmentData by decide) (by decide) (.inl (by decide)),
    search_buildTree_finds_segment_at_ends stabbingSegments (by decide)
      (show ⟨5, 15, 'B'⟩ ∈ stabbingSegments.segmentData by decide) (by decide) (.inr (by decide))⟩

end Mdds.SegmentTree

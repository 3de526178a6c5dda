import Mdds.RTree.EraseShrink
import Mdds.RTree.InsertEntries

/-!
# What an erasure keeps

`rtree::erase` removes a value node from its leaf directory and then either walks up with
`shrink_tree_upward`, or dissolves the leaf, carries its other values up as orphans and inserts
them again from the root. Each level passes up an `Erased` that still holds entries of the tree:
its node's and the orphans' (`Erased.entries`). The erasure of an entry from a subtree keeps all
the subtree's other entries in what it passes up (`Keeps`), until a directory left underfull drops
the orphans, after which the code throws.

Whatever the tree, an `erase` that returns was given the position of a value node and takes out
exactly that value's entry, each orphan being inserted again (`erase_returned_removes_entry`). No
invariant is needed: the bookkeeping holds level by level (`keeps_eraseFromLeaf`,
`keeps_absorbErased`, `keeps_eraseDescend`) and through the reinsertions
(`perm_reinsertOrphans`), which together give `perm_erase_returned`.
-/

set_option autoImplicit false
set_option relaxedAutoImplicit false

namespace Mdds.RTree

open NodeStore BoundingBox
open scoped List

variable {K V : Type} {D : Nat}

/-- The entries what one level of an erasure passes up holds: its node's, and those of the orphans
it carries. -/
def Erased.entries : Erased K V D → List (BoundingBox K D × V)
  | .shrinking node _ => node.entries
  | .done node => node.entries
  | .dissolving orphans => entriesAll orphans
  | .dissolved node orphans => node.entries ++ entriesAll orphans
  | .underfull node => node.entries

/-- What the erasure of `entry` from the subtree `t` passes up: all of `t`'s entries but `entry`,
unless it left an underfull directory, which has dropped the orphans. -/
def Keeps (t : NodeStore K V D) (entry : BoundingBox K D × V) (e : Erased K V D) : Prop :=
  (∃ node, e = .underfull node) ∨ t.entries.Perm (entry :: e.entries)

/-- A child that lost `entry` and gained `tail`, put back in its place of the vector. -/
theorem perm_entriesAll_set_cons {children : List (NodeStore K V D)} {index : Nat}
    {child child' : NodeStore K V D} {entry : BoundingBox K D × V}
    {tail : List (BoundingBox K D × V)} (hchild : children[index]? = some child)
    (hperm : child.entries.Perm (entry :: (child'.entries ++ tail))) :
    (entriesAll children).Perm (entry :: (entriesAll (children.set index child') ++ tail)) :=
  (perm_entriesAll_set_append hchild
    (show (child'.entries ++ entry :: tail).Perm ([] ++ child.entries) from
      List.perm_middle.trans hperm.symm)).symm.trans List.perm_middle

section Walk

variable [LinearOrder K] [Zero K] (tr : Trait)

@[simp] theorem entries_shrinkStep (ns : NodeStore K V D) (affected : BoundingBox K D) :
    (shrinkStep ns affected).entries = ns.entries := by
  unfold shrinkStep
  split_ifs <;> simp [Erased.entries]

/-- The leaf's level: the position held a value node, and what passes up keeps the leaf's other
entries. -/
theorem keeps_eraseFromLeaf {isRoot : Bool} {type : DirType} {box : BoundingBox K D}
    {count : Nat} {valid linked : Bool} {children : List (NodeStore K V D)} {capacity index : Nat}
    {e : Erased K V D}
    (h : eraseFromLeaf tr isRoot type box count valid linked children capacity index = .ok e) :
    ∃ bb linked' v, children[index]? = some (.value bb linked' v) ∧
      Keeps (.directory type box count valid linked children capacity) (bb, v) e := by
  unfold eraseFromLeaf at h
  match hchild : children[index]?, h with
  | none, h => simp [throw_eq_error] at h
  | some (.directory ..), h => simp [throw_eq_error] at h
  | some (.value bb linked' v), h =>
    refine ⟨bb, linked', v, rfl, .inr ?_⟩
    have hperm := perm_entriesAll_removeChild hchild
    simp only [throw_eq_error, pure_eq_ok] at h
    split_ifs at h <;> cases h
    · simpa [entries] using hperm
    · simpa [entries, Erased.entries] using hperm

/-- A directory's level: what its child passed up keeping the child's entries but `entry`, what
the directory passes up keeps its own. -/
theorem keeps_absorbErased {type : DirType} {box : BoundingBox K D} {count : Nat}
    {valid linked : Bool} {children : List (NodeStore K V D)} {capacity index : Nat}
    {child : NodeStore K V D} {entry : BoundingBox K D × V} {e e' : Erased K V D}
    (hchild : children[index]? = some child) (hkeeps : Keeps child entry e)
    (h : absorbErased tr type box count valid linked children capacity index e = .ok e') :
    Keeps (.directory type box count valid linked children capacity) entry e' := by
  cases e with
  | shrinking child' affected =>
    have hperm := hkeeps.resolve_left (by simp)
    simp only [absorbErased, throw_eq_error, pure_eq_ok] at h
    split_ifs at h <;> cases h
    have hset := perm_entriesAll_set_cons hchild (show child.entries.Perm
      (entry :: (child'.entries ++ [])) by simpa [Erased.entries] using hperm)
    exact .inr (by simpa [entries] using hset)
  | done child' =>
    have hperm := hkeeps.resolve_left (by simp)
    cases h
    have hset := perm_entriesAll_set_cons hchild (show child.entries.Perm
      (entry :: (child'.entries ++ [])) by simpa [Erased.entries] using hperm)
    exact .inr (by simpa [entries, Erased.entries] using hset)
  | dissolving orphans =>
    have hperm := hkeeps.resolve_left (by simp)
    simp only [absorbErased, hchild, throw_eq_error, pure_eq_ok] at h
    split_ifs at h <;> cases h
    · exact .inl ⟨_, rfl⟩
    · refine .inr ((perm_entriesAll_removeChild hchild).trans ?_)
      simp only [Erased.entries, entries_pack, entries_resetParentPointers, entries] at hperm ⊢
      exact (hperm.append_right _).trans (List.perm_append_comm.cons _)
  | dissolved child' orphans =>
    cases h
    have hset := perm_entriesAll_set_cons hchild
      (by simpa [Erased.entries] using hkeeps.resolve_left (by simp))
    exact .inr (by simpa [entries, Erased.entries] using hset)
  | underfull child' =>
    cases h
    exact .inl ⟨_, rfl⟩

theorem lt_of_eraseAt_eq_ok {pos : List Nat} {e : Erased K V D} :
    ∀ {index : Nat} {children : List (NodeStore K V D)}, eraseAt tr pos index children = .ok e →
      index < children.length
  | _, [], h => by simp [eraseAt, throw_eq_error] at h
  | 0, _ :: _, _ => Nat.succ_pos _
  | _ + 1, _ :: _, h => Nat.succ_lt_succ (lt_of_eraseAt_eq_ok (by rwa [eraseAt] at h))

theorem eraseDescend_nil (isRoot : Bool) (t : NodeStore K V D) :
    eraseDescend tr isRoot [] t = throw .undefinedBehavior := by
  cases t <;> rfl

theorem eraseDescend_value (isRoot : Bool) (pos : List Nat) (bb : BoundingBox K D)
    (linked : Bool) (v : V) :
    eraseDescend tr isRoot pos (.value bb linked v) = throw .undefinedBehavior := by
  match pos with
  | [] | [_] | _ :: _ :: _ => rfl

/-- The erasure at position `pos` under a node: the position held a value node, and what passes
up keeps the node's other entries. -/
theorem keeps_eraseDescend :
    ∀ (pos : List Nat) (isRoot : Bool) (t : NodeStore K V D) {e : Erased K V D},
      eraseDescend tr isRoot pos t = .ok e →
        ∃ bb linked v, t.get? pos = some (.value bb linked v) ∧ Keeps t (bb, v) e
  | [], isRoot, t, _, h => by rw [eraseDescend_nil] at h; cases h
  | [index], isRoot, .directory type box count valid linked children capacity, _, h => by
    obtain ⟨bb, linked', v, hchild, hkeeps⟩ := keeps_eraseFromLeaf tr (by rwa [eraseDescend] at h)
    exact ⟨bb, linked', v, by simp [get?, hchild], hkeeps⟩
  | index :: next :: pos, isRoot, .directory type box count valid linked children capacity,
      _, h => by
    rw [eraseDescend] at h
    obtain ⟨e₀, h₀, h⟩ := bind_eq_ok_iff.mp h
    have hindex := lt_of_eraseAt_eq_ok tr h₀
    rw [eraseAt_eq_eraseDescend tr _ index children hindex] at h₀
    obtain ⟨bb, linked', v, hget, hkeeps⟩ := keeps_eraseDescend (next :: pos) false _ h₀
    have hchild := List.getElem?_eq_getElem hindex
    exact ⟨bb, linked', v, get?_cons_eq_some.mpr ⟨_, hchild, hget⟩,
      keeps_absorbErased tr hchild hkeeps h⟩
  | _ :: _, isRoot, .value .., _, h => by rw [eraseDescend_value] at h; cases h

end Walk

section Calls

variable [LinearOrderedCommRing K] [NeZero D] {tr : Trait} {growth : VectorGrowth}

/-- The orphans that the loop inserts again, when it returns, are all in the tree it leaves. -/
theorem perm_reinsertOrphans :
    ∀ {tree final : NodeStore K V D} (orphans : List (NodeStore K V D)),
      reinsertOrphans tr growth tree orphans = .returned final →
        final.entries.Perm (entriesAll orphans ++ tree.entries)
  | _, _, [], h => by cases h; rfl
  | tree, final, orphan :: rest, h => by
    rw [reinsertOrphans] at h
    cases hins : insertNodeStore tr growth tree orphan with
    | ok tree' =>
      rw [hins] at h
      calc final.entries.Perm (entriesAll rest ++ tree'.entries) := perm_reinsertOrphans rest h
        _ ~ entriesAll rest ++ (orphan.entries ++ tree.entries) :=
          (perm_insertNodeStore tr growth hins).append_left _
        _ ~ entriesAll (orphan :: rest) ++ tree.entries := by
          rw [entriesAll, ← List.append_assoc]
          exact List.perm_append_comm.append_right _
    | error failure => cases failure <;> simp [hins] at h

/-- An `rtree::erase` that returns was given the position of a value node, and the tree it leaves
holds the other entries. -/
theorem perm_erase_returned {root tree : NodeStore K V D} {pos : List Nat}
    (h : erase tr growth root pos = .returned tree) :
    ∃ bb linked v, root.get? pos = some (.value bb linked v) ∧
      root.entries.Perm ((bb, v) :: tree.entries) := by
  unfold erase at h
  cases hdescend : eraseDescend tr true pos root with
  | error failure => cases failure <;> simp [hdescend] at h
  | ok e =>
    obtain ⟨bb, linked, v, hget, hkeeps⟩ := keeps_eraseDescend tr pos true root hdescend
    refine ⟨bb, linked, v, hget, ?_⟩
    rw [hdescend] at h
    cases e with
    | shrinking => cases h; exact hkeeps.resolve_left (by simp)
    | done => cases h; exact hkeeps.resolve_left (by simp)
    | dissolving => cases h
    | dissolved tree' orphans =>
      have hreverse : (entriesAll orphans.reverse).Perm (entriesAll orphans) := by
        rw [entriesAll_eq_flatMap, entriesAll_eq_flatMap]
        exact (List.reverse_perm orphans).flatMap_right _
      calc root.entries.Perm ((bb, v) :: (tree'.entries ++ entriesAll orphans)) :=
            hkeeps.resolve_left (by simp)
        _ ~ (bb, v) :: (entriesAll orphans.reverse ++ tree'.entries) :=
            (List.perm_append_comm.trans (hreverse.symm.append_right _)).cons _
        _ ~ (bb, v) :: tree.entries := (perm_reinsertOrphans orphans.reverse h).symm.cons _
    | underfull => cases h

/-- Whatever the tree, an `rtree::erase` that returns was given the position of a value node, and
takes exactly that value's entry out of the tree: the orphans of a dissolved leaf directory are
all inserted again, and nothing else is lost or doubled. -/
theorem erase_returned_removes_entry {root tree : NodeStore K V D} {pos : List Nat}
    (h : erase tr growth root pos = .returned tree) :
    ∃ bb linked v, root.get? pos = some (.value bb linked v) ∧
      (root.entries : Multiset (BoundingBox K D × V)) = (bb, v) ::ₘ tree.entries :=
  let ⟨bb, linked, v, hget, hperm⟩ := perm_erase_returned h
  ⟨bb, linked, v, hget, Multiset.coe_eq_coe.mpr hperm⟩

end Calls

/-- Under a growth that reserves eight more places, seven points leave leaves of keys `0, 1`,
`2, 3` and `4, 5, 6` under the root. Erasing key `0` dissolves its leaf, and the orphan of key `1`
is inserted again, into the leaf of keys `2, 3`. -/
theorem erase_returned_removes_entry_dissolve :
    ∃ tree tree', insertAll ⟨2, 4, 100, by decide⟩ ⟨fun c => c + 8, fun c => Nat.lt_add_of_pos_right
        (by decide)⟩ (empty : NodeStore Int Nat 1)
        ((List.range 7).map fun (key : Nat) => (⟨fun _ => ↑key⟩, ⟨fun _ => ↑key⟩, key)) =
          .returned tree ∧
      erase ⟨2, 4, 100, by decide⟩ ⟨fun c => c + 8, fun c => Nat.lt_add_of_pos_right (by decide)⟩
          tree [0, 0] = .returned tree' ∧
      tree'.children.length = 2 ∧
      ∃ bb linked v, tree.get? [0, 0] = some (.value bb linked v) ∧
        (tree.entries : Multiset (BoundingBox Int 1 × Nat)) = (bb, v) ::ₘ tree'.entries :=
  ⟨_, _, rfl, rfl, rfl, erase_returned_removes_entry (show erase ⟨2, 4, 100, by decide⟩
    ⟨fun c => c + 8, fun c => Nat.lt_add_of_pos_right (by decide)⟩ _ [0, 0] = _ from rfl)⟩

end Mdds.RTree

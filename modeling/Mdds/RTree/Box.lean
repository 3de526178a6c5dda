import Mathlib.Algebra.BigOperators.Fin
import Mathlib.Data.Fin.VecNotation
import Mathlib.Data.List.Sort
import Mathlib.Tactic.Linarith
import Mathlib.Tactic.Ring

/-!
# Points and bounding boxes of the R-tree

`rtree_def.inl` keeps a point as an array of `dimensions` keys and a bounding box as two points,
`start` and `end`. The box predicates `contains(point)`, `contains(bounding_box)` and
`contains_at_boundary` are loops over the dimensions; here they are statements over `Fin D`, with
the decision procedure that evaluates them. The free functions of `detail::rtree` are translated
one by one: `enlargeBoxToFit`, `calcLinearIntersection`, `calcIntersection`, `calcArea`,
`calcHalfMargin`, `calcAreaEnlargement` and the running minimum `MinValuePos`.

Containment orders the boxes: `a ≤ b` when `b` contains `a`. With that order the box that
`enlarge_box_to_fit` leaves in its first argument is the supremum of the two
(`enlargeBoxToFit_fst`), so that the boxes form a join-semilattice and the bounding box of a
sequence, `calc_bounding_box`, is a fold of `⊔`. `le_foldl_sup` and `foldl_sup_le_iff` are the two
facts about that fold the tree's proofs use. `containsPoint_of_le` is the monotonicity that makes
the search's pruning sound.

Keys live in a linearly ordered commutative ring, which covers the code's integer and floating
keys up to rounding; `key_type()` is `0`. The loops that start at dimension `0` and go on from
dimension `1` need `D ≠ 0`, which the code's `static_assert(_Dim > 0, ...)` demands.
-/

set_option autoImplicit false
set_option relaxedAutoImplicit false

namespace Mdds.RTree

/-- `rtree::point`: one key per dimension, the array `d`. -/
structure Point (K : Type) (D : Nat) where
  d : Fin D → K
  deriving DecidableEq

/-- `rtree::bounding_box`: the corner points `start` and `end`. -/
structure BoundingBox (K : Type) (D : Nat) where
  start : Point K D
  «end» : Point K D
  deriving DecidableEq

namespace BoundingBox

variable {K : Type} {D : Nat}

/-- `bounding_box()`: both points default-constructed, every key `key_type()`. `pack` gives this
box to a directory without children. -/
def zero [Zero K] : BoundingBox K D := ⟨⟨fun _ => 0⟩, ⟨fun _ => 0⟩⟩

section Predicates

variable [LinearOrder K]

/-- `bounding_box::contains(point)`: no dimension has the point before `start` or after `end`. -/
def ContainsPoint (bb : BoundingBox K D) (pt : Point K D) : Prop :=
  ∀ dim, ¬ (pt.d dim < bb.start.d dim ∨ bb.«end».d dim < pt.d dim)

instance (bb : BoundingBox K D) (pt : Point K D) : Decidable (bb.ContainsPoint pt) :=
  inferInstanceAs (Decidable (∀ _, _))

/-- `bounding_box::contains(bounding_box)`: no dimension has `inner` reach out of `bb`. -/
def ContainsBox (bb inner : BoundingBox K D) : Prop :=
  ∀ dim, ¬ (inner.start.d dim < bb.start.d dim ∨ bb.«end».d dim < inner.«end».d dim)

instance (bb inner : BoundingBox K D) : Decidable (bb.ContainsBox inner) :=
  inferInstanceAs (Decidable (∀ _, _))

/-- `bounding_box::contains_at_boundary`: in some dimension `inner` starts where `bb` starts or
ends where `bb` ends. -/
def ContainsAtBoundary (bb inner : BoundingBox K D) : Prop :=
  ∃ dim, bb.start.d dim = inner.start.d dim ∨ inner.«end».d dim = bb.«end».d dim

instance (bb inner : BoundingBox K D) : Decidable (bb.ContainsAtBoundary inner) :=
  inferInstanceAs (Decidable (∃ _, _))

end Predicates

/-! ### Containment order and `enlarge_box_to_fit` -/

section Order

variable [LinearOrder K]

/-- `detail::rtree::enlarge_box_to_fit`: `parent` widened, dimension by dimension, to take in
`child`, and whether any key moved. -/
def enlargeBoxToFit (parent child : BoundingBox K D) : BoundingBox K D × Bool :=
  (⟨⟨fun dim => if child.start.d dim < parent.start.d dim then child.start.d dim
        else parent.start.d dim⟩,
      ⟨fun dim => if parent.«end».d dim < child.«end».d dim then child.«end».d dim
        else parent.«end».d dim⟩⟩,
    decide (∃ dim, child.start.d dim < parent.start.d dim ∨
      parent.«end».d dim < child.«end».d dim))

/-- Containment as an order: `a ≤ b` when `b` contains `a`, and the supremum is the box
`enlarge_box_to_fit` computes. -/
instance : SemilatticeSup (BoundingBox K D) where
  le a b := ∀ dim, b.start.d dim ≤ a.start.d dim ∧ a.«end».d dim ≤ b.«end».d dim
  le_refl _ _ := ⟨le_rfl, le_rfl⟩
  le_trans _ _ _ hab hbc dim := ⟨(hbc dim).1.trans (hab dim).1, (hab dim).2.trans (hbc dim).2⟩
  le_antisymm a b hab hba := by
    obtain ⟨⟨as⟩, ⟨ae⟩⟩ := a
    obtain ⟨⟨bs⟩, ⟨be⟩⟩ := b
    congr 2 <;> funext dim
    exacts [le_antisymm (hba dim).1 (hab dim).1, le_antisymm (hab dim).2 (hba dim).2]
  sup a b := (enlargeBoxToFit a b).1
  le_sup_left a b dim := by dsimp only [enlargeBoxToFit]; split_ifs <;> simp_all [le_of_lt]
  le_sup_right a b dim := by
    dsimp only [enlargeBoxToFit]; split_ifs <;> simp_all [le_of_lt, not_lt]
  sup_le a b c hac hbc dim := by
    dsimp only [enlargeBoxToFit]; split_ifs <;> simp_all

theorem le_def {a b : BoundingBox K D} :
    a ≤ b ↔ ∀ dim, b.start.d dim ≤ a.start.d dim ∧ a.«end».d dim ≤ b.«end».d dim :=
  Iff.rfl

instance (a b : BoundingBox K D) : Decidable (a ≤ b) :=
  inferInstanceAs (Decidable (∀ _, _ ∧ _))

@[simp] theorem enlargeBoxToFit_fst (parent child : BoundingBox K D) :
    (enlargeBoxToFit parent child).1 = parent ⊔ child := rfl

/-- `enlarge_box_to_fit` reports a change exactly when `parent` did not contain `child`. -/
@[simp] theorem enlargeBoxToFit_snd (parent child : BoundingBox K D) :
    (enlargeBoxToFit parent child).2 = !decide (child ≤ parent) := by
  have hmoved : (∃ dim, child.start.d dim < parent.start.d dim ∨
      parent.«end».d dim < child.«end».d dim) ↔ ¬ child ≤ parent := by
    simp only [le_def, not_forall, not_and_or, not_le]
  simp only [enlargeBoxToFit, hmoved, decide_not]

@[simp] theorem sup_start (a b : BoundingBox K D) (dim : Fin D) :
    (a ⊔ b).start.d dim = min (a.start.d dim) (b.start.d dim) := by
  show (if _ then _ else _) = _
  split_ifs with h
  · exact (min_eq_right h.le).symm
  · exact (min_eq_left (not_lt.mp h)).symm

@[simp] theorem sup_end (a b : BoundingBox K D) (dim : Fin D) :
    (a ⊔ b).«end».d dim = max (a.«end».d dim) (b.«end».d dim) := by
  show (if _ then _ else _) = _
  split_ifs with h
  · exact (max_eq_right h.le).symm
  · exact (max_eq_left (not_lt.mp h)).symm

theorem containsBox_iff_le {bb inner : BoundingBox K D} :
    bb.ContainsBox inner ↔ inner ≤ bb := by
  simp only [ContainsBox, le_def, not_or, not_lt]

/-- A box that lies in `bb` also holds every point `bb` is asked about: pruning a subtree whose
box misses the point never hides a box that holds it. -/
theorem containsPoint_of_le {inner bb : BoundingBox K D} (hle : inner ≤ bb) {pt : Point K D}
    (hpt : inner.ContainsPoint pt) : bb.ContainsPoint pt := fun dim => by
  have hin := hpt dim
  simp only [not_or, not_lt] at hin ⊢
  exact ⟨(hle dim).1.trans hin.1, hin.2.trans (hle dim).2⟩

omit [LinearOrder K] in
/-- A box that does not touch its own boundary has no dimension, and then all boxes are one. -/
theorem eq_of_not_containsAtBoundary_self {bb : BoundingBox K D}
    (hbb : ¬ bb.ContainsAtBoundary bb) (a b : BoundingBox K D) : a = b := by
  have : IsEmpty (Fin D) := ⟨fun dim => hbb ⟨dim, .inl rfl⟩⟩
  obtain ⟨⟨astart⟩, ⟨aend⟩⟩ := a
  obtain ⟨⟨bstart⟩, ⟨bend⟩⟩ := b
  congr <;> funext dim <;> exact isEmptyElim dim

/-! ### Folds of `⊔` -/

/-- The start of a fold of `⊔` lies in its result. -/
theorem le_foldl_sup (first : BoundingBox K D) :
    ∀ (boxes : List (BoundingBox K D)), first ≤ boxes.foldl (· ⊔ ·) first
  | [] => le_rfl
  | box :: boxes => le_sup_left.trans (le_foldl_sup (first ⊔ box) boxes)

/-- A fold of `⊔` lies in `bb` exactly when its start and every folded box do. -/
theorem foldl_sup_le_iff (bb : BoundingBox K D) :
    ∀ (first : BoundingBox K D) (boxes : List (BoundingBox K D)),
      boxes.foldl (· ⊔ ·) first ≤ bb ↔ first ≤ bb ∧ ∀ box ∈ boxes, box ≤ bb
  | first, [] => by simp
  | first, box :: boxes => by
    rw [List.foldl_cons, foldl_sup_le_iff bb (first ⊔ box) boxes, sup_le_iff]
    simp [and_assoc]

/-- Each start of a fold of `⊔` is the start of one of the folded boxes. -/
theorem exists_start_eq_foldl_sup (dim : Fin D) :
    ∀ (first : BoundingBox K D) (boxes : List (BoundingBox K D)),
      ∃ b ∈ first :: boxes, b.start.d dim = (boxes.foldl (· ⊔ ·) first).start.d dim
  | first, [] => ⟨first, List.mem_cons_self _ _, rfl⟩
  | first, box :: boxes => by
    obtain ⟨b, hb, hstart⟩ := exists_start_eq_foldl_sup dim (first ⊔ box) boxes
    rcases List.mem_cons.mp hb with rfl | hmem
    · rcases min_choice (first.start.d dim) (box.start.d dim) with hmin | hmin
      · exact ⟨first, by simp, by rw [List.foldl_cons, ← hstart, sup_start, hmin]⟩
      · exact ⟨box, by simp, by rw [List.foldl_cons, ← hstart, sup_start, hmin]⟩
    · exact ⟨b, by simp [hmem], hstart⟩

/-- Each end of a fold of `⊔` is the end of one of the folded boxes. -/
theorem exists_end_eq_foldl_sup (dim : Fin D) :
    ∀ (first : BoundingBox K D) (boxes : List (BoundingBox K D)),
      ∃ b ∈ first :: boxes, b.«end».d dim = (boxes.foldl (· ⊔ ·) first).«end».d dim
  | first, [] => ⟨first, List.mem_cons_self _ _, rfl⟩
  | first, box :: boxes => by
    obtain ⟨b, hb, hend⟩ := exists_end_eq_foldl_sup dim (first ⊔ box) boxes
    rcases List.mem_cons.mp hb with rfl | hmem
    · rcases max_choice (first.«end».d dim) (box.«end».d dim) with hmax | hmax
      · exact ⟨first, by simp, by rw [List.foldl_cons, ← hend, sup_end, hmax]⟩
      · exact ⟨box, by simp, by rw [List.foldl_cons, ← hend, sup_end, hmax]⟩
    · exact ⟨b, by simp [hmem], hend⟩

end Order

/-! ### Measures -/

section Measures

variable [LinearOrderedCommRing K]

/-- The overlap of an interval ending at `end1` with `[start2, end2]`, when the first interval
starts no later than `start2`. -/
def linearIntersection (end1 start2 end2 : K) : K :=
  if end1 < start2 then 0
  else if end1 < end2 then end1 - start2
  else end2 - start2

/-- `detail::rtree::calc_linear_intersection`: the length the two boxes share along `dim`, the
two intervals being swapped first so that the first starts no later. -/
def calcLinearIntersection (dim : Fin D) (bb1 bb2 : BoundingBox K D) : K :=
  if bb2.start.d dim < bb1.start.d dim then
    linearIntersection (bb2.«end».d dim) (bb1.start.d dim) (bb1.«end».d dim)
  else
    linearIntersection (bb1.«end».d dim) (bb2.start.d dim) (bb2.«end».d dim)

/-- The loop of `calc_intersection` over the dimensions after the first: the volume so far is
multiplied by each shared length, and a zero length ends the loop with `0`. -/
def intersectionFrom (bb1 bb2 : BoundingBox K D) (total : K) : List (Fin D) → K
  | [] => total
  | dim :: dims =>
    if calcLinearIntersection dim bb1 bb2 = 0 then 0
    else intersectionFrom bb1 bb2 (total * calcLinearIntersection dim bb1 bb2) dims

/-- `detail::rtree::calc_intersection`: the volume the two boxes share, starting from the shared
length along dimension `0`. -/
def calcIntersection [NeZero D] (bb1 bb2 : BoundingBox K D) : K :=
  if calcLinearIntersection 0 bb1 bb2 = 0 then 0
  else intersectionFrom bb1 bb2 (calcLinearIntersection 0 bb1 bb2) (List.finRange D).tail

/-- `detail::rtree::calc_area`: the product of the box's extents, dimension `0` first. -/
def calcArea [NeZero D] (bb : BoundingBox K D) : K :=
  (List.finRange D).tail.foldl (fun area dim => area * (bb.«end».d dim - bb.start.d dim))
    (bb.«end».d 0 - bb.start.d 0)

/-- `detail::rtree::calc_half_margin`: the sum of the box's extents, one edge per dimension. -/
def calcHalfMargin [NeZero D] (bb : BoundingBox K D) : K :=
  (List.finRange D).tail.foldl (fun margin dim => margin + (bb.«end».d dim - bb.start.d dim))
    (bb.«end».d 0 - bb.start.d 0)

/-- `detail::rtree::calc_area_enlargement`: how much area `host` gains when widened to take in
`guest`, and `0` when it needs no widening. -/
def calcAreaEnlargement [NeZero D] (host guest : BoundingBox K D) : K :=
  if (enlargeBoxToFit host guest).2 then calcArea (enlargeBoxToFit host guest).1 - calcArea host
  else 0

end Measures

end BoundingBox

/-! ### The running minimum -/

/-- `detail::rtree::min_value_pos`: the least value assigned so far, the position (a `size_t`) it
came with, and how many values were assigned. -/
structure MinValuePos (K : Type) where
  value : K
  pos : Nat
  count : Nat
  deriving DecidableEq

namespace MinValuePos

variable {K : Type}

/-- A fresh `min_value_pos`: value `key_type()`, position `0`, nothing assigned. -/
def init [Zero K] : MinValuePos K := ⟨0, 0, 0⟩

/-- `min_value_pos::assign`: the first value is taken, and a later one only when strictly less
than the current value. -/
def assign [LT K] [DecidableRel (α := K) (· < ·)] (m : MinValuePos K) (newValue : K)
    (newPos : Nat) : MinValuePos K :=
  if m.count ≠ 0 then
    if newValue < m.value then ⟨newValue, newPos, m.count + 1⟩
    else { m with count := m.count + 1 }
  else ⟨newValue, newPos, m.count + 1⟩

end MinValuePos

end Mdds.RTree

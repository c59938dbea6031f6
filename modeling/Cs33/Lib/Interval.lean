import Mathlib.Algebra.Ring.Nat
import Mathlib.Order.Interval.Finset.Nat

/-! # Disjoint intervals of natural numbers

An interval is its first element and its length. Disjoint intervals inside a
range have lengths that sum to at most the length of the range.
-/

namespace Interval

def Apart (x y : Nat × Nat) : Prop := x.1 + x.2 ≤ y.1 ∨ y.1 + y.2 ≤ x.1

/-- The first interval reaches beyond the second one at both ends. -/
def Encloses (x y : Nat × Nat) : Prop := x.1 < y.1 ∧ y.1 + y.2 < x.1 + x.2

/-- Neither end of the first interval lies in the second one. -/
def EndsOutside (x y : Nat × Nat) : Prop :=
  ¬ (y.1 ≤ x.1 ∧ x.1 < y.1 + y.2) ∧ ¬ (y.1 < x.1 + x.2 ∧ x.1 + x.2 ≤ y.1 + y.2)

theorem Apart.symm {x y : Nat × Nat} (h : Apart x y) : Apart y x := Or.symm h

/-- What the two end tests miss is exactly the enclosing interval. -/
theorem EndsOutside.apart_iff {x y : Nat × Nat} (h : EndsOutside x y) (hy : 0 < y.2) :
    Apart x y ↔ ¬ Encloses x y := by
  rw [EndsOutside] at h
  simp only [Apart, Encloses]
  omega

theorem Apart.not_encloses {x y : Nat × Nat} (h : Apart x y) : ¬ Encloses x y := by
  rw [Apart] at h
  rw [Encloses]
  omega

def elems (x : Nat × Nat) : Finset Nat := Finset.Ico x.1 (x.1 + x.2)

def cover (xs : List (Nat × Nat)) : Finset Nat := xs.foldr (fun x s => elems x ∪ s) ∅

theorem mem_cover {xs : List (Nat × Nat)} {n : Nat} : n ∈ cover xs ↔ ∃ x ∈ xs, n ∈ elems x := by
  induction xs with
  | nil => simp [cover]
  | cons x xs ih =>
    have hCover : cover (x :: xs) = elems x ∪ cover xs := rfl
    rw [hCover, Finset.mem_union, ih]
    simp

theorem card_cover {xs : List (Nat × Nat)}
    (h : xs.Pairwise fun x y => Disjoint (elems x) (elems y)) :
    (cover xs).card = (xs.map Prod.snd).sum := by
  induction h with
  | nil => rfl
  | @cons x xs hx _ ih =>
    have hCover : cover (x :: xs) = elems x ∪ cover xs := rfl
    have hCard : (elems x).card = x.2 := by
      rw [elems, Nat.card_Ico, Nat.add_sub_cancel_left]
    have hDisjoint : Disjoint (elems x) (cover xs) := by
      rw [Finset.disjoint_left]
      intro n hn hMem
      obtain ⟨y, hy, hMem⟩ := mem_cover.mp hMem
      exact Finset.disjoint_left.mp (hx y hy) hn hMem
    rw [hCover, Finset.card_union_of_disjoint hDisjoint, ih, hCard, List.map_cons, List.sum_cons]

theorem sum_le {xs : List (Nat × Nat)} {lo hi : Nat}
    (h : xs.Pairwise fun x y => Disjoint (elems x) (elems y))
    (hIn : ∀ x ∈ xs, lo ≤ x.1 ∧ x.1 + x.2 ≤ hi) : (xs.map Prod.snd).sum ≤ hi - lo := by
  have hSubset : cover xs ⊆ Finset.Ico lo hi := by
    intro n hn
    obtain ⟨x, hx, hMem⟩ := mem_cover.mp hn
    obtain ⟨hLo, hHi⟩ := Finset.mem_Ico.mp hMem
    obtain ⟨hLo', hHi'⟩ := hIn x hx
    exact Finset.mem_Ico.mpr ⟨hLo'.trans hLo, hHi.trans_le hHi'⟩
  calc (xs.map Prod.snd).sum = (cover xs).card := (card_cover h).symm
    _ ≤ (Finset.Ico lo hi).card := Finset.card_le_card hSubset
    _ = hi - lo := Nat.card_Ico lo hi

end Interval

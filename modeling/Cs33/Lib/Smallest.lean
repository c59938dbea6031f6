import Mathlib.Order.Bounds.Basic
import Mathlib.Order.Defs.LinearOrder
import Mathlib.Data.List.Perm.Basic

/-! # The smallest elements of a list

`Smallest xs kept` says that `kept` is in ascending order and that the elements
of `xs` that it leaves out are not below those it has. The three steps add an
element to `xs`: nothing was left out and it is kept, it takes the place of the
last one kept, or it is left out as well.
-/

universe u

structure Smallest {α : Type u} [LinearOrder α] (xs kept : List α) : Prop where
  sorted : kept.Pairwise (· ≤ ·)
  least : ∃ rest, xs.Perm (kept ++ rest) ∧ ∀ a ∈ kept, ∀ b ∈ rest, a ≤ b

namespace Smallest

open scoped List

variable {α : Type u} [LinearOrder α] {xs kept kept' : List α} {x last : α}

theorem nil : Smallest ([] : List α) [] where
  sorted := List.Pairwise.nil
  least := ⟨[], List.Perm.refl _, nofun⟩

theorem add (h : Smallest xs kept) (hAll : kept.length = xs.length)
    (hSorted : kept'.Pairwise (· ≤ ·)) (hPerm : kept'.Perm (x :: kept)) :
    Smallest (xs ++ [x]) kept' := by
  obtain ⟨rest, hXs, -⟩ := h.least
  have hRest : rest = [] := by
    have hLength := hXs.length_eq
    rw [List.length_append] at hLength
    exact List.eq_nil_of_length_eq_zero (by omega)
  refine ⟨hSorted, [], ?_, nofun⟩
  calc xs ++ [x] ~ kept ++ [x] := by simpa [hRest] using hXs.append_right [x]
    _ ~ x :: kept := List.perm_append_singleton x kept
    _ ~ kept' := hPerm.symm
    _ ~ kept' ++ [] := by rw [List.append_nil]

theorem replace (h : Smallest xs (kept ++ [last])) (hx : x < last)
    (hSorted : kept'.Pairwise (· ≤ ·)) (hPerm : kept'.Perm (x :: kept)) :
    Smallest (xs ++ [x]) kept' := by
  obtain ⟨rest, hXs, hLeast⟩ := h.least
  obtain ⟨-, -, hLast⟩ := List.pairwise_append.mp h.sorted
  refine ⟨hSorted, last :: rest, ?_, ?_⟩
  · calc xs ++ [x] ~ kept ++ [last] ++ rest ++ [x] := hXs.append_right [x]
      _ ~ x :: (kept ++ [last] ++ rest) := List.perm_append_singleton _ _
      _ ~ x :: kept ++ last :: rest := by simp
      _ ~ kept' ++ last :: rest := hPerm.symm.append_right _
  · intro a ha b hb
    have hBelow : a ≤ last := by
      obtain rfl | ha := List.mem_cons.mp (hPerm.mem_iff.mp ha)
      · exact hx.le
      · exact hLast a ha last (List.mem_singleton_self last)
    obtain rfl | hb := List.mem_cons.mp hb
    · exact hBelow
    · exact hBelow.trans (hLeast last (by simp) b hb)

theorem discard (h : Smallest xs (kept ++ [last])) (hx : last ≤ x) :
    Smallest (xs ++ [x]) (kept ++ [last]) := by
  obtain ⟨rest, hXs, hLeast⟩ := h.least
  obtain ⟨-, -, hLast⟩ := List.pairwise_append.mp h.sorted
  refine ⟨h.sorted, x :: rest, ?_, ?_⟩
  · calc xs ++ [x] ~ kept ++ [last] ++ rest ++ [x] := hXs.append_right [x]
      _ ~ x :: (kept ++ [last] ++ rest) := List.perm_append_singleton _ _
      _ ~ kept ++ [last] ++ x :: rest := List.perm_middle.symm
  · intro a ha b hb
    obtain rfl | hb := List.mem_cons.mp hb
    · have hBelow : a ≤ last := by
        obtain ha | ha := List.mem_append.mp ha
        · exact hLast a ha last (List.mem_singleton_self last)
        · exact (List.mem_singleton.mp ha).le
      exact hBelow.trans hx
    · exact hLeast a ha b hb

/-- The first of the smallest elements is the minimum. -/
theorem isLeast (h : Smallest xs (x :: kept)) : IsLeast {a | a ∈ xs} x := by
  obtain ⟨rest, hXs, hLeast⟩ := h.least
  refine ⟨hXs.mem_iff.mpr (by simp), fun a ha => ?_⟩
  obtain ha | ha := List.mem_append.mp (hXs.mem_iff.mp ha)
  · obtain rfl | ha := List.mem_cons.mp ha
    · exact le_rfl
    · exact (List.pairwise_cons.mp h.sorted).1 a ha
  · exact hLeast x List.mem_cons_self a ha

end Smallest

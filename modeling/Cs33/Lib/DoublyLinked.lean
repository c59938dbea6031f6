import Mathlib.Data.List.Basic

/-! # Doubly linked sequences

`Leads` says that one link leads through a sequence to a stop. `Doubly` says of
a sequence that every element is linked to both of its neighbours. A sequence
is doubly linked when the walk from its first element reads it and the walk
back from its last one reads it reversed.
-/

namespace DoublyLinked

universe u

variable {α : Type u}

def Leads (next : α → α) (stop : α) : α → List α → Prop
  | p, [] => p = stop
  | p, a :: as => p = a ∧ Leads next stop (next a) as

/-- From `p` on, `next` leads through the sequence to `stop`, and `prev` names the element before,
`before` for the first. -/
def Doubly (next prev : α → α) (stop : α) : α → α → List α → Prop
  | _, p, [] => p = stop
  | before, p, a :: as => p = a ∧ prev a = before ∧ Doubly next prev stop a (next a) as

theorem leads_concat {next : α → α} {stop p a : α} {as : List α} :
    Leads next stop p (as ++ [a]) ↔ Leads next a p as ∧ next a = stop := by
  induction as generalizing p with
  | nil => exact Iff.rfl
  | cons b as ih => rw [List.cons_append, Leads, Leads, ih, and_assoc]

theorem doubly_iff_leads {next prev : α → α} {stop before p : α} {as : List α} :
    Doubly next prev stop before p as ↔
      Leads next stop p as ∧ Leads prev before (as.getLastD before) as.reverse := by
  induction as generalizing before p with
  | nil => exact (and_iff_left rfl).symm
  | cons a as ih =>
    rw [Doubly, ih, Leads, List.getLastD_cons, List.reverse_cons, leads_concat]
    constructor
    · rintro ⟨hp, hBefore, hThere, hBack⟩
      exact ⟨⟨hp, hThere⟩, hBack, hBefore⟩
    · rintro ⟨⟨hp, hThere⟩, hBack, hBefore⟩
      exact ⟨hp, hBefore, hThere, hBack⟩

end DoublyLinked

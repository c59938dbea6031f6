import Cs33.Driver.Ranges

/-! # Traces and their live blocks

Which ids are live after a prefix of a trace, and with what sizes, does not
depend on the allocator. A proper trace allocates an id only while it is not
live and reallocates or frees it only while it is.
-/

namespace Cs33.Driver

/-- The live ids with the sizes last asked for, newest first. -/
def liveAfter (live : List (Int × Int)) (op : TraceOp) : List (Int × Int) :=
  match op.type with
  | .alloc => (op.index, op.size) :: live
  | .realloc => (op.index, op.size) :: live.eraseP fun x => x.1 == op.index
  | .free => live.eraseP fun x => x.1 == op.index

def liveOf (ops : List TraceOp) : List (Int × Int) := ops.foldl liveAfter []

def PosInt (size : Int) : Prop := 0 < size ∧ size < 2 ^ 31

instance (size : Int) : Decidable (PosInt size) := inferInstanceAs (Decidable (_ ∧ _))

def Allowed (live : List (Int × Int)) (op : TraceOp) : Prop :=
  match op.type with
  | .alloc => PosInt op.size ∧ op.index ∉ live.map Prod.fst
  | .realloc => PosInt op.size ∧ op.index ∈ live.map Prod.fst
  | .free => op.index ∈ live.map Prod.fst

instance (live : List (Int × Int)) (op : TraceOp) : Decidable (Allowed live op) :=
  match op with
  | ⟨.alloc, _, _⟩ => inferInstanceAs (Decidable (PosInt _ ∧ _))
  | ⟨.realloc, _, _⟩ => inferInstanceAs (Decidable (PosInt _ ∧ _))
  | ⟨.free, _, _⟩ => inferInstanceAs (Decidable (_ ∈ _))

def Proper (ops : List TraceOp) : Prop :=
  ∀ pre op, pre ++ [op] <+: ops → Allowed (liveOf pre) op

theorem liveOf_concat (ops : List TraceOp) (op : TraceOp) :
    liveOf (ops ++ [op]) = liveAfter (liveOf ops) op := by
  rw [liveOf, List.foldl_append]
  rfl

theorem Proper.mono {ops pre : List TraceOp} (h : Proper ops) (hPre : pre <+: ops) :
    Proper pre := fun _ _ hShort => h _ _ (hShort.trans hPre)

theorem Proper.concat {ops : List TraceOp} {op : TraceOp} (h : Proper (ops ++ [op])) :
    Proper ops ∧ Allowed (liveOf ops) op :=
  ⟨h.mono (List.prefix_append _ _), h _ _ List.prefix_rfl⟩

theorem proper_nil : Proper [] := by
  intro pre op hPre
  have hNil := List.eq_nil_of_prefix_nil hPre
  simp at hNil

theorem proper_concat {ops : List TraceOp} (h : Proper ops) (op : TraceOp)
    (hAllowed : Allowed (liveOf ops) op) : Proper (ops ++ [op]) := by
  intro pre op' hPre
  obtain hEq | hShort := List.prefix_concat_iff.mp hPre
  · obtain ⟨rfl, hLast⟩ := List.append_inj' hEq rfl
    cases hLast
    exact hAllowed
  · exact h pre op' hShort

theorem eraseP_eq_erase {α : Type} [DecidableEq α] {l : List α} {p : α → Bool} {x : α}
    (h : l.find? p = some x) : l.eraseP p = l.erase x := by
  induction l with
  | nil => cases h
  | cons y l ih =>
    cases hy : p y with
    | true =>
      rw [List.find?_cons_of_pos hy] at h
      cases h
      rw [List.eraseP_cons_of_pos hy, List.erase_cons_head]
    | false =>
      have hNot : ¬ p y = true := by simp [hy]
      rw [List.find?_cons_of_neg hNot] at h
      have hne : y ≠ x := by
        rintro rfl
        exact hNot (List.find?_some h)
      rw [List.eraseP_cons_of_neg hNot, ih h, List.erase_cons_tail (by simpa using hne)]

theorem find?_eq_some_of_unique {α : Type} {l : List α} {p : α → Bool} {x : α} (hx : x ∈ l)
    (hp : p x = true) (hUnique : ∀ y ∈ l, p y = true → y = x) : l.find? p = some x := by
  cases h : l.find? p with
  | none => exact absurd hp (List.find?_eq_none.mp h x hx)
  | some y => rw [hUnique y (List.mem_of_find?_eq_some h) (List.find?_some h)]

theorem eraseP_eq_of_key {α : Type} [DecidableEq α] {l : List α} {p : α → Bool} {x : α}
    (key : α → Nat) (h : l.find? p = some x) (hKey : ∀ y ∈ l, key y = key x → y = x) :
    l.eraseP (fun y => key y == key x) = l.eraseP p := by
  have hFind : l.find? (fun y => key y == key x) = some x :=
    find?_eq_some_of_unique (List.mem_of_find?_eq_some h) (by simp) fun y hy hEq =>
      hKey y hy (by simpa using hEq)
  rw [eraseP_eq_erase h, eraseP_eq_erase hFind]

theorem mem_eraseP_key {live : List (Int × Int)} (hNodup : (live.map Prod.fst).Nodup) {i : Int}
    {x : Int × Int} : x ∈ live.eraseP (fun x => x.1 == i) ↔ x ∈ live ∧ x.1 ≠ i := by
  induction live with
  | nil => simp
  | cons y live ih =>
    rw [List.map_cons, List.nodup_cons] at hNodup
    obtain ⟨hFresh, hNodup⟩ := hNodup
    obtain hy | hy := eq_or_ne y.1 i
    · rw [List.eraseP_cons_of_pos (by simpa using hy)]
      constructor
      · intro hx
        refine ⟨List.mem_cons_of_mem _ hx, ?_⟩
        rintro rfl
        exact hFresh (hy ▸ List.mem_map_of_mem hx)
      · rintro ⟨hx, hne⟩
        obtain rfl | hx := List.mem_cons.mp hx
        · exact absurd hy hne
        · exact hx
    · rw [List.eraseP_cons_of_neg (by simpa using hy), List.mem_cons, ih hNodup, List.mem_cons]
      constructor
      · rintro (rfl | ⟨hx, hne⟩)
        · exact ⟨.inl rfl, hy⟩
        · exact ⟨.inr hx, hne⟩
      · rintro ⟨rfl | hx, hne⟩
        · exact .inl rfl
        · exact .inr ⟨hx, hne⟩

theorem Proper.live {ops : List TraceOp} (h : Proper ops) :
    ((liveOf ops).map Prod.fst).Nodup ∧ ∀ x ∈ liveOf ops, PosInt x.2 := by
  induction ops using List.reverseRecOn with
  | nil => exact ⟨.nil, by simp [liveOf]⟩
  | append_singleton ops op ih =>
    obtain ⟨hBefore, hAllowed⟩ := h.concat
    obtain ⟨hNodup, hSizes⟩ := ih hBefore
    have hErase : List.Sublist (((liveOf ops).eraseP fun x => x.1 == op.index).map Prod.fst)
        ((liveOf ops).map Prod.fst) := List.eraseP_sublist.map _
    have hFresh : op.index ∉ ((liveOf ops).eraseP (fun x => x.1 == op.index)).map Prod.fst := by
      intro hMem
      obtain ⟨x, hx, hEq⟩ := List.mem_map.mp hMem
      exact ((mem_eraseP_key hNodup).mp hx).2 hEq
    have hKept : ∀ x ∈ (liveOf ops).eraseP (fun x => x.1 == op.index), PosInt x.2 :=
      fun x hx => hSizes x (List.mem_of_mem_eraseP hx)
    obtain ⟨type, index, size⟩ := op
    rw [liveOf_concat]
    cases type with
    | alloc => exact ⟨.cons hAllowed.2 hNodup, List.forall_mem_cons.mpr ⟨hAllowed.1, hSizes⟩⟩
    | realloc =>
      exact ⟨.cons hFresh (hNodup.sublist hErase), List.forall_mem_cons.mpr ⟨hAllowed.1, hKept⟩⟩
    | free => exact ⟨hNodup.sublist hErase, hKept⟩

end Cs33.Driver

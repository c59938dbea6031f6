import Cs33.Malloc.Mm

/-! # What the functions of mm.c leave alone

`Prints` relates a state to one with more output, `Writes` states of the same
extent, and `Extends` states whose heap may have grown. Each function
moves the state within the narrowest of the three that its text allows.
-/

namespace Cs33.Malloc

open Exec

def Prints (s s' : State) : Prop := ∃ msgs, s' = { s with out := s.out ++ msgs }

def Writes (s s' : State) : Prop :=
  s'.memStartBrk = s.memStartBrk ∧ s'.memBrk = s.memBrk ∧ s'.heapListp = s.heapListp

def Extends (s s' : State) : Prop := s'.memStartBrk = s.memStartBrk ∧ s.memBrk ≤ s'.memBrk

instance : IsPreorder State Prints where
  refl s := ⟨[], by rw [List.append_nil]⟩
  trans := by
    rintro s _ _ ⟨msgs, rfl⟩ ⟨msgs', rfl⟩
    exact ⟨msgs ++ msgs', by rw [List.append_assoc]⟩

instance : IsPreorder State Writes where
  refl _ := ⟨rfl, rfl, rfl⟩
  trans _ _ _ h h' := ⟨h'.1.trans h.1, h'.2.1.trans h.2.1, h'.2.2.trans h.2.2⟩

instance : IsPreorder State Extends where
  refl _ := ⟨rfl, le_rfl⟩
  trans _ _ _ h h' := ⟨h'.1.trans h.1, h.2.trans h'.2⟩

theorem Prints.writes {s s' : State} (h : Prints s s') : Writes s s' := by
  obtain ⟨msgs, rfl⟩ := h
  exact ⟨rfl, rfl, rfl⟩

theorem Prints.antisymm {s t u : State} (h : Prints s t) (h' : Prints t u) (hOut : u.out = s.out) :
    t = s := by
  obtain ⟨msgs, rfl⟩ := h
  obtain ⟨msgs', rfl⟩ := h'
  dsimp only at hOut
  rw [List.append_assoc, List.append_right_eq_self, List.append_eq_nil_iff] at hOut
  rw [hOut.1, List.append_nil]

theorem Writes.extends {s s' : State} (h : Writes s s') : Extends s s' :=
  ⟨h.1, h.2.1.ge⟩

section Read

variable {R : State → State → Prop} [IsPreorder State R]

instance (n p : Nat) : Moves R (load n p) where
  move h := by
    simp only [load] at h
    split at h
    · cases h
      exact refl_of R _
    · cases h

instance : Moves R getHeapListp := inferInstanceAs (Moves R (gets State.heapListp))

instance : Moves R getHeapBasefree := inferInstanceAs (Moves R (gets State.heapBasefree))

instance : Moves R rounds :=
  inferInstanceAs (Moves R (gets fun s : State => s.limit - s.memStartBrk + 1))

instance (p : Nat) : Moves R (get p) := inferInstanceAs (Moves R (load 4 p))

instance (bp : Nat) : Moves R (pred bp) := inferInstanceAs (Moves R (load 8 bp))

instance (bp : Nat) : Moves R (succ bp) := inferInstanceAs (Moves R (load 8 (plus bp WSIZE)))

instance (p : Nat) : Moves R (getSize p) := by
  rw [getSize]
  infer_instance

instance (p : Nat) : Moves R (getAlloc p) := by
  rw [getAlloc]
  infer_instance

instance (bp : Nat) : Moves R (ftrp bp) := by
  rw [ftrp]
  infer_instance

instance (bp : Nat) : Moves R (nextBlkp bp) := by
  rw [nextBlkp]
  infer_instance

instance (bp : Nat) : Moves R (prevBlkp bp) := by
  rw [prevBlkp]
  infer_instance

instance (bp : Nat) : Moves R (printblock bp) := by
  rw [printblock]
  iterate 4 refine .bind inferInstance fun _ => ?_
  infer_instance

instance (asize bp : Nat) : Moves R (findFitExpRound asize bp) := by
  rw [findFitExpRound]
  infer_instance

instance (asize : Nat) : Moves R (findFitExp asize) := by
  rw [findFitExp]
  infer_instance

end Read

instance (msg : Message) : Moves Prints (printf msg) := ⟨fun h => by cases h; exact ⟨[msg], rfl⟩⟩

instance (bp : Nat) : Moves Prints (checkblock bp) := by
  rw [checkblock]
  dsimp only
  refine .join inferInstance fun _ => ?_
  infer_instance

instance (verbose : Bool) (bp : Nat) : Moves Prints (mmCheckheapRound verbose bp) := by
  rw [mmCheckheapRound]
  dsimp only
  refine .bind inferInstance fun _ => ?_
  refine .ite ?_ inferInstance
  refine .join inferInstance fun _ => ?_
  infer_instance

instance (verbose : Bool) : Moves Prints (mmCheckheap verbose) := by
  rw [mmCheckheap]
  dsimp only
  iterate 3 refine .bind inferInstance fun _ => ?_
  refine .join inferInstance fun _ => ?_
  iterate 3 refine .bind inferInstance fun _ => ?_
  refine .join inferInstance fun _ => ?_
  infer_instance

/-! ## Stores -/

section Write

instance (verbose : Bool) : Moves Writes (mmCheckheap verbose) :=
  ⟨fun h => (Moves.move (R := Prints) h).writes⟩

instance (n p v : Nat) : Moves Writes (store n p v) where
  move h := by
    simp only [store] at h
    split at h
    · cases h
      exact ⟨rfl, rfl, rfl⟩
    · cases h

instance (p : Nat) : Moves Writes (setHeapBasefree p) := ⟨fun h => by cases h; exact ⟨rfl, rfl, rfl⟩⟩

instance (p v : Nat) : Moves Writes (put p v) := inferInstanceAs (Moves Writes (store 4 p v))

instance (p v : Nat) : Moves Writes (put64val p v) := inferInstanceAs (Moves Writes (store 8 p v))

instance (bp newp : Nat) : Moves Writes (setSucc bp newp) :=
  inferInstanceAs (Moves Writes (store 8 (plus bp WSIZE) newp))

instance (bp newp : Nat) : Moves Writes (putNxt bp newp) := by
  rw [putNxt]
  infer_instance

instance (bp newp : Nat) : Moves Writes (putPrev bp newp) := by
  rw [putPrev]
  infer_instance

instance (bp : Nat) : Moves Writes (coalesceHelper bp) := by
  have hLast : Moves Writes (do
      if (← succ bp) ≠ NULL then
        put64val (← pred (← succ bp)) (← pred bp) : M Unit) := by
    infer_instance
  rw [coalesceHelper]
  dsimp only
  refine .ite ?_ inferInstance
  refine .bind inferInstance fun _ => ?_
  refine .ite ?_ ?_ <;> infer_instance

instance (bp : Nat) : Moves Writes (linkAtBase bp) := by
  rw [linkAtBase]
  iterate 3 refine .bind inferInstance fun _ => ?_
  infer_instance

instance (bp : Nat) : Moves Writes (expCoalesce bp) := by
  rw [expCoalesce]
  dsimp only
  iterate 7 refine .bind inferInstance fun _ => ?_
  refine .ite inferInstance ?_
  refine .bind (.ite ?_ (.ite ?_ ?_)) fun _ => ?_
  · iterate 4 refine .bind inferInstance fun _ => ?_
    infer_instance
  · iterate 4 refine .bind inferInstance fun _ => ?_
    infer_instance
  · iterate 8 refine .bind inferInstance fun _ => ?_
    infer_instance
  · infer_instance

instance (bp asize : Nat) : Moves Writes (expPlace bp asize) := by
  rw [expPlace]
  dsimp only
  iterate 5 refine .bind inferInstance fun _ => ?_
  refine .ite ?_ inferInstance
  iterate 4 refine .bind inferInstance fun _ => ?_
  infer_instance

end Write

/-! ## Growth -/

section Grow

instance (incr : Int) : Moves Extends (sbrk incr) where
  move h := by
    cases h
    exact ⟨memSbrk_start _ _, memSbrk_brk_le _ _⟩

instance (bp : Nat) : Moves Extends (expCoalesce bp) :=
  ⟨fun h => (Moves.move (R := Writes) h).extends⟩

instance (bp asize : Nat) : Moves Extends (expPlace bp asize) :=
  ⟨fun h => (Moves.move (R := Writes) h).extends⟩

instance (p v : Nat) : Moves Extends (put p v) := ⟨fun h => (Moves.move (R := Writes) h).extends⟩

instance (words : Nat) : Moves Extends (extendHeap words) := by
  rw [extendHeap]
  infer_instance

instance (size : Nat) : Moves Extends (mmMalloc size) := by
  rw [mmMalloc]
  infer_instance

end Grow

end Cs33.Malloc

import Cs33.Driver.Trace

/-! # What the verdict of `eval_mm_valid` says

The range list holds the live payloads, newest first, whatever the allocator
answers. Each new payload had both ends outside every recorded one, so the
payloads are disjoint unless one was handed out around a live block.
-/

namespace Cs33.Driver

open Cs33.Malloc ByteMemory Interval

variable {σ : Type}

def Mdriver.payload (d : Mdriver σ) (x : Int × Int) : Nat × Nat := (d.blocks x.1, x.2.toNat)

def rangeOf (x : Nat × Nat) : Range := ⟨x.1, x.1 + x.2 - 1⟩

/-- After every request of an accepted trace the range list holds exactly the live payloads and
they are disjoint, and a payload was aligned and inside the heap when it was handed out. -/
def Sound (A : Allocator σ) (tracenum : Nat) (d₀ : Mdriver σ) (ops : List TraceOp) : Prop :=
  ∀ pre, pre <+: ops → ∀ d, (evalMmValid A tracenum pre).run d₀ = .ok (1, d) →
    d.ranges = ((liveOf pre).map d.payload).map rangeOf ∧
    ((liveOf pre).map d.payload).Pairwise Apart ∧
    ∀ op ∈ pre.getLast?, op.type ≠ .free →
      d.blocks op.index % 8 = 0 ∧ d.heap.2.InHeap (d.blocks op.index) op.size.toNat

/-- No payload handed out encloses that of another live block. -/
def NoEnclosure (A : Allocator σ) (tracenum : Nat) (d₀ : Mdriver σ) (ops : List TraceOp) : Prop :=
  ∀ pre op, pre ++ [op] <+: ops → op.type ≠ .free → ∀ d d',
    (evalMmValid A tracenum pre).run d₀ = .ok (1, d) →
    (evalMmValid A tracenum (pre ++ [op])).run d₀ = .ok (1, d') →
    ∀ x ∈ liveOf pre, x.1 ≠ op.index →
      ¬ Encloses (d'.payload (op.index, op.size)) (d.payload x)

structure Recorded (d : Mdriver σ) (live : List (Int × Int)) : Prop where
  ranges : d.ranges = (live.map d.payload).map rangeOf
  ends : (live.map d.payload).Pairwise EndsOutside

theorem endIn_eq_false {lo hi : Nat} {y : Nat × Nat} (hHi : lo ≤ hi) (hy : 0 < y.2)
    (h : endIn lo hi (rangeOf y) = false) : EndsOutside (lo, hi + 1 - lo) y := by
  unfold endIn rangeOf at h
  simp only [Bool.or_eq_false_iff, Bool.and_eq_false_iff, decide_eq_false_iff_not] at h
  rw [EndsOutside]
  dsimp only at h ⊢
  omega

theorem Accepted.endsOutside {mem : Memlib} {ps : List (Nat × Nat)} {lo : Nat} {size : Int}
    (h : Accepted mem (ps.map rangeOf) lo size) (hLt : size < 2 ^ 31) (hps : ∀ y ∈ ps, 0 < y.2) :
    ∀ y ∈ ps, EndsOutside (lo, size.toNat) y := by
  intro y hy
  obtain ⟨hIn, hHi⟩ := h.inHeap hLt
  have hPos := h.size_pos
  have hEnds := h.noEnd _ (List.mem_map_of_mem hy)
  rw [hHi] at hEnds
  have hOut := endIn_eq_false (by omega) (hps y hy) hEnds
  have hSize : lo + size.toNat - 1 + 1 - lo = size.toNat := by omega
  rwa [hSize] at hOut

section Recorded

variable {d : Mdriver σ} {live : List (Int × Int)}

theorem payload_update_of_ne {p : Nat} {index : Int} {x : Int × Int} (hne : x.1 ≠ index)
    (h : σ × Memlib) (ranges : List Range) (size : Int) :
    (d.record h ranges index p size).payload x = d.payload x := by
  have hBlock : (d.record h ranges index p size).blocks x.1 = d.blocks x.1 :=
    Function.update_of_ne hne _ _
  rw [Mdriver.payload, hBlock, Mdriver.payload]

theorem payload_update_self {p : Nat} {index size : Int} (h : σ × Memlib) (ranges : List Range) :
    (d.record h ranges index p size).payload (index, size) = (p, size.toNat) := by
  have hBlock : (d.record h ranges index p size).blocks index = p := Function.update_self _ _ _
  rw [Mdriver.payload, hBlock]

theorem Recorded.blocks_injective (hRec : Recorded d live) (hSizes : ∀ x ∈ live, PosInt x.2) :
    ∀ x ∈ live, ∀ y ∈ live, d.blocks x.1 = d.blocks y.1 → x = y := by
  have hApart : live.Pairwise fun x y => d.blocks x.1 ≠ d.blocks y.1 := by
    apply (List.pairwise_map.mp hRec.ends).imp_of_mem
    intro x y _ hy hEnds hEq
    have hPos := (hSizes y hy).1
    simp only [EndsOutside, Mdriver.payload] at hEnds
    omega
  have hSymm : Std.Symm fun x y : Int × Int => d.blocks x.1 ≠ d.blocks y.1 :=
    ⟨fun _ _ hne => hne.symm⟩
  intro x hx y hy hEq
  by_contra hne
  exact hApart.forall hx hy hne hEq

theorem record_placed {h : σ × Memlib} {ranges ranges' : List Range} {p : Nat} {index size : Int}
    (hAccepted : Accepted h.2 ranges p size) (hLt : size < 2 ^ 31) :
    (d.record h ranges' index p size).blocks index % 8 = 0 ∧
      (d.record h ranges' index p size).heap.2.InHeap
        ((d.record h ranges' index p size).blocks index) size.toNat := by
  have hBlock : (d.record h ranges' index p size).blocks index = p := Function.update_self _ _ _
  rw [hBlock]
  exact ⟨isAligned_iff.mp hAccepted.aligned, (hAccepted.inHeap hLt).1⟩

theorem Recorded.drop (hRec : Recorded d live) (hSizes : ∀ x ∈ live, PosInt x.2) {index : Int}
    (hMem : index ∈ live.map Prod.fst) :
    dropRange d.ranges (d.blocks index) =
      ((live.eraseP fun x => x.1 == index).map d.payload).map rangeOf := by
  obtain ⟨x, hFind⟩ : ∃ x, live.find? (fun x => x.1 == index) = some x := by
    obtain ⟨y, hy, rfl⟩ := List.mem_map.mp hMem
    rw [← Option.isSome_iff_exists, List.find?_isSome]
    exact ⟨y, hy, by simp⟩
  obtain rfl : x.1 = index := by simpa using List.find?_some hFind
  have hKey := hRec.blocks_injective hSizes
  have hErase := eraseP_eq_of_key (fun y => d.blocks y.1) hFind fun y hy hEq =>
    hKey y hy x (List.mem_of_find?_eq_some hFind) hEq
  rw [hRec.ranges, dropRange, List.eraseP_map, List.eraseP_map, ← hErase]
  rfl

theorem Recorded.erase (hRec : Recorded d live) (p : Int × Int → Bool) :
    ((live.eraseP p).map d.payload).Pairwise EndsOutside :=
  hRec.ends.sublist (List.eraseP_sublist.map _)

theorem recorded_record {kept : List (Int × Int)} {h : σ × Memlib} {p : Nat} {index size : Int}
    (hEnds : (kept.map d.payload).Pairwise EndsOutside) (hSizes : ∀ x ∈ kept, PosInt x.2)
    (hFresh : ∀ x ∈ kept, x.1 ≠ index) (hLt : size < 2 ^ 31)
    (hAccepted : Accepted h.2 ((kept.map d.payload).map rangeOf) p size) :
    Recorded (d.record h ((kept.map d.payload).map rangeOf) index p size)
      ((index, size) :: kept) := by
  let d' := d.record h ((kept.map d.payload).map rangeOf) index p size
  have hSame : kept.map d'.payload = kept.map d.payload :=
    List.map_congr_left fun x hx => payload_update_of_ne (hFresh x hx) _ _ _
  have hSelf : d'.payload (index, size) = (p, size.toNat) := payload_update_self _ _
  have hPos : ∀ y ∈ kept.map d.payload, 0 < y.2 := by
    intro y hy
    obtain ⟨x, hx, rfl⟩ := List.mem_map.mp hy
    have hx := (hSizes x hx).1
    change 0 < x.2.toNat
    omega
  constructor
  · change (⟨p, payloadHi p size⟩ : Range) :: (kept.map d.payload).map rangeOf = _
    rw [List.map_cons, List.map_cons, hSame, hSelf, (hAccepted.inHeap hLt).2]
    rfl
  · rw [List.map_cons, hSame, hSelf]
    exact .cons (hAccepted.endsOutside hLt hPos) hEnds

end Recorded

section Step

variable {A : Allocator σ} {tracenum i : Nat} {d d' : Mdriver σ} {live : List (Int × Int)}
  {op : TraceOp}

theorem Recorded.step (hRec : Recorded d live) (hNodup : (live.map Prod.fst).Nodup)
    (hSizes : ∀ x ∈ live, PosInt x.2) (hAllowed : Allowed live op)
    (hOp : (validOp A tracenum i op).run d = .ok (true, d')) :
    Recorded d' (liveAfter live op) ∧
      (∀ x : Int × Int, x.1 ≠ op.index → d'.payload x = d.payload x) ∧
      (op.type ≠ .free →
        d'.blocks op.index % 8 = 0 ∧ d'.heap.2.InHeap (d'.blocks op.index) op.size.toNat) := by
  obtain ⟨type, index, size⟩ := op
  cases type with
  | alloc =>
    obtain ⟨p, h, -, -, hAccepted, rfl⟩ := validOp_alloc.mp hOp
    obtain ⟨⟨-, hLt⟩, hFresh⟩ := hAllowed
    have hNew : ∀ x ∈ live, x.1 ≠ index := by
      rintro x hx rfl
      exact hFresh (List.mem_map_of_mem hx)
    rw [hRec.ranges] at hAccepted ⊢
    refine ⟨recorded_record hRec.ends hSizes hNew hLt hAccepted, ?_, fun _ => ?_⟩
    · intro x hne
      exact payload_update_of_ne hne _ _ _
    · exact record_placed hAccepted hLt
  | realloc =>
    obtain ⟨p, h, -, -, hAccepted, -, rfl⟩ := validOp_realloc.mp hOp
    obtain ⟨⟨-, hLt⟩, hMem⟩ := hAllowed
    rw [hRec.drop hSizes hMem] at hAccepted ⊢
    have hKept : ∀ x ∈ live.eraseP (fun x => x.1 == index), PosInt x.2 :=
      fun x hx => hSizes x (List.mem_of_mem_eraseP hx)
    have hNew : ∀ x ∈ live.eraseP (fun x => x.1 == index), x.1 ≠ index :=
      fun x hx => ((mem_eraseP_key hNodup).mp hx).2
    refine ⟨recorded_record (hRec.erase _) hKept hNew hLt hAccepted, ?_, fun _ => ?_⟩
    · intro x hne
      exact payload_update_of_ne hne _ _ _
    · exact record_placed hAccepted hLt
  | free =>
    obtain ⟨h, -, rfl⟩ := validOp_free.mp hOp
    refine ⟨⟨hRec.drop hSizes hAllowed, hRec.erase _⟩, fun _ _ => rfl, ?_⟩
    intro hType
    exact absurd rfl hType

end Step

section Replay

variable {A : Allocator σ} {tracenum : Nat} {d₀ d d' : Mdriver σ} {ops : List TraceOp}

theorem recorded_of_valid (h : Proper ops)
    (hValid : (evalMmValid A tracenum ops).run d₀ = .ok (1, d)) : Recorded d (liveOf ops) := by
  induction ops using List.reverseRecOn generalizing d with
  | nil =>
    obtain ⟨r, h, -, -, hRun⟩ := evalMmValid_eq_one.mp hValid
    cases hRun
    exact ⟨rfl, .nil⟩
  | append_singleton ops op ih =>
    obtain ⟨d₁, hBefore, hOp⟩ := evalMmValid_snoc.mp hValid
    obtain ⟨hProper, hAllowed⟩ := h.concat
    obtain ⟨hNodup, hSizes⟩ := hProper.live
    rw [liveOf_concat]
    exact ((ih hProper hBefore).step hNodup hSizes hAllowed hOp).1

theorem last_of_valid {op : TraceOp} (h : Proper (ops ++ [op]))
    (hValid : (evalMmValid A tracenum (ops ++ [op])).run d₀ = .ok (1, d')) :
    ∃ d, (evalMmValid A tracenum ops).run d₀ = .ok (1, d) ∧
      (∀ x : Int × Int, x.1 ≠ op.index → d'.payload x = d.payload x) ∧
      (op.type ≠ .free →
        d'.blocks op.index % 8 = 0 ∧ d'.heap.2.InHeap (d'.blocks op.index) op.size.toNat) := by
  obtain ⟨d, hBefore, hOp⟩ := evalMmValid_snoc.mp hValid
  obtain ⟨hProper, hAllowed⟩ := h.concat
  obtain ⟨hNodup, hSizes⟩ := hProper.live
  exact ⟨d, hBefore, ((recorded_of_valid hProper hBefore).step hNodup hSizes hAllowed hOp).2⟩

theorem liveAfter_cases {live : List (Int × Int)} {op : TraceOp}
    (hNodup : (live.map Prod.fst).Nodup) (hAllowed : Allowed live op) :
    ∃ kept : List (Int × Int), List.Sublist kept live ∧ (∀ x ∈ kept, x.1 ≠ op.index) ∧
      (∀ x ∈ live, x.1 ≠ op.index → x ∈ kept) ∧
      liveAfter live op = if op.type = .free then kept else (op.index, op.size) :: kept := by
  obtain ⟨type, index, size⟩ := op
  have hErased : ∀ x, x ∈ live.eraseP (fun x => x.1 == index) ↔ x ∈ live ∧ x.1 ≠ index :=
    fun x => mem_eraseP_key hNodup
  cases type with
  | alloc =>
    refine ⟨live, .refl _, ?_, fun x hx _ => hx, rfl⟩
    rintro x hx rfl
    exact hAllowed.2 (List.mem_map_of_mem hx)
  | realloc =>
    exact ⟨_, List.eraseP_sublist, fun x hx => ((hErased x).mp hx).2,
      fun x hx hne => (hErased x).mpr ⟨hx, hne⟩, rfl⟩
  | free =>
    exact ⟨_, List.eraseP_sublist, fun x hx => ((hErased x).mp hx).2,
      fun x hx hne => (hErased x).mpr ⟨hx, hne⟩, rfl⟩

theorem NoEnclosure.mono {pre : List TraceOp} (h : NoEnclosure A tracenum d₀ ops)
    (hPre : pre <+: ops) : NoEnclosure A tracenum d₀ pre :=
  fun _ _ hShort => h _ _ (hShort.trans hPre)

theorem apart_of_noEnclosure (h : Proper ops) (hNone : NoEnclosure A tracenum d₀ ops)
    (hValid : (evalMmValid A tracenum ops).run d₀ = .ok (1, d)) :
    ((liveOf ops).map d.payload).Pairwise Apart := by
  induction ops using List.reverseRecOn generalizing d with
  | nil => exact .nil
  | append_singleton ops op ih =>
    obtain ⟨d₁, hBefore, hSame, -⟩ := last_of_valid h hValid
    obtain ⟨hProper, hAllowed⟩ := h.concat
    obtain ⟨hNodup, hSizes⟩ := hProper.live
    have hApart := ih hProper (hNone.mono (List.prefix_append _ _)) hBefore
    have hEnds := (recorded_of_valid h hValid).ends
    obtain ⟨kept, hSub, hNe, -, hLive⟩ := liveAfter_cases hNodup hAllowed
    have hMap : kept.map d.payload = kept.map d₁.payload :=
      List.map_congr_left fun x hx => hSame x (hNe x hx)
    have hKept : (kept.map d.payload).Pairwise Apart := by
      rw [hMap]
      exact hApart.sublist (hSub.map _)
    rw [liveOf_concat, hLive] at hEnds ⊢
    split at hEnds
    · rename_i hType
      rw [if_pos hType]
      exact hKept
    · rename_i hType
      rw [if_neg hType]
      rw [List.map_cons, List.pairwise_cons] at hEnds ⊢
      refine ⟨?_, hKept⟩
      rintro y hy
      obtain ⟨x, hx, rfl⟩ := List.mem_map.mp hy
      have hPos : 0 < (d.payload x).2 := by
        have hx := (hSizes x (hSub.subset hx)).1
        change 0 < x.2.toNat
        omega
      rw [(hEnds.1 _ hy).apart_iff hPos, hSame x (hNe x hx)]
      exact hNone ops op List.prefix_rfl hType d₁ d hBefore hValid x (hSub.subset hx) (hNe x hx)

end Replay

/-- The verdict 1 means what it should exactly on the replays in which no payload is handed out
around a live one. -/
theorem valid_sound_iff (A : Allocator σ) (tracenum : Nat) (d₀ : Mdriver σ)
    (ops : List TraceOp) (hProper : Proper ops) :
    Sound A tracenum d₀ ops ↔ NoEnclosure A tracenum d₀ ops := by
  constructor
  · intro hSound pre op hPre hType d₁ d₂ hBefore hAfter x hx hne
    have hShort := hProper.mono hPre
    obtain ⟨d₃, hBefore', hSame, -⟩ := last_of_valid hShort hAfter
    cases hBefore'.symm.trans hBefore
    obtain ⟨hProper', hAllowed⟩ := hShort.concat
    obtain ⟨kept, -, -, hMem, hLive⟩ := liveAfter_cases hProper'.live.1 hAllowed
    obtain ⟨-, hApart, -⟩ := hSound _ hPre d₂ hAfter
    rw [liveOf_concat, hLive, if_neg hType, List.map_cons, List.pairwise_cons] at hApart
    have hApartX := hApart.1 _ (List.mem_map_of_mem (hMem x hx hne))
    rw [hSame x hne] at hApartX
    exact hApartX.not_encloses
  · intro hNone pre hPre d₁ hBefore
    have hShort := hProper.mono hPre
    refine ⟨(recorded_of_valid hShort hBefore).ranges,
      apart_of_noEnclosure hShort (hNone.mono hPre) hBefore, ?_⟩
    intro op hLast hType
    obtain ⟨ops', rfl⟩ := List.getLast?_eq_some_iff.mp hLast
    obtain ⟨-, -, -, hPlaced⟩ := last_of_valid hShort hBefore
    exact hPlaced hType

/-- An allocator that answers from a list. -/
def scripted : Allocator (List Nat) where
  mmInit := ⟨fun h => .ok (0, h.1, (memSbrk 64 h.2).2)⟩
  mmMalloc _ := ⟨fun h => .ok (h.1.headD NULL, h.1.tail, h.2)⟩
  mmRealloc _ _ := ⟨fun h => .ok (h.1.headD NULL, h.1.tail, h.2)⟩
  mmFree _ := ⟨fun h => .ok ((), h)⟩

def startDriver (answers : List Nat) : Mdriver (List Nat) where
  heap := (answers, memInit 4096 (fun _ => 0) page_pos page_max)
  ranges := []
  blocks := fun _ => NULL
  blockSizes := fun _ => 0
  reports := []
  overflowed := false

def endDriver (answers : List Nat) (ops : List TraceOp) : Mdriver (List Nat) :=
  match (evalMmValid scripted 0 ops).run (startDriver answers) with
  | .ok (_, d) => d
  | .error _ => startDriver answers

theorem valid_sound_iff_pair :
    Sound scripted 0 (startDriver [4096, 4104]) [⟨.alloc, 0, 8⟩, ⟨.alloc, 1, 8⟩] := by
  have hProper : Proper [⟨.alloc, 0, 8⟩, ⟨.alloc, 1, 8⟩] :=
    proper_concat (proper_concat proper_nil ⟨.alloc, 0, 8⟩ (by decide)) ⟨.alloc, 1, 8⟩ (by decide)
  apply (valid_sound_iff scripted 0 _ _ hProper).mpr
  intro pre op hPre hType d d' _ _ x hx hne hEncloses
  obtain _ | ⟨a, _ | ⟨b, pre⟩⟩ := pre
  · cases hx
  · simp only [List.cons_append, List.nil_append, List.cons_prefix_cons] at hPre
    obtain ⟨rfl, rfl, -⟩ := hPre
    obtain rfl := List.mem_singleton.mp hx
    change d'.blocks 1 < d.blocks 0 ∧ d.blocks 0 + 8 < d'.blocks 1 + 8 at hEncloses
    omega
  · have hLength := hPre.length_le
    simp at hLength

/-- A payload of 24 bytes around a live one of 8 bytes is accepted. -/
theorem enclosing_payload_accepted : ¬ ∀ (A : Allocator (List Nat)) (d₀ d : Mdriver (List Nat))
    (ops : List TraceOp), Proper ops → (evalMmValid A 0 ops).run d₀ = .ok (1, d) →
      Sound A 0 d₀ ops := by
  intro hAll
  have hProper : Proper [⟨.alloc, 0, 8⟩, ⟨.alloc, 1, 24⟩] :=
    proper_concat (proper_concat proper_nil ⟨.alloc, 0, 8⟩ (by decide)) ⟨.alloc, 1, 24⟩ (by decide)
  have hValid : (evalMmValid scripted 0 [⟨.alloc, 0, 8⟩, ⟨.alloc, 1, 24⟩]).run
      (startDriver [4104, 4096]) =
        .ok (1, endDriver [4104, 4096] [⟨.alloc, 0, 8⟩, ⟨.alloc, 1, 24⟩]) := rfl
  obtain ⟨-, hApart, -⟩ := hAll _ _ _ _ hProper hValid _ List.prefix_rfl _ hValid
  have hPayloads : (liveOf [⟨.alloc, 0, 8⟩, ⟨.alloc, 1, 24⟩]).map
      (endDriver [4104, 4096] [⟨.alloc, 0, 8⟩, ⟨.alloc, 1, 24⟩]).payload =
        [(4096, 24), (4104, 8)] := rfl
  rw [hPayloads] at hApart
  simp [Apart] at hApart

end Cs33.Driver

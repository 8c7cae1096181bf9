/-
# What the programs of `ortoa-lbl` are configured with

`constants.h` fixes the sizes and the numbers of threads; the programs are
written against its macros, so the model takes them as a `Config`, and
`constants` is the one the repository ships.

`createEntryParallel`, `getEntryParallel` and `putEntryParallel` of
`clientHelper.cpp` and `decryptPortion` of `server.cpp` all cut a value of
`VALUE_SIZE` bytes into as many parts as there are threads, by the same
arithmetic (`partSize`, `partStart`, `partLimit`): the part size is rounded
up, so the last parts may be short or empty. Every byte is in some part
(`exists_part`).

Offsets are natural numbers: the `int` and `size_t` arithmetic of the source
is exact for any value that fits in memory.
-/
import Ortoa.Text

namespace Ortoa
namespace Lbl

/-- The macros of `constants.h` that the logic depends on. -/
structure Config where
  valueSize : ℕ
  proxyNumThreads : ℕ
  serverNumThreads : ℕ
  keyMax : ℕ
  valueSize_pos : 0 < valueSize
  proxyNumThreads_pos : 0 < proxyNumThreads
  serverNumThreads_pos : 0 < serverNumThreads

/-- `constants.h` as shipped. -/
def constants : Config where
  valueSize := 160
  proxyNumThreads := 8
  serverNumThreads := 64
  keyMax := 100000
  valueSize_pos := by decide
  proxyNumThreads_pos := by decide
  serverNumThreads_pos := by decide

/-- The server's tasks, one after the other. -/
theorem Config.serverInOrder (cfg : Config) :
    (List.range cfg.serverNumThreads).Perm (List.range cfg.serverNumThreads) := List.Perm.refl _

/-! ### The sizes of libsodium -/

def cryptoSecretboxKeybytes : ℕ := 32
def cryptoSecretboxNoncebytes : ℕ := 24
def cryptoSecretboxMacbytes : ℕ := 16
def cryptoKdfKeybytes : ℕ := 32

/-- `CIPHERTEXT_LEN`: a sealed label with its auxiliary byte. -/
def ciphertextLen : ℕ := cryptoSecretboxMacbytes + cryptoSecretboxKeybytes + 1

/-- The bytes of one slot of a label string: the auxiliary byte and the label. -/
abbrev labelWidth : ℕ := 1 + cryptoSecretboxKeybytes

/-- The bytes of one slot of a table: the nonce and the sealed label. -/
abbrev boxWidth : ℕ := cryptoSecretboxNoncebytes + ciphertextLen

/-- How a function of `ortoa-lbl` can end other than by returning. -/
inductive Fault
  /-- A pointer left the string it walks. -/
  | outOfBounds
  /-- `std::length_error` out of `padToLen`. -/
  | lengthError
  /-- `exit(1)` after a label that does not open. -/
  | exit
  deriving DecidableEq, Repr

/-- The byte at index `i`. -/
def byteAt (s : Bytes) (i : ℕ) : Except Fault UInt8 :=
  match s[i]? with
  | some c => .ok c
  | none => .error .outOfBounds

theorem byteAt_ok {s : Bytes} {i : ℕ} (h : i < s.length) : byteAt s i = .ok (s.getD i 0) := by
  simp [byteAt, h]

/-! ### The parts of a value -/

/-- `partSize`: the bytes per part, rounded up. -/
def partSize (size threads : ℕ) : ℕ := size / threads + if size % threads ≠ 0 then 1 else 0

def partStart (size threads part : ℕ) : ℕ := part * partSize size threads

def partLimit (size threads part : ℕ) : ℕ := min ((part + 1) * partSize size threads) size

theorem partLimit_le (size threads part : ℕ) : partLimit size threads part ≤ size := min_le_right _ _

theorem partSize_pos {size threads : ℕ} (hs : 0 < size) (ht : 0 < threads) :
    0 < partSize size threads := by
  unfold partSize
  by_cases h : size % threads = 0
  · have : 0 < size / threads := Nat.div_pos (Nat.le_of_dvd hs (Nat.dvd_of_mod_eq_zero h)) ht
    exact Nat.add_pos_left this _
  · rw [if_pos h]; exact Nat.succ_pos _

/-- The parts together reach the end. -/
theorem le_threads_mul_partSize (size : ℕ) {threads : ℕ} (ht : 0 < threads) :
    size ≤ threads * partSize size threads := by
  have h := Nat.div_add_mod size threads
  have hm := Nat.mod_lt size ht
  unfold partSize
  rw [Nat.mul_add]
  split
  · rw [Nat.mul_one]; omega
  · rename_i h0
    have : size % threads = 0 := not_not.mp h0
    omega

/-- Every byte is in a part. -/
theorem exists_part {size threads i : ℕ} (ht : 0 < threads) (hi : i < size) :
    ∃ p < threads, partStart size threads p ≤ i ∧ i < partLimit size threads p := by
  have hps := partSize_pos (by omega : 0 < size) ht
  have hle := le_threads_mul_partSize size ht
  refine ⟨i / partSize size threads, ?_, Nat.div_mul_le_self _ _, ?_⟩
  · rw [Nat.div_lt_iff_lt_mul hps]; omega
  · refine lt_min ?_ hi
    have := Nat.lt_div_mul_add (a := i) hps
    rw [Nat.succ_mul]; omega

end Lbl
end Ortoa

/-
# The random suffixes of two threads

`rand_uint32` draws from a `thread_local` `std::mt19937` that nobody seeds:
each thread has its own, and each starts from the default seed. What a call
draws does not depend on the text that is encrypted, so the suffix of a
thread's `n`-th call depends on `n` alone (`nthCall_suffix`), and the `n`-th
calls of any two threads encrypt a value to the same ciphertext
(`streams_never_differ`).

The generator is arbitrary: a type of states, a state for each seed, and what
`std::uniform_int_distribution` draws from a state.

Key definitions: `Mt19937`, `randStr`, `encryptCall`, `StreamsDiffer`.
Key theorems: `nthCall_suffix`, `streams_never_differ`.
-/
import Ortoa.Tee.Engine
import Ortoa.ThreadLocal

namespace Ortoa
namespace Tee

open ThreadLocal

/-- `std::mt19937` and `std::uniform_int_distribution<uint32_t>`. -/
structure Mt19937 where
  State : Type
  /-- The state for a seed. -/
  seeded : ℕ → State
  /-- `distribution(generator)`, with the bounds of the distribution. -/
  uniform : UInt32 → UInt32 → State → UInt32 × State

/-- `std::mt19937::default_seed`. -/
def defaultSeed : ℕ := 5489

section Suffixes

variable (G : Mt19937)

/-- `static thread_local std::mt19937 generator;`. -/
def Mt19937.initial : G.State := G.seeded defaultSeed

/-- `rand_uint32`. -/
def randUint32 (min max : UInt32) (generator : G.State) : UInt32 × G.State :=
  G.uniform min max generator

/-- `alphanum`. -/
def alphanum : Bytes := [48, 49, 50, 51, 52, 53, 54, 55, 56, 57]

/-- `rand_str`. -/
def randStr (len : ℕ) (generator : G.State) : Bytes × G.State :=
  (List.range len).foldl (fun (ret, generator) _ =>
    let (r, generator) := randUint32 G 0 500 generator
    (ret ++ [alphanum.getD (r.toNat % alphanum.length) 0], generator)) ([], generator)

theorem randStr_succ (len : ℕ) (generator : G.State) : randStr G (len + 1) generator =
    ((randStr G len generator).1 ++
      [alphanum.getD ((randUint32 G 0 500 (randStr G len generator).2).1.toNat % alphanum.length) 0],
      (randUint32 G 0 500 (randStr G len generator).2).2) := by
  rw [randStr, List.range_succ, List.foldl_append]
  rfl

theorem alphanum_isDigit (i : ℕ) :
    48 ≤ alphanum.getD (i % alphanum.length) 0 ∧ alphanum.getD (i % alphanum.length) 0 ≤ 57 := by
  have hall : ∀ j < alphanum.length, 48 ≤ alphanum.getD j 0 ∧ alphanum.getD j 0 ≤ 57 := by decide
  exact hall _ (Nat.mod_lt i (by decide))

theorem randStr_length (generator : G.State) (len : ℕ) : (randStr G len generator).1.length = len := by
  induction len with
  | zero => rfl
  | succ len ih => rw [randStr_succ, List.length_append, ih, List.length_singleton]

theorem randStr_isDigit (generator : G.State) (len : ℕ) :
    ∀ c ∈ (randStr G len generator).1, 48 ≤ c ∧ c ≤ 57 := by
  induction len with
  | zero => intro c hc; cases hc
  | succ len ih =>
    intro c hc
    rw [randStr_succ, List.mem_append, List.mem_singleton] at hc
    rcases hc with hc | rfl
    · exact ih c hc
    · exact alphanum_isDigit _

/-- `rand_str(rng_max_len)`, and the generator after it. -/
def randSuffix (generator : G.State) : Suffix × G.State :=
  (⟨(randStr G 10 generator).1, randStr_length G generator 10, randStr_isDigit G generator 10⟩,
    (randStr G 10 generator).2)

/-- `encryptNonDeterministic`, as a thread with the given generator calls it. -/
def encryptCall (E : Cipher) (generator : G.State) (plainText : Bytes) : Bytes × G.State :=
  (encryptNonDeterministic E plainText (randSuffix G generator).1, (randSuffix G generator).2)

variable {G}

/-- The suffix of a thread's `n`-th call is that of the default generator. -/
theorem nthCall_suffix {τ : Type} [DecidableEq τ] {E : Cipher} {calls : List (τ × Bytes)} {t : τ}
    {n : ℕ} {v c : Bytes} (h : NthCall G.initial (encryptCall G E) calls t n v c) :
    c = encryptNonDeterministic E v
      (randSuffix G ((fun generator => (randSuffix G generator).2)^[n] G.initial)).1 :=
  ((nthCall_iff (f := encryptCall G E) (g := fun generator => (randSuffix G generator).2)
    fun _ _ => rfl).mp h).2

variable {τ : Type} [DecidableEq τ] (E : Cipher) (G)

/-- Some `n`-th calls of the two threads, in some run of the process, encrypt
a value to two ciphertexts. -/
def StreamsDiffer (t u : τ) : Prop :=
  ¬ ∀ (v : Bytes) (n : ℕ) (calls : List (τ × Bytes)) (c c' : Bytes),
    NthCall G.initial (encryptCall G E) calls t n v c →
      NthCall G.initial (encryptCall G E) calls u n v c' → c = c'

theorem not_streamsDiffer (t u : τ) : ¬ StreamsDiffer G E t u := by
  apply not_not_intro
  intro v n calls c c' ht hu
  rw [nthCall_suffix ht, nthCall_suffix hu]

/-- No two threads have streams that differ, and every value can be the `n`-th
of both. -/
theorem streams_never_differ (t u : τ) : ¬ StreamsDiffer G E t u ∧
    ∀ (v : Bytes) (n : ℕ), ∃ (calls : List (τ × Bytes)) (c : Bytes),
      NthCall G.initial (encryptCall G E) calls t n v c ∧
        NthCall G.initial (encryptCall G E) calls u n v c := by
  refine ⟨not_streamsDiffer G E t u, fun v n => ?_⟩
  obtain ⟨calls, hcalls⟩ := exists_nthCalls (f := encryptCall G E)
    (g := fun generator => (randSuffix G generator).2) (fun _ _ => rfl) t u n v
  exact ⟨calls, _, hcalls t (Or.inl rfl), hcalls u (Or.inr rfl)⟩

end Suffixes

/-- A generator one can compute with: multiplication modulo a prime. -/
def minstd : Mt19937 where
  State := ℕ
  seeded n := n
  uniform min max s := (min + UInt32.ofNat (s % (max - min + 1).toNat), 48271 * s % 2147483647)

example : (randStr minstd 10 minstd.initial).1 = [57, 56, 56, 52, 53, 51, 49, 56, 51, 56] := by decide

/-- Threads 0 and 1 do not differ. -/
theorem two_threads_agree : ¬ ∀ t u : ℕ, t ≠ u → StreamsDiffer minstd plainCipher t u :=
  fun h => not_streamsDiffer minstd plainCipher 0 1 (h 0 1 (by decide))

end Tee
end Ortoa

/-
# `encryption_engine.cpp`

The engine of `ortoa-tee` encrypts with AES-256-CBC under a fixed key and a
fixed initialisation vector; what makes two ciphertexts of a value differ is
the suffix of ten random digits that `encryptNonDeterministic` puts behind a
`#`. `decrypt` cuts its result at the first zero byte and `extractKey` at the
last `#`, so a value comes back whole if and only if it has no zero bytes
(`decrypt_undoes_encrypt_iff`).

`EVP_aes_256_cbc` under the engine's key is an arbitrary permutation `E` of
blocks, chained and padded as `Cbc.lean` has it. Ciphertexts and plaintexts
go into buffers of 4096 bytes that nothing guards; a write past the end is a
`Fault` of its own.

Key definitions: `extractKey`, `encryptNonDeterministic`, `decryptNonDeterministic`.
Key theorems: `extractKey_append`, `decryptNonDeterministic_encrypt`,
`encryptNonDeterministic_length`, `decrypt_undoes_encrypt_iff`.
-/
import Ortoa.Cbc
import Mathlib.Data.List.TakeWhile

namespace Ortoa
namespace Tee

/-- How a function of `ortoa-tee` can end other than by returning. -/
inductive Fault
  /-- `handle_errors` or an assertion: `abort()`. -/
  | abort
  /-- A write past the end of a buffer. -/
  | overflow
  deriving DecidableEq, Repr

/-- EVP_aes_256_cbc under the engine's key. -/
abbrev Cipher := Equiv.Perm (Block 16)

/-- `iv_string_`. -/
def iv : Block 16 :=
  Block.ofBytes [97, 49, 98, 50, 99, 51, 100, 52, 101, 53, 102, 54, 103, 55, 104, 56]

/-- `rand_str(rng_max_len)`: ten digits. -/
structure Suffix where
  digits : Bytes
  length_eq : digits.length = 10
  isDigit : ∀ c ∈ digits, 48 ≤ c ∧ c ≤ 57

/-- `'#'`. -/
def hash : UInt8 := 35

/-- The size of every buffer. -/
def bufferSize : ℕ := 4096

/-- `extractKey`'s loop, from index `i - 1` down. -/
def extractKeyFrom (encryptedKey : Bytes) : ℕ → Bytes
  | 0 => encryptedKey
  | i + 1 => if encryptedKey[i]? = some hash then encryptedKey.take i else extractKeyFrom encryptedKey i

/-- `extractKey`: what is before the last `#`, or all of it. -/
def extractKey (encryptedKey : Bytes) : Bytes := extractKeyFrom encryptedKey encryptedKey.length

section Engine

variable (E : Cipher)

/-- `encrypt`: the bytes written to `cipher_text`. The assertion holds, since
there is always a block of padding. -/
def encrypt (plainText : Bytes) : Bytes := cbcSeal E iv plainText

/-- What `EVP_DecryptUpdate` writes for `n` bytes: all whole blocks, but not
one that may hold the padding. -/
def decryptUpdateLen (n : ℕ) : ℕ := if n % 16 = 0 then n - 16 else n / 16 * 16

/-- `decrypt`: `EVP_DecryptFinal_ex` looks at the padding when
`EVP_DecryptUpdate` has written, and `std::find` ends the result at the first
zero byte. -/
def decrypt (cipherText : Bytes) : Except Fault Bytes :=
  if bufferSize < decryptUpdateLen cipherText.length then .error .overflow
  else
    match cbcOpen E iv cipherText with
    | none => .error .abort
    | some text =>
      if bufferSize < text.length then .error .overflow
      else if text = [] then .error .abort
      else .ok (text.takeWhile fun c => c ≠ 0)

def encryptNonDeterministic (plainText : Bytes) (s : Suffix) : Bytes :=
  encrypt E (plainText ++ hash :: s.digits)

def decryptNonDeterministic (cipherText : Bytes) : Except Fault Bytes :=
  (decrypt E cipherText).map extractKey

end Engine

/-! ### What is read back -/

theorem extractKeyFrom_append {s t : Bytes} (ht : hash ∉ t) : ∀ {i : ℕ}, i ≤ t.length →
    extractKeyFrom (s ++ hash :: t) (s.length + 1 + i) = s
  | 0, _ => by
    rw [Nat.add_zero, extractKeyFrom, if_pos (by simp), List.take_left]
  | i + 1, hi => by
    have hget : (s ++ hash :: t)[s.length + 1 + i]? = t[i]? := by
      rw [List.getElem?_append_right (by omega), show s.length + 1 + i - s.length = i + 1 by omega,
        List.getElem?_cons_succ]
    have hne : (s ++ hash :: t)[s.length + 1 + i]? ≠ some hash := by
      rw [hget]
      exact fun h => ht (List.mem_of_getElem? h)
    rw [← Nat.add_assoc, extractKeyFrom, if_neg hne]
    exact extractKeyFrom_append ht (Nat.le_of_succ_le hi)

/-- The last `#` ends the key. -/
theorem extractKey_append {s t : Bytes} (ht : hash ∉ t) : extractKey (s ++ hash :: t) = s := by
  rw [extractKey, List.length_append, List.length_cons, ← Nat.add_assoc, Nat.add_right_comm]
  exact extractKeyFrom_append ht (Nat.le_refl _)

theorem hash_not_digit (s : Suffix) : hash ∉ s.digits := fun h =>
  absurd (s.isDigit hash h).1 (by decide)

theorem zero_not_digit (s : Suffix) : (0 : UInt8) ∉ s.digits := fun h =>
  absurd (s.isDigit 0 h).1 (by decide)

variable {E : Cipher}

/-- The length of a ciphertext depends on the length of its value alone. -/
theorem encryptNonDeterministic_length (v : Bytes) (s : Suffix) :
    (encryptNonDeterministic E v s).length = ((v.length + 11) / 16 + 1) * 16 := by
  rw [encryptNonDeterministic, encrypt, cbcSeal_length E (by decide), List.length_append,
    List.length_cons, s.length_eq]

/-- What comes back of a value: the text up to its first zero byte, without
what is behind the last `#` in it. -/
def readBack (v : Bytes) (s : Suffix) : Bytes :=
  extractKey ((v ++ hash :: s.digits).takeWhile fun c => c ≠ 0)

/-- A ciphertext of a value that fits into the buffers is always decrypted. -/
theorem decryptNonDeterministic_eq_readBack {v : Bytes} (s : Suffix) (hlen : v.length ≤ 4084) :
    decryptNonDeterministic E (encryptNonDeterministic E v s) = .ok (readBack v s) := by
  have hclen := encryptNonDeterministic_length (E := E) v s
  have hdec : decrypt E (encryptNonDeterministic E v s) =
      .ok ((v ++ hash :: s.digits).takeWhile fun c => c ≠ 0) := by
    rw [decrypt, if_neg]
    · rw [encryptNonDeterministic, encrypt, cbcOpen_cbcSeal E (by decide) (by decide)]
      simp only
      rw [if_neg, if_neg (by simp)]
      rw [List.length_append, List.length_cons, s.length_eq, bufferSize]
      omega
    · rw [hclen, decryptUpdateLen, Nat.mul_mod_left, if_pos rfl, bufferSize]
      omega
  rw [decryptNonDeterministic, hdec, Except.map, readBack]

theorem readBack_of_nul_free {v : Bytes} (s : Suffix) (hv : (0 : UInt8) ∉ v) : readBack v s = v := by
  have htext : ((v ++ hash :: s.digits).takeWhile fun c => c ≠ 0) = v ++ hash :: s.digits := by
    rw [List.takeWhile_eq_self_iff]
    intro c hc
    simp only [decide_eq_true_eq]
    rintro rfl
    rcases List.mem_append.mp hc with h | h
    · exact hv h
    · rcases List.mem_cons.mp h with h | h
      · exact absurd h (by decide)
      · exact zero_not_digit s h
  rw [readBack, htext, extractKey_append (hash_not_digit s)]

/-- A value without zero bytes that fits into the buffers comes back. -/
theorem decryptNonDeterministic_encrypt {v : Bytes} (s : Suffix) (hv : (0 : UInt8) ∉ v)
    (hlen : v.length ≤ 4084) :
    decryptNonDeterministic E (encryptNonDeterministic E v s) = .ok v := by
  rw [decryptNonDeterministic_eq_readBack s hlen, readBack_of_nul_free s hv]

theorem mem_of_mem_extractKeyFrom {s : Bytes} {c : UInt8} : ∀ {i : ℕ}, c ∈ extractKeyFrom s i → c ∈ s
  | 0, h => h
  | i + 1, h => by
    rw [extractKeyFrom] at h
    split at h
    · exact List.mem_of_mem_take h
    · exact mem_of_mem_extractKeyFrom h

theorem nul_free_of_decrypt {c t : Bytes} (h : decrypt E c = .ok t) : (0 : UInt8) ∉ t := by
  unfold decrypt at h
  split at h
  · cases h
  · cases hopen : cbcOpen E iv c with
    | none => rw [hopen] at h; cases h
    | some text =>
      simp only [hopen] at h
      split at h
      · cases h
      · split at h
        · cases h
        · rw [← Except.ok.inj h]
          intro hmem
          simpa using List.mem_takeWhile_imp hmem

/-- What has been decrypted has no zero bytes. -/
theorem nul_free_of_decryptNonDeterministic {c v : Bytes}
    (h : decryptNonDeterministic E c = .ok v) : (0 : UInt8) ∉ v := by
  unfold decryptNonDeterministic at h
  cases ht : decrypt E c with
  | error f => rw [ht] at h; cases h
  | ok t =>
    rw [ht] at h
    rw [← Except.ok.inj h]
    exact fun hmem => nul_free_of_decrypt ht (mem_of_mem_extractKeyFrom hmem)

/-! ### Zero bytes -/

/-- Decryption undoes encryption if and only if the value has no zero bytes:
`#` is found from the back, but `std::find` stops at the first zero byte. -/
theorem decrypt_undoes_encrypt_iff (E : Cipher) {v : Bytes} (s : Suffix) (hlen : v.length ≤ 4084) :
    decryptNonDeterministic E (encryptNonDeterministic E v s) = .ok v ↔ (0 : UInt8) ∉ v := by
  constructor
  · intro h
    exact nul_free_of_decryptNonDeterministic h
  · intro hv
    exact decryptNonDeterministic_encrypt s hv hlen

def zeroSuffix : Suffix where
  digits := List.replicate 10 48
  length_eq := List.length_replicate
  isDigit c hc := by
    rw [List.eq_of_mem_replicate hc]
    decide

/-- A block cipher that does nothing. -/
def plainCipher : Cipher := Equiv.refl _

theorem decrypt_undoes_encrypt_hash :
    decryptNonDeterministic plainCipher (encryptNonDeterministic plainCipher [97, hash, 98] zeroSuffix) =
      .ok [97, hash, 98] :=
  (decrypt_undoes_encrypt_iff plainCipher zeroSuffix (by decide)).mpr (by decide)

/-- What follows the zero byte is lost. -/
theorem decrypt_cuts_at_zero :
    decryptNonDeterministic plainCipher (encryptNonDeterministic plainCipher [97, 0, 98] zeroSuffix) ≠
      .ok [97, 0, 98] := by
  intro h
  have hnul := nul_free_of_decryptNonDeterministic h
  exact hnul (by decide)

end Tee
end Ortoa

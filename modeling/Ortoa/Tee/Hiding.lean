/-
# What re-encryption leaves as it was

The untrusted host sees the ciphertext that is stored for a key and the one
that `access_data` writes back. The initialisation vector is fixed and the
random suffix stands behind the value, so the ciphertexts agree in as many
leading blocks as the texts do (`leadingBlocks_cbcSeal`). A GET leaves all
whole blocks of the value alone; a PUT does so only if the new value starts
with the same bytes. So the two can be told apart unless it does
(`leading_blocks_hidden_iff`).

Key definitions: `sealedText`, `kept`, `SameLeadingBlocks`.
Key theorems: `leadingBlocks_encrypt`, `le_putBlocks_iff`, `leading_blocks_hidden_iff`.
-/
import Ortoa.Tee.Host

namespace Ortoa
namespace Tee

/-- The text that is encrypted for a value, with its padding. -/
def sealedText (v : Bytes) (s : Suffix) : Bytes := pad 16 (v ++ hash :: s.digits)

/-- The number of leading bytes of a value that stand in blocks which a new
suffix does not change. -/
def kept (v : Bytes) (s t : Suffix) : ℕ :=
  if s.digits = t.digits then v.length
  else (v.length + 1 + agreeing s.digits t.digits) / 16 * 16

/-- After a GET and after a PUT the new ciphertext agrees with the stored one
in the same number of leading blocks. -/
def SameLeadingBlocks (E : Cipher) (inVal updateVal : Bytes) (s : Suffix) : Prop :=
  ∃ g p, accessData E .get inVal updateVal s = .ok g ∧ accessData E .put inVal updateVal s = .ok p ∧
    leadingBlocks 16 inVal g = leadingBlocks 16 inVal p

/-! ### Texts and ciphertexts -/

variable {E : Cipher}

/-- Ciphertexts of two values agree in the blocks in which the texts do. -/
theorem leadingBlocks_encrypt (v w : Bytes) (s t : Suffix) :
    leadingBlocks 16 (encryptNonDeterministic E v s) (encryptNonDeterministic E w t) =
      agreeing (sealedText v s) (sealedText w t) / 16 :=
  leadingBlocks_cbcSeal E (by decide) iv _ _

/-- What stands behind a value of `n` bytes. -/
def sealedTail (n : ℕ) (s : Suffix) : Bytes :=
  hash :: s.digits ++ List.replicate (16 - (n + 11) % 16) (UInt8.ofNat (16 - (n + 11) % 16))

theorem sealedText_eq (v : Bytes) (s : Suffix) : sealedText v s = v ++ sealedTail v.length s := by
  have hpadding : padding 16 (v ++ hash :: s.digits) = 16 - (v.length + 11) % 16 := by
    rw [padding, List.length_append, List.length_cons, s.length_eq]
  rw [sealedText, pad, hpadding, List.append_assoc]
  rfl

/-- The blocks that a PUT leaves alone: those that a GET does, as far as the
new value starts with the same bytes. -/
theorem le_putBlocks_iff {v w : Bytes} (h : w.length = v.length) (s t : Suffix) (k : ℕ) :
    k ≤ agreeing (sealedText v s) (sealedText w t) / 16 ↔
      k ≤ agreeing (sealedText v s) (sealedText v t) / 16 ∧ v.take (k * 16) = w.take (k * 16) := by
  rw [Nat.le_div_iff_mul_le (by decide), Nat.le_div_iff_mul_le (by decide), sealedText_eq v s,
    sealedText_eq v t, sealedText_eq w t, h]
  exact le_agreeing_replace h

/-- The bytes of the value in the blocks that a GET leaves alone. -/
theorem take_getBlocks (u v : Bytes) (s t : Suffix) (h : u.length = v.length) :
    u.take (agreeing (sealedText v s) (sealedText v t) / 16 * 16) = u.take (kept v s t) := by
  have hagree : agreeing (sealedText v s) (sealedText v t) =
      v.length + agreeing (sealedTail v.length s) (sealedTail v.length t) := by
    rw [sealedText_eq, sealedText_eq, agreeing_append]
  by_cases hst : s.digits = t.digits
  · -- nothing has changed: every block is the same
    have hsame : sealedTail v.length s = sealedTail v.length t := by rw [sealedTail, sealedTail, hst]
    have hall : agreeing (sealedText v s) (sealedText v t) = ((v.length + 11) / 16 + 1) * 16 := by
      have hself : agreeing (sealedText v s) (sealedText v s) = (sealedText v s).length :=
        Nat.le_antisymm (le_agreeing_iff.mp (Nat.le_refl _)).1
          (le_agreeing_iff.mpr ⟨Nat.le_refl _, Nat.le_refl _, rfl⟩)
      rw [sealedText_eq v t, ← hsame, ← sealedText_eq, hself, sealedText, pad_length (by decide),
        List.length_append, List.length_cons, s.length_eq]
    rw [kept, if_pos hst, hall, Nat.mul_div_cancel _ (by decide), List.take_of_length_le,
      List.take_of_length_le (by omega)]
    omega
  · have htail : agreeing (sealedTail v.length s) (sealedTail v.length t) =
        agreeing s.digits t.digits + 1 := by
      rw [sealedTail, sealedTail, List.cons_append, List.cons_append, agreeing, if_pos rfl,
        agreeing_append_of_ne (by rw [s.length_eq, t.length_eq]) hst]
    rw [kept, if_neg hst, hagree, htail]
    congr 3
    omega

/-! ### Telling a GET from a PUT -/

/-- What `access_data` writes back for the stored and for the client's value. -/
theorem accessData_encrypt {v w : Bytes} {s0 s1 : Suffix} (s : Suffix) (hv : v.length ≤ 4084)
    (hw : w.length ≤ 4084) :
    accessData E .get (encryptNonDeterministic E v s0) (encryptNonDeterministic E w s1) s =
        .ok (encryptNonDeterministic E (readBack v s0) s) ∧
      accessData E .put (encryptNonDeterministic E v s0) (encryptNonDeterministic E w s1) s =
        .ok (encryptNonDeterministic E (readBack w s1) s) := by
  constructor
  · rw [accessData, if_pos rfl, decryptNonDeterministic_eq_readBack s0 hv, Except.map]
  · rw [accessData, if_neg (by decide), decryptNonDeterministic_eq_readBack s1 hw, Except.map]

/-- GET and PUT leave the same number of leading blocks alone if and only if
the texts that they encrypt share the same number of leading blocks with the
stored one; for values without zero bytes, if and only if the new value
starts with the bytes of the old one that a new suffix does not touch. -/
theorem leading_blocks_hidden_iff (E : Cipher) {v w inVal updateVal : Bytes} {s0 s1 : Suffix}
    (s : Suffix) (hin : clientEncrypt E v s0 = .ok inVal) (hupdate : clientEncrypt E w s1 = .ok updateVal)
    (hlen : w.length = v.length) :
    (SameLeadingBlocks E inVal updateVal s ↔
      agreeing (sealedText v s0) (sealedText (readBack v s0) s) / 16 =
        agreeing (sealedText v s0) (sealedText (readBack w s1) s) / 16) ∧
    ((0 : UInt8) ∉ v → (0 : UInt8) ∉ w →
      (SameLeadingBlocks E inVal updateVal s ↔ v.take (kept v s0 s) = w.take (kept v s0 s))) := by
  obtain ⟨hvlen, rfl⟩ := clientEncrypt_eq_ok hin
  obtain ⟨hwlen, rfl⟩ := clientEncrypt_eq_ok hupdate
  obtain ⟨hget, hput⟩ := @accessData_encrypt E v w s0 s1 s hvlen hwlen
  have hsame : SameLeadingBlocks E (encryptNonDeterministic E v s0) (encryptNonDeterministic E w s1) s ↔
      agreeing (sealedText v s0) (sealedText (readBack v s0) s) / 16 =
        agreeing (sealedText v s0) (sealedText (readBack w s1) s) / 16 := by
    unfold SameLeadingBlocks
    rw [hget, hput, ← leadingBlocks_encrypt (E := E), ← leadingBlocks_encrypt (E := E)]
    simp
  refine ⟨hsame, fun hv hw => ?_⟩
  rw [hsame, readBack_of_nul_free s0 hv, readBack_of_nul_free s1 hw]
  have hput := le_putBlocks_iff hlen s0 s
  constructor
  · intro heq
    have htake := ((hput _).mp (Nat.le_of_eq heq)).2
    rwa [take_getBlocks v v s0 s rfl, take_getBlocks w v s0 s hlen] at htake
  · intro htake
    rw [← take_getBlocks v v s0 s rfl, ← take_getBlocks w v s0 s hlen] at htake
    apply Nat.le_antisymm
    · exact (hput _).mpr ⟨Nat.le_refl _, htake⟩
    · exact ((hput _).mp (Nat.le_refl _)).1

def oneSuffix : Suffix where
  digits := List.replicate 10 49
  length_eq := List.length_replicate
  isDigit c hc := by
    rw [List.eq_of_mem_replicate hc]
    decide

/-- No block of a short value survives a new suffix. -/
theorem leading_blocks_hidden_iff_short : SameLeadingBlocks plainCipher
    (encryptNonDeterministic plainCipher [97] zeroSuffix)
    (encryptNonDeterministic plainCipher [98] zeroSuffix) oneSuffix := by
  have hin : clientEncrypt plainCipher [97] zeroSuffix = .ok _ := clientEncrypt_ok zeroSuffix (by decide)
  have hupdate : clientEncrypt plainCipher [98] zeroSuffix = .ok _ :=
    clientEncrypt_ok zeroSuffix (by decide)
  have hiff := (leading_blocks_hidden_iff plainCipher oneSuffix hin hupdate rfl).2
  exact (hiff (by decide) (by decide)).mpr (by decide)

def sixteen (c : UInt8) : Bytes := List.replicate 16 c

/-- A GET of sixteen bytes leaves the first block alone; a PUT of sixteen
others does not. -/
theorem put_changes_first_block : ∃ inVal updateVal g p,
    clientEncrypt plainCipher (sixteen 97) zeroSuffix = .ok inVal ∧
    clientEncrypt plainCipher (sixteen 98) zeroSuffix = .ok updateVal ∧
    accessData plainCipher .get inVal updateVal oneSuffix = .ok g ∧
    accessData plainCipher .put inVal updateVal oneSuffix = .ok p ∧
    leadingBlocks 16 inVal g = 1 ∧ leadingBlocks 16 inVal p = 0 := by
  obtain ⟨hget, hput⟩ := accessData_encrypt (E := plainCipher) (v := sixteen 97) (w := sixteen 98)
    oneSuffix (by decide) (by decide)
  refine ⟨_, _, _, _, clientEncrypt_ok zeroSuffix (by decide), clientEncrypt_ok zeroSuffix (by decide),
    hget, hput, ?_, ?_⟩
  · rw [leadingBlocks_encrypt, readBack_of_nul_free _ (by decide)]
    decide
  · rw [leadingBlocks_encrypt, readBack_of_nul_free _ (by decide)]
    decide

end Tee
end Ortoa

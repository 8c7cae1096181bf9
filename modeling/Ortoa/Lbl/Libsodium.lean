/-
# libsodium on bytes

libsodium is not part of the repository. `Libsodium` is what `ortoa-lbl`
calls of it, with the sizes it documents and the one law of the secret box
the protocol rests on; `crypto_kdf_derive_from_key` is called with one
context (`"OpScureK"`) and one output length throughout, so only the subkey
id and the master key are arguments. `Libsodium.plain` is an instance one can
compute with: it derives keys by writing the id in front of the master key,
and seals by putting the key's first bytes in front of the message, so that
a box opens under the key it was sealed with and under no other that differs
there.

Key definitions: `Libsodium`, `Libsodium.toSodium`, `Libsodium.plain`.
-/
import Ortoa.Lbl.Slot

namespace Ortoa
namespace Lbl

/-- What the programs call of libsodium. -/
structure Libsodium where
  /-- `crypto_kdf_derive_from_key`: subkey id, master key. -/
  cryptoKdfDeriveFromKey : ℕ → Bytes → Bytes
  /-- `crypto_secretbox_easy`: message, nonce, key. -/
  cryptoSecretboxEasy : Bytes → Bytes → Bytes → Bytes
  /-- `crypto_secretbox_open_easy`: ciphertext, nonce, key; none for -1. -/
  cryptoSecretboxOpenEasy : Bytes → Bytes → Bytes → Option Bytes
  kdf_length : ∀ id mk, (cryptoKdfDeriveFromKey id mk).length = cryptoSecretboxKeybytes
  easy_length : ∀ m n k, (cryptoSecretboxEasy m n k).length = cryptoSecretboxMacbytes + m.length
  open_length : ∀ {c n k m}, cryptoSecretboxOpenEasy c n k = some m →
    c.length = cryptoSecretboxMacbytes + m.length
  open_easy : ∀ m n k, cryptoSecretboxOpenEasy (cryptoSecretboxEasy m n k) n k = some m

/-- The bytes of a message of one slot: auxiliary byte, label. -/
def slotBytes (m : UInt8 × Bytes) : Bytes := m.1 :: m.2

/-- A message of one slot, from its bytes. -/
def ofSlotBytes (m : Bytes) : UInt8 × Bytes := (m.headD 0, m.tail)

@[simp] theorem ofSlotBytes_slotBytes (m : UInt8 × Bytes) : ofSlotBytes (slotBytes m) = m := rfl

theorem slotBytes_ofSlotBytes {m : Bytes} (h : m ≠ []) : slotBytes (ofSlotBytes m) = m := by
  cases m with
  | nil => exact absurd rfl h
  | cons a m => rfl

namespace Libsodium

variable (L : Libsodium)

/-- libsodium as a slot uses it. -/
def toSodium : Sodium Bytes Bytes Bytes Bytes where
  cryptoKdfDeriveFromKey := L.cryptoKdfDeriveFromKey
  firstByte := fun k => k.headD 0
  cryptoSecretboxEasy := fun m n k => L.cryptoSecretboxEasy (slotBytes m) n k
  cryptoSecretboxOpenEasy := fun c n k => (L.cryptoSecretboxOpenEasy c n k).map ofSlotBytes

theorem toSodium_opens : L.toSodium.Opens := fun m n k => by
  simp [toSodium, L.open_easy]

theorem slotLabel_length (s : ℕ) (b : BitPair) (mk : Bytes) :
    (slotLabel L.toSodium s b mk).length = cryptoSecretboxKeybytes := L.kdf_length _ _

theorem createSlot_length (mk : Bytes) (s : ℕ) (b : BitPair) :
    (slotBytes (createSlot L.toSodium mk s b)).length = labelWidth := by
  simp only [slotBytes, createSlot, List.length_cons, slotLabel_length, labelWidth]
  omega

theorem easy_slot_length {m : UInt8 × Bytes} (h : m.2.length = cryptoSecretboxKeybytes)
    (n k : Bytes) : (L.toSodium.cryptoSecretboxEasy m n k).length = ciphertextLen := by
  simp only [toSodium, L.easy_length, slotBytes, List.length_cons, h, ciphertextLen]
  omega

theorem getSlot_length (mk mk' : Bytes) (s : ℕ) (nonce : BitPair → Bytes) (x : BitPair) :
    (getSlot L.toSodium mk mk' s nonce x).length = ciphertextLen := by
  rw [getSlot_eq]
  exact L.easy_slot_length (L.slotLabel_length _ _ _) _ _

theorem putSlot_length (mk mk' : Bytes) (s : ℕ) (b : BitPair) (nonce : BitPair → Bytes)
    (x : BitPair) : (putSlot L.toSodium mk mk' s b nonce x).length = ciphertextLen := by
  rw [putSlot_eq]
  exact L.easy_slot_length (L.slotLabel_length _ _ _) _ _

/-- What libsodium must not do: derive the same label twice, over the master
keys of `keys` and the subkey ids below `ids`. -/
def InjectiveOn (keys : List Bytes) (ids : ℕ) : Prop :=
  ∀ mk ∈ keys, ∀ mk' ∈ keys, ∀ i < ids, ∀ j < ids,
    L.cryptoKdfDeriveFromKey i mk = L.cryptoKdfDeriveFromKey j mk' → mk = mk' ∧ i = j

/-- `n` bytes of a string, filled up with zeros. -/
def padTo (n : ℕ) (s : Bytes) : Bytes := s.take n ++ List.replicate (n - s.length) 0

theorem padTo_length (n : ℕ) (s : Bytes) : (padTo n s).length = n := by
  simp only [padTo, List.length_append, List.length_take, List.length_replicate]
  omega

/-- A libsodium that hides nothing. -/
def plain : Libsodium where
  cryptoKdfDeriveFromKey id mk :=
    padTo cryptoSecretboxKeybytes (UInt8.ofNat id :: UInt8.ofNat (id / 256) :: mk)
  cryptoSecretboxEasy m _ k := padTo cryptoSecretboxMacbytes k ++ m
  cryptoSecretboxOpenEasy c _ k :=
    if c.take cryptoSecretboxMacbytes = padTo cryptoSecretboxMacbytes k then
      some (c.drop cryptoSecretboxMacbytes) else none
  kdf_length _ _ := padTo_length _ _
  easy_length _ _ _ := by rw [List.length_append, padTo_length]
  open_length {c n k m} h := by
    split at h
    · rename_i hc
      have hl := congrArg List.length hc
      rw [padTo_length, List.length_take] at hl
      simp only [Option.some.injEq] at h
      rw [← h, List.length_drop]
      omega
    · cases h
  open_easy m n k := by
    rw [List.take_left' (padTo_length _ _), if_pos rfl, List.drop_left' (padTo_length _ _)]

/-- It derives different keys, from master keys of one repeated byte. -/
theorem plain_injectiveOn (keys : List UInt8) {ids : ℕ} (hids : ids ≤ 65536) :
    plain.InjectiveOn (keys.map (List.replicate 32)) ids := by
  intro mk hmk mk' hmk' i hi j hj h
  obtain ⟨a, -, rfl⟩ := List.mem_map.mp hmk
  obtain ⟨b, -, rfl⟩ := List.mem_map.mp hmk'
  simp only [plain, padTo, cryptoSecretboxKeybytes, List.length_cons, List.length_replicate,
    List.take_succ_cons, List.take_replicate, List.cons_append, List.cons.injEq] at h
  obtain ⟨hlow, hhigh, hrest⟩ := h
  have hab : a = b := congrArg (fun l : Bytes => l.headD 0) hrest
  have hlow' := congrArg UInt8.toNat hlow
  have hhigh' := congrArg UInt8.toNat hhigh
  simp only [UInt8.toNat_ofNat'] at hlow' hhigh'
  exact ⟨by rw [hab], by omega⟩

end Libsodium

end Lbl
end Ortoa

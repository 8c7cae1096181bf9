/-
# One slot: two bits of the value under four labels

A value of `VALUE_SIZE` bytes is stored as `4 * VALUE_SIZE` slots, slot
`s = 4 * i + j` holding bits `2 * j` and `2 * j + 1` of byte `i`. Under a
master key a slot has four labels, one for each bit pair, and an auxiliary
mask of two bits (`tmpAux[0] & 3`); the store holds the label of the pair it
has, and the pair xor the mask. An access entry holds for each slot a table
of four sealed labels A, B, C, D, one under each old label, in the order
that the old mask gives; the stored auxiliary bits select the one that opens.

The loop bodies of `clientHelper.cpp` and `server.cpp` are `createSlot`,
`getSlot`, `putSlot`, `readSlot` and `openSlot` here, over an abstract
libsodium (`Sodium`): the byte strings use them with libsodium's bytes, the
symbolic analyses with terms.

Key theorems: `newLabels_eq`, `openSlot_getSlot`, `openSlot_putSlot`,
`readSlot_slotLabel`, `modifyBits_getBits`.
-/
import Ortoa.Lbl.Constants
import Mathlib.Logic.Function.Basic
import Mathlib.Tactic.IntervalCases

namespace Ortoa
namespace Lbl

/-! ### Bit pairs -/

/-- What `& 3` keeps. -/
abbrev BitPair := BitVec 2

/-- `b & 3`. -/
def low2 (b : UInt8) : BitPair := b.toBitVec.setWidth 2

/-- A bit pair as a byte. -/
def pairByte (b : BitPair) : UInt8 := ⟨b.setWidth 8⟩

@[simp] theorem low2_pairByte (b : BitPair) : low2 (pairByte b) = b := by
  revert b; decide

/-- `getBits`: the two bits of `c` from `bitNumPair` on. -/
def getBits (c : UInt8) (bitNumPair : ℕ) : BitPair := (c.toBitVec >>> bitNumPair).setWidth 2

/-- `modifyBit`: bit `bitNum` of `c` set to the low bit of `b`. -/
def modifyBit (c : UInt8) (bitNum : ℕ) (b : BitVec 8) : UInt8 :=
  ⟨(c.toBitVec &&& ~~~(1#8 <<< bitNum)) ||| (b <<< bitNum)⟩

/-- `modifyBits`: the two bits of `c` from `bitNum` on set to `b`. -/
def modifyBits (c : UInt8) (bitNum : ℕ) (b : BitPair) : UInt8 :=
  let p := modifyBit c bitNum (b.setWidth 8 &&& 1#8)
  modifyBit p (bitNum + 1) ((b.setWidth 8 >>> 1) &&& 1#8)

/-- Writing the four pairs of a byte over any byte gives that byte. -/
theorem modifyBits_getBits (c v : UInt8) :
    modifyBits (modifyBits (modifyBits (modifyBits c 0 (getBits v 0)) 2 (getBits v 2)) 4
      (getBits v 4)) 6 (getBits v 6) = v := by
  apply UInt8.toBitVec_inj.mp
  apply BitVec.eq_of_getLsbD_eq
  intro i hi
  interval_cases i <;> simp [modifyBits, modifyBit, getBits]

/-! ### libsodium, as a slot uses it -/

/-- What the loop bodies call of libsodium, over any representation of keys,
labels, nonces and sealed messages. A message is an auxiliary byte and a
label. -/
structure Sodium (MasterKey Subkey Nonce Box : Type) where
  /-- `crypto_kdf_derive_from_key`, from a subkey id and a master key. -/
  cryptoKdfDeriveFromKey : ℕ → MasterKey → Subkey
  /-- The first byte of a derived key. -/
  firstByte : Subkey → UInt8
  /-- `crypto_secretbox_easy`. -/
  cryptoSecretboxEasy : UInt8 × Subkey → Nonce → Subkey → Box
  /-- `crypto_secretbox_open_easy`. -/
  cryptoSecretboxOpenEasy : Box → Nonce → Subkey → Option (UInt8 × Subkey)

section Slot

variable {K L N C : Type} (S : Sodium K L N C)

/-- `crypto_secretbox_open_easy` undoes `crypto_secretbox_easy` under the
same key and nonce. -/
def Sodium.Opens : Prop :=
  ∀ m n k, S.cryptoSecretboxOpenEasy (S.cryptoSecretboxEasy m n k) n k = some m

/-- `tmpAux[0] & 3` of slot `s`. -/
def auxBits (s : ℕ) (masterKey : K) : BitPair :=
  low2 (S.firstByte (S.cryptoKdfDeriveFromKey (5 * s) masterKey))

/-- The label of the bit pair `b` in slot `s`. -/
def slotLabel (s : ℕ) (b : BitPair) (masterKey : K) : L :=
  S.cryptoKdfDeriveFromKey (5 * s + 1 + b.toNat) masterKey

/-- The loop body of `createEntryParallel`: what is stored for the pair `bits`. -/
def createSlot (masterKey : K) (s : ℕ) (bits : BitPair) : UInt8 × L :=
  (pairByte (auxBits S s masterKey ^^^ bits), slotLabel S s bits masterKey)

/-- `newLabels`, as both access builders fill it: the auxiliary bytes at
`x ^ oldBits` for `x` from 0 to 3, the labels in their own order. -/
def newLabels (newMasterKey : K) (s : ℕ) (oldBits : BitPair) : BitPair → UInt8 × L :=
  let aux := ([0, 1, 2, 3] : List BitPair).foldl (fun (a : BitPair → UInt8) x =>
    Function.update a (x ^^^ oldBits) (pairByte (auxBits S s newMasterKey ^^^ x ^^^ oldBits)))
    fun _ => 0
  fun b => (aux b, slotLabel S s b newMasterKey)

/-- The loop body of `getEntryParallel`: ciphertexts A, B, C, D of slot `s`. -/
def getSlot (masterKey newMasterKey : K) (s : ℕ) (nonce : BitPair → N) : BitPair → C :=
  let oldBits := auxBits S s masterKey
  let newLabels := newLabels S newMasterKey s oldBits
  fun x => S.cryptoSecretboxEasy (newLabels (x ^^^ oldBits)) (nonce x)
    (slotLabel S s (x ^^^ oldBits) masterKey)

/-- The loop body of `putEntryParallel`, for the pair `newBits` of the value. -/
def putSlot (masterKey newMasterKey : K) (s : ℕ) (newBits : BitPair) (nonce : BitPair → N) :
    BitPair → C :=
  let oldBits := auxBits S s masterKey
  let newLabel := newLabels S newMasterKey s oldBits newBits
  fun x => S.cryptoSecretboxEasy newLabel (nonce x) (slotLabel S s (x ^^^ oldBits) masterKey)

/-- The loop body of `decryptPortion`: the stored auxiliary bits select the
nonce and the ciphertext, the stored label opens it. -/
def openSlot (oldKey : UInt8 × L) (nonce : BitPair → N) (ciphertext : BitPair → C) :
    Option (UInt8 × L) :=
  S.cryptoSecretboxOpenEasy (ciphertext (low2 oldKey.1)) (nonce (low2 oldKey.1)) oldKey.2

/-- The comparisons of `readValueFromLabels`: the pair whose label this is,
3 when it is none of the first three. -/
def readSlot [DecidableEq L] (masterKey : K) (s : ℕ) (currLabel : L) : BitPair :=
  if currLabel = slotLabel S s 0 masterKey then 0
  else if currLabel = slotLabel S s 1 masterKey then 1
  else if currLabel = slotLabel S s 2 masterKey then 2
  else 3

/-! ### What the bodies do -/

/-- The permuted assignments of `newLabels` come to what a create stores. -/
theorem newLabels_eq (newMasterKey : K) (s : ℕ) (oldBits b : BitPair) :
    newLabels S newMasterKey s oldBits b = createSlot S newMasterKey s b := by
  have hperm : ∀ a o b : BitPair, ([0, 1, 2, 3] : List BitPair).foldl
      (fun (f : BitPair → UInt8) x => Function.update f (x ^^^ o) (pairByte (a ^^^ x ^^^ o)))
      (fun _ => 0) b = pairByte (a ^^^ b) := by decide
  simp only [newLabels, createSlot, hperm]

theorem getSlot_eq (masterKey newMasterKey : K) (s : ℕ) (nonce : BitPair → N) (x : BitPair) :
    getSlot S masterKey newMasterKey s nonce x =
      S.cryptoSecretboxEasy (createSlot S newMasterKey s (x ^^^ auxBits S s masterKey)) (nonce x)
        (slotLabel S s (x ^^^ auxBits S s masterKey) masterKey) := by
  simp only [getSlot, newLabels_eq]

theorem putSlot_eq (masterKey newMasterKey : K) (s : ℕ) (newBits : BitPair) (nonce : BitPair → N)
    (x : BitPair) :
    putSlot S masterKey newMasterKey s newBits nonce x =
      S.cryptoSecretboxEasy (createSlot S newMasterKey s newBits) (nonce x)
        (slotLabel S s (x ^^^ auxBits S s masterKey) masterKey) := by
  simp only [putSlot, newLabels_eq]

/-- The stored auxiliary bits point at the table entry sealed under the
stored label. -/
theorem aux_xor_cancel (a b : BitPair) : (a ^^^ b) ^^^ a = b := by
  revert a b; decide

variable {S}

/-- A GET entry turns the stored label of a pair into the new label of the
same pair. -/
theorem openSlot_getSlot (hS : S.Opens) (masterKey newMasterKey : K) (s : ℕ) (b : BitPair)
    (nonce : BitPair → N) :
    openSlot S (createSlot S masterKey s b) nonce (getSlot S masterKey newMasterKey s nonce) =
      some (createSlot S newMasterKey s b) := by
  unfold openSlot
  rw [getSlot_eq]
  simp only [createSlot, low2_pairByte, aux_xor_cancel]
  exact hS _ _ _

/-- A PUT entry turns the stored label of any pair into the new label of the
pair it writes. -/
theorem openSlot_putSlot (hS : S.Opens) (masterKey newMasterKey : K) (s : ℕ) (b newBits : BitPair)
    (nonce : BitPair → N) :
    openSlot S (createSlot S masterKey s b) nonce
      (putSlot S masterKey newMasterKey s newBits nonce) =
        some (createSlot S newMasterKey s newBits) := by
  unfold openSlot
  rw [putSlot_eq]
  simp only [createSlot, low2_pairByte, aux_xor_cancel]
  exact hS _ _ _

/-- The comparisons find the pair, if the slot's labels differ. -/
theorem readSlot_slotLabel [DecidableEq L] {masterKey : K} {s : ℕ}
    (hinj : ∀ b b', slotLabel S s b masterKey = slotLabel S s b' masterKey → b = b')
    (b : BitPair) : readSlot S masterKey s (slotLabel S s b masterKey) = b := by
  have hne : ∀ x y : BitPair, slotLabel S s x masterKey = slotLabel S s y masterKey ↔ x = y :=
    fun x y => ⟨hinj x y, fun h => by rw [h]⟩
  simp only [readSlot, hne]
  revert b
  decide

end Slot

end Lbl
end Ortoa

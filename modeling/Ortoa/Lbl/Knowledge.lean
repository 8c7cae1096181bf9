/-
# What the server comes to know of a key

The server is sent a create entry and then any number of access entries, and
opens what it can. In the symbolic model of libsodium (`symbolic`) the tables
of a generation leak along one chain only: of the four labels of a slot the
server has the one of the stored pair, which opens one ciphertext of the next
entry, which holds the next label of the stored pair. That the three other
labels stay secret rests on the subkey ids `5 * s + 1 + b` being distinct
(`labelId_inj`); that the ciphertexts under them may hold anything is what
`Safe` allows.

Key definitions: `symbolic`, `Sent`.
Key theorems: `sent_safe`, `learns_stored`, `knows_one_label`.
-/
import Ortoa.Terms
import Ortoa.Lbl.Generations

namespace Ortoa
namespace Lbl

/-- libsodium on terms: a box opens under its own key and nonce only. `first`
gives the first byte of each derived key. -/
def symbolic (first : Term → UInt8) : Sodium Term Term ℕ Term where
  cryptoKdfDeriveFromKey := Term.subkey
  firstByte := first
  cryptoSecretboxEasy m n k := .box (.pair (.byte m.1) m.2) n k
  cryptoSecretboxOpenEasy
    | .box (.pair (.byte c) l) n k, n', k' => if n = n' ∧ k = k' then some (c, l) else none
    | _, _, _ => none

theorem symbolic_open (first : Term → UInt8) (m : UInt8 × Term) (n n' : ℕ) (k k' : Term) :
    (symbolic first).cryptoSecretboxOpenEasy ((symbolic first).cryptoSecretboxEasy m n k) n' k' =
      if n = n' ∧ k = k' then some m else none := rfl

theorem symbolic_opens (first : Term → UInt8) : (symbolic first).Opens := fun m n k => by
  rw [symbolic_open, if_pos ⟨rfl, rfl⟩]

/-- The subkey ids of labels are distinct over all slots and pairs. -/
theorem labelId_inj {s s' : ℕ} {b b' : BitPair}
    (h : 5 * s + 1 + b.toNat = 5 * s' + 1 + b'.toNat) : s = s' ∧ b = b' := by
  have hb := b.isLt
  have hb' := b'.isLt
  exact ⟨by omega, BitVec.eq_of_toNat_eq (by omega)⟩

section Knowledge

variable (first : Term → UInt8) (nonce : ℕ → ℕ → BitPair → ℕ) (size : ℕ) (value : Bytes)
  (rs : List Request)

/-- The label of the pair `b` in slot `s` in generation `g`. -/
def labelTerm (g s : ℕ) (b : BitPair) : Term := slotLabel (symbolic first) s b (.name g)

/-- What the server is sent: the create entry, then the entries of `rs`. -/
inductive Sent : Term → Prop
  | createAux (s : ℕ) : s < size * 4 →
    Sent (.byte (storedSlot (symbolic first) Term.name size value rs 0 s).1)
  | createLabel (s : ℕ) : s < size * 4 →
    Sent (storedSlot (symbolic first) Term.name size value rs 0 s).2
  | nonce (g s : ℕ) (x : BitPair) : g < rs.length → s < size * 4 → Sent (.nonce (nonce g s x))
  | ciphertext (g s : ℕ) (x : BitPair) (r : Request) : rs[g]? = some r → s < size * 4 →
    Sent (sealedSlot (symbolic first) Term.name nonce size r g s x)

/-- The subkeys that come out: the label of the stored pair, in each slot of
each generation. -/
def Stored (id : ℕ) (k : Term) : Prop :=
  ∃ g s, k = .name g ∧ id = 5 * s + 1 + (pairAt (storedValue size value rs g) s).toNat

theorem safe_labelTerm {size : ℕ} {value : Bytes} {rs : List Request} {g s : ℕ} {b : BitPair} :
    Safe (Stored size value rs) (labelTerm first g s b) ↔
      b = pairAt (storedValue size value rs g) s := by
  constructor
  · rintro (⟨g', s', hk, hid⟩ | h)
    · obtain rfl := Term.name.inj hk
      obtain ⟨rfl, rfl⟩ := labelId_inj hid
      rfl
    · exact absurd h id
  · rintro rfl
    exact Or.inl ⟨g, s, rfl, rfl⟩

variable {first nonce size value rs}

/-- Nothing the server is sent gives away more than the stored labels. -/
theorem sent_safe {t : Term} (h : Sent first nonce size value rs t) :
    Safe (Stored size value rs) t := by
  cases h with
  | createAux s => trivial
  | createLabel s =>
    exact (safe_labelTerm first).mpr rfl
  | nonce g s x => trivial
  | ciphertext g s x r hr _ =>
    obtain ⟨b, hbox, hb⟩ := sealedSlot_eq (symbolic first) Term.name nonce size value s hr x
    rw [hbox]
    exact fun hk => ⟨trivial, (safe_labelTerm first).mpr (hb ((safe_labelTerm first).mp hk))⟩

/-- The server learns the label of the stored pair of every generation, by
opening one ciphertext after the other. -/
theorem learns_stored {s : ℕ} (hs : s < size * 4) : ∀ {g : ℕ}, g ≤ rs.length →
    Learns (Sent first nonce size value rs)
      (labelTerm first g s (pairAt (storedValue size value rs g) s))
  | 0, _ => .sent (.createLabel s hs)
  | g + 1, hg => by
    have hr : rs[g]? = some rs[g] := List.getElem?_eq_getElem (by omega)
    -- the table entry that the stored pair and the old mask select
    obtain ⟨b, hbox, hb⟩ := sealedSlot_eq (symbolic first) Term.name nonce size value s hr
      (auxBits (symbolic first) s (.name g) ^^^ pairAt (storedValue size value rs g) s)
    have hkey := learns_stored hs (by omega : g ≤ rs.length)
    have hsent : Learns (Sent first nonce size value rs) _ :=
      .sent (.ciphertext g s
        (auxBits (symbolic first) s (.name g) ^^^ pairAt (storedValue size value rs g) s) _ hr hs)
    rw [hbox] at hsent
    rw [aux_xor_cancel] at hsent hb
    rw [hb rfl] at hsent
    exact .right (.opened hsent hkey)

end Knowledge

/-- After any requests the server knows, of the four labels of each slot and
generation, exactly the one of the stored pair, whether it only opens what it
is sent or computes with it as well; and it knows no master key. -/
theorem knows_one_label (first : Term → UInt8) (nonce : ℕ → ℕ → BitPair → ℕ) (size : ℕ)
    (value : Bytes) (rs : List Request) :
    (∀ g ≤ rs.length, ∀ s < size * 4, ∀ b,
      (Learns (Sent first nonce size value rs) (labelTerm first g s b) ↔
        b = pairAt (storedValue size value rs g) s) ∧
      (Derives (Sent first nonce size value rs) (labelTerm first g s b) ↔
        b = pairAt (storedValue size value rs g) s)) ∧
    ∀ g, ¬ Derives (Sent first nonce size value rs) (.name g) := by
  have hsafe : ∀ t, Sent first nonce size value rs t → Safe (Stored size value rs) t :=
    fun _ => sent_safe
  refine ⟨fun g hg s hs b => ?_, not_derives_name hsafe⟩
  have honly : Derives (Sent first nonce size value rs) (labelTerm first g s b) →
      b = pairAt (storedValue size value rs g) s :=
    fun h => (safe_labelTerm first).mp (derives_safe hsafe h)
  have hstored : b = pairAt (storedValue size value rs g) s →
      Learns (Sent first nonce size value rs) (labelTerm first g s b) := by
    rintro rfl
    exact learns_stored hs hg
  exact ⟨⟨fun h => honly h.derives, hstored⟩, honly, fun h => (hstored h).derives⟩

end Lbl
end Ortoa

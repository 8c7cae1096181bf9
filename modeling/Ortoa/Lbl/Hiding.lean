/-
# GETs and PUTs look alike to the server

What the server sees of an access in a slot: the auxiliary bits it has
stored, which of the ciphertexts A, B, C, D opens under its label, and the
auxiliary bits that come out. With the two bits of mask that each slot has
in each generation taken as free (`masked`), all of it is the xor of mask and
stored pair (`observe_eq`), so two runs that differ in their operations and
values look the same once the masks of one are shifted by the difference of
the stored pairs; the shift is a bijection (`shift`). The fields of an entry
have the same sizes whatever is requested (`requestEntry_sizes`).

Key definitions: `Masks`, `observe`, `shift`.
Key theorems: `observe_eq`, `access_type_hidden`.
-/
import Ortoa.Lbl.Knowledge
import Mathlib.Logic.Equiv.Basic

namespace Ortoa
namespace Lbl

/-- Two bits for each slot in each of `n + 1` generations. -/
abbrev Masks (n size : ℕ) := Fin (n + 1) → Fin (size * 4) → BitPair

/-- The mask of a slot in a generation. -/
def Masks.get {n size : ℕ} (m : Masks n size) (g s : ℕ) : BitPair :=
  if h : g < n + 1 ∧ s < size * 4 then m ⟨g, h.1⟩ ⟨s, h.2⟩ else 0

/-- The first bytes of the derived keys, as the masks have them. -/
def masked {n size : ℕ} (m : Masks n size) : Term → UInt8
  | .subkey id (.name g) => pairByte (m.get g (id / 5))
  | _ => 0

/-- What an access shows in a slot. -/
structure AccessView where
  /-- Which of A, B, C and D opens under the stored label. -/
  opens : BitPair → Bool
  /-- The auxiliary bits obtained. -/
  obtained : Option BitPair

/-- What the server sees of a slot in a generation: the auxiliary bits
stored, and the access that ends the generation, if there is one. -/
structure SlotView where
  stored : BitPair
  access : Option AccessView

section Observe

variable {K L N C : Type} (S : Sodium K L N C) (mk : ℕ → K) (nonce : ℕ → ℕ → BitPair → N)
  (size : ℕ) (value : Bytes) (rs : List Request)

/-- What the server sees of slot `s` in generation `g`. -/
def observe (g s : ℕ) : Option SlotView :=
  (serverSlot S mk nonce size value rs g s).map fun old =>
    { stored := low2 old.1
      access := (rs[g]?).map fun r =>
        { opens := fun x => (S.cryptoSecretboxOpenEasy (sealedSlot S mk nonce size r g s x)
            (nonce g s x) old.2).isSome
          obtained := (openSlot S old (nonce g s) (sealedSlot S mk nonce size r g s)).map
            fun new => low2 new.1 } }

end Observe

section Hiding

variable {n size : ℕ}

theorem auxBits_masked (m : Masks n size) (g s : ℕ) :
    auxBits (symbolic (masked m)) s (.name g) = m.get g s := by
  change low2 (pairByte (m.get g (5 * s / 5))) = _
  rw [low2_pairByte, Nat.mul_div_cancel_left s (by decide)]

/-- On terms a label opens what was sealed under it, and nothing else. -/
theorem symbolic_open_label (first : Term → UInt8) (m : UInt8 × Term) (j s : ℕ) (b b' : BitPair)
    (k : Term) :
    ((symbolic first).cryptoSecretboxOpenEasy ((symbolic first).cryptoSecretboxEasy m j
      (slotLabel (symbolic first) s b k)) j (slotLabel (symbolic first) s b' k)).isSome =
        decide (b = b') := by
  have hkey : slotLabel (symbolic first) s b k = slotLabel (symbolic first) s b' k ↔ b = b' := by
    refine ⟨fun h => ?_, fun h => by rw [h]⟩
    simp only [slotLabel, symbolic, Term.subkey.injEq, and_true] at h
    exact (labelId_inj h).2
  rw [symbolic_open]
  simp only [hkey, true_and]
  by_cases h : b = b'
  · rw [if_pos h, Option.isSome_some, decide_eq_true h]
  · rw [if_neg h, Option.isSome_none, decide_eq_false h]

/-- What is seen of a slot is the xor of its mask and its stored pair, in each
generation. -/
theorem observe_eq (m : Masks n size) (nonce : ℕ → ℕ → BitPair → ℕ) (value : Bytes)
    {rs : List Request} (hn : rs.length = n) {g : ℕ} (s : ℕ) (hg : g ≤ n) :
    observe (symbolic (masked m)) Term.name nonce size value rs g s =
      some ⟨m.get g s ^^^ pairAt (storedValue size value rs g) s,
        if g < n then
          some ⟨fun x => decide (x = m.get g s ^^^ pairAt (storedValue size value rs g) s),
            some (m.get (g + 1) s ^^^ pairAt (storedValue size value rs (g + 1)) s)⟩
        else none⟩ := by
  subst hn
  have hS := symbolic_opens (masked m)
  have hstored : ∀ h, low2 (storedSlot (symbolic (masked m)) Term.name size value rs h s).1 =
      m.get h s ^^^ pairAt (storedValue size value rs h) s := fun h => by
    rw [storedSlot, createSlot, low2_pairByte, auxBits_masked]
  rw [observe, serverSlot_eq hS s hg, Option.map_some, hstored]
  by_cases hlt : g < rs.length
  · have hr : rs[g]? = some rs[g] := List.getElem?_eq_getElem hlt
    have hopens : ∀ x, ((symbolic (masked m)).cryptoSecretboxOpenEasy
        (sealedSlot (symbolic (masked m)) Term.name nonce size rs[g] g s x) (nonce g s x)
        (storedSlot (symbolic (masked m)) Term.name size value rs g s).2).isSome =
          decide (x = m.get g s ^^^ pairAt (storedValue size value rs g) s) := by
      intro x
      obtain ⟨b, hbox, -⟩ := sealedSlot_eq (symbolic (masked m)) Term.name nonce size value s hr x
      have hx : ∀ y a p : BitPair, (y ^^^ a = p) ↔ (y = a ^^^ p) := by decide
      rw [hbox, auxBits_masked]
      simp only [storedSlot, createSlot, symbolic_open_label, hx]
    simp only [hr, if_pos hlt, Option.map_some, hopens, openSlot_sealedSlot hS s hr, hstored]
  · rw [if_neg hlt, List.getElem?_eq_none (by omega), Option.map_none]

/-- The masks of one run, shifted to the other. -/
def shift (size : ℕ) (v v' : ℕ → Bytes) : Masks n size ≃ Masks n size where
  toFun m := fun g s => m g s ^^^ (pairAt (v g) s ^^^ pairAt (v' g) s)
  invFun m := fun g s => m g s ^^^ (pairAt (v g) s ^^^ pairAt (v' g) s)
  left_inv m := by
    funext g s
    simp only [BitVec.xor_assoc, BitVec.xor_self, BitVec.xor_zero]
  right_inv m := by
    funext g s
    simp only [BitVec.xor_assoc, BitVec.xor_self, BitVec.xor_zero]

theorem shift_get {v v' : ℕ → Bytes} (m : Masks n size) {g s : ℕ} (hg : g ≤ n) (hs : s < size * 4) :
    (shift size v v' m).get g s ^^^ pairAt (v' g) s = m.get g s ^^^ pairAt (v g) s := by
  have hx : ∀ a b c : BitPair, a ^^^ (b ^^^ c) ^^^ c = a ^^^ b := by decide
  simp only [Masks.get, shift, Equiv.coe_fn_mk, show g < n + 1 ∧ s < size * 4 from ⟨by omega, hs⟩,
    and_self, dite_true, hx]

/-- Shifting the masks makes the two runs look the same. -/
theorem observe_shift (nonce nonce' : ℕ → ℕ → BitPair → ℕ) (value value' : Bytes)
    {rs rs' : List Request} (hn : rs.length = n) (hn' : rs'.length = n) (m : Masks n size) {g s : ℕ}
    (hg : g ≤ n) (hs : s < size * 4) :
    observe (symbolic (masked m)) Term.name nonce size value rs g s =
      observe (symbolic (masked (shift size (storedValue size value rs)
        (storedValue size value' rs') m))) Term.name nonce' size value' rs' g s := by
  rw [observe_eq m nonce value hn s hg, observe_eq _ nonce' value' hn' s hg, shift_get m hg hs]
  by_cases hlt : g < n
  · rw [if_pos hlt, if_pos hlt, shift_get m (by omega) hs]
  · rw [if_neg hlt, if_neg hlt]

end Hiding

/-! ### The law -/

/-- The entries of a run that starts with a create. -/
def constructAll (cfg : Config) (L : Libsodium) (g : Globals) (key value : Bytes) (d : Draw cfg)
    (rs : List (Request × Draw cfg)) : Except Fault (List Entry) := do
  let (g, entry) ← constructCreateEntry cfg L g key value d
  let entries ← constructRun cfg L key g rs
  pure (entry :: entries)

/-- The sizes of all fields depend on the key's length and the number of
accesses only. -/
theorem constructAll_sizes {cfg : Config} {L : Libsodium} (g : Globals) (key : Bytes) {value : Bytes}
    (d : Draw cfg) {rs : List (Request × Draw cfg)} (hv : value.length ≤ cfg.valueSize)
    (hrs : ∀ rd ∈ rs, rd.1.Fits cfg) :
    ∃ es, constructAll cfg L g key value d rs = .ok es ∧ es.map Entry.sizes =
      [key.length, cfg.valueSize * 4 * labelWidth, 0, 0, 0] ::
        List.replicate rs.length
          (key.length :: List.replicate 4 (cfg.valueSize * 4 * boxWidth)) := by
  obtain ⟨es, hes, hlen, hget⟩ := constructRun_eq (L := L) key (g.rekey key d.masterKey) rs hrs
  refine ⟨createEntry cfg L key value d :: es, ?_, ?_⟩
  · rw [constructAll, bind_of_ok (constructCreateEntry_eq cfg L g key d hv)]
    exact bind_of_ok hes _
  · rw [List.map_cons]
    congr 1
    · simp [Entry.sizes, createEntry, labelString_length]
    · refine List.eq_replicate_iff.mpr ⟨by rw [List.length_map, hlen], fun z hz => ?_⟩
      obtain ⟨e, he, rfl⟩ := List.mem_map.mp hz
      obtain ⟨i, hi⟩ := List.mem_iff_getElem?.mp he
      obtain ⟨rd, hrd⟩ : ∃ rd, rs[i]? = some rd := by
        have hlt := (List.getElem?_eq_some_iff.mp hi).1
        exact ⟨_, List.getElem?_eq_getElem (hlen ▸ hlt)⟩
      rw [hget i rd hrd, Option.some.injEq] at hi
      rw [← hi, requestEntry_sizes]

/-- Two runs on a key with the same number of accesses, whatever is requested
and written in each: their entries have the same sizes, and there is a
bijection between the masks of the one and of the other under which the
server sees the same in every slot of every generation. -/
theorem access_type_hidden (cfg : Config) (L : Libsodium) (key value value' : Bytes)
    (d d' : Draw cfg) (g g' : Globals) (rs rs' : List (Request × Draw cfg))
    (hlen : rs.length = rs'.length)
    (hv : value.length ≤ cfg.valueSize) (hv' : value'.length ≤ cfg.valueSize)
    (hrs : ∀ rd ∈ rs, rd.1.Fits cfg) (hrs' : ∀ rd ∈ rs', rd.1.Fits cfg)
    (nonce nonce' : ℕ → ℕ → BitPair → ℕ) :
    (∃ es es', constructAll cfg L g key value d rs = .ok es ∧
      constructAll cfg L g' key value' d' rs' = .ok es' ∧
      es.map Entry.sizes = es'.map Entry.sizes) ∧
    ∃ e : Masks rs.length cfg.valueSize ≃ Masks rs.length cfg.valueSize,
      ∀ m, ∀ i ≤ rs.length, ∀ s < cfg.valueSize * 4,
        observe (symbolic (masked m)) Term.name nonce cfg.valueSize value (rs.map Prod.fst) i s =
          observe (symbolic (masked (e m))) Term.name nonce' cfg.valueSize value'
            (rs'.map Prod.fst) i s := by
  obtain ⟨es, hes, hsz⟩ := constructAll_sizes (L := L) g key d hv hrs
  obtain ⟨es', hes', hsz'⟩ := constructAll_sizes (L := L) g' key d' hv' hrs'
  exact ⟨⟨es, es', hes, hes', by rw [hsz, hsz', hlen]⟩, shift _ _ _, fun m i hi s hs =>
    observe_shift nonce nonce' value value' (List.length_map _) (by rw [List.length_map, hlen]) m hi hs⟩

/-- A GET of one value, and a PUT over another. -/
theorem access_type_hidden_get_put : ∃ e : Masks 1 160 ≃ Masks 1 160, ∀ m, ∀ s < 640,
    observe (symbolic (masked m)) Term.name (fun _ _ _ => 0) 160 (ascii ['a']) [.get] 0 s =
      observe (symbolic (masked (e m))) Term.name (fun _ _ _ => 0) 160 (ascii ['b'])
        [.put (ascii ['c'])] 0 s := by
  have hfits : ∀ rd ∈ [(Request.put (ascii ['c']), plainDraw constants [2])], rd.1.Fits constants :=
    List.forall_mem_singleton.mpr fun v hv => Request.put.inj hv ▸ by decide
  obtain ⟨-, e, he⟩ := access_type_hidden constants Libsodium.plain (ascii ['k']) (ascii ['a'])
    (ascii ['b']) (plainDraw _ [1]) (plainDraw _ [1]) (opScureSetup constants none)
    (opScureSetup constants none) [(.get, plainDraw _ [2])] [(.put (ascii ['c']), plainDraw _ [2])]
    rfl (by decide) (by decide) (List.forall_mem_singleton.mpr fun _ h => by cases h) hfits
    (fun _ _ _ => 0) fun _ _ _ => 0
  exact ⟨e, fun m s hs => he m 0 (by decide) s hs⟩

end Lbl
end Ortoa

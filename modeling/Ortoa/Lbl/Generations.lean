/-
# The generations of one key

A key is created and then accessed any number of times; each entry takes it
from the master key of one generation to a fresh one. Over any libsodium
(`Sodium`), with `mk g` the master key of generation `g`, `storedSlot` is what
should be stored in a slot in each generation, `sealedSlot` the four sealed
labels that the entry from generation `g` on holds for it, and `serverSlot`
what the server really has, opening entry after entry: the two agree
(`serverSlot_eq`). `constructRun` is the same with the builders of
`clientHelper.cpp`, on bytes: its entries hold just these tables
(`constructRun_eq`, `requestEntry_eq`), and their sizes do not depend on what
is requested (`requestEntry_sizes`).

Key definitions: `Request`, `storedValue`, `storedSlot`, `sealedSlot`,
`serverSlot`, `constructRun`.
-/
import Ortoa.Lbl.Entries

namespace Ortoa
namespace Lbl

/-- An access to a key that exists. -/
inductive Request
  | get
  | put (value : Bytes)
  deriving DecidableEq

/-- The value after a request. -/
def Request.apply (size : ℕ) : Request → Bytes → Bytes
  | .get, v => v
  | .put value, _ => padded value size

/-- The padded value in generation `g`. -/
def storedValue (size : ℕ) (value : Bytes) (rs : List Request) (g : ℕ) : Bytes :=
  (rs.take g).foldl (fun v r => r.apply size v) (padded value size)

theorem storedValue_succ {size : ℕ} {value : Bytes} {rs : List Request} {g : ℕ} {r : Request}
    (h : rs[g]? = some r) :
    storedValue size value rs (g + 1) = r.apply size (storedValue size value rs g) := by
  rw [storedValue, List.take_add_one, h, List.foldl_append]
  rfl

section Generations

variable {K L N C : Type} (S : Sodium K L N C) (mk : ℕ → K) (nonce : ℕ → ℕ → BitPair → N)
  (size : ℕ) (value : Bytes) (rs : List Request)

/-- What is stored in slot `s` in generation `g`. -/
def storedSlot (g s : ℕ) : UInt8 × L :=
  createSlot S (mk g) s (pairAt (storedValue size value rs g) s)

/-- The sealed labels of slot `s` in the entry of the request `r`, from
generation `g` to the next. -/
def sealedSlot (r : Request) (g s : ℕ) : BitPair → C :=
  match r with
  | .get => getSlot S (mk g) (mk (g + 1)) s (nonce g s)
  | .put v => putSlot S (mk g) (mk (g + 1)) s (pairAt (padded v size) s) (nonce g s)

/-- What the server has in slot `s` after `g` entries. -/
def serverSlot : ℕ → ℕ → Option (UInt8 × L)
  | 0, s => some (createSlot S (mk 0) s (pairAt (padded value size) s))
  | g + 1, s => (serverSlot g s).bind fun old => (rs[g]?).bind fun r =>
      openSlot S old (nonce g s) (sealedSlot S mk nonce size r g s)

/-- Every table entry of an access is the new label sealed under an old one:
of the same pair for a GET, of the pair written for a PUT. -/
theorem sealedSlot_eq {rs : List Request} {r : Request} {g : ℕ} (s : ℕ) (hr : rs[g]? = some r)
    (x : BitPair) :
    ∃ b, sealedSlot S mk nonce size r g s x =
        S.cryptoSecretboxEasy (createSlot S (mk (g + 1)) s b) (nonce g s x)
          (slotLabel S s (x ^^^ auxBits S s (mk g)) (mk g)) ∧
      (x ^^^ auxBits S s (mk g) = pairAt (storedValue size value rs g) s →
        b = pairAt (storedValue size value rs (g + 1)) s) := by
  rw [storedValue_succ hr]
  cases r with
  | get => exact ⟨_, getSlot_eq S _ _ _ _ _, id⟩
  | put v => exact ⟨_, putSlot_eq S _ _ _ _ _ _, fun _ => rfl⟩

variable {S mk nonce size value rs}

/-- The stored label opens the entry's table to the next stored label. -/
theorem openSlot_sealedSlot (hS : S.Opens) {r : Request} {g : ℕ} (s : ℕ) (hr : rs[g]? = some r) :
    openSlot S (storedSlot S mk size value rs g s) (nonce g s)
      (sealedSlot S mk nonce size r g s) = some (storedSlot S mk size value rs (g + 1) s) := by
  unfold storedSlot
  rw [storedValue_succ hr]
  cases r with
  | get => exact openSlot_getSlot hS _ _ _ _ _
  | put v => exact openSlot_putSlot hS _ _ _ _ _ _

/-- The server has the label of the stored pair, in every generation. -/
theorem serverSlot_eq (hS : S.Opens) (s : ℕ) : ∀ {g : ℕ}, g ≤ rs.length →
    serverSlot S mk nonce size value rs g s = some (storedSlot S mk size value rs g s)
  | 0, _ => rfl
  | g + 1, hg => by
    have hr : rs[g]? = some rs[g] := List.getElem?_eq_getElem (by omega)
    rw [serverSlot, serverSlot_eq hS s (by omega : g ≤ rs.length), Option.bind_some, hr,
      Option.bind_some]
    exact openSlot_sealedSlot hS s hr

end Generations

/-! ### The same, as `clientHelper.cpp` builds it -/

section Construct

variable (cfg : Config) (L : Libsodium)

/-- The builder of a request. -/
def constructAccess (g : Globals) (key : Bytes) (d : Draw cfg) :
    Request → Except Fault (Globals × Entry)
  | .get => constructGetEntry cfg L g key d
  | .put value => constructPutEntry cfg L g key value d

/-- The entries of the requests, in order, on the globals. -/
def constructRun (key : Bytes) : Globals → List (Request × Draw cfg) → Except Fault (List Entry)
  | _, [] => .ok []
  | g, rd :: rs => do
    let (g, entry) ← constructAccess cfg L g key rd.2 rd.1
    let entries ← constructRun key g rs
    pure (entry :: entries)

/-- The entry of a request on a key whose master key is `mk`. -/
def requestEntry (key mk : Bytes) (d : Draw cfg) : Request → Entry
  | .get => getEntry cfg L key mk d
  | .put value => putEntry cfg L key mk value d

/-- A put value fits. -/
def Request.Fits (cfg : Config) (r : Request) : Prop := ∀ v, r = .put v → v.length ≤ cfg.valueSize

variable {cfg L}

theorem constructAccess_eq (g : Globals) (key : Bytes) (d : Draw cfg) {r : Request}
    (h : r.Fits cfg) : constructAccess cfg L g key d r =
      .ok (g.rekey key d.masterKey, requestEntry cfg L key (g.masterKeys key) d r) := by
  cases r with
  | get => exact constructGetEntry_eq cfg L g key d
  | put v => exact constructPutEntry_eq cfg L g key d (h v rfl)

/-- The master key of each generation: the one at hand, then those drawn. -/
def drawnKey (mk : Bytes) (rs : List (Request × Draw cfg)) : ℕ → Bytes
  | 0 => mk
  | g + 1 => (rs[g]?).elim [] fun rd => rd.2.masterKey

/-- The nonces of each entry. -/
def drawnNonce (rs : List (Request × Draw cfg)) (g s : ℕ) (x : BitPair) : Bytes :=
  (rs[g]?).elim [] fun rd => rd.2.nonce s x

theorem drawnKey_cons (mk : Bytes) (rd : Request × Draw cfg) (rs : List (Request × Draw cfg)) :
    ∀ g, drawnKey mk (rd :: rs) (g + 1) = drawnKey rd.2.masterKey rs g
  | 0 => rfl
  | _ + 1 => rfl

/-- Each entry is built against the master key of its generation. -/
theorem constructRun_eq (key : Bytes) : ∀ (g : Globals) (rs : List (Request × Draw cfg)),
    (∀ rd ∈ rs, rd.1.Fits cfg) → ∃ es, constructRun cfg L key g rs = .ok es ∧
      es.length = rs.length ∧ ∀ i rd, rs[i]? = some rd →
        es[i]? = some (requestEntry cfg L key (drawnKey (g.masterKeys key) rs i) rd.2 rd.1)
  | g, [], _ => ⟨[], rfl, rfl, by simp⟩
  | g, rd :: rs, hfits => by
    obtain ⟨es, hes, hlen, hget⟩ := constructRun_eq key (g.rekey key rd.2.masterKey) rs
      fun rd' hrd => hfits rd' (List.mem_cons_of_mem _ hrd)
    have hkey : (g.rekey key rd.2.masterKey).masterKeys key = rd.2.masterKey :=
      Function.update_self _ _ _
    have hentry := constructAccess_eq (L := L) g key rd.2 (hfits rd List.mem_cons_self)
    rw [hkey] at hget
    refine ⟨requestEntry cfg L key (g.masterKeys key) rd.2 rd.1 :: es, ?_,
      by rw [List.length_cons, List.length_cons, hlen], ?_⟩
    · rw [constructRun, bind_of_ok hentry]
      exact bind_of_ok hes _
    · rintro (_ | i) rd' hrd
      · rw [List.getElem?_cons_zero, Option.some.injEq] at hrd
        subst hrd
        rfl
      · rw [drawnKey_cons]
        exact hget i rd' hrd

/-- Its tables hold the sealed labels of that generation. -/
theorem requestEntry_eq (key mk : Bytes) {rs : List (Request × Draw cfg)} {i : ℕ}
    {rd : Request × Draw cfg} (h : rs[i]? = some rd) :
    requestEntry cfg L key (drawnKey mk rs i) rd.2 rd.1 =
      accessEntry cfg.valueSize key (drawnNonce rs i)
        (sealedSlot L.toSodium (drawnKey mk rs) (drawnNonce rs) cfg.valueSize rd.1 i) := by
  have hnonce : drawnNonce rs i = rd.2.nonce := by
    funext s x
    rw [drawnNonce, h, Option.elim_some]
  have hnew : drawnKey mk rs (i + 1) = rd.2.masterKey := by
    rw [drawnKey, h, Option.elim_some]
  obtain ⟨r, d⟩ := rd
  cases r with
  | get =>
    unfold sealedSlot
    simp only [hnonce, hnew]
    rfl
  | put v =>
    unfold sealedSlot
    simp only [hnonce, hnew]
    rfl

/-- And the create entry before them holds what is stored in generation 0. -/
theorem createEntry_labels (L : Libsodium) (key value : Bytes) (d : Draw cfg)
    (rs : List (Request × Draw cfg)) :
    (createEntry cfg L key value d).encryptedLabelsA = Bytes.ofSlots (fun s =>
      slotBytes (storedSlot L.toSodium (drawnKey d.masterKey rs) cfg.valueSize value
        (rs.map Prod.fst) 0 s)) (cfg.valueSize * 4) := rfl

/-- The sizes of the five fields of an entry. -/
def Entry.sizes (e : Entry) : List ℕ :=
  [e.keyName.length, e.encryptedLabelsA.length, e.encryptedLabelsB.length,
    e.encryptedLabelsC.length, e.encryptedLabelsD.length]

/-- The tables of a GET and of a PUT have the same sizes. -/
theorem requestEntry_sizes (key mk : Bytes) (d : Draw cfg) (r : Request) :
    (requestEntry cfg L key mk d r).sizes = key.length :: List.replicate 4 (cfg.valueSize * 4 * boxWidth) := by
  have hget : ∀ x, (boxString cfg.valueSize d.nonce (getBoxes L mk d.masterKey d.nonce) x).length =
      cfg.valueSize * 4 * boxWidth :=
    boxString_length _ d.nonce_length fun _ _ => L.getSlot_length _ _ _ _ _
  have hput : ∀ v x, (boxString cfg.valueSize d.nonce (putBoxes L mk d.masterKey v d.nonce) x).length =
      cfg.valueSize * 4 * boxWidth := fun _ =>
    boxString_length _ d.nonce_length fun _ _ => L.putSlot_length _ _ _ _ _ _
  cases r with
  | get => simp only [Entry.sizes, requestEntry, getEntry, accessEntry, hget, List.replicate]
  | put v => simp only [Entry.sizes, requestEntry, putEntry, accessEntry, hput, List.replicate]

end Construct

end Lbl
end Ortoa

/-
# Cipher block chaining with padding

A block cipher under a fixed key is a permutation of blocks of `n` bytes. CBC
xors each plaintext block with the ciphertext block before it (the first with
the initialisation vector) and permutes; so deciphering undoes it block by
block (`cbcDecrypt_cbcEncrypt`). A message is padded to whole blocks with
`c` bytes of value `c`, at least one (PKCS #7); what is opened is what was
sealed (`cbcOpen_cbcSeal`), and its length is known (`cbcSeal_length`). Two
messages that start with the same blocks have ciphertexts that do, and no
others have (`leadingBlocks_cbcSeal`). What is cut off a ciphertext can be
replaced such that it cannot be opened (`exists_unopenable`).

Key definitions: `Block`, `cbcEncrypt`, `cbcDecrypt`, `agreeing`, `leadingBlocks`, `pad`, `unpad`,
`cbcSeal`, `cbcOpen`.
Key theorems: `agreeing_cbcEncrypt`, `unpad_pad`, `cbcOpen_cbcSeal`, `cbcSeal_length`,
`leadingBlocks_cbcSeal`, `exists_unopenable`.
-/
import Ortoa.Bytes
import Mathlib.Data.Fintype.Basic
import Mathlib.Data.List.OfFn
import Mathlib.Logic.Equiv.Defs

namespace Ortoa

/-! ### Blocks -/

/-- A block of `n` bytes. -/
abbrev Block (n : ℕ) := Fin n → UInt8

variable {n : ℕ}

namespace Block

def xor (a b : Block n) : Block n := fun i => a i ^^^ b i

def toBytes (b : Block n) : Bytes := List.ofFn b

/-- The first `n` bytes, zeros where there are fewer. -/
def ofBytes (s : Bytes) : Block n := fun i => s.getD i 0

@[simp] theorem xor_xor_cancel (a b : Block n) : (a.xor b).xor b = a := by
  funext i
  change a i ^^^ b i ^^^ b i = a i
  rw [UInt8.xor_assoc, UInt8.xor_self, UInt8.xor_zero]

@[simp] theorem toBytes_length (b : Block n) : b.toBytes.length = n := List.length_ofFn

theorem toBytes_ofBytes {s : Bytes} (h : s.length = n) : (ofBytes s : Block n).toBytes = s := by
  subst h
  refine List.ext_getElem (by simp) fun i h1 h2 => ?_
  simp [toBytes, ofBytes, List.getD_eq_getElem?_getD, h2]

@[simp] theorem ofBytes_toBytes_append (b : Block n) (s : Bytes) : ofBytes (b.toBytes ++ s) = b := by
  funext i
  have hi : (i : ℕ) < b.toBytes.length := by simp
  rw [ofBytes, List.getD_eq_getElem?_getD, List.getElem?_append_left hi]
  simp [toBytes]

end Block

/-- The first `k` blocks of a string. -/
def toBlocks (n : ℕ) : ℕ → Bytes → List (Block n)
  | 0, _ => []
  | k + 1, s => Block.ofBytes s :: toBlocks n k (s.drop n)

def ofBlocks (bs : List (Block n)) : Bytes := bs.flatMap Block.toBytes

theorem toBlocks_length : ∀ (k : ℕ) (s : Bytes), (toBlocks n k s).length = k
  | 0, _ => rfl
  | k + 1, s => by rw [toBlocks, List.length_cons, toBlocks_length k]

theorem ofBlocks_length : ∀ bs : List (Block n), (ofBlocks bs).length = bs.length * n
  | [] => by simp [ofBlocks]
  | b :: bs => by
    rw [ofBlocks, List.flatMap_cons, List.length_append, Block.toBytes_length,
      show bs.flatMap Block.toBytes = ofBlocks bs from rfl, ofBlocks_length bs, List.length_cons,
      Nat.succ_mul, Nat.add_comm]

theorem ofBytes_take (s : Bytes) : (Block.ofBytes (s.take n) : Block n) = Block.ofBytes s := by
  funext i
  simp [Block.ofBytes, List.getD_eq_getElem?_getD]

theorem ofBlocks_toBlocks : ∀ {k : ℕ} {s : Bytes}, s.length = k * n → ofBlocks (toBlocks n k s) = s
  | 0, s, h => by
    rw [Nat.zero_mul, List.length_eq_zero_iff] at h
    rw [h]
    rfl
  | k + 1, s, h => by
    rw [Nat.succ_mul] at h
    have htake : (s.take n).length = n := by rw [List.length_take]; omega
    rw [toBlocks, ofBlocks, List.flatMap_cons, ← ofBytes_take, Block.toBytes_ofBytes htake]
    have hrest := ofBlocks_toBlocks (k := k) (s := s.drop n) (by rw [List.length_drop]; omega)
    rw [ofBlocks] at hrest
    rw [hrest, List.take_append_drop]

theorem toBlocks_ofBlocks : ∀ bs : List (Block n), toBlocks n bs.length (ofBlocks bs) = bs
  | [] => rfl
  | b :: bs => by
    have hdrop : (b.toBytes ++ ofBlocks bs).drop n = ofBlocks bs :=
      List.drop_left' b.toBytes_length
    rw [ofBlocks, List.flatMap_cons, List.length_cons, toBlocks, Block.ofBytes_toBytes_append,
      show bs.flatMap Block.toBytes = ofBlocks bs from rfl, hdrop, toBlocks_ofBlocks bs]

theorem ofBlocks_append (bs cs : List (Block n)) : ofBlocks (bs ++ cs) = ofBlocks bs ++ ofBlocks cs :=
  List.flatMap_append

/-! ### Chaining -/

variable (E : Equiv.Perm (Block n))

def cbcEncrypt : Block n → List (Block n) → List (Block n)
  | _, [] => []
  | c, p :: ps => E (p.xor c) :: cbcEncrypt (E (p.xor c)) ps

def cbcDecrypt : Block n → List (Block n) → List (Block n)
  | _, [] => []
  | c, c' :: cs => (E.symm c').xor c :: cbcDecrypt c' cs

theorem cbcEncrypt_length : ∀ (c : Block n) (ps : List (Block n)),
    (cbcEncrypt E c ps).length = ps.length
  | _, [] => rfl
  | c, p :: ps => by rw [cbcEncrypt, List.length_cons, cbcEncrypt_length, List.length_cons]

theorem cbcDecrypt_cbcEncrypt : ∀ (c : Block n) (ps : List (Block n)),
    cbcDecrypt E c (cbcEncrypt E c ps) = ps
  | _, [] => rfl
  | c, p :: ps => by
    rw [cbcEncrypt, cbcDecrypt, Equiv.symm_apply_apply, Block.xor_xor_cancel, cbcDecrypt_cbcEncrypt]

/-- The last block is decrypted with the one before it, or the first one. -/
theorem cbcDecrypt_concat : ∀ (c : Block n) (cs : List (Block n)) (c' : Block n),
    cbcDecrypt E c (cs ++ [c']) = cbcDecrypt E c cs ++ [(E.symm c').xor (cs.getLastD c)]
  | _, [], _ => rfl
  | c, b :: cs, c' => by
    rw [List.cons_append, cbcDecrypt, cbcDecrypt_concat b cs c', cbcDecrypt, List.getLastD_cons,
      List.cons_append]

/-! ### Leading blocks in common -/

/-- The number of leading elements in which two lists agree. -/
def agreeing {α : Type} [DecidableEq α] : List α → List α → ℕ
  | a :: as, b :: bs => if a = b then agreeing as bs + 1 else 0
  | _, _ => 0

section Agreeing

variable {α : Type} [DecidableEq α]

theorem le_agreeing_iff : ∀ {as bs : List α} {k : ℕ}, k ≤ agreeing as bs ↔
    k ≤ as.length ∧ k ≤ bs.length ∧ as.take k = bs.take k
  | _, _, 0 => by simp
  | [], _, k + 1 => by simp [agreeing]
  | a :: as, [], k + 1 => by simp [agreeing]
  | a :: as, b :: bs, k + 1 => by
    unfold agreeing
    by_cases hab : a = b
    · rw [if_pos hab, Nat.succ_le_succ_iff, le_agreeing_iff]
      simp [hab]
    · rw [if_neg hab]
      simp [hab]

theorem agreeing_append : ∀ (s : List α) (as bs : List α),
    agreeing (s ++ as) (s ++ bs) = s.length + agreeing as bs
  | [], _, _ => by simp
  | a :: s, as, bs => by
    rw [List.cons_append, List.cons_append, agreeing, if_pos rfl, agreeing_append s, List.length_cons]
    omega

/-- Two strings of one length that differ have no more in common with something behind them. -/
theorem agreeing_append_of_ne : ∀ {as bs : List α}, as.length = bs.length → as ≠ bs →
    ∀ xs ys : List α, agreeing (as ++ xs) (bs ++ ys) = agreeing as bs
  | [], [], _, hne, _, _ => absurd rfl hne
  | a :: as, b :: bs, hlen, hne, xs, ys => by
    rw [List.cons_append, List.cons_append, agreeing, agreeing]
    by_cases hab : a = b
    · have hne' : as ≠ bs := fun h => hne (by rw [hab, h])
      rw [if_pos hab, if_pos hab, agreeing_append_of_ne (Nat.succ_inj.mp hlen) hne']
    · rw [if_neg hab, if_neg hab]

/-- Replacing the first part of the second string by another of its length. -/
theorem le_agreeing_replace {v w x y : List α} (h : w.length = v.length) {k : ℕ} :
    k ≤ agreeing (v ++ x) (w ++ y) ↔ k ≤ agreeing (v ++ x) (v ++ y) ∧ v.take k = w.take k := by
  have htake : ∀ u z : List α, u.length = v.length →
      ((v ++ x).take k = (u ++ z).take k ↔
        v.take k = u.take k ∧ x.take (k - v.length) = z.take (k - v.length)) := by
    intro u z hu
    have hlen : (v.take k).length = (u.take k).length := by rw [List.length_take, List.length_take, hu]
    rw [List.take_append, List.take_append, hu]
    constructor
    · exact fun heq => List.append_inj heq hlen
    · rintro ⟨h1, h2⟩
      rw [h1, h2]
  rw [le_agreeing_iff, le_agreeing_iff, htake w y h, htake v y rfl, @List.length_append _ w, h,
    @List.length_append _ v y]
  constructor
  · rintro ⟨h1, h2, h3, h4⟩
    exact ⟨⟨h1, h2, rfl, h4⟩, h3⟩
  · rintro ⟨⟨h1, h2, -, h4⟩, h3⟩
    exact ⟨h1, h2, h3, h4⟩

end Agreeing

/-- Under one key and initialisation vector two messages agree in as many
leading blocks as their ciphertexts. -/
theorem agreeing_cbcEncrypt : ∀ (c : Block n) (ps qs : List (Block n)),
    agreeing (cbcEncrypt E c ps) (cbcEncrypt E c qs) = agreeing ps qs
  | _, [], _ => by simp [cbcEncrypt, agreeing]
  | _, p :: ps, [] => by simp [cbcEncrypt, agreeing]
  | c, p :: ps, q :: qs => by
    unfold cbcEncrypt agreeing
    have hxor : p.xor c = q.xor c ↔ p = q := by
      constructor
      · intro h
        rw [← Block.xor_xor_cancel p c, h, Block.xor_xor_cancel]
      · exact fun h => h ▸ rfl
    by_cases hpq : p = q
    · subst hpq
      rw [if_pos rfl, if_pos rfl, agreeing_cbcEncrypt]
    · have hne : E (p.xor c) ≠ E (q.xor c) := fun h => hpq (hxor.mp (E.injective h))
      rw [if_neg hne, if_neg hpq]

theorem toBlocks_take : ∀ {j k : ℕ} (s : Bytes), k ≤ j → (toBlocks n j s).take k = toBlocks n k s
  | _, 0, _, _ => by simp [toBlocks]
  | j + 1, k + 1, s, h => by
    rw [toBlocks, List.take_succ_cons, toBlocks_take _ (Nat.le_of_succ_le_succ h), toBlocks]

theorem toBlocks_of_take : ∀ (k : ℕ) (s : Bytes), toBlocks n k (s.take (k * n)) = toBlocks n k s
  | 0, _ => rfl
  | k + 1, s => by
    have hfirst : (Block.ofBytes (s.take ((k + 1) * n)) : Block n) = Block.ofBytes s := by
      rw [← ofBytes_take, List.take_take, min_eq_left (Nat.le_mul_of_pos_left n k.succ_pos), ofBytes_take]
    have hrest : (s.take ((k + 1) * n)).drop n = (s.drop n).take (k * n) := by
      rw [List.drop_take, Nat.succ_mul, Nat.add_sub_cancel]
    rw [toBlocks, hfirst, hrest, toBlocks_of_take k, toBlocks]

/-- The first blocks are the same if and only if the first bytes are. -/
theorem toBlocks_inj {k : ℕ} {s t : Bytes} (hs : k * n ≤ s.length) (ht : k * n ≤ t.length) :
    toBlocks n k s = toBlocks n k t ↔ s.take (k * n) = t.take (k * n) := by
  have hs' : (s.take (k * n)).length = k * n := by rw [List.length_take, min_eq_left hs]
  have ht' : (t.take (k * n)).length = k * n := by rw [List.length_take, min_eq_left ht]
  constructor
  · intro h
    rw [← toBlocks_of_take k s, ← toBlocks_of_take k t] at h
    rw [← ofBlocks_toBlocks hs', ← ofBlocks_toBlocks ht', h]
  · intro h
    rw [← toBlocks_of_take k s, ← toBlocks_of_take k t, h]

/-- The number of leading whole blocks of `n` bytes in which two strings agree. -/
def leadingBlocks (n : ℕ) (s t : Bytes) : ℕ :=
  agreeing (toBlocks n (s.length / n) s) (toBlocks n (t.length / n) t)

theorem leadingBlocks_eq (hn : 0 < n) (s t : Bytes) : leadingBlocks n s t = agreeing s t / n := by
  have hle : ∀ k, k ≤ leadingBlocks n s t ↔ k ≤ agreeing s t / n := by
    intro k
    rw [leadingBlocks, le_agreeing_iff, toBlocks_length, toBlocks_length, Nat.le_div_iff_mul_le hn,
      Nat.le_div_iff_mul_le hn, Nat.le_div_iff_mul_le hn, le_agreeing_iff]
    refine and_congr_right fun hs => and_congr_right fun ht => ?_
    rw [toBlocks_take _ ((Nat.le_div_iff_mul_le hn).mpr hs),
      toBlocks_take _ ((Nat.le_div_iff_mul_le hn).mpr ht), toBlocks_inj hs ht]
  exact Nat.le_antisymm ((hle _).mp (Nat.le_refl _)) ((hle _).mpr (Nat.le_refl _))

/-! ### Padding -/

/-- The number of padding bytes. -/
def padding (n : ℕ) (s : Bytes) : ℕ := n - s.length % n

def pad (n : ℕ) (s : Bytes) : Bytes := s ++ List.replicate (padding n s) (UInt8.ofNat (padding n s))

/-- The message without its padding, if it has one. -/
def unpad (n : ℕ) (s : Bytes) : Option Bytes :=
  let c := (s.getLast?.getD 0).toNat
  if 1 ≤ c ∧ c ≤ n ∧ c ≤ s.length ∧ s.drop (s.length - c) = List.replicate c (UInt8.ofNat c) then
    some (s.take (s.length - c))
  else none

theorem padding_pos (hn : 0 < n) (s : Bytes) : 0 < padding n s :=
  Nat.sub_pos_of_lt (Nat.mod_lt _ hn)

theorem padding_le (s : Bytes) : padding n s ≤ n := Nat.sub_le _ _

theorem pad_length (hn : 0 < n) (s : Bytes) : (pad n s).length = (s.length / n + 1) * n := by
  have h := Nat.div_add_mod s.length n
  have hm := Nat.mod_lt s.length hn
  rw [pad, List.length_append, List.length_replicate, padding, Nat.succ_mul, Nat.mul_comm]
  omega

/-- The padding can be told from the message, if a byte can hold its length. -/
theorem unpad_pad (hn : 0 < n) (hn' : n < 256) (s : Bytes) : unpad n (pad n s) = some s := by
  have hpos := padding_pos hn s
  have hle := padding_le (n := n) s
  have hlast : ((pad n s).getLast?.getD 0).toNat = padding n s := by
    rw [pad, List.getLast?_append_of_ne_nil _ (by simp; omega), List.getLast?_replicate,
      if_neg (by omega), Option.getD_some, UInt8.toNat_ofNat_of_lt' (by simp [UInt8.size]; omega)]
  have hlen : (pad n s).length - padding n s = s.length := by
    rw [pad, List.length_append, List.length_replicate]
    omega
  rw [unpad]
  simp only [hlast, hlen]
  rw [if_pos ⟨hpos, hle, by rw [pad]; simp, by rw [pad, List.drop_left]⟩, pad, List.take_left]

/-- No padding ends with a zero byte. -/
theorem unpad_of_getLast {s : Bytes} (h : s.getLast? = some 0) : unpad n s = none := by
  unfold unpad
  rw [h]
  exact if_neg fun hpad => absurd hpad.1 (by decide)

/-! ### Sealing and opening -/

def cbcSeal (iv : Block n) (s : Bytes) : Bytes :=
  ofBlocks (cbcEncrypt E iv (toBlocks n ((pad n s).length / n) (pad n s)))

/-- It fails on what is not a positive number of whole blocks. -/
def cbcOpen (iv : Block n) (s : Bytes) : Option Bytes :=
  if s.length = 0 ∨ s.length % n ≠ 0 then none
  else unpad n (ofBlocks (cbcDecrypt E iv (toBlocks n (s.length / n) s)))

theorem cbcSeal_length (hn : 0 < n) (iv : Block n) (s : Bytes) :
    (cbcSeal E iv s).length = (s.length / n + 1) * n := by
  rw [cbcSeal, ofBlocks_length, cbcEncrypt_length, toBlocks_length, pad_length hn,
    Nat.mul_div_cancel _ hn]

theorem cbcOpen_cbcSeal (hn : 0 < n) (hn' : n < 256) (iv : Block n) (s : Bytes) :
    cbcOpen E iv (cbcSeal E iv s) = some s := by
  have hlen := cbcSeal_length E hn iv s
  have hpad := pad_length hn s
  have hblocks : (cbcSeal E iv s).length / n =
      (cbcEncrypt E iv (toBlocks n ((pad n s).length / n) (pad n s))).length := by
    rw [cbcEncrypt_length, toBlocks_length, hlen, hpad]
  rw [cbcOpen, if_neg, hblocks, cbcSeal, toBlocks_ofBlocks, cbcDecrypt_cbcEncrypt,
    ofBlocks_toBlocks (by rw [hpad, Nat.mul_div_cancel _ hn]), unpad_pad hn hn']
  rw [hlen, Nat.mul_mod_left]
  simp only [ne_eq, not_true_eq_false, or_false]
  exact Nat.mul_ne_zero (Nat.succ_ne_zero _) (by omega)

/-- Whole blocks can be continued, by as many blocks as one likes, such that
the whole cannot be opened. -/
theorem exists_unopenable (hn : 0 < n) (iv : Block n) {head : Bytes} {k : ℕ} (hlen : head.length = k * n)
    (j : ℕ) : ∃ tail, tail.length = (j + 1) * n ∧ cbcOpen E iv (head ++ tail) = none := by
  let zero : Block n := fun _ => 0
  let cs := toBlocks n k head ++ List.replicate j zero
  let last := E (cs.getLastD iv)
  have htext : head ++ ofBlocks (List.replicate j zero ++ [last]) = ofBlocks (cs ++ [last]) := by
    have hsplit : cs ++ [last] = toBlocks n k head ++ (List.replicate j zero ++ [last]) :=
      List.append_assoc _ _ _
    rw [hsplit, ofBlocks_append (toBlocks n k head), ofBlocks_toBlocks hlen]
  refine ⟨ofBlocks (List.replicate j zero ++ [last]), ?_, ?_⟩
  · rw [ofBlocks_length, List.length_append, List.length_replicate, List.length_singleton]
  · have hcount : (ofBlocks (cs ++ [last])).length / n = (cs ++ [last]).length := by
      rw [ofBlocks_length, Nat.mul_div_cancel _ hn]
    have hopen : cbcDecrypt E iv (cs ++ [last]) = cbcDecrypt E iv cs ++ [zero] := by
      rw [cbcDecrypt_concat, Equiv.symm_apply_apply]
      congr 2
      funext i
      exact UInt8.xor_self
    have hend : (ofBlocks (cbcDecrypt E iv cs ++ [zero])).getLast? = some 0 := by
      have hzero : zero.toBytes = List.replicate n 0 := by simp [Block.toBytes, zero, List.ofFn_const]
      rw [ofBlocks, List.flatMap_append, List.flatMap_singleton, hzero,
        List.getLast?_append_of_ne_nil _ (by simp; omega), List.getLast?_replicate, if_neg (by omega)]
    rw [htext, cbcOpen]
    split
    · rfl
    · rw [hcount, toBlocks_ofBlocks, hopen]
      exact unpad_of_getLast hend
/-- What two ciphertexts have in common, their padded messages have. -/
theorem leadingBlocks_cbcSeal (hn : 0 < n) (iv : Block n) (s t : Bytes) :
    leadingBlocks n (cbcSeal E iv s) (cbcSeal E iv t) = agreeing (pad n s) (pad n t) / n := by
  have hblocks : ∀ u, toBlocks n ((cbcSeal E iv u).length / n) (cbcSeal E iv u) =
      cbcEncrypt E iv (toBlocks n ((pad n u).length / n) (pad n u)) := by
    intro u
    have hlen : (cbcSeal E iv u).length / n =
        (cbcEncrypt E iv (toBlocks n ((pad n u).length / n) (pad n u))).length := by
      rw [cbcSeal, ofBlocks_length, Nat.mul_div_cancel _ hn]
    rw [hlen, cbcSeal, toBlocks_ofBlocks]
  rw [leadingBlocks, hblocks, hblocks, agreeing_cbcEncrypt, ← leadingBlocks, leadingBlocks_eq hn]

end Ortoa

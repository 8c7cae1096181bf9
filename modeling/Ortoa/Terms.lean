/-
# What an observer can derive from keys and boxes

Messages are terms over a key derivation and a secret box: a subkey is
determined by its id and the key it is derived from and tells nothing of
either, and a box shows its content to whoever has its key. `Learns` is what
an observer of some sent terms gets by taking them apart; `Derives` lets him
also put terms together, and derive subkeys of the keys he has. What he
cannot have is shown with a set that holds all that was sent and that none of
this leaves (`Derives.of_closed`); `Safe` is such a set, given the subkeys
that may come out (`derives_safe`).

Key definitions: `Term`, `Learns`, `Derives`, `Safe`.
Key theorems: `Learns.derives`, `Derives.of_closed`, `derives_safe`.
-/
import Mathlib.Data.Nat.Notation

namespace Ortoa

/-- Messages. -/
inductive Term
  /-- A key drawn afresh. -/
  | name (i : ℕ)
  /-- The subkey `id` of a key. -/
  | subkey (id : ℕ) (k : Term)
  | byte (c : UInt8)
  | nonce (n : ℕ)
  | pair (a b : Term)
  /-- A message sealed with a nonce under a key. -/
  | box (m : Term) (n : ℕ) (k : Term)
  deriving DecidableEq

/-- What comes out of the sent terms by opening boxes whose key is known. -/
inductive Learns (sent : Term → Prop) : Term → Prop
  | sent {t : Term} : sent t → Learns sent t
  | left {a b : Term} : Learns sent (.pair a b) → Learns sent a
  | right {a b : Term} : Learns sent (.pair a b) → Learns sent b
  | opened {m k : Term} {n : ℕ} : Learns sent (.box m n k) → Learns sent k → Learns sent m

/-- The same for an observer who can also compute. -/
inductive Derives (sent : Term → Prop) : Term → Prop
  | sent {t : Term} : sent t → Derives sent t
  | left {a b : Term} : Derives sent (.pair a b) → Derives sent a
  | right {a b : Term} : Derives sent (.pair a b) → Derives sent b
  | opened {m k : Term} {n : ℕ} : Derives sent (.box m n k) → Derives sent k → Derives sent m
  | byte (c : UInt8) : Derives sent (.byte c)
  | nonce (n : ℕ) : Derives sent (.nonce n)
  | pair {a b : Term} : Derives sent a → Derives sent b → Derives sent (.pair a b)
  | sealed {m k : Term} (n : ℕ) : Derives sent m → Derives sent k → Derives sent (.box m n k)
  | subkey {k : Term} (id : ℕ) : Derives sent k → Derives sent (.subkey id k)

theorem Learns.derives {sent : Term → Prop} {t : Term} (h : Learns sent t) : Derives sent t := by
  induction h with
  | sent h => exact .sent h
  | left _ ih => exact .left ih
  | right _ ih => exact .right ih
  | opened _ _ ihm ihk => exact .opened ihm ihk

/-- A set of terms that no computation leaves. -/
structure Closed (S : Term → Prop) : Prop where
  left : ∀ {a b}, S (.pair a b) → S a
  right : ∀ {a b}, S (.pair a b) → S b
  opened : ∀ {m n k}, S (.box m n k) → S k → S m
  byte : ∀ c, S (.byte c)
  nonce : ∀ n, S (.nonce n)
  pair : ∀ {a b}, S a → S b → S (.pair a b)
  sealed : ∀ {m k} (n), S m → S k → S (.box m n k)
  subkey : ∀ {k} (id), S k → S (.subkey id k)

/-- What is derived from a closed set is in it. -/
theorem Derives.of_closed {sent S : Term → Prop} (hS : Closed S) (hsent : ∀ t, sent t → S t) {t : Term}
    (h : Derives sent t) : S t := by
  induction h with
  | sent h => exact hsent _ h
  | left _ ih => exact hS.left ih
  | right _ ih => exact hS.right ih
  | opened _ _ ihm ihk => exact hS.opened ihm ihk
  | byte c => exact hS.byte c
  | nonce n => exact hS.nonce n
  | pair _ _ iha ihb => exact hS.pair iha ihb
  | sealed n _ _ ihm ihk => exact hS.sealed n ihm ihk
  | subkey id _ ih => exact hS.subkey id ih

/-- What may be known when of the subkeys only those of `R` come out: a box
may be known by an observer who cannot open it. -/
def Safe (R : ℕ → Term → Prop) : Term → Prop
  | .name _ => False
  | .subkey id k => R id k ∨ Safe R k
  | .byte _ => True
  | .nonce _ => True
  | .pair a b => Safe R a ∧ Safe R b
  | .box m _ k => Safe R k → Safe R m

theorem safe_closed (R : ℕ → Term → Prop) : Closed (Safe R) where
  left h := h.1
  right h := h.2
  opened h hk := h hk
  byte _ := trivial
  nonce _ := trivial
  pair ha hb := ⟨ha, hb⟩
  sealed _ hm _ := fun _ => hm
  subkey _ h := Or.inr h

/-- If all that was sent is safe, so is all that can be derived. -/
theorem derives_safe {R : ℕ → Term → Prop} {sent : Term → Prop} (hsent : ∀ t, sent t → Safe R t)
    {t : Term} (h : Derives sent t) : Safe R t := h.of_closed (safe_closed R) hsent

theorem not_derives_name {R : ℕ → Term → Prop} {sent : Term → Prop}
    (hsent : ∀ t, sent t → Safe R t) (i : ℕ) : ¬ Derives sent (.name i) := derives_safe hsent

end Ortoa

/-
# Byte strings read and written at checked offsets

A program that walks a string with raw pointers reads and writes at offsets
it computes itself. Here a string is a list of bytes and every access checks
that it lies inside: `read` and `write` fail with the caller's own error
otherwise. A string of `n` slots of `w` bytes each is known by its slots
(`ext_slots`); `Filled` says which slots a computation replaced, and it
composes, so a string filled in by several loops, in any order and even
twice over, is determined by the set of slots they reached.

`forRange` is the counting loop `for (i = lo; i < hi; i++)` and `runTasks` a
batch of tasks on a shared state, each with its rule. A loop whose steps may
fail stops at the first one that does (`Ends`).

Key definitions: `Bytes.read`, `Bytes.write`, `Bytes.slot`, `Bytes.ofSlots`,
`Bytes.Filled`, `forRange`, `Ends`, `runTasks`.
Key theorems: `Bytes.ext_slots`, `Bytes.slot_ofSlots`, `Bytes.write_slot`,
`Bytes.Filled.trans`, `forRange_ok`, `forRange_eq`, `foldlM_ok`, `mapM_eq_ok_iff`, `foldlM_ends`,
`runTasks_filled`.
-/
import Mathlib.Data.List.Basic
import Mathlib.Data.List.Forall2
import Mathlib.Order.Basic
import Mathlib.Tactic.Ring
import Mathlib.Tactic.Linarith

namespace Ortoa

/-- A byte string. -/
abbrev Bytes := List UInt8

/-! ### Loops that may fail -/

section Loops

variable {α σ ε : Type}

/-- `for (i = lo; i < hi; i++)` over a state, in the error monad. -/
def forRange (lo hi : ℕ) (init : σ) (body : ℕ → σ → Except ε σ) : Except ε σ :=
  (List.range' lo (hi - lo)).foldlM (fun st i => body i st) init

/-- A step that succeeds hands its result on. -/
theorem bind_of_ok {τ : Type} {x : Except ε σ} {a : σ} (h : x = .ok a) (f : σ → Except ε τ) :
    (x >>= f) = f a := by
  rw [h]
  rfl

/-- The invariant rule of a fold: `I` speaks of the elements done so far. -/
theorem foldlM_ok {body : σ → α → Except ε σ} (I : List α → σ → Prop) :
    ∀ (l done : List α) (st : σ), I done st →
      (∀ done x st, x ∈ l → I done st → ∃ st', body st x = .ok st' ∧ I (done ++ [x]) st') →
      ∃ st', l.foldlM body st = .ok st' ∧ I (done ++ l) st'
  | [], done, st, h, _ => ⟨st, rfl, by simpa using h⟩
  | x :: l, done, st, h, hs => by
    obtain ⟨st1, h1, h2⟩ := hs done x st List.mem_cons_self h
    obtain ⟨st2, h3, h4⟩ := foldlM_ok I l (done ++ [x]) st1 h2
      fun d y s hy hI => hs d y s (List.mem_cons_of_mem _ hy) hI
    refine ⟨st2, ?_, by simpa using h4⟩
    rw [List.foldlM_cons, h1]
    exact h3

/-- The invariant rule of the counting loop. -/
theorem forRange_ok {lo hi : ℕ} {init : σ} {body : ℕ → σ → Except ε σ} (I : ℕ → σ → Prop)
    (hle : lo ≤ hi) (h0 : I lo init)
    (hs : ∀ i st, lo ≤ i → i < hi → I i st → ∃ st', body i st = .ok st' ∧ I (i + 1) st') :
    ∃ st', forRange lo hi init body = .ok st' ∧ I hi st' := by
  obtain ⟨k, rfl⟩ := Nat.exists_eq_add_of_le hle
  unfold forRange
  rw [Nat.add_sub_cancel_left]
  clear hle
  induction k generalizing lo init with
  | zero => exact ⟨init, rfl, h0⟩
  | succ k ih =>
    obtain ⟨st1, h1, h2⟩ := hs lo init le_rfl (by omega) h0
    obtain ⟨st2, h3, h4⟩ := @ih (lo + 1) st1 h2 fun i st ha hb hI => hs i st (by omega) (by omega) hI
    refine ⟨st2, ?_, by rwa [show lo + (k + 1) = lo + 1 + k by omega]⟩
    rw [List.range'_succ, List.foldlM_cons, h1]
    exact h3

/-- A counting loop whose states are known. -/
theorem forRange_eq {lo hi : ℕ} {body : ℕ → σ → Except ε σ} (f : ℕ → σ) (hle : lo ≤ hi)
    (hs : ∀ i, lo ≤ i → i < hi → body i (f i) = .ok (f (i + 1))) :
    forRange lo hi (f lo) body = .ok (f hi) := by
  obtain ⟨st, hrun, rfl⟩ := forRange_ok (fun i st => st = f i) hle rfl fun i st hlo hhi hst =>
    ⟨f (i + 1), hst ▸ hs i hlo hhi, rfl⟩
  exact hrun

/-- The invariant rule of the counting loop with what follows it. -/
theorem forRange_bind {τ : Type} {lo hi : ℕ} {init : σ} {body : ℕ → σ → Except ε σ}
    {k : σ → Except ε τ} {Q : τ → Prop} (I : ℕ → σ → Prop) (hle : lo ≤ hi) (h0 : I lo init)
    (hs : ∀ i st, lo ≤ i → i < hi → I i st → ∃ st', body i st = .ok st' ∧ I (i + 1) st')
    (hk : ∀ st, I hi st → ∃ t, k st = .ok t ∧ Q t) :
    ∃ t, (forRange lo hi init body >>= k) = .ok t ∧ Q t := by
  obtain ⟨st', h1, h2⟩ := forRange_ok I hle h0 hs
  rw [h1]
  exact hk st' h2

/-- A loop whose bounds have crossed does nothing. -/
theorem forRange_of_le {lo hi : ℕ} (h : hi ≤ lo) (init : σ) (body : ℕ → σ → Except ε σ) :
    forRange lo hi init body = .ok init := by
  simp [forRange, Nat.sub_eq_zero_of_le h, pure, Except.pure]

/-- A computation stops with `fault`, or without one in a state of `I`. -/
def Ends (r : Except ε σ) (fault : Option ε) (I : σ → Prop) : Prop :=
  match fault with
  | some e => r = .error e
  | none => ∃ st, r = .ok st ∧ I st

theorem Ends.error_iff {r : Except ε σ} {fault : Option ε} {I : σ → Prop} (h : Ends r fault I) {e : ε} :
    r = .error e ↔ fault = some e := by
  cases fault with
  | none =>
    obtain ⟨st, rfl, -⟩ := h
    simp
  | some e' =>
    have hr : r = .error e' := h
    rw [hr]
    simp

/-- What follows a computation, if it only runs when that did not stop. -/
theorem Ends.bind {τ : Type} {r : Except ε σ} {fault : Option ε} {I : σ → Prop} (h : Ends r fault I)
    {k : σ → Except ε τ} {Q : τ → Prop} (hk : ∀ st, I st → ∃ t, k st = .ok t ∧ Q t) :
    Ends (r >>= k) fault Q := by
  cases fault with
  | some e =>
    have hr : r = .error e := h
    rw [hr]
    rfl
  | none =>
    obtain ⟨st, rfl, hst⟩ := h
    exact hk st hst

/-- A fold stops at the first element that has a fault. -/
theorem foldlM_ends {body : σ → α → Except ε σ} {fault : α → Option ε} (I : List α → σ → Prop) :
    ∀ (l done : List α) (st : σ), I done st →
      (∀ done x st, x ∈ l → I done st → Ends (body st x) (fault x) (I (done ++ [x]))) →
      Ends (l.foldlM body st) (l.findSome? fault) (I (done ++ l))
  | [], done, st, h, _ => ⟨st, rfl, by simpa using h⟩
  | x :: l, done, st, h, hs => by
    have hx := hs done x st List.mem_cons_self h
    rw [List.foldlM_cons, List.findSome?_cons]
    cases hfault : fault x with
    | some e =>
      rw [hfault] at hx
      have hbody : body st x = .error e := hx
      rw [hbody]
      rfl
    | none =>
      rw [hfault] at hx
      obtain ⟨st1, h1, h2⟩ := hx
      have hrest := foldlM_ends I l (done ++ [x]) st1 h2
        fun d y s hy hI => hs d y s (List.mem_cons_of_mem _ hy) hI
      rw [bind_of_ok h1]
      rwa [List.append_assoc] at hrest

/-- The same for the counting loop. -/
theorem forRange_ends {lo hi : ℕ} {init : σ} {body : ℕ → σ → Except ε σ} {fault : ℕ → Option ε}
    (I : ℕ → σ → Prop) (hle : lo ≤ hi) (h0 : I lo init)
    (hs : ∀ i st, lo ≤ i → i < hi → I i st → Ends (body i st) (fault i) (I (i + 1))) :
    Ends (forRange lo hi init body) ((List.range' lo (hi - lo)).findSome? fault) (I hi) := by
  obtain ⟨k, rfl⟩ := Nat.exists_eq_add_of_le hle
  unfold forRange
  rw [Nat.add_sub_cancel_left]
  clear hle
  induction k generalizing lo init with
  | zero => exact ⟨init, rfl, h0⟩
  | succ k ih =>
    have hlo := hs lo init le_rfl (by omega) h0
    rw [List.range'_succ, List.foldlM_cons, List.findSome?_cons]
    cases hfault : fault lo with
    | some e =>
      rw [hfault] at hlo
      have hbody : body lo init = .error e := hlo
      rw [hbody]
      rfl
    | none =>
      rw [hfault] at hlo
      obtain ⟨st1, h1, h2⟩ := hlo
      have hrest := @ih (lo + 1) st1 h2 fun i st ha hb hI => hs i st (by omega) (by omega) hI
      rw [bind_of_ok h1]
      rwa [show lo + (k + 1) = lo + 1 + k by omega]

/-- A loop that makes a list makes its elements one by one. -/
theorem mapM_eq_ok_iff {β : Type} {f : α → Except ε β} : ∀ {l : List α} {l' : List β},
    l.mapM f = .ok l' ↔ List.Forall₂ (fun a b => f a = .ok b) l l'
  | [], l' => by
    rw [List.mapM_nil, List.forall₂_nil_left_iff]
    exact ⟨fun h => (Except.ok.inj h).symm, fun h => h ▸ rfl⟩
  | a :: l, l' => by
    rw [List.mapM_cons, List.forall₂_cons_left_iff]
    cases ha : f a with
    | error e =>
      refine iff_of_false (fun h => (by cases h)) ?_
      rintro ⟨b, t, hb, -⟩
      cases hb
    | ok b =>
      cases hl : l.mapM f with
      | error e =>
        refine iff_of_false (fun h => (by cases h)) ?_
        rintro ⟨b', t, -, ht, -⟩
        rw [mapM_eq_ok_iff.mpr ht] at hl
        cases hl
      | ok t =>
        constructor
        · intro h
          exact ⟨b, t, rfl, mapM_eq_ok_iff.mp hl, (Except.ok.inj h).symm⟩
        · rintro ⟨b', t', hb, ht, rfl⟩
          rw [mapM_eq_ok_iff.mpr ht] at hl
          cases hb
          cases hl
          rfl

theorem forall₂_mem_right {β : Type} {R : α → β → Prop} {l : List α} {l' : List β} (h : List.Forall₂ R l l')
    {b : β} (hb : b ∈ l') : ∃ a, R a b := by
  induction h with
  | nil => cases hb
  | cons hab _ ih =>
    rcases List.mem_cons.mp hb with rfl | hb
    · exact ⟨_, hab⟩
    · exact ih hb
/-- A search in blocks of `w` is a search of the whole. -/
theorem findSome?_blocks {β : Type} (f : ℕ → Option β) (w lo base : ℕ) : ∀ n : ℕ,
    ((List.range' lo n).findSome? fun i => (List.range' (base + w * (i - lo)) w).findSome? f) =
      (List.range' base (w * n)).findSome? f
  | 0 => rfl
  | n + 1 => by
    have hsplit : List.range' base (w * (n + 1)) =
        List.range' base (w * n) ++ List.range' (base + w * n) w := by
      rw [Nat.mul_succ, ← List.range'_append_1]
    rw [List.range'_1_concat, List.findSome?_append, findSome?_blocks f w lo base n, hsplit,
      List.findSome?_append, List.findSome?_singleton, Nat.add_sub_cancel_left]

/-- A search of an interval finds what its first hit gives. -/
theorem findSome?_range'_eq_some {β : Type} {f : ℕ → Option β} {b : β} : ∀ {n lo : ℕ},
    (List.range' lo n).findSome? f = some b ↔
      ∃ k, lo ≤ k ∧ k < lo + n ∧ f k = some b ∧ ∀ j, lo ≤ j → j < k → f j = none
  | 0, lo => by
    simp only [List.range'_zero, List.findSome?_nil, reduceCtorEq, false_iff]
    rintro ⟨k, h1, h2, -⟩
    omega
  | n + 1, lo => by
    rw [List.range'_succ, List.findSome?_cons]
    cases hlo : f lo with
    | some c =>
      show some c = some b ↔ _
      constructor
      · intro h
        exact ⟨lo, le_rfl, by omega, hlo.trans h, fun j h1 h2 => by omega⟩
      · rintro ⟨k, h1, -, hk, hfirst⟩
        rcases Nat.eq_or_lt_of_le h1 with rfl | hlt
        · exact hlo.symm.trans hk
        · rw [hfirst lo le_rfl hlt] at hlo
          cases hlo
    | none =>
      show (List.range' (lo + 1) n).findSome? f = some b ↔ _
      rw [findSome?_range'_eq_some]
      constructor
      · rintro ⟨k, h1, h2, hk, hfirst⟩
        refine ⟨k, by omega, by omega, hk, fun j hj hjk => ?_⟩
        rcases Nat.eq_or_lt_of_le hj with rfl | hlt
        · exact hlo
        · exact hfirst j hlt hjk
      · rintro ⟨k, h1, h2, hk, hfirst⟩
        have hne : lo ≠ k := by
          rintro rfl
          rw [hlo] at hk
          cases hk
        exact ⟨k, by omega, by omega, hk, fun j hj hjk => hfirst j (by omega) hjk⟩

end Loops

namespace Bytes

section Access

variable {ε : Type} (oob : ε)

/-- The `n` bytes at offset `off`. -/
def read (s : Bytes) (off n : ℕ) : Except ε Bytes :=
  if off + n ≤ s.length then .ok ((s.drop off).take n) else .error oob

/-- `bs` written over the bytes at offset `off`. -/
def write (s : Bytes) (off : ℕ) (bs : Bytes) : Except ε Bytes :=
  if off + bs.length ≤ s.length then .ok (s.take off ++ bs ++ s.drop (off + bs.length))
  else .error oob

theorem read_ok {s : Bytes} {off n : ℕ} (h : off + n ≤ s.length) :
    read oob s off n = .ok ((s.drop off).take n) := if_pos h

theorem write_ok {s : Bytes} {off : ℕ} {bs : Bytes} (h : off + bs.length ≤ s.length) :
    write oob s off bs = .ok (s.take off ++ bs ++ s.drop (off + bs.length)) := if_pos h

theorem write_length {s s' : Bytes} {off : ℕ} {bs : Bytes} (h : write oob s off bs = .ok s') :
    s'.length = s.length := by
  unfold write at h
  split at h
  · simp only [Except.ok.injEq] at h
    subst h
    simp only [List.length_append, List.length_take, List.length_drop]
    omega
  · cases h

/-- Two writes side by side are one. -/
theorem write_write {s : Bytes} {off : ℕ} (a b : Bytes)
    (h : off + a.length + b.length ≤ s.length) :
    (write oob s off a).bind (fun s' => write oob s' (off + a.length) b) =
      write oob s off (a ++ b) := by
  have hpre : (s.take off ++ a).length = off + a.length := by
    simp only [List.length_append, List.length_take]; omega
  rw [write_ok oob (by omega), write_ok oob (by simp only [List.length_append]; omega)]
  show write oob _ _ b = _
  rw [write_ok oob (by simp only [List.length_append, List.length_take, List.length_drop]; omega)]
  have htake : (s.take off ++ a ++ s.drop (off + a.length)).take (off + a.length) = s.take off ++ a :=
    List.take_left' hpre
  have hdrop : (s.take off ++ a ++ s.drop (off + a.length)).drop (off + a.length + b.length) =
      s.drop (off + (a ++ b).length) := by
    rw [← List.drop_drop, List.drop_left' hpre, List.drop_drop, List.length_append, Nat.add_assoc]
  rw [htake, hdrop, List.append_assoc (s.take off)]

end Access

/-! ### Strings of equal slots -/

/-- Slot `k` of a string of slots of `w` bytes. -/
def slot (w : ℕ) (s : Bytes) (k : ℕ) : Bytes := (s.drop (k * w)).take w

/-- The string of the slots `f 0, …, f (n - 1)`. -/
def ofSlots (f : ℕ → Bytes) (n : ℕ) : Bytes := (List.range n).flatMap f

theorem ofSlots_succ (f : ℕ → Bytes) (n : ℕ) : ofSlots f (n + 1) = ofSlots f n ++ f n := by
  simp [ofSlots, List.range_succ]

theorem ofSlots_length {w : ℕ} {f : ℕ → Bytes} : ∀ {n : ℕ}, (∀ k < n, (f k).length = w) →
    (ofSlots f n).length = n * w
  | 0, _ => by simp [ofSlots]
  | n + 1, h => by
    rw [ofSlots_succ, List.length_append, ofSlots_length fun k hk => h k (by omega), h n (by omega)]
    ring

theorem ofSlots_congr {f g : ℕ → Bytes} {n : ℕ} (h : ∀ k < n, f k = g k) :
    ofSlots f n = ofSlots g n :=
  List.flatMap_congr fun k hk => h k (List.mem_range.mp hk)

theorem slot_end_le {k n w : ℕ} (h : k < n) : k * w + w ≤ n * w := by
  have := Nat.mul_le_mul_right w (Nat.succ_le_of_lt h)
  rw [Nat.succ_mul] at this
  exact this

theorem slot_length {w n k : ℕ} {s : Bytes} (hs : s.length = n * w) (hk : k < n) :
    (slot w s k).length = w := by
  have := slot_end_le (w := w) hk
  simp only [slot, List.length_take, List.length_drop]
  omega

theorem slot_append_left {w k n : ℕ} {s t : Bytes} (hs : s.length = n * w) (hk : k < n) :
    slot w (s ++ t) k = slot w s k := by
  have := slot_end_le (w := w) hk
  unfold slot
  rw [List.drop_append_of_le_length (by omega), List.take_append_of_le_length]
  simp only [List.length_drop]
  omega

theorem slot_append_right {w n : ℕ} {s t : Bytes} (hs : s.length = n * w) (ht : t.length = w) :
    slot w (s ++ t) n = t := by
  unfold slot
  rw [List.drop_left' hs, List.take_of_length_le ht.le]

theorem slot_ofSlots {w : ℕ} {f : ℕ → Bytes} : ∀ {n k : ℕ}, (∀ k < n, (f k).length = w) → k < n →
    slot w (ofSlots f n) k = f k
  | 0, _, _, hk => by omega
  | n + 1, k, h, hk => by
    have hn : ∀ k < n, (f k).length = w := fun j hj => h j (by omega)
    rw [ofSlots_succ]
    rcases Nat.lt_succ_iff_lt_or_eq.mp hk with hlt | rfl
    · rw [slot_append_left (ofSlots_length hn) hlt, slot_ofSlots hn hlt]
    · exact slot_append_right (ofSlots_length hn) (h k (by omega))

/-- A string of whole slots is made of them. -/
theorem eq_ofSlots {w : ℕ} : ∀ {n : ℕ} {s : Bytes}, s.length = n * w → s = ofSlots (slot w s) n
  | 0, s, h => by
    rw [Nat.zero_mul] at h
    simp [ofSlots, List.length_eq_zero_iff.mp h]
  | n + 1, s, h => by
    rw [Nat.succ_mul] at h
    have hl : (s.take (n * w)).length = n * w := by simp only [List.length_take]; omega
    have hs : s.take (n * w) ++ s.drop (n * w) = s := List.take_append_drop _ _
    have ih := eq_ofSlots hl
    rw [ofSlots_succ]
    have hcongr : ofSlots (slot w s) n = ofSlots (slot w (s.take (n * w))) n :=
      ofSlots_congr fun k hk => by
        conv_lhs => rw [← hs]
        exact slot_append_left hl hk
    have hlast : slot w s n = s.drop (n * w) := by
      unfold slot
      rw [List.take_of_length_le]
      simp only [List.length_drop]
      omega
    rw [hcongr, ← ih, hlast, hs]

/-- Two strings of `n` slots with the same slots are equal. -/
theorem ext_slots {w n : ℕ} {s t : Bytes} (hs : s.length = n * w) (ht : t.length = n * w)
    (h : ∀ k < n, slot w s k = slot w t k) : s = t := by
  rw [eq_ofSlots hs, eq_ofSlots ht]
  exact ofSlots_congr h

/-- The first bytes of a slot. -/
theorem read_slot_left {ε : Type} (oob : ε) {w n k : ℕ} {s a b : Bytes} (hs : s.length = n * w)
    (hk : k < n) (h : slot w s k = a ++ b) : read oob s (k * w) a.length = .ok a := by
  have hend := slot_end_le (w := w) hk
  have hw := slot_length hs hk
  rw [h, List.length_append] at hw
  rw [read_ok oob (by omega)]
  have hmin : a.length = min a.length w := by omega
  rw [hmin, ← List.take_take]
  change Except.ok ((slot w s k).take a.length) = _
  rw [h, List.take_left' rfl]

/-- The last bytes of a slot. -/
theorem read_slot_right {ε : Type} (oob : ε) {w n k : ℕ} {s a b : Bytes} (hs : s.length = n * w)
    (hk : k < n) (h : slot w s k = a ++ b) :
    read oob s (k * w + a.length) b.length = .ok b := by
  have hend := slot_end_le (w := w) hk
  have hw := slot_length hs hk
  rw [h, List.length_append] at hw
  rw [read_ok oob (by omega)]
  have hdrop : (slot w s k).drop a.length = (s.drop (k * w + a.length)).take b.length := by
    unfold slot
    rw [List.drop_take, List.drop_drop, show w - a.length = b.length by omega]
  rw [← hdrop, h, List.drop_left' rfl]

/-! ### Filling a string slot by slot -/

/-- `new` is `old` with `f k` in each slot `k` of `P`. -/
structure Filled (w n : ℕ) (f : ℕ → Bytes) (P : ℕ → Prop) (old new : Bytes) : Prop where
  length : new.length = old.length
  hit : ∀ k < n, P k → slot w new k = f k
  miss : ∀ k < n, ¬ P k → slot w new k = slot w old k

namespace Filled

variable {w n : ℕ} {f : ℕ → Bytes} {P Q : ℕ → Prop} {a b c : Bytes}

theorem refl (h : ∀ k < n, ¬ P k) (a : Bytes) : Filled w n f P a a :=
  ⟨rfl, fun k hk hp => absurd hp (h k hk), fun _ _ _ => rfl⟩

theorem congr (h : Filled w n f P a b) (hPQ : ∀ k < n, P k ↔ Q k) : Filled w n f Q a b :=
  ⟨h.length, fun k hk hq => h.hit k hk ((hPQ k hk).mpr hq),
    fun k hk hq => h.miss k hk fun hp => hq ((hPQ k hk).mp hp)⟩

/-- Filling twice fills the union: the second may repeat slots of the first. -/
theorem trans (h1 : Filled w n f P a b) (h2 : Filled w n f Q b c) :
    Filled w n f (fun k => P k ∨ Q k) a c where
  length := h2.length.trans h1.length
  hit k hk hpq := by
    by_cases hq : Q k
    · exact h2.hit k hk hq
    · rw [h2.miss k hk hq]
      exact h1.hit k hk (hpq.resolve_right hq)
  miss k hk hpq := by
    rw [h2.miss k hk fun hq => hpq (Or.inr hq)]
    exact h1.miss k hk fun hp => hpq (Or.inl hp)

/-- A string filled in every slot is the string of the slots. -/
theorem eq_all (h : Filled w n f P a b) (ha : a.length = n * w) (hf : ∀ k < n, (f k).length = w)
    (hP : ∀ k < n, P k) : b = ofSlots f n :=
  ext_slots (h.length.trans ha) (ofSlots_length hf) fun k hk => by
    rw [h.hit k hk (hP k hk), slot_ofSlots hf hk]

/-- What is filled depends on the set of slots only. -/
theorem unique (h1 : Filled w n f P a b) (h2 : Filled w n f P a c) (ha : a.length = n * w) :
    b = c := by
  refine ext_slots (h1.length.trans ha) (h2.length.trans ha) fun k hk => ?_
  by_cases hp : P k
  · rw [h1.hit k hk hp, h2.hit k hk hp]
  · rw [h1.miss k hk hp, h2.miss k hk hp]

end Filled

/-- Writing `w` bytes at slot `k` fills that slot. -/
theorem write_slot {ε : Type} (oob : ε) {w n k : ℕ} {f : ℕ → Bytes} {s : Bytes}
    (hs : s.length = n * w) (hk : k < n) (hf : (f k).length = w) :
    ∃ s', write oob s (k * w) (f k) = .ok s' ∧ Filled w n f (· = k) s s' := by
  have hend := slot_end_le (w := w) hk
  have hle : k * w + (f k).length ≤ s.length := by omega
  have htake : (s.take (k * w)).length = k * w := by simp only [List.length_take]; omega
  refine ⟨_, write_ok oob hle, ⟨write_length oob (write_ok oob hle), ?_, ?_⟩⟩
  · rintro j hj rfl
    unfold slot
    rw [List.append_assoc, List.drop_left' htake, List.take_left' hf]
  · intro j hj hne
    rcases Nat.lt_or_gt_of_ne hne with hlt | hgt
    · have h1 := slot_end_le (w := w) hlt
      rw [List.append_assoc, slot_append_left htake hlt]
      conv_rhs => rw [← List.take_append_drop (k * w) s]
      exact (slot_append_left htake hlt).symm
    · have h1 := slot_end_le (w := w) hgt
      have hpre : (s.take (k * w) ++ f k).length = k * w + w := by
        rw [List.length_append, htake, hf]
      unfold slot
      rw [List.drop_append, hpre, List.drop_of_length_le (by omega), List.nil_append, List.drop_drop, hf]
      congr 2
      omega

/-- The same in two writes, side by side. -/
theorem write_slot_two {ε : Type} (oob : ε) {w n k : ℕ} {f : ℕ → Bytes} {s : Bytes} (a b : Bytes)
    (hs : s.length = n * w) (hk : k < n) (hf : f k = a ++ b) (hw : a.length + b.length = w) :
    ∃ s1 s2, write oob s (k * w) a = .ok s1 ∧ write oob s1 (k * w + a.length) b = .ok s2 ∧
      Filled w n f (· = k) s s2 := by
  have hend := slot_end_le (w := w) hk
  have hfl : (f k).length = w := by rw [hf, List.length_append, hw]
  obtain ⟨s2, h2, hF⟩ := write_slot oob hs hk hfl
  have h1 := write_ok oob (show k * w + a.length ≤ s.length by omega)
  refine ⟨_, s2, h1, ?_, hF⟩
  have h12 := write_write oob a b (show k * w + a.length + b.length ≤ s.length by omega)
  rw [h1, ← hf, h2] at h12
  exact h12

end Bytes

/-! ### Tasks that fill shared strings -/

/-- Tasks run one after the other, in the order given, on a shared state. -/
def runTasks {σ ε : Type} (order : List ℕ) (init : σ) (task : ℕ → σ → Except ε σ) : Except ε σ :=
  order.foldlM (fun st part => task part st) init

/-- If task `p` fills the slots `reach p` of every string of the state, all
the tasks, in any order, fill the slots that some task reaches. -/
theorem runTasks_filled {σ ε ι : Type} (str : ι → σ → Bytes) {w n threads : ℕ}
    {f : ι → ℕ → Bytes} {reach : ℕ → ℕ → Prop} {order : List ℕ} {init : σ}
    {task : ℕ → σ → Except ε σ} (hperm : order.Perm (List.range threads))
    (hlen : ∀ x, (str x init).length = n * w)
    (htask : ∀ p < threads, ∀ st, (∀ x, (str x st).length = n * w) →
      ∃ st', task p st = .ok st' ∧
        ∀ x, Bytes.Filled w n (f x) (reach p) (str x st) (str x st')) :
    ∃ st', runTasks order init task = .ok st' ∧
      ∀ x, Bytes.Filled w n (f x) (fun k => ∃ p < threads, reach p k) (str x init) (str x st') := by
  have hstep : ∀ done p st, p ∈ order →
      (∀ x, Bytes.Filled w n (f x) (fun k => ∃ p ∈ done, reach p k) (str x init) (str x st)) →
      ∃ st', task p st = .ok st' ∧ ∀ x, Bytes.Filled w n (f x) (fun k => ∃ q ∈ done ++ [p], reach q k)
        (str x init) (str x st') := by
    intro done p st hp hI
    have hp' : p < threads := List.mem_range.mp (hperm.mem_iff.mp hp)
    obtain ⟨st1, h1, h2⟩ := htask p hp' st fun x => (hI x).length.trans (hlen x)
    refine ⟨st1, h1, fun x => ((hI x).trans (h2 x)).congr fun k _ => ?_⟩
    simp only [List.mem_append, List.mem_singleton, or_and_right, exists_or, exists_eq_left]
  obtain ⟨st', h1, h2⟩ := foldlM_ok
    (fun done st => ∀ x, Bytes.Filled w n (f x) (fun k => ∃ p ∈ done, reach p k)
      (str x init) (str x st)) order [] init
    (fun x => Bytes.Filled.refl (by simp) _) hstep
  refine ⟨st', h1, fun x => (h2 x).congr fun k _ => ?_⟩
  simp only [List.nil_append, hperm.mem_iff, List.mem_range]

end Ortoa

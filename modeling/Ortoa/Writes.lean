/-
# Writes that agree on the strings they share

A `Write` puts bytes at a position of one of several strings. If what each
write puts is what some strings `T` have there, a byte that one of them has
covered is right from then on, whichever writes follow (`Write.run_agreeing`). So
tasks on a work queue whose statements are writes that agree with `T` and
together cover it leave `T`, in any interleaving (`Write.replay_agreeing`).

Key definitions: `Write`, `Write.run`, `Write.Agrees`, `Write.Covers`.
Key theorems: `Write.run_ok`, `Write.safe`, `Write.run_agreeing`, `Write.replay_agreeing`,
`Write.filled_of_covers`.
-/
import Ortoa.Bytes
import Ortoa.WorkQueue

namespace Ortoa

/-- `bytes` at position `pos` of string `string`. -/
structure Write (ι : Type) where
  string : ι
  pos : ℕ
  bytes : Bytes

namespace Write

variable {ι ε : Type} [DecidableEq ι] (fault : ε)

/-- The write, on the strings. -/
def run (w : Write ι) (strings : ι → Bytes) : Except ε (ι → Bytes) := do
  let s ← (strings w.string).write fault w.pos w.bytes
  pure (Function.update strings w.string s)

/-- The write puts something at byte `i` of string `x`. -/
def Covers (w : Write ι) (x : ι) (i : ℕ) : Prop :=
  w.string = x ∧ w.pos ≤ i ∧ i < w.pos + w.bytes.length

/-- The write puts into its string what `T` has there. -/
structure Agrees (T : ι → Bytes) (w : Write ι) : Prop where
  fits : w.pos + w.bytes.length ≤ (T w.string).length
  same : ∀ i < w.bytes.length, (T w.string)[w.pos + i]? = w.bytes[i]?

/-- The strings have the lengths that `T` has. -/
def SameLengths (T strings : ι → Bytes) : Prop := ∀ x, (strings x).length = (T x).length

variable {T : ι → Bytes} {w : Write ι} {strings strings' : ι → Bytes}

omit [DecidableEq ι] in
/-- Strings of the same lengths with the same bytes are the same. -/
theorem eq_of_bytes (hlen : SameLengths T strings)
    (h : ∀ x i, i < (T x).length → (strings x)[i]? = (T x)[i]?) : strings = T := by
  funext x
  refine List.ext_getElem? fun i => ?_
  rcases Nat.lt_or_ge i (T x).length with hi | hi
  · exact h x i hi
  · rw [List.getElem?_eq_none hi, List.getElem?_eq_none (by rw [hlen x]; exact hi)]

/-- A write that agrees makes the bytes that it covers right, and keeps the others. -/
theorem run_ok (hw : w.Agrees T) (hlen : SameLengths T strings) : ∃ strings', w.run fault strings = .ok strings' ∧
    SameLengths T strings' ∧ (∀ x i, w.Covers x i → (strings' x)[i]? = (T x)[i]?) ∧
    ∀ x i, ¬ w.Covers x i → (strings' x)[i]? = (strings x)[i]? := by
  have hfits : w.pos + w.bytes.length ≤ (strings w.string).length := by
    rw [hlen]
    exact hw.fits
  have hwrite := Bytes.write_ok fault hfits
  have htake : ((strings w.string).take w.pos).length = w.pos := by
    rw [List.length_take]
    omega
  refine ⟨_, bind_of_ok hwrite _, fun x => ?_, ?_, ?_⟩
  · by_cases hx : x = w.string
    · subst hx
      rw [Function.update_self, Bytes.write_length fault hwrite]
      exact hlen _
    · rw [Function.update_of_ne hx]
      exact hlen x
  · rintro x i ⟨rfl, h1, h2⟩
    obtain ⟨j, rfl⟩ := Nat.exists_eq_add_of_le h1
    rw [Function.update_self, hw.same j (by omega), List.append_assoc, List.getElem?_append_right (by omega),
      htake, Nat.add_sub_cancel_left, List.getElem?_append_left (by omega)]
  · intro x i hnot
    by_cases hx : x = w.string
    · subst hx
      rw [Function.update_self, List.append_assoc]
      rcases Nat.lt_or_ge i w.pos with hi | hi
      · rw [List.getElem?_append_left (by omega), List.getElem?_take_of_lt hi]
      · have hge : w.pos + w.bytes.length ≤ i := by
          by_contra hlt
          exact hnot ⟨rfl, hi, by omega⟩
        rw [List.getElem?_append_right (by omega), List.getElem?_append_right (by omega), htake,
          List.getElem?_drop]
        congr 1
        omega
    · rw [Function.update_of_ne hx]

/-- Writes that agree do not fail, as statements of tasks. -/
theorem safe {jobs : List (List (Write ι))} (h : ∀ job ∈ jobs, ∀ w ∈ job, w.Agrees T) :
    WorkQueue.Safe (SameLengths T) (jobs.map fun job => job.map (run fault)) := by
  intro body hbody f hf m hm
  obtain ⟨job, hjob, rfl⟩ := List.mem_map.mp hbody
  obtain ⟨w, hw, rfl⟩ := List.mem_map.mp hf
  obtain ⟨m', hrun, hlen, -⟩ := run_ok fault (h job hjob w hw) hm
  exact ⟨m', hrun, hlen⟩

/-- What writes that agree leave, one after the other. -/
theorem run_agreeing : ∀ {ws : List (Write ι)} {strings strings' : ι → Bytes}, (∀ w ∈ ws, w.Agrees T) →
    SameLengths T strings → ws.foldlM (fun st w => w.run fault st) strings = .ok strings' →
    SameLengths T strings' ∧ ∀ x i,
      ((∃ w ∈ ws, w.Covers x i) → (strings' x)[i]? = (T x)[i]?) ∧
      ((strings x)[i]? = (T x)[i]? → (strings' x)[i]? = (T x)[i]?) ∧
      ((∀ w ∈ ws, ¬ w.Covers x i) → (strings' x)[i]? = (strings x)[i]?)
  | [], strings, strings', _, hlen, h => by
    obtain rfl : strings = strings' := Except.ok.inj h
    exact ⟨hlen, fun x i => ⟨fun ⟨w, hw, _⟩ => (List.not_mem_nil hw).elim, id, fun _ => rfl⟩⟩
  | w :: ws, strings, strings', hall, hlen, h => by
    obtain ⟨st, hrun, hlen1, hcov, hkeep⟩ := run_ok fault (hall w List.mem_cons_self) hlen
    rw [List.foldlM_cons, bind_of_ok hrun] at h
    obtain ⟨hlen', hbytes⟩ := run_agreeing (fun v hv => hall v (List.mem_cons_of_mem _ hv)) hlen1 h
    refine ⟨hlen', fun x i => ⟨?_, fun hright => ?_, fun hnot => ?_⟩⟩
    · rintro ⟨v, hv, hvx⟩
      rcases List.mem_cons.mp hv with rfl | hv
      · exact (hbytes x i).2.1 (hcov x i hvx)
      · exact (hbytes x i).1 ⟨v, hv, hvx⟩
    · by_cases hx : w.Covers x i
      · exact (hbytes x i).2.1 (hcov x i hx)
      · exact (hbytes x i).2.1 ((hkeep x i hx).trans hright)
    · rw [(hbytes x i).2.2 fun v hv => hnot v (List.mem_cons_of_mem _ hv)]
      exact hkeep x i (hnot w List.mem_cons_self)

/-- They do not fail. -/
theorem run_all_ok {ws : List (Write ι)} (hall : ∀ w ∈ ws, w.Agrees T) (hlen : SameLengths T strings) :
    ∃ strings', ws.foldlM (fun st w => w.run fault st) strings = .ok strings' := by
  obtain ⟨st, hrun, -⟩ := foldlM_ok (fun _ st => SameLengths T st) ws [] strings hlen fun _ w st hw hst => by
    obtain ⟨st', hrun, hlen', -⟩ := run_ok fault (hall w hw) hst
    exact ⟨st', hrun, hlen'⟩
  exact ⟨st, hrun⟩

/-- What they leave as the statements of tasks, in the order in which the tasks
have executed them. -/
theorem replay_agreeing : ∀ {l : List (ℕ × ((ι → Bytes) → Except ε (ι → Bytes)))} {strings strings' : ι → Bytes},
    (∀ y ∈ l, ∃ w : Write ι, y.2 = w.run fault ∧ w.Agrees T) → SameLengths T strings →
    WorkQueue.replay l strings = .ok strings' → SameLengths T strings' ∧ ∀ x i,
      ((∃ y ∈ l, ∃ w : Write ι, y.2 = w.run fault ∧ w.Agrees T ∧ w.Covers x i) ∨
        (strings x)[i]? = (T x)[i]?) → (strings' x)[i]? = (T x)[i]?
  | [], strings, strings', _, hlen, h => by
    obtain rfl : strings = strings' := Except.ok.inj h
    exact ⟨hlen, fun x i hx => hx.elim (fun ⟨y, hy, _⟩ => (List.not_mem_nil hy).elim) id⟩
  | y :: l, strings, strings', hall, hlen, h => by
    obtain ⟨w, hyw, hw⟩ := hall y List.mem_cons_self
    obtain ⟨st, hrun, hlen1, hcov, hkeep⟩ := run_ok fault hw hlen
    rw [← hyw] at hrun
    rw [WorkQueue.replay, List.foldlM_cons, bind_of_ok hrun] at h
    obtain ⟨hlen', hbytes⟩ := replay_agreeing (fun z hz => hall z (List.mem_cons_of_mem _ hz)) hlen1 h
    refine ⟨hlen', fun x i hx => hbytes x i ?_⟩
    rcases hx with ⟨z, hz, v, hzv, hv, hvx⟩ | hright
    · rcases List.mem_cons.mp hz with rfl | hz
      · -- the statement is this one, whichever write it is
        obtain ⟨st', hrun', -, hcov', -⟩ := run_ok fault hv hlen
        rw [← hzv, hrun] at hrun'
        obtain rfl := Except.ok.inj hrun'
        exact Or.inr (hcov' x i hvx)
      · exact Or.inl ⟨z, hz, v, hzv, hv, hvx⟩
    · by_cases hx : w.Covers x i
      · exact Or.inr (hcov x i hx)
      · exact Or.inr ((hkeep x i hx).trans hright)

/-! ### Writes of slots -/

section Slots

variable {x : ι} {f : ℕ → Bytes} {n width k : ℕ}

theorem ofSlots_getElem? (hf : ∀ k < n, (f k).length = width) (hk : k < n) {i : ℕ} (hi : i < width) :
    (Bytes.ofSlots f n)[k * width + i]? = (f k)[i]? := by
  rw [← Bytes.slot_ofSlots hf hk, Bytes.slot, List.getElem?_take_of_lt hi, List.getElem?_drop]

omit [DecidableEq ι] in
/-- The bytes of a slot, or some in a row, at their place. -/
theorem agrees_of_slot (hT : T x = Bytes.ofSlots f n) (hf : ∀ k < n, (f k).length = width) (hk : k < n)
    {a b c : Bytes} (hsplit : f k = a ++ b ++ c) : Agrees T ⟨x, k * width + a.length, b⟩ := by
  have hlen : (f k).length = a.length + b.length + c.length := by
    rw [hsplit, List.length_append, List.length_append]
  have hwidth := hf k hk
  have hend := Bytes.slot_end_le (w := width) hk
  refine ⟨?_, fun i hi => ?_⟩
  · show k * width + a.length + b.length ≤ (T x).length
    rw [hT, Bytes.ofSlots_length hf]
    omega
  · have hi' : i < b.length := hi
    show (T x)[k * width + a.length + i]? = b[i]?
    rw [hT, Nat.add_assoc, ofSlots_getElem? hf hk (by omega), hsplit, List.append_assoc,
      List.getElem?_append_right (by omega), Nat.add_sub_cancel_left, List.getElem?_append_left hi']

/-- What the writes of some slots leave, if they cover these slots and no others. -/
theorem filled_of_covers {P : ℕ → Prop} {ws : List (Write ι)} (hT : T x = Bytes.ofSlots f n)
    (hf : ∀ k < n, (f k).length = width) (hagree : ∀ w ∈ ws, w.Agrees T)
    (hcover : ∀ k < n, ∀ i < width, (∃ w ∈ ws, w.Covers x (k * width + i)) ↔ P k)
    (hlen : SameLengths T strings) (hrun : ws.foldlM (fun st w => w.run fault st) strings = .ok strings') :
    Bytes.Filled width n f P (strings x) (strings' x) := by
  obtain ⟨hlen', hbytes⟩ := run_agreeing fault hagree hlen hrun
  have hslot : ∀ (s t : Bytes) k, (∀ i < width, s[k * width + i]? = t[k * width + i]?) →
      Bytes.slot width s k = Bytes.slot width t k := by
    intro s t k h
    refine List.ext_getElem? fun i => ?_
    rcases Nat.lt_or_ge i width with hi | hi
    · rw [Bytes.slot, Bytes.slot, List.getElem?_take_of_lt hi, List.getElem?_take_of_lt hi, List.getElem?_drop,
        List.getElem?_drop, h i hi]
    · rw [Bytes.slot, Bytes.slot, List.getElem?_take_eq_none hi, List.getElem?_take_eq_none hi]
  refine ⟨(hlen' x).trans (hlen x).symm, fun k hk hP => ?_, fun k hk hnot => ?_⟩
  · rw [hslot _ (T x) k fun i hi => (hbytes x _).1 ((hcover k hk i hi).mpr hP), hT, Bytes.slot_ofSlots hf hk]
  · refine hslot _ _ k fun i hi => (hbytes x _).2.2 fun w hw hx => hnot ?_
    exact (hcover k hk i hi).mp ⟨w, hw, hx⟩

end Slots

end Write
end Ortoa

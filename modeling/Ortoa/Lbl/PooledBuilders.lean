/-
# The entry builders on the thread pool

`constructCreateEntry`, `constructGetEntry` and `constructPutEntry` submit one
task for each part to the pool of the proxy, which other requests use at the
same time. Here a task is the list of its writes into the strings of the entry,
and the workers interleave the writes of all tasks (`Lbl/ThreadPool.lean`). One
worker alone executes what `createEntryParallel` and `accessEntryParallel` say
(`createWrites_eq`, `accessWrites_eq`), and in every run the call returns the
entry that the builder makes one task after the other (`pooled_entry`).

Key definitions: `createWrites`, `accessWrites`, `Building`, `Building.batch`.
Key theorems: `createWrites_eq`, `accessWrites_eq`, `pooled_entry`.
-/
import Ortoa.Lbl.ThreadPoolProgress
import Ortoa.Lbl.ThreadPoolResults
import Ortoa.Lbl.Entries
import Ortoa.Writes

namespace Ortoa
namespace Lbl

open Bytes ThreadPool

section Pooled

variable (cfg : Config) (L : Libsodium)

/-! ### The writes of a task -/

/-- The writes of the loops over a part, slot by slot. -/
def partWrites (part : ℕ) (slotWrites : ℕ → List (Write BitPair)) : List (Write BitPair) :=
  let start := partStart cfg.valueSize cfg.proxyNumThreads part
  let limit := partLimit cfg.valueSize cfg.proxyNumThreads part
  (List.range' start (limit - start)).flatMap fun i => (List.range 4).flatMap fun j => slotWrites (4 * i + j)

/-- The loop body of `createEntryParallel`: the auxiliary byte, then the label. -/
def createSlotWrites (paddedVal masterKey : Bytes) (k : ℕ) : List (Write BitPair) :=
  let slot := createSlot L.toSodium masterKey k (pairAt paddedVal k)
  [⟨0, k * labelWidth, [slot.1]⟩, ⟨0, k * labelWidth + 1, slot.2⟩]

/-- The writes of `createEntryParallel`. -/
def createWrites (part : ℕ) (paddedVal masterKey : Bytes) : List (Write BitPair) :=
  partWrites cfg part (createSlotWrites L paddedVal masterKey)

/-- The loop body of `getEntryParallel` and `putEntryParallel`: the four
nonces, then the four sealed labels. -/
def accessSlotWrites (nonce box : ℕ → BitPair → Bytes) (k : ℕ) : List (Write BitPair) :=
  ([0, 1, 2, 3] : List BitPair).map (fun x => ⟨x, k * boxWidth, nonce k x⟩) ++
    ([0, 1, 2, 3] : List BitPair).map fun x => ⟨x, k * boxWidth + cryptoSecretboxNoncebytes, box k x⟩

/-- The writes of `getEntryParallel` and `putEntryParallel`. -/
def accessWrites (part : ℕ) (nonce box : ℕ → BitPair → Bytes) : List (Write BitPair) :=
  partWrites cfg part (accessSlotWrites nonce box)

theorem mem_partWrites {part : ℕ} {slotWrites : ℕ → List (Write BitPair)} {w : Write BitPair} :
    w ∈ partWrites cfg part slotWrites ↔
      ∃ k, partSlots cfg.valueSize cfg.proxyNumThreads part k ∧ w ∈ slotWrites k := by
  unfold partWrites partSlots
  simp only [List.mem_flatMap, List.mem_range'_1, List.mem_range]
  constructor
  · rintro ⟨i, ⟨h1, h2⟩, j, hj, hw⟩
    exact ⟨4 * i + j, by omega, hw⟩
  · rintro ⟨k, ⟨h1, h2⟩, hw⟩
    refine ⟨k / 4, by omega, k % 4, by omega, ?_⟩
    rwa [Nat.div_add_mod]

/-! ### What they write -/

/-- The strings that a `create` leaves. -/
def createStrings (paddedVal masterKey : Bytes) (x : BitPair) : Bytes :=
  if x = 0 then labelString L cfg.valueSize masterKey paddedVal else []

variable {cfg}

theorem createWrites_agree {part : ℕ} {paddedVal masterKey : Bytes} :
    ∀ w ∈ createWrites cfg L part paddedVal masterKey, w.Agrees (createStrings cfg L paddedVal masterKey) := by
  intro w hw
  obtain ⟨k, ⟨-, hk⟩, hw⟩ := (mem_partWrites cfg).mp hw
  have hlt : k < cfg.valueSize * 4 := by
    have := partLimit_le cfg.valueSize cfg.proxyNumThreads part
    omega
  have hlen : ∀ k < cfg.valueSize * 4, (labelSlot L masterKey paddedVal k).length = labelWidth :=
    fun _ _ => labelSlot_length _ _ _ _
  have hT : createStrings cfg L paddedVal masterKey 0 =
      ofSlots (labelSlot L masterKey paddedVal) (cfg.valueSize * 4) :=
    if_pos rfl
  simp only [createSlotWrites, List.mem_cons, List.not_mem_nil, or_false] at hw
  rcases hw with rfl | rfl
  · exact Write.agrees_of_slot (a := []) hT hlen hlt rfl
  · refine Write.agrees_of_slot (a := [(createSlot L.toSodium masterKey k (pairAt paddedVal k)).1]) (c := []) hT
      hlen hlt ?_
    rw [List.append_nil]
    rfl

theorem accessWrites_agree {part : ℕ} {nonce box : ℕ → BitPair → Bytes}
    (hn : ∀ s x, (nonce s x).length = cryptoSecretboxNoncebytes)
    (hb : ∀ s x, (box s x).length = ciphertextLen) :
    ∀ w ∈ accessWrites cfg part nonce box, w.Agrees (boxString cfg.valueSize nonce box) := by
  intro w hw
  obtain ⟨k, ⟨-, hk⟩, hw⟩ := (mem_partWrites cfg).mp hw
  have hlt : k < cfg.valueSize * 4 := by
    have := partLimit_le cfg.valueSize cfg.proxyNumThreads part
    omega
  have hlen : ∀ x, ∀ k < cfg.valueSize * 4, (boxSlot nonce box x k).length = boxWidth := fun x k _ => by
    rw [boxSlot, List.length_append, hn, hb]
  have hT : ∀ x, boxString cfg.valueSize nonce box x = ofSlots (boxSlot nonce box x) (cfg.valueSize * 4) :=
    fun _ => rfl
  rcases List.mem_append.mp hw with hw | hw
  · obtain ⟨x, -, rfl⟩ := List.mem_map.mp hw
    exact Write.agrees_of_slot (a := []) (hT x) (hlen x) hlt rfl
  · obtain ⟨x, -, rfl⟩ := List.mem_map.mp hw
    rw [← hn k x]
    refine Write.agrees_of_slot (c := []) (hT x) (hlen x) hlt ?_
    rw [List.append_nil]
    rfl

/-- The writes of a part cover its slots, if the writes of a slot cover it. -/
theorem partWrites_covers {part width : ℕ} {x : BitPair} {slotWrites : ℕ → List (Write BitPair)} (hw : 0 < width)
    (hin : ∀ k, ∀ w ∈ slotWrites k, k * width ≤ w.pos ∧ w.pos + w.bytes.length ≤ k * width + width)
    (hall : ∀ k, ∀ i < width, ∃ w ∈ slotWrites k, w.Covers x (k * width + i)) (k : ℕ) {i : ℕ} (hi : i < width) :
    (∃ w ∈ partWrites cfg part slotWrites, w.Covers x (k * width + i)) ↔
      partSlots cfg.valueSize cfg.proxyNumThreads part k := by
  constructor
  · rintro ⟨w, hmem, hx⟩
    obtain ⟨k', hk', hmem⟩ := (mem_partWrites cfg).mp hmem
    obtain ⟨h1, h2⟩ := hin k' w hmem
    obtain ⟨-, h3, h4⟩ := hx
    have hk : k = k' := by
      have hdiv : (k * width + i) / width = k := by
        rw [Nat.mul_comm, Nat.mul_add_div hw, Nat.div_eq_of_lt hi, Nat.add_zero]
      have hdiv' : (k * width + i) / width = k' :=
        Nat.div_eq_of_lt_le (by omega) (by rw [Nat.succ_mul]; omega)
      exact hdiv.symm.trans hdiv'
    exact hk ▸ hk'
  · intro hk
    obtain ⟨w, hmem, hx⟩ := hall k i hi
    exact ⟨w, (mem_partWrites cfg).mpr ⟨k, hk, hmem⟩, hx⟩

/-- Two writes side by side cover what they are long. -/
theorem covers_two {x : BitPair} {p i : ℕ} {a b : Bytes} (hi : i < a.length + b.length) :
    (Write.mk x p a).Covers x (p + i) ∨ (Write.mk x (p + a.length) b).Covers x (p + i) := by
  rcases Nat.lt_or_ge i a.length with h | h
  · exact Or.inl ⟨rfl, Nat.le_add_right _ _, by show p + i < p + a.length; omega⟩
  · exact Or.inr ⟨rfl, by show p + a.length ≤ p + i; omega, by show p + i < p + a.length + b.length; omega⟩

theorem createWrites_covers (part : ℕ) (paddedVal masterKey : Bytes) (k : ℕ) {i : ℕ} (hi : i < labelWidth) :
    (∃ w ∈ createWrites cfg L part paddedVal masterKey, w.Covers 0 (k * labelWidth + i)) ↔
      partSlots cfg.valueSize cfg.proxyNumThreads part k := by
  have hlabel : ∀ k, (createSlot L.toSodium masterKey k (pairAt paddedVal k)).2.length = cryptoSecretboxKeybytes :=
    fun k => L.slotLabel_length _ _ _
  refine partWrites_covers (by decide) (fun k w hw => ?_) (fun k i hi => ?_) k hi
  · simp only [createSlotWrites, List.mem_cons, List.not_mem_nil, or_false] at hw
    rcases hw with rfl | rfl
    · simp [labelWidth]
    · simp only [hlabel, labelWidth]
      omega
  · simp only [createSlotWrites, List.mem_cons, List.not_mem_nil, or_false, exists_eq_or_imp, exists_eq_left]
    exact covers_two (by rw [hlabel]; exact hi)

theorem accessWrites_covers (part : ℕ) {nonce box : ℕ → BitPair → Bytes}
    (hn : ∀ s x, (nonce s x).length = cryptoSecretboxNoncebytes)
    (hb : ∀ s x, (box s x).length = ciphertextLen) (x : BitPair) (k : ℕ) {i : ℕ} (hi : i < boxWidth) :
    (∃ w ∈ accessWrites cfg part nonce box, w.Covers x (k * boxWidth + i)) ↔
      partSlots cfg.valueSize cfg.proxyNumThreads part k := by
  have hall : ∀ x : BitPair, x ∈ ([0, 1, 2, 3] : List BitPair) := by decide
  refine partWrites_covers (by decide) (fun k w hw => ?_) (fun k i hi => ?_) k hi
  · rcases List.mem_append.mp hw with hw | hw
    · obtain ⟨y, -, rfl⟩ := List.mem_map.mp hw
      simp only [hn, boxWidth]
      omega
    · obtain ⟨y, -, rfl⟩ := List.mem_map.mp hw
      simp only [hb, boxWidth]
      omega
  · rcases covers_two (x := x) (p := k * boxWidth) (a := nonce k x) (b := box k x)
      (by rw [hn, hb]; exact hi) with hx | hx
    · exact ⟨_, List.mem_append_left _ (List.mem_map_of_mem (hall x)), hx⟩
    · rw [hn] at hx
      exact ⟨_, List.mem_append_right _ (List.mem_map_of_mem (hall x)), hx⟩

/-! ### One worker alone -/

/-- The writes of a `create` task, one after the other, are what the function does. -/
theorem createWrites_eq (part : ℕ) {paddedVal : Bytes} (masterKey : Bytes) {strings : BitPair → Bytes}
    (hpad : paddedVal.length = cfg.valueSize)
    (hlen : Write.SameLengths (createStrings cfg L paddedVal masterKey) strings) :
    (createWrites cfg L part paddedVal masterKey).foldlM (fun st w => w.run Fault.outOfBounds st) strings =
      (createEntryParallel cfg L part paddedVal masterKey (strings 0)).map (Function.update strings 0) := by
  obtain ⟨strings', hrun⟩ := Write.run_all_ok Fault.outOfBounds
    (fun w (hw : w ∈ createWrites cfg L part paddedVal masterKey) => createWrites_agree L w hw) hlen
  have hlabel : (strings 0).length = cfg.valueSize * 4 * labelWidth := by
    rw [hlen 0]
    exact labelString_length _ _ _ _
  obtain ⟨label', hcreate, hF⟩ := createEntryParallel_ok cfg L part masterKey hpad hlabel
  have hF' : Filled labelWidth (cfg.valueSize * 4) (labelSlot L masterKey paddedVal)
      (partSlots cfg.valueSize cfg.proxyNumThreads part) (strings 0) (strings' 0) :=
    Write.filled_of_covers Fault.outOfBounds (x := 0) (if_pos rfl) (fun _ _ => labelSlot_length _ _ _ _)
      (createWrites_agree L) (fun k _ i hi => createWrites_covers L part paddedVal masterKey k hi) hlen hrun
  rw [hrun, hcreate]
  refine congrArg Except.ok (funext fun x => ?_)
  by_cases hx : x = 0
  · subst hx
    rw [Function.update_self]
    exact hF'.unique hF hlabel
  · have hempty : strings x = [] := by
      rw [← List.length_eq_zero_iff, hlen x, createStrings, if_neg hx, List.length_nil]
    have hempty' : strings' x = [] := by
      rw [← List.length_eq_zero_iff, (Write.run_agreeing Fault.outOfBounds (createWrites_agree L) hlen hrun).1 x,
        createStrings, if_neg hx, List.length_nil]
    rw [Function.update_of_ne hx, hempty, hempty']

/-- The same for a task of an access entry. -/
theorem accessWrites_eq (part : ℕ) {nonce box : ℕ → BitPair → Bytes}
    {ciphertext : ℕ → ℕ → Except Fault (BitPair → Bytes)} {tables : BitPair → Bytes}
    (hlen : ∀ x, (tables x).length = cfg.valueSize * 4 * boxWidth)
    (hn : ∀ s x, (nonce s x).length = cryptoSecretboxNoncebytes)
    (hb : ∀ s x, (box s x).length = ciphertextLen)
    (hc : ∀ i < cfg.valueSize, ∀ j < 4, ciphertext i j = .ok (box (4 * i + j))) :
    (accessWrites cfg part nonce box).foldlM (fun st w => w.run Fault.outOfBounds st) tables =
      accessEntryParallel cfg part nonce ciphertext tables := by
  have hsame : Write.SameLengths (boxString cfg.valueSize nonce box) tables := fun x => by
    rw [hlen, boxString_length cfg.valueSize hn hb]
  have hslot : ∀ x, ∀ k < cfg.valueSize * 4, (boxSlot nonce box x k).length = boxWidth := fun x k _ => by
    rw [boxSlot, List.length_append, hn, hb]
  obtain ⟨tables', hrun⟩ := Write.run_all_ok Fault.outOfBounds
    (fun w (hw : w ∈ accessWrites cfg part nonce box) => accessWrites_agree hn hb w hw) hsame
  obtain ⟨tables1, haccess, hF⟩ := accessEntryParallel_ok cfg part hlen hn hb hc
  rw [hrun, haccess]
  refine congrArg Except.ok (funext fun x => ?_)
  have hT : boxString cfg.valueSize nonce box x = ofSlots (boxSlot nonce box x) (cfg.valueSize * 4) := rfl
  exact (Write.filled_of_covers Fault.outOfBounds hT (hslot x) (accessWrites_agree hn hb)
    (fun k _ i hi => accessWrites_covers part hn hb x k hi) hsame hrun).unique (hF x) (hlen x)

/-! ### The calls -/

/-- What a request builds its entry for. -/
inductive Building
  | create (value : Bytes)
  | get
  | put (value : Bytes)

namespace Building

/-- The value fits; `padToLen` throws before any task is submitted if it does not. -/
def Fits (cfg : Config) : Building → Prop
  | create value | put value => value.length ≤ cfg.valueSize
  | get => True

/-- The builder that the request calls. -/
def construct (g : Globals) (key : Bytes) (d : Draw cfg) : Building → Except Fault (Globals × Entry)
  | create value => constructCreateEntry cfg L g key value d
  | get => constructGetEntry cfg L g key d
  | put value => constructPutEntry cfg L g key value d

/-- The strings that the builder sets up. -/
def strings (cfg : Config) : Building → BitPair → Bytes
  | create _ => fun x => if x = 0 then List.replicate (cfg.valueSize * 4 * labelWidth) 0 else []
  | get | put _ => emptyTables cfg

/-- The writes of the task for one part. -/
def writes (g : Globals) (key : Bytes) (d : Draw cfg) (part : ℕ) : Building → List (Write BitPair)
  | create value => createWrites cfg L part (padded value cfg.valueSize) d.masterKey
  | get => accessWrites cfg part d.nonce (getBoxes L (g.masterKeys key) d.masterKey d.nonce)
  | put value => accessWrites cfg part d.nonce
      (putBoxes L (g.masterKeys key) d.masterKey (padded value cfg.valueSize) d.nonce)

/-- What the builder hands to the pool. -/
def batch (g : Globals) (key : Bytes) (d : Draw cfg) (what : Building) : Batch (BitPair → Bytes) Fault where
  init := what.strings cfg
  bodies := (List.range cfg.proxyNumThreads).map fun part =>
    (what.writes L g key d part).map (Write.run Fault.outOfBounds)

/-- The strings of the entry. -/
def target (g : Globals) (key : Bytes) (d : Draw cfg) : Building → BitPair → Bytes
  | create value => createStrings cfg L (padded value cfg.valueSize) d.masterKey
  | get => boxString cfg.valueSize d.nonce (getBoxes L (g.masterKeys key) d.masterKey d.nonce)
  | put value => boxString cfg.valueSize d.nonce
      (putBoxes L (g.masterKeys key) d.masterKey (padded value cfg.valueSize) d.nonce)

variable {L} {g : Globals} {key : Bytes} {d : Draw cfg}

theorem strings_sameLengths (what : Building) : Write.SameLengths (what.target L g key d) (what.strings cfg) := by
  have htables : ∀ {box : ℕ → BitPair → Bytes}, (∀ s x, (box s x).length = ciphertextLen) →
      Write.SameLengths (boxString cfg.valueSize d.nonce box) (emptyTables cfg) := fun hb x => by
    rw [boxString_length cfg.valueSize d.nonce_length hb]
    exact List.length_replicate
  cases what with
  | create value =>
    intro x
    by_cases hx : x = 0
    · simp only [strings, target, createStrings, if_pos hx, List.length_replicate, labelString_length]
    · simp only [strings, target, createStrings, if_neg hx]
  | get => exact htables (getBoxes_length L _ _ _)
  | put value => exact htables (putBoxes_length L _ _ _ _)

theorem writes_agree (what : Building) (part : ℕ) :
    ∀ w ∈ what.writes L g key d part, w.Agrees (what.target L g key d) := by
  cases what with
  | create value => exact createWrites_agree L
  | get => exact accessWrites_agree d.nonce_length (getBoxes_length L _ _ _)
  | put value => exact accessWrites_agree d.nonce_length (putBoxes_length L _ _ _ _)

/-- Every byte of the entry is written by some task. -/
theorem writes_cover (what : Building) (x : BitPair) {i : ℕ} (hi : i < (what.target L g key d x).length) :
    ∃ part < cfg.proxyNumThreads, ∃ w ∈ what.writes L g key d part, w.Covers x i := by
  have htables : ∀ {box : ℕ → BitPair → Bytes}, (∀ s x, (box s x).length = ciphertextLen) →
      i < (boxString cfg.valueSize d.nonce box x).length →
      ∃ part < cfg.proxyNumThreads, ∃ w ∈ accessWrites cfg part d.nonce box, w.Covers x i := by
    intro box hb hi
    rw [boxString_length cfg.valueSize d.nonce_length hb] at hi
    have hpos : 0 < boxWidth := by decide
    obtain ⟨p, hp, hk⟩ := exists_partSlots cfg.proxyNumThreads_pos ((Nat.div_lt_iff_lt_mul hpos).mpr hi)
    obtain ⟨w, hw, hx⟩ := (accessWrites_covers p d.nonce_length hb x _ (Nat.mod_lt i hpos)).mpr hk
    rw [Nat.div_add_mod'] at hx
    exact ⟨p, hp, w, hw, hx⟩
  cases what with
  | create value =>
    by_cases hx : x = 0
    · subst hx
      have hi' : i < cfg.valueSize * 4 * labelWidth := by
        rwa [target, createStrings, if_pos rfl, labelString_length] at hi
      have hpos : 0 < labelWidth := by decide
      obtain ⟨p, hp, hk⟩ := exists_partSlots cfg.proxyNumThreads_pos ((Nat.div_lt_iff_lt_mul hpos).mpr hi')
      obtain ⟨w, hw, hx⟩ := (createWrites_covers L p _ _ _ (Nat.mod_lt i hpos)).mpr hk
      rw [Nat.div_add_mod'] at hx
      exact ⟨p, hp, w, hw, hx⟩
    · rw [target, createStrings, if_neg hx] at hi
      exact absurd hi (Nat.not_lt_zero i)
  | get => exact htables (getBoxes_length L _ _ _) hi
  | put value => exact htables (putBoxes_length L _ _ _ _) hi

/-- The builder makes these strings. -/
theorem construct_eq (what : Building) (hfit : what.Fits cfg) : what.construct L g key d =
    .ok (g.rekey key d.masterKey, ⟨key, what.target L g key d 0, what.target L g key d 1,
      what.target L g key d 2, what.target L g key d 3⟩) := by
  cases what with
  | create value => exact constructCreateEntry_eq cfg L g key d hfit
  | get => exact constructGetEntry_eq cfg L g key d
  | put value => exact constructPutEntry_eq cfg L g key d hfit

/-- A call that has returned has the strings of its entry. -/
theorem returned {n : ℕ} {memory : ℕ → BitPair → Bytes} {acts : List (ThreadPool.Act (BitPair → Bytes) Fault)}
    {s : Pool (BitPair → Bytes) Fault} (h : run (ThreadPool.next n) (ThreadPool.initial memory) acts = some s)
    {c : ℕ} {what : Building} {r : Except Fault Unit} (hc : s.clients c = .returned (what.batch L g key d) r) :
    r = .ok () ∧ s.memory c = what.target L g key d := by
  have hsafe : WorkQueue.Safe (Write.SameLengths (what.target L g key d)) (what.batch L g key d).bodies := by
    have hagree : ∀ job ∈ (List.range cfg.proxyNumThreads).map fun part => what.writes L g key d part,
        ∀ w ∈ job, w.Agrees (what.target L g key d) := by
      intro job hjob w hw
      obtain ⟨part, -, rfl⟩ := List.mem_map.mp hjob
      exact what.writes_agree part w hw
    have hjobs := Write.safe Fault.outOfBounds hagree
    rw [List.map_map] at hjobs
    exact hjobs
  have hr : r = .ok () := returned_ok h hc hsafe what.strings_sameLengths
  obtain ⟨trace, hreplay, hmem, hinter⟩ := replay_of_returned h hc
  have hall : ∀ y ∈ trace, ∃ w : Write BitPair, y.2 = w.run Fault.outOfBounds ∧
      w.Agrees (what.target L g key d) := by
    intro y hy
    obtain ⟨body, hbody, hyb⟩ := hmem y hy
    obtain ⟨part, -, rfl⟩ := List.mem_map.mp (List.mem_of_getElem? hbody)
    obtain ⟨w, hw, hyw⟩ := List.mem_map.mp hyb
    exact ⟨w, hyw.symm, what.writes_agree part w hw⟩
  obtain ⟨hlen, hbytes⟩ := Write.replay_agreeing Fault.outOfBounds hall what.strings_sameLengths hreplay
  refine ⟨hr, Write.eq_of_bytes hlen fun x i hi => hbytes x i (Or.inl ?_)⟩
  obtain ⟨part, hpart, w, hw, hx⟩ := what.writes_cover x hi
  -- the write is a statement of a task, and the tasks have ended
  have hin : Write.run Fault.outOfBounds w ∈ trace.map Prod.snd := by
    rw [(hinter hr).mem_iff, List.mem_flatten]
    exact ⟨_, List.mem_map_of_mem (List.mem_range.mpr hpart), List.mem_map_of_mem hw⟩
  obtain ⟨y, hy, hyw⟩ := List.mem_map.mp hin
  exact ⟨y, hy, w, hyw, what.writes_agree part w hw, hx⟩

end Building

/-- Whatever else the pool is used for at the same time, a builder gets no
error from it and returns the entry that it makes one task after the other. -/
theorem pooled_entry {n : ℕ} {memory : ℕ → BitPair → Bytes}
    {acts : List (ThreadPool.Act (BitPair → Bytes) Fault)} {s : Pool (BitPair → Bytes) Fault}
    (h : run (ThreadPool.next n) (ThreadPool.initial memory) acts = some s) {c : ℕ}
    {what : Building} {g : Globals} {key : Bytes} {d : Draw cfg} (hfit : what.Fits cfg) {r : Except Fault Unit}
    (hc : s.clients c = .returned (what.batch L g key d) r) : r = .ok () ∧
      what.construct L g key d = .ok (g.rekey key d.masterKey,
        ⟨key, s.memory c 0, s.memory c 1, s.memory c 2, s.memory c 3⟩) := by
  obtain ⟨hr, hmem⟩ := Building.returned h hc
  exact ⟨hr, by rw [hmem]; exact what.construct_eq hfit⟩

/-- The empty value with the shipped sizes, on one worker. -/
theorem pooled_entry_plain : ∃ acts s,
    run (ThreadPool.next 1) (ThreadPool.initial fun _ _ => [] : Pool (BitPair → Bytes) Fault) acts = some s ∧
    (Building.create []).construct Libsodium.plain (opScureSetup constants none) [] (plainDraw constants [1]) =
      .ok ((opScureSetup constants none).rekey [] [1],
        ⟨[], s.memory 0 0, s.memory 0 1, s.memory 0 2, s.memory 0 3⟩) := by
  let b := (Building.create []).batch Libsodium.plain (opScureSetup constants none) [] (plainDraw constants [1])
  have hstart : ∃ s, run (ThreadPool.next 1) (ThreadPool.initial fun _ _ => []) [.batch 0 b] = some s ∧
      s.paused = false ∧ (∀ c, (s.clients c).destroys = false) ∧ (s.clients 0).batch = some (b, 0) :=
    ⟨_, rfl, rfl, fun c => by cases c <;> rfl, rfl⟩
  obtain ⟨s, hs, hp, hd, hb⟩ := hstart
  obtain ⟨F, hG⟩ := going_run Nat.one_pos hs fun _ => hp
  obtain ⟨as, s', hI, hrun, hS⟩ := exists_stuck Nat.one_pos hG
  obtain ⟨N, hN⟩ := ended_of_stuck Nat.one_pos hs hd hp
  obtain ⟨r, hr⟩ := ((hN as s' hI hrun).2 hS).2.2 0 b 0 hb
  have hfrom : run (ThreadPool.next 1) (ThreadPool.initial fun _ _ => []) ([.batch 0 b] ++ as) = some s' := by
    rw [run_append, hs]
    exact hrun
  exact ⟨_, s', hfrom, (pooled_entry Libsodium.plain hfrom (Nat.zero_le _) hr).2⟩

/-- On a pool that is not paused and not being destroyed every builder returns,
with its entry, whatever the scheduler does. -/
theorem pooled_entry_returns {n threadCount hardwareConcurrency : ℕ}
    (hn : n = determineThreadCount threadCount hardwareConcurrency) {memory : ℕ → BitPair → Bytes}
    {acts : List (ThreadPool.Act (BitPair → Bytes) Fault)} {s : Pool (BitPair → Bytes) Fault}
    (h : run (ThreadPool.next n) (ThreadPool.initial memory) acts = some s)
    (hd : ∀ c, (s.clients c).destroys = false) (hp : s.paused = false) {c k : ℕ} {what : Building} {g : Globals} {key : Bytes} {d : Draw cfg}
    (hfit : what.Fits cfg) (hc : (s.clients c).batch = some (what.batch L g key d, k)) :
    ∃ N, ∀ as s', (∀ a ∈ as, Internal a = true) → run (ThreadPool.next n) s as = some s' → as.length ≤ N ∧
      (Stuck n s' → s'.clients c = .returned (what.batch L g key d) (.ok ()) ∧
        what.construct L g key d = .ok (g.rekey key d.masterKey,
          ⟨key, s'.memory c 0, s'.memory c 1, s'.memory c 2, s'.memory c 3⟩)) := by
  obtain ⟨N, hN⟩ := ended_of_stuck (hn ▸ determineThreadCount_pos threadCount hardwareConcurrency) h hd hp
  refine ⟨N, fun as s' hI hrun => ⟨(hN as s' hI hrun).1, fun hS => ?_⟩⟩
  obtain ⟨-, -, hreturned⟩ := (hN as s' hI hrun).2 hS
  obtain ⟨r, hr⟩ := hreturned c _ k hc
  have hfrom : run (ThreadPool.next n) (ThreadPool.initial memory) (acts ++ as) = some s' := by
    rw [run_append, h]
    exact hrun
  obtain ⟨rfl, hmem⟩ := Building.returned hfrom hr
  exact ⟨hr, by rw [hmem]; exact what.construct_eq hfit⟩

theorem pooled_entry_returns_plain : ∃ s N,
    run (ThreadPool.next 1) (ThreadPool.initial fun _ _ => [] : Pool (BitPair → Bytes) Fault)
      [.batch 0 ((Building.create []).batch Libsodium.plain (opScureSetup constants none) []
        (plainDraw constants [1]))] = some s ∧
    ∀ as s', (∀ a ∈ as, Internal a = true) → run (ThreadPool.next 1) s as = some s' →
      as.length ≤ N ∧ (Stuck 1 s' →
      s'.clients 0 = .returned ((Building.create []).batch Libsodium.plain (opScureSetup constants none) []
        (plainDraw constants [1])) (.ok ()) ∧
      (Building.create []).construct Libsodium.plain (opScureSetup constants none) [] (plainDraw constants [1]) =
        .ok ((opScureSetup constants none).rekey [] [1],
          ⟨[], s'.memory 0 0, s'.memory 0 1, s'.memory 0 2, s'.memory 0 3⟩)) := by
  have hfits : (Building.create []).Fits constants := Nat.zero_le _
  obtain ⟨N, hN⟩ := pooled_entry_returns Libsodium.plain (show 1 = determineThreadCount 1 0 from rfl)
    (show run (ThreadPool.next 1) (ThreadPool.initial fun _ _ => [])
      [.batch 0 ((Building.create []).batch Libsodium.plain (opScureSetup constants none) []
        (plainDraw constants [1]))] = some _ from rfl)
    (fun c => by cases c <;> rfl) rfl hfits (c := 0) rfl
  exact ⟨_, N, rfl, hN⟩

end Pooled

end Lbl
end Ortoa

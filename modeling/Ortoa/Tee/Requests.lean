/-
# Concurrent requests at the TEE host

The thread pool of the host runs many `RPCHandler::access` calls at once.
Each reads the key's entry, has it or the client's value re-encrypted, and
writes the outcome back, with nothing to keep the three steps together. A GET
writes too; so a GET that has read before a PUT has written, and writes after
it, puts the old value back (`get_undoes_put`). The PUT of a value survives
if there is no such GET when it writes (`put_survives`).

Redis takes one command at a time, and each ecall runs on its own memory, so
the steps of `Act` are atomic.

Key definitions: `Pc`, `State`, `next`, `Undisturbed`, `Before`, `Kept`.
Key theorems: `run_alone`, `Kept.step`, `put_survives`.
-/
import Ortoa.Tee.Host

namespace Ortoa
namespace Tee
namespace Requests

/-- Where a call of `access` is. -/
inductive Pc
  | idle
  /-- Before `storage_server->get`. -/
  | called (o : Operation)
  /-- Before `access_data`. -/
  | got (o : Operation) (rdValue : Bytes)
  /-- Before `storage_server->put`. -/
  | computed (o : Operation) (updatedVal : Bytes)
  /-- Before `_return = updated_val`. -/
  | stored (o : Operation) (updatedVal : Bytes)
  | returned (o : Operation) (reply : Bytes)

/-- The operation of a call that has not returned. -/
def Pc.running : Pc → Option Operation
  | .called o => some o
  | .got o _ => some o
  | .computed o _ => some o
  | .stored o _ => some o
  | _ => none

/-- The operation of a call between its `get` and its `put`. -/
def Pc.between : Pc → Option Operation
  | .got o _ => some o
  | .computed o _ => some o
  | _ => none

structure State where
  db : Db
  /-- The enclave has not aborted. -/
  enclaveUp : Bool
  calls : ℕ → Pc

def initial (db : Db) : State := ⟨db, true, fun _ => .idle⟩

def State.goto (w : State) (i : ℕ) (pc : Pc) : State := { w with calls := Function.update w.calls i pc }

inductive Act
  /-- A client calls `access`: a new call `i`. -/
  | call (i : ℕ) (o : Operation)
  /-- Call `i` takes its next step. -/
  | step (i : ℕ) (d : Draw)

section Step

variable (E : Cipher)

def stepCall (w : State) (i : ℕ) (d : Draw) : Option State :=
  match w.calls i with
  | .called o => some (w.goto i (.got o (get w.db o.key)))
  | .got o rdValue =>
    match accessDataCall E w.enclaveUp o.op rdValue o.value d with
    | .ok updatedVal => some (w.goto i (.computed o updatedVal))
    | .error .abort => some ({ w with enclaveUp := false }.goto i (.returned o []))
    | .error .overflow => none
  | .computed o updatedVal =>
    some ({ w with db := put w.db o.key updatedVal }.goto i (.stored o updatedVal))
  | .stored o updatedVal => some (w.goto i (.returned o updatedVal))
  | _ => none

def next (w : State) : Act → Option State
  | .call i o =>
    match w.calls i with
    | .idle => some (w.goto i (.called o))
    | _ => none
  | .step i d => stepCall E w i d

end Step

section Fields

variable (w : State) (i : ℕ) (pc : Pc)

@[simp] theorem goto_db : (w.goto i pc).db = w.db := rfl
@[simp] theorem goto_enclaveUp : (w.goto i pc).enclaveUp = w.enclaveUp := rfl
@[simp] theorem goto_calls_self : (w.goto i pc).calls i = pc := Function.update_self _ _ _
theorem goto_calls_ne {j : ℕ} (h : j ≠ i) : (w.goto i pc).calls j = w.calls j :=
  Function.update_of_ne h _ _

theorem goto_goto (pc' : Pc) : (w.goto i pc).goto i pc' = w.goto i pc' := by
  simp [State.goto]

end Fields

/-! ### What a step can do -/

/-- The steps of a call whose ecall succeeds. -/
inductive CallStep (E : Cipher) (w : State) (i : ℕ) (d : Draw) : State → Prop
  | get (o : Operation) : w.calls i = .called o →
    CallStep E w i d (w.goto i (.got o (get w.db o.key)))
  | compute (o : Operation) (rdValue updatedVal : Bytes) : w.calls i = .got o rdValue →
    accessDataCall E w.enclaveUp o.op rdValue o.value d = .ok updatedVal →
    CallStep E w i d (w.goto i (.computed o updatedVal))
  | abort (o : Operation) (rdValue : Bytes) : w.calls i = .got o rdValue →
    accessDataCall E w.enclaveUp o.op rdValue o.value d = .error .abort →
    CallStep E w i d ({ w with enclaveUp := false }.goto i (.returned o []))
  | put (o : Operation) (updatedVal : Bytes) : w.calls i = .computed o updatedVal →
    CallStep E w i d ({ w with db := put w.db o.key updatedVal }.goto i (.stored o updatedVal))
  | ret (o : Operation) (updatedVal : Bytes) : w.calls i = .stored o updatedVal →
    CallStep E w i d (w.goto i (.returned o updatedVal))

variable {E : Cipher} {w w' : State}

theorem callStep_of_stepCall {i : ℕ} {d : Draw} (h : stepCall E w i d = some w') :
    CallStep E w i d w' := by
  unfold stepCall at h
  cases hpc : w.calls i with
  | called o =>
    simp only [hpc, Option.some.injEq] at h
    exact h ▸ .get o hpc
  | got o rdValue =>
    simp only [hpc] at h
    cases hcall : accessDataCall E w.enclaveUp o.op rdValue o.value d with
    | ok updatedVal =>
      simp only [hcall, Option.some.injEq] at h
      exact h ▸ .compute o rdValue updatedVal hpc hcall
    | error f =>
      cases f with
      | abort =>
        simp only [hcall, Option.some.injEq] at h
        exact h ▸ .abort o rdValue hpc hcall
      | overflow =>
        simp only [hcall] at h
        cases h
  | computed o updatedVal =>
    simp only [hpc, Option.some.injEq] at h
    exact h ▸ .put o updatedVal hpc
  | stored o updatedVal =>
    simp only [hpc, Option.some.injEq] at h
    exact h ▸ .ret o updatedVal hpc
  | idle => simp only [hpc] at h; cases h
  | returned o reply => simp only [hpc] at h; cases h

section Next

variable {i : ℕ} {o : Operation} {d : Draw}

theorem next_call (h : w.calls i = .idle) : next E w (.call i o) = some (w.goto i (.called o)) := by
  simp only [next, h]

theorem next_get (h : w.calls i = .called o) :
    next E w (.step i d) = some (w.goto i (.got o (get w.db o.key))) := by
  simp only [next, stepCall, h]

theorem next_compute {rdValue updatedVal : Bytes} (h : w.calls i = .got o rdValue)
    (hcall : accessDataCall E w.enclaveUp o.op rdValue o.value d = .ok updatedVal) :
    next E w (.step i d) = some (w.goto i (.computed o updatedVal)) := by
  simp only [next, stepCall, h, hcall]

theorem next_put {updatedVal : Bytes} (h : w.calls i = .computed o updatedVal) :
    next E w (.step i d) =
      some ({ w with db := put w.db o.key updatedVal }.goto i (.stored o updatedVal)) := by
  simp only [next, stepCall, h]

theorem next_ret {updatedVal : Bytes} (h : w.calls i = .stored o updatedVal) :
    next E w (.step i d) = some (w.goto i (.returned o updatedVal)) := by
  simp only [next, stepCall, h]

end Next

/-- A call that runs alone does what `access` does. -/
theorem run_alone {i : ℕ} {o : Operation} {d : Draw} {h : World} {reply : Bytes}
    (hidle : w.calls i = .idle) (haccess : access E ⟨w.db, w.enclaveUp⟩ o d = some (h, reply))
    (hup : h.enclaveUp = true) : run (next E) w (.call i o :: List.replicate 4 (.step i d)) =
      some ({ w with db := h.db }.goto i (.returned o reply)) := by
  cases hcall : accessDataCall E w.enclaveUp o.op (get w.db o.key) o.value d with
  | ok updatedVal =>
    simp only [access, hcall, Option.some.injEq, Prod.mk.injEq] at haccess
    obtain ⟨rfl, rfl⟩ := haccess
    simp only [List.replicate, run_cons, run_nil, next, stepCall, hidle, hcall, goto_calls_self,
      goto_goto, goto_db, goto_enclaveUp, Option.bind_some]
    simp [State.goto]
  | error f =>
    cases f with
    | abort =>
      simp only [access, hcall, Option.some.injEq, Prod.mk.injEq] at haccess
      rw [← haccess.1] at hup
      cases hup
    | overflow => simp [access, hcall] at haccess

/-! ### The condition on a run -/

/-- The ecall of a step succeeds. -/
def EcallsSucceed (E : Cipher) (w : State) : Act → Prop
  | .call _ _ => True
  | .step i d =>
    match w.calls i with
    | .got o rdValue =>
      ∃ updatedVal, accessDataCall E w.enclaveUp o.op rdValue o.value d = .ok updatedVal
    | _ => True

/-- A PUT re-encrypts a value that is no longer than what it has read, and it
writes while no GET of its key is between its `get` and its `put`. -/
def Undisturbed (E : Cipher) (w : State) : Act → Prop
  | .call _ _ => True
  | .step i d =>
    match w.calls i with
    | .got o rdValue => o.op ≠ .get → ∀ v, decryptNonDeterministic E o.value = .ok v →
      (encryptNonDeterministic E v d.suffix).length ≤ rdValue.length
    | .computed o _ => o.op ≠ .get → ∀ j o', (w.calls j).between = some o' → o'.key = o.key →
      o'.op ≠ .get
    | _ => True

/-- A ciphertext of `v`. -/
def IsCipher (E : Cipher) (v c : Bytes) : Prop := ∃ s, c = encryptNonDeterministic E v s

theorem IsCipher.opens {v c : Bytes} (h : IsCipher E v c) (hv : Storable v) :
    decryptNonDeterministic E c = .ok v := by
  obtain ⟨s, rfl⟩ := h
  exact decrypt_storable hv s

/-- A GET that has read a ciphertext of `v` computes another. -/
theorem isCipher_of_get {up : Bool} {v rdValue updateVal out : Bytes} {d : Draw} (hv : Storable v)
    (hrd : IsCipher E v rdValue)
    (h : accessDataCall E up .get rdValue updateVal d = .ok out) : IsCipher E v out := by
  obtain ⟨u, hu, -, rfl⟩ := accessDataCall_inv h
  rw [if_pos rfl, hrd.opens hv, Except.ok.injEq] at hu
  subst hu
  obtain ⟨s, rfl⟩ := hrd
  exact ⟨d.suffix, outVal_eq d (by rw [encryptNonDeterministic_length, encryptNonDeterministic_length])⟩

/-- A PUT of `v` computes a ciphertext of `v`. -/
theorem isCipher_of_put {up : Bool} {op : OpType} {v rdValue updateVal out : Bytes} {d : Draw}
    (hop : op ≠ .get) (hv : decryptNonDeterministic E updateVal = .ok v)
    (hlen : (encryptNonDeterministic E v d.suffix).length ≤ rdValue.length)
    (h : accessDataCall E up op rdValue updateVal d = .ok out) : Storable v ∧ IsCipher E v out := by
  obtain ⟨u, hu, hus, rfl⟩ := accessDataCall_inv h
  rw [if_neg hop, hv, Except.ok.injEq] at hu
  subst hu
  exact ⟨hus, d.suffix, outVal_eq d hlen⟩

/-! ### Before and after the PUT has written -/

/-- A call on the key is a GET that has read a ciphertext of `v`, or will. -/
def CallKept (E : Cipher) (key v : Bytes) : Pc → Prop
  | .called o => o.key = key → o.op = .get
  | .got o rdValue => o.key = key → o.op = .get ∧ IsCipher E v rdValue
  | .computed o updatedVal => o.key = key → o.op = .get ∧ IsCipher E v updatedVal
  | _ => True

/-- The entry of the key is a ciphertext of `v`, and will be. -/
structure Kept (E : Cipher) (key v : Bytes) (w : State) : Prop where
  storable : Storable v
  entry : IsCipher E v (get w.db key)
  calls : ∀ j, CallKept E key v (w.calls j)

/-- Call `p`, the PUT `o` of `v`, has not written yet, and the other calls on
its key are GETs. -/
structure Before (E : Cipher) (p : ℕ) (o : Operation) (v : Bytes) (w : State) : Prop where
  put : w.calls p = .called o ∨ (∃ rdValue, w.calls p = .got o rdValue) ∨
    ∃ updatedVal, w.calls p = .computed o updatedVal ∧ Storable v ∧ IsCipher E v updatedVal
  others : ∀ j o', j ≠ p → (w.calls j).running = some o' → o'.key = o.key → o'.op = .get

theorem get_put_self (db : Db) (key value : Bytes) : get (put db key value) key = value := by
  rw [get, put, Function.update_self]
  rfl

theorem get_put_ne (db : Db) {key key' : Bytes} (value : Bytes) (h : key' ≠ key) :
    get (put db key value) key' = get db key' := by
  rw [get, put, Function.update_of_ne h, get]

/-- When the ecalls succeed no step is an `abort`. -/
theorem not_abort {i : ℕ} {d : Draw} {o : Operation} {rdValue : Bytes} (hpc : w.calls i = .got o rdValue)
    (hecall : EcallsSucceed E w (.step i d))
    (h : accessDataCall E w.enclaveUp o.op rdValue o.value d = .error .abort) : False := by
  simp only [EcallsSucceed, hpc] at hecall
  obtain ⟨u, hu⟩ := hecall
  rw [hu] at h
  cases h

section Steps

variable {key v : Bytes} {p : ℕ} {o : Operation}

/-- What moving one call takes. -/
theorem callKept_goto {i : ℕ} {pc : Pc} (h : ∀ j, CallKept E key v (w.calls j))
    (hpc : CallKept E key v pc) (j : ℕ) : CallKept E key v ((w.goto i pc).calls j) := by
  by_cases hj : j = i
  · rw [hj, goto_calls_self]
    exact hpc
  · rw [goto_calls_ne _ _ _ hj]
    exact h j

/-- What is written to the key from then on is a ciphertext of `v`. -/
theorem Kept.step {a : Act} (h : Kept E key v w) (hecall : EcallsSucceed E w a)
    (hlater : ∀ j o, a = .call j o → o.key = key → o.op = .get) (hnext : next E w a = some w') :
    Kept E key v w' := by
  cases a with
  | call i o =>
    simp only [next] at hnext
    split at hnext
    · rw [Option.some.injEq] at hnext
      subst hnext
      exact ⟨h.storable, h.entry, callKept_goto h.calls (hlater i o rfl)⟩
    · cases hnext
  | step i d =>
    have hi := h.calls i
    cases callStep_of_stepCall hnext with
    | get o hpc =>
      rw [hpc] at hi
      exact ⟨h.storable, h.entry, callKept_goto h.calls fun hk => ⟨hi hk, hk ▸ h.entry⟩⟩
    | compute o rdValue updatedVal hpc hcall =>
      rw [hpc] at hi
      refine ⟨h.storable, h.entry, callKept_goto h.calls fun hk => ?_⟩
      obtain ⟨hop, hrd⟩ := hi hk
      rw [hop] at hcall
      exact ⟨hop, isCipher_of_get h.storable hrd hcall⟩
    | abort o rdValue hpc hcall => exact (not_abort hpc hecall hcall).elim
    | put o updatedVal hpc =>
      rw [hpc] at hi
      refine ⟨h.storable, ?_, callKept_goto (w := { w with db := put w.db o.key updatedVal }) h.calls trivial⟩
      rw [goto_db]
      by_cases hk : o.key = key
      · rw [hk, get_put_self]
        exact (hi hk).2
      · rw [get_put_ne _ _ (Ne.symm hk)]
        exact h.entry
    | ret o updatedVal hpc => exact ⟨h.storable, h.entry, callKept_goto h.calls trivial⟩

/-- A GET that the client makes once the value is kept answers a ciphertext
of it. -/
theorem Kept.reply {a : Act} {j : ℕ} (h : Kept E key v w) (hecall : EcallsSucceed E w a)
    (hj : ∀ o u, w.calls j = .stored o u ∨ w.calls j = .returned o u → o.key = key → IsCipher E v u)
    (hnext : next E w a = some w') :
    ∀ o u, w'.calls j = .stored o u ∨ w'.calls j = .returned o u → o.key = key → IsCipher E v u := by
  have hmove : ∀ {w1 : State} {i : ℕ} {pc : Pc}, w1.calls = w.calls →
      (j = i → ∀ o u, pc = .stored o u ∨ pc = .returned o u → o.key = key → IsCipher E v u) →
      ∀ o u, (w1.goto i pc).calls j = .stored o u ∨ (w1.goto i pc).calls j = .returned o u →
        o.key = key → IsCipher E v u := by
    intro w1 i pc hcalls hpc
    by_cases hji : j = i
    · rw [hji, goto_calls_self]
      exact hpc hji
    · rw [goto_calls_ne _ _ _ hji, hcalls]
      exact hj
  cases a with
  | call i o =>
    simp only [next] at hnext
    split at hnext
    · rw [Option.some.injEq] at hnext
      subst hnext
      exact hmove rfl (by simp)
    · cases hnext
  | step i d =>
    have hi := h.calls i
    cases callStep_of_stepCall hnext with
    | get o hpc => exact hmove rfl (by simp)
    | compute o rdValue updatedVal hpc hcall => exact hmove rfl (by simp)
    | abort o rdValue hpc hcall => exact (not_abort hpc hecall hcall).elim
    | put o updatedVal hpc =>
      rw [hpc] at hi
      refine hmove rfl fun _ o' u hu hk => ?_
      obtain ⟨rfl, rfl⟩ := Pc.stored.inj (hu.resolve_right (by simp))
      exact (hi hk).2
    | ret o updatedVal hpc =>
      refine hmove rfl fun hji o' u hu hk => ?_
      obtain ⟨rfl, rfl⟩ := Pc.returned.inj (hu.resolve_left (by simp))
      exact hj o updatedVal (Or.inl (hji ▸ hpc)) hk

/-- Until it writes, the PUT is on its way; and when it writes, no GET is in
between to write the old value after it. -/
theorem Before.step {a : Act} (h : Before E p o v w) (hput : o.op ≠ .get)
    (hv : decryptNonDeterministic E o.value = .ok v) (hecall : EcallsSucceed E w a)
    (hquiet : Undisturbed E w a) (hlater : ∀ j o', a = .call j o' → o'.key = o.key → o'.op = .get)
    (hnext : next E w a = some w') : Before E p o v w' ∨ Kept E o.key v w' := by
  have hkeep : ∀ {w1 : State} {i : ℕ} {pc : Pc}, w1.calls = w.calls → i ≠ p →
      (∀ o', pc.running = some o' → o'.key = o.key → o'.op = .get) → Before E p o v (w1.goto i pc) := by
    intro w1 i pc hcalls hip hpc
    refine ⟨by rw [goto_calls_ne _ _ _ (Ne.symm hip), hcalls]; exact h.put, fun j o' hj ho' => ?_⟩
    by_cases hji : j = i
    · rw [hji, goto_calls_self] at ho'
      exact hpc o' ho'
    · rw [goto_calls_ne _ _ _ hji, hcalls] at ho'
      exact h.others j o' hj ho'
  have hmove : ∀ {pc : Pc}, ((∃ rdValue, pc = .got o rdValue) ∨
      ∃ updatedVal, pc = .computed o updatedVal ∧ Storable v ∧ IsCipher E v updatedVal) →
      Before E p o v (w.goto p pc) := by
    intro pc hpc
    refine ⟨by rw [goto_calls_self]; exact Or.inr hpc, fun j o' hj ho' => ?_⟩
    rw [goto_calls_ne _ _ _ hj] at ho'
    exact h.others j o' hj ho'
  cases a with
  | call i o' =>
    simp only [next] at hnext
    split at hnext
    · rename_i hpc
      rw [Option.some.injEq] at hnext
      subst hnext
      have hip : i ≠ p := by
        rintro rfl
        rcases h.put with hp | ⟨_, hp⟩ | ⟨_, hp, -⟩ <;> rw [hpc] at hp <;> cases hp
      refine Or.inl (hkeep rfl hip fun o'' ho'' => ?_)
      rw [← Option.some.inj ho'']
      exact hlater i o' rfl
    · cases hnext
  | step i d =>
    by_cases hip : i = p
    · subst hip
      cases callStep_of_stepCall hnext with
      | get o' hpc =>
        have ho : o' = o := by
          rcases h.put with hp | ⟨_, hp⟩ | ⟨_, hp, -⟩ <;> rw [hpc] at hp <;> cases hp
          rfl
        exact Or.inl (hmove (Or.inl ⟨_, by rw [ho]⟩))
      | compute o' rdValue updatedVal hpc hcall =>
        have ho : o' = o := by
          rcases h.put with hp | ⟨_, hp⟩ | ⟨_, hp, -⟩ <;> rw [hpc] at hp <;> cases hp
          rfl
        subst ho
        simp only [Undisturbed, hpc] at hquiet
        exact Or.inl (hmove (Or.inr ⟨_, rfl, isCipher_of_put hput hv (hquiet hput v hv) hcall⟩))
      | abort o' rdValue hpc hcall => exact (not_abort hpc hecall hcall).elim
      | put o' updatedVal hpc =>
        obtain ⟨rfl, hstorable, hcipher⟩ : o' = o ∧ Storable v ∧ IsCipher E v updatedVal := by
          rcases h.put with hp | ⟨_, hp⟩ | ⟨_, hp, hs, hc⟩ <;> rw [hpc] at hp <;> cases hp
          exact ⟨rfl, hs, hc⟩
        simp only [Undisturbed, hpc] at hquiet
        refine Or.inr ⟨hstorable, by rw [goto_db, get_put_self]; exact hcipher, fun j => ?_⟩
        by_cases hj : j = i
        · rw [hj, goto_calls_self]
          trivial
        · rw [goto_calls_ne _ _ _ hj]
          -- a GET that has read would be between its `get` and its `put`
          have hothers := h.others j
          have hbetween := hquiet hput j
          change CallKept E o'.key v (w.calls j)
          cases hpj : w.calls j with
          | called o2 => exact fun hk => hothers o2 hj (by rw [hpj]; rfl) hk
          | got o2 rdValue =>
            exact fun hk => absurd (hothers o2 hj (by rw [hpj]; rfl) hk)
              (hbetween o2 (by rw [hpj]; rfl) hk)
          | computed o2 u =>
            exact fun hk => absurd (hothers o2 hj (by rw [hpj]; rfl) hk)
              (hbetween o2 (by rw [hpj]; rfl) hk)
          | _ => trivial
      | ret o' updatedVal hpc =>
        rcases h.put with hp | ⟨_, hp⟩ | ⟨_, hp, -⟩ <;> rw [hpc] at hp <;> cases hp
    · have hrun : ∀ {pc pc' : Pc}, w.calls i = pc → pc'.running = pc.running →
          ∀ o', pc'.running = some o' → o'.key = o.key → o'.op = .get :=
        fun hpc hsame o' ho' => h.others i o' hip (by rw [hpc, ← hsame, ho'])
      cases callStep_of_stepCall hnext with
      | get o' hpc => exact Or.inl (hkeep rfl hip (hrun hpc rfl))
      | compute o' rdValue updatedVal hpc hcall => exact Or.inl (hkeep rfl hip (hrun hpc rfl))
      | abort o' rdValue hpc hcall => exact (not_abort hpc hecall hcall).elim
      | put o' updatedVal hpc => exact Or.inl (hkeep rfl hip (hrun hpc rfl))
      | ret o' updatedVal hpc => exact Or.inl (hkeep rfl hip (by simp [Pc.running]))

/-! ### Runs -/

/-- What the steps after the PUT has been called are assumed to be. -/
def Steady (E : Cipher) (key : Bytes) (w : State) (a : Act) : Prop :=
  (EcallsSucceed E w a ∧ Undisturbed E w a) ∧ ∀ j o, a = .call j o → o.key = key → o.op = .get

theorem before_or_kept {as : List Act} (h : Before E p o v w) (hput : o.op ≠ .get)
    (hv : decryptNonDeterministic E o.value = .ok v) (hC : Along (next E) (Steady E o.key) w as)
    (hrun : run (next E) w as = some w') : Before E p o v w' ∨ Kept E o.key v w' := by
  refine run_inv (next E) (fun _ w => Before E p o v w ∨ Kept E o.key v w) (Or.inl h) ?_ hC hrun
  rintro _ w a w' - (hb | hk) ⟨⟨hecall, hquiet⟩, hlater⟩ hnext
  · exact hb.step hput hv hecall hquiet hlater hnext
  · exact Or.inr (hk.step hecall hlater hnext)

theorem not_before {reply : Bytes} (h : Before E p o v w) : w.calls p ≠ .returned o reply := by
  intro hr
  rcases h.put with hp | ⟨_, hp⟩ | ⟨_, hp, -⟩ <;> rw [hr] at hp <;> cases hp

theorem replies_run {as : List Act} {j : ℕ} (h : Kept E key v w) (hidle : w.calls j = .idle)
    (hC : Along (next E) (Steady E key) w as) (hrun : run (next E) w as = some w') :
    ∀ o u, w'.calls j = .stored o u ∨ w'.calls j = .returned o u → o.key = key → IsCipher E v u := by
  refine (run_inv (next E) (fun _ w => Kept E key v w ∧ ∀ o u,
    w.calls j = .stored o u ∨ w.calls j = .returned o u → o.key = key → IsCipher E v u)
    ⟨h, fun o u hu => by simp [hidle] at hu⟩ ?_ hC hrun).2
  rintro _ w a w' - ⟨hk, hj⟩ ⟨⟨hecall, -⟩, hlater⟩ hnext
  exact ⟨hk.step hecall hlater hnext, hk.reply hecall hj hnext⟩

end Steps

/-- A PUT of `v` that has returned, and that no other PUT of its key overlaps
or follows, is not lost, if no GET of the key is between its `get` and its
`put` when the PUT writes: the entry is a ciphertext of `v`, and so is what a
GET returns that is called later. -/
theorem put_survives (E : Cipher) (db : Db) {pre post : List Act} {p : ℕ} {o : Operation} {v : Bytes}
    {w0 w : State} {reply : Bytes} (hpre : run (next E) (initial db) pre = some w0)
    (hrun : run (next E) (initial db) (pre ++ .call p o :: post) = some w) (hput : o.op ≠ .get)
    (hv : decryptNonDeterministic E o.value = .ok v)
    (halone : ∀ j o', (w0.calls j).running = some o' → o'.key = o.key → o'.op = .get)
    (hlater : ∀ j o', .call j o' ∈ post → o'.key = o.key → o'.op = .get)
    (hcond : Along (next E) (fun w a => EcallsSucceed E w a ∧ Undisturbed E w a) (initial db)
      (pre ++ .call p o :: post)) (hreturned : w.calls p = .returned o reply) :
    (IsCipher E v (get w.db o.key) ∧ decryptNonDeterministic E (get w.db o.key) = .ok v) ∧
    ∀ mid j o' rest w1 r r', post = mid ++ .call j o' :: rest →
      run (next E) (initial db) (pre ++ .call p o :: mid) = some w1 → w1.calls p = .returned o r →
      o'.key = o.key → w.calls j = .returned o' r' →
      IsCipher E v r' ∧ decryptNonDeterministic E r' = .ok v := by
  -- the state just after the call of the PUT
  obtain ⟨w0', w2, hpre', hcall, hrest⟩ := run_split (next E) hrun
  rw [hpre, Option.some.injEq] at hpre'
  subst hpre'
  have hsteady : Along (next E) (Steady E o.key) w2 post :=
    (((along_append (next E)).mp hcond).2 w0 hpre).2 w2 hcall |>.and _
      (along_of_forall (next E) w2 fun a ha j o' hact hk => hlater j o' (hact ▸ ha) hk)
  have hbefore : Before E p o v w2 := by
    simp only [next] at hcall
    split at hcall
    · rw [Option.some.injEq] at hcall
      subst hcall
      refine ⟨Or.inl (goto_calls_self _ _ _), fun j o' hj ho' => ?_⟩
      rw [goto_calls_ne _ _ _ hj] at ho'
      exact halone j o' ho'
    · cases hcall
  have hkept : ∀ {as : List Act} {w' : State} {r : Bytes}, Along (next E) (Steady E o.key) w2 as →
      run (next E) w2 as = some w' → w'.calls p = .returned o r → Kept E o.key v w' :=
    fun hC hrun' hr => (before_or_kept hbefore hput hv hC hrun').resolve_left fun hb => not_before hb hr
  have hfinal := hkept hsteady hrest hreturned
  refine ⟨⟨hfinal.entry, hfinal.entry.opens hfinal.storable⟩, ?_⟩
  rintro mid j o' rest w1 r r' rfl hmid hr hk hj
  obtain ⟨w0', w2', hpre', hcall', hmid'⟩ := run_split (next E) hmid
  rw [hpre, Option.some.injEq] at hpre'
  subst hpre'
  rw [hcall, Option.some.injEq] at hcall'
  subst hcall'
  obtain ⟨hmidC, hrestC⟩ := (along_append (next E)).mp hsteady
  have hk1 := hkept hmidC hmid' hr
  have hrun1 : run (next E) w1 (.call j o' :: rest) = some w := by
    rw [run_append, hmid'] at hrest
    exact hrest
  have hidle : w1.calls j = .idle := by
    rw [run_cons] at hrun1
    cases hpc : w1.calls j <;> simp [next, hpc] at hrun1
    rfl
  have hcipher := replies_run hk1 hidle (hrestC w1 hmid') hrun1 o' r' (Or.inr hj) hk
  exact ⟨hcipher, hcipher.opens hk1.storable⟩

/-! ### A PUT that is undone -/

section Undone

def two : Bytes := [50]

def cipherOf (v : Bytes) : Bytes := encryptNonDeterministic plainCipher v zeroSuffix

def putTwo : Operation := ⟨.put, key0, cipherOf two⟩

def getKey : Operation := ⟨.get, key0, []⟩

theorem call_putTwo : accessDataCall plainCipher true .put (cipherOf one) (cipherOf two) plainDraw =
    .ok (cipherOf two) := by decide

theorem call_getKey : accessDataCall plainCipher true .get (cipherOf one) [] plainDraw =
    .ok (cipherOf one) := by decide

theorem get_dbOf_one : get (dbOf one) key0 = cipherOf one := rfl

/-- The PUT alone. -/
def putRun : List Act := .call 1 putTwo :: List.replicate 4 (.step 1 plainDraw)

/-- The GET reads, the PUT is called, runs and returns, and the GET writes. -/
def undoRun : List Act :=
  [.call 0 getKey, .step 0 plainDraw] ++ putRun ++ [.step 0 plainDraw, .step 0 plainDraw]

/-- The steps of the PUT from a state in which no other call is between its
`get` and its `put`. -/
theorem run_putRun {w : State} (hdb : get w.db key0 = cipherOf one) (hup : w.enclaveUp = true)
    (hidle : w.calls 1 = .idle) (hquiet : ∀ j, (w.calls j).between = none) :
    ∃ w', (run (next plainCipher) w putRun = some w' ∧
      Along (next plainCipher) (fun w a => EcallsSucceed plainCipher w a ∧ Undisturbed plainCipher w a)
        w putRun) ∧ w'.calls 1 = .returned putTwo (cipherOf two) := by
  have hcall : accessDataCall plainCipher w.enclaveUp .put (get w.db key0) (cipherOf two) plainDraw =
      .ok (cipherOf two) := by rw [hdb, hup]; exact call_putTwo
  refine ⟨_, run_along_cons _ ⟨trivial, trivial⟩ (next_call hidle) <|
    run_along_cons _ ?_ (next_get (goto_calls_self _ _ _)) <|
    run_along_cons _ ?_ (next_compute (goto_calls_self _ _ _) hcall) <|
    run_along_cons _ ?_ (next_put (goto_calls_self _ _ _)) <|
    run_along_cons _ ?_ (next_ret (goto_calls_self _ _ _)) ⟨rfl, trivial⟩, goto_calls_self _ _ _⟩
  · simp [EcallsSucceed, Undisturbed]
  · refine ⟨?_, ?_⟩
    · simp only [EcallsSucceed, goto_calls_self]
      exact ⟨_, hcall⟩
    · simp only [Undisturbed, goto_calls_self]
      intro _ v hv
      have hv2 : decryptNonDeterministic plainCipher putTwo.value = .ok two :=
        decrypt_storable ⟨by decide, by decide⟩ zeroSuffix
      rw [hv2, Except.ok.injEq] at hv
      subst hv
      have hread : get ((w.goto 1 (.called putTwo)).db) putTwo.key = cipherOf one := hdb
      rw [hread, cipherOf, encryptNonDeterministic_length, encryptNonDeterministic_length]
      decide
  · refine ⟨by simp [EcallsSucceed], ?_⟩
    simp only [Undisturbed, goto_calls_self]
    intro _ j o' hj hk
    by_cases h1 : j = 1
    · rw [h1, goto_calls_self] at hj
      rw [← Option.some.inj hj]
      decide
    · rw [goto_calls_ne _ _ _ h1, goto_calls_ne _ _ _ h1, goto_calls_ne _ _ _ h1, hquiet] at hj
      cases hj
  · simp [EcallsSucceed, Undisturbed]

theorem put_survives_alone : ∃ w, run (next plainCipher) (initial (dbOf one)) putRun = some w ∧
    decryptNonDeterministic plainCipher (get w.db key0) = .ok two := by
  obtain ⟨w, ⟨hrun, hcond⟩, hreturned⟩ :=
    run_putRun (w := initial (dbOf one)) get_dbOf_one rfl rfl fun _ => rfl
  have hpre : run (next plainCipher) (initial (dbOf one)) [] = some (initial (dbOf one)) := rfl
  refine ⟨w, hrun, (put_survives plainCipher (dbOf one) hpre hrun (by decide)
    (decrypt_storable ⟨by decide, by decide⟩ zeroSuffix) ?_ (by simp) hcond hreturned).1.2⟩
  intro j o' ho'
  cases ho'

theorem next_step_of_got {w : State} {i : ℕ} {o : Operation} {out : Bytes}
    (h : w.calls i = .got o (cipherOf one)) (hup : w.enclaveUp = true)
    (hcall : accessDataCall plainCipher true o.op (cipherOf one) o.value plainDraw = .ok out) :
    next plainCipher w (.step i plainDraw) = some (w.goto i (.computed o out)) ∧
      EcallsSucceed plainCipher w (.step i plainDraw) := by
  rw [← hup] at hcall
  refine ⟨next_compute h hcall, ?_⟩
  simp only [EcallsSucceed, h]
  exact ⟨out, hcall⟩

/-- The PUT of "2" has returned, and the GET puts "1" back. -/
theorem get_undoes_put : ∃ w, (run (next plainCipher) (initial (dbOf one)) undoRun = some w ∧
    Along (next plainCipher) (EcallsSucceed plainCipher) (initial (dbOf one)) undoRun) ∧
    w.calls 1 = .returned putTwo (cipherOf two) ∧
    decryptNonDeterministic plainCipher putTwo.value = .ok two ∧
    decryptNonDeterministic plainCipher (get w.db key0) = .ok one := by
  have hget := fun w h hup => next_step_of_got (w := w) (i := 0) (o := getKey) h hup call_getKey
  have hput := fun w h hup => next_step_of_got (w := w) (i := 1) (o := putTwo) h hup call_putTwo
  have hne : (0 : ℕ) ≠ 1 := by decide
  refine ⟨_, run_along_cons _ trivial (next_call rfl) <|
    run_along_cons _ ?_ (next_get (goto_calls_self _ _ _)) <|
    run_along_cons _ trivial (next_call rfl) <|
    run_along_cons _ ?_ (next_get (goto_calls_self _ _ _)) <|
    run_along_cons _ (hput _ (goto_calls_self _ _ _) rfl).2 (hput _ (goto_calls_self _ _ _) rfl).1 <|
    run_along_cons _ ?_ (next_put (goto_calls_self _ _ _)) <|
    run_along_cons _ ?_ (next_ret (goto_calls_self _ _ _)) <|
    run_along_cons _ (hget _ rfl rfl).2 (hget _ rfl rfl).1 <|
    run_along_cons _ ?_ (next_put (goto_calls_self _ _ _)) ⟨rfl, trivial⟩, ?_, ?_, ?_⟩
  · simp [EcallsSucceed]
  · simp [EcallsSucceed]
  · simp [EcallsSucceed]
  · simp [EcallsSucceed]
  · simp [EcallsSucceed]
  · simp only [goto_calls_ne _ _ _ hne.symm, goto_calls_self]
  · exact decrypt_storable ⟨by decide, by decide⟩ zeroSuffix
  · rw [goto_db, show key0 = getKey.key from rfl, get_put_self]
    exact decrypt_storable ⟨by decide, by decide⟩ zeroSuffix

end Undone

end Requests
end Tee
end Ortoa

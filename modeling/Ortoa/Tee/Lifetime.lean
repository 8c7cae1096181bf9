/-
# The enclave's lifetime

There is one enclave for all requests. What `decrypt` cannot open ends in
`handle_errors`, and `abort()` takes the enclave down for good: from then on
no ecall succeeds, every request is answered with an empty string, and the
store stays as it is (`replies_down`). A GET of a key that is not in the store
is enough, because redis answers it with an empty string (`access_missing`);
so no later request is served as it would have been without the GET
(`unharmed_iff`).

Key definitions: `replies`, `Aborts`, `Unharmed`.
Key theorems: `replies_down`, `aborts_missing`, `unharmed_iff`.
-/
import Ortoa.Tee.Host

namespace Ortoa
namespace Tee

section Requests

variable (E : Cipher)

/-- The requests one after the other: what each is answered, and the store it
leaves. -/
def replies : World → List (Operation × Draw) → Option (List (Bytes × Db))
  | _, [] => some []
  | w, (o, d) :: rest =>
    match access E w o d with
    | some (w', reply) => (replies w' rest).map fun rs => (reply, w'.db) :: rs
    | none => none

/-- The value that the request has the enclave decrypt does not decrypt. -/
def Aborts (w : World) (o : Operation) : Prop :=
  decryptNonDeterministic E (if o.op = .get then get w.db o.key else o.value) = .error .abort

/-- The request leaves the store as it was, and the later ones are answered as
they are without it. -/
def Unharmed (w : World) (o : Operation) (d : Draw) (later : List (Operation × Draw)) : Prop :=
  ∃ w' reply, access E w o d = some (w', reply) ∧ w'.db = w.db ∧ replies E w' later = replies E w later

end Requests

variable {E : Cipher} {w : World}

/-- An enclave that is down. -/
theorem access_down (h : w.enclaveUp = false) (o : Operation) (d : Draw) :
    access E w o d = some (w, []) := by
  have hcall : accessDataCall E w.enclaveUp o.op (get w.db o.key) o.value d = .error .abort := by
    rw [h]
    rfl
  unfold access
  rw [hcall]
  simp only [Option.some.injEq, Prod.mk.injEq, and_true]
  rw [← h]

theorem replies_down (h : w.enclaveUp = false) : ∀ rs : List (Operation × Draw),
    replies E w rs = some (rs.map fun _ => ([], w.db))
  | [] => rfl
  | (o, d) :: rs => by
    unfold replies
    rw [access_down h o d]
    simp only
    rw [replies_down h rs]
    rfl

/-- A request that aborts takes the enclave down and changes nothing else. -/
theorem access_aborts {o : Operation} (d : Draw) (hup : w.enclaveUp = true) (h : Aborts E w o) :
    access E w o d = some ({ w with enclaveUp := false }, []) := by
  have hcall : accessDataCall E w.enclaveUp o.op (get w.db o.key) o.value d = .error .abort := by
    rw [hup]
    exact accessDataCall_abort.mpr h
  unfold access
  rw [hcall]

/-- Any other request that ends is answered with a ciphertext, which is never empty. -/
theorem access_reply_ne_nil {o : Operation} {d : Draw} {w' : World} {reply : Bytes}
    (hup : w.enclaveUp = true) (h : ¬ Aborts E w o) (haccess : access E w o d = some (w', reply)) :
    reply ≠ [] := by
  unfold access at haccess
  cases hcall : accessDataCall E w.enclaveUp o.op (get w.db o.key) o.value d with
  | ok updatedVal =>
    rw [hcall] at haccess
    obtain ⟨-, rfl⟩ := Prod.mk.inj (Option.some.inj haccess)
    obtain ⟨v, -, -, hout⟩ := accessDataCall_inv hcall
    have hlen := congrArg List.length hout
    rw [outVal, List.length_map, List.length_range, encryptNonDeterministic_length] at hlen
    intro hnil
    rw [hnil, List.length_nil] at hlen
    omega
  | error f =>
    rw [hcall] at haccess
    cases f with
    | overflow => cases haccess
    | abort =>
      rw [hup] at hcall
      exact absurd (accessDataCall_abort.mp hcall) h

/-- What redis answers for a missing key does not decrypt. -/
theorem aborts_missing {o : Operation} (hop : o.op = .get) (hkey : w.db o.key = none) :
    Aborts E w o := by
  have hget : get w.db o.key = [] := by rw [get, hkey]; rfl
  unfold Aborts
  rw [if_pos hop, hget]
  rfl

/-- A GET of a missing key leaves the later requests as they were if and only
if there are none, the enclave was down already, or the first of them takes it
down itself. -/
theorem unharmed_iff (E : Cipher) (w : World) {o : Operation} (d : Draw)
    (later : List (Operation × Draw)) (hop : o.op = .get) (hkey : w.db o.key = none) :
    Unharmed E w o d later ↔
      w.enclaveUp = false ∨ ∀ o1 d1 rest, later = (o1, d1) :: rest → Aborts E w o1 := by
  cases hup : w.enclaveUp with
  | false =>
    have hsame : Unharmed E w o d later := ⟨w, [], access_down hup o d, rfl, rfl⟩
    simp [hsame]
  | true =>
    have haccess := access_aborts d hup (aborts_missing (E := E) hop hkey)
    have hdown := replies_down (E := E) (w := { w with enclaveUp := false }) rfl later
    have hiff : Unharmed E w o d later ↔ replies E w later = some (later.map fun _ => ([], w.db)) := by
      unfold Unharmed
      rw [haccess]
      constructor
      · rintro ⟨w', reply, hw', -, hreplies⟩
        obtain ⟨rfl, -⟩ := Prod.mk.inj (Option.some.inj hw')
        rw [← hreplies, hdown]
      · intro hreplies
        exact ⟨_, _, rfl, rfl, by rw [hdown, hreplies]⟩
    rw [hiff]
    cases later with
    | nil => simp [replies]
    | cons r rest =>
      obtain ⟨o1, d1⟩ := r
      by_cases hab : Aborts E w o1
      · -- the first request is answered with the empty string, and then the enclave is down
        have hfirst : replies E w ((o1, d1) :: rest) =
            some (((o1, d1) :: rest).map fun _ => ([], w.db)) := by
          unfold replies
          rw [access_aborts d1 hup hab]
          simp only
          rw [replies_down rfl]
          rfl
        refine iff_of_true hfirst (Or.inr fun o2 d2 rest2 heq => ?_)
        rw [List.cons.injEq, Prod.mk.injEq] at heq
        rw [← heq.1.1]
        exact hab
      · refine iff_of_false (fun hreplies => ?_) (fun h => ?_)
        · unfold replies at hreplies
          cases ha : access E w o1 d1 with
          | none =>
            rw [ha] at hreplies
            cases hreplies
          | some r =>
            obtain ⟨w', reply⟩ := r
            rw [ha] at hreplies
            obtain ⟨rs, -, hrs⟩ := Option.map_eq_some_iff.mp hreplies
            rw [List.map_cons, List.cons.injEq, Prod.mk.injEq] at hrs
            exact access_reply_ne_nil hup hab ha hrs.1.1
        · rcases h with h | h
          · cases h
          · exact hab (h o1 d1 rest rfl)

/-- A second GET of the key does no more harm. -/
theorem unharmed_iff_twice : Unharmed plainCipher ⟨dbOf one, true⟩ ⟨.get, one, []⟩ plainDraw
    [(⟨.get, one, []⟩, plainDraw)] := by
  refine (unharmed_iff plainCipher _ plainDraw _ rfl rfl).mpr (Or.inr fun o1 d1 rest h => ?_)
  rw [List.cons.injEq, Prod.mk.injEq] at h
  rw [← h.1.1]
  exact aborts_missing rfl rfl

/-- A GET of the seeded key is answered with its ciphertext, but after a GET
of a missing key with the empty string. -/
theorem missing_get_takes_enclave_down : ∃ w', access plainCipher ⟨dbOf one, true⟩ ⟨.get, one, []⟩
      plainDraw = some (w', []) ∧
    access plainCipher ⟨dbOf one, true⟩ ⟨.get, key0, []⟩ plainDraw =
      some (⟨dbOf one, true⟩, encryptNonDeterministic plainCipher one zeroSuffix) ∧
    access plainCipher w' ⟨.get, key0, []⟩ plainDraw = some (w', []) := by
  refine ⟨_, access_aborts plainDraw rfl (aborts_missing rfl rfl), ?_, access_down rfl _ _⟩
  have hstored : get (dbOf one) key0 = encryptNonDeterministic plainCipher one zeroSuffix := rfl
  have hcall : accessDataCall plainCipher true .get (get (dbOf one) key0) [] plainDraw =
      .ok (encryptNonDeterministic plainCipher one zeroSuffix) := by decide
  unfold access
  simp only [hcall]
  rw [Option.some.injEq, Prod.mk.injEq]
  refine ⟨?_, rfl⟩
  rw [dbOf, put, put, Function.update_idem]

end Tee
end Ortoa

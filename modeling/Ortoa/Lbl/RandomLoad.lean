/-
# `clients.cpp`: the random load

The load generator draws a PUT or a GET of a random key, and gives it a
random value if it is a GET: `randGenOperation` tests for the wrong operation.
So every PUT puts the empty string. Behind a proxy whose value sizes are all
zero, as they are at its first start, no request of such clients is answered
with anything but the empty string, in any interleaving (`clients_read_nothing`);
and what the proxy saves has the same sizes, so that this goes on over its
restarts. `concurrent_benchmark.cpp` has the same generator in front of the
same `handleOp`.

Key definitions: `randGenOperation`, `Pc.Empty`, `Sizeless`.
Key theorems: `readValueFromLabels_length_le`, `clients_read_nothing`.
-/
import Ortoa.Lbl.ProxyAlone

namespace Ortoa
namespace Lbl
namespace Proxy

/-- What `rand` and `randombytes_buf` draw for an operation. -/
structure LoadDraw where
  /-- `r < 0.5`. -/
  isPut : Bool
  rand : ℕ
  /-- The drawn bytes up to their first zero. -/
  value : Bytes

/-- `randGenOperation`; a value that has not been set is the empty string. -/
def randGenOperation (cfg : Config) (d : LoadDraw) : Operation :=
  let op := if d.isPut then ascii ['P', 'U', 'T'] else ascii ['G', 'E', 'T']
  ⟨op, stdToString (d.rand % cfg.keyMax), if op = ascii ['G', 'E', 'T'] then d.value else []⟩

/-- It gives a value to the GETs alone. -/
theorem randGenOperation_value (cfg : Config) (d : LoadDraw)
    (h : (randGenOperation cfg d).isGet = false) : (randGenOperation cfg d).value = [] := by
  unfold Operation.isGet at h
  exact if_neg (of_decide_eq_false h)

variable {cfg : Config} {L : Libsodium} {w w' : World}

/-- A value read back is no longer than the size that is kept for its key. -/
theorem readValueFromLabels_length_le {g : Globals} {key labels value : Bytes} {uninit : UInt8}
    (h : readValueFromLabels cfg L g key labels uninit = .ok value) : value.length ≤ g.valueSizes key := by
  unfold readValueFromLabels at h
  simp only [bind, Except.bind] at h
  split at h
  · cases h
  · rw [← Except.ok.inj h]
    exact List.length_take_le _ _

/-- A call that writes carries the empty value, and a result is empty. -/
def Pc.Empty : Pc → Prop
  | .called op => op.isGet = false → op.value = []
  | .tested op path => path ≠ .get → op.value = []
  | .locked op path => path ≠ .get → op.value = []
  | .built op _ _ => op.value = []
  | .done _ _ result => result = []
  | .counted _ result => result = []
  | .returned _ result => result = []
  | _ => True

/-- No key has a value of any length, and no call has or will have one. -/
structure Sizeless (w : World) : Prop where
  sizes : ∀ key, w.globals.valueSizes key = 0
  calls : ∀ i, (w.calls i).Empty

/-- One call moves. -/
theorem Sizeless.move {i : ℕ} {pc : Pc} (h : Sizeless w) (hcalls : w'.calls = Function.update w.calls i pc)
    (hpc : pc.Empty) (hsizes : ∀ key, w'.globals.valueSizes key = 0) : Sizeless w' := by
  refine ⟨hsizes, fun j => ?_⟩
  rw [hcalls]
  by_cases hj : j = i
  · rw [hj, Function.update_self]
    exact hpc
  · rw [Function.update_of_ne hj]
    exact h.calls j

theorem Sizeless.callStep {i : ℕ} {d : Draw cfg} (h : Sizeless w) (hstep : CallStep cfg L w i d w') :
    Sizeless w' := by
  have hi := h.calls i
  cases hstep with
  | test op hpc =>
    rw [hpc] at hi
    refine h.move rfl (fun hne => hi ?_) h.sizes
    cases hget : op.isGet with
    | true => rw [hget] at hne; exact absurd rfl hne
    | false => rfl
  | testMissing op hpc => exact h.move rfl rfl h.sizes
  | testNew op hpc _ hput =>
    rw [hpc] at hi
    exact h.move rfl (fun _ => hi hput) h.sizes
  | lock op path hpc =>
    rw [hpc] at hi
    exact h.move rfl hi h.sizes
  | refuse op path hpc => exact h.move rfl rfl h.sizes
  | constructed op path hpc =>
    rw [hpc] at hi
    by_cases hp : path = .get
    · rw [if_pos hp]
      exact h.move rfl trivial h.sizes
    · rw [if_neg hp]
      exact h.move rfl (hi hp) h.sizes
  | tooLong op path hpc => exact h.move rfl trivial h.sizes
  | setSize op path entry hpc =>
    rw [hpc] at hi
    have hempty : op.value = [] := hi
    refine h.move rfl (by split <;> trivial) fun key => ?_
    change Function.update w.globals.valueSizes op.key op.value.length key = 0
    by_cases hk : key = op.key
    · rw [hk, Function.update_self, hempty]
      rfl
    · rw [Function.update_of_ne hk]
      exact h.sizes key
  | insertKey op path entry hpc => exact h.move rfl trivial h.sizes
  | sendCreate op entry hpc => exact h.move rfl rfl h.sizes
  | sendAccess op path entry hpc => exact h.move rfl trivial h.sizes
  | read op labels value hpc hread =>
    refine h.move rfl ?_ h.sizes
    have hle := readValueFromLabels_length_le hread
    rw [h.sizes] at hle
    exact List.length_eq_zero_iff.mp (Nat.le_zero.mp hle)
  | readFault op labels f hpc => exact h.move rfl trivial h.sizes
  | skipRead op path labels hpc => exact h.move rfl rfl h.sizes
  | count op path result hpc =>
    rw [hpc] at hi
    exact h.move rfl hi h.sizes
  | unlock op result hpc =>
    rw [hpc] at hi
    exact h.move rfl hi h.sizes

theorem Sizeless.step {a : Act cfg} (h : Sizeless w)
    (hcall : ∀ i op, a = .call i op → op.isGet = false → op.value = []) (ha : next cfg L w a = some w') :
    Sizeless w' := by
  cases nextStep_of_next ha with
  | call i op hpc => exact h.move rfl (hcall i op rfl) h.sizes
  | step i d _ hstep => exact h.callStep hstep
  | failReady i op path entry hpc => exact h.move rfl trivial h.sizes
  | failWaiting i op path hpc => exact h.move rfl trivial h.sizes
  | process n order horder m =>
    unfold serve
    split
    · exact ⟨h.sizes, h.calls⟩
    · split
      · unfold World.reply
        split
        · exact h.move rfl trivial h.sizes
        · exact ⟨h.sizes, h.calls⟩
      · exact ⟨h.sizes, h.calls⟩

/-- Whatever the load draws, and however its requests interleave and fail:
behind a proxy that has started with no sizes, every answer is the empty
string, and the proxy saves no sizes. -/
theorem clients_read_nothing (cfg : Config) (L : Libsodium) {file : Option Saved} {db : Db}
    (hfile : ∀ key, (opScureSetup cfg file).valueSizes key = 0) {as : List (Act cfg)}
    (hload : ∀ i op, .call i op ∈ as → ∃ d, op = randGenOperation cfg d)
    (hrun : run (next cfg L) (initial cfg file db) as = some w) :
    (∀ i op result, w.calls i = .returned op result → result = []) ∧
      ∀ key, (opScureSetup cfg (some (opScureCleanup w.globals))).valueSizes key = 0 := by
  have hI : Sizeless w := by
    refine run_inv (next cfg L) (fun _ w => Sizeless w) ?_ ?_
      (along_of_forall (next cfg L) _ (C := fun a => ∀ i op, a = .call i op → op.isGet = false → op.value = [])
        fun a ha i op hact hput => ?_) hrun
    · exact ⟨hfile, fun _ => trivial⟩
    · exact fun _ _ _ _ _ hS ha hnext => hS.step ha hnext
    · obtain ⟨d, rfl⟩ := hload i op (hact ▸ ha)
      exact randGenOperation_value cfg d hput
  refine ⟨fun i op result hi => ?_, hI.sizes⟩
  have := hI.calls i
  rw [hi] at this
  exact this

/-- A PUT of the key "0" by the load. -/
def drawnPut : Operation := randGenOperation constants ⟨true, 0, []⟩

theorem clients_read_nothing_put : ∃ w, run (next constants Libsodium.plain)
      (initial constants none fun _ => none)
      (.call 0 drawnPut :: List.replicate 8 (.step 0 (plainDraw _ [1]))) = some w ∧
    (∀ i op result, w.calls i = .returned op result → result = []) ∧
    ∀ key, (opScureSetup constants (some (opScureCleanup w.globals))).valueSizes key = 0 := by
  have hlock : (initial constants none fun _ => none).globals.locks drawnPut.key = some true := by
    rw [initial_locks]
    exact setupLocks_eq_true_iff.mpr ⟨0, by decide, rfl⟩
  have hrun := run_create (L := Libsodium.plain) (w := initial constants none fun _ => none) (i := 0)
    (plainDraw constants [1]) rfl rfl (by decide) hlock (by decide)
  refine ⟨_, hrun, clients_read_nothing constants Libsodium.plain (fun _ => rfl) ?_ hrun⟩
  intro i op hmem
  rcases List.mem_cons.mp hmem with hcall | hstep
  · obtain ⟨-, rfl⟩ := Act.call.inj hcall
    exact ⟨_, rfl⟩
  · cases List.eq_of_mem_replicate hstep

end Proxy
end Lbl
end Ortoa

/-
# A program of threads with a variable each

A `thread_local` variable exists once for each thread and is initialised, for
each in the same way, when the thread first comes to it. A call of thread `t`
is a function of the thread's own variable and an argument (`call`). However
the calls of the threads interleave, each thread sees what it would see alone
(`trace_filter`). If the argument has no say in what becomes of the variable,
what the `n`-th call of a thread gives depends on `n` and the argument only, and
not on the thread (`nthCall_iff`).

Key definitions: `call`, `trace`, `alone`, `NthCall`.
Key theorems: `trace_filter`, `nthCall_iff`, `exists_nthCalls`.
-/
import Mathlib.Logic.Function.Iterate
import Mathlib.Logic.Function.Basic

namespace Ortoa
namespace ThreadLocal

variable {τ σ α β : Type} [DecidableEq τ] (init : σ) (f : σ → α → β × σ)

/-- The threads' variables, `none` as long as a thread has not come to it. -/
abbrev Vars (τ σ : Type) := τ → Option σ

/-- The variable of thread `t`, initialised if need be. -/
def Vars.at (vars : Vars τ σ) (t : τ) : σ := (vars t).getD init

/-- Thread `t` calls the function. -/
def call (vars : Vars τ σ) (t : τ) (a : α) : β × Vars τ σ :=
  ((f (vars.at init t) a).1, Function.update vars t (some (f (vars.at init t) a).2))

/-- The calls of a run, each with its thread, its argument and its result. -/
def trace : Vars τ σ → List (τ × α) → List (τ × α × β)
  | _, [] => []
  | vars, (t, a) :: calls => (t, a, (call init f vars t a).1) :: trace (call init f vars t a).2 calls

/-- The calls of a single thread. -/
def alone : σ → List α → List (α × β)
  | _, [] => []
  | s, a :: as => (a, (f s a).1) :: alone (f s a).2 as

/-- The `n`-th call of thread `t`, counted from zero, has argument `a` and result `b`. -/
def NthCall (calls : List (τ × α)) (t : τ) (n : ℕ) (a : α) (b : β) : Prop :=
  ((trace init f (fun _ => none) calls).filter fun c => c.1 = t)[n]? = some (t, a, b)

/-- Whatever the others do, a thread sees what it would see alone. -/
theorem trace_filter (t : τ) : ∀ (vars : Vars τ σ) (calls : List (τ × α)),
    (trace init f vars calls).filter (fun c => c.1 = t) =
      (alone f (vars.at init t) ((calls.filter fun c => c.1 = t).map (·.2))).map (t, ·)
  | _, [] => rfl
  | vars, (u, a) :: calls => by
    have ih := trace_filter t (call init f vars u a).2 calls
    by_cases h : u = t
    · subst h
      have hvar : (call init f vars u a).2.at init u = (f (vars.at init u) a).2 := by
        simp [call, Vars.at]
      rw [hvar] at ih
      simpa [trace, alone, call] using ih
    · have hvar : (call init f vars u a).2.at init t = vars.at init t := by
        simp [call, Vars.at, Function.update_of_ne (Ne.symm h)]
      rw [hvar] at ih
      simp [trace, h, ih]

variable {init f} {g : σ → σ}

/-- The `n`-th call of a single thread, when the arguments have no say. -/
theorem alone_getElem? (hg : ∀ s a, (f s a).2 = g s) : ∀ (s : σ) (as : List α) (n : ℕ),
    (alone f s as)[n]? = as[n]?.map fun a => (a, (f (g^[n] s) a).1)
  | _, [], _ => rfl
  | _, _ :: _, 0 => rfl
  | s, a :: as, n + 1 => by
    have ih := alone_getElem? hg (f s a).2 as n
    rw [alone, List.getElem?_cons_succ, ih, hg, List.getElem?_cons_succ, Function.iterate_succ_apply]

/-- The `n`-th call of any thread. -/
theorem nthCall_iff (hg : ∀ s a, (f s a).2 = g s) {calls : List (τ × α)} {t : τ} {n : ℕ} {a : α} {b : β} :
    NthCall init f calls t n a b ↔
      ((calls.filter fun c => c.1 = t).map (·.2))[n]? = some a ∧ b = (f (g^[n] init) a).1 := by
  have hvar : Vars.at init (fun _ => none) t = init := rfl
  rw [NthCall, trace_filter, List.getElem?_map, alone_getElem? hg, hvar]
  simp only [Option.map_map, Option.map_eq_some_iff, Function.comp_apply, Prod.mk.injEq, true_and]
  constructor
  · rintro ⟨a', ha, rfl, hb⟩
    exact ⟨ha, hb.symm⟩
  · rintro ⟨ha, hb⟩
    exact ⟨a, ha, rfl, hb.symm⟩

/-- Any two threads can both make an `n`-th call with the argument `a`. -/
theorem exists_nthCalls (hg : ∀ s a, (f s a).2 = g s) (t u : τ) (n : ℕ) (a : α) :
    ∃ calls : List (τ × α), ∀ v, v = t ∨ v = u → NthCall init f calls v n a (f (g^[n] init) a).1 := by
  let calls : List (τ × α) := List.replicate (n + 1) (t, a) ++ List.replicate (n + 1) (u, a)
  refine ⟨calls, fun v hv => (nthCall_iff hg).mpr ⟨?_, rfl⟩⟩
  have hlen : n < ((calls.filter fun c => c.1 = v).map (·.2)).length := by
    rcases hv with rfl | rfl
    all_goals
      simp only [calls, List.filter_append, List.filter_replicate, decide_true, if_true,
        List.length_map, List.length_append, List.length_replicate]
      omega
  rw [List.getElem?_eq_getElem hlen, Option.some.injEq]
  have hmem := List.getElem_mem hlen
  simp only [calls, List.mem_map, List.mem_filter, List.mem_append, List.mem_replicate] at hmem
  obtain ⟨c, ⟨⟨-, hc⟩ | ⟨-, hc⟩, -⟩, hget⟩ := hmem
  all_goals
    rw [← hget, hc]

end ThreadLocal
end Ortoa

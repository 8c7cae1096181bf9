/-
# A call that runs undisturbed

What `handleOp` comes to when its statements follow each other without an
interleaving step of another call: the create path leaves a `create` message
in flight and the lock free (`run_create`); the GET path stops at its reply
with the lock taken (`run_get_sent`); a key whose lock is taken is given up (`run_refused`); a
value that does not fit ends the call with the lock taken (`run_tooLong`).

Key theorems: `run_create`, `run_get_sent`, `run_refused`, `run_tooLong`.
-/
import Ortoa.Lbl.Proxy

namespace Ortoa
namespace Lbl
namespace Proxy

variable {cfg : Config} {L : Libsodium} {w : World} {i : ℕ} {op : Operation}

theorem goto_goto (w : World) (i : ℕ) (pc pc' : Pc) : (w.goto i pc).goto i pc' = w.goto i pc' := by
  simp [World.goto]

theorem setGlobals_goto (w : World) (i : ℕ) (pc : Pc) (g : Globals) :
    (w.goto i pc).setGlobals g = (w.setGlobals g).goto i pc := rfl

theorem send_goto (w : World) (i : ℕ) (pc : Pc) (m : Message) :
    (w.goto i pc).send m = (w.send m).goto i pc := rfl

/-- A PUT that finds its key missing. -/
theorem run_test_missing (d : Draw cfg)
    (hidle : w.calls i = .idle) (hset : w.globals.keySet op.key = false) (hput : op.isGet = false) :
    run (next cfg L) w [.call i op, .step i d] = some (w.goto i (.tested op .create)) := by
  simp only [run_cons, run_nil, next, stepCall, hidle, hset, hput, goto_calls_self, goto_goto,
    goto_globals, Option.bind_some, Bool.false_eq_true, if_false]

/-- A PUT of a new key by a call that found it missing before. -/
theorem run_create_late (d : Draw cfg)
    (hpc : w.calls i = .tested op .create) (hlock : w.globals.locks op.key = some true)
    (hfits : op.value.length ≤ cfg.valueSize) :
    run (next cfg L) w (List.replicate 5 (.step i d)) =
      some ({ w with
        globals := (((w.globals.setLock op.key false).rekey op.key d.masterKey).setSize op.key
          op.value.length).insertKey op.key
        net := w.net ++ [(⟨i, .create, createEntry cfg L op.key op.value d⟩ : Message)] }.goto i
          (.done op .create [])) := by
  have hc : ∀ g, construct cfg L g op d .create =
      .ok (g.rekey op.key d.masterKey, createEntry cfg L op.key op.value d) :=
    fun g => construct_of_fits g d fun _ => hfits
  simp only [List.replicate, run_cons, run_nil, next, stepCall, hpc, hlock, hc, goto_calls_self,
    goto_goto, setGlobals_goto, send_goto, goto_globals, Option.bind_some, if_false, if_true,
    reduceCtorEq]
  simp [World.goto, World.setGlobals, World.send]

/-- A PUT of a new key, up to its message. -/
theorem run_create_sent (d : Draw cfg) (hidle : w.calls i = .idle)
    (hset : w.globals.keySet op.key = false) (hput : op.isGet = false)
    (hlock : w.globals.locks op.key = some true) (hfits : op.value.length ≤ cfg.valueSize) :
    run (next cfg L) w (.call i op :: List.replicate 6 (.step i d)) =
      some ({ w with
        globals := (((w.globals.setLock op.key false).rekey op.key d.masterKey).setSize op.key
          op.value.length).insertKey op.key
        net := w.net ++ [(⟨i, .create, createEntry cfg L op.key op.value d⟩ : Message)] }.goto i
          (.done op .create [])) := by
  rw [show (.call i op :: List.replicate 6 (.step i d) : List (Act cfg)) =
      [.call i op, .step i d] ++ List.replicate 5 (.step i d) from rfl,
    run_append, run_test_missing d hidle hset hput, Option.bind_some,
    run_create_late d (goto_calls_self _ _ _) hlock hfits]
  simp [World.goto]

/-- The last two statements of a call. -/
theorem run_finish (d : Draw cfg) {path : Path} {result : Bytes}
    (hpc : w.calls i = .done op path result) :
    run (next cfg L) w (List.replicate 2 (.step i d)) =
      some ({ w with
        globals := w.globals.setLock op.key true
        accesses := w.accesses + 1 }.goto i (.returned op result)) := by
  simp only [List.replicate, run_cons, run_nil, next, stepCall, hpc, goto_calls_self, Option.bind_some]
  simp [World.goto, World.setGlobals]

/-- A PUT of a new key. -/
theorem run_create (d : Draw cfg) (hidle : w.calls i = .idle)
    (hset : w.globals.keySet op.key = false) (hput : op.isGet = false)
    (hlock : w.globals.locks op.key = some true) (hfits : op.value.length ≤ cfg.valueSize) :
    run (next cfg L) w (.call i op :: List.replicate 8 (.step i d)) =
      some ({ w with
        globals := ((((w.globals.setLock op.key false).rekey op.key d.masterKey).setSize op.key
          op.value.length).insertKey op.key).setLock op.key true
        accesses := w.accesses + 1
        net := w.net ++ [(⟨i, .create, createEntry cfg L op.key op.value d⟩ : Message)] }.goto i
          (.returned op [])) := by
  rw [show (.call i op :: List.replicate 8 (.step i d) : List (Act cfg)) =
      (.call i op :: List.replicate 6 (.step i d)) ++ List.replicate 2 (.step i d) from rfl,
    run_append, run_create_sent d hidle hset hput hlock hfits, Option.bind_some,
    run_finish d (goto_calls_self _ _ _)]
  simp [World.goto]

/-- A GET of a key that exists, up to its reply. -/
theorem run_get_sent (d : Draw cfg) (hidle : w.calls i = .idle)
    (hset : w.globals.keySet op.key = true) (hget : op.isGet = true)
    (hlock : w.globals.locks op.key = some true) :
    run (next cfg L) w (.call i op :: List.replicate 4 (.step i d)) =
      some ({ w with
        globals := (w.globals.setLock op.key false).rekey op.key d.masterKey
        net := w.net ++ [(⟨i, .access,
          getEntry cfg L op.key (w.globals.masterKeys op.key) d⟩ : Message)] }.goto i
            (.waiting op .get)) := by
  have hc : ∀ g, construct cfg L g op d .get =
      .ok (g.rekey op.key d.masterKey, getEntry cfg L op.key (g.masterKeys op.key) d) :=
    fun g => construct_of_fits g d fun h => absurd rfl h
  simp only [List.replicate, run_cons, run_nil, next, stepCall, hidle, hset, hget, hlock, hc,
    goto_calls_self, goto_goto, setGlobals_goto, send_goto, goto_globals, Option.bind_some,
    if_false, if_true, reduceCtorEq]
  simp [World.goto, World.setGlobals, World.send, Globals.setLock]

/-- A call that finds the lock taken, or no lock. -/
theorem next_refuse (d : Draw cfg) {path : Path} (hpc : w.calls i = .tested op path)
    (hlock : w.globals.locks op.key ≠ some true) :
    next cfg L w (.step i d) = some ({ w with
      aborted := w.aborted + 1
      globals := w.globals.setLock op.key false }.goto i (.returned op [])) := by
  simp only [next, stepCall, hpc, if_neg hlock]

/-- A PUT of an existing key whose lock is taken. -/
theorem run_refused (d : Draw cfg) (hidle : w.calls i = .idle)
    (hset : w.globals.keySet op.key = true ∨ op.isGet = false)
    (hlock : w.globals.locks op.key ≠ some true) :
    run (next cfg L) w (.call i op :: List.replicate 2 (.step i d)) =
      some ({ w with
        globals := w.globals.setLock op.key false
        aborted := w.aborted + 1 }.goto i (.returned op [])) := by
  cases hkey : w.globals.keySet op.key with
  | true =>
    simp only [List.replicate, run_cons, run_nil, next, stepCall, hidle, hkey, hlock,
      goto_calls_self, goto_globals, goto_aborted, if_true, if_false, Option.bind_some]
    simp [World.goto]
  | false =>
    have hput : op.isGet = false := hset.resolve_left (by rw [hkey]; decide)
    simp only [List.replicate, run_cons, run_nil, next, stepCall, hidle, hkey, hput, hlock,
      goto_calls_self, goto_globals, goto_aborted, if_false, Bool.false_eq_true, Option.bind_some]
    simp [World.goto]

/-- A PUT of a new key with a value that does not fit. -/
theorem run_tooLong (d : Draw cfg) (hidle : w.calls i = .idle)
    (hset : w.globals.keySet op.key = false) (hput : op.isGet = false)
    (hlock : w.globals.locks op.key = some true) (hlong : cfg.valueSize < op.value.length) :
    run (next cfg L) w (.call i op :: List.replicate 3 (.step i d)) =
      some ((w.setGlobals (w.globals.setLock op.key false)).goto i (.threw op)) := by
  have hc : ∀ g, construct cfg L g op d .create = .error .lengthError :=
    fun g => constructCreateEntry_long cfg L g op.key d hlong
  simp only [List.replicate, run_cons, run_nil, next, stepCall, hidle, hset, hput, hlock, hc,
    goto_calls_self, goto_goto, setGlobals_goto, goto_globals, Option.bind_some,
    Bool.false_eq_true, if_false, if_true]

/-- The server processes a `create`. -/
theorem next_process_create {n : ℕ} {m : Message} {order : List ℕ}
    (horder : order.Perm (List.range cfg.serverNumThreads)) (hup : w.serverUp = true)
    (hm : w.net[n]? = some m) (hcreate : m.method = .create) :
    next cfg L w (.process n order horder) =
      some { w with net := w.net.eraseIdx n, db := create w.db m.entry } := by
  simp only [next, hup, if_true, hm, Option.map_some, serve, hcreate]

/-! ### Conditions along these runs -/

section Along

variable {C : World → Act cfg → Prop}

/-- A condition that holds while nothing is sent holds up to the message. -/
theorem along_create_sent (d : Draw cfg) (hidle : w.calls i = .idle)
    (hset : w.globals.keySet op.key = false) (hput : op.isGet = false)
    (hlock : w.globals.locks op.key = some true) (hfits : op.value.length ≤ cfg.valueSize)
    (hcall : C w (.call i op)) (hstep : ∀ w' : World, w'.net = w.net → C w' (.step i d)) :
    Along (next cfg L) C w (.call i op :: List.replicate 6 (.step i d)) := by
  have hc : ∀ g, construct cfg L g op d .create =
      .ok (g.rekey op.key d.masterKey, createEntry cfg L op.key op.value d) :=
    fun g => construct_of_fits g d fun _ => hfits
  simp only [List.replicate, Along, next, stepCall, hidle, hset, hput, hlock, hc, hcall,
    goto_calls_self, goto_goto, setGlobals_goto, send_goto, goto_globals, Option.some.injEq,
    forall_eq', Bool.false_eq_true, if_false, if_true, reduceCtorEq, true_and, and_true]
  exact ⟨hstep _ rfl, hstep _ rfl, hstep _ rfl, hstep _ rfl, hstep _ rfl, hstep _ rfl⟩

theorem along_finish (d : Draw cfg) {path : Path} {result : Bytes}
    (hpc : w.calls i = .done op path result)
    (hstep : ∀ w' : World, w'.net = w.net → C w' (.step i d)) :
    Along (next cfg L) C w (List.replicate 2 (.step i d)) :=
  ⟨hstep _ rfl, fun w' hw' => by
    simp only [next, stepCall, hpc, Option.some.injEq] at hw'
    subst hw'
    exact ⟨hstep _ rfl, fun _ _ => trivial⟩⟩

theorem along_get_sent (d : Draw cfg) (hidle : w.calls i = .idle)
    (hset : w.globals.keySet op.key = true) (hget : op.isGet = true)
    (hlock : w.globals.locks op.key = some true) (hcall : C w (.call i op))
    (hstep : ∀ w' : World, w'.net = w.net → C w' (.step i d)) :
    Along (next cfg L) C w (.call i op :: List.replicate 4 (.step i d)) := by
  have hc : ∀ g, construct cfg L g op d .get =
      .ok (g.rekey op.key d.masterKey, getEntry cfg L op.key (g.masterKeys op.key) d) :=
    fun g => construct_of_fits g d fun h => absurd rfl h
  simp only [List.replicate, Along, next, stepCall, hidle, hset, hget, hlock, hc, hcall,
    goto_calls_self, goto_goto, setGlobals_goto, send_goto, goto_globals, Option.some.injEq,
    forall_eq', if_false, if_true, reduceCtorEq, true_and, and_true]
  exact ⟨hstep _ rfl, hstep _ rfl, hstep _ rfl, hstep _ rfl⟩

theorem along_refused (d : Draw cfg) (hidle : w.calls i = .idle)
    (hset : w.globals.keySet op.key = true) (hcall : C w (.call i op))
    (hstep : ∀ w' : World, w'.net = w.net → C w' (.step i d)) :
    Along (next cfg L) C w (.call i op :: List.replicate 2 (.step i d)) := by
  simp only [List.replicate, Along, next, stepCall, hidle, hset, hcall, goto_calls_self,
    goto_goto, goto_globals, Option.some.injEq, forall_eq', if_true, true_and]
  exact ⟨hstep _ rfl, hstep _ rfl, fun _ _ => trivial⟩

end Along

end Proxy
end Lbl
end Ortoa

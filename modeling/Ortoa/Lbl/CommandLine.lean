/-
# `client.cpp`: the loop and its input

`parseOperation` reads a command word by word and never asks the stream whether
it could: where a word is missing, the string stays empty. So a command cut off
at the end is executed with empty strings, and behind the end stands one more
GET of the empty key, and one more, without end. The loop ends, having executed
the complete commands of its input and nothing else, if and only if they are
executed without an exception and the input has an `EXIT` where a command is
expected, or else the first operation that is made up ends in an exception
(`command_line_iff`).

Key definitions: `Cin`, `parseOperation`, `mainBody`, `splitCommands`.
Key theorems: `parseOperation_eq`, `command_line_iff`.
-/
import Ortoa.Lbl.Client
import Ortoa.Loop

namespace Ortoa
namespace Lbl
namespace CommandLine

open Client

/-! ### Reading commands -/

/-- `std::cin`: what has not been read, and whether no flag is up. -/
structure Cin where
  rest : Bytes
  good : Bool

/-- `std::cin >> s`. A stream that is not good, or has white space only, leaves
the string as it was; a word at the very end raises the eof flag. -/
def Cin.readString (cin : Cin) (s : Bytes) : Bytes × Cin :=
  if cin.good then
    if (readWord cin.rest).1 = [] then (s, ⟨[], false⟩)
    else ((readWord cin.rest).1, ⟨(readWord cin.rest).2, (readWord cin.rest).2 ≠ []⟩)
  else (s, cin)

/-- "EXIT". -/
def exitWord : Bytes := ascii ['E', 'X', 'I', 'T']

/-- "PUT". -/
def putWord : Bytes := ascii ['P', 'U', 'T']

/-- `parseOperation`. -/
def parseOperation (cin : Cin) : Operation × Cin :=
  let (tmp, cin) := cin.readString []
  if tmp = exitWord then (⟨.exit, [], []⟩, cin)
  else
    let type := if tmp = putWord then OperationType.put else .get
    let (key, cin) := cin.readString []
    if type = .put then
      let (value, cin) := cin.readString []
      (⟨type, key, value⟩, cin)
    else (⟨type, key, []⟩, cin)

/-- The words that can still be read. -/
def Cin.words (cin : Cin) : List Bytes := if cin.good then Ortoa.words cin.rest else []

/-- A read takes the next word, if there is one. -/
theorem readString_eq (cin : Cin) : (cin.readString []).1 = cin.words.headD [] ∧
    (cin.readString []).2.words = cin.words.tail := by
  unfold Cin.readString Cin.words
  cases hgood : cin.good with
  | false => simp [hgood]
  | true =>
    rw [if_pos rfl, if_pos rfl, words_readWord]
    by_cases hw : (readWord cin.rest).1 = []
    · simp [hw]
    · rw [if_neg hw, if_neg hw]
      refine ⟨rfl, ?_⟩
      by_cases hrest : (readWord cin.rest).2 = []
      · simp [hrest]
      · simp [hrest]

/-- What `parseOperation` makes of the words that are left. -/
def parseWords (ws : List Bytes) : Operation × List Bytes :=
  if ws.headD [] = exitWord then (⟨.exit, [], []⟩, ws.tail)
  else if ws.headD [] = putWord then
    (⟨.put, ws.tail.headD [], ws.tail.tail.headD []⟩, ws.tail.tail.tail)
  else (⟨.get, ws.tail.headD [], []⟩, ws.tail.tail)

theorem parseOperation_eq (cin : Cin) : (parseOperation cin).1 = (parseWords cin.words).1 ∧
    (parseOperation cin).2.words = (parseWords cin.words).2 := by
  obtain ⟨htmp, hrest⟩ := readString_eq cin
  obtain ⟨hkey, hrest2⟩ := readString_eq (cin.readString []).2
  obtain ⟨hvalue, hrest3⟩ := readString_eq ((cin.readString []).2.readString []).2
  rw [hrest] at hkey hrest2
  rw [hrest2] at hvalue hrest3
  unfold parseOperation parseWords
  simp only [htmp]
  by_cases hexit : cin.words.headD [] = exitWord
  · simp only [if_pos hexit]
    exact ⟨trivial, hrest⟩
  · simp only [if_neg hexit]
    by_cases hput : cin.words.headD [] = putWord
    · simp only [if_pos hput, if_true, hkey, hvalue, hrest3, true_and]
    · simp only [if_neg hput, reduceCtorEq, if_false, hkey, hrest2, true_and]

/-! ### The loop -/

/-- What the world contributes to one pass: what libsodium and the thread pools
do, and whether a call to the server throws. -/
structure Surroundings (cfg : Config) where
  draw : Draw cfg
  serverOrder : List ℕ
  serverOrder_perm : serverOrder.Perm (List.range cfg.serverNumThreads)
  throws : Bool

def Surroundings.pass {cfg : Config} (e : Surroundings cfg) (op : Operation) : Pass cfg :=
  ⟨op, e.draw, e.serverOrder, e.serverOrder_perm⟩

/-- The state of `main`'s loop, with the operations executed so far. -/
structure Session where
  cin : Cin
  world : World
  executed : List Operation

section Main

variable (cfg : Config) (L : Libsodium) (env : ℕ → Surroundings cfg)

/-- Executing an operation other than `EXIT`, unless it ends in an exception.
Only a GET of a missing key makes no call to the server. -/
def execute (e : Surroundings cfg) (w : World) (op : Operation) : Option World :=
  if e.throws ∧ (op.type = .put ∨ w.globals.keySet op.key = true) then none
  else Client.next cfg L w (e.pass op)

/-- The body of `main`'s loop; the result is the operations executed. -/
def mainBody (st : Session) : Session ⊕ List Operation :=
  let (op, cin) := parseOperation st.cin
  if op.type = .exit then .inr (st.executed ++ [op])
  else
    match execute cfg L (env st.executed.length) st.world op with
    | none => .inr st.executed
    | some world => .inl ⟨cin, world, st.executed ++ [op]⟩

/-- The operations one after the other; the number counts the passes. -/
def executeNext (s : World × ℕ) (op : Operation) : Option (World × ℕ) :=
  (execute cfg L (env s.2) s.1 op).map fun world => (world, s.2 + 1)

end Main

/-! ### The commands of an input -/

/-- The complete commands in front of the first `EXIT`, and the words from
there on; or, without `EXIT`, what is left of the last command. -/
def splitCommands : List Bytes → List Operation × List Bytes
  | [] => ([], [])
  | w :: ws =>
    if w = exitWord then ([], w :: ws)
    else if w = putWord then
      match ws with
      | key :: value :: rest =>
        (⟨.put, key, value⟩ :: (splitCommands rest).1, (splitCommands rest).2)
      | _ => ([], w :: ws)
    else
      match ws with
      | key :: rest => (⟨.get, key, []⟩ :: (splitCommands rest).1, (splitCommands rest).2)
      | [] => ([], [w])

/-- `EXIT` stands where a command is expected. -/
def HasExit (ws : List Bytes) : Prop := (splitCommands ws).2.head? = some exitWord

instance (ws : List Bytes) : Decidable (HasExit ws) := inferInstanceAs (Decidable (_ = _))

/-- The complete commands of an input, `EXIT` included. -/
def completeCommands (ws : List Bytes) : List Operation :=
  (splitCommands ws).1 ++ if HasExit ws then [⟨.exit, [], []⟩] else []

theorem exitWord_ne_nil : exitWord ≠ [] := by decide

theorem putWord_ne_exitWord : putWord ≠ exitWord := by decide

theorem splitCommands_exit (ws : List Bytes) :
    splitCommands (exitWord :: ws) = ([], exitWord :: ws) := by
  unfold splitCommands
  rw [if_pos rfl]

theorem splitCommands_put (key value : Bytes) (rest : List Bytes) :
    splitCommands (putWord :: key :: value :: rest) =
      (⟨.put, key, value⟩ :: (splitCommands rest).1, (splitCommands rest).2) := by
  rw [splitCommands, if_neg putWord_ne_exitWord, if_pos rfl]

theorem splitCommands_get {w : Bytes} (hexit : w ≠ exitWord) (hput : w ≠ putWord) (key : Bytes)
    (rest : List Bytes) : splitCommands (w :: key :: rest) =
      (⟨.get, key, []⟩ :: (splitCommands rest).1, (splitCommands rest).2) := by
  conv_lhs => unfold splitCommands
  rw [if_neg hexit, if_neg hput]

/-- The words are less than a command. -/
def Incomplete (ws : List Bytes) : Prop :=
  ws.head? ≠ some exitWord ∧ ws.length < 3 ∧ (ws.head? = some putWord ∨ ws.length < 2)

theorem splitCommands_incomplete {ws : List Bytes} (h : Incomplete ws) : splitCommands ws = ([], ws) := by
  obtain ⟨hexit, hthree, htwo⟩ := h
  match ws with
  | [] => rfl
  | [w] =>
    have hw : w ≠ exitWord := fun hw => hexit (congrArg some hw)
    rw [splitCommands, if_neg hw]
    simp
  | [w, key] =>
    have hw : w ≠ exitWord := fun hw => hexit (congrArg some hw)
    have hput : w = putWord := by
      rcases htwo with h | h
      · exact Option.some.inj h
      · exact absurd h (by simp)
    rw [hput, splitCommands, if_neg putWord_ne_exitWord, if_pos rfl]
    simp
  | _ :: _ :: _ :: _ =>
    simp only [List.length_cons] at hthree
    omega

/-- What is in front: an `EXIT`, a complete command, or less than that. -/
theorem splitCommands_cases (ws : List Bytes) :
    (HasExit ws ∧ (splitCommands ws).1 = [] ∧ (parseWords ws).1 = ⟨.exit, [], []⟩) ∨
    (∃ op rest, parseWords ws = (op, rest) ∧ op.type ≠ .exit ∧ rest.length < ws.length ∧
      splitCommands ws = (op :: (splitCommands rest).1, (splitCommands rest).2)) ∨
    (¬ HasExit ws ∧ splitCommands ws = ([], ws) ∧ (parseWords ws).1.type ≠ .exit) := by
  have hleft : Incomplete ws → ¬ HasExit ws ∧ splitCommands ws = ([], ws) ∧
      (parseWords ws).1.type ≠ .exit := by
    intro h
    have hsplit := splitCommands_incomplete h
    refine ⟨by rw [HasExit, hsplit]; exact h.1, hsplit, ?_⟩
    have hword : ws.headD [] ≠ exitWord := by
      intro hw
      cases ws with
      | nil => exact exitWord_ne_nil hw.symm
      | cons w ws => exact h.1 (congrArg some hw)
    unfold parseWords
    rw [if_neg hword]
    split <;> simp
  match ws with
  | [] => exact Or.inr (Or.inr (hleft ⟨by simp, by simp, by simp⟩))
  | w :: ws =>
    by_cases hexit : w = exitWord
    · subst hexit
      refine Or.inl ⟨?_, ?_, ?_⟩
      · rw [HasExit, splitCommands_exit]
        rfl
      · rw [splitCommands_exit]
      · simp [parseWords]
    · have hhead : (w :: ws).head? ≠ some exitWord := fun h => hexit (Option.some.inj h)
      by_cases hput : w = putWord
      · subst hput
        match ws with
        | key :: value :: rest =>
          refine Or.inr (Or.inl ⟨_, rest, ?_, by simp,
            by simp only [List.length_cons]; omega, splitCommands_put key value rest⟩)
          simp [parseWords, hexit]
        | [key] => exact Or.inr (Or.inr (hleft ⟨hhead, by simp, by simp⟩))
        | [] => exact Or.inr (Or.inr (hleft ⟨hhead, by simp, by simp⟩))
      · match ws with
        | key :: rest =>
          refine Or.inr (Or.inl ⟨_, rest, ?_, by simp,
            by simp only [List.length_cons]; omega, splitCommands_get hexit hput key rest⟩)
          simp [parseWords, hexit, hput]
        | [] => exact Or.inr (Or.inr (hleft ⟨hhead, by simp, by simp⟩))

section Loop

variable {cfg : Config} {L : Libsodium} {env : ℕ → Surroundings cfg}

/-- A pass that reads `EXIT`. -/
theorem mainBody_exit {st : Session} (h : (parseWords st.cin.words).1 = ⟨.exit, [], []⟩) :
    mainBody cfg L env st = .inr (st.executed ++ [⟨.exit, [], []⟩]) := by
  unfold mainBody
  simp only [(parseOperation_eq st.cin).1, h, if_true]

/-- A pass whose operation ends in an exception. -/
theorem mainBody_throw {st : Session} (h : (parseWords st.cin.words).1.type ≠ .exit)
    (hexec : execute cfg L (env st.executed.length) st.world (parseWords st.cin.words).1 = none) :
    mainBody cfg L env st = .inr st.executed := by
  unfold mainBody
  simp only [(parseOperation_eq st.cin).1, if_neg h, hexec]

/-- A pass whose operation is executed. -/
theorem mainBody_execute {st : Session} {world : World} (h : (parseWords st.cin.words).1.type ≠ .exit)
    (hexec : execute cfg L (env st.executed.length) st.world (parseWords st.cin.words).1 = some world) :
    mainBody cfg L env st = .inl ⟨(parseOperation st.cin).2, world,
      st.executed ++ [(parseWords st.cin.words).1]⟩ := by
  unfold mainBody
  simp only [(parseOperation_eq st.cin).1, if_neg h, hexec]

/-- What has been executed stays. -/
theorem executed_stays {st : Session} {ops : List Operation} (h : Returns (mainBody cfg L env) st ops) :
    st.executed <+: ops := by
  obtain ⟨fuel, hfuel⟩ := h
  induction fuel generalizing st with
  | zero => cases hfuel
  | succ fuel ih =>
    rw [loop, mainBody] at hfuel
    simp only at hfuel
    split at hfuel
    · rename_i st' hbody
      split at hbody
      · cases hbody
      · split at hbody
        · cases hbody
        · have hst' := Sum.inl.inj hbody
          have hpre := ih hfuel
          rw [← hst'] at hpre
          exact (List.prefix_append _ _).trans hpre
    · rename_i ops' hbody
      have hops := Option.some.inj hfuel
      subst hops
      split at hbody
      · exact Sum.inr.inj hbody ▸ List.prefix_append _ _
      · split at hbody
        · exact Sum.inr.inj hbody ▸ List.prefix_refl _
        · cases hbody

/-- A loop that has executed one operation more does not return without it. -/
theorem not_returns_short {st : Session} {done : List Operation} {op : Operation}
    (h : st.executed = done ++ [op]) : ¬ Returns (mainBody cfg L env) st done := by
  intro hret
  have hlen := (executed_stays hret).length_le
  rw [h, List.length_append, List.length_singleton] at hlen
  omega

/-- What the words that are left must meet for the loop to end well. -/
def EndsWell (cfg : Config) (L : Libsodium) (env : ℕ → Surroundings cfg) (w : World) (passes : ℕ)
    (ws : List Bytes) : Prop :=
  ∃ s, run (executeNext cfg L env) (w, passes) (splitCommands ws).1 = some s ∧
    (HasExit ws ∨ executeNext cfg L env s (parseWords (splitCommands ws).2).1 = none)

/-- The loop, from a state in which `ws` can still be read. -/
theorem returns_iff (n : ℕ) : ∀ (ws : List Bytes) (st : Session), ws.length < n → st.cin.words = ws →
    (Returns (mainBody cfg L env) st (st.executed ++ completeCommands ws) ↔
      EndsWell cfg L env st.world st.executed.length ws) := by
  induction n with
  | zero => exact fun ws _ hlen => absurd hlen (Nat.not_lt_zero _)
  | succ n ih =>
    intro ws st hlen hws
    unfold EndsWell
    rcases splitCommands_cases ws with ⟨hexit, hnone, hparse⟩ | ⟨op, rest, hparse, hop, hrest, hsplit⟩ |
      ⟨hexit, hsplit, hop⟩
    · -- `EXIT` in front
      have hbody := @mainBody_exit cfg L env st (hws ▸ hparse)
      have hcomplete : completeCommands ws = [⟨.exit, [], []⟩] := by
        rw [completeCommands, hnone, if_pos hexit, List.nil_append]
      rw [returns_of_inr hbody, hcomplete, hnone]
      exact ⟨fun _ => ⟨_, rfl, Or.inl hexit⟩, fun _ => rfl⟩
    · -- a complete command in front
      have hfront : (parseWords st.cin.words).1 = op := by rw [hws, hparse]
      have htype : (parseWords st.cin.words).1.type ≠ .exit := hfront ▸ hop
      have hexit : HasExit ws ↔ HasExit rest := by rw [HasExit, HasExit, hsplit]
      have hcomplete : completeCommands ws = op :: completeCommands rest := by
        simp only [completeCommands, hsplit, hexit, List.cons_append]
      rw [hcomplete, hsplit, hexit]
      cases hexec : execute cfg L (env st.executed.length) st.world op with
      | none =>
        have hbody := mainBody_throw htype (hfront.symm ▸ hexec)
        have hnext : executeNext cfg L env (st.world, st.executed.length) op = none := by
          rw [executeNext, hexec]
          rfl
        rw [returns_of_inr hbody, run_cons, hnext]
        simp
      | some world =>
        have hbody := mainBody_execute htype (hfront.symm ▸ hexec)
        have hnext : executeNext cfg L env (st.world, st.executed.length) op =
            some (world, st.executed.length + 1) := by
          rw [executeNext, hexec]
          rfl
        have hleft : (parseOperation st.cin).2.words = rest := by
          rw [(parseOperation_eq st.cin).2, hws, hparse]
        have hih : Returns (mainBody cfg L env) ⟨(parseOperation st.cin).2, world, st.executed ++ [op]⟩
            (st.executed ++ [op] ++ completeCommands rest) ↔
              EndsWell cfg L env world (st.executed ++ [op]).length rest :=
          ih rest ⟨(parseOperation st.cin).2, world, st.executed ++ [op]⟩ (by omega) hleft
        rw [List.append_assoc, List.length_append] at hih
        rw [hfront] at hbody
        rw [returns_of_inl hbody, run_cons, hnext]
        exact hih
    · -- less than a command in front
      have htype : (parseWords st.cin.words).1.type ≠ .exit := hws ▸ hop
      have hcomplete : completeCommands ws = [] := by
        rw [completeCommands, hsplit, if_neg hexit, List.append_nil]
      rw [hcomplete, hsplit, List.append_nil]
      cases hexec : execute cfg L (env st.executed.length) st.world (parseWords st.cin.words).1 with
      | none =>
        rw [returns_of_inr (mainBody_throw htype hexec)]
        refine ⟨fun _ => ⟨_, rfl, Or.inr ?_⟩, fun _ => rfl⟩
        rw [executeNext, ← hws, hexec]
        rfl
      | some world =>
        rw [returns_of_inl (mainBody_execute htype hexec)]
        apply iff_of_false (not_returns_short rfl)
        rintro ⟨s, hs, h | h⟩
        · exact hexit h
        · rw [run_nil, Option.some.injEq] at hs
          subst hs
          rw [executeNext, ← hws, hexec] at h
          cases h

end Loop

/-- The loop of `main` ends having executed the complete commands of its input
if and only if none of them ends in an exception and there is an `EXIT`, or the
first operation made of what is left ends in one. -/
theorem command_line_iff (cfg : Config) (L : Libsodium) (env : ℕ → Surroundings cfg) (input : Bytes)
    (w : World) :
    Returns (mainBody cfg L env) ⟨⟨input, true⟩, w, []⟩ (completeCommands (words input)) ↔
      EndsWell cfg L env w 0 (words input) :=
  returns_iff _ (words input) ⟨⟨input, true⟩, w, []⟩ (Nat.lt_succ_self _) rfl

/-- A PUT, and a PUT that is cut off. -/
example : splitCommands [putWord, [97], [98], putWord, [97]] = ([⟨.put, [97], [98]⟩], [putWord, [97]]) := rfl

/-- Surroundings in which nothing goes wrong. -/
def calm (cfg : Config) : Surroundings cfg where
  draw := plainDraw cfg [1]
  serverOrder := List.range cfg.serverNumThreads
  serverOrder_perm := cfg.serverInOrder
  throws := false

/-- The empty input: the loop asks for the empty key, again and again. -/
theorem empty_input_never_ends : ¬ ∃ ops, Returns
    (mainBody constants Libsodium.plain fun _ => calm constants) ⟨⟨[], true⟩, initial constants, []⟩ ops := by
  rintro ⟨ops, hret⟩
  revert hret
  refine not_returns_of_inv (fun st => st.cin.words = [] ∧ st.world = initial constants) ?_ ⟨words_nil, rfl⟩
  rintro st ⟨hwords, hworld⟩
  have hparse : parseWords st.cin.words = (⟨.get, [], []⟩, []) := by
    rw [hwords]
    rfl
  have htype : (parseWords st.cin.words).1.type ≠ .exit := by simp [hparse]
  have hexec : execute constants Libsodium.plain (calm constants) st.world (parseWords st.cin.words).1 =
      some (initial constants) := by
    rw [hparse, hworld]
    rfl
  refine ⟨_, mainBody_execute htype hexec, ?_, rfl⟩
  simp only [(parseOperation_eq st.cin).2, hparse]

end CommandLine
end Lbl
end Ortoa

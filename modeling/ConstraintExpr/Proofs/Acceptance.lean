import Mathlib.Data.Fin.Tuple.Basic
import ConstraintExpr.Automaton

/-!
# Acceptance is the existence of a run

A run goes through one state more than its word has symbols, and each symbol is
the label of a transition between the states before and after it.

* `Automaton.mem_reached` says that the frontier after a word holds exactly the
  states in which some run over the word ends;
* `Automaton.acceptsFrom_eq` says that giving up on an empty frontier answers
  what reading on would answer;
* `Automaton.accepts_iff_exists_run` puts them together for the start state.
-/

namespace ConstraintExpr.Automaton

/-- The states are those of a run over the word that starts in `first`. -/
structure Run (a : Automaton) (first : String) (word : List Int)
    (states : Fin (word.length + 1) → String) : Prop where
  starts : states 0 = first
  moves : ∀ i : Fin word.length,
    ⟨states i.castSucc, word[i], states i.succ⟩ ∈ a.transitions

/-- The frontier after all of the word has been read, whatever it was on the
way. -/
def reached (a : Automaton) (frontier : Std.HashSet String) (word : List Int) :
    Std.HashSet String :=
  word.foldl a.advance frontier

variable {a : Automaton}

/-! ### Runs by their first move -/

theorem run_nil {first : String} {states : Fin 1 → String} :
    a.Run first [] states ↔ states 0 = first :=
  ⟨Run.starts, fun h => ⟨h, fun i => i.elim0⟩⟩

theorem run_cons {first : String} {symbol : Int} {word : List Int}
    {states : Fin (word.length + 2) → String} :
    a.Run first (symbol :: word) states ↔
      states 0 = first ∧ ⟨first, symbol, states 1⟩ ∈ a.transitions ∧
        a.Run (states 1) word (Fin.tail states) := by
  constructor
  · rintro ⟨hstart, hmoves⟩
    have hfirst := hmoves 0
    refine ⟨hstart, ?_, rfl, fun i => hmoves i.succ⟩
    rw [← hstart]
    exact hfirst
  · rintro ⟨rfl, hfirst, hrest⟩
    refine ⟨rfl, fun i => ?_⟩
    cases i using Fin.cases with
    | zero => exact hfirst
    | succ i => exact hrest.moves i

/-! ### Frontiers -/

theorem mem_advance {frontier : Std.HashSet String} {symbol : Int} {next : String} :
    next ∈ a.advance frontier symbol ↔
      ∃ state ∈ frontier, ⟨state, symbol, next⟩ ∈ a.transitions := by
  simp only [advance, Std.HashSet.mem_ofList, List.contains_iff_mem, List.mem_map,
    List.mem_filter, Bool.and_eq_true, beq_iff_eq, Std.HashSet.contains_iff_mem]
  constructor
  · rintro ⟨t, ⟨hmem, rfl, hsource⟩, rfl⟩
    exact ⟨t.source, hsource, hmem⟩
  · rintro ⟨state, hstate, hmem⟩
    exact ⟨_, ⟨hmem, rfl, hstate⟩, rfl⟩

/-- The frontier after a word holds exactly the states in which a run over the
word ends. -/
theorem mem_reached {frontier : Std.HashSet String} {word : List Int} {final : String} :
    final ∈ a.reached frontier word ↔
      ∃ first ∈ frontier, ∃ states, a.Run first word states ∧ states (Fin.last _) = final := by
  induction word generalizing frontier with
  | nil =>
      constructor
      · intro hmem
        exact ⟨final, hmem, fun _ => final, run_nil.mpr rfl, rfl⟩
      · rintro ⟨first, hmem, states, hrun, rfl⟩
        rw [← run_nil.mp hrun] at hmem
        exact hmem
  | cons symbol word ih =>
      have hread : a.reached frontier (symbol :: word) =
          a.reached (a.advance frontier symbol) word := rfl
      rw [hread, ih]
      constructor
      · rintro ⟨next, hnext, states, ⟨rfl, hmoves⟩, rfl⟩
        obtain ⟨first, hfirst, hmove⟩ := mem_advance.mp hnext
        exact ⟨first, hfirst, Fin.cons first states, run_cons.mpr ⟨rfl, hmove, rfl, hmoves⟩, rfl⟩
      · rintro ⟨first, hfirst, states, hrun, rfl⟩
        obtain ⟨_, hmove, hrest⟩ := run_cons.mp hrun
        exact ⟨states 1, mem_advance.mpr ⟨first, hfirst, hmove⟩, Fin.tail states, hrest, rfl⟩

/-- No run starts in an empty frontier, so that reading on finds nothing. -/
theorem reached_of_isEmpty {frontier : Std.HashSet String} (hempty : frontier.isEmpty)
    (word : List Int) (final : String) : final ∉ a.reached frontier word := by
  rw [mem_reached]
  rintro ⟨first, hfirst, _⟩
  exact Std.HashSet.isEmpty_iff_forall_not_mem.mp hempty first hfirst

/-- Giving up on an empty frontier answers what reading on would answer. -/
theorem acceptsFrom_eq (frontier : Std.HashSet String) (word : List Int) :
    a.acceptsFrom frontier word = a.finals.any (a.reached frontier word).contains := by
  induction word generalizing frontier with
  | nil => rfl
  | cons symbol word ih =>
      have hread : a.reached frontier (symbol :: word) =
          a.reached (a.advance frontier symbol) word := rfl
      rw [acceptsFrom, hread]
      by_cases hempty : (a.advance frontier symbol).isEmpty = true
      · rw [if_pos hempty, eq_comm, List.any_eq_false]
        intro final _
        exact reached_of_isEmpty hempty word final
      · rw [if_neg hempty]
        exact ih _

/-! ### The language -/

/-- The answer is read off the last frontier. -/
theorem accepts_eq_any_reached (a : Automaton) (word : List Int) :
    a.accepts word = a.finals.any (a.reached (.ofList [a.start]) word).contains :=
  acceptsFrom_eq _ word

theorem accepts_iff {word : List Int} :
    a.accepts word = true ↔
      ∃ states, a.Run a.start word states ∧ states (Fin.last _) ∈ a.finals := by
  simp only [accepts_eq_any_reached, List.any_eq_true, Std.HashSet.contains_iff_mem, mem_reached,
    Std.HashSet.mem_ofList, List.contains_iff_mem, List.mem_singleton]
  constructor
  · rintro ⟨final, hfinal, _, rfl, states, hrun, rfl⟩
    exact ⟨states, hrun, hfinal⟩
  · rintro ⟨states, hrun, hfinal⟩
    exact ⟨_, hfinal, a.start, rfl, states, hrun, rfl⟩

/-- Over the empty word, a run stays in the start state. -/
theorem accepts_nil : a.accepts [] = true ↔ a.start ∈ a.finals := by
  rw [accepts_iff]
  constructor
  · rintro ⟨states, hrun, hfinal⟩
    rw [← run_nil.mp hrun]
    exact hfinal
  · intro hfinal
    exact ⟨fun _ => a.start, run_nil.mpr rfl, hfinal⟩

/-- A word is accepted exactly when some run over it leads from the start state
to a final state. Giving up on an empty frontier does not change the answer, and
the empty word is accepted exactly when the start state is final. -/
theorem accepts_iff_exists_run (a : Automaton) (word : List Int) :
    (a.accepts word = true ↔
        ∃ states, a.Run a.start word states ∧ states (Fin.last _) ∈ a.finals) ∧
      a.accepts word = a.finals.any (a.reached (.ofList [a.start]) word).contains ∧
      (a.accepts [] = true ↔ a.start ∈ a.finals) :=
  ⟨accepts_iff, a.accepts_eq_any_reached word, accepts_nil⟩

end ConstraintExpr.Automaton

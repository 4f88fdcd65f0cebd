import ConstraintExpr.Proofs.Acceptance
import ConstraintExpr.Proofs.FirstOccurrence

/-!
# States and labels of an automaton

The listings of states and of labels have what the automaton mentions, each of it
once and in the order of its first appearance (`InOrderOfAppearance`). No run leaves
the listed states (`Automaton.Run.mem_states`), and no run reads a symbol that is not
a listed label (`Automaton.Run.mem_alphabet`).
-/

namespace ConstraintExpr.Automaton

variable {a : Automaton}

/-- The states as the automaton mentions them: the start state, the two ends of one
transition after another, the final states. -/
def mentions (a : Automaton) : List String :=
  a.start :: (a.transitions.flatMap fun t => [t.source, t.target]) ++ a.finals

/-- The states are the start state, the ends of the transitions and the final states. -/
theorem mem_mentions {state : String} :
    state ∈ a.mentions ↔
      state = a.start ∨ (∃ t ∈ a.transitions, state = t.source ∨ state = t.target) ∨
        state ∈ a.finals := by
  simp only [mentions, List.cons_append, List.mem_cons, List.mem_append, List.mem_flatMap,
    List.not_mem_nil, or_false]

theorem mem_states {state : String} : state ∈ a.states ↔ state ∈ a.mentions :=
  mem_firstOccurrences

theorem mem_alphabet {symbol : Int} :
    symbol ∈ a.alphabet ↔ ∃ t ∈ a.transitions, t.label = symbol := by
  rw [alphabet, mem_firstOccurrences, List.mem_map]

/-! ### Runs stay within the listings -/

theorem target_mem_states {t : Transition} (ht : t ∈ a.transitions) : t.target ∈ a.states :=
  mem_states.mpr (mem_mentions.mpr (.inr (.inl ⟨t, ht, .inr rfl⟩)))

/-- A run begins in the start state and enters the targets of transitions. -/
theorem Run.mem_states {word : List Int} {states : Fin (word.length + 1) → String}
    (h : a.Run a.start word states) (i : Fin (word.length + 1)) : states i ∈ a.states := by
  cases i using Fin.cases with
  | zero =>
      rw [h.starts]
      exact Automaton.mem_states.mpr (mem_mentions.mpr (.inl rfl))
  | succ i => exact target_mem_states (h.moves i)

theorem Run.mem_alphabet {first : String} {word : List Int}
    {states : Fin (word.length + 1) → String} (h : a.Run first word states) {symbol : Int}
    (hsymbol : symbol ∈ word) : symbol ∈ a.alphabet := by
  obtain ⟨i, hi, rfl⟩ := List.mem_iff_getElem.mp hsymbol
  exact Automaton.mem_alphabet.mpr ⟨_, h.moves ⟨i, hi⟩, rfl⟩

/-- The states are listed once each, in the order in which the automaton mentions them,
and the start state comes first; they are the start state, the ends of the transitions
and the final states. The labels are listed in the same way. A run from the start state
stays within the states listed, and every symbol of an accepted word is a label listed. -/
theorem exact_carrier (a : Automaton) :
    (InOrderOfAppearance a.states a.mentions ∧ a.states.head? = some a.start ∧
        ∀ state, state ∈ a.states ↔
          state = a.start ∨ (∃ t ∈ a.transitions, state = t.source ∨ state = t.target) ∨
            state ∈ a.finals) ∧
      (InOrderOfAppearance a.alphabet (a.transitions.map Transition.label) ∧
        ∀ symbol, symbol ∈ a.alphabet ↔ ∃ t ∈ a.transitions, t.label = symbol) ∧
      ∀ word : List Int,
        (∀ states, a.Run a.start word states → ∀ i, states i ∈ a.states) ∧
          (a.accepts word = true → ∀ symbol ∈ word, symbol ∈ a.alphabet) := by
  refine ⟨⟨inOrderOfAppearance_firstOccurrences a.mentions, head?_firstOccurrences a.start _,
      fun state => mem_states.trans mem_mentions⟩,
    ⟨inOrderOfAppearance_firstOccurrences _, fun symbol => mem_alphabet⟩,
    fun word => ⟨fun states hrun => hrun.mem_states, fun haccepts symbol hsymbol => ?_⟩⟩
  obtain ⟨states, hrun, _⟩ := accepts_iff.mp haccepts
  exact hrun.mem_alphabet hsymbol

end ConstraintExpr.Automaton

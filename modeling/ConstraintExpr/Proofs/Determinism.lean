import ConstraintExpr.Proofs.Acceptance

/-!
# Deterministic automata

The test for determinism looks for a second transition that leaves the same state
with the same label (`Automaton.isDeterministic_iff`). Where there is none, a state and
a symbol determine the next state (`Automaton.next?_eq_some_iff`).

* `Automaton.Run.unique`: a word has at most one run from a state;
* `Automaton.mem_reached_singleton`: the frontier is the state that is found by following
  one transition after another, and is empty when there is none to follow;
* `Automaton.deterministic_acceptance`: so acceptance is a matter of that state alone.
-/

namespace ConstraintExpr

/-- All members are new when none is in `seen` and none is repeated. -/
theorem allNew_iff {α : Type} [BEq α] [LawfulBEq α] [Hashable α] [LawfulHashable α]
    {seen : Std.HashSet α} {as : List α} :
    allNew seen as = true ↔ (∀ a ∈ as, a ∉ seen) ∧ as.Nodup := by
  induction as generalizing seen with
  | nil => simp [allNew]
  | cons a as ih =>
      have hhead : (!seen.contains a) = true ↔ a ∉ seen := by
        rw [Bool.not_eq_true', ← Bool.not_eq_true, Std.HashSet.contains_iff_mem]
      have htail : (∀ b ∈ as, b ∉ seen.insert a) ↔ a ∉ as ∧ ∀ b ∈ as, b ∉ seen := by
        simp only [Std.HashSet.mem_insert, beq_iff_eq, not_or]
        constructor
        · intro h
          exact ⟨fun hmem => (h a hmem).1 rfl, fun b hb => (h b hb).2⟩
        · rintro ⟨ha, h⟩ b hb
          exact ⟨fun heq => ha (heq ▸ hb), h b hb⟩
      rw [allNew, Bool.and_eq_true, hhead, ih, htail, List.forall_mem_cons, List.nodup_cons]
      simp only [and_assoc, and_left_comm]

namespace Automaton

/-- Where the first transition leads that leaves the state with the symbol. -/
def next? (a : Automaton) (state : String) (symbol : Int) : Option String :=
  (a.transitions.find? fun t => t.source == state && t.label == symbol).map Transition.target

/-- Where the word leads from the state, one transition after another. -/
def follow? (a : Automaton) (state : String) : List Int → Option String
  | [] => some state
  | symbol :: word => (a.next? state symbol).bind fun next => a.follow? next word

variable {a : Automaton}

/-! ### The test -/

/-- The test succeeds when no two transitions at different positions leave the same
state with the same label. -/
theorem isDeterministic_iff :
    a.isDeterministic = true ↔
      ∀ i j : Fin a.transitions.length, a.transitions[i].source = a.transitions[j].source →
        a.transitions[i].label = a.transitions[j].label → i = j := by
  rw [isDeterministic, allNew_iff, and_iff_right fun _ _ => Std.HashSet.not_mem_empty,
    List.Nodup, List.pairwise_map, List.pairwise_iff_getElem]
  constructor
  · intro h i j hsource hlabel
    rcases Nat.lt_trichotomy i j with hlt | heq | hgt
    · exact absurd (Prod.ext hsource hlabel) (h i j i.isLt j.isLt hlt)
    · exact Fin.ext heq
    · exact absurd (Prod.ext hsource.symm hlabel.symm) (h j i j.isLt i.isLt hgt)
  · intro h i j hi hj hlt heq
    have hsame := h ⟨i, hi⟩ ⟨j, hj⟩ (Prod.ext_iff.mp heq).1 (Prod.ext_iff.mp heq).2
    have : i = j := congrArg Fin.val hsame
    omega

theorem target_unique (hdet : a.isDeterministic = true) {t u : Transition}
    (ht : t ∈ a.transitions) (hu : u ∈ a.transitions) (hsource : t.source = u.source)
    (hlabel : t.label = u.label) : t = u := by
  obtain ⟨i, hi, rfl⟩ := List.mem_iff_getElem.mp ht
  obtain ⟨j, hj, rfl⟩ := List.mem_iff_getElem.mp hu
  have hsame := isDeterministic_iff.mp hdet ⟨i, hi⟩ ⟨j, hj⟩ hsource hlabel
  cases hsame
  rfl

/-- There is one transition to follow, or none. -/
theorem next?_eq_some_iff (hdet : a.isDeterministic = true) {state next : String} {symbol : Int} :
    a.next? state symbol = some next ↔ ⟨state, symbol, next⟩ ∈ a.transitions := by
  rw [next?, Option.map_eq_some_iff]
  constructor
  · rintro ⟨t, hfind, rfl⟩
    have hmatch := List.find?_some hfind
    rw [Bool.and_eq_true, beq_iff_eq, beq_iff_eq] at hmatch
    obtain ⟨rfl, rfl⟩ := hmatch
    exact List.mem_of_find?_eq_some hfind
  · intro hmem
    cases hfind : a.transitions.find? fun t => t.source == state && t.label == symbol with
    | none => simpa using List.find?_eq_none.mp hfind _ hmem
    | some t =>
        have hmatch := List.find?_some hfind
        rw [Bool.and_eq_true, beq_iff_eq, beq_iff_eq] at hmatch
        have hsame := target_unique hdet (List.mem_of_find?_eq_some hfind) hmem hmatch.1 hmatch.2
        exact ⟨t, rfl, congrArg Transition.target hsame⟩

/-! ### Runs -/

/-- A run over a word is determined by the state in which it starts. -/
theorem Run.unique (hdet : a.isDeterministic = true) {first : String} {word : List Int}
    {states others : Fin (word.length + 1) → String} (h : a.Run first word states)
    (hother : a.Run first word others) : states = others := by
  induction word generalizing first with
  | nil =>
      funext i
      rw [Fin.eq_zero i, h.starts, hother.starts]
  | cons symbol word ih =>
      obtain ⟨hstart, hmove, hrest⟩ := run_cons.mp h
      obtain ⟨hstart', hmove', hrest'⟩ := run_cons.mp hother
      have hnext : states 1 = others 1 :=
        congrArg Transition.target (target_unique hdet hmove hmove' rfl rfl)
      rw [← hnext] at hrest'
      have htail : Fin.tail states = Fin.tail others := ih hrest hrest'
      rw [← Fin.cons_self_tail states, ← Fin.cons_self_tail others, htail, hstart, hstart']

/-- Following the transitions leads to the last state of the run, if there is one. -/
theorem follow?_eq_some_iff (hdet : a.isDeterministic = true) {first final : String}
    {word : List Int} :
    a.follow? first word = some final ↔
      ∃ states, a.Run first word states ∧ states (Fin.last _) = final := by
  induction word generalizing first with
  | nil =>
      rw [follow?, Option.some.injEq]
      constructor
      · intro h
        exact ⟨fun _ => first, run_nil.mpr rfl, h⟩
      · rintro ⟨states, hrun, rfl⟩
        exact (run_nil.mp hrun).symm
  | cons symbol word ih =>
      rw [follow?, Option.bind_eq_some_iff]
      constructor
      · rintro ⟨next, hnext, hrest⟩
        obtain ⟨states, ⟨rfl, hmoves⟩, hfinal⟩ := ih.mp hrest
        exact ⟨Fin.cons first states,
          run_cons.mpr ⟨rfl, (next?_eq_some_iff hdet).mp hnext, rfl, hmoves⟩, hfinal⟩
      · rintro ⟨states, hrun, hfinal⟩
        obtain ⟨_, hmove, hrest⟩ := run_cons.mp hrun
        exact ⟨states 1, (next?_eq_some_iff hdet).mpr hmove,
          ih.mpr ⟨Fin.tail states, hrest, hfinal⟩⟩

/-! ### Frontiers -/

/-- The frontier is what following the transitions leads to. -/
theorem mem_reached_singleton (hdet : a.isDeterministic = true) {first final : String}
    {word : List Int} :
    final ∈ a.reached (.ofList [first]) word ↔ a.follow? first word = some final := by
  rw [mem_reached, follow?_eq_some_iff hdet]
  simp only [Std.HashSet.mem_ofList, List.contains_iff_mem, List.mem_singleton, exists_eq_left]

theorem size_le_one_of_unique {set : Std.HashSet String}
    (h : ∀ s ∈ set, ∀ t ∈ set, s = t) : set.size ≤ 1 := by
  rw [← Std.HashSet.length_toList]
  have hdistinct := set.distinct_toList
  have hmem : ∀ s ∈ set.toList, s ∈ set := fun s => Std.HashSet.mem_toList.mp
  cases hlist : set.toList with
  | nil => exact Nat.zero_le 1
  | cons s rest =>
      cases rest with
      | nil => exact Nat.le_refl 1
      | cons t rest =>
          rw [hlist] at hdistinct hmem
          have heq : s = t := h s (hmem s (by simp)) t (hmem t (by simp))
          simp [heq] at hdistinct

/-- The frontier never holds more than one state. -/
theorem size_reached_le_one (hdet : a.isDeterministic = true) (first : String)
    (word : List Int) : (a.reached (.ofList [first]) word).size ≤ 1 := by
  refine size_le_one_of_unique fun s hs t ht => ?_
  rw [mem_reached_singleton hdet] at hs ht
  exact Option.some.inj (hs.symm.trans ht)

/-- What is left of a word is read from the frontier after its first part. -/
theorem acceptsFrom_append (frontier : Std.HashSet String) (word rest : List Int) :
    a.acceptsFrom frontier (word ++ rest) = a.acceptsFrom (a.reached frontier word) rest := by
  rw [acceptsFrom_eq, acceptsFrom_eq, reached, List.foldl_append]
  rfl

theorem accepts_eq_follow? (hdet : a.isDeterministic = true) (word : List Int) :
    a.accepts word = (a.follow? a.start word).any a.finals.contains := by
  rw [Bool.eq_iff_iff, accepts_iff, Option.any_eq_true]
  simp only [follow?_eq_some_iff hdet, List.contains_iff_mem]
  constructor
  · rintro ⟨states, hrun, hfinal⟩
    exact ⟨_, ⟨states, hrun, rfl⟩, hfinal⟩
  · rintro ⟨_, ⟨states, hrun, rfl⟩, hfinal⟩
    exact ⟨states, hrun, hfinal⟩

/-- The test for determinism succeeds when no two transitions at different positions
leave the same state with the same label. Then there is one transition to follow or none,
a word has at most one run from the start state, acceptance never has more than one state
on its frontier, whatever part of the word it has read, and a word is accepted when
following the transitions, symbol by symbol, leads to a final state. -/
theorem deterministic_acceptance (a : Automaton) :
    (a.isDeterministic = true ↔
        ∀ i j : Fin a.transitions.length, a.transitions[i].source = a.transitions[j].source →
          a.transitions[i].label = a.transitions[j].label → i = j) ∧
      (a.isDeterministic = true →
        (∀ state symbol next,
            a.next? state symbol = some next ↔ ⟨state, symbol, next⟩ ∈ a.transitions) ∧
          ∀ word : List Int,
            (∀ states others, a.Run a.start word states → a.Run a.start word others →
                states = others) ∧
              (∀ rest, a.accepts (word ++ rest) =
                a.acceptsFrom (a.reached (.ofList [a.start]) word) rest) ∧
              (a.reached (.ofList [a.start]) word).size ≤ 1 ∧
              a.accepts word = (a.follow? a.start word).any a.finals.contains) :=
  ⟨isDeterministic_iff, fun hdet =>
    ⟨fun _ _ _ => next?_eq_some_iff hdet, fun word =>
      ⟨fun _ _ hrun hother => hrun.unique hdet hother, acceptsFrom_append _ word,
        size_reached_le_one hdet a.start word, accepts_eq_follow? hdet word⟩⟩⟩

end Automaton

end ConstraintExpr

import Mathlib.Data.List.Basic
import Mathlib.Data.List.Induction
import Std.Data.HashSet.Lemmas
import ConstraintExpr.Distinct

/-!
# First occurrences

What is left of a list when every member but its first occurrence is dropped.

* the first occurrences of a list come first among those of a longer one
  (`eraseDups_prefix_append`);
* `Distinct.Gathers` says that a collection has seen exactly the members of a
  list and has them in the order of their first appearance; each insertion
  extends the list (`Distinct.Gathers.insert`);
* `firstOccurrences_eq_eraseDups` is the collection of a whole list, and searching
  it finds what searching the list finds (`find?_firstOccurrences`);
* `InOrderOfAppearance` says of a list that it has the members of a sequence once
  each and in the order in which they first appear
  (`inOrderOfAppearance_firstOccurrences`).
-/

namespace ConstraintExpr

variable {α : Type} [BEq α] [LawfulBEq α]

theorem eraseDups_concat_of_mem {as : List α} {a : α} (h : a ∈ as) :
    (as ++ [a]).eraseDups = as.eraseDups := by
  simp [List.eraseDups_append, List.removeAll, h]

theorem eraseDups_concat_of_not_mem {as : List α} {a : α} (h : a ∉ as) :
    (as ++ [a]).eraseDups = as.eraseDups ++ [a] := by
  simp [List.eraseDups_append, List.removeAll, h, List.eraseDups_cons]

theorem nodup_eraseDups (as : List α) : as.eraseDups.Nodup := by
  induction as using List.reverseRecOn with
  | nil => exact List.nodup_nil
  | append_singleton as a ih =>
      by_cases hmem : a ∈ as
      · rw [eraseDups_concat_of_mem hmem]
        exact ih
      · rw [eraseDups_concat_of_not_mem hmem]
        refine List.nodup_append.mpr ⟨ih, by simp, fun b hb c hc heq => ?_⟩
        rw [heq, List.mem_singleton.mp hc] at hb
        exact hmem (List.mem_eraseDups.mp hb)

/-- What is added at the end of a list comes last among the first occurrences. -/
theorem eraseDups_prefix_append (as bs : List α) : as.eraseDups <+: (as ++ bs).eraseDups := by
  rw [List.eraseDups_append]
  exact List.prefix_append _ _

/-- The first member with a property is a first occurrence. -/
theorem find?_eraseDups (p : α → Bool) (as : List α) : as.eraseDups.find? p = as.find? p := by
  induction as using List.reverseRecOn with
  | nil => rfl
  | append_singleton as a ih =>
      by_cases hmem : a ∈ as
      · rw [eraseDups_concat_of_mem hmem, ih, List.find?_append]
        cases hfind : as.find? p with
        | some found => rfl
        | none =>
            have hnot : ¬ p a = true := List.find?_eq_none.mp hfind a hmem
            simp [hnot]
      · rw [eraseDups_concat_of_not_mem hmem, List.find?_append, List.find?_append, ih]

/-- What is left of a list is in the order in which its members first appear. -/
theorem pairwise_eraseDups (as : List α) :
    as.eraseDups.Pairwise fun a b => as.idxOf a < as.idxOf b := by
  induction as using List.reverseRecOn with
  | nil => exact List.Pairwise.nil
  | append_singleton as a ih =>
      -- a member of `as` first appears where it does in `as`
      have hkept : ∀ b ∈ as.eraseDups, (as ++ [a]).idxOf b = as.idxOf b := fun b hb =>
        List.idxOf_append_of_mem (List.mem_eraseDups.mp hb)
      have hbefore : as.eraseDups.Pairwise fun b c =>
          (as ++ [a]).idxOf b < (as ++ [a]).idxOf c := by
        refine ih.imp_of_mem fun hb hc hlt => ?_
        rw [hkept _ hb, hkept _ hc]
        exact hlt
      by_cases hmem : a ∈ as
      · rw [eraseDups_concat_of_mem hmem]
        exact hbefore
      · rw [eraseDups_concat_of_not_mem hmem]
        refine List.pairwise_append.mpr ⟨hbefore, List.pairwise_singleton _ _, ?_⟩
        intro b hb c hc
        have hlt : as.idxOf b < as.length := List.idxOf_lt_length_of_mem (List.mem_eraseDups.mp hb)
        rw [List.mem_singleton.mp hc, hkept b hb, List.idxOf_append_of_notMem hmem]
        omega

/-- The list has the members of a sequence, once each and in the order in which they
first appear in it. -/
structure InOrderOfAppearance (listed sequence : List α) : Prop where
  nodup : listed.Nodup
  mem_iff : ∀ a, a ∈ listed ↔ a ∈ sequence
  inOrder : listed.Pairwise fun a b => sequence.idxOf a < sequence.idxOf b

namespace Distinct

variable [Hashable α] [LawfulHashable α]

/-- The collection is what the members of the list, one after another, make of
an empty one. -/
structure Gathers (d : Distinct α) (as : List α) : Prop where
  mem_seen : ∀ a, a ∈ d.seen ↔ a ∈ as
  toList_eq : d.toList = as.eraseDups

omit [LawfulBEq α] [LawfulHashable α] in
theorem gathers_empty : ({} : Distinct α).Gathers [] :=
  ⟨fun a => by simp, by simp [toList]⟩

theorem Gathers.insert {d : Distinct α} {as : List α} (h : d.Gathers as) (a : α) :
    (d.insert a).Gathers (as ++ [a]) := by
  unfold Distinct.insert
  by_cases hmem : a ∈ as
  · rw [if_pos (Std.HashSet.mem_iff_contains.mp ((h.mem_seen a).mpr hmem))]
    refine ⟨fun b => ?_, by rw [eraseDups_concat_of_mem hmem, h.toList_eq]⟩
    rw [h.mem_seen, List.mem_append, List.mem_singleton]
    constructor
    · exact .inl
    · rintro (hb | rfl)
      · exact hb
      · exact hmem
  · rw [if_neg fun hseen => hmem ((h.mem_seen a).mp (Std.HashSet.mem_iff_contains.mpr hseen))]
    refine ⟨fun b => ?_, ?_⟩
    · rw [Std.HashSet.mem_insert, h.mem_seen, List.mem_append, List.mem_singleton, beq_iff_eq,
        or_comm, eq_comm]
    · rw [eraseDups_concat_of_not_mem hmem, ← h.toList_eq]
      simp [toList]

theorem Gathers.insertAll {d : Distinct α} {before : List α} (h : d.Gathers before)
    (as : List α) : (d.insertAll as).Gathers (before ++ as) := by
  induction as generalizing d before with
  | nil =>
      rw [List.append_nil]
      exact h
  | cons a as ih =>
      have hrest := ih (h.insert a)
      rw [List.append_assoc] at hrest
      exact hrest

end Distinct

variable [Hashable α] [LawfulHashable α]

theorem firstOccurrences_eq_eraseDups (as : List α) : firstOccurrences as = as.eraseDups :=
  (Distinct.gathers_empty.insertAll as).toList_eq

theorem mem_firstOccurrences {as : List α} {a : α} : a ∈ firstOccurrences as ↔ a ∈ as := by
  rw [firstOccurrences_eq_eraseDups, List.mem_eraseDups]

theorem find?_firstOccurrences (p : α → Bool) (as : List α) :
    (firstOccurrences as).find? p = as.find? p := by
  rw [firstOccurrences_eq_eraseDups, find?_eraseDups]

theorem inOrderOfAppearance_firstOccurrences (as : List α) :
    InOrderOfAppearance (firstOccurrences as) as := by
  rw [firstOccurrences_eq_eraseDups]
  exact ⟨nodup_eraseDups as, fun _ => List.mem_eraseDups, pairwise_eraseDups as⟩

/-- What comes first in a sequence appears first. -/
theorem head?_firstOccurrences (a : α) (as : List α) :
    (firstOccurrences (a :: as)).head? = some a := by
  rw [firstOccurrences_eq_eraseDups, List.eraseDups_cons, List.head?_cons]

end ConstraintExpr

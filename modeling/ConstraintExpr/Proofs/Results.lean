import Mathlib.Data.List.Forall2
import Mathlib.Data.List.Perm.Basic

/-!
# First failures

Computations that may fail stop at the first failure, and a list of them
succeeds when each of them does (`mapM_eq_ok_iff`) and fails as the first one
that does not (`mapM_eq_error_iff`).
-/

namespace ConstraintExpr

variable {α β γ ε : Type}

@[simp] theorem ok_bind (a : α) (f : α → Except ε β) : (Except.ok a >>= f) = f a := rfl

@[simp] theorem error_bind (error : ε) (f : α → Except ε β) :
    ((Except.error error : Except ε α) >>= f) = .error error := rfl

theorem bind_eq_error_iff {x : Except ε α} {f : α → Except ε β} {error : ε} :
    x >>= f = .error error ↔ x = .error error ∨ ∃ a, x = .ok a ∧ f a = .error error := by
  cases x <;> simp

theorem bind_eq_ok_iff {x : Except ε α} {f : α → Except ε β} {b : β} :
    x >>= f = .ok b ↔ ∃ a, x = .ok a ∧ f a = .ok b := by
  cases x <;> simp

theorem mapError_eq_ok_iff {δ : Type} {x : Except ε α} {f : ε → δ} {a : α} :
    x.mapError f = .ok a ↔ x = .ok a := by
  cases x <;> simp [Except.mapError]

/-- A list of computations succeeds when each of them does. -/
theorem mapM_eq_ok_iff {f : α → Except ε β} {as : List α} {bs : List β} :
    as.mapM f = .ok bs ↔ List.Forall₂ (fun a b => f a = .ok b) as bs := by
  induction as generalizing bs with
  | nil => cases bs <;> simp [pure, Except.pure]
  | cons a as ih =>
      rw [List.mapM_cons]
      cases hfirst : f a with
      | error error => cases bs <;> simp [hfirst]
      | ok b =>
          cases hrest : as.mapM f with
          | error error => cases bs <;> simp [hfirst, ← ih, hrest]
          | ok rest => cases bs <;> simp [hfirst, ← ih, hrest, pure, Except.pure]

theorem exists_ok_of_mapM {f : α → Except ε β} {as : List α} {bs : List β}
    (h : as.mapM f = .ok bs) {a : α} (ha : a ∈ as) : ∃ b, f a = .ok b ∧ b ∈ bs := by
  induction mapM_eq_ok_iff.mp h with
  | nil => exact absurd ha List.not_mem_nil
  | cons hfirst hrest ih =>
      rcases List.mem_cons.mp ha with rfl | ha
      · exact ⟨_, hfirst, List.mem_cons_self⟩
      · obtain ⟨b, hb, hmem⟩ := ih (mapM_eq_ok_iff.mpr hrest) ha
        exact ⟨b, hb, List.mem_cons_of_mem _ hmem⟩

theorem exists_of_mem_mapM {f : α → Except ε β} {as : List α} {bs : List β}
    (h : as.mapM f = .ok bs) {b : β} (hb : b ∈ bs) : ∃ a ∈ as, f a = .ok b := by
  induction mapM_eq_ok_iff.mp h with
  | nil => exact absurd hb List.not_mem_nil
  | cons hfirst hrest ih =>
      rcases List.mem_cons.mp hb with rfl | hb
      · exact ⟨_, List.mem_cons_self, hfirst⟩
      · obtain ⟨a, ha, hresult⟩ := ih (mapM_eq_ok_iff.mpr hrest) hb
        exact ⟨a, List.mem_cons_of_mem _ ha, hresult⟩

/-- A list of computations fails as the first one that fails. -/
theorem mapM_eq_error_iff {f : α → Except ε β} {as : List α} {error : ε} :
    as.mapM f = .error error ↔
      ∃ before a after, as = before ++ a :: after ∧ (∀ b ∈ before, ∃ result, f b = .ok result) ∧
        f a = .error error := by
  induction as with
  | nil => simp [pure, Except.pure]
  | cons a as ih =>
      rw [List.mapM_cons]
      constructor
      · intro h
        rcases bind_eq_error_iff.mp h with hfirst | ⟨b, hfirst, h⟩
        · exact ⟨[], a, as, rfl, fun _ hmem => absurd hmem List.not_mem_nil, hfirst⟩
        · have hrest : as.mapM f = .error error := by
            rcases bind_eq_error_iff.mp h with hrest | ⟨_, _, hdone⟩
            · exact hrest
            · cases hdone
          obtain ⟨before, c, after, rfl, hbefore, hc⟩ := ih.mp hrest
          exact ⟨a :: before, c, after, rfl, List.forall_mem_cons.mpr ⟨⟨b, hfirst⟩, hbefore⟩, hc⟩
      · rintro ⟨before, c, after, hsplit, hbefore, hc⟩
        cases before with
        | nil =>
            obtain ⟨rfl, rfl⟩ := List.cons.inj hsplit
            exact bind_eq_error_iff.mpr (.inl hc)
        | cons first before =>
            obtain ⟨rfl, rfl⟩ := List.cons.inj hsplit
            obtain ⟨⟨b, hfirst⟩, hbefore⟩ := List.forall_mem_cons.mp hbefore
            have hrest := ih.mpr ⟨before, c, after, rfl, hbefore, hc⟩
            exact bind_eq_error_iff.mpr (.inr ⟨b, hfirst, bind_eq_error_iff.mpr (.inl hrest)⟩)

theorem exists_mapM_eq_ok {f : α → Except ε β} {as : List α} (h : ∀ a ∈ as, ∃ b, f a = .ok b) :
    ∃ bs, as.mapM f = .ok bs := by
  cases hresult : as.mapM f with
  | ok bs => exact ⟨bs, rfl⟩
  | error error =>
      obtain ⟨before, a, after, rfl, _, ha⟩ := mapM_eq_error_iff.mp hresult
      obtain ⟨b, hb⟩ := h a (by simp)
      rw [ha] at hb
      cases hb

theorem mapM_congr {f g : α → Except ε β} {as : List α} (h : ∀ a ∈ as, f a = g a) :
    as.mapM f = as.mapM g := by
  induction as with
  | nil => rfl
  | cons a as ih =>
      rw [List.mapM_cons, List.mapM_cons, h a List.mem_cons_self,
        ih fun b hb => h b (List.mem_cons_of_mem a hb)]

/-- What is done to each result can be done to all of them in the end. -/
theorem mapM_eq_map {f : α → Except ε β} {g : α → Except ε γ} {k : γ → β} {as : List α}
    (h : ∀ a ∈ as, f a = (g a).map k) : as.mapM f = (as.mapM g).map (List.map k) := by
  induction as with
  | nil => rfl
  | cons a as ih =>
      have hrest := ih fun b hb => h b (List.mem_cons_of_mem a hb)
      rw [List.mapM_cons, List.mapM_cons, h a List.mem_cons_self, hrest]
      cases g a with
      | error error => rfl
      | ok c => cases as.mapM g <;> rfl

theorem mapM_singleton (f : α → Except ε β) (a : α) :
    [a].mapM f = do let b ← f a; return [b] := by
  simp only [List.mapM_cons, List.mapM_nil, pure_bind]

theorem mapM_pair (f : α → Except ε β) (a b : α) :
    [a, b].mapM f = do let x ← f a; let y ← f b; return [x, y] := by
  simp only [List.mapM_cons, List.mapM_nil, pure_bind, bind_assoc]

/-- Where all of the computations succeed, so do some of them, any number of
times. -/
theorem mapM_subset {f : α → Except ε β} {as bs : List α} {results : List β} (hsub : bs ⊆ as)
    (h : as.mapM f = .ok results) : ∃ others, bs.mapM f = .ok others ∧ others ⊆ results := by
  induction bs with
  | nil => exact ⟨[], rfl, List.nil_subset results⟩
  | cons b bs ih =>
      obtain ⟨hb, hbs⟩ := List.cons_subset.mp hsub
      obtain ⟨others, hothers, hmem⟩ := ih hbs
      obtain ⟨result, hfirst, hresult⟩ := exists_ok_of_mapM h hb
      refine ⟨result :: others, ?_, List.cons_subset.mpr ⟨hresult, hmem⟩⟩
      rw [List.mapM_cons, hfirst, hothers]
      rfl

/-- The order of the computations is the order of their results. -/
theorem mapM_perm {f : α → Except ε β} {as bs : List α} {results : List β} (hperm : as.Perm bs)
    (h : as.mapM f = .ok results) : ∃ others, bs.mapM f = .ok others ∧ results.Perm others := by
  obtain ⟨others, hothers, hresults⟩ := List.perm_comp_forall₂ hperm.symm (mapM_eq_ok_iff.mp h)
  exact ⟨others, mapM_eq_ok_iff.mpr hothers, hresults.symm⟩

theorem length_of_mapM {f : α → Except ε β} {as : List α} {bs : List β}
    (h : as.mapM f = .ok bs) : bs.length = as.length :=
  (mapM_eq_ok_iff.mp h).length_eq.symm

theorem ne_nil_of_mapM {f : α → Except ε β} {as : List α} {bs : List β} (h : as.mapM f = .ok bs)
    (hne : as ≠ []) : bs ≠ [] := by
  rintro rfl
  exact hne (List.length_eq_zero_iff.mp (length_of_mapM h).symm)

end ConstraintExpr

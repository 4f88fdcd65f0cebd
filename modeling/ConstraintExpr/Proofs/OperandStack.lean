import ConstraintExpr.Proofs.Interruption
import ConstraintExpr.Proofs.Reachability

/-!
# The operand stack

A callback of the evaluator takes the operands of its node and leaves alone what lies
below them, on any stack and also when it fails (`Eval.visit_consumes_operands`). An
unlimited walk leaves alone all that it finds on the operand stack, whether it succeeds
or not.

* `Eval.Leaves` is the one operand that a tree adds when its walk succeeds;
* `Eval.Halts` says how a walk fails: which node is to blame, and which operands
  are left because their parents have not been called back for;
* `Eval.walk_stack_discipline` says both of every tree and every stack.
-/

namespace ConstraintExpr

namespace Operand

theorem toValue_eq_ok_iff {operand : Operand} {n : Int} :
    operand.toValue = .ok n ↔ operand = .value n := by
  cases operand <;> simp [toValue]

theorem toValues_eq_ok_iff {operands : List Operand} {xs : List Int} :
    toValues operands = .ok xs ↔ operands = xs.map .value := by
  rw [toValues, mapM_eq_ok_iff]
  simp only [toValue_eq_ok_iff]
  rw [← List.forall₂_map_right_iff, List.forall₂_eq_eq_eq]

end Operand

namespace Eval

variable {assignment : Assignment}

/-! ### Success -/

/-- The operand of a tree: of a range its bounds, of a set the values of the elements
in their order, and of any other tree its value. -/
def Leaves (assignment : Assignment) : Expr → Operand → Prop
  | .range lo hi, operand => operand = .range lo hi
  | .set elements, operand => ∃ xs, elements.mapM (evaluate assignment) = .ok xs ∧ operand = .set xs
  | e, operand => ∃ n, evaluate assignment e = .ok n ∧ operand = .value n

theorem evaluate_eq_ok_iff {e : Expr} {n : Int} :
    evaluate assignment e = .ok n ↔ (reduction assignment).value e = .ok (.value n) := by
  rw [evaluate_eq_bind, bind_eq_ok_iff]
  simp [Operand.toValue_eq_ok_iff]

/-- A set has an operand when all its elements have values. -/
theorem value_set_eq_ok_iff {elements : List Expr} {operand : Operand} :
    (reduction assignment).value (.set elements) = .ok operand ↔
      ∃ xs, elements.mapM (evaluate assignment) = .ok xs ∧ operand = .set xs := by
  have helements : ∀ xs, elements.mapM (evaluate assignment) = .ok xs ↔
      elements.mapM (reduction assignment).value = .ok (xs.map .value) := by
    intro xs
    simp only [mapM_eq_ok_iff, evaluate_eq_ok_iff, List.forall₂_map_right_iff]
  rw [Reduction.value_eq, bind_eq_ok_iff]
  simp only [helements]
  constructor
  · rintro ⟨operands, hoperands, h⟩
    obtain ⟨xs, hxs, h⟩ := bind_eq_ok_iff.mp h
    cases h
    rw [Operand.toValues_eq_ok_iff] at hxs
    subst hxs
    exact ⟨xs, hoperands, rfl⟩
  · rintro ⟨xs, hxs, rfl⟩
    refine ⟨xs.map .value, hxs, ?_⟩
    show Operand.toValues (xs.map .value) >>= _ = _
    rw [toValues_map_value]
    rfl

theorem value_eq_ok_iff_of_not_collection {e : Expr} (h : ¬ e.isCollection) {operand : Operand} :
    (reduction assignment).value e = .ok operand ↔
      ∃ n, evaluate assignment e = .ok n ∧ operand = .value n := by
  rw [value_eq_map_evaluate assignment h]
  cases evaluate assignment e <;> simp [Except.map, eq_comm]

theorem leaves_iff {e : Expr} {operand : Operand} :
    Leaves assignment e operand ↔ (reduction assignment).value e = .ok operand := by
  cases e with
  | range lo hi =>
      rw [Reduction.value_eq]
      exact ⟨fun h => congrArg Except.ok h.symm, fun h => (Except.ok.inj h).symm⟩
  | set elements => exact value_set_eq_ok_iff.symm
  | _ =>
      symm
      refine value_eq_ok_iff_of_not_collection ?_
      exact Bool.false_ne_true

/-! ### Failure -/

/-- The walk of a tree on an empty stack fails. The callback for the node at `failing`
is the first one to fail, after those for the nodes `done`. It takes the operands of
the children of its node, and what is `left`, the newest first, are the operands of
those nodes done with whose parent has not been called back for. -/
structure Halts (assignment : Assignment) (e : Expr) (done : List Address) (failing : Address)
    (error : EvalError) (left : List Operand) : Prop where
  inOrder : ∃ rest, e.addresses = done ++ failing :: rest
  unclaimed : List.Forall₂
    (fun a operand => ∃ below, e.node? a = some below ∧ Leaves assignment below operand)
    (Address.unclaimed done failing) left.reverse
  call : ∃ node taken, e.node? failing = some node ∧
    List.Forall₂ (Leaves assignment) node.children taken ∧
    (visitor assignment).callback.callEach e 1 done [] = (.ok (), taken.reverse ++ left) ∧
    (visitor assignment).visit node (taken.reverse ++ left) = (.error error, left)

theorem Halts.of_stop {e : Expr} {done : List Address} {failing : Address} {error : EvalError}
    {waiting : List Operand} (h : (reduction assignment).Stop e done failing waiting error) :
    Halts assignment e done failing error waiting.reverse := by
  obtain ⟨rest, hrest⟩ := h.inOrder
  obtain ⟨node, taken, hnode, htaken, herror, hcalls⟩ := h.call
  refine ⟨⟨rest, hrest⟩, ?_, node, taken, hnode, ?_, ?_, ?_⟩
  · rw [Expr.unclaimed_eq_earlierSiblings hrest, List.reverse_reverse]
    refine h.resultAt.imp fun a operand hresult => ?_
    obtain ⟨below, hbelow, hvalue⟩ := hresult
    exact ⟨below, hbelow, leaves_iff.mpr hvalue⟩
  · exact (mapM_eq_ok_iff.mp htaken).imp fun _ _ => leaves_iff.mpr
  · have hempty := hcalls 1 []
    rw [List.append_nil, ← visitor_eq_reduction] at hempty
    exact hempty
  · have hvisit := (reduction assignment).act_append node (length_of_mapM htaken) waiting.reverse
    rw [herror, ← visitor_eq_reduction] at hvisit
    exact hvisit

/-- What is called back for first decides how the walk ends. -/
theorem Halts.walk_eq {e : Expr} {done : List Address} {failing : Address} {error : EvalError}
    {left : List Operand} (h : Halts assignment e done failing error left) :
    (visitor assignment).walk none e [] = (.error error, left) := by
  obtain ⟨rest, hrest⟩ := h.inOrder
  obtain ⟨node, taken, hnode, _, hcalls, hvisit⟩ := h.call
  have hcall : (visitor assignment).callback.callAt e 1 failing (taken.reverse ++ left) =
      (.error error, left) := by
    rw [Callback.callAt, hnode]
    exact hvisit
  rw [Visitor.walk_eq, Visitor.traverse, Callback.traverse_none, hrest, Callback.callEach_append,
    Action.andThen_of_ok hcalls, Callback.callEach_cons]
  exact Action.andThen_of_error hcall

/-! ### Callbacks on any stack -/

/-- Whatever is on the stack, the callback for a node takes as many operands off the top
as the node has children, or all there are. The operands taken decide whether it
succeeds and adds one operand, or fails and adds none. It never reads what lies below
them, and leaves that as it was. -/
theorem visit_consumes_operands (assignment : Assignment) (e : Expr) :
    ∃ outcome : List Operand → Except EvalError Operand, ∀ stack : List Operand,
      Reduction.taken e stack ++ Reduction.base e stack = stack ∧
        (Reduction.taken e stack).length = min e.children.length stack.length ∧
        ((∃ operand, outcome (Reduction.taken e stack) = .ok operand ∧
            (visitor assignment).visit e stack = (.ok (), operand :: Reduction.base e stack)) ∨
          ∃ error, outcome (Reduction.taken e stack) = .error error ∧
            (visitor assignment).visit e stack = (.error error, Reduction.base e stack)) := by
  refine ⟨fun operands => combine assignment e.label operands.reverse, fun stack =>
    ⟨Reduction.taken_append_base e stack, Reduction.length_taken e stack, ?_⟩⟩
  have hvisit := (reduction assignment).visit_eq e stack
  rw [← visitor_eq_reduction] at hvisit
  cases hcombine : (reduction assignment).combine e.label (Reduction.taken e stack).reverse with
  | ok operand =>
      rw [hcombine] at hvisit
      exact .inl ⟨operand, hcombine, hvisit⟩
  | error error =>
      rw [hcombine] at hvisit
      exact .inr ⟨error, hcombine, hvisit⟩

/-! ### Walks on any stack -/

/-- An unlimited walk does the same on any stack as on an empty one, and at no time is
anything that was there before read or lost. When it succeeds, it has added one operand,
that of the tree; when it fails, it has added those operands that no node has taken yet,
and the node that has failed has taken its own. -/
theorem walk_stack_discipline (assignment : Assignment) (e : Expr) :
    (∀ below, (visitor assignment).walk none e below =
        (((visitor assignment).walk none e []).1,
          ((visitor assignment).walk none e []).2 ++ below)) ∧
      (∀ below frames stack,
        Walk.Reaches none (visitor assignment).callback ([.pending e 1], below) (frames, stack) →
          ∃ own, stack = own ++ below ∧
            Walk.Reaches none (visitor assignment).callback ([.pending e 1], []) (frames, own)) ∧
      (∀ own, (visitor assignment).walk none e [] = (.ok (), own) ↔
        ∃ operand, own = [operand] ∧ Leaves assignment e operand) ∧
      ∀ error own, (visitor assignment).walk none e [] = (.error error, own) ↔
        ∃ done failing, Halts assignment e done failing error own := by
  obtain ⟨left, hwalk⟩ := (reduction assignment).exists_walk e
  have hempty := hwalk []
  refine ⟨fun below => ?_, fun below frames stack hreaches => ?_,
    fun own => ?_, fun error own => ⟨fun h => ?_, fun ⟨_, _, h⟩ => h.walk_eq⟩⟩
  · rw [visitor_eq_reduction, hwalk below, hempty]
    cases (reduction assignment).value e <;> simp
  · rw [visitor_eq_reduction] at hreaches ⊢
    exact Reduction.exists_own_of_reaches hreaches
  · rw [visitor_eq_reduction, hempty]
    simp only [leaves_iff]
    cases (reduction assignment).value e <;> simp [eq_comm]
  · cases hvalue : (reduction assignment).value e with
    | ok operand =>
        rw [hvalue] at hempty
        rw [visitor_eq_reduction, hempty] at h
        cases h
    | error failure =>
        obtain ⟨done, failing, waiting, hstop⟩ := Reduction.exists_stop hvalue
        have hhalts := Halts.of_stop hstop
        rw [hhalts.walk_eq] at h
        cases h
        exact ⟨done, failing, hhalts⟩

end Eval

end ConstraintExpr

import ConstraintExpr.Proofs.Calls

/-!
# Visitors that support some kinds of node

A visitor without callbacks for some kinds of node gets through the trees that have
no node of these kinds. In any other tree it fails at the first such node in
post-order, and has called back for all nodes before it.

* `Expr.FirstUnsupported` is that node with those before it, and every tree with an
  unsupported node has one (`Expr.supported_or_firstUnsupported`);
* `Visitor.walk_restrict_eq`: the walk as the calls for these nodes and the failure;
* `Visitor.walk_restrict`: the outcomes of a visitor whose callbacks do not fail.
-/

namespace ConstraintExpr

namespace Expr

/-- All nodes of the tree are of supported kinds. -/
def Supported (e : Expr) (supports : NodeKind → Bool) : Prop :=
  ∀ a node, e.node? a = some node → supports node.kind

/-- Of the nodes in post-order, `done` come before the one at `failing`, which is the
first one of an unsupported kind. -/
structure FirstUnsupported (e : Expr) (supports : NodeKind → Bool) (done : List Address)
    (failing : Address) (node : Expr) : Prop where
  inOrder : ∃ rest, e.addresses = done ++ failing :: rest
  node_eq : e.node? failing = some node
  unsupported : supports node.kind = false
  before : ∀ a ∈ done, ∀ below, e.node? a = some below → supports below.kind

theorem supported_or_firstUnsupported (e : Expr) (supports : NodeKind → Bool) :
    e.Supported supports ∨ ∃ done failing node, e.FirstUnsupported supports done failing node := by
  cases hfind : e.addresses.find? fun a => (e.node? a).any fun node => !supports node.kind with
  | none =>
      refine .inl fun a node hnode => ?_
      have ha : a ∈ e.addresses := mem_addresses.mpr (Option.isSome_of_eq_some hnode)
      simpa [hnode] using List.find?_eq_none.mp hfind a ha
  | some failing =>
      obtain ⟨hfailing, done, rest, hsplit, hdone⟩ := List.find?_eq_some_iff_append.mp hfind
      obtain ⟨node, hnode, hkind⟩ : ∃ node, e.node? failing = some node ∧
          supports node.kind = false := by
        cases hnode : e.node? failing with
        | none => simp [hnode] at hfailing
        | some node => exact ⟨node, rfl, by simpa [hnode] using hfailing⟩
      refine .inr ⟨done, failing, node, ⟨rest, hsplit⟩, hnode, hkind, ?_⟩
      intro a ha below hbelow
      simpa [hbelow] using hdone a ha

/-- A tree that has a first unsupported node has nodes that are not supported. -/
theorem FirstUnsupported.not_supported {e : Expr} {supports : NodeKind → Bool}
    {done : List Address} {failing : Address} {node : Expr}
    (h : e.FirstUnsupported supports done failing node) : ¬ e.Supported supports := by
  intro hsupported
  have hkind := hsupported failing node h.node_eq
  rw [h.unsupported] at hkind
  exact Bool.false_ne_true hkind

end Expr

namespace Visitor

variable {σ ε : Type} {supports : NodeKind → Bool}

/-- The callbacks for the nodes of the tree that are of these kinds do not fail. -/
def Succeeds (v : Visitor σ ε) (e : Expr) (supports : NodeKind → Bool) : Prop :=
  ∀ a node, e.node? a = some node → supports node.kind →
    ∀ state, ∃ next, v.visit node state = (.ok (), next)

/-! ### Calls for single nodes -/

/-- For supported nodes, the callbacks left out make no difference. -/
theorem callEach_restrict (v : Visitor σ ε) {e : Expr} {as : List Address}
    (h : ∀ a ∈ as, ∀ node, e.node? a = some node → supports node.kind) (depth : Nat) :
    (v.restrict supports).callback.callEach e depth as = v.callback.callEach e depth as := by
  refine congrArg Action.sequence (List.map_congr_left fun a ha => ?_)
  rw [Callback.callAt, Callback.callAt]
  cases hnode : e.node? a with
  | none => rfl
  | some node => exact (v.visit_restrict supports node).trans (if_pos (h a ha node hnode))

theorem callEach_eq_ok {v : Visitor σ ε} {e : Expr} (hv : v.Succeeds e supports)
    {as : List Address}
    (h : ∀ a ∈ as, ∀ node, e.node? a = some node → supports node.kind) (depth : Nat) (state : σ) :
    ∃ final, v.callback.callEach e depth as state = (.ok (), final) := by
  induction as generalizing state with
  | nil => exact ⟨state, rfl⟩
  | cons a as ih =>
      have hfirst : ∃ next, v.callback.callAt e depth a state = (.ok (), next) := by
        rw [Callback.callAt]
        cases hnode : e.node? a with
        | none => exact ⟨state, rfl⟩
        | some node => exact hv a node hnode (h a List.mem_cons_self node hnode) state
      obtain ⟨next, hnext⟩ := hfirst
      obtain ⟨final, hfinal⟩ := ih (fun b hb => h b (List.mem_cons_of_mem a hb)) next
      exact ⟨final, (Action.andThen_of_ok hnext).trans hfinal⟩

/-! ### Walks -/

/-- Nothing but the kinds of the nodes decides how far the walk gets. -/
theorem walk_restrict_eq (v : Visitor σ ε) {e : Expr} {done : List Address} {failing : Address}
    {node : Expr} (h : e.FirstUnsupported supports done failing node) :
    (v.restrict supports).walk none e =
      (v.callback.callEach e 1 done).andThen
        (.fail (v.onTraversal (.unsupported node.kind))) := by
  obtain ⟨rest, hsplit⟩ := h.inOrder
  have hfailing : (v.restrict supports).callback.callAt e 1 failing =
      .fail (v.onTraversal (.unsupported node.kind)) := by
    rw [Callback.callAt, h.node_eq]
    exact (v.visit_restrict supports node).trans (if_neg (by simp [h.unsupported]))
  have hrest : (v.restrict supports).callback.callEach e 1 (failing :: rest) =
      .fail (v.onTraversal (.unsupported node.kind)) := by
    rw [Callback.callEach_cons, hfailing, Action.fail_andThen]
  rw [walk_eq, traverse, Callback.traverse_none, hsplit, Callback.callEach_append,
    v.callEach_restrict h.before, hrest]

/-- In a tree of supported nodes, the callbacks left out make no difference to a walk. -/
theorem walk_restrict_of_supported (v : Visitor σ ε) {e : Expr} (h : e.Supported supports) :
    (v.restrict supports).walk none e = v.callback.callEach e 1 e.addresses := by
  rw [walk_eq, traverse, Callback.traverse_none, v.callEach_restrict fun a _ => h a]

/-- A visitor of some kinds of node whose callbacks do not fail gets through a tree if and
only if all nodes are of these kinds, and has called back for all of them. In any other
tree it fails for the first node in post-order that is of another kind, and has called
back for the nodes before that one. -/
theorem walk_restrict (v : Visitor σ ε) (e : Expr) (hv : v.Succeeds e supports) (state : σ) :
    ((∃ final, (v.restrict supports).walk none e state = (.ok (), final)) ↔
        e.Supported supports) ∧
      (e.Supported supports →
        (v.restrict supports).walk none e state = v.callback.callEach e 1 e.addresses state) ∧
      (¬ e.Supported supports →
        ∃ done failing node final, e.FirstUnsupported supports done failing node ∧
          v.callback.callEach e 1 done state = (.ok (), final) ∧
          (v.restrict supports).walk none e state =
            (.error (v.onTraversal (.unsupported node.kind)), final)) := by
  rcases e.supported_or_firstUnsupported supports with hall | ⟨done, failing, node, hfirst⟩
  · have hwalk := v.walk_restrict_of_supported hall
    obtain ⟨final, hfinal⟩ := callEach_eq_ok hv (fun a (_ : a ∈ e.addresses) => hall a) 1 state
    rw [hwalk]
    exact ⟨⟨fun _ => hall, fun _ => ⟨final, hfinal⟩⟩, fun _ => rfl, fun hnot => absurd hall hnot⟩
  · have hnot := hfirst.not_supported
    obtain ⟨final, hfinal⟩ := callEach_eq_ok hv hfirst.before 1 state
    have hwalk : (v.restrict supports).walk none e state =
        (.error (v.onTraversal (.unsupported node.kind)), final) := by
      rw [v.walk_restrict_eq hfirst, Action.andThen_of_ok hfinal]
      rfl
    refine ⟨⟨?_, fun hall => absurd hall hnot⟩, fun hall => absurd hall hnot,
      fun _ => ⟨done, failing, node, final, hfirst, hfinal, hwalk⟩⟩
    rintro ⟨_, hok⟩
    rw [hwalk] at hok
    cases hok

/-- A recorder without a callback for unary operators does not get through a negation. -/
theorem walk_restrict_recorder_neg :
    let e : Expr := .unary (.arith .neg) (.var "x")
    recorder.Succeeds e (· != .unary) ∧ ¬ e.Supported (· != .unary) ∧
      ∃ noted, (recorder.restrict (· != .unary)).walk none e [] =
        (.error (.unsupported .unary), noted) := by
  intro e
  have hv : recorder.Succeeds e (· != .unary) :=
    fun _ node _ _ noted => ⟨noted ++ [node.label], by rw [visit_recorder]; rfl⟩
  have hnot : ¬ e.Supported (· != .unary) := fun hall => absurd (hall [] e rfl) (by decide)
  obtain ⟨done, failing, node, noted, hfirst, _, hwalk⟩ := (walk_restrict recorder e hv []).2.2 hnot
  have hkind : node.kind = .unary := by simpa using hfirst.unsupported
  exact ⟨hv, hnot, noted, by rw [hwalk, hkind]; rfl⟩

end Visitor

end ConstraintExpr

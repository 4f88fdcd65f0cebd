import Mathlib.Tactic.FinCases
import ConstraintExpr.Proofs.Violation

/-!
# Trees from the builders

A session is a finite sequence of calls of the builders. Operands come from what
earlier calls have returned: the trees themselves and everything below them,
bare ranges and sets included.

* `Session.wellFormed` and `Session.exists_of_wellFormed` say that the trees so
  obtained are the well-formed ones, and that no call has to fail on the way to
  any of them;
* `obtainable_iff` forgets the session.
-/

namespace ConstraintExpr

/-! ### Sessions -/

/-- What a call returns. -/
abbrev Outcome := Except BuildError Expr

/-- A tree that calls with these outcomes have made available: one of the trees
returned, or a subtree of it. -/
def Available (outcomes : List Outcome) (e : Expr) : Prop :=
  ∃ tree a, .ok tree ∈ outcomes ∧ tree.node? a = some e

namespace Build

/-- The builders of one operand, by the operators that they apply. -/
def unaryOperators : List (Operator × (Expr → Build Expr)) :=
  [(.arith .neg, neg), (.arith .abs, abs), (.arith .sqr, sqr), (.logic .not, not)]

def binaryOperators : List (Operator × (Expr → Expr → Build Expr)) :=
  [(.arith .sub, sub), (.arith .div, div), (.arith .mod, mod), (.arith .pow, pow),
    (.arith .dist, dist), (.logic .imp, imp), (.rel .lt, lt), (.rel .le, le), (.rel .eq, eq),
    (.rel .ne, ne), (.rel .ge, ge), (.rel .gt, gt)]

def naryOperators : List (Operator × (List Expr → Build Expr)) :=
  [(.arith .add, add), (.arith .mul, mul), (.arith .min, min), (.arith .max, max),
    (.logic .and, and), (.logic .or, or), (.logic .xor, xor), (.logic .iff, iff)]

def rangeOperators : List (SetOp × (Expr → Int → Int → Build Expr)) :=
  [(.belongs, inRange), (.avoids, notInRange)]

def setOperators : List (SetOp × (Expr → List Expr → Build Expr)) :=
  [(.belongs, inSet), (.avoids, notInSet)]

end Build

/-- The calls that can be made with the operands available. -/
inductive Call (available : Expr → Prop) : Build Expr → Prop
  | constant (value) : Call available (pure (.constant value))
  | var (id) : Call available (pure (.var id))
  | range (lo hi) : Call available (pure (.range lo hi))
  | unary (op) {operand} : available operand → Call available (Build.unary op operand)
  | binary (op) {left right} : available left → available right →
      Call available (Build.binary op left right)
  | nary (op) {operands} : (∀ operand ∈ operands, available operand) →
      Call available (Build.nary op operands)
  | ifThenElse {condition ifTrue ifFalse} : available condition → available ifTrue →
      available ifFalse → Call available (Build.ifThenElse condition ifTrue ifFalse)
  | set {elements} : (∀ element ∈ elements, available element) →
      Call available (Build.set elements)
  | unaryKeyword {op build operand} : (op, build) ∈ Build.unaryOperators → available operand →
      Call available (build operand)
  | binaryKeyword {op build left right} : (op, build) ∈ Build.binaryOperators → available left →
      available right → Call available (build left right)
  | naryKeyword {op build operands} : (op, build) ∈ Build.naryOperators →
      (∀ operand ∈ operands, available operand) → Call available (build operands)
  | rangeKeyword {op build e} (lo hi) : (op, build) ∈ Build.rangeOperators → available e →
      Call available (build e lo hi)
  | setKeyword {op build e elements} : (op, build) ∈ Build.setOperators → available e →
      (∀ element ∈ elements, available element) → Call available (build e elements)

/-- The outcomes of calls made one after another, the last one first. -/
inductive Session : List Outcome → Prop
  | start : Session []
  | call {outcomes build} : Session outcomes → Call (Available outcomes) build →
      Session (build.result :: outcomes)

/-- A tree that some session makes available. -/
def Obtainable (e : Expr) : Prop :=
  ∃ outcomes, Session outcomes ∧ Available outcomes e

/-! ### Builders named after their operator -/

namespace Build

theorem arity_of_mem_unaryOperators {op : Operator} {build : Expr → Build Expr}
    (h : (op, build) ∈ unaryOperators) : op.arity = .unary ∧ build = unary op := by
  unfold unaryOperators at h
  fin_cases h <;> exact ⟨rfl, rfl⟩

theorem arity_of_mem_binaryOperators {op : Operator} {build : Expr → Expr → Build Expr}
    (h : (op, build) ∈ binaryOperators) :
    op.arity = .binary ∧ op.isSetBelonging = false ∧ build = binary op := by
  unfold binaryOperators at h
  fin_cases h <;> exact ⟨rfl, rfl, rfl⟩

theorem arity_of_mem_naryOperators {op : Operator} {build : List Expr → Build Expr}
    (h : (op, build) ∈ naryOperators) : op.arity = .nary ∧ build = nary op := by
  unfold naryOperators at h
  fin_cases h <;> exact ⟨rfl, rfl⟩

theorem eq_of_mem_rangeOperators {op : SetOp} {build : Expr → Int → Int → Build Expr}
    (h : (op, build) ∈ rangeOperators) :
    build = fun e lo hi => binary (.member op) e (.range lo hi) := by
  unfold rangeOperators at h
  fin_cases h <;> rfl

theorem eq_of_mem_setOperators {op : SetOp} {build : Expr → List Expr → Build Expr}
    (h : (op, build) ∈ setOperators) :
    build = fun e elements => set elements >>= binary (.member op) e := by
  unfold setOperators at h
  fin_cases h <;> rfl

/-- A builder that goes by the violation at the root of its node makes a
well-formed tree of well-formed children. -/
theorem Judges.wellFormed {build : Build Expr} {e tree : Expr}
    (h : build.Judges tree.violation tree) (hchildren : ∀ child ∈ tree.children, child.WellFormed)
    (hresult : build.result = .ok e) : e.WellFormed := by
  obtain ⟨hviolation, rfl⟩ := h.result_eq_ok_iff.mp hresult
  exact .intro (Expr.violation_eq_none_iff.mp hviolation) hchildren

theorem wellFormed_unary {op : Operator} {operand e : Expr} (hoperand : operand.WellFormed)
    (hresult : (unary op operand).result = .ok e) : e.WellFormed := by
  refine (judges_unary op operand).wellFormed ?_ hresult
  intro child hchild
  rw [List.mem_singleton.mp hchild]
  exact hoperand

theorem wellFormed_binary {op : Operator} {left right e : Expr} (hleft : left.WellFormed)
    (hright : right.WellFormed) (hresult : (binary op left right).result = .ok e) :
    e.WellFormed := by
  refine (judges_binary op left right).wellFormed ?_ hresult
  intro child hchild
  simp only [Expr.children, List.mem_cons, List.not_mem_nil, or_false] at hchild
  rcases hchild with rfl | rfl
  · exact hleft
  · exact hright

theorem wellFormed_nary {op : Operator} {operands : List Expr} {e : Expr}
    (hoperands : ∀ operand ∈ operands, operand.WellFormed)
    (hresult : (nary op operands).result = .ok e) : e.WellFormed :=
  (judges_nary op operands).wellFormed hoperands hresult

theorem wellFormed_ifThenElse {condition ifTrue ifFalse e : Expr}
    (hcondition : condition.WellFormed) (hifTrue : ifTrue.WellFormed)
    (hifFalse : ifFalse.WellFormed)
    (hresult : (ifThenElse condition ifTrue ifFalse).result = .ok e) : e.WellFormed := by
  refine (judges_ifThenElse condition ifTrue ifFalse).wellFormed ?_ hresult
  intro child hchild
  simp only [Expr.children, List.mem_cons, List.not_mem_nil, or_false] at hchild
  rcases hchild with rfl | rfl | rfl
  · exact hcondition
  · exact hifTrue
  · exact hifFalse

theorem wellFormed_set {elements : List Expr} {e : Expr}
    (helements : ∀ element ∈ elements, element.WellFormed)
    (hresult : (set elements).result = .ok e) : e.WellFormed :=
  (judges_set elements).wellFormed helements hresult

/-- The builders of memberships in a set make the set before their own node. -/
theorem wellFormed_set_bind {op : Operator} {left e : Expr} {elements : List Expr}
    (hleft : left.WellFormed) (helements : ∀ element ∈ elements, element.WellFormed)
    (hresult : (set elements >>= binary op left).result = .ok e) : e.WellFormed := by
  obtain ⟨hviolation, hbinary⟩ := (judges_set elements).bind_result_eq_ok_iff.mp hresult
  have hset : (set elements).result = .ok (.set elements) :=
    (judges_set elements).result_eq_ok_iff.mpr ⟨hviolation, rfl⟩
  exact wellFormed_binary hleft (wellFormed_set helements hset) hbinary

end Build

/-! ### What sessions obtain is well-formed -/

theorem Expr.wellFormed_of_children_eq_nil {e : Expr} (hroot : e.WellPlaced)
    (hchildren : e.children = []) : e.WellFormed := by
  refine .intro hroot ?_
  rw [hchildren]
  exact fun child hchild => absurd hchild List.not_mem_nil

/-- Calls on well-formed operands return well-formed trees. -/
theorem Call.wellFormed {available : Expr → Prop} {build : Build Expr} {e : Expr}
    (hcall : Call available build) (h : ∀ operand, available operand → operand.WellFormed)
    (hresult : build.result = .ok e) : e.WellFormed := by
  have leaf : ∀ {tree : Expr}, (pure tree : Build Expr).result = .ok e → tree.WellPlaced →
      tree.children = [] → e.WellFormed := by
    intro tree hresult hroot hchildren
    cases hresult
    exact Expr.wellFormed_of_children_eq_nil hroot hchildren
  have range : ∀ lo hi, (Expr.range lo hi).WellFormed := fun lo hi =>
    Expr.wellFormed_of_children_eq_nil trivial rfl
  cases hcall with
  | constant => exact leaf hresult trivial rfl
  | var => exact leaf hresult trivial rfl
  | range => exact leaf hresult trivial rfl
  | unary op hoperand => exact Build.wellFormed_unary (h _ hoperand) hresult
  | binary op hleft hright => exact Build.wellFormed_binary (h _ hleft) (h _ hright) hresult
  | nary op hoperands =>
      exact Build.wellFormed_nary (fun operand hmem => h operand (hoperands operand hmem)) hresult
  | ifThenElse hcondition hifTrue hifFalse =>
      exact Build.wellFormed_ifThenElse (h _ hcondition) (h _ hifTrue) (h _ hifFalse) hresult
  | set helements =>
      exact Build.wellFormed_set (fun element hmem => h element (helements element hmem)) hresult
  | unaryKeyword hbuild hoperand =>
      obtain ⟨_, rfl⟩ := Build.arity_of_mem_unaryOperators hbuild
      exact Build.wellFormed_unary (h _ hoperand) hresult
  | binaryKeyword hbuild hleft hright =>
      obtain ⟨_, _, rfl⟩ := Build.arity_of_mem_binaryOperators hbuild
      exact Build.wellFormed_binary (h _ hleft) (h _ hright) hresult
  | naryKeyword hbuild hoperands =>
      obtain ⟨_, rfl⟩ := Build.arity_of_mem_naryOperators hbuild
      exact Build.wellFormed_nary (fun operand hmem => h operand (hoperands operand hmem)) hresult
  | rangeKeyword lo hi hbuild he =>
      obtain rfl := Build.eq_of_mem_rangeOperators hbuild
      exact Build.wellFormed_binary (h _ he) (range lo hi) hresult
  | setKeyword hbuild he helements =>
      obtain rfl := Build.eq_of_mem_setOperators hbuild
      exact Build.wellFormed_set_bind (h _ he)
        (fun element hmem => h element (helements element hmem)) hresult

/-- Everything that the calls of a session make available is well-formed. -/
theorem Session.wellFormed {outcomes : List Outcome} (h : Session outcomes) {e : Expr}
    (he : Available outcomes e) : e.WellFormed := by
  induction h generalizing e with
  | start =>
      obtain ⟨tree, a, htree, hnode⟩ := he
      exact absurd htree List.not_mem_nil
  | call hsession hcall ih =>
      obtain ⟨tree, a, htree, hnode⟩ := he
      rcases List.mem_cons.mp htree with hnew | hold
      · exact (hcall.wellFormed (fun operand hoperand => ih hoperand) hnew.symm).of_node? hnode
      · exact ih ⟨tree, a, hold, hnode⟩

/-! ### Well-formed trees are obtained -/

/-- No call has failed. -/
def AllSucceed (outcomes : List Outcome) : Prop :=
  ∀ outcome ∈ outcomes, ∃ e, outcome = .ok e

theorem Available.of_mem {outcomes : List Outcome} {e : Expr} (h : .ok e ∈ outcomes) :
    Available outcomes e :=
  ⟨e, [], h, rfl⟩

/-- A well placed node is made by one call once its children are there. -/
theorem Call.exists_of_wellPlaced {available : Expr → Prop} {e : Expr} (hroot : e.WellPlaced)
    (hchildren : ∀ child ∈ e.children, available child) :
    ∃ build, Call available build ∧ build.result = .ok e := by
  have hviolation := Expr.violation_eq_none_iff.mpr hroot
  cases e with
  | constant value => exact ⟨_, .constant value, rfl⟩
  | var id => exact ⟨_, .var id, rfl⟩
  | range lo hi => exact ⟨_, .range lo hi, rfl⟩
  | unary op operand =>
      exact ⟨_, .unary op (hchildren operand (by simp [Expr.children])),
        (Build.judges_unary op operand).result_eq_ok_iff.mpr ⟨hviolation, rfl⟩⟩
  | binary op left right =>
      exact ⟨_, .binary op (hchildren left (by simp [Expr.children]))
          (hchildren right (by simp [Expr.children])),
        (Build.judges_binary op left right).result_eq_ok_iff.mpr ⟨hviolation, rfl⟩⟩
  | nary op operands =>
      exact ⟨_, .nary op hchildren,
        (Build.judges_nary op operands).result_eq_ok_iff.mpr ⟨hviolation, rfl⟩⟩
  | ifThenElse condition ifTrue ifFalse =>
      exact ⟨_, .ifThenElse (hchildren condition (by simp [Expr.children]))
          (hchildren ifTrue (by simp [Expr.children]))
          (hchildren ifFalse (by simp [Expr.children])),
        (Build.judges_ifThenElse condition ifTrue ifFalse).result_eq_ok_iff.mpr
          ⟨hviolation, rfl⟩⟩
  | set elements =>
      exact ⟨_, .set hchildren,
        (Build.judges_set elements).result_eq_ok_iff.mpr ⟨hviolation, rfl⟩⟩

namespace Session

/-- The trees can be added to what any session of successful calls has returned,
by further calls that succeed. -/
def Extends (es : List Expr) : Prop :=
  ∀ outcomes, Session outcomes → AllSucceed outcomes →
    ∃ more, outcomes ⊆ more ∧ Session more ∧ AllSucceed more ∧ ∀ e ∈ es, .ok e ∈ more

theorem Extends.all {es : List Expr} (h : ∀ e ∈ es, Extends [e]) : Extends es := by
  induction es with
  | nil =>
      intro outcomes hsession hsucceed
      exact ⟨outcomes, List.Subset.refl _, hsession, hsucceed,
        fun e he => absurd he List.not_mem_nil⟩
  | cons e es ih =>
      intro outcomes hsession hsucceed
      obtain ⟨next, hsub, hsession, hsucceed, hfirst⟩ :=
        h e List.mem_cons_self outcomes hsession hsucceed
      obtain ⟨more, hmore, hsession, hsucceed, hrest⟩ :=
        ih (fun e he => h e (List.mem_cons_of_mem _ he)) next hsession hsucceed
      refine ⟨more, List.Subset.trans hsub hmore, hsession, hsucceed, fun tree htree => ?_⟩
      rcases List.mem_cons.mp htree with rfl | htree
      · exact hmore (hfirst tree List.mem_cons_self)
      · exact hrest tree htree

/-- The children are made first, then the node itself. -/
theorem extends_of_wellFormed {e : Expr} (h : e.WellFormed) : Extends [e] := by
  induction h with
  | intro hroot _ ih =>
      rename_i e _
      intro outcomes hsession hsucceed
      obtain ⟨next, hsub, hsession, hsucceed, hchildren⟩ :=
        Extends.all ih outcomes hsession hsucceed
      obtain ⟨build, hcall, hresult⟩ := Call.exists_of_wellPlaced hroot
        fun child hchild => Available.of_mem (hchildren child hchild)
      have hmore := Session.call hsession hcall
      rw [hresult] at hmore
      refine ⟨.ok e :: next, fun outcome hmem => List.mem_cons_of_mem _ (hsub hmem), hmore,
        ?_, ?_⟩
      · intro outcome hmem
        rcases List.mem_cons.mp hmem with rfl | hmem
        · exact ⟨e, rfl⟩
        · exact hsucceed outcome hmem
      · intro tree htree
        rw [List.mem_singleton.mp htree]
        exact List.mem_cons_self

theorem exists_of_wellFormed {e : Expr} (h : e.WellFormed) :
    ∃ outcomes, Session outcomes ∧ AllSucceed outcomes ∧ .ok e ∈ outcomes := by
  obtain ⟨more, _, hsession, hsucceed, hmem⟩ := extends_of_wellFormed h [] .start
    fun outcome houtcome => absurd houtcome List.not_mem_nil
  exact ⟨more, hsession, hsucceed, hmem e List.mem_cons_self⟩

/-- Sessions obtain well-formed trees only, and every well-formed tree is
returned in a session in which every call succeeds. -/
theorem obtains_exactly_wellFormed :
    (∀ outcomes e, Session outcomes → Available outcomes e → e.WellFormed) ∧
      ∀ e : Expr, e.WellFormed →
        ∃ outcomes, Session outcomes ∧ AllSucceed outcomes ∧ .ok e ∈ outcomes :=
  ⟨fun _ _ hsession he => hsession.wellFormed he, fun _ h => exists_of_wellFormed h⟩

end Session

theorem obtainable_iff {e : Expr} : Obtainable e ↔ e.WellFormed := by
  constructor
  · rintro ⟨outcomes, hsession, he⟩
    exact hsession.wellFormed he
  · intro h
    obtain ⟨outcomes, hsession, _, hmem⟩ := Session.exists_of_wellFormed h
    exact ⟨outcomes, hsession, Available.of_mem hmem⟩

end ConstraintExpr

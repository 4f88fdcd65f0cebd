import ConstraintExpr.Proofs.Construction
import ConstraintExpr.Proofs.Rendering
import ConstraintExpr.Proofs.Words

/-!
# Texts determine trees

The text of a tree is the word of its root, followed by the arguments in
parentheses if the root is not a leaf (`Expr.toList_written`). In front of a
comma, of a closing parenthesis or of nothing at all, the text of a tree can be
cut off in one way only (`Expr.Readable.retrievable`). With the same spacing,
trees with the same text are therefore equal (`Printer.eq_of_render_eq`).
-/

namespace ConstraintExpr

/-! ### Texts -/

/-- The arguments of a node, without the parentheses. -/
def argumentChars (style : Style) (es : List Expr) : List Char :=
  style.separator.toList.intercalate (es.map fun e => (e.written style).toList)

/-- The arguments that come after the first one. -/
def furtherChars (style : Style) (es : List Expr) : List Char :=
  es.flatMap fun e => style.separator.toList ++ (e.written style).toList

theorem argumentChars_cons (style : Style) (e : Expr) (es : List Expr) :
    argumentChars style (e :: es) = (e.written style).toList ++ furtherChars style es := by
  unfold argumentChars
  induction es generalizing e with
  | nil => simp [furtherChars]
  | cons next es ih =>
      have hrest := ih next
      rw [List.map_cons] at hrest
      rw [List.map_cons, List.map_cons, List.intercalate_cons_cons, hrest, furtherChars,
        furtherChars, List.flatMap_cons]
      simp only [List.append_assoc]

theorem toList_application (style : Style) (keyword : String) (es : List Expr) :
    (Printer.application style keyword (es.map (Expr.written style))).toList =
      keyword.toList ++ '(' :: (argumentChars style es ++ [')']) := by
  have hopen : "(".toList = ['('] := rfl
  have hclose : ")".toList = [')'] := rfl
  unfold Printer.application argumentChars
  simp only [String.toList_append, String.toList_intercalate, List.map_map, Function.comp_def,
    hopen, hclose, List.append_assoc, List.cons_append, List.nil_append]

/-- The text of a tree is the word of its root and the arguments. -/
theorem Expr.toList_written (style : Style) (e : Expr) :
    (e.written style).toList =
      e.label.word.toList ++
        if e.label.isApplied then '(' :: (argumentChars style e.children ++ [')']) else [] := by
  rw [written_eq]
  cases e with
  | constant n => exact (List.append_nil _).symm
  | var id => exact (List.append_nil _).symm
  | range lo hi => exact (List.append_nil _).symm
  | unary op operand => exact toList_application style op.name _
  | binary op left right => exact toList_application style op.name _
  | nary op operands => exact toList_application style op.name _
  | ifThenElse condition ifTrue ifFalse => exact toList_application style "if" _
  | set elements => exact toList_application style "set" _

theorem Style.exists_separator (style : Style) :
    ∃ blank, style.separator.toList = ',' :: blank := by
  unfold separator
  split
  · exact ⟨[' '], rfl⟩
  · exact ⟨[], rfl⟩

/-! ### Cutting texts off -/

/-- What follows an argument: the next one, or the end of the arguments. -/
def ClosesArgument (c : Char) : Prop :=
  c = ',' ∨ c = ')'

theorem Opens.isDelimiter {rest : List Char} (h : Opens ClosesArgument rest) :
    Opens IsDelimiter rest := by
  intro c hc
  rcases h c hc with rfl | rfl
  · exact .inr (.inr rfl)
  · exact .inr (.inl rfl)

theorem Opens.of_furtherChars (style : Style) (es : List Expr) (rest : List Char) :
    Opens ClosesArgument (furtherChars style es ++ ')' :: rest) := by
  cases es with
  | nil => exact Opens.cons (.inr rfl) rest
  | cons e es =>
      obtain ⟨blank, hseparator⟩ := style.exists_separator
      rw [furtherChars, List.flatMap_cons, hseparator]
      exact Opens.cons (.inl rfl) _

/-- The text of the tree can be cut off in one way only where an argument may
end. -/
def Expr.Retrievable (style : Style) (a : Expr) : Prop :=
  ∀ {b : Expr} {rest rest' : List Char}, b.Readable →
    Opens ClosesArgument rest → Opens ClosesArgument rest' →
    (a.written style).toList ++ rest = (b.written style).toList ++ rest' → a = b ∧ rest = rest'

/-- A text begins with a character of its word. -/
theorem Expr.Readable.opens_written {e : Expr} (h : e.Readable) (style : Style)
    (rest : List Char) : ¬ Opens IsDelimiter ((e.written style).toList ++ rest) := by
  intro hopens
  rw [Expr.toList_written, List.append_assoc] at hopens
  cases hword : e.label.word.toList with
  | nil => exact h.word_ne_nil hword
  | cons c more =>
      have hc : c ∈ e.label.word.toList := by
        rw [hword]
        exact List.mem_cons_self
      rw [hword] at hopens
      exact h.undelimited_word c hc (hopens c rfl)

/-- A further argument is not taken for the end of the arguments. -/
theorem furtherChars_cons_ne (style : Style) (e : Expr) (es : List Expr) (rest rest' : List Char) :
    furtherChars style (e :: es) ++ rest ≠ ')' :: rest' := by
  intro h
  obtain ⟨blank, hseparator⟩ := style.exists_separator
  rw [furtherChars, List.flatMap_cons, hseparator] at h
  exact absurd (List.cons.inj h).1 (by decide)

/-- Neither is a first argument. -/
theorem Expr.Readable.argumentChars_cons_ne {e : Expr} (h : e.Readable) (style : Style)
    (es : List Expr) (rest rest' : List Char) :
    argumentChars style (e :: es) ++ rest ≠ ')' :: rest' := by
  intro hend
  rw [argumentChars_cons, List.append_assoc] at hend
  have hopens : Opens IsDelimiter (')' :: rest') := Opens.cons (.inr (.inl rfl)) rest'
  rw [← hend] at hopens
  exact h.opens_written style _ hopens

theorem furtherChars_cancel {style : Style} {as bs : List Expr} {rest rest' : List Char}
    (has : ∀ a ∈ as, a.Retrievable style) (hbs : ∀ b ∈ bs, b.Readable)
    (h : furtherChars style as ++ ')' :: rest = furtherChars style bs ++ ')' :: rest') :
    as = bs ∧ rest = rest' := by
  induction as generalizing bs with
  | nil =>
      cases bs with
      | nil => exact ⟨rfl, (List.cons.inj h).2⟩
      | cons b bs => exact absurd h.symm (furtherChars_cons_ne style b bs _ _)
  | cons a as ih =>
      cases bs with
      | nil => exact absurd h (furtherChars_cons_ne style a as _ _)
      | cons b bs =>
          obtain ⟨ha, has⟩ := List.forall_mem_cons.mp has
          obtain ⟨hb, hbs⟩ := List.forall_mem_cons.mp hbs
          have hargument : (a.written style).toList ++ (furtherChars style as ++ ')' :: rest) =
              (b.written style).toList ++ (furtherChars style bs ++ ')' :: rest') := by
            rw [furtherChars, furtherChars, List.flatMap_cons, List.flatMap_cons] at h
            simp only [List.append_assoc] at h
            exact List.append_cancel_left h
          obtain ⟨hhead, hfurther⟩ := ha hb (Opens.of_furtherChars style as rest)
            (Opens.of_furtherChars style bs rest') hargument
          obtain ⟨htail, hrest⟩ := ih has hbs hfurther
          exact ⟨by rw [hhead, htail], hrest⟩

/-- The arguments of a node can be cut off in one way only. -/
theorem argumentChars_cancel {style : Style} {as bs : List Expr} {rest rest' : List Char}
    (has : ∀ a ∈ as, a.Readable ∧ a.Retrievable style) (hbs : ∀ b ∈ bs, b.Readable)
    (h : argumentChars style as ++ ')' :: rest = argumentChars style bs ++ ')' :: rest') :
    as = bs ∧ rest = rest' := by
  cases as with
  | nil =>
      cases bs with
      | nil => exact ⟨rfl, (List.cons.inj h).2⟩
      | cons b bs =>
          have hb := hbs b List.mem_cons_self
          exact absurd h.symm (hb.argumentChars_cons_ne style bs _ _)
  | cons a as =>
      obtain ⟨⟨ha, hretrievable⟩, has⟩ := List.forall_mem_cons.mp has
      cases bs with
      | nil => exact absurd h (ha.argumentChars_cons_ne style as _ _)
      | cons b bs =>
          obtain ⟨hb, hbs⟩ := List.forall_mem_cons.mp hbs
          rw [argumentChars_cons, argumentChars_cons, List.append_assoc, List.append_assoc] at h
          obtain ⟨hhead, hfurther⟩ := hretrievable hb (Opens.of_furtherChars style as rest)
            (Opens.of_furtherChars style bs rest') h
          obtain ⟨htail, hrest⟩ := furtherChars_cancel (fun a ha => (has a ha).2) hbs hfurther
          exact ⟨by rw [hhead, htail], hrest⟩

theorem Opens.of_arguments (style : Style) (e : Expr) {rest : List Char}
    (hrest : Opens ClosesArgument rest) :
    Opens IsDelimiter ((if e.label.isApplied then
      '(' :: (argumentChars style e.children ++ [')']) else []) ++ rest) := by
  split
  · exact Opens.cons (.inl rfl) _
  · exact hrest.isDelimiter

/-- Nothing that closes an argument is taken for the arguments of a node. -/
theorem Opens.ne_open {rest : List Char} (hrest : Opens ClosesArgument rest)
    (arguments : List Char) : rest ≠ '(' :: arguments := by
  intro h
  rw [h] at hrest
  exact absurd (hrest '(' rfl) (by simp [ClosesArgument])

/-- The text of a readable tree can be cut off in one way only. -/
theorem Expr.Readable.retrievable {a : Expr} (ha : a.Readable) (style : Style) :
    a.Retrievable style := by
  induction a using Expr.childInduction with
  | step a ih =>
      intro b rest rest' hb hrest hrest' h
      rw [Expr.toList_written, Expr.toList_written, List.append_assoc, List.append_assoc] at h
      obtain ⟨hword, htail⟩ := append_inj_of_opens h ha.undelimited_word hb.undelimited_word
        (Opens.of_arguments style a hrest) (Opens.of_arguments style b hrest')
      cases happlied : a.label.isApplied with
      | false =>
          cases happlied' : b.label.isApplied with
          | false =>
              rw [happlied, happlied'] at htail
              exact ⟨Expr.eq_of_word_eq ha hb happlied happlied' hword, htail⟩
          | true =>
              rw [happlied, happlied'] at htail
              exact absurd htail (hrest.ne_open _)
      | true =>
          cases happlied' : b.label.isApplied with
          | false =>
              rw [happlied, happlied'] at htail
              exact absurd htail.symm (hrest'.ne_open _)
          | true =>
              rw [happlied, happlied', if_pos rfl, if_pos rfl] at htail
              have harguments : argumentChars style a.children ++ ')' :: rest =
                  argumentChars style b.children ++ ')' :: rest' := by
                simpa only [List.cons_append, List.append_assoc, List.nil_append,
                  List.cons.injEq, true_and] using htail
              obtain ⟨hchildren, hend⟩ := argumentChars_cancel
                (fun child hchild => ⟨ha.child hchild, ih child hchild (ha.child hchild)⟩)
                (fun child hchild => hb.child hchild) harguments
              have heq := Expr.eq_of_children_eq ha.wellFormed.wellPlaced hb.wellFormed.wellPlaced
                happlied happlied' (String.toList_injective hword) hchildren
              exact ⟨heq, hend⟩

/-- Trees that are written with the same spacing as the same text are equal. -/
theorem Printer.eq_of_render_eq {p q : Printer} {limit limit' : Option Nat} {a b : Expr}
    {text : String} (hstyle : p.style = q.style) (ha : Obtainable a) (hb : Obtainable b)
    (hplain : ∀ id ∈ a.identifiers, PlainIdentifier id)
    (hplain' : ∀ id ∈ b.identifiers, PlainIdentifier id)
    (hrender : (p.render limit a).1 = .ok text) (hrender' : (q.render limit' b).1 = .ok text) :
    a = b := by
  have hreadable : a.Readable := ⟨obtainable_iff.mp ha, hplain⟩
  have hreadable' : b.Readable := ⟨obtainable_iff.mp hb, hplain'⟩
  have htexts : a.written p.style = b.written p.style := by
    rw [← render_eq_written hrender, hstyle, ← render_eq_written hrender']
  have hchars : (a.written p.style).toList ++ [] = (b.written p.style).toList ++ [] := by
    rw [htexts]
  exact (hreadable.retrievable p.style hreadable' (Opens.nil _) (Opens.nil _) hchars).1

/-- Negative bounds, a single operand, an empty set and a variable named like a
keyword. -/
def nestedMembership : Expr :=
  .nary (.logic .and)
    [.binary (.member .belongs) (.nary (.arith .add) [.var "x"]) (.range (-2) 3),
      .binary (.member .avoids) (.var "set") (.set [])]

/-- The builders that make such a tree. -/
def buildNestedMembership : Build Expr := do
  let sum ← Build.add [.var "x"]
  let inside ← Build.inRange sum (-2) 3
  let outside ← Build.notInSet (.var "set") []
  Build.and [inside, outside]

/-- A used printer writes what the builders make, a fresh one the tree itself. -/
theorem Printer.eq_of_render_nestedMembership :
    let text := "and(in(add(x), -2..3), notin(set, set()))"
    let used : Printer := ⟨⟨true⟩, ["x"]⟩
    let fresh : Printer := ⟨⟨true⟩, []⟩
    ∃ tree, buildNestedMembership.result = .ok tree ∧
      Obtainable tree ∧ Obtainable nestedMembership ∧
      (∀ id ∈ tree.identifiers, PlainIdentifier id) ∧
      (∀ id ∈ nestedMembership.identifiers, PlainIdentifier id) ∧
      (used.render none tree).1 = .ok text ∧
      (fresh.render none nestedMembership).1 = .ok text ∧
      tree = nestedMembership := by
  intro text used fresh
  have hobtainable : Obtainable nestedMembership := obtainable_iff.mpr (by decide)
  have hplain : ∀ id ∈ nestedMembership.identifiers, PlainIdentifier id := by
    show ∀ id ∈ ["x", "set"], PlainIdentifier id
    decide
  have hused : (used.render none nestedMembership).1 = .ok text := by
    rw [render_unlimited]
    rfl
  have hfresh : (fresh.render none nestedMembership).1 = .ok text := by
    rw [render_unlimited]
    rfl
  exact ⟨nestedMembership, rfl, hobtainable, hobtainable, hplain, hplain, hused, hfresh,
    eq_of_render_eq rfl hobtainable hobtainable hplain hplain hused hfresh⟩

end ConstraintExpr

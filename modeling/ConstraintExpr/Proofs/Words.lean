import Mathlib.Data.List.Basic
import ConstraintExpr.Printer
import ConstraintExpr.Proofs.Numerals
import ConstraintExpr.Proofs.WellFormed

/-!
# Words

The text of a tree begins with a word: a keyword, an identifier, a numeral, or
the two numerals of a range. Delimiters are never part of a word if identifiers
are plain (`PlainIdentifier`), so that a word ends where a delimiter follows
(`append_inj_of_opens`).

* A word determines a leaf (`Expr.eq_of_word_eq`);
* a word and the children determine any other node, since no two keywords are
  the same and the arity of an operator fixes the kind of its node
  (`Expr.eq_of_children_eq`).
-/

namespace ConstraintExpr

/-! ### Cutting words off -/

/-- Characters that are never part of a word. -/
def IsDelimiter (c : Char) : Prop :=
  c = '(' ∨ c = ')' ∨ c = ','

instance (c : Char) : Decidable (IsDelimiter c) :=
  inferInstanceAs (Decidable (_ ∨ _))

/-- The text is over, or its first character has the property. -/
def Opens (p : Char → Prop) (rest : List Char) : Prop :=
  ∀ c ∈ rest.head?, p c

theorem Opens.nil (p : Char → Prop) : Opens p [] := by
  intro c hc
  cases hc

theorem Opens.cons {p : Char → Prop} {c : Char} (hc : p c) (rest : List Char) :
    Opens p (c :: rest) := by
  intro d hd
  cases hd
  exact hc

/-- A word without characters of a kind ends where one of the kind follows. -/
theorem append_inj_of_opens {p : Char → Prop} {word word' rest rest' : List Char}
    (h : word ++ rest = word' ++ rest') (hword : ∀ c ∈ word, ¬ p c) (hword' : ∀ c ∈ word', ¬ p c)
    (hrest : Opens p rest) (hrest' : Opens p rest') : word = word' ∧ rest = rest' := by
  rcases List.append_eq_append_iff.mp h with ⟨more, rfl, rfl⟩ | ⟨more, rfl, rfl⟩
  · cases more with
    | nil => simp
    | cons c more => exact absurd (hrest c rfl) (hword' c (by simp))
  · cases more with
    | nil => simp
    | cons c more => exact absurd (hrest' c rfl) (hword c (by simp))

/-! ### Words -/

/-- An identifier that is a word and does not begin like a number. -/
structure PlainIdentifier (id : String) : Prop where
  nonempty : id.toList ≠ []
  undelimited : ∀ c ∈ id.toList, ¬ IsDelimiter c
  initial : ∀ c ∈ id.toList.head?, c.isDigit = false ∧ c ≠ '-'

theorem undelimited_of_all {word : List Char}
    (h : word.all (fun c => decide (¬ IsDelimiter c)) = true) : ∀ c ∈ word, ¬ IsDelimiter c := by
  intro c hc
  exact of_decide_eq_true (List.all_eq_true.mp h c hc)

/-- Looks at every character of an identifier. -/
def plainCheck (id : String) : Bool :=
  match id.toList with
  | [] => false
  | c :: rest =>
      (c :: rest).all (fun c => decide (¬ IsDelimiter c)) && !c.isDigit && c != '-'

theorem plainCheck_iff {id : String} : plainCheck id = true ↔ PlainIdentifier id := by
  cases hid : id.toList with
  | nil =>
      have hno : ¬ PlainIdentifier id := fun h => h.nonempty hid
      simp [plainCheck, hid, hno]
  | cons c rest =>
      simp only [plainCheck, hid, Bool.and_eq_true, Bool.not_eq_true', bne_iff_ne]
      constructor
      · rintro ⟨⟨hall, hdigit⟩, hminus⟩
        refine ⟨by simp [hid], hid ▸ undelimited_of_all hall, ?_⟩
        intro first hfirst
        rw [hid] at hfirst
        cases hfirst
        exact ⟨hdigit, hminus⟩
      · intro h
        have hfirst := h.initial c (by rw [hid]; rfl)
        refine ⟨⟨List.all_eq_true.mpr fun d hd => ?_, hfirst.1⟩, hfirst.2⟩
        exact decide_eq_true (h.undelimited d (hid ▸ hd))

instance (id : String) : Decidable (PlainIdentifier id) :=
  decidable_of_iff _ plainCheck_iff

/-- The word that the text of a node begins with. -/
def Label.word : Label → String
  | .constant n => Numeral.render n
  | .var id => id
  | .unary op | .binary op | .nary op _ => op.name
  | .ifThenElse => "if"
  | .range lo hi => Numeral.render lo ++ ".." ++ Numeral.render hi
  | .set _ => "set"

/-- Whether arguments in parentheses follow the word. -/
def Label.isApplied : Label → Bool
  | .constant _ | .var _ | .range _ _ => false
  | .unary _ | .binary _ | .nary _ _ | .ifThenElse | .set _ => true

/-- A well-formed tree with plain identifiers. -/
structure Expr.Readable (e : Expr) : Prop where
  wellFormed : e.WellFormed
  plain : ∀ id ∈ e.identifiers, PlainIdentifier id

theorem Expr.Readable.child {e child : Expr} (h : e.Readable) (hchild : child ∈ e.children) :
    child.Readable where
  wellFormed := h.wellFormed.child hchild
  plain id hid := h.plain id (identifiers_subset hchild hid)

theorem Operator.ofName?_name (op : Operator) : ofName? op.name = some op := by
  rcases op with op | op | op | op <;> cases op <;> rfl

theorem Operator.undelimited_name (op : Operator) : ∀ c ∈ op.name.toList, ¬ IsDelimiter c := by
  rcases op with op | op | op | op <;> cases op <;> exact undelimited_of_all rfl

theorem Operator.name_ne_nil (op : Operator) : op.name.toList ≠ [] := by
  rcases op with op | op | op | op <;> cases op <;> decide

theorem not_isDelimiter_of_mem_render {n : Int} {c : Char}
    (hc : c ∈ (Numeral.render n).toList) : ¬ IsDelimiter c := by
  rintro (rfl | rfl | rfl) <;>
    rcases Numeral.isDigit_or_eq_of_mem_render hc with h | h <;> exact absurd h (by decide)

theorem toList_word_range (lo hi : Int) :
    (Label.range lo hi).word.toList =
      (Numeral.render lo).toList ++ '.' :: '.' :: (Numeral.render hi).toList := by
  rw [Label.word, String.toList_append, String.toList_append, List.append_assoc]
  rfl

namespace Expr.Readable

theorem plain_var {id : String} (h : (Expr.var id).Readable) : PlainIdentifier id :=
  h.plain id (List.mem_singleton_self id)

theorem undelimited_word {e : Expr} (h : e.Readable) :
    ∀ c ∈ e.label.word.toList, ¬ IsDelimiter c := by
  cases e with
  | constant n => exact fun c => not_isDelimiter_of_mem_render
  | var id => exact h.plain_var.undelimited
  | unary op operand => exact op.undelimited_name
  | binary op left right => exact op.undelimited_name
  | nary op operands => exact op.undelimited_name
  | ifThenElse condition ifTrue ifFalse =>
      show ∀ c ∈ "if".toList, ¬ IsDelimiter c
      exact undelimited_of_all rfl
  | set elements =>
      show ∀ c ∈ "set".toList, ¬ IsDelimiter c
      exact undelimited_of_all rfl
  | range lo hi =>
      intro c hc
      rw [Expr.label, toList_word_range, List.mem_append, List.mem_cons, List.mem_cons] at hc
      rcases hc with hlo | rfl | rfl | hhi
      · exact not_isDelimiter_of_mem_render hlo
      · decide
      · decide
      · exact not_isDelimiter_of_mem_render hhi

theorem word_ne_nil {e : Expr} (h : e.Readable) : e.label.word.toList ≠ [] := by
  cases e with
  | constant n => exact Numeral.render_ne_nil n
  | var id => exact h.plain_var.nonempty
  | unary op operand => exact op.name_ne_nil
  | binary op left right => exact op.name_ne_nil
  | nary op operands => exact op.name_ne_nil
  | ifThenElse condition ifTrue ifFalse =>
      show "if".toList ≠ []
      decide
  | set elements =>
      show "set".toList ≠ []
      decide
  | range lo hi =>
      rw [Expr.label, toList_word_range]
      exact List.append_ne_nil_of_left_ne_nil (Numeral.render_ne_nil lo) _

end Expr.Readable

/-! ### Words determine leaves -/

/-- The first character of a number. -/
def StartsNumber (c : Char) : Prop :=
  c.isDigit = true ∨ c = '-'

theorem opens_render (n : Int) (rest : List Char) :
    Opens StartsNumber ((Numeral.render n).toList ++ rest) := by
  intro c hc
  rw [List.head?_append_of_ne_nil _ (Numeral.render_ne_nil n)] at hc
  exact Numeral.isDigit_or_eq_of_mem_render (List.mem_of_mem_head? hc)

/-- Plain identifiers are not numbers. -/
theorem PlainIdentifier.not_opens {id : String} (h : PlainIdentifier id) :
    ¬ Opens StartsNumber id.toList := by
  intro hopens
  cases hid : id.toList with
  | nil => exact h.nonempty hid
  | cons c rest =>
      have hfirst : c ∈ id.toList.head? := by
        rw [hid]
        rfl
      obtain ⟨hdigit, hminus⟩ := h.initial c hfirst
      rcases hopens c hfirst with hc | hc
      · rw [hdigit] at hc
        contradiction
      · exact hminus hc

theorem point_not_mem_render (n : Int) : '.' ∉ (Numeral.render n).toList := by
  intro hpoint
  rcases Numeral.isDigit_or_eq_of_mem_render hpoint with h | h <;> exact absurd h (by decide)

theorem render_ne_word_range (n lo hi : Int) :
    (Numeral.render n).toList ≠ (Label.range lo hi).word.toList := by
  intro h
  rw [toList_word_range] at h
  exact point_not_mem_render n (h ▸ List.mem_append_right _ List.mem_cons_self)

theorem word_range_injective {lo hi lo' hi' : Int}
    (h : (Label.range lo hi).word.toList = (Label.range lo' hi').word.toList) :
    lo = lo' ∧ hi = hi' := by
  rw [toList_word_range, toList_word_range] at h
  have hno : ∀ n, ∀ c ∈ (Numeral.render n).toList, ¬ c = '.' :=
    fun n c hc hpoint => point_not_mem_render n (hpoint ▸ hc)
  have hpoint : ∀ rest, Opens (fun c => c = '.') ('.' :: rest) := by
    intro rest
    exact Opens.cons (p := fun c => c = '.') rfl rest
  obtain ⟨hlo, hrest⟩ := append_inj_of_opens h (hno lo) (hno lo') (hpoint _) (hpoint _)
  have hhi := (List.cons.inj (List.cons.inj hrest).2).2
  exact ⟨Numeral.render_inj.mp (String.toList_injective hlo),
    Numeral.render_inj.mp (String.toList_injective hhi)⟩

/-- Two leaves with the same word are the same. -/
theorem Expr.eq_of_word_eq {a b : Expr} (ha : a.Readable) (hb : b.Readable)
    (hleaf : a.label.isApplied = false) (hleaf' : b.label.isApplied = false)
    (hword : a.label.word.toList = b.label.word.toList) : a = b := by
  have hnumber : ∀ n, Opens StartsNumber (Numeral.render n).toList := by
    intro n
    have hopens := opens_render n []
    rwa [List.append_nil] at hopens
  have hrange : ∀ lo hi, Opens StartsNumber (Label.range lo hi).word.toList := by
    intro lo hi
    rw [toList_word_range]
    exact opens_render lo _
  cases a <;> try contradiction
  case constant n =>
    cases b <;> try contradiction
    case constant m =>
      have hvalue := Numeral.render_inj.mp (String.toList_injective hword)
      rw [hvalue]
    case var id => exact absurd (hword ▸ hnumber n) hb.plain_var.not_opens
    case range lo hi => exact absurd hword (render_ne_word_range n lo hi)
  case var id =>
    cases b <;> try contradiction
    case constant m => exact absurd (hword ▸ hnumber m) ha.plain_var.not_opens
    case var id' => exact congrArg Expr.var (String.toList_injective hword)
    case range lo hi => exact absurd (hword ▸ hrange lo hi) ha.plain_var.not_opens
  case range lo hi =>
    cases b <;> try contradiction
    case constant m => exact absurd hword.symm (render_ne_word_range m lo hi)
    case var id => exact absurd (hword ▸ hrange lo hi) hb.plain_var.not_opens
    case range lo' hi' =>
      obtain ⟨hlo, hhi⟩ := word_range_injective hword
      rw [hlo, hhi]

/-! ### Words determine what is applied -/

/-- The label of a node with an operator. -/
def Arity.label (op : Operator) (count : Nat) : Arity → Label
  | .unary => .unary op
  | .binary => .binary op
  | .nary => .nary op count

/-- The arity of its operator determines the kind of a well-placed node. -/
theorem Expr.WellPlaced.label_eq {e : Expr} {op : Operator} (h : e.WellPlaced)
    (hop : e.operator? = some op) : e.label = op.arity.label op e.children.length := by
  cases e with
  | unary op' operand =>
      cases hop
      rw [h.1]
      rfl
  | binary op' left right =>
      cases hop
      rw [h.1]
      rfl
  | nary op' operands =>
      cases hop
      rw [h.1]
      rfl
  | _ => cases hop

theorem ofName?_word {label : Label} (happlied : label.isApplied = true) :
    Operator.ofName? label.word = label.operator? := by
  cases label with
  | unary op => exact op.ofName?_name
  | binary op => exact op.ofName?_name
  | nary op count => exact op.ofName?_name
  | ifThenElse => rfl
  | set count => rfl
  | _ => contradiction

/-- Two well-placed nodes with the same word and the same arguments are the
same. -/
theorem Expr.eq_of_children_eq {a b : Expr} (ha : a.WellPlaced) (hb : b.WellPlaced)
    (happlied : a.label.isApplied = true) (happlied' : b.label.isApplied = true)
    (hword : a.label.word = b.label.word) (hchildren : a.children = b.children) : a = b := by
  have hop : a.operator? = b.operator? := by
    rw [operator?, operator?, ← ofName?_word happlied, ← ofName?_word happlied', hword]
  refine eq_of_label_eq ?_ hchildren
  cases ha' : a.operator? with
  | some op => rw [ha.label_eq ha', hb.label_eq (hop ▸ ha'), hchildren]
  | none =>
      -- what has no operator but arguments is a conditional or a set, and their keywords differ
      have hb' : b.operator? = none := hop ▸ ha'
      have hkeywords : "if" ≠ "set" := by decide
      cases a with
      | ifThenElse condition ifTrue ifFalse =>
          cases b with
          | ifThenElse condition' ifTrue' ifFalse' => rfl
          | set elements => exact absurd hword hkeywords
          | _ => contradiction
      | set elements =>
          cases b with
          | ifThenElse condition ifTrue ifFalse => exact absurd hword.symm hkeywords
          | set elements' => exact congrArg (fun es => Label.set es.length) hchildren
          | _ => contradiction
      | _ => contradiction

end ConstraintExpr

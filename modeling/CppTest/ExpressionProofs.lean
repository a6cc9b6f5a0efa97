import CppTest.PrintProofs

/-! # Arithmetic expressions and their postfix form

    * The grammar of expressions over `+`, `-`, `*`, `/` and parentheses (`Parses`), with
      one-character operands and left-associative trees.
    * The postfix form of a tree, each token followed by one space (`ParseTree.postForm`), and
      that splitting it at the spaces gives the tokens back (`splitOn_flush`).
    * The value of a tree over digits (`ParseTree.value`), what of it stays small on the way
      (`ParseTree.AllSmall`), and the tree with its subtractions turned round (`ParseTree.swapSub`).

    Nothing here names a program of the repository. -/

namespace Expression

open Print

/-! ## Trees and their strings -/

/-- The operators. -/
inductive Op where
  | add
  | sub
  | mul
  | div
  deriving Repr, DecidableEq

/-- How an operator is written. -/
def Op.char : Op → Char
  | .add => '+'
  | .sub => '-'
  | .mul => '*'
  | .div => '/'

/-- A parse tree. -/
inductive ParseTree where
  | leaf (c : Char)
  | node (op : Op) (left right : ParseTree)
  deriving Repr, DecidableEq

/-- The postfix form of a tree, each token followed by one space. -/
def ParseTree.postForm : ParseTree → List Char
  | .leaf c => [c, ' ']
  | .node op left right => left.postForm ++ right.postForm ++ [op.char, ' ']

/-- The nonterminals of the grammar. -/
inductive Nonterminal where
  | E
  | T
  | F
  deriving Repr, DecidableEq

/-- An operand is one character, not an operator, a parenthesis or a NUL. -/
def IsOperand (c : Char) : Prop := c ∉ ['+', '-', '*', '/', '(', ')', nul]

instance : DecidablePred IsOperand :=
  fun c => inferInstanceAs (Decidable (c ∉ ['+', '-', '*', '/', '(', ')', nul]))

/-- `E -> T { (+|-) T }`, `T -> F { (*|/) F }`, `F -> c | ( E )`: the string of
    a derivation and its tree, a repetition read from the left. -/
inductive Parses : Nonterminal → List Char → ParseTree → Prop where
  | operand {c} : IsOperand c → Parses .F [c] (.leaf c)
  | paren {s t} : Parses .E s t → Parses .F ('(' :: s ++ [')']) t
  | factor {s t} : Parses .F s t → Parses .T s t
  | times {s t s' t'} (op : Op) : op = .mul ∨ op = .div → Parses .T s t → Parses .F s' t' →
      Parses .T (s ++ op.char :: s') (.node op t t')
  | term {s t} : Parses .T s t → Parses .E s t
  | plus {s t s' t'} (op : Op) : op = .add ∨ op = .sub → Parses .E s t → Parses .T s' t' →
      Parses .E (s ++ op.char :: s') (.node op t t')

theorem Parses.nul_notMem {nt : Nonterminal} {s : List Char} {t : ParseTree} (h : Parses nt s t) :
    nul ∉ s := by
  have hop : ∀ op : Op, nul ≠ op.char := by
    intro op
    cases op <;> decide
  induction h with
  | operand hc =>
      intro hmem
      rw [List.mem_singleton] at hmem
      exact hc (hmem ▸ by decide)
  | paren _ ih =>
      rw [List.cons_append, List.mem_cons, List.mem_append, List.mem_singleton]
      rintro (h | h | h)
      · exact absurd h (by decide)
      · exact ih h
      · exact absurd h (by decide)
  | factor _ ih => exact ih
  | term _ ih => exact ih
  | times op _ _ _ ihl ihr | plus op _ _ _ ihl ihr =>
      rw [List.mem_append, List.mem_cons]
      rintro (h | h | h)
      · exact ihl h
      · exact hop op h
      · exact ihr h

theorem Parses.ne_nil {nt : Nonterminal} {s : List Char} {t : ParseTree} (h : Parses nt s t) :
    s ≠ [] := by
  induction h with
  | operand _ => exact List.cons_ne_nil _ _
  | paren _ _ => exact List.cons_ne_nil _ _
  | factor _ ih => exact ih
  | term _ ih => exact ih
  | times _ _ _ _ _ _ => exact List.append_ne_nil_of_right_ne_nil _ (List.cons_ne_nil _ _)
  | plus _ _ _ _ _ _ => exact List.append_ne_nil_of_right_ne_nil _ (List.cons_ne_nil _ _)

/-! ## Texts of tokens -/

/-- The text of tokens, each followed by one space. -/
def flush (tokens : List Char) : List Char := tokens.flatMap fun c => [c, ' ']

/-- Splitting at the spaces gives the tokens back, and an empty one behind the last
    space. -/
theorem splitOn_flush {tokens : List Char} (h : ' ' ∉ tokens) :
    (flush tokens).splitOn ' ' = tokens.map (fun c => [c]) ++ [[]] := by
  induction tokens with
  | nil => rfl
  | cons c tokens ih =>
      rw [List.mem_cons, not_or] at h
      have hc : ∀ x ∈ [c], (x == ' ') = false := by simpa using Ne.symm h.1
      have hrest : (flush tokens).splitOnP (· == ' ') = tokens.map (fun c => [c]) ++ [[]] := ih h.2
      show ([c] ++ ' ' :: flush tokens).splitOnP (· == ' ') = _
      rw [List.splitOnP_append_cons_of_forall_mem hc ' ' rfl, hrest]
      rfl

/-! ## Values -/

/-- The integers a double computes with exactly. -/
def Small53 (k : Int) : Prop := k.natAbs < 2 ^ 53

instance : DecidablePred Small53 := fun k => inferInstanceAs (Decidable (k.natAbs < 2 ^ 53))

/-- The number a digit stands for. -/
def digitValue (c : Char) : Int := (c.toNat : Int) - 48

/-- Every leaf is a digit and no operator a division. -/
def ParseTree.Arithmetic : ParseTree → Prop
  | .leaf c => c.isDigit = true
  | .node op left right => op ≠ .div ∧ left.Arithmetic ∧ right.Arithmetic

/-- The usual value of an expression of digits without division. -/
def ParseTree.value : ParseTree → Int
  | .leaf c => digitValue c
  | .node .add left right => left.value + right.value
  | .node .sub left right => left.value - right.value
  | .node .mul left right => left.value * right.value
  | .node .div left right => left.value.tdiv right.value

/-- Every result on the way to the value is small. -/
def ParseTree.AllSmall : ParseTree → Prop
  | .leaf _ => True
  | .node op left right =>
      left.AllSmall ∧ right.AllSmall ∧ Small53 (ParseTree.node op left right).value

/-- No subtraction. -/
def ParseTree.NoSub : ParseTree → Prop
  | .leaf _ => True
  | .node op left right => op ≠ .sub ∧ left.NoSub ∧ right.NoSub

/-- The expression with the operands of every subtraction exchanged. -/
def ParseTree.swapSub : ParseTree → ParseTree
  | .leaf c => .leaf c
  | .node .sub left right => .node .sub right.swapSub left.swapSub
  | .node op left right => .node op left.swapSub right.swapSub

theorem ParseTree.NoSub.swapSub_eq {t : ParseTree} (h : t.NoSub) : t.swapSub = t := by
  induction t with
  | leaf c => rfl
  | node op left right ihl ihr =>
      obtain ⟨hop, hl, hr⟩ := h
      cases op with
      | sub => exact absurd rfl hop
      | add | mul | div => simp only [ParseTree.swapSub, ihl hl, ihr hr]

/-- The tokens of the postfix form. -/
def ParseTree.tokens : ParseTree → List Char
  | .leaf c => [c]
  | .node op left right => left.tokens ++ right.tokens ++ [op.char]

theorem ParseTree.postForm_eq (t : ParseTree) : t.postForm = flush t.tokens := by
  induction t with
  | leaf c => rfl
  | node op left right ihl ihr => simp [ParseTree.postForm, ParseTree.tokens, flush, ihl, ihr]

theorem ParseTree.Arithmetic.space_notMem {t : ParseTree} (h : t.Arithmetic) : ' ' ∉ t.tokens := by
  induction t with
  | leaf c =>
      intro hmem
      rw [ParseTree.tokens, List.mem_singleton] at hmem
      rw [ParseTree.Arithmetic, ← hmem] at h
      exact absurd h (by decide)
  | node op left right ihl ihr =>
      obtain ⟨-, hl, hr⟩ := h
      rw [ParseTree.tokens, List.mem_append, List.mem_append, List.mem_singleton]
      rintro ((hmem | hmem) | hmem)
      · exact ihl hl hmem
      · exact ihr hr hmem
      · cases op <;> exact absurd hmem (by decide)

/-- A digit is an operand, and not an operator token. -/
theorem isOperand_digit {c : Char} (h : c.isDigit = true) :
    c ∉ ['+', '*', '-', '/'] ∧ IsOperand c := by
  rw [IsOperand]
  simp only [List.mem_cons, List.not_mem_nil, or_false, not_or]
  refine ⟨⟨?_, ?_, ?_, ?_⟩, ?_, ?_, ?_, ?_, ?_, ?_, ?_⟩
  all_goals
    rintro rfl
    exact absurd h (by decide)

end Expression

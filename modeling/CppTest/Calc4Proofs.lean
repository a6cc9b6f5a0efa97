import CppTest.InfixProofs

/-! # The calculator (`calc4` of `src/algs/cti/test_cti.cpp`)

    `calc4` removes the spaces, translates to postfix with the loop of
    `infix2postfix`, splits the result at the spaces and evaluates the tokens on a
    stack of STRINGS, each result printed by `sprintf` and read again by `strtod`.

    * `double` is a parameter (`Doubles`), with what the evaluation needs of it
      (`Doubles.Exact`): integers of magnitude below 2^53 are computed, printed and
      read exactly.
    * The token stack on the postfix form of a tree: `evalTokens_tree`.  The operand
      popped FIRST is the right one, so a subtraction is computed the wrong way round.
    * The result: `calc4_value_iff`. -/

namespace Infix

open Machine Print Expression

/-! ## The model -/

/-- `double` and the library functions on it.  `value` is the integer that a double
    is, if it is one and of magnitude below 2^53. -/
structure Doubles (D : Type) where
  zero : D
  add : D → D → D
  sub : D → D → D
  mul : D → D → D
  div : D → D → D
  strtod : List Char → D
  sprintf : D → List Char
  value : D → Option Int

section Model

variable {D : Type} (F : Doubles D)

/-- The four operations; `result` is 0.0 before them. -/
def result (op : Char) (operand1 operand2 : D) : D :=
  if op = '+' then F.add operand1 operand2
  else if op = '-' then F.sub operand1 operand2
  else if op = '*' then F.mul operand1 operand2
  else if op = '/' then F.div operand1 operand2
  else F.zero

/-- One turn of the evaluation loop.  The top of an empty stack faults, and so does
    a text that does not fit in `tmp[128]`. -/
def evalToken (tokenStack : List (List Char)) : List Char → Option (List (List Char))
  | [] => some tokenStack
  | c :: rest =>
      if rest = [] ∧ c ∈ ['+', '*', '-', '/'] then do
        let operand1 := F.strtod (← tokenStack.head?)
        let tokenStack := tokenStack.tail
        let operand2 := F.strtod (← tokenStack.head?)
        let tokenStack := tokenStack.tail
        let tmp := F.sprintf (result F c operand1 operand2)
        if tmp.length < 128 then some (tmp :: tokenStack) else none
      else some ((c :: rest) :: tokenStack)

/-- `postfix += c`. -/
def append (text : List Char) (c : Char) : Option (List Char) := some (text ++ [c])

/-- `calc4`. -/
def calc4 (expr : List Char) : Option D :=
  let exp := expr.filter fun c => c ≠ ' '
  if exp = [] then some F.zero
  else do
    let (operators, text) ← exp.foldlM (step append) ([], [])
    let text ← popAll append operators text
    let tokenStack ← (text.splitOn ' ').foldlM (evalToken F) []
    some (F.strtod (← tokenStack.head?))

end Model

/-! ## What is exact -/

/-- What the evaluation needs of `double`. -/
structure Doubles.Exact {D : Type} (F : Doubles D) : Prop where
  add : ∀ {x y a b}, F.value x = some a → F.value y = some b → Small53 (a + b) →
    F.value (F.add x y) = some (a + b)
  sub : ∀ {x y a b}, F.value x = some a → F.value y = some b → Small53 (a - b) →
    F.value (F.sub x y) = some (a - b)
  mul : ∀ {x y a b}, F.value x = some a → F.value y = some b → Small53 (a * b) →
    F.value (F.mul x y) = some (a * b)
  digit : ∀ {c}, c.isDigit = true → F.value (F.strtod [c]) = some (digitValue c)
  printed : ∀ {x a}, F.value x = some a → F.value (F.strtod (F.sprintf x)) = some a
  fits : ∀ {x a}, F.value x = some a → (F.sprintf x).length < 128

/-! ## Evaluation -/

/-- What the sink of `calc4` collects. -/
theorem append_foldlM (text out : List Char) : text.foldlM append out = some (out ++ text) := by
  induction text generalizing out with
  | nil => simp
  | cons c text ih => simp [append, ih]

section Evaluation

variable {D : Type} {F : Doubles D}

/-- An operator replaces two texts by the text of the result; the right operand is
    the first one popped. -/
theorem evalToken_op (op : Op) {left right : List Char} {stack : List (List Char)}
    (hfits : (F.sprintf (result F op.char (F.strtod right) (F.strtod left))).length < 128) :
    evalToken F (right :: left :: stack) [op.char]
      = some (F.sprintf (result F op.char (F.strtod right) (F.strtod left)) :: stack) := by
  have hop : ([] : List Char) = [] ∧ op.char ∈ ['+', '*', '-', '/'] := by
    refine ⟨rfl, ?_⟩
    cases op <;> decide
  rw [evalToken, if_pos hop]
  exact if_pos hfits

/-- What an operation on small integers gives. -/
theorem result_value (hF : F.Exact) {left right : ParseTree} {op : Op} (hdiv : op ≠ .div) {x y : D}
    (hx : F.value x = some right.swapSub.value) (hy : F.value y = some left.swapSub.value)
    (hsmall : (ParseTree.node op left right).swapSub.AllSmall) :
    F.value (result F op.char x y) = some (ParseTree.node op left right).swapSub.value := by
  have hs : Small53 (ParseTree.node op left right).swapSub.value := by cases op <;> exact hsmall.2.2
  cases op with
  | add =>
      have hcomm : (ParseTree.node .add left right).swapSub.value
          = right.swapSub.value + left.swapSub.value := Int.add_comm ..
      rw [hcomm] at hs ⊢
      exact hF.add hx hy hs
  | sub => exact hF.sub hx hy hs
  | mul =>
      have hcomm : (ParseTree.node .mul left right).swapSub.value
          = right.swapSub.value * left.swapSub.value := Int.mul_comm ..
      rw [hcomm] at hs ⊢
      exact hF.mul hx hy hs
  | div => exact absurd rfl hdiv

/-- **The token stack on the postfix form of a tree.**  One text is pushed, and it
    reads as the value of the tree with the operands of every subtraction exchanged. -/
theorem evalTokens_tree (hF : F.Exact) {t : ParseTree} (ht : t.Arithmetic)
    (hsmall : t.swapSub.AllSmall) : ∀ stack, ∃ text,
      (t.tokens.map fun c => [c]).foldlM (evalToken F) stack = some (text :: stack)
      ∧ F.value (F.strtod text) = some t.swapSub.value := by
  induction t with
  | leaf c =>
      intro stack
      refine ⟨[c], ?_, hF.digit ht⟩
      have hnot : ¬ (([] : List Char) = [] ∧ c ∈ ['+', '*', '-', '/']) := by
        rintro ⟨-, hc⟩
        exact (isOperand_digit ht).1 hc
      show (do some (← evalToken F stack [c])) = some ([c] :: stack)
      rw [evalToken, if_neg hnot]
      rfl
  | node op left right ihl ihr =>
      intro stack
      obtain ⟨hop, hl, hr⟩ := ht
      obtain ⟨hsl, hsr⟩ : left.swapSub.AllSmall ∧ right.swapSub.AllSmall := by
        cases op with
        | sub => exact ⟨hsmall.2.1, hsmall.1⟩
        | add | mul | div => exact ⟨hsmall.1, hsmall.2.1⟩
      obtain ⟨ltext, hlrun, hlval⟩ := ihl hl hsl stack
      obtain ⟨rtext, hrrun, hrval⟩ := ihr hr hsr (ltext :: stack)
      have hres := result_value hF hop hrval hlval hsmall
      refine ⟨_, ?_, hF.printed hres⟩
      rw [ParseTree.tokens, List.map_append, List.map_append, List.foldlM_append,
        List.foldlM_append, hlrun, Option.bind_eq_bind, Option.bind_some, hrrun, Option.bind_some]
      show (do some (← evalToken F (rtext :: ltext :: stack) [op.char])) = _
      rw [evalToken_op op (hF.fits hres)]
      rfl

end Evaluation

/-! ## The result -/

/-- `calc4` returns a double that is the integer `k`. -/
def Returns {D : Type} (F : Doubles D) (expr : List Char) (k : Int) : Prop :=
  ∃ x, calc4 F expr = some x ∧ F.value x = some k

/-- **What `calc4` computes**: the value with the operands of every subtraction
    exchanged. -/
theorem calc4_returns {D : Type} {F : Doubles D} (hF : F.Exact) {expr : List Char} {t : ParseTree}
    (h : Parses .E (expr.filter fun c => c ≠ ' ') t) (ht : t.Arithmetic)
    (hsmall : t.swapSub.AllSmall) : Returns F expr t.swapSub.value := by
  obtain ⟨text, hrun, hval⟩ := evalTokens_tree hF ht hsmall []
  refine ⟨F.strtod text, ?_, hval⟩
  have hmachine := parses_machine append h []
  rw [append_foldlM, List.nil_append, t.postForm_eq] at hmachine
  obtain ⟨⟨operators, out⟩, hscan, hpop⟩ := Option.bind_eq_some_iff.mp hmachine
  replace hpop : popAll append operators out = some (flush t.tokens) := hpop
  have htokens : ((flush t.tokens).splitOn ' ').foldlM (evalToken F) [] = some [text] := by
    rw [splitOn_flush ht.space_notMem, List.foldlM_append, hrun]
    rfl
  rw [calc4, if_neg h.ne_nil]
  simp only [hscan, Option.bind_eq_bind, Option.bind_some, hpop, htokens, List.head?_cons]

theorem Returns.unique {D : Type} {F : Doubles D} {expr : List Char} {k k' : Int}
    (h : Returns F expr k) (h' : Returns F expr k') : k = k' := by
  obtain ⟨x, hrun, hval⟩ := h
  obtain ⟨x', hrun', hval'⟩ := h'
  obtain rfl := Option.some.inj (hrun.symm.trans hrun')
  exact Option.some.inj (hval.symm.trans hval')

/-- `%f` of an integer. -/
def printInt (k : Int) : List Char :=
  (if k < 0 then ['-'] else []) ++ Nat.toDigits 10 k.natAbs ++ ".000000".toList

/-- The integer at the front of a text. -/
def readInt : List Char → Int
  | '-' :: rest => -(Nat.ofDigitChars 10 (rest.takeWhile Char.isDigit) 0 : Int)
  | text => (Nat.ofDigitChars 10 (text.takeWhile Char.isDigit) 0 : Int)

/-- The doubles that are integers. -/
def integers : Doubles Int where
  zero := 0
  add := (· + ·)
  sub := (· - ·)
  mul := (· * ·)
  div := Int.tdiv
  strtod := readInt
  sprintf := printInt
  value := fun k => if Small53 k then some k else none

theorem takeWhile_digits (n : Nat) (rest : List Char) :
    (Nat.toDigits 10 n ++ '.' :: rest).takeWhile Char.isDigit = Nat.toDigits 10 n := by
  rw [List.takeWhile_append_of_pos]
  · rw [List.takeWhile_cons_of_neg (by decide), List.append_nil]
  · intro c hc
    exact Nat.isDigit_of_mem_toDigits (by decide) (by decide) hc

/-- A text that is not a minus sign in front is read as digits. -/
theorem readInt_digits {text : List Char} (h : text.head? ≠ some '-') :
    readInt text = (Nat.ofDigitChars 10 (text.takeWhile Char.isDigit) 0 : Int) := by
  rw [readInt]
  rintro rest rfl
  exact h rfl

theorem readInt_printInt (k : Int) : readInt (printInt k) = k := by
  have hpoint : ".000000".toList = '.' :: "000000".toList := rfl
  rw [printInt, hpoint]
  split
  · show readInt ('-' :: (Nat.toDigits 10 k.natAbs ++ '.' :: _)) = k
    rw [readInt, takeWhile_digits, Nat.ofDigitChars_ten_toDigits]
    omega
  · rw [List.nil_append, readInt_digits, takeWhile_digits, Nat.ofDigitChars_ten_toDigits]
    · omega
    · obtain ⟨d, ds, hd⟩ :=
        List.exists_cons_of_ne_nil (Nat.toDigits_ne_nil (n := k.natAbs) (b := 10))
      have hdigit : d.isDigit := Nat.isDigit_of_mem_toDigits (by decide) (by decide)
        (hd ▸ List.mem_cons_self : d ∈ Nat.toDigits 10 k.natAbs)
      rw [hd, List.cons_append, List.head?_cons]
      rintro heq
      rw [Option.some.inj heq] at hdigit
      exact absurd hdigit (by decide)

theorem length_printInt {k : Int} (h : Small53 k) : (printInt k).length < 128 := by
  have hdigits : (Nat.toDigits 10 k.natAbs).length ≤ 16 :=
    (Nat.length_toDigits_le_iff (by decide) (by decide)).mpr (Nat.lt_trans h (by decide))
  have hsign : (if k < 0 then ['-'] else []).length ≤ 1 := by split <;> decide
  have hpoint : ".000000".toList.length = 7 := rfl
  rw [printInt, List.length_append, List.length_append]
  omega

/-- What a double with an integer value is. -/
theorem integers_value {k a : Int} : integers.value k = some a ↔ k = a ∧ Small53 a := by
  show (if Small53 k then some k else none) = some a ↔ _
  split
  · next h =>
      rw [Option.some.injEq]
      exact ⟨fun heq => ⟨heq, heq ▸ h⟩, fun heq => heq.1⟩
  · next h =>
      refine ⟨fun heq => absurd heq.symm (Option.some_ne_none _), ?_⟩
      rintro ⟨rfl, hk⟩
      exact absurd hk h

/-- An operation on integers is exact where its result is small. -/
theorem integers_op (f : Int → Int → Int) {x y a b : Int} (hx : integers.value x = some a)
    (hy : integers.value y = some b) (hs : Small53 (f a b)) :
    integers.value (f x y) = some (f a b) := by
  obtain ⟨rfl, -⟩ := integers_value.mp hx
  obtain ⟨rfl, -⟩ := integers_value.mp hy
  exact integers_value.mpr ⟨rfl, hs⟩

theorem readInt_digit {c : Char} (hc : c.isDigit = true) :
    readInt [c] = digitValue c ∧ Small53 (digitValue c) := by
  have hbounds : 48 ≤ c.toNat ∧ c.toNat ≤ 57 := Char.isDigit_iff_toNat.mp hc
  have hminus : [c].head? ≠ some '-' := by
    intro heq
    rw [Option.some.inj heq] at hc
    exact absurd hc (by decide)
  constructor
  · rw [readInt_digits hminus, List.takeWhile_cons_of_pos hc, List.takeWhile_nil,
      Nat.ofDigitChars_cons, Nat.ofDigitChars_nil, digitValue]
    have hzero : '0'.toNat = 48 := rfl
    omega
  · rw [Small53, digitValue]
    omega

theorem integers_exact : integers.Exact where
  add := integers_op (· + ·)
  sub := integers_op (· - ·)
  mul := integers_op (· * ·)
  digit := fun hc => integers_value.mpr (readInt_digit hc)
  printed := by
    intro x a hx
    obtain ⟨rfl, hs⟩ := integers_value.mp hx
    exact integers_value.mpr ⟨readInt_printInt x, hs⟩
  fits := by
    intro x a hx
    obtain ⟨rfl, hs⟩ := integers_value.mp hx
    exact length_printInt hs

/-- A single digit, as a string of the grammar. -/
theorem parses_digit {c : Char} (hc : c.isDigit = true) : Parses .F [c] (.leaf c) :=
  .operand (isOperand_digit hc).2

end Infix

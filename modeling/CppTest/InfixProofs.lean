import CppTest.ExpressionProofs

/-! # From infix to postfix (`infix2postfix` of `src/algs/cti/test_cti.cpp`)

    `infix2postfix` reads a C string once from left to right, with a stack of the
    operators it has not written yet.

    * The model: one turn of the reading loop (`step`), over any SINK for the output,
      so that `calc4`, which has the same loop and a `std::string` for its output, is
      an instance too.
    * What a turn of the loop does to an expression: `parses_run`.  The operators an
      expression leaves on the stack are those that its postfix form still lacks.
    * The result: `infix2Postfix_spec`. -/

namespace Infix

open Machine Print Expression

/-! ## The model -/

/-- `higher_priority`. -/
def higherPriority (inputOpa stackOpb : Char) : Bool :=
  inputOpa == '(' || stackOpb == '(' ||
    ((inputOpa == '*' || inputOpa == '/') && (stackOpb == '+' || stackOpb == '-'))

section Machine

variable {β : Type} (put : β → Char → Option β)

/-- A token is written with a space behind it. -/
def emit (out : β) (c : Char) : Option β := do put (← put out c) ' '

/-- `while(!operators.empty() && !higher_priority(c, (top = operators.top())))`: pop
    and write. -/
def popWhile (c : Char) : List Char → β → Option (List Char × β)
  | [], out => some ([], out)
  | top :: operators, out =>
      if higherPriority c top then some (top :: operators, out)
      else do popWhile c operators (← emit put out top)

/-- `while((top = operators.top()) != '(')`: pop and write, then pop the parenthesis.
    The top of an empty stack faults. -/
def popToParen : List Char → β → Option (List Char × β)
  | [], _ => none
  | top :: operators, out =>
      if top = '(' then some (operators, out) else do popToParen operators (← emit put out top)

/-- `while(!operators.empty())`: pop and write. -/
def popAll : List Char → β → Option β
  | [], out => some out
  | top :: operators, out => do popAll operators (← emit put out top)

/-- The `switch` on one character of the input. -/
def step : List Char × β → Char → Option (List Char × β)
  | (operators, out), c =>
      if c ∈ ['+', '-', '*', '/', '('] then do
        let (operators, out) ← popWhile put c operators out
        some (c :: operators, out)
      else if c = ')' then popToParen put operators out
      else do some (operators, ← emit put out c)

/-- `while(*infix)`: the cells up to the NUL.  Reading past the last cell faults. -/
def scan : List Char → List Char × β → Option (List Char × β)
  | [], _ => none
  | c :: cells, s => if c = nul then some s else do scan cells (← step put s c)

end Machine

/-- `*postfix++ = c`: a buffer and the offset of the pointer in it. -/
def putCell : List Char × Nat → Char → Option (List Char × Nat)
  | (buffer, n), c => do some (← setAt buffer (n : Int) c, n + 1)

/-- `infix2postfix`: the buffer of `postfix` after the call. -/
def infix2Postfix (input : Option (List Char)) (buffer : List Char) : Option (List Char) := do
  match input with
  | none => some buffer
  | some cells =>
      let (operators, out) ← scan putCell cells ([], (buffer, 0))
      let (buffer, _) ← popAll putCell operators out
      some buffer

/-! ## The machine on an expression -/

/-- The operators an expression may leave on the stack. -/
def Pending : Nonterminal → List Char → Prop
  | .E, pending => ∀ c ∈ pending, c ∈ ['+', '-', '*', '/']
  | .T, pending => ∀ c ∈ pending, c ∈ ['*', '/']
  | .F, pending => pending = []

/-- The stack an expression may start on: its operators do not pop it. -/
def Fits : Nonterminal → List Char → Prop
  | .E, operators => ∀ top ∈ operators.head?, top = '('
  | .T, operators => ∀ top ∈ operators.head?, top ∈ ['(', '+', '-']
  | .F, _ => True

section Machine

variable {β : Type} (put : β → Char → Option β)

/-- The machine with the stack `operators` once `text` is written. -/
def written (operators text : List Char) (out : β) : Option (List Char × β) := do
  some (operators, ← text.foldlM put out)

theorem written_append (operators text text' : List Char) (out : β) :
    written put operators (text ++ text') out
      = text.foldlM put out >>= written put operators text' := by
  rw [written, List.foldlM_append, bind_assoc]
  rfl

/-- What the machine does next starts with the text written. -/
theorem written_bind {γ : Type} (operators text : List Char) (out : β)
    (next : List Char × β → Option γ) :
    written put operators text out >>= next
      = text.foldlM put out >>= fun out => next (operators, out) := by
  rw [written, bind_assoc]
  rfl

theorem emit_eq (out : β) (c : Char) : emit put out c = [c, ' '].foldlM put out := by
  simp [emit]

theorem popAll_eq (operators : List Char) (out : β) :
    popAll put operators out = (flush operators).foldlM put out := by
  induction operators generalizing out with
  | nil => rfl
  | cons top operators ih =>
      rw [popAll, flush, List.flatMap_cons, List.foldlM_append, emit_eq]
      congr 1
      funext out'
      exact ih out'

/-- The pending operators that are not below `c` are written, and nothing else. -/
theorem popWhile_eq {c : Char} {pending operators : List Char}
    (hpop : ∀ p ∈ pending, higherPriority c p = false)
    (hstop : ∀ top ∈ operators.head?, higherPriority c top = true) (out : β) :
    popWhile put c (pending ++ operators) out = written put operators (flush pending) out := by
  induction pending generalizing out with
  | nil =>
      cases operators with
      | nil => rfl
      | cons top operators =>
          rw [List.nil_append, popWhile, if_pos (hstop top rfl)]
          rfl
  | cons p pending ih =>
      have hp : higherPriority c p = false := hpop p List.mem_cons_self
      rw [List.cons_append, popWhile, hp, if_neg Bool.false_ne_true, flush, List.flatMap_cons,
        written_append, emit_eq]
      congr 1
      funext out'
      exact ih (fun q hq => hpop q (List.mem_cons_of_mem _ hq)) out'

/-- The pending operators are written, and the parenthesis below them is popped. -/
theorem popToParen_eq {pending operators : List Char} (hpop : ∀ p ∈ pending, p ≠ '(') (out : β) :
    popToParen put (pending ++ '(' :: operators) out
      = written put operators (flush pending) out := by
  induction pending generalizing out with
  | nil =>
      rw [List.nil_append, popToParen, if_pos rfl]
      rfl
  | cons p pending ih =>
      rw [List.cons_append, popToParen, if_neg (hpop p List.mem_cons_self), flush,
        List.flatMap_cons, written_append, emit_eq]
      congr 1
      funext out'
      exact ih (fun q hq => hpop q (List.mem_cons_of_mem _ hq)) out'

/-- What the machine has done once it has read `s`, from the stack `operators`: the
    operators `pending` are on top of the stack, and all but their text is written of
    `text`. -/
def Runs (s text pending operators : List Char) : Prop :=
  ∃ front, front ++ flush pending = text
    ∧ ∀ out, s.foldlM (step put) (operators, out) = written put (pending ++ operators) front out

theorem step_operand {c : Char} (hc : IsOperand c) (operators : List Char) :
    Runs put [c] [c, ' '] [] operators := by
  refine ⟨[c, ' '], List.append_nil _, ?_⟩
  intro out
  have hop : c ∉ ['+', '-', '*', '/', '('] := by
    intro h
    exact hc (List.mem_append_left [')', nul] h)
  have hparen : c ≠ ')' := by
    rintro rfl
    exact hc (by decide)
  rw [List.foldlM_cons, step, if_neg hop, if_neg hparen, emit_eq, bind_assoc]
  rfl

/-- An operator pops what an expression has left that does not bind less. -/
theorem step_operator {c : Char} (hc : c ∈ ['+', '-', '*', '/', '('])
    {pending operators : List Char} (hpop : ∀ p ∈ pending, higherPriority c p = false)
    (hstop : ∀ top ∈ operators.head?, higherPriority c top = true) (out : β) :
    step put (pending ++ operators, out) c = written put (c :: operators) (flush pending) out := by
  rw [step, if_pos hc, popWhile_eq put hpop hstop, written_bind]
  rfl

/-- **A binary operator between two expressions.**  The left one is completed when
    the operator is read, and the operator is pending below what the right one leaves. -/
theorem Runs.binary {s s' text text' pending pending' operators : List Char} {op : Op}
    (hleft : Runs put s text pending operators)
    (hright : Runs put s' text' pending' (op.char :: operators))
    (hpop : ∀ p ∈ pending, higherPriority op.char p = false)
    (hstop : ∀ top ∈ operators.head?, higherPriority op.char top = true) :
    Runs put (s ++ op.char :: s') (text ++ text' ++ [op.char, ' ']) (pending' ++ [op.char])
      operators := by
  obtain ⟨front, rfl, hrun⟩ := hleft
  obtain ⟨front', rfl, hrun'⟩ := hright
  have hop : op.char ∈ ['+', '-', '*', '/', '('] := by cases op <;> decide
  refine ⟨front ++ flush pending ++ front', ?_, ?_⟩
  · simp [flush]
  · intro out
    rw [List.foldlM_append, hrun, written_bind, List.append_assoc front, written_append]
    congr 1
    funext out'
    rw [List.foldlM_cons, step_operator put hop hpop hstop, written_bind, written_append]
    congr 1
    funext out''
    rw [hrun', List.append_assoc]
    rfl

/-- A parenthesised expression leaves nothing pending. -/
theorem Runs.paren {s text pending operators : List Char}
    (h : Runs put s text pending ('(' :: operators)) (hpop : ∀ p ∈ pending, p ≠ '(') :
    Runs put ('(' :: s ++ [')']) text [] operators := by
  obtain ⟨front, rfl, hrun⟩ := h
  refine ⟨front ++ flush pending, List.append_nil _, ?_⟩
  intro out
  have hopen : step put ([] ++ operators, out) '(' = some ('(' :: operators, out) :=
    step_operator put (by decide) (fun p hp => absurd hp List.not_mem_nil) (fun _ _ => rfl) out
  rw [List.nil_append] at hopen
  rw [List.cons_append, List.foldlM_cons, hopen, Option.bind_eq_bind, Option.bind_some,
    List.foldlM_append, hrun, written_bind, written_append]
  congr 1
  funext out'
  rw [List.foldlM_cons, step, if_neg (by decide), if_pos rfl, popToParen_eq put hpop]
  exact bind_pure _

end Machine

/-- A product operator pops the product operators pending, and nothing below them. -/
theorem times_pops {op : Op} (hop : op = .mul ∨ op = .div) {pending operators : List Char}
    (hp : Pending .T pending) (hfits : Fits .T operators) :
    (∀ p ∈ pending, higherPriority op.char p = false)
    ∧ ∀ top ∈ operators.head?, higherPriority op.char top = true := by
  constructor
  · intro p hmem
    have hm := hp p hmem
    simp only [List.mem_cons, List.not_mem_nil, or_false] at hm
    rcases hop with rfl | rfl <;> rcases hm with rfl | rfl <;> rfl
  · intro top hmem
    have hm := hfits top hmem
    simp only [List.mem_cons, List.not_mem_nil, or_false] at hm
    rcases hop with rfl | rfl <;> rcases hm with rfl | rfl | rfl <;> rfl

/-- A sum operator pops every operator pending, down to a parenthesis. -/
theorem plus_pops {op : Op} (hop : op = .add ∨ op = .sub) {pending operators : List Char}
    (hp : Pending .E pending) (hfits : Fits .E operators) :
    (∀ p ∈ pending, higherPriority op.char p = false)
    ∧ ∀ top ∈ operators.head?, higherPriority op.char top = true := by
  constructor
  · intro p hmem
    have hm := hp p hmem
    simp only [List.mem_cons, List.not_mem_nil, or_false] at hm
    rcases hop with rfl | rfl <;> rcases hm with rfl | rfl | rfl | rfl <;> rfl
  · intro top hmem
    rw [hfits top hmem]
    rcases hop with rfl | rfl <;> rfl

/-- What a product may leave, a sum may. -/
theorem Pending.sum {pending : List Char} (h : Pending .T pending) : Pending .E pending :=
  fun c hc => List.mem_append_right ['+', '-'] (h c hc)

/-- **Every expression, on every stack that it fits.** -/
theorem parses_run {β : Type} (put : β → Char → Option β) {nt : Nonterminal} {s : List Char}
    {t : ParseTree} (h : Parses nt s t) : ∀ operators, Fits nt operators →
      ∃ pending, Pending nt pending ∧ Runs put s t.postForm pending operators := by
  induction h with
  | operand hc => exact fun operators _ => ⟨[], rfl, step_operand put hc operators⟩
  | paren _ ih =>
      intro operators _
      obtain ⟨pending, hp, hrun⟩ := ih ('(' :: operators) (by simp [Fits])
      refine ⟨[], rfl, hrun.paren put ?_⟩
      rintro p hmem rfl
      exact absurd (hp _ hmem) (by decide)
  | factor _ ih =>
      intro operators _
      obtain ⟨pending, rfl, hrun⟩ := ih operators trivial
      exact ⟨[], fun c hc => absurd hc List.not_mem_nil, hrun⟩
  | times op hop _ _ ihl ihr =>
      intro operators hfits
      obtain ⟨pending, hp, hleft⟩ := ihl operators hfits
      obtain ⟨pending', rfl, hright⟩ := ihr (op.char :: operators) trivial
      obtain ⟨hpop, hstop⟩ := times_pops hop hp hfits
      refine ⟨[op.char], ?_, hleft.binary put hright hpop hstop⟩
      rcases hop with rfl | rfl <;> simp [Pending, Op.char]
  | term _ ih =>
      intro operators hfits
      have hlow : Fits .T operators := by
        intro top hmem
        rw [hfits top hmem]
        decide
      obtain ⟨pending, hp, hrun⟩ := ih operators hlow
      exact ⟨pending, hp.sum, hrun⟩
  | plus op hop _ _ ihl ihr =>
      intro operators hfits
      obtain ⟨pending, hp, hleft⟩ := ihl operators hfits
      have hlow : Fits .T (op.char :: operators) := by
        rcases hop with rfl | rfl <;> simp [Fits, Op.char]
      obtain ⟨pending', hp', hright⟩ := ihr (op.char :: operators) hlow
      obtain ⟨hpop, hstop⟩ := plus_pops hop hp hfits
      refine ⟨pending' ++ [op.char], ?_, hleft.binary put hright hpop hstop⟩
      intro c hc
      rcases List.mem_append.mp hc with hold | hnew
      · exact hp'.sum c hold
      · rw [List.mem_singleton.mp hnew]
        rcases hop with rfl | rfl <;> decide

/-! ## The result -/

/-- The reading loop stops at the NUL. -/
theorem scan_eq {β : Type} (put : β → Char → Option β) (rest : List Char) : ∀ {s : List Char},
    nul ∉ s → ∀ st, scan put (s ++ nul :: rest) st = s.foldlM (step put) st := by
  intro s
  induction s with
  | nil => exact fun _ st => if_pos rfl
  | cons c s ih =>
      intro hs st
      rw [List.mem_cons, not_or] at hs
      rw [List.cons_append, scan, if_neg (Ne.symm hs.1), List.foldlM_cons]
      congr 1
      funext st'
      exact ih hs.2 st'

/-- The whole machine on an expression: its postfix form is written. -/
theorem parses_machine {β : Type} (put : β → Char → Option β) {s : List Char} {t : ParseTree}
    (h : Parses .E s t) (out : β) :
    (do let (operators, out) ← s.foldlM (step put) ([], out); popAll put operators out)
      = t.postForm.foldlM put out := by
  obtain ⟨pending, -, front, htext, hrun⟩ := parses_run put h [] (by simp [Fits])
  rw [hrun, written_bind, ← htext, List.foldlM_append, List.append_nil]
  congr 1
  funext out'
  exact popAll_eq put pending out'

/-- Text written through a pointer stands in the buffer from the pointer on. -/
theorem putCell_foldlM (text : List Char) : ∀ done room rest : List Char,
    room.length = text.length →
    text.foldlM putCell (done ++ room ++ rest, done.length)
      = some (done ++ text ++ rest, done.length + text.length) := by
  induction text with
  | nil =>
      intro done room rest hroom
      rw [List.length_eq_zero_iff.mp hroom]
      rfl
  | cons c text ih =>
      intro done room rest hroom
      obtain ⟨d, room, rfl⟩ := List.exists_cons_of_length_eq_add_one hroom
      have hset : putCell (done ++ d :: room ++ rest, done.length) c
          = some ((done ++ [c]) ++ room ++ rest, (done ++ [c]).length) := by
        rw [putCell, setAt_natCast _ _ (by simp)]
        simp
      rw [List.foldlM_cons, hset, Option.bind_eq_bind, Option.bind_some,
        ih _ _ _ (by simpa using hroom)]
      simp
      omega

/-- **`infix2postfix` on a string of the grammar** writes the postfix form of its
    tree to the front of the buffer and no other cell; no top of an empty stack is
    read on the way, since that would fault. -/
theorem infix2Postfix_spec {s : List Char} {t : ParseTree} (h : Parses .E s t)
    (rest buffer : List Char) (hroom : t.postForm.length ≤ buffer.length) :
    infix2Postfix (some (s ++ nul :: rest)) buffer
      = some (t.postForm ++ buffer.drop t.postForm.length) := by
  have hwrite : t.postForm.foldlM putCell (buffer, 0)
      = some (t.postForm ++ buffer.drop t.postForm.length, t.postForm.length) := by
    have hw := putCell_foldlM t.postForm [] (buffer.take t.postForm.length)
      (buffer.drop t.postForm.length) (by simpa using hroom)
    simpa using hw
  have hrun := parses_machine putCell h (buffer, 0)
  rw [hwrite, ← scan_eq putCell rest h.nul_notMem] at hrun
  obtain ⟨⟨operators, out⟩, hscan, hpop⟩ := Option.bind_eq_some_iff.mp hrun
  replace hpop : popAll putCell operators out = some (t.postForm ++ _, _) := hpop
  rw [infix2Postfix]
  simp only [hscan, Option.bind_eq_bind, Option.bind_some, hpop]

theorem infix2Postfix_chain :
    infix2Postfix (some ['a', '-', '(', 'b', '-', 'c', ')', '*', 'd', nul]) (List.replicate 16 '.')
      = some ['a', ' ', 'b', ' ', 'c', ' ', '-', ' ', 'd', ' ', '*', ' ', '-', ' ', '.', '.'] := by
  have inner : Parses .E ['b', '-', 'c'] (.node .sub (.leaf 'b') (.leaf 'c')) :=
    .plus .sub (.inr rfl) (.term (.factor (.operand (by decide)))) (.factor (.operand (by decide)))
  have whole : Parses .E ['a', '-', '(', 'b', '-', 'c', ')', '*', 'd']
      (.node .sub (.leaf 'a') (.node .mul (.node .sub (.leaf 'b') (.leaf 'c')) (.leaf 'd'))) :=
    .plus .sub (.inr rfl) (.term (.factor (.operand (by decide))))
      (.times .mul (.inl rfl) (.factor (.paren inner)) (.operand (by decide)))
  exact infix2Postfix_spec whole [] (List.replicate 16 '.') (by decide)

end Infix

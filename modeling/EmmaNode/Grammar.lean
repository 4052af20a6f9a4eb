import EmmaNode.Acceptance

/-! The grammar of the operator table. A sentence is a list of factors with binary operators
between them, as it is written; the precedences make it the tokens of one tree. A text is
accepted as such a sentence, when it is tidy and its numbers fit. -/

namespace EmmaNode

inductive Part where
  | primary
  | factor
  | sentence

inductive Phrase : Part → List Token → Prop
  | operand {w : Text} : Literal w ∨ Reference w → Phrase .primary [.operand w]
  | group {ts : List Token} : Phrase .sentence ts →
      Phrase .primary (.operator .oSeparator :: (ts ++ [.operator .fSeparator]))
  | primary {ts : List Token} : Phrase .primary ts → Phrase .factor ts
  | not {ts : List Token} : Phrase .primary ts → Phrase .factor (.operator .not :: ts)
  | factor {ts : List Token} : Phrase .factor ts → Phrase .sentence ts
  | binary {ts us : List Token} {op : Operator} : Phrase .sentence ts → op.isBinary →
      Phrase .factor us → Phrase .sentence (ts ++ .operator op :: us)

namespace Expr

def attach (op : Operator) : Expr → Expr → Expr
  | .binary op' a b, f =>
    if op'.precedence ≤ op.precedence then .binary op (.binary op' a b) f
    else .binary op' a (b.attach op f)
  | e, f => .binary op e f

theorem attach_low {op : Operator} {e : Expr} (low : e.level ≤ op.precedence) (f : Expr) :
    e.attach op f = .binary op e f := by
  cases e with
  | binary op' a b => exact if_pos low
  | _ => rfl

theorem attach_inside {op op' : Operator} (close : op.precedence < op'.precedence) (a b f : Expr) :
    (binary op' a b).attach op f = .binary op' a (b.attach op f) :=
  if_neg (Nat.not_le_of_lt close)

theorem tokens_attach (op : Operator) (f e : Expr) :
    (e.attach op f).tokens = e.tokens ++ .operator op :: f.tokens := by
  induction e with
  | binary op' a b _ ihb =>
    rw [attach]
    split
    · rfl
    · simp [tokens, ihb]
  | _ => rfl

theorem wellFormed_attach {op : Operator} {f e : Expr} (binary : op.isBinary) (wf : e.WellFormed)
    (wff : f.WellFormed) (factor : f.level ≤ Operator.not.precedence) :
    (e.attach op f).WellFormed ∧ (e.attach op f).level = max e.level op.precedence := by
  have above : Operator.not.precedence < op.precedence := by
    simpa [Operator.isBinary] using binary
  have low {e : Expr} (wf : e.WellFormed) (low : e.level ≤ op.precedence) :
      (e.attach op f).WellFormed ∧ (e.attach op f).level = max e.level op.precedence := by
    rw [attach_low low]
    exact ⟨⟨binary, wf, wff, low, Nat.lt_of_le_of_lt factor above⟩, (Nat.max_eq_right low).symm⟩
  induction e with
  | operand w => exact low wf (Nat.zero_le _)
  | paren e => exact low wf (Nat.zero_le _)
  | not e => exact low wf (Nat.le_of_lt above)
  | binary op' a b _ ihb =>
    by_cases weaker : op'.precedence ≤ op.precedence
    · exact low wf weaker
    · have close := Nat.lt_of_not_le weaker
      obtain ⟨binary', wfa, wfb, left, right⟩ := wf
      obtain ⟨attached, level⟩ := ihb wfb
      rw [attach_inside close]
      refine ⟨⟨binary', wfa, attached, left, ?_⟩, (Nat.max_eq_left (Nat.le_of_lt close)).symm⟩
      rw [level]
      exact Nat.max_lt.mpr ⟨right, close⟩

end Expr

def Part.limit : Part → Expr → Prop
  | .primary, e => e.level = 0
  | .factor, e => e.level ≤ Operator.not.precedence
  | .sentence, _ => True

theorem Phrase.tree {part : Part} {ts : List Token} (h : Phrase part ts) :
    ∃ e : Expr, e.WellFormed ∧ e.tokens = ts ∧ part.limit e := by
  induction h with
  | @operand w valid => exact ⟨.operand w, valid, rfl, rfl⟩
  | group _ ih =>
    obtain ⟨e, wf, rfl, -⟩ := ih
    exact ⟨.paren e, wf, rfl, rfl⟩
  | primary _ ih =>
    obtain ⟨e, wf, rfl, level⟩ := ih
    exact ⟨e, wf, rfl, (Nat.le_of_eq level).trans (Nat.zero_le _)⟩
  | not _ ih =>
    obtain ⟨e, wf, rfl, level⟩ := ih
    exact ⟨.not e, ⟨wf, (Nat.le_of_eq level).trans (Nat.zero_le _)⟩, rfl, Nat.le_refl _⟩
  | factor _ ih =>
    obtain ⟨e, wf, rfl, -⟩ := ih
    exact ⟨e, wf, rfl, trivial⟩
  | @binary _ _ op _ binary _ ih ihf =>
    obtain ⟨e, wf, rfl, -⟩ := ih
    obtain ⟨f, wff, rfl, level⟩ := ihf
    exact ⟨e.attach op f, (Expr.wellFormed_attach binary wf wff level).1, Expr.tokens_attach op f e,
      trivial⟩

theorem Phrase.single {part : Part} {ts : List Token} (h : Phrase part ts) : Single ts ∧
    (part = .primary → ts.head? ≠ some (.operator .not)) := by
  have behind {op : Operator} {us : List Token} (single : Single us)
      (other : op = .not → us.head? ≠ some (.operator .not)) : Single (.operator op :: us) := by
    refine List.isChain_cons.mpr ⟨?_, single⟩
    rintro t ht ⟨e, rfl⟩
    cases e
    exact other rfl ht
  have joined {ts us : List Token} {part : Part} (h : Phrase part ts) (single : Single ts)
      (single' : Single us) : Single (ts ++ us) := by
    refine List.isChain_append.mpr ⟨single, single', ?_⟩
    rintro s hs t - ⟨rfl, -⟩
    obtain ⟨e, -, rfl, -⟩ := h.tree
    obtain ⟨-, t, last, closes⟩ := e.ends
    rw [last] at hs
    cases hs
    cases closes
  induction h with
  | operand valid => exact ⟨List.isChain_singleton _, fun _ => nofun⟩
  | group h ih =>
    refine ⟨behind (joined h ih.1 (List.isChain_singleton _)) nofun, fun _ => nofun⟩
  | primary _ ih => exact ⟨ih.1, nofun⟩
  | not _ ih => exact ⟨behind ih.1 fun _ => ih.2 rfl, nofun⟩
  | factor _ ih => exact ⟨ih.1, nofun⟩
  | binary h binary _ ih ihf =>
    refine ⟨joined h ih.1 (behind ihf.1 ?_), nofun⟩
    rintro rfl
    cases binary

namespace Expr

def first : Expr → Expr
  | .binary _ a _ => a.first
  | e => e

def rest : Expr → List (Operator × Expr)
  | .binary op a b => a.rest ++ (op, b.first) :: b.rest
  | _ => []

def tokensBehind (l : List (Operator × Expr)) : List Token :=
  l.flatMap fun p => .operator p.1 :: p.2.tokens

theorem tokens_flat (e : Expr) : e.tokens = e.first.tokens ++ tokensBehind e.rest := by
  induction e with
  | binary op a b iha ihb =>
    rw [tokens, iha, ihb, first, rest, tokensBehind, tokensBehind, tokensBehind]
    simp
  | _ => simp [first, rest, tokensBehind]

def regroup (f : Expr) (l : List (Operator × Expr)) : Expr :=
  l.foldl (fun e p => e.attach p.1 p.2) f

theorem regroup_inside {op : Operator} (a x : Expr) {l : List (Operator × Expr)}
    (close : ∀ p ∈ l, p.1.precedence < op.precedence) :
    regroup (.binary op a x) l = .binary op a (regroup x l) := by
  induction l generalizing x with
  | nil => rfl
  | cons p l ih =>
    rw [regroup, List.foldl_cons, attach_inside (close p List.mem_cons_self)]
    exact ih _ fun q hq => close q (List.mem_cons_of_mem _ hq)

theorem rest_spec {e : Expr} (wf : e.WellFormed) :
    (e.first.WellFormed ∧ e.first.level ≤ Operator.not.precedence) ∧
      ∀ p ∈ e.rest, p.1.isBinary ∧ p.1.precedence ≤ e.level ∧ p.2.WellFormed ∧
        p.2.level ≤ Operator.not.precedence := by
  induction e with
  | operand w => exact ⟨⟨wf, Nat.zero_le _⟩, nofun⟩
  | paren e => exact ⟨⟨wf, Nat.zero_le _⟩, nofun⟩
  | not e => exact ⟨⟨wf, Nat.le_refl _⟩, nofun⟩
  | binary op a b iha ihb =>
    obtain ⟨binary, wfa, wfb, left, right⟩ := wf
    obtain ⟨first, resta⟩ := iha wfa
    obtain ⟨second, restb⟩ := ihb wfb
    refine ⟨first, fun p hp => ?_⟩
    rcases List.mem_append.mp hp with hp | hp
    · obtain ⟨binary, low, factor⟩ := resta p hp
      exact ⟨binary, low.trans left, factor⟩
    · rcases List.mem_cons.mp hp with rfl | hp
      · exact ⟨binary, Nat.le_refl _, second⟩
      · obtain ⟨binary, low, factor⟩ := restb p hp
        exact ⟨binary, low.trans (Nat.le_of_lt right), factor⟩

theorem regroup_flat {e : Expr} (wf : e.WellFormed) : regroup e.first e.rest = e := by
  induction e with
  | binary op a b iha ihb =>
    obtain ⟨-, wfa, wfb, left, right⟩ := wf
    have whole := iha wfa
    rw [regroup] at whole
    have inside := regroup_inside a b.first fun p hp =>
      Nat.lt_of_le_of_lt ((rest_spec wfb).2 p hp).2.1 right
    rw [regroup] at inside
    rw [regroup, first, rest, List.foldl_append, whole, List.foldl_cons, attach_low left, inside,
      ihb wfb]
  | _ => rfl

theorem tokensBehind_cons (p : Operator × Expr) (l : List (Operator × Expr)) (r : List Token) :
    tokensBehind (p :: l) ++ r = .operator p.1 :: (p.2.tokens ++ (tokensBehind l ++ r)) := by
  simp [tokensBehind]

/-- What does not go on with a binary operator -/
def Ends (r : List Token) : Prop :=
  ∀ op : Operator, r.head? = some (.operator op) → op.isBinary = false

def IsFactor (f : Expr) : Prop := f.WellFormed ∧ f.level ≤ Operator.not.precedence

def FactorsUnique (n : Nat) : Prop := ∀ ⦃f f' : Expr⦄ ⦃r r' : List Token⦄, f.tokens.length ≤ n →
  f.IsFactor → f'.IsFactor → f.tokens ++ r = f'.tokens ++ r' → f = f' ∧ r = r'

theorem FactorsUnique.behind {n : Nat} (h : FactorsUnique n) {l l' : List (Operator × Expr)}
    {r r' : List Token} (short : (tokensBehind l).length ≤ n)
    (factors : ∀ p ∈ l, p.1.isBinary ∧ p.2.IsFactor)
    (factors' : ∀ p ∈ l', p.1.isBinary ∧ p.2.IsFactor) (ends : Ends r) (ends' : Ends r')
    (same : tokensBehind l ++ r = tokensBehind l' ++ r') : l = l' ∧ r = r' := by
  induction l generalizing l' with
  | nil =>
    cases l' with
    | nil => exact ⟨rfl, same⟩
    | cons p' l' =>
      have head : r = .operator p'.1 :: _ := same.trans (tokensBehind_cons p' l' r')
      have binary := (factors' p' List.mem_cons_self).1
      rw [ends p'.1 (by rw [head]; rfl)] at binary
      cases binary
  | cons p l ih =>
    cases l' with
    | nil =>
      have head : r' = .operator p.1 :: _ := same.symm.trans (tokensBehind_cons p l r)
      have binary := (factors p List.mem_cons_self).1
      rw [ends' p.1 (by rw [head]; rfl)] at binary
      cases binary
    | cons p' l' =>
      obtain ⟨op, f⟩ := p
      obtain ⟨op', f'⟩ := p'
      have length : (tokensBehind ((op, f) :: l)).length =
          1 + f.tokens.length + (tokensBehind l).length := by
        have := congrArg List.length (tokensBehind_cons (op, f) l [])
        simp only [List.append_nil, List.length_cons, List.length_append] at this
        omega
      rw [tokensBehind_cons, tokensBehind_cons, List.cons.injEq, Token.operator.injEq] at same
      obtain ⟨one, same⟩ := same
      have fits : f.tokens.length ≤ n := by omega
      obtain ⟨two, after⟩ := h fits (factors _ List.mem_cons_self).2
        (factors' _ List.mem_cons_self).2 same
      cases one
      cases two
      obtain ⟨rfl, rest⟩ := ih (by omega) (fun q hq => factors q (List.mem_cons_of_mem _ hq))
        (fun q hq => factors' q (List.mem_cons_of_mem _ hq)) after
      exact ⟨rfl, rest⟩

theorem FactorsUnique.whole {n : Nat} (h : FactorsUnique n) {e e' : Expr} {r r' : List Token}
    (short : e.tokens.length ≤ n) (wf : e.WellFormed) (wf' : e'.WellFormed) (ends : Ends r)
    (ends' : Ends r') (same : e.tokens ++ r = e'.tokens ++ r') : e = e' ∧ r = r' := by
  obtain ⟨first, rest⟩ := rest_spec wf
  obtain ⟨first', rest'⟩ := rest_spec wf'
  rw [tokens_flat, List.length_append] at short
  rw [tokens_flat, tokens_flat e', List.append_assoc, List.append_assoc] at same
  obtain ⟨one, same⟩ := h (by omega) first first' same
  obtain ⟨more, same⟩ := h.behind (by omega) (fun p hp => ⟨(rest p hp).1, (rest p hp).2.2⟩)
    (fun p hp => ⟨(rest' p hp).1, (rest' p hp).2.2⟩) ends ends' same
  refine ⟨?_, same⟩
  rw [← regroup_flat wf, ← regroup_flat wf', one, more]

theorem factorsUnique (n : Nat) : FactorsUnique n := by
  induction n with
  | zero =>
    intro f f' r r' short
    obtain ⟨⟨t, first, -⟩, -⟩ := f.ends
    rw [List.length_eq_zero_iff.mp (Nat.le_zero.mp short)] at first
    cases first
  | succ n ih =>
    intro f f' r r' short ⟨wf, factor⟩ ⟨wf', factor'⟩ same
    have binary {op : Operator} {a b : Expr} (wf : (Expr.binary op a b).WellFormed)
        (factor : (Expr.binary op a b).level ≤ Operator.not.precedence) : False := by
      have above : Operator.not.precedence < op.precedence := by
        simpa [Operator.isBinary] using wf.1
      exact absurd factor (Nat.not_le_of_lt above)
    cases f with
    | operand w =>
      cases f' with
      | operand w' =>
        cases same
        exact ⟨rfl, rfl⟩
      | binary op a b => exact (binary wf' factor').elim
      | paren e => cases same
      | not e => cases same
    | paren e =>
      cases f' with
      | paren e' =>
        simp only [tokens, List.cons_append, List.append_assoc, List.nil_append, List.cons.injEq,
          true_and] at same
        have closing (r : List Token) : Ends (.operator .fSeparator :: r) := by
          intro op head
          cases head
          rfl
        simp only [tokens, List.length_cons, List.length_append] at short
        have fits : e.tokens.length ≤ n := by omega
        have inner : e'.WellFormed := wf'
        obtain ⟨rfl, rest⟩ := ih.whole fits wf inner (closing r) (closing r') same
        cases rest
        exact ⟨rfl, rfl⟩
      | binary op a b => exact (binary wf' factor').elim
      | operand w => cases same
      | not e => cases same
    | not e =>
      cases f' with
      | not e' =>
        simp only [tokens, List.cons_append, List.cons.injEq, true_and] at same
        have fits : e.tokens.length ≤ n := Nat.le_of_succ_le_succ short
        have factor : IsFactor e' := wf'
        obtain ⟨rfl, rest⟩ := ih fits wf factor same
        exact ⟨rfl, rest⟩
      | binary op a b => exact (binary wf' factor').elim
      | operand w => cases same
      | paren e => cases same
    | binary op a b => exact (binary wf factor).elim

theorem tokens_inj {e e' : Expr} (wf : e.WellFormed) (wf' : e'.WellFormed)
    (same : e.tokens = e'.tokens) : e = e' :=
  have nil : Ends [] := nofun
  ((factorsUnique e.tokens.length).whole (le_refl _) wf wf' nil nil (by rw [same])).1

end Expr

section
variable {P : Platform} {σ : Type} {solve : Text → σ → σ × Option Int}

/-- The text is an expression, and `v` its value in the integers. -/
def Means (solve : Text → σ → σ × Option Int) (env : σ) (t : Text) (v : Int) : Prop :=
  ∃ (e : Expr) (env' : σ), e.WellFormed ∧ tokens (withoutBlanks t) = e.tokens ∧
    e.value Arithmetic.unbounded solve env = some (v, env')

/-- An expression that is so written divides by no zero, and its references have values. -/
def Defined (solve : Text → σ → σ × Option Int) (env : σ) (t : Text) : Prop :=
  ∀ e : Expr, e.WellFormed → tokens (withoutBlanks t) = e.tokens →
    (e.value Arithmetic.unbounded solve env).isSome

/-- Its numbers, and the results of its operators, are numbers of `operand_t`. -/
def InRange (P : Platform) (solve : Text → σ → σ × Option Int) (env : σ) (t : Text) : Prop :=
  ∀ e : Expr, e.WellFormed → tokens (withoutBlanks t) = e.tokens →
    ∀ r ∈ e.value Arithmetic.unbounded solve env, e.value P.integers solve env = some r

theorem Means.defined {env : σ} {t : Text} {v : Int} (h : Means solve env t v) :
    Defined solve env t := by
  obtain ⟨e, env', wf, reads, value⟩ := h
  intro e' wf' reads'
  rw [Expr.tokens_inj wf' wf (reads'.symm.trans reads), value]
  rfl

/-- Blocks that are read as they stand, of a text without a doubled `!` whose numbers are in range
and for which the stacks are large enough -/
structure WithinLimits (P : Platform) (solve : Text → σ → σ × Option Int) (env : σ)
    (blocks : List Text) : Prop where
  legible : Legible blocks
  single : Single (tokens (withoutBlanks blocks.flatten))
  inRange : InRange P solve env blocks.flatten
  room : ∀ e : Expr, e.WellFormed → tokens (withoutBlanks blocks.flatten) = e.tokens →
    e.operatorHeight ≤ evalMaxOperators ∧ e.operandHeight ≤ evalMaxOperands

theorem WithinLimits.of_tree {env : σ} {blocks : List Text} {e : Expr} (wf : e.WellFormed)
    (reads : tokens (withoutBlanks blocks.flatten) = e.tokens) (legible : Legible blocks)
    (single : Single e.tokens)
    (fits : ∀ r ∈ e.value Arithmetic.unbounded solve env, e.value P.integers solve env = some r)
    (operators : e.operatorHeight ≤ evalMaxOperators)
    (operands : e.operandHeight ≤ evalMaxOperands) : WithinLimits P solve env blocks where
  legible := legible
  single := reads ▸ single
  inRange e' wf' reads' := by
    rw [Expr.tokens_inj wf' wf (reads'.symm.trans reads)]
    exact fits
  room e' wf' reads' := by
    rw [Expr.tokens_inj wf' wf (reads'.symm.trans reads)]
    exact ⟨operators, operands⟩

theorem WithinLimits.evaluated {m : Calculator σ} {blocks : List Text} {v : Int}
    (limits : WithinLimits P solve m.env blocks) (fresh : m.Fresh)
    (means : Means solve m.env blocks.flatten v) :
    m.evaluateText P solve blocks = (.complete, some v) := by
  obtain ⟨e, env', wf, reads, value⟩ := means
  obtain ⟨operators, operands⟩ := limits.room e wf reads
  exact Expr.evaluateText_blocks fresh wf reads (limits.inRange e wf reads _ value) operators operands
    limits.legible (reads ▸ limits.single)

/-- A text that is read as it stands, has no doubled `!` and stays in range is, if it is
accepted, an expression with the result for its value exactly if it is tidy and has a value. -/
theorem Calculator.accepted_iff {m : Calculator σ} (fresh : m.Fresh) {blocks : List Text}
    {v : Int} (legible : Legible blocks) (single : Single (tokens (withoutBlanks blocks.flatten)))
    (inRange : InRange P solve m.env blocks.flatten)
    (accepted : m.evaluateText P solve blocks = (.complete, some v)) :
    Means solve m.env blocks.flatten v ↔
      Tidy blocks.flatten ∧ Defined solve m.env blocks.flatten := by
  constructor
  · intro means
    have defined := means.defined
    obtain ⟨e, env', wf, reads, -⟩ := means
    refine ⟨⟨?_, reads ▸ e.joined wf, reads ▸ e.closed wf, fun w hw => ?_,
      reads ▸ e.no_reference wf⟩, defined⟩
    · intro zero
      have kept : (0 : UInt8) ∈ withoutBlanks blocks.flatten :=
        List.mem_filter.mpr ⟨zero, by decide⟩
      rw [← cleaned_expression wf reads] at kept
      exact cleaned_nonzero kept rfl
    · exact e.operand_tokens wf (reads ▸ hw)
  · rintro ⟨tidy, defined⟩
    have nonzero : ∀ c ∈ withoutBlanks blocks.flatten, c ≠ 0 := fun c hc e =>
      tidy.nonzero (e ▸ List.mem_of_mem_filter hc)
    have read : cleaned blocks.flatten = withoutBlanks blocks.flatten :=
      (List.map_congr_left fun c hc => if_neg (nonzero c hc)).trans (List.map_id _)
    obtain ⟨result, -⟩ := @Calculator.evaluateText_outcome P σ solve m fresh.operandIndex
      fresh.bufferIndex blocks (Accum.intact_legible _ legible)
    rw [accepted, read, Accum.outcome_tokens _ _ nonzero, fresh.accum] at result
    obtain ⟨a, run, value⟩ := Option.bind_eq_some_iff.mp result.symm
    have front := (Front.empty P solve m.env).run tidy.joined single tidy.operands tidy.other run
    obtain ⟨e, wf, reads, value⟩ := front.conclude tidy.closed value
    -- the machine has kept every number as it is
    obtain ⟨⟨z, env'⟩, whole⟩ := Option.isSome_iff_exists.mp (defined e wf reads)
    rw [e.value_machine (inRange e wf reads _ whole)] at value
    cases value
    exact ⟨e, a.env, wf, reads, whole⟩

end

def sumBlocks : List Text := [chars ['1', ' ', '+'], chars ['L', '#', 'x']]

theorem sum_tokens : tokens (withoutBlanks sumBlocks.flatten) =
    [.operand (chars ['1']), .operator .plus, .operand (chars ['L', '#', 'x'])] := by
  decide +kernel

theorem tidy_sum : Tidy sumBlocks.flatten where
  nonzero := by decide
  joined := by decide +kernel
  closed := by decide +kernel
  operands := by
    rw [sum_tokens]
    intro w hw
    simp only [List.mem_cons, Token.operand.injEq, reduceCtorEq, false_or, List.not_mem_nil,
      or_false] at hw
    rcases hw with rfl | rfl
    · exact .inl (by decide +kernel)
    · exact .inr (by decide +kernel)
  other := by decide +kernel

def sumTree : Expr := .binary .plus (.operand (chars ['1'])) (.operand (chars ['L', '#', 'x']))

theorem sum_value : sumTree.value Arithmetic.unbounded oneReference () = some (8, ()) := by
  decide +kernel

theorem limits_sum : WithinLimits .plain oneReference () sumBlocks := by
  refine .of_tree (e := sumTree) (by decide +kernel) sum_tokens
    ⟨(chars ['L', '#', 'x'], 0), by decide +kernel, by decide⟩ (by decide +kernel) ?_
    (by decide) (by decide)
  intro r value
  rw [sum_value] at value
  cases value
  decide +kernel

theorem means_sum : Means oneReference () sumBlocks.flatten 8 :=
  ⟨sumTree, (), by decide +kernel, sum_tokens, sum_value⟩

theorem Calculator.accepted_sum : Means oneReference () sumBlocks.flatten 8 :=
  (Calculator.accepted_iff (m := freshCalculator) ⟨rfl, rfl, rfl, rfl⟩ limits_sum.legible
    limits_sum.single limits_sum.inRange (by decide +kernel)).mpr ⟨tidy_sum, means_sum.defined⟩

/-- A parenthesis that is never closed is accepted. -/
theorem Calculator.accepted_open : ¬ ∀ (P : Platform) (σ : Type)
    (solve : Text → σ → σ × Option Int) (m : Calculator σ) (blocks : List Text) (v : Int),
    m.Fresh → m.evaluateText P solve blocks = (.complete, some v) →
    Means solve m.env blocks.flatten v := by
  intro h
  obtain ⟨e, -, wf, reads, -⟩ := h .plain Unit oneReference freshCalculator [chars ['(', '1']] 1
    ⟨rfl, rfl, rfl, rfl⟩ (by decide +kernel)
  have closed := e.closed wf
  rw [← reads] at closed
  revert closed
  decide +kernel

end EmmaNode

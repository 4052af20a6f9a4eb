import EmmaNode.Grammar

/-! The calculator fed with tokens. What it makes of a sentence is the value of its tree, or
one of its stacks is full; what divides by zero has no value, and the calculator no result. -/

namespace EmmaNode

/-- One of the stacks had no place left. -/
def EvalStatus.IsOverflow (status : EvalStatus) : Prop :=
  status = .operandLifoOvf ∨ status = .operatorLifoOvf

section
variable {σ : Type}

namespace Calculator
variable (P : Platform) (solve : Text → σ → σ × Option Int)

/-- An operand for `eval_add_operand` or an operator for `eval_add_operator` -/
def addToken (m : Calculator σ) : Token → Calculator σ × EvalStatus
  | .operand w => m.evalAddOperand P solve w
  | .operator op =>
    let (s, status) := evalAddOperator P m.stack (some op)
    ({ m with stack := s }, status)

def addTokens : List Token → Calculator σ → Calculator σ × EvalStatus
  | [], m => (m, .ready)
  | t :: ts, m =>
    match m.addToken P solve t with
    | (m, .ready) => addTokens ts m
    | (m, error) => (m, error)

/-- The tokens, and the end of `evaluate_block` behind them -/
def evaluateTokens (ts : List Token) (m : Calculator σ) : EvalStatus :=
  match m.addTokens P solve ts with
  | (m, .ready) => (m.evaluateResult P solve).2.1
  | (_, error) => error

def cleaned (m : Calculator σ) : Calculator σ := { m with stack := m.stack.clean }

/-- A call finds its stack full, or all are ready and the value is what the stacks are left
with. -/
def ComesTo (m : Calculator σ) (ts : List Token) (v : Int) : Prop :=
  (m.addTokens P solve ts).2.IsOverflow ∨
    (m.addTokens P solve ts).2 = .ready ∧
      ∃ s, evalAddOperator P (m.addTokens P solve ts).1.stack none = (s, .ready) ∧
        s.operators = [] ∧ s.operands = [v]

variable {P : Platform} {solve : Text → σ → σ × Option Int}

variable (solve) in
theorem addToken_step (m : Calculator σ) (t : Token) :
    match m.accum.step P solve t with
    | some a => m.addToken P solve t = (m.put a, .ready)
    | none => (m.addToken P solve t).2 ≠ .ready := by
  cases t with
  | operand w =>
    rw [addToken, evalAddOperand_put, Accum.step]
    generalize m.accum.addOperand P solve w = added
    obtain ⟨a, status⟩ := added
    cases status <;> first | rfl | simp
  | operator op =>
    rw [addToken, evalAddOperator_put, Accum.step]
    have env : (m.accum.addOperator P (some op)).1.env = m.env := rfl
    generalize m.accum.addOperator P (some op) = added at env ⊢
    obtain ⟨a, status⟩ := added
    cases status
    case ready =>
      simp only at env ⊢
      rw [put, env]
    all_goals simp

theorem addTokens_append (ts us : List Token) (m : Calculator σ) :
    m.addTokens P solve (ts ++ us) =
      match m.addTokens P solve ts with
      | (m, .ready) => m.addTokens P solve us
      | (m, error) => (m, error) := by
  induction ts generalizing m with
  | nil => rfl
  | cons t ts ih =>
    rw [List.cons_append, addTokens, addTokens]
    generalize m.addToken P solve t = added
    obtain ⟨m, status⟩ := added
    cases status <;> first | exact ih m | rfl

variable (solve) in
theorem addTokens_run (ts : List Token) (m : Calculator σ) :
    match m.accum.run P solve ts with
    | some a => m.addTokens P solve ts = (m.put a, .ready)
    | none => (m.addTokens P solve ts).2 ≠ .ready := by
  induction ts generalizing m with
  | nil => rfl
  | cons t ts ih =>
    have step := m.addToken_step (P := P) solve t
    rw [Accum.run, addTokens]
    generalize m.accum.step P solve t = next at step ⊢
    cases next with
    | some a =>
      simp only at step
      rw [step]
      exact ih (m.put a)
    | none =>
      simp only at step
      generalize m.addToken P solve t = added at step ⊢
      obtain ⟨m, status⟩ := added
      cases status
      case ready => exact absurd rfl step
      all_goals simp

variable (solve) in
theorem addTokens_status (ts : List Token) (m : Calculator σ) :
    (m.addTokens P solve ts).2 ≠ .complete := by
  induction ts generalizing m with
  | nil => simp [addTokens]
  | cons t ts ih =>
    have first : (m.addToken P solve t).2 ≠ .complete := by
      cases t with
      | operand w =>
        rw [addToken, evalAddOperand_put]
        exact m.accum.addOperand_status w
      | operator op =>
        rw [addToken, evalAddOperator_put]
        exact m.accum.addOperator_status (some op)
    rw [addTokens]
    generalize m.addToken P solve t = added at first ⊢
    obtain ⟨m, status⟩ := added
    cases status <;> first | exact ih m | exact first

theorem addToken_full {m : Calculator σ} {op : Operator} {ops : List Operator} {vals : List Int}
    (reduced : simplify P (some op) m.stack.operators m.stack.operands = (ops, vals, .ready))
    (full : evalMaxOperators ≤ ops.length) :
    (m.addToken P solve (.operator op)).2.IsOverflow := by
  refine .inr ?_
  simp only [addToken, evalAddOperator, reduced, if_pos full]

theorem addToken_crowded {m : Calculator σ} {w : Text} (valid : Literal w ∨ Reference w)
    {r : Int × σ} (value : (Expr.operand w).value P.machine solve m.env = some r)
    (full : evalMaxOperands ≤ m.stack.operands.length) :
    (m.addToken P solve (.operand w)).2.IsOverflow := by
  refine .inl ?_
  have crowded := Nat.not_lt_of_le full
  unfold addToken evalAddOperand
  cases w with
  | nil => rcases valid with ⟨filled, -⟩ | ⟨-, c, hc, -⟩ <;> simp at *
  | cons c rest =>
    have nonzero : c ≠ 0 := by
      rcases valid with literal | reference
      · exact (digit_nonzero (literal.2 c List.mem_cons_self)).1
      · exact fun e => reference.1 (e ▸ List.mem_cons_self)
    simp only [if_neg nonzero, if_neg crowded]
    split
    · rename_i named
      have other : ¬Literal (c :: rest) := by
        intro literal
        have digit := literal.2 c List.mem_cons_self
        simp only [isDigit, decide_eq_true_eq] at digit
        rcases named.1 with out | out
        · exact absurd digit.1 (UInt8.not_le.mpr out)
        · exact absurd digit.2 (UInt8.not_le.mpr out)
      rw [Expr.value, if_neg other] at value
      generalize solve (c :: rest) m.env = solved at value ⊢
      obtain ⟨env, _ | v⟩ := solved
      · cases value
      · rfl
    · rfl

theorem addToken_push {m : Calculator σ} {op : Operator} {ops ops' : List Operator}
    {vals vals' : List Int} {env : σ} (accum : m.accum = ⟨ops, vals, env⟩)
    (reduced : simplify P (some op) ops vals = (ops', vals', .ready)) (other : op ≠ .fSeparator) :
    (evalMaxOperators ≤ ops'.length ∧ (m.addToken P solve (.operator op)).2.IsOverflow) ∨
      (ops'.length < evalMaxOperators ∧
        m.accum.run P solve [.operator op] = some ⟨op :: ops', vals', env⟩) := by
  have reduced' : simplify P (some op) m.stack.operators m.stack.operands =
      (ops', vals', .ready) := by
    cases accum
    exact reduced
  by_cases full : evalMaxOperators ≤ ops'.length
  · exact .inl ⟨full, addToken_full reduced' full⟩
  · refine .inr ⟨Nat.lt_of_not_le full, ?_⟩
    rw [Accum.run, accum, Accum.step_operator, reduced]
    simp only [if_neg full, if_neg other]
    rfl

theorem addTokens_first {m : Calculator σ} {t : Token} (ts : List Token)
    (full : (m.addToken P solve t).2.IsOverflow) :
    (m.addTokens P solve (t :: ts)).2.IsOverflow := by
  rw [addTokens]
  generalize m.addToken P solve t = added at full ⊢
  obtain ⟨m, status⟩ := added
  rcases full with e | e <;> cases e
  · exact .inl rfl
  · exact .inr rfl

theorem addTokens_front {m : Calculator σ} {ts : List Token} (us : List Token)
    (full : (m.addTokens P solve ts).2.IsOverflow) :
    (m.addTokens P solve (ts ++ us)).2.IsOverflow := by
  rw [addTokens_append]
  generalize m.addTokens P solve ts = added at full ⊢
  obtain ⟨m, status⟩ := added
  rcases full with e | e <;> cases e
  · exact .inl rfl
  · exact .inr rfl

theorem addTokens_behind {m : Calculator σ} {ts us : List Token} {a : Accum σ}
    (run : m.accum.run P solve ts = some a) :
    m.addTokens P solve (ts ++ us) = (m.put a).addTokens P solve us := by
  have read := m.addTokens_run (P := P) solve ts
  rw [run] at read
  rw [addTokens_append, read]

end Calculator

variable {P : Platform} {solve : Text → σ → σ × Option Int}

theorem Expr.addTokens_full {e : Expr} (wf : e.WellFormed) (single : Single e.tokens)
    {env env' : σ} {v : Int} (value : e.value P.machine solve env = some (v, env'))
    {m : Calculator σ} {ops : List Operator} {vals : List Int} (accum : m.accum = ⟨ops, vals, env⟩)
    (stops : Stops e.level ops) (inside : ops.length ≤ evalMaxOperators)
    (full : ¬(ops.length + e.operatorHeight ≤ evalMaxOperators ∧
      vals.length + e.operandHeight ≤ evalMaxOperands)) :
    (m.addTokens P solve e.tokens).2.IsOverflow := by
  induction e generalizing env env' v ops vals m with
  | operand w =>
    refine Calculator.addTokens_first [] (Calculator.addToken_crowded wf (r := (v, env')) ?_ ?_)
    · cases accum
      exact value
    · have : m.stack.operands = vals := congrArg Accum.operands accum
      rw [this]
      exact Nat.le_of_not_lt fun room => full ⟨inside, room⟩
  | paren e ih =>
    simp only [operatorHeight, operandHeight] at full
    have inner : Single e.tokens := (single.tail).left_of_append
    have opening : simplify P (some .oSeparator) ops vals = (ops, vals, .ready) :=
      simplify_stops .oSeparator vals (stops_separator ops)
    have stops' : Stops e.level (.oSeparator :: ops) := fun op hop => .inl (by cases hop; rfl)
    rw [tokens]
    rcases Calculator.addToken_push accum opening (by decide) with ⟨-, h⟩ | ⟨place, run⟩
    · exact Calculator.addTokens_first _ h
    rw [← List.singleton_append, Calculator.addTokens_behind run]
    by_cases fit : ops.length + 1 + e.operatorHeight ≤ evalMaxOperators ∧
        vals.length + e.operandHeight ≤ evalMaxOperands
    · obtain ⟨pend, held, run', settles, close, waiting⟩ := run_tokens (e := e) wf inner value
        (.oSeparator :: ops) vals stops' fit.1 fit.2
      rw [Calculator.addTokens_behind run']
      refine Calculator.addTokens_first [] (Calculator.addToken_full (simplify_stops .fSeparator _
        (stops_separator _)) ?_)
      change evalMaxOperators ≤ (pend ++ .oSeparator :: ops).length
      rw [List.length_append, List.length_cons]
      omega
    · exact Calculator.addTokens_front _ (ih wf inner value rfl stops'
        place fit)
  | not e ih =>
    simp only [operatorHeight, operandHeight] at full
    obtain ⟨wf, close⟩ := wf
    have below := level_single wf close single
    obtain ⟨⟨x, env₁⟩, hx, e'⟩ := Option.map_eq_some_iff.mp value
    rw [tokens]
    rcases Calculator.addToken_push accum (simplify_stops .not vals stops) (by decide) with
      ⟨-, h⟩ | ⟨place, run⟩
    · exact Calculator.addTokens_first _ h
    rw [← List.singleton_append, Calculator.addTokens_behind run]
    have behind : (m.put ⟨.not :: ops, vals, env⟩).accum = ⟨.not :: ops, vals, env⟩ := rfl
    refine ih wf single.tail hx behind (fun op hop => .inr (by cases hop; exact below)) place ?_
    rw [List.length_cons]
    omega
  | binary op a b iha ihb =>
    simp only [operatorHeight, operandHeight] at full
    obtain ⟨isBinary, wfa, wfb, left, right⟩ := wf
    obtain ⟨⟨x, env₁⟩, hx, value⟩ := Option.bind_eq_some_iff.mp value
    obtain ⟨⟨y, env₂⟩, hy, value⟩ := Option.bind_eq_some_iff.mp value
    have stopsa : Stops a.level ops := fun o ho =>
      (stops o ho).imp_right fun far => Nat.lt_of_le_of_lt left far
    rw [tokens]
    by_cases fit : ops.length + a.operatorHeight ≤ evalMaxOperators ∧
        vals.length + a.operandHeight ≤ evalMaxOperands
    case neg =>
      exact Calculator.addTokens_front _ (iha wfa single.left_of_append hx accum stopsa inside fit)
    obtain ⟨pend, held, run, settles, close, -⟩ := run_tokens wfa single.left_of_append hx ops vals
      stopsa fit.1 fit.2
    rw [← accum] at run
    rw [Calculator.addTokens_behind run]
    -- the operators of the first operand run before this one is pushed
    have reduced : simplify P (some op) (pend ++ ops) held = (ops, x :: vals, .ready) := by
      rw [simplify_settle (some op) ops settles fun o ho =>
        ⟨(close o ho).1, fun l hl => by cases hl; exact (close o ho).2.trans left⟩]
      exact simplify_stops op _ stops
    rcases Calculator.addToken_push (m := m.put ⟨pend ++ ops, held, env₁⟩) rfl reduced
      (binary_late isBinary).2.1 with ⟨-, h⟩ | ⟨place, run'⟩
    · exact Calculator.addTokens_first _ h
    rw [← List.singleton_append, Calculator.addTokens_behind run']
    have behind : ((m.put ⟨pend ++ ops, held, env₁⟩).put ⟨op :: ops, x :: vals, env₁⟩).accum =
        ⟨op :: ops, x :: vals, env₁⟩ := rfl
    refine ihb wfb (single.right_of_append).tail hy behind
      (fun o ho => .inr (by cases ho; exact right)) place ?_
    rw [List.length_cons, List.length_cons]
    omega

/-- Every sentence of the grammar is that of one tree; with a value that fits, as those of its
parts do, the calculator comes to it or one of its stacks is full. -/
theorem Phrase.settles (P : Platform) (solve : Text → σ → σ × Option Int) {ts : List Token}
    (sentence : Phrase .sentence ts) :
    ∃ e : Expr, (e.WellFormed ∧ e.tokens = ts ∧
        ∀ e' : Expr, e'.WellFormed → e'.tokens = ts → e' = e) ∧
      ∀ (m : Calculator σ) (v : Int) (env : σ), e.value P.integers solve m.env = some (v, env) →
        m.cleaned.ComesTo P solve ts v := by
  obtain ⟨e, wf, rfl, -⟩ := sentence.tree
  refine ⟨e, ⟨wf, rfl, fun e' wf' same => Expr.tokens_inj wf' wf same⟩, fun m v env value => ?_⟩
  have single := sentence.single.1
  have value := e.value_machine value
  by_cases fit : e.operatorHeight ≤ evalMaxOperators ∧ e.operandHeight ≤ evalMaxOperands
  · obtain ⟨pend, held, run, settles, close, -⟩ := e.run_tokens wf single value [] [] nofun
      (by simpa using fit.1) (by simpa using fit.2)
    have read := m.cleaned.addTokens_run (P := P) solve e.tokens
    have start : m.cleaned.accum = ⟨[], [], m.env⟩ := rfl
    rw [start, run] at read
    have last : evalAddOperator P (m.cleaned.put ⟨pend ++ [], held, env⟩).stack none =
        ({ m.cleaned.stack with operators := [], operands := [v] }, .ready) := by
      have runs := simplify_settle none [] settles fun o ho => ⟨(close o ho).1, nofun⟩
      simp only [evalAddOperator, Calculator.put, runs, simplify]
    refine .inr ?_
    rw [read]
    exact ⟨rfl, _, last, rfl, rfl⟩
  · have empty : m.cleaned.accum = ⟨[], [], m.env⟩ := rfl
    refine .inl (e.addTokens_full wf single value empty nofun (Nat.zero_le _) ?_)
    simpa using fit

theorem oneDigit_operand (c : Char) (digit : isDigit c.toUInt8) :
    Phrase .factor (oneDigit c).tokens := by
  refine .primary (.operand (.inl ⟨nofun, fun d hd => ?_⟩))
  cases List.mem_singleton.mp hd
  exact digit

def doubled : Expr :=
  .binary .time (oneDigit '2') (.paren (.binary .plus (oneDigit '1') (.not (oneDigit '0'))))

theorem Phrase.settles_doubled :
    freshCalculator.cleaned.ComesTo .plain oneReference doubled.tokens 4 := by
  have sentence : Phrase .sentence doubled.tokens :=
    .binary (.factor (oneDigit_operand '2' rfl)) rfl
      (.primary (.group (.binary (.factor (oneDigit_operand '1' rfl)) rfl
        (.not (.operand (.inl (by decide +kernel)))))))
  obtain ⟨e, ⟨-, -, only⟩, comes⟩ := Phrase.settles .plain oneReference sentence
  obtain rfl := only doubled (by decide +kernel) rfl
  exact comes freshCalculator 4 () (by decide +kernel)

def Expr.DividesByZero (P : Platform) (solve : Text → σ → σ × Option Int) : Expr → σ → Prop
  | .operand _, _ => False
  | .paren e, env => e.DividesByZero P solve env
  | .not e, env => e.DividesByZero P solve env
  | .binary op a b, env => a.DividesByZero P solve env ∨
    ∃ x env₁, a.value P.machine solve env = some (x, env₁) ∧
      (b.DividesByZero P solve env₁ ∨
        ∃ env₂, b.value P.machine solve env₁ = some (0, env₂) ∧ op = .divide)

theorem Expr.DividesByZero.value {e : Expr} {env : σ} (h : e.DividesByZero P solve env) :
    e.value P.machine solve env = none := by
  induction e generalizing env with
  | operand w => exact h.elim
  | paren e ih => exact ih h
  | not e ih => rw [Expr.value, ih h, Option.map_none]
  | binary op a b iha ihb =>
    rw [Expr.value]
    rcases h with left | ⟨x, env₁, hx, right | ⟨env₂, hy, rfl⟩⟩
    · rw [iha left, Option.bind_none]
    · simp only [hx, Option.bind_some, ihb right, Option.bind_none]
    · simp only [hx, hy, Option.bind_some]
      rfl

theorem Calculator.evaluateTokens_complete {m : Calculator σ} {ts : List Token}
    (window : m.stack.bufferIndex = 0) (complete : m.evaluateTokens P solve ts = .complete) :
    ∃ a v, m.accum.run P solve ts = some a ∧ a.conclude P = some v := by
  have read := m.addTokens_run (P := P) solve ts
  have going := m.addTokens_status (P := P) solve ts
  unfold evaluateTokens at complete
  cases run : m.accum.run P solve ts with
  | none =>
    rw [run] at read
    generalize m.addTokens P solve ts = added at read going complete
    obtain ⟨m', status⟩ := added
    cases status
    case ready => exact absurd rfl read
    case complete => exact absurd rfl going
    all_goals cases complete
  | some a =>
    rw [run] at read
    have empty : ¬(m.put a).operandIndex < (m.put a).stack.bufferIndex := by
      rw [put_bufferIndex, window]
      exact Nat.not_lt_zero _
    obtain ⟨-, answer⟩ := evaluateResult_none (P := P) (m := m.put a) empty
    simp only [read] at complete
    obtain ⟨v, value⟩ := Option.isSome_iff_exists.mp (answer.mp complete)
    exact ⟨a, v, rfl, value⟩

/-- A sentence in whose evaluation something is divided by zero is never completed, though a
closing parenthesis ignores what its operators answer. -/
theorem Phrase.not_complete (P : Platform) (solve : Text → σ → σ × Option Int) {ts : List Token}
    (sentence : Phrase .sentence ts) {e : Expr} (wf : e.WellFormed) (tree : e.tokens = ts)
    (m : Calculator σ) (zero : e.DividesByZero P solve m.env) :
    m.cleaned.evaluateTokens P solve ts ≠ .complete := by
  intro complete
  obtain ⟨a, v, run, value⟩ := Calculator.evaluateTokens_complete rfl complete
  have joined : Joined ts := tree ▸ e.joined wf
  have front := (Front.empty P solve m.env).run joined sentence.single.1
    (fun w hw => e.operand_tokens wf (tree ▸ hw)) (tree ▸ e.no_reference wf) run
  obtain ⟨e', wf', same, some'⟩ := front.conclude (tree ▸ e.closed wf) value
  rw [Expr.tokens_inj wf' wf (same.symm.trans tree.symm), zero.value] at some'
  cases some'

end

def swallowed : Expr :=
  .binary .plus (.paren (.binary .divide (oneDigit '1') (oneDigit '0'))) (oneDigit '2')

theorem Phrase.not_complete_swallowed :
    freshCalculator.cleaned.evaluateTokens .plain oneReference swallowed.tokens ≠ .complete :=
  Phrase.not_complete .plain oneReference
    (.binary (.factor (.primary (.group (.binary (.factor (oneDigit_operand '1' rfl)) rfl
      (oneDigit_operand '0' rfl))))) rfl (oneDigit_operand '2' rfl))
    (e := swallowed) (by decide +kernel) rfl freshCalculator
    (Or.inl (Or.inr ⟨1, (), by decide +kernel, .inr ⟨(), by decide +kernel, rfl⟩⟩))

end EmmaNode

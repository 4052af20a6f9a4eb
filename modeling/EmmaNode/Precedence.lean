import EmmaNode.Windows
import EmmaNode.Expressions
import Mathlib.Data.List.TakeWhile
import Mathlib.Data.List.Chain

/-! Expressions are evaluated with their operators' precedences. Behind the tokens of an
expression some of its operators still wait, the ones that bind closest on top; run one after
the other they leave its value on the operands that were there before. -/

namespace EmmaNode

section
variable {P : Platform} {σ : Type} {solve : Text → σ → σ × Option Int}

theorem digit_nonzero {c : UInt8} (h : isDigit c) : c ≠ 0 ∧ c ≠ '-'.toUInt8 := by
  constructor <;> rintro rfl <;> revert h <;> decide

theorem antoi_literal (P : Platform) {w : Text} (h : Literal w) :
    antoi P w = P.int (decimalValue w) := by
  have keep (x y : Int) : P.int (P.int x * 10 + y) = P.int (x * 10 + y) := by
    unfold Platform.int
    rw [← Int.bmod_add_bmod, Int.bmod_mul_bmod, Int.bmod_add_bmod]
  have digits (w : Text) (h : ∀ c ∈ w, isDigit c) (n : Nat) :
      w.foldl (fun (val : Int) (c : UInt8) =>
        if '0'.toUInt8 ≤ c ∧ c ≤ '9'.toUInt8 then P.int (val * 10 + (c.toNat - 48 : Nat)) else val)
        (P.int n) = P.int (w.foldl (fun n c => 10 * n + (c.toNat - 48)) n : Nat) := by
    induction w generalizing n with
    | nil => rfl
    | cons c w ih =>
      have digit : '0'.toUInt8 ≤ c ∧ c ≤ '9'.toUInt8 := by
        simpa [isDigit] using h c List.mem_cons_self
      rw [List.foldl_cons, List.foldl_cons, if_pos digit, keep,
        ← ih fun b hb => h b (List.mem_cons_of_mem _ hb)]
      congr 2
      push_cast
      omega
  obtain ⟨filled, all⟩ := h
  have positive : w.head? ≠ some '-'.toUInt8 := by
    intro head
    exact (digit_nonzero (all _ (List.mem_of_mem_head? head))).2 rfl
  have whole : cString w = w :=
    List.takeWhile_eq_self_iff.mpr fun c hc => by simpa using (digit_nonzero (all c hc)).1
  have zero : P.int (0 : Nat) = 0 := P.int_eq (by decide) (by decide)
  unfold antoi decimalValue
  simp only [if_neg positive, whole, Int.mul_one]
  have := digits w all 0
  rw [zero] at this
  rw [this]
  simp [Platform.int]

theorem Accum.step_operand (a : Accum σ) {w : Text} (h : Literal w ∨ Reference w) :
    a.step P solve (.operand w) =
      ((Expr.operand w).value P.machine solve a.env).bind fun (v, env) =>
        if a.operands.length < evalMaxOperands then some ⟨a.operators, v :: a.operands, env⟩
        else none := by
  unfold Accum.step Accum.addOperand Calculator.evalAddOperand Expr.value
  cases w with
  | nil => rcases h with ⟨filled, -⟩ | ⟨-, c, hc, -⟩ <;> simp at *
  | cons c rest =>
    rcases h with literal | ⟨nonzero, c', hc, digit, minus⟩
    · have digit := literal.2 c List.mem_cons_self
      have inside : ¬((c < '0'.toUInt8 ∨ '9'.toUInt8 < c) ∧ c ≠ '-'.toUInt8) := by
        simp only [isDigit, decide_eq_true_eq] at digit
        rintro ⟨out | out, -⟩
        · exact absurd digit.1 (UInt8.not_le.mpr out)
        · exact absurd digit.2 (UInt8.not_le.mpr out)
      simp only [if_neg (digit_nonzero digit).1, if_neg inside, if_pos literal,
        antoi_literal P literal, calculator]
      by_cases room : a.operands.length < evalMaxOperands <;> simp only [room, if_true, if_false] <;>
        rfl
    · obtain rfl : c = c' := by simpa using hc
      have other : (c < '0'.toUInt8 ∨ '9'.toUInt8 < c) ∧ c ≠ '-'.toUInt8 := by
        refine ⟨?_, minus⟩
        by_contra inside
        rw [not_or, UInt8.not_lt, UInt8.not_lt] at inside
        simp [isDigit, inside.1, inside.2] at digit
      have notLiteral : ¬Literal (c :: rest) := by
        rintro ⟨-, all⟩
        exact absurd (all c List.mem_cons_self) (by simp [digit])
      have nz : c ≠ 0 := fun e => nonzero (e ▸ List.mem_cons_self)
      simp only [if_neg nz, if_pos other, if_neg notLiteral, calculator]
      rcases solve (c :: rest) a.env with ⟨env, _ | v⟩
      · rfl
      · by_cases room : a.operands.length < evalMaxOperands <;>
          simp only [room, if_true, if_false] <;> rfl

theorem fSeparator_status (P : Platform) (operators : List Operator) (operands : List Int) :
    (fSeparator P operators operands).2.2 = .complete ∨
      (fSeparator P operators operands).2.2 = .parseError := by
  induction operators generalizing operands with
  | nil => exact .inr rfl
  | cons op rest ih =>
    cases op
    case oSeparator => exact .inl rfl
    all_goals exact ih _

theorem Accum.step_operator (a : Accum σ) (op : Operator) :
    a.step P solve (.operator op) =
      match simplify P (some op) a.operators a.operands with
      | (operators, operands, .ready) =>
        if evalMaxOperators ≤ operators.length then none
        else if op = .fSeparator then
          match fSeparator P operators operands with
          | (operators, operands, .complete) => some ⟨operators, operands, a.env⟩
          | _ => none
        else some ⟨op :: operators, operands, a.env⟩
      | _ => none := by
  unfold Accum.step Accum.addOperator evalAddOperator
  simp only [calculator]
  generalize simplify P (some op) a.operators a.operands = reduced
  obtain ⟨operators, operands, status⟩ := reduced
  cases status
  case ready =>
    simp only
    by_cases full : evalMaxOperators ≤ operators.length
    · simp only [if_pos full]
    · simp only [if_neg full]
      cases op
      case fSeparator =>
        simp only [if_true]
        have answer := fSeparator_status P operators operands
        generalize fSeparator P operators operands = closed at answer ⊢
        obtain ⟨operators, operands, status⟩ := closed
        rcases answer with rfl | rfl <;> rfl
      all_goals rfl
  all_goals rfl

def settle (P : Platform) : List Operator → List Int → Option (List Int)
  | [], operands => some operands
  | op :: rest, operands =>
    match operate P op operands with
    | (operands, .complete) => settle P rest operands
    | _ => none

def Stops (level : Nat) (operators : List Operator) : Prop :=
  ∀ op ∈ operators.head?, op.isEarly ∨ level < op.precedence

theorem settle_append {ops ops' : List Operator} {operands between' : List Int}
    (h : settle P ops operands = some between') :
    settle P (ops ++ ops') operands = settle P ops' between' := by
  induction ops generalizing operands with
  | nil =>
    cases h
    rfl
  | cons op ops ih =>
    rw [List.cons_append]
    rw [settle] at h ⊢
    generalize operate P op operands = result at h ⊢
    obtain ⟨operands, status⟩ := result
    cases status <;> first | exact ih h | cases h

theorem simplify_settle (limit : Option Operator) {pend : List Operator} (ops : List Operator)
    {operands out : List Int} (h : settle P pend operands = some out)
    (run : ∀ op ∈ pend, op.isEarly = false ∧ ∀ l ∈ limit, op.precedence ≤ l.precedence) :
    simplify P limit (pend ++ ops) operands = simplify P limit ops out := by
  induction pend generalizing operands with
  | nil =>
    cases h
    rfl
  | cons op pend ih =>
    obtain ⟨late, close⟩ := run op List.mem_cons_self
    have runs : (limit.all fun l => op.precedence ≤ l.precedence) ∧ !op.isEarly := by
      refine ⟨?_, by simp [late]⟩
      cases limit with
      | none => rfl
      | some l => simpa using close l rfl
    rw [settle] at h
    rw [List.cons_append, simplify, if_pos runs]
    generalize operate P op operands = result at h ⊢
    obtain ⟨operands, status⟩ := result
    cases status <;> first
      | exact ih h fun op hop => run op (List.mem_cons_of_mem _ hop)
      | cases h

theorem simplify_stops (op : Operator) {ops : List Operator} (operands : List Int)
    (h : Stops op.precedence ops) : simplify P (some op) ops operands = (ops, operands, .ready) := by
  cases ops with
  | nil => rfl
  | cons o ops =>
    rw [simplify, if_neg]
    rintro ⟨close, late⟩
    rcases h o rfl with early | far
    · simp [early] at late
    · simp only [Option.all_some, decide_eq_true_eq] at close
      omega

theorem fSeparator_settle {pend ops : List Operator} {operands out : List Int}
    (h : settle P pend operands = some out) (inside : ∀ op ∈ pend, op.isEarly = false) :
    fSeparator P (pend ++ .oSeparator :: ops) operands = (ops, out, .complete) := by
  induction pend generalizing operands with
  | nil =>
    cases h
    rfl
  | cons op pend ih =>
    have other : op ≠ .oSeparator := by
      rintro rfl
      cases inside _ List.mem_cons_self
    rw [settle] at h
    rw [List.cons_append, fSeparator]
    · generalize operate P op operands = result at h ⊢
      obtain ⟨operands, status⟩ := result
      cases status <;> first
        | exact ih h fun op hop => inside op (List.mem_cons_of_mem _ hop)
        | cases h
    · exact other

theorem operate_binary {op : Operator} (h : op.isBinary) (x y : Int) (rest : List Int) :
    operate P op (y :: x :: rest) =
      match op.apply P.machine x y with
      | some v => (P.int v :: rest, .complete)
      | none => (rest, .divByZero) := by
  cases op
  case divide =>
    simp only [operate, Operator.apply]
    split
    · rename_i e
      cases e
      rfl
    · rename_i other
      rw [if_neg fun zero => other x rest (by rw [zero])]
      rfl
  case modulo =>
    simp only [operate, Operator.apply, binary]
    split_ifs <;> rfl
  case not => cases h
  case reference => cases h
  case fSeparator => cases h
  case oSeparator => cases h
  all_goals rfl

namespace Expr

def pending : Expr → Nat
  | .operand _ => 0
  | .paren _ => 0
  | .not e => e.pending + 1
  | .binary _ _ b => b.pending + 1

/-- The places an expression takes on the stack of operators; one of them is that of a closing
parenthesis. -/
def operatorHeight : Expr → Nat
  | .operand _ => 0
  | .paren e => max (1 + e.operatorHeight) (1 + e.pending + 1)
  | .not e => 1 + e.operatorHeight
  | .binary _ a b => max a.operatorHeight (1 + b.operatorHeight)

def operandHeight : Expr → Nat
  | .operand _ => 1
  | .paren e => e.operandHeight
  | .not e => e.operandHeight
  | .binary _ a b => max a.operandHeight (1 + b.operandHeight)

end Expr

/-- No `!` directly behind another one -/
def Single (ts : List Token) : Prop :=
  ts.IsChain fun s t => ¬(s = .operator .not ∧ t = .operator .not)

instance (ts : List Token) : Decidable (Single ts) := by unfold Single; infer_instance

theorem late_precedence {op : Operator} (h : op.isEarly = false) : 1 < op.precedence := by
  cases op <;> first | decide | cases h

theorem stops_separator (ops : List Operator) : Stops 1 ops := by
  intro op _
  cases h : op.isEarly with
  | true => exact .inl rfl
  | false => exact .inr (late_precedence h)

theorem binary_late {op : Operator} (h : op.isBinary) : op.isEarly = false ∧ op ≠ .fSeparator ∧
    op ≠ .oSeparator := by
  cases op <;> first | decide | cases h

theorem Expr.level_single {e : Expr} (wf : e.WellFormed) (close : e.level ≤ Operator.not.precedence)
    (single : Single (.operator .not :: e.tokens)) : e.level < Operator.not.precedence := by
  cases e with
  | operand w => exact Nat.succ_pos 2
  | paren e => exact Nat.succ_pos 2
  | not e =>
    rw [Expr.tokens, Single, List.isChain_cons_cons] at single
    exact absurd ⟨rfl, rfl⟩ single.1
  | binary op a b =>
    have binary := wf.1
    simp only [Operator.isBinary, decide_eq_true_eq] at binary
    simp only [Expr.level] at close
    omega

theorem Accum.step_push {ops ops' : List Operator} {vals vals' : List Int} {env : σ} {op : Operator}
    (reduced : simplify P (some op) ops vals = (ops', vals', .ready))
    (room : ops'.length < evalMaxOperators) (open' : op ≠ .fSeparator) :
    Accum.step P solve ⟨ops, vals, env⟩ (.operator op) = some ⟨op :: ops', vals', env⟩ := by
  rw [Accum.step_operator, reduced]
  simp only
  rw [if_neg (Nat.not_le_of_lt room), if_neg open']

theorem pending_behind {pend : List Operator} {o : Operator} {level : Nat}
    (close : ∀ op ∈ pend, op.isEarly = false ∧ op.precedence ≤ level) (late : o.isEarly = false)
    (less : level < o.precedence) :
    ∀ op ∈ pend ++ [o], op.isEarly = false ∧ op.precedence ≤ o.precedence := by
  intro op hop
  rcases List.mem_append.mp hop with before | last
  · exact ⟨(close op before).1, Nat.le_trans (close op before).2 (Nat.le_of_lt less)⟩
  · rw [List.mem_singleton.mp last]
    exact ⟨late, Nat.le_refl _⟩

theorem Expr.run_tokens {e : Expr} (wf : e.WellFormed) (single : Single e.tokens) {env env' : σ}
    {v : Int} (value : e.value P.machine solve env = some (v, env')) (ops : List Operator)
    (vals : List Int) (stops : Stops e.level ops)
    (operatorsFit : ops.length + e.operatorHeight ≤ evalMaxOperators)
    (operandsFit : vals.length + e.operandHeight ≤ evalMaxOperands) :
    ∃ pend held, Accum.run P solve e.tokens ⟨ops, vals, env⟩ = some ⟨pend ++ ops, held, env'⟩ ∧
      settle P pend held = some (v :: vals) ∧
      (∀ op ∈ pend, op.isEarly = false ∧ op.precedence ≤ e.level) ∧ pend.length = e.pending := by
  induction e generalizing env env' v ops vals with
  | operand w =>
    have room : vals.length < evalMaxOperands := operandsFit
    refine ⟨[], v :: vals, ?_, rfl, by simp, rfl⟩
    rw [tokens, Accum.run, Accum.step_operand _ wf, value]
    simp only [Option.bind_some, if_pos room]
    rfl
  | paren e ih =>
    simp only [operatorHeight] at operatorsFit
    have inner : Single e.tokens := (single.tail).left_of_append
    have room : ops.length < evalMaxOperators := by omega
    have opened := @Accum.step_push P σ solve _ _ _ _ env _
      (simplify_stops .oSeparator vals (stops_separator ops)) room (by decide)
    obtain ⟨pend, held, run, settles, close, waiting⟩ := ih wf inner value
      (.oSeparator :: ops) vals (fun op hop => .inl (by cases hop; rfl))
      (by rw [List.length_cons]; omega) operandsFit
    refine ⟨[], v :: vals, ?_, rfl, by simp, rfl⟩
    have closes : Accum.step P solve ⟨pend ++ .oSeparator :: ops, held, env'⟩
        (.operator .fSeparator) = some ⟨ops, v :: vals, env'⟩ := by
      rw [Accum.step_operator, simplify_stops .fSeparator held (stops_separator _)]
      simp only [if_true, fSeparator_settle settles fun op hop => (close op hop).1]
      rw [if_neg (by simp only [evalMaxOperators, List.length_append, List.length_cons] at *; omega)]
    rw [tokens, Accum.run, opened, Option.bind_some, Accum.run_append, run, Option.bind_some,
      Accum.run, closes]
    rfl
  | not e ih =>
    simp only [operatorHeight] at operatorsFit
    obtain ⟨wf, close⟩ := wf
    have below := level_single wf close single
    have room : ops.length < evalMaxOperators := by omega
    have pushed := @Accum.step_push P σ solve _ _ _ _ env _ (simplify_stops .not vals stops)
      room (by decide)
    obtain ⟨⟨x, env₁⟩, hx, e'⟩ := Option.map_eq_some_iff.mp value
    cases e'
    obtain ⟨pend, held, run, settles, close, waiting⟩ := ih wf single.tail hx
      (.not :: ops) vals (fun op hop => .inr (by cases hop; exact below))
      (by rw [List.length_cons]; omega) operandsFit
    refine ⟨pend ++ [.not], held, ?_, ?_, ?_, ?_⟩
    · rw [tokens, Accum.run, pushed, Option.bind_some, run, List.append_assoc]
      rfl
    · rw [settle_append settles]
      rfl
    · exact pending_behind close rfl below
    · rw [List.length_append, waiting]
      rfl
  | binary op a b iha ihb =>
    simp only [operatorHeight, operandHeight] at operatorsFit operandsFit
    obtain ⟨isBinary, wfa, wfb, left, right⟩ := wf
    obtain ⟨late, -, -⟩ := binary_late isBinary
    obtain ⟨⟨x, env₁⟩, hx, value⟩ := Option.bind_eq_some_iff.mp value
    obtain ⟨⟨y, env₂⟩, hy, value⟩ := Option.bind_eq_some_iff.mp value
    obtain ⟨z, hz, e'⟩ := Option.map_eq_some_iff.mp value
    obtain ⟨w, hw, hk⟩ := Option.bind_eq_some_iff.mp hz
    cases e'
    cases hk
    -- the first operand, with its operators still waiting
    obtain ⟨pend, held, run, settles, close, -⟩ := iha wfa single.left_of_append hx ops vals
      (fun o ho => (stops o ho).imp_right fun far => Nat.lt_of_le_of_lt left far)
      (by omega) (by omega)
    have runs := simplify_settle (some op) ops settles fun o ho =>
      ⟨(close o ho).1, fun l hl => by cases hl; exact (close o ho).2.trans left⟩
    have room : ops.length < evalMaxOperators := by omega
    have pushed := @Accum.step_push P σ solve _ _ _ _ env₁ _
      (runs.trans (simplify_stops op _ stops)) room (binary_late isBinary).2.1
    obtain ⟨pend', held', run', settles', close', waiting⟩ := ihb wfb
      (single.right_of_append).tail hy (op :: ops) (x :: vals)
      (fun o ho => .inr (by cases ho; exact right))
      (by rw [List.length_cons]; omega) (by rw [List.length_cons]; omega)
    refine ⟨pend' ++ [op], held', ?_, ?_, ?_, ?_⟩
    · rw [tokens, Accum.run_append, run, Option.bind_some, Accum.run, pushed, Option.bind_some,
        run', List.append_assoc]
      rfl
    · rw [settle_append settles', settle, operate_binary isBinary, hw]
      rfl
    · exact pending_behind close' late right
    · rw [List.length_append, waiting]
      rfl

theorem Expr.outcome_tokens {e : Expr} (wf : e.WellFormed) (single : Single e.tokens)
    {env env' : σ} {v : Int} (value : e.value P.machine solve env = some (v, env'))
    (operatorsFit : e.operatorHeight ≤ evalMaxOperators)
    (operandsFit : e.operandHeight ≤ evalMaxOperands) :
    ((Accum.empty env).run P solve e.tokens).bind (fun a => a.conclude P) = some v := by
  obtain ⟨pend, held, run, settles, close, -⟩ := run_tokens wf single value [] []
    (fun op hop => by cases hop)
    (by simpa using operatorsFit) (by simpa using operandsFit)
  have runs := simplify_settle none [] settles fun o ho =>
    ⟨(close o ho).1, fun l hl => by cases hl⟩
  rw [Accum.empty, run, Option.bind_some]
  unfold Accum.conclude Accum.addOperator evalAddOperator
  simp only [Accum.calculator, runs, simplify]

theorem Expr.operand_tokens {e : Expr} (wf : e.WellFormed) {w : Text}
    (h : .operand w ∈ e.tokens) : Literal w ∨ Reference w := by
  induction e with
  | operand w' =>
    obtain rfl : w = w' := by simpa [tokens] using h
    exact wf
  | paren e ih => exact ih wf (by simpa [tokens] using h)
  | not e ih => exact ih wf.1 (by simpa [tokens] using h)
  | binary op a b iha ihb =>
    simp only [tokens, List.mem_append, List.mem_cons, reduceCtorEq, false_or] at h
    rcases h with h | h
    · exact iha wf.2.1 h
    · exact ihb wf.2.2.1 h

def withoutBlanks (t : Text) : Text := t.filter (· ≠ ' '.toUInt8)

theorem cleaned_expression {t : Text} {e : Expr} (wf : e.WellFormed)
    (reads : EmmaNode.tokens (withoutBlanks t) = e.tokens) : cleaned t = withoutBlanks t := by
  have nonzero : ∀ c ∈ withoutBlanks t, c ≠ 0 := by
    intro c hc
    rw [← tokens_text (withoutBlanks t), reads] at hc
    obtain ⟨tok, inside, hc⟩ := List.mem_flatMap.mp hc
    rintro rfl
    cases tok with
    | operand w =>
      rcases e.operand_tokens wf inside with literal | reference
      · exact (digit_nonzero (literal.2 0 hc)).1 rfl
      · exact reference.1 hc
    | operator op => exact absurd (op.symbol_large 0 hc) (by decide)
  unfold cleaned
  change (withoutBlanks t).map _ = _
  exact (List.map_congr_left fun c hc => if_neg (nonzero c hc)).trans (List.map_id _)

/-- A calculator in front of a text -/
structure Calculator.Fresh (m : Calculator σ) : Prop where
  operandIndex : m.operandIndex = 0
  bufferIndex : m.stack.bufferIndex = 0
  operators : m.stack.operators = []
  operands : m.stack.operands = []

theorem Calculator.Fresh.accum {m : Calculator σ} (h : m.Fresh) : m.accum = Accum.empty m.env := by
  rw [Calculator.accum, h.operators, h.operands, Accum.empty]

theorem Expr.evaluateText_blocks {m : Calculator σ} (fresh : m.Fresh) {blocks : List Text} {e : Expr}
    (wf : e.WellFormed) (reads : EmmaNode.tokens (withoutBlanks blocks.flatten) = e.tokens) {v : Int}
    {env' : σ} (value : e.value P.integers solve m.env = some (v, env'))
    (operatorsFit : e.operatorHeight ≤ evalMaxOperators)
    (operandsFit : e.operandHeight ≤ evalMaxOperands) (legible : Legible blocks)
    (single : Single e.tokens) : m.evaluateText P solve blocks = (.complete, some v) := by
  have read := cleaned_expression wf reads
  have answers := @Calculator.evaluateText_outcome P σ solve m fresh.operandIndex fresh.bufferIndex
    blocks (Accum.intact_legible _ legible)
  have outcome : m.accum.outcome P solve (cleaned blocks.flatten) = some v := by
    rw [Accum.outcome_tokens _ _ fun c hc => cleaned_nonzero hc, read, reads, fresh.accum]
    exact e.outcome_tokens wf single (e.value_machine value) operatorsFit operandsFit
  rw [outcome] at answers
  obtain ⟨result, complete⟩ := answers
  exact Prod.ext (complete.mpr rfl) result

/-- An expression in a legible text, without a doubled `!`, has its value. -/
theorem Expr.evaluateText {m : Calculator σ} (fresh : m.Fresh) {t : Text} {e : Expr}
    (wf : e.WellFormed) (reads : EmmaNode.tokens (withoutBlanks t) = e.tokens) {v : Int} {env' : σ}
    (value : e.value P.integers solve m.env = some (v, env'))
    (operatorsFit : e.operatorHeight ≤ evalMaxOperators)
    (operandsFit : e.operandHeight ≤ evalMaxOperands) (legible : Legible [t])
    (single : Single e.tokens) : m.evaluateText P solve [t] = (.complete, some v) :=
  evaluateText_blocks fresh wf (by simpa using reads) value operatorsFit operandsFit legible single

end

def oneReference (w : Text) (env : Unit) : Unit × Option Int :=
  (env, if w = chars ['L', '#', 'x'] then some 7 else none)

def freshCalculator : Calculator Unit := ⟨Stack.init, 0, ()⟩

def seven : Expr := .operand (chars ['L', '#', 'x'])

def oneDigit (c : Char) : Expr := .operand (chars [c])

def product : Expr :=
  .binary .time seven (.paren (.binary .plus (oneDigit '1') (.not (oneDigit '0'))))

theorem Expr.evaluateText_product :
    freshCalculator.evaluateText .plain oneReference
      [chars ['L', '#', 'x', ' ', '*', ' ', '(', '1', ' ', '+', ' ', '!', '0', ')']] =
        (.complete, some 14) := by
  have value : product.value Platform.plain.integers oneReference () = some (14, ()) := by
    decide +kernel
  exact Expr.evaluateText ⟨rfl, rfl, rfl, rfl⟩ (by decide +kernel) (by decide +kernel) value
    (by decide) (by decide) ⟨([], 10), by decide +kernel, by decide⟩ (by decide +kernel)

/-- The value of `1+234` is that of `1+434`. -/
theorem Expr.evaluateText_moved : ¬ ∀ (P : Platform) (σ : Type) (solve : Text → σ → σ × Option Int)
    (m : Calculator σ) (t : Text) (e : Expr) (v : Int) (env' : σ), m.Fresh → e.WellFormed →
    EmmaNode.tokens (withoutBlanks t) = e.tokens →
    (∀ w, .operand w ∈ e.tokens → w.length < evalBufferSize) →
    e.value P.integers solve m.env = some (v, env') → e.operatorHeight ≤ evalMaxOperators →
    e.operandHeight ≤ evalMaxOperands → m.evaluateText P solve [t] = (.complete, some v) := by
  intro h
  have same := h .plain Unit oneReference freshCalculator (chars ['1', '+', '2', '3', '4'])
    (.binary .plus (oneDigit '1') (.operand (chars ['2', '3', '4']))) 235 () ⟨rfl, rfl, rfl, rfl⟩
    (by decide +kernel) (by decide +kernel)
    (fun w hw => by
      simp only [Expr.tokens, oneDigit, List.cons_append, List.nil_append, List.mem_cons,
        Token.operand.injEq, reduceCtorEq, false_or, List.not_mem_nil, or_false] at hw
      rcases hw with rfl | rfl <;> decide)
    (by decide +kernel) (by decide) (by decide)
  revert same
  decide +kernel

end EmmaNode

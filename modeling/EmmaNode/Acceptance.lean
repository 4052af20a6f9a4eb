import EmmaNode.Precedence

/-! What the evaluator accepts. As long as every operator finds its operands, what has been read
is the front of an expression: an operator that waits has its left operand on the stack. A text
that breaks off from that leaves fewer operands than operators wait for, and never catches up,
unless an operand follows where no operator is between. -/

namespace EmmaNode

section
variable {P : Platform} {σ : Type} {solve : Text → σ → σ × Option Int}

/-! ### The front of an expression -/

/-- What has been read where an operand is expected: open groups and negations, and operators
with the expressions on their left -/
inductive Context (P : Platform) (solve : Text → σ → σ × Option Int) (start : σ) :
    List Operator → List Int → List Token → σ → Prop
  | start : Context P solve start [] [] [] start
  | group {ops vals ts env} : Context P solve start ops vals ts env →
      Context P solve start (.oSeparator :: ops) vals (ts ++ [.operator .oSeparator]) env
  | not {ops vals ts env} : Context P solve start ops vals ts env →
      Stops Operator.not.precedence ops →
      Context P solve start (.not :: ops) vals (ts ++ [.operator .not]) env
  | left {ops vals ts env env'} {op : Operator} {e : Expr} {v : Int} :
      Context P solve start ops vals ts env → op.isBinary →
      e.WellFormed → e.level ≤ op.precedence → e.value P.machine solve env = some (v, env') →
      Stops op.precedence ops →
      Context P solve start (op :: ops) (v :: vals) (ts ++ (e.tokens ++ [.operator op])) env'

/-- What has been read behind an operand: a context, and an expression in it whose operator, if
any, binds closer than what waits -/
structure Behind (P : Platform) (solve : Text → σ → σ × Option Int) (start : σ)
    (ops : List Operator) (operands : List Int) (ts : List Token) (env : σ) (e : Expr) : Prop where
  wf : e.WellFormed
  stops : Stops e.level ops
  front : ∃ vals before' env' v, Context P solve start ops vals before' env' ∧
    e.value P.machine solve env' = some (v, env) ∧ operands = v :: vals ∧ ts = before' ++ e.tokens

def binaries (ops : List Operator) : Nat := ops.countP Operator.isBinary

theorem binaries_cons (op : Operator) (ops : List Operator) :
    binaries (op :: ops) = binaries ops + if op.isBinary then 1 else 0 := by
  rw [binaries, List.countP_cons]
  rfl

theorem Context.length {start env : σ} {ops : List Operator} {vals : List Int} {ts : List Token}
    (h : Context P solve start ops vals ts env) : vals.length = binaries ops := by
  induction h with
  | start => rfl
  | group _ ih => exact ih
  | not _ _ ih => exact ih
  | left _ binary _ _ _ _ ih => rw [List.length_cons, ih, binaries_cons, if_pos binary]

theorem Context.last {start env : σ} {ops : List Operator} {vals : List Int} {ts : List Token}
    (h : Context P solve start ops vals ts env) : ∀ op ∈ ops.head?,
      (op.isBinary ∨ op = .oSeparator ∨ op = .not) ∧ ts.getLast? = some (.operator op) := by
  cases h with
  | start => simp
  | group _ => simp
  | not _ _ => simp
  | left _ binary _ _ _ _ => simp [binary, ← List.append_assoc]

theorem stops_zero (ops : List Operator) : Stops 0 ops := fun op hop =>
  (stops_separator ops op hop).imp_right Nat.lt_of_succ_lt

/-! ### Operators that run -/

theorem operate_complete {op : Operator} {operands operands' : List Int}
    (h : operate P op operands = (operands', .complete)) (late : op.isEarly = false) :
    operands.length = operands'.length + if op.isBinary then 1 else 0 := by
  have two (f : Int → Int → Int) (h : binary P f operands = (operands', .complete)) :
      operands.length = operands'.length + 1 := by
    rcases operands with _ | ⟨x, _ | ⟨y, rest⟩⟩
    · cases h
    · cases h
    · cases h
      rfl
  cases op
  case divide =>
    simp only [operate] at h
    split at h
    · cases h
    · exact two _ h
  case not =>
    cases operands with
    | nil => cases h
    | cons x rest =>
      cases h
      rfl
  case reference => cases h
  case fSeparator => cases late
  case oSeparator => cases late
  all_goals exact two _ h

theorem operate_ready (P : Platform) (op : Operator) (operands : List Int) :
    (operate P op operands).2 ≠ .ready := by
  have two (f : Int → Int → Int) : (binary P f operands).2 ≠ .ready := by
    rcases operands with _ | ⟨x, _ | ⟨y, rest⟩⟩ <;> simp [binary]
  cases op
  case divide =>
    simp only [operate]
    split
    · simp
    · exact two _
  case not => cases operands <;> simp [operate]
  case reference => simp [operate]
  case fSeparator => simp [operate]
  case oSeparator => simp [operate]
  all_goals exact two _

theorem operate_length (P : Platform) (op : Operator) (operands : List Int) :
    (operate P op operands).1.length ≤ operands.length - if op.isBinary then 1 else 0 := by
  have two (f : Int → Int → Int) : (binary P f operands).1.length ≤ operands.length - 1 := by
    rcases operands with _ | ⟨x, _ | ⟨y, rest⟩⟩ <;> simp [binary]
  cases op
  case divide =>
    simp only [operate]
    split
    · simp [Operator.isBinary, Operator.precedence]
    · exact two _
  case not => cases operands <;> simp [operate, Operator.isBinary]
  case reference => simp [operate, Operator.isBinary, Operator.precedence]
  case fSeparator => simp [operate, Operator.isBinary, Operator.precedence]
  case oSeparator => simp [operate, Operator.isBinary, Operator.precedence]
  all_goals exact two _

theorem simplify_suffix (P : Platform) (limit : Option Operator) (ops : List Operator)
    (operands : List Int) : (simplify P limit ops operands).1 <:+ ops := by
  induction ops generalizing operands with
  | nil => exact List.suffix_refl _
  | cons op ops ih =>
    rw [simplify]
    split
    · generalize operate P op operands = result
      obtain ⟨operands, status⟩ := result
      cases status
      case complete => exact (ih operands).trans (List.suffix_cons op ops)
      all_goals exact List.suffix_cons op ops
    · exact List.suffix_refl _

theorem fSeparator_suffix (P : Platform) (ops : List Operator) (operands : List Int) :
    (fSeparator P ops operands).1 <:+ ops := by
  induction ops generalizing operands with
  | nil => exact List.suffix_refl _
  | cons op ops ih =>
    by_cases group : op = .oSeparator
    · subst group
      exact List.suffix_cons _ ops
    · rw [fSeparator]
      · exact (ih _).trans (List.suffix_cons op ops)
      · exact group

theorem simplify_all {ops ops' : List Operator} {operands operands' : List Int}
    (h : simplify P none ops operands = (ops', operands', .ready)) :
    ∀ op ∈ ops'.head?, op.isEarly := by
  induction ops generalizing operands with
  | nil =>
    cases h
    simp
  | cons op ops ih =>
    rw [simplify] at h
    split at h
    · have going := operate_ready P op operands
      generalize operate P op operands = result at h going
      obtain ⟨operands, status⟩ := result
      cases status
      case complete => exact ih h
      case ready => exact absurd rfl going
      all_goals cases h
    · rename_i other
      cases h
      intro o ho
      cases ho
      by_contra late
      exact other ⟨rfl, by simpa using late⟩

theorem simplify_balance {limit : Option Operator} {ops ops' : List Operator}
    {operands operands' : List Int}
    (h : simplify P limit ops operands = (ops', operands', .ready)) :
    binaries ops + operands'.length = binaries ops' + operands.length ∧
      ops.count .oSeparator = ops'.count .oSeparator := by
  induction ops generalizing operands with
  | nil =>
    cases h
    exact ⟨rfl, rfl⟩
  | cons op ops ih =>
    rw [simplify] at h
    split at h
    · rename_i runs
      have late : op.isEarly = false := by simpa using runs.2
      have other : op ≠ .oSeparator := by
        rintro rfl
        cases late
      have going := operate_ready P op operands
      cases result : operate P op operands with
      | mk between' status =>
      rw [result] at h going
      cases status
      case complete =>
        obtain ⟨balance, groups⟩ := ih h
        have took := operate_complete result late
        rw [binaries_cons, List.count_cons_of_ne other]
        exact ⟨by omega, groups⟩
      case ready => exact absurd rfl going
      all_goals cases h
    · cases h
      exact ⟨rfl, rfl⟩

theorem fSeparator_balance {ops ops' : List Operator} {operands operands' : List Int}
    (h : fSeparator P ops operands = (ops', operands', .complete)) :
    (operands.length ≤ binaries ops → operands'.length ≤ binaries ops') ∧
      ops.count .oSeparator = ops'.count .oSeparator + 1 := by
  induction ops generalizing operands with
  | nil => cases h
  | cons op ops ih =>
    by_cases group : op = .oSeparator
    · subst group
      cases h
      exact ⟨id, by rw [List.count_cons_self]⟩
    · rw [fSeparator] at h
      · obtain ⟨balance, groups⟩ := ih h
        rw [List.count_cons_of_ne group]
        refine ⟨fun few => balance ?_, groups⟩
        have took := operate_length P op operands
        rw [binaries_cons] at few
        omega
      · exact group

/-! ### Steps -/

theorem Behind.simplify {limit : Option Operator} {start env : σ} {ops ops' : List Operator}
    {operands operands' : List Int} {ts : List Token} {e : Expr}
    (h : Behind P solve start ops operands ts env e)
    (low : ∀ l ∈ limit, e.level ≤ l.precedence)
    (ready : EmmaNode.simplify P limit ops operands = (ops', operands', .ready)) :
    ∃ e', Behind P solve start ops' operands' ts env e' ∧
      (∀ l ∈ limit, e'.level ≤ l.precedence ∧ Stops l.precedence ops') ∧
      (limit = none → ∀ op ∈ ops'.head?, op.isEarly) := by
  obtain ⟨wf, stops, vals, before', env₁, v, context, value, rfl, rfl⟩ := h
  -- an operator that is not run stays, with the expression behind it
  have stay {op : Operator} {ops : List Operator} {e : Expr} {operands : List Int}
      {ts : List Token} (h : Behind P solve start (op :: ops) operands ts env e)
      (low : ∀ l ∈ limit, e.level ≤ l.precedence)
      (other : ¬((limit.all fun l => op.precedence ≤ l.precedence) ∧ !op.isEarly)) :
      ∃ e', Behind P solve start (op :: ops) operands ts env e' ∧
        (∀ l ∈ limit, e'.level ≤ l.precedence ∧ Stops l.precedence (op :: ops)) ∧
        (limit = none → ∀ o ∈ (op :: ops).head?, o.isEarly) := by
    refine ⟨e, h, fun l hl => ⟨low l hl, fun o ho => ?_⟩, fun none' o ho => ?_⟩
    · cases ho
      cases hl
      by_contra both
      rw [not_or, Nat.not_lt] at both
      exact other ⟨by simpa using both.2, by simpa using both.1⟩
    · cases ho
      subst none'
      by_contra late
      exact other ⟨rfl, by simpa using late⟩
  induction context generalizing e v with
  | start =>
    cases ready
    exact ⟨e, ⟨wf, stops, _, _, _, v, .start, value, rfl, rfl⟩,
      fun l hl => ⟨low l hl, fun op hop => by cases hop⟩, fun _ op hop => by cases hop⟩
  | group inner ih =>
    have other : ¬((limit.all fun l => Operator.oSeparator.precedence ≤ l.precedence) ∧
        !Operator.oSeparator.isEarly) := fun both => absurd both.2 (by decide)
    rw [EmmaNode.simplify, if_neg other] at ready
    cases ready
    exact stay ⟨wf, stops, _, _, _, v, .group inner, value, rfl, rfl⟩ low other
  | @not ops vals ts env₁ inner far ih =>
    by_cases runs : (limit.all fun l => Operator.not.precedence ≤ l.precedence) ∧
        !Operator.not.isEarly
    case neg =>
      rw [EmmaNode.simplify, if_neg runs] at ready
      cases ready
      exact stay ⟨wf, stops, _, _, _, v, .not inner far, value, rfl, rfl⟩ low runs
    rw [EmmaNode.simplify, if_pos runs] at ready
    have close : e.level < Operator.not.precedence := by
      rcases stops .not rfl with early | close
      · cases early
      · exact close
    have low' : ∀ l ∈ limit, (Expr.not e).level ≤ l.precedence := by
      rintro l rfl
      simpa [Expr.level] using runs.1
    have result := ih low' ⟨wf, Nat.le_of_lt close⟩ far (truth (v = 0))
      (by rw [Expr.value, value]; rfl) ready
    simpa [Expr.tokens] using result
  | @left ops vals ts env₁ env₂ op a x inner binary wfa tight hx far ih =>
    by_cases runs : (limit.all fun l => op.precedence ≤ l.precedence) ∧ !op.isEarly
    case neg =>
      rw [EmmaNode.simplify, if_neg runs] at ready
      cases ready
      exact stay ⟨wf, stops, _, _, _, v, .left inner binary wfa tight hx far, value, rfl, rfl⟩
        low runs
    rw [EmmaNode.simplify, if_pos runs, operate_binary binary] at ready
    have close : e.level < op.precedence := by
      rcases stops op rfl with early | close
      · rw [(binary_late binary).1] at early
        cases early
      · exact close
    cases applied : op.apply P.machine x v with
    | none =>
      rw [applied] at ready
      cases ready
    | some z =>
      rw [applied] at ready
      have low' : ∀ l ∈ limit, (Expr.binary op a e).level ≤ l.precedence := by
        rintro l rfl
        simpa [Expr.level] using runs.1
      have result := ih low' ⟨binary, wfa, wf, tight, close⟩ far (P.int z)
        (by simp only [Expr.value, hx, value, applied, Option.bind_some]; rfl) ready
      simpa [Expr.tokens] using result

theorem Behind.close {start env : σ} {ops ops' : List Operator} {operands operands' : List Int}
    {ts : List Token} {e : Expr} (h : Behind P solve start ops operands ts env e)
    (closed : fSeparator P ops operands = (ops', operands', .complete)) :
    (∃ e', e'.level = 0 ∧ Behind P solve start ops' operands' (ts ++ [.operator .fSeparator]) env e') ∨
      operands'.length ≤ binaries ops' := by
  obtain ⟨wf, stops, vals, before', env₁, v, context, value, rfl, rfl⟩ := h
  induction context generalizing e v with
  | start => cases closed
  | @group ops vals ts env₁ inner ih =>
    cases closed
    exact .inl ⟨.paren e, rfl, wf, stops_zero _, vals, ts, env₁, v, inner, value, rfl, by
      simp [Expr.tokens]⟩
  | @not ops vals ts env₁ inner far ih =>
    have close : e.level < Operator.not.precedence := by
      rcases stops .not rfl with early | close
      · cases early
      · exact close
    have result := @ih (Expr.not e) ⟨wf, Nat.le_of_lt close⟩ far (truth (v = 0))
      (by rw [Expr.value, value]; rfl) closed
    simpa [Expr.tokens] using result
  | @left ops vals ts env₁ env₂ op a x inner binary wfa tight hx far ih =>
    have close : e.level < op.precedence := by
      rcases stops op rfl with early | close
      · rw [(binary_late binary).1] at early
        cases early
      · exact close
    have run : fSeparator P (op :: ops) (v :: x :: vals) =
        fSeparator P ops (operate P op (v :: x :: vals)).1 := by
      rw [fSeparator]
      exact (binary_late binary).2.2
    rw [run, operate_binary binary] at closed
    cases applied : op.apply P.machine x v with
    | none =>
      -- two operands are gone, and the error with them
      rw [applied] at closed
      exact .inr ((fSeparator_balance closed).1 (Nat.le_of_eq inner.length))
    | some z =>
      rw [applied] at closed
      have result := @ih (Expr.binary op a e) ⟨binary, wfa, wf, tight, close⟩ far (P.int z)
        (by simp only [Expr.value, hx, value, applied, Option.bind_some]; rfl) closed
      simpa [Expr.tokens] using result

/-! ### What has been read -/

def Token.closes : Token → Bool
  | .operand _ => true
  | .operator op => op = .fSeparator

def Token.begins : Token → Bool
  | .operand _ => true
  | .operator op => op = .oSeparator ∨ op = .not

def ended (ts : List Token) : Bool := ts.getLast?.any Token.closes

/-- No operand begins directly behind another one. -/
def Joined (ts : List Token) : Prop := ts.IsChain fun s t => ¬(s.closes ∧ t.begins)

instance (ts : List Token) : Decidable (Joined ts) := by unfold Joined; infer_instance

/-- Either the front of an expression has been read, or the operators that wait have too few
operands. -/
structure Front (P : Platform) (solve : Text → σ → σ × Option Int) (start : σ) (ts : List Token)
    (a : Accum σ) : Prop where
  groups : a.operators.count .oSeparator + ts.count (.operator .fSeparator) =
    ts.count (.operator .oSeparator)
  inner : .fSeparator ∉ a.operators
  behind : ended ts = true →
    (∃ e, e.level = 0 ∧ Behind P solve start a.operators a.operands ts a.env e) ∨
      a.operands.length ≤ binaries a.operators
  expecting : ended ts = false → Context P solve start a.operators a.operands ts a.env ∨
    a.operands.length < binaries a.operators

theorem ended_append (ts : List Token) (t : Token) : ended (ts ++ [t]) = t.closes := by
  simp [ended]

theorem Front.empty (P : Platform) (solve : Text → σ → σ × Option Int) (start : σ) :
    Front P solve start [] (Accum.empty start) := ⟨rfl, nofun, nofun, fun _ => .inl .start⟩

namespace Front
variable {start : σ} {ts : List Token} {a a' : Accum σ}

theorem short (h : Front P solve start ts a) (expected : ended ts = false) :
    a.operands.length ≤ binaries a.operators := by
  rcases h.expecting expected with context | few
  · exact Nat.le_of_eq context.length
  · exact Nat.le_of_lt few

theorem operand {w : Text} (h : Front P solve start ts a) (expected : ended ts = false)
    (valid : Literal w ∨ Reference w) (step : a.step P solve (.operand w) = some a') :
    Front P solve start (ts ++ [.operand w]) a' := by
  rw [Accum.step_operand a valid] at step
  obtain ⟨⟨v, env⟩, value, step⟩ := Option.bind_eq_some_iff.mp step
  simp only at step
  split at step
  case isFalse => cases step
  cases step
  refine ⟨by simpa using h.groups, h.inner, fun _ => ?_,
    fun e => by simp [ended_append, Token.closes] at e⟩
  rcases h.expecting expected with context | few
  · exact .inl ⟨.operand w, rfl, valid, stops_zero _, a.operands, ts, a.env, v, context, value,
      rfl, rfl⟩
  · exact .inr few

theorem step_operator {op : Operator} (other : op ≠ .fSeparator)
    (step : a.step P solve (.operator op) = some a') : ∃ ops operands,
      simplify P (some op) a.operators a.operands = (ops, operands, .ready) ∧
        a' = ⟨op :: ops, operands, a.env⟩ ∧ (.fSeparator ∉ a.operators → .fSeparator ∉ op :: ops) := by
  have suffix := simplify_suffix P (some op) a.operators a.operands
  rw [Accum.step_operator] at step
  generalize simplify P (some op) a.operators a.operands = reduced at step suffix ⊢
  obtain ⟨ops, operands, status⟩ := reduced
  cases status
  case ready =>
    simp only [if_neg other] at step
    split at step
    · cases step
    · cases step
      refine ⟨ops, operands, rfl, rfl, fun inner inside => ?_⟩
      rcases List.mem_cons.mp inside with e | inside
      · exact other e.symm
      · exact inner (suffix.subset inside)
  all_goals cases step

theorem group (h : Front P solve start ts a) (expected : ended ts = false)
    (step : a.step P solve (.operator .oSeparator) = some a') :
    Front P solve start (ts ++ [.operator .oSeparator]) a' := by
  obtain ⟨ops, operands, reduced, rfl, inner⟩ := step_operator (by decide) step
  rw [simplify_stops .oSeparator _ (stops_separator _)] at reduced
  cases reduced
  have groups := h.groups
  refine ⟨?_, inner h.inner, fun e => ?_, fun _ => ?_⟩
  · simp only [List.count_cons_self, List.count_append]
    simp
    omega
  · simp [ended_append, Token.closes] at e
  · rcases h.expecting expected with context | few
    · exact .inl (.group context)
    · exact .inr (by rw [binaries_cons]; exact Nat.lt_of_lt_of_le few (Nat.le_add_right _ _))

theorem not (h : Front P solve start ts a) (expected : ended ts = false)
    (single : ts.getLast? ≠ some (.operator .not))
    (step : a.step P solve (.operator .not) = some a') :
    Front P solve start (ts ++ [.operator .not]) a' := by
  obtain ⟨ops, operands, reduced, rfl, inner⟩ := step_operator (by decide) step
  obtain ⟨balance, same⟩ := simplify_balance reduced
  refine ⟨?_, inner h.inner, fun e => ?_, fun _ => ?_⟩
  · have groups := h.groups
    simp only [List.count_append]
    simp
    omega
  · simp [ended_append, Token.closes] at e
  · rcases h.expecting expected with context | few
    · have stops : Stops Operator.not.precedence a.operators := by
        intro op hop
        obtain ⟨binary | rfl | rfl, last⟩ := context.last op hop
        · exact .inr (by simpa [Operator.isBinary] using binary)
        · exact .inl rfl
        · exact absurd last single
      rw [simplify_stops .not _ stops] at reduced
      cases reduced
      exact .inl (.not context stops)
    · refine .inr ?_
      rw [binaries_cons]
      simp only
      omega

theorem binary {op : Operator} (h : Front P solve start ts a) (binary : op.isBinary)
    (step : a.step P solve (.operator op) = some a') :
    Front P solve start (ts ++ [.operator op]) a' := by
  obtain ⟨late, other, inner⟩ := binary_late binary
  obtain ⟨ops, operands, reduced, rfl, inner'⟩ := step_operator other step
  obtain ⟨balance, same⟩ := simplify_balance reduced
  have few (short : a.operands.length ≤ binaries a.operators) :
      operands.length < binaries (op :: ops) := by
    rw [binaries_cons, if_pos binary]
    omega
  refine ⟨?_, inner' h.inner, fun e => ?_, fun _ => ?_⟩
  · have groups := h.groups
    rw [List.count_cons_of_ne inner]
    simp only [List.count_append]
    simp [other, inner]
    omega
  · simp [ended_append, Token.closes, other] at e
  · cases over' : ended ts with
    | false => exact .inr (few (h.short over'))
    | true =>
      rcases h.behind over' with ⟨e, whole, behind⟩ | short
      · have low : ∀ l ∈ some op, e.level ≤ l.precedence := fun _ _ => by omega
        obtain ⟨e', ⟨wf, -, vals, before', env, v, context, value, rfl, rfl⟩, tight, -⟩ :=
          behind.simplify low reduced
        obtain ⟨tight, stops⟩ := tight op rfl
        rw [List.append_assoc]
        exact .inl (.left context binary wf tight value stops)
      · exact .inr (few short)

theorem close (h : Front P solve start ts a)
    (step : a.step P solve (.operator .fSeparator) = some a') :
    Front P solve start (ts ++ [.operator .fSeparator]) a' := by
  rw [Accum.step_operator, simplify_stops .fSeparator _ (stops_separator _)] at step
  simp only [if_true] at step
  split at step
  · cases step
  split at step
  case h_2 => cases step
  rename_i ops operands closed
  cases step
  obtain ⟨short, groups⟩ := fSeparator_balance closed
  have suffix := fSeparator_suffix P a.operators a.operands
  rw [closed] at suffix
  refine ⟨?_, fun inside => h.inner (suffix.subset inside), fun _ => ?_, fun e => ?_⟩
  · have old := h.groups
    simp only [List.count_append]
    simp
    omega
  · cases over' : ended ts with
    | false => exact .inr (short (h.short over'))
    | true =>
      rcases h.behind over' with ⟨e, -, behind⟩ | few
      · exact behind.close closed
      · exact .inr (short few)
  · simp [ended_append, Token.closes] at e

theorem conclude {v : Int} (h : Front P solve start ts a)
    (closed : ts.count (.operator .oSeparator) = ts.count (.operator .fSeparator))
    (value : a.conclude P = some v) :
    ∃ e : Expr, e.WellFormed ∧ ts = e.tokens ∧ e.value P.machine solve start = some (v, a.env) := by
  have reduced : ∃ ops, simplify P none a.operators a.operands = (ops, [v], .ready) := by
    unfold Accum.conclude Accum.addOperator evalAddOperator at value
    simp only [Accum.calculator] at value
    generalize simplify P none a.operators a.operands = reduced at value ⊢
    obtain ⟨ops, operands, status⟩ := reduced
    cases status
    case ready =>
      simp only at value
      split at value
      · cases value
        exact ⟨ops, rfl⟩
      · cases value
    all_goals cases value
  obtain ⟨ops, reduced⟩ := reduced
  obtain ⟨balance, same⟩ := simplify_balance reduced
  have suffix := simplify_suffix P none a.operators a.operands
  have early := simplify_all reduced
  have groups := h.groups
  rw [reduced] at suffix
  -- no group is open, and a closing parenthesis does not wait
  obtain rfl : ops = [] := by
    cases ops with
    | nil => rfl
    | cons op ops =>
      have early := early op rfl
      cases op
      case oSeparator =>
        rw [List.count_cons_self] at same
        omega
      case fSeparator => exact absurd (suffix.subset List.mem_cons_self) h.inner
      all_goals cases early
  have more : binaries a.operators < a.operands.length := by
    simp only [binaries, List.countP_nil, List.length_singleton] at balance ⊢
    omega
  cases over' : ended ts with
  | false => exact absurd (h.short over') (Nat.not_le_of_lt more)
  | true =>
    rcases h.behind over' with ⟨e, -, behind⟩ | few
    · obtain ⟨e', ⟨wf, -, vals, before', env, x, context, value, only', text⟩, -⟩ :=
        behind.simplify (by simp) reduced
      cases context
      cases only'
      exact ⟨e', wf, text, value⟩
    · exact absurd few (Nat.not_le_of_lt more)

theorem step {t : Token} (h : Front P solve start ts a)
    (follows : ∀ s ∈ ts.getLast?, ¬(s.closes ∧ t.begins) ∧
      ¬(s = .operator .not ∧ t = .operator .not))
    (valid : ∀ w, t = .operand w → Literal w ∨ Reference w) (other : t ≠ .operator .reference)
    (step : a.step P solve t = some a') : Front P solve start (ts ++ [t]) a' := by
  have expected (begins : t.begins) : ended ts = false := by
    cases last : ts.getLast? with
    | none => simp [ended, last]
    | some s => simpa [ended, last] using fun closes => (follows s last).1 ⟨closes, begins⟩
  cases t with
  | operand w => exact h.operand (expected rfl) (valid w rfl) step
  | operator op =>
    cases op
    case oSeparator => exact h.group (expected rfl) step
    case fSeparator => exact h.close step
    case not =>
      exact h.not (expected rfl) (fun last => (follows _ last).2 ⟨rfl, rfl⟩) step
    case reference => exact absurd rfl other
    all_goals exact h.binary rfl step

theorem run {rest : List Token} (h : Front P solve start ts a) (joined : Joined (ts ++ rest))
    (single : Single (ts ++ rest)) (valid : ∀ w, .operand w ∈ rest → Literal w ∨ Reference w)
    (other : .operator .reference ∉ rest) (run : a.run P solve rest = some a') :
    Front P solve start (ts ++ rest) a' := by
  induction rest generalizing ts a with
  | nil =>
    cases run
    rwa [List.append_nil]
  | cons t rest ih =>
    obtain ⟨b, first, later⟩ := Option.bind_eq_some_iff.mp run
    have follows : ∀ s ∈ ts.getLast?, ¬(s.closes ∧ t.begins) ∧
        ¬(s = .operator .not ∧ t = .operator .not) := fun s hs =>
      ⟨(List.isChain_append.mp joined).2.2 s hs t rfl, (List.isChain_append.mp single).2.2 s hs t rfl⟩
    have next := h.step follows (fun w hw => valid w (hw ▸ List.mem_cons_self))
      (fun e => other (e ▸ List.mem_cons_self)) first
    rw [← List.singleton_append, ← List.append_assoc] at joined single ⊢
    exact ih next joined single (fun w hw => valid w (List.mem_cons_of_mem _ hw))
      (fun inside => other (List.mem_cons_of_mem _ inside)) later

end Front

/-! ### Texts that are accepted -/

/-- No operand runs into the next one, every parenthesis is closed, and operands are numbers or
names. -/
structure Tidy (t : Text) : Prop where
  nonzero : 0 ∉ t
  joined : Joined (tokens (withoutBlanks t))
  closed : (tokens (withoutBlanks t)).count (.operator .oSeparator) =
    (tokens (withoutBlanks t)).count (.operator .fSeparator)
  operands : ∀ w, .operand w ∈ tokens (withoutBlanks t) → Literal w ∨ Reference w
  other : .operator .reference ∉ tokens (withoutBlanks t)

namespace Expr

theorem ends (e : Expr) :
    (∃ t ∈ e.tokens.head?, t.begins) ∧ ∃ t ∈ e.tokens.getLast?, t.closes := by
  induction e with
  | operand w => exact ⟨⟨_, rfl, rfl⟩, _, rfl, rfl⟩
  | paren e ih =>
    refine ⟨⟨_, rfl, rfl⟩, .operator .fSeparator, ?_, rfl⟩
    rw [tokens, ← List.cons_append, List.getLast?_concat]
    rfl
  | not e ih =>
    obtain ⟨-, t, last, closes⟩ := ih
    refine ⟨⟨_, rfl, rfl⟩, t, ?_, closes⟩
    rw [tokens, List.getLast?_cons, last]
    rfl
  | binary op a b iha ihb =>
    obtain ⟨⟨s, first, begins⟩, -⟩ := iha
    obtain ⟨-, t, last, closes⟩ := ihb
    refine ⟨⟨s, ?_, begins⟩, t, ?_, closes⟩
    · rw [tokens, List.head?_append, first]
      rfl
    · rw [tokens, List.getLast?_append, List.getLast?_cons, last]
      rfl

theorem joined {e : Expr} (wf : e.WellFormed) : Joined e.tokens := by
  -- an operator that is no closing parenthesis may stand in front of anything
  have front {op : Operator} {ts : List Token} (open' : op ≠ .fSeparator) (h : Joined ts) :
      Joined (.operator op :: ts) :=
    List.isChain_cons.mpr ⟨fun t _ both => by simp [Token.closes, open'] at both, h⟩
  induction e with
  | operand w => exact List.isChain_singleton _
  | paren e ih =>
    refine front (by decide) (List.isChain_append.mpr ⟨ih wf, List.isChain_singleton _, ?_⟩)
    rintro s - t ht ⟨-, begins⟩
    cases ht
    cases begins
  | not e ih => exact front (by decide) (ih wf.1)
  | binary op a b iha ihb =>
    have other := binary_late wf.1
    refine List.isChain_append.mpr ⟨iha wf.2.1, front other.2.1 (ihb wf.2.2.1), ?_⟩
    rintro s - t ht ⟨-, begins⟩
    cases ht
    have notNot : op ≠ .not := by
      rintro rfl
      cases wf.1
    simp [Token.begins, other.2.2, notNot] at begins

theorem closed {e : Expr} (wf : e.WellFormed) :
    e.tokens.count (.operator .oSeparator) = e.tokens.count (.operator .fSeparator) := by
  induction e with
  | operand w => rfl
  | paren e ih => simp [tokens, List.count_append, ih wf]
  | not e ih => simp [tokens, ih wf.1]
  | binary op a b iha ihb =>
    obtain ⟨-, close, group⟩ := binary_late wf.1
    simp [tokens, List.count_append, iha wf.2.1, ihb wf.2.2.1, close, group]

theorem no_reference {e : Expr} (wf : e.WellFormed) : .operator .reference ∉ e.tokens := by
  induction e with
  | operand w => simp [tokens]
  | paren e ih => simpa [tokens] using ih wf
  | not e ih => simpa [tokens] using ih wf.1
  | binary op a b iha ihb =>
    have other : Operator.reference ≠ op := by
      rintro rfl
      cases wf.1
    simpa [tokens, other] using ⟨iha wf.2.1, ihb wf.2.2.1⟩

end Expr

end
end EmmaNode

import EmmaNode.Precedence

/-! The divisions and remainders an evaluation comes to, in the order in which their operators
are run. `operator_divide` refuses a divisor of zero, and the call ends there with its error,
unless a closing parenthesis has run it; `operator_modulo` refuses nothing. -/

namespace EmmaNode

structure Execution where
  op : Operator
  operands : List Int
  /-- run by a closing parenthesis -/
  closing : Bool
  deriving DecidableEq

def Platform.smallest (P : Platform) : Int := -(2 ^ (P.intBits - 1))

namespace Execution

/-- A quotient or remainder without meaning: by zero, or of the smallest number by -1 -/
def Faulty (P : Platform) (x : Execution) : Prop :=
  (x.op = .divide ∨ x.op = .modulo) ∧
    ∃ b a rest, x.operands = b :: a :: rest ∧ (b = 0 ∨ a = P.smallest ∧ b = -1)

/-- A division that is not carried out -/
def Refused (x : Execution) : Prop := x.op = .divide ∧ ∃ a rest, x.operands = 0 :: a :: rest

end Execution

section
variable (P : Platform)

def simplifySteps (limit : Option Operator) : List Operator → List Int → List Execution
  | [], _ => []
  | op :: rest, operands =>
    if (limit.all fun l => op.precedence ≤ l.precedence) ∧ !op.isEarly then
      ⟨op, operands, false⟩ ::
        match operate P op operands with
        | (operands, .complete) => simplifySteps limit rest operands
        | _ => []
    else []

def fSeparatorSteps : List Operator → List Int → List Execution
  | [], _ => []
  | .oSeparator :: _, _ => []
  | op :: rest, operands =>
    ⟨op, operands, true⟩ :: fSeparatorSteps rest (operate P op operands).1

/-- The operators that `eval_add_operator` runs -/
def addOperatorSteps (s : Stack) (operator : Option Operator) : List Execution :=
  simplifySteps P operator s.operators s.operands ++
    match simplify P operator s.operators s.operands with
    | (operators, operands, .ready) =>
      if operator = some .fSeparator ∧ operators.length < evalMaxOperators then
        fSeparatorSteps P operators operands
      else []
    | _ => []

namespace Calculator
variable {σ : Type} (solve : Text → σ → σ × Option Int)

def scanWindowSteps : Nat → Calculator σ → List Execution
  | 0, _ => []
  | n + 1, m =>
    let s := m.stack
    if s.bufferIndex < evalBufferSize ∧ s.buffer s.bufferIndex ≠ 0 then
      match s.operatorHere with
      | none => scanWindowSteps n { m with stack := { s with bufferIndex := s.bufferIndex + 1 } }
      | some op =>
        match m.evalAddOperand P solve
            (s.slice m.operandIndex (s.bufferIndex - m.operandIndex)) with
        | (m, .ready) | (m, .emptyOperand) =>
          addOperatorSteps P m.stack (some op) ++
            match evalAddOperator P m.stack (some op) with
            | (s, .ready) =>
              let stop := s.bufferIndex + op.symbol.length
              scanWindowSteps n
                { m with stack := { s with bufferIndex := stop }, operandIndex := stop }
            | _ => []
        | _ => []
    else []

def scanStepSteps (m : Calculator σ) : List Execution :=
  let s := m.stack
  match s.operatorHere with
  | none => []
  | some op =>
    match m.evalAddOperand P solve (s.slice m.operandIndex (s.bufferIndex - m.operandIndex)) with
    | (m, .ready) | (m, .emptyOperand) => addOperatorSteps P m.stack (some op)
    | _ => []

theorem scanWindowSteps_succ (n : Nat) (m : Calculator σ) : m.scanWindowSteps P solve (n + 1) =
    if Scanning m.stack then
      m.scanStepSteps P solve ++
        match m.scanStep P solve with
        | (m, .ready) => m.scanWindowSteps P solve n
        | _ => []
    else [] := by
  rw [scanWindowSteps]
  by_cases scanning : Scanning m.stack
  · have going : m.stack.bufferIndex < evalBufferSize ∧
        m.stack.buffer m.stack.bufferIndex ≠ 0 := scanning
    simp only [if_pos going, if_pos scanning]
    rw [scanStepSteps, scanStep]
    cases m.stack.operatorHere with
    | none => rfl
    | some op =>
      simp only
      rcases m.evalAddOperand P solve _ with ⟨m₁, status⟩
      cases status
      case ready | emptyOperand =>
        simp only [addScanned]
        rcases evalAddOperator P m₁.stack (some op) with ⟨s, status⟩
        cases status <;> rfl
      all_goals rfl
  · have done : ¬(m.stack.bufferIndex < evalBufferSize ∧
        m.stack.buffer m.stack.bufferIndex ≠ 0) := scanning
    simp only [if_neg done, if_neg scanning]

def evaluateTurnsSteps : Nat → Calculator σ → Text → List Execution
  | 0, _, _ => []
  | _ + 1, _, [] => []
  | n + 1, m, block =>
    let (m, rest) := m.fillWindow block
    m.scanWindowSteps P solve evalBufferSize ++
      match m.scanWindow P solve evalBufferSize with
      | (m, .ready) =>
        match m.fullWindow P solve with
        | (m, .ready) =>
          evaluateTurnsSteps n { m with stack := m.stack.moveTrailing m.operandIndex } rest
        | _ => []
      | _ => []

def evaluateResultSteps (m : Calculator σ) : List Execution :=
  let s := m.stack
  let last := if m.operandIndex < s.bufferIndex then
      m.evalAddOperand P solve (s.slice m.operandIndex (s.bufferIndex - m.operandIndex))
    else (m, .ready)
  match last with
  | (m, .ready) => addOperatorSteps P m.stack none
  | _ => []

/-- What a call of `evaluate_block` runs, with a block or for the result -/
def steps (m : Calculator σ) : Option Text → List Execution
  | some block => m.evaluateTurnsSteps P solve (block.length + 1) block
  | none => m.evaluateResultSteps P solve

def status (m : Calculator σ) : Option Text → EvalStatus
  | some block => (m.evaluateBlock P solve block).2
  | none => (m.evaluateResult P solve).2.1

end Calculator
end

/-- The call is over and has failed. -/
def EvalStatus.IsError (status : EvalStatus) : Prop := status ≠ .ready ∧ status ≠ .complete

/-- No operation without meaning is carried out, and a call that comes to one ends with an
error. -/
structure Reported (P : Platform) (steps : List Execution) (status : EvalStatus) : Prop where
  refused : ∀ x ∈ steps, x.Faulty P → x.Refused
  told : (∃ x ∈ steps, x.Faulty P) → status.IsError

theorem Execution.Refused.faulty {x : Execution} {P : Platform} (h : x.Refused) : x.Faulty P := by
  obtain ⟨divide, a, rest, operands⟩ := h
  exact ⟨.inl divide, 0, a, rest, operands, .inl rfl⟩

def Traced (steps : List Execution) (status : EvalStatus) : Prop :=
  ∀ x ∈ steps, x.Refused → x.closing = false → status = .divByZero

namespace Traced
variable {steps steps' : List Execution} {status status' : EvalStatus} {P : Platform}

theorem nil : Traced [] status := fun x hx => by cases hx

theorem single {x : Execution} (refused : x.Refused → x.closing = false → status = .divByZero) :
    Traced [x] status := by
  intro y hy
  obtain rfl := List.mem_singleton.mp hy
  exact refused

theorem append (h : Traced steps status) (ne : status ≠ .divByZero) (h' : Traced steps' status') :
    Traced (steps ++ steps') status' := by
  intro x hx refused opened
  rcases List.mem_append.mp hx with hx | hx
  · exact absurd (h x hx refused opened) ne
  · exact h' x hx refused opened

theorem of_ne (h : Traced steps status) (ne : status ≠ .divByZero) (status' : EvalStatus) :
    Traced steps status' := by
  simpa using h.append ne (show Traced [] status' from nil)

theorem reported (h : Traced steps status) (plain : ∀ x ∈ steps, x.Refused → x.closing = false) :
    Reported P steps status ↔ ∀ x ∈ steps, x.Faulty P → x.Refused := by
  refine ⟨Reported.refused, fun refused => ⟨refused, ?_⟩⟩
  rintro ⟨x, hx, faulty⟩
  have division := refused x hx faulty
  rw [h x hx division (plain x hx division)]
  exact ⟨by decide, by decide⟩

end Traced

section
variable (P : Platform)

theorem operate_refused {op : Operator} {operands : List Int} {closing : Bool}
    (h : Execution.Refused ⟨op, operands, closing⟩) : (operate P op operands).2 = .divByZero := by
  obtain ⟨rfl, a, rest, rfl⟩ := h
  rfl

theorem simplify_traced (limit : Option Operator) (ops : List Operator) (operands : List Int) :
    Traced (simplifySteps P limit ops operands) (simplify P limit ops operands).2.2 := by
  induction ops generalizing operands with
  | nil => exact .nil
  | cons op rest ih =>
    rw [simplifySteps, simplify]
    split
    case isFalse => exact .nil
    have refused := @operate_refused P op operands false
    generalize operate P op operands = result at refused ⊢
    obtain ⟨operands', status⟩ := result
    by_cases complete : status = .complete
    · subst complete
      have alone : Traced [⟨op, operands, false⟩] .complete := .single fun h _ => refused h
      exact alone.append (by simp) (ih operands')
    · have alone : Traced [⟨op, operands, false⟩] status :=
        .single fun h _ => refused h
      cases status
      case complete => exact absurd rfl complete
      all_goals exact alone

theorem fSeparatorSteps_closing (ops : List Operator) (operands : List Int) :
    ∀ x ∈ fSeparatorSteps P ops operands, x.closing = true := by
  induction ops generalizing operands with
  | nil => exact fun x hx => by cases hx
  | cons op rest ih =>
    by_cases group : op = .oSeparator
    · subst group
      exact fun x hx => by cases hx
    · rw [fSeparatorSteps]
      · intro x hx
        rcases List.mem_cons.mp hx with rfl | hx
        · rfl
        · exact ih _ x hx
      · exact group

theorem closing_traced {steps : List Execution} {status : EvalStatus}
    (closing : ∀ x ∈ steps, x.closing = true) : Traced steps status :=
  fun x hx _ opened => by simp [closing x hx] at opened

theorem addOperator_traced (s : Stack) (operator : Option Operator) :
    Traced (addOperatorSteps P s operator) (evalAddOperator P s operator).2 := by
  have first := simplify_traced P operator s.operators s.operands
  unfold addOperatorSteps evalAddOperator
  generalize simplify P operator s.operators s.operands = reduced at first ⊢
  obtain ⟨operators, operands, status⟩ := reduced
  cases status
  case ready =>
    refine first.append (by simp) ?_
    simp only
    cases operator with
    | none => exact .nil
    | some op =>
      by_cases full : evalMaxOperators ≤ operators.length
      · simp only [if_pos full, Nat.not_lt_of_le full, and_false, if_false]
        exact .nil
      by_cases closing : op = .fSeparator
      · subst closing
        have ran := fSeparatorSteps_closing P operators operands
        simp only [if_neg full, Nat.lt_of_not_le full, and_true, if_true]
        exact closing_traced ran
      · simp only [if_neg full, Option.some.injEq, closing, false_and, if_false]
        exact .nil
  all_goals
    simpa using first

variable {σ : Type} (solve : Text → σ → σ × Option Int)

namespace Calculator

theorem addScanned_traced (op : Operator) (m : Calculator σ) :
    Traced (addOperatorSteps P m.stack (some op)) (m.addScanned P op).2 := by
  have pushed := addOperator_traced P m.stack (some op)
  rw [addScanned]
  generalize evalAddOperator P m.stack (some op) = added at pushed ⊢
  obtain ⟨s, status⟩ := added
  cases status <;> exact pushed

theorem scanStep_traced (m : Calculator σ) :
    Traced (m.scanStepSteps P solve) (m.scanStep P solve).2 := by
  rw [scanStepSteps, scanStep]
  cases m.stack.operatorHere with
  | none => exact .nil
  | some op =>
    simp only
    generalize m.evalAddOperand P solve
      (m.stack.slice m.operandIndex (m.stack.bufferIndex - m.operandIndex)) = added
    obtain ⟨m, status⟩ := added
    cases status
    case ready | emptyOperand => exact addScanned_traced P op m
    all_goals exact .nil

theorem scanWindow_traced (n : Nat) (m : Calculator σ) :
    Traced (m.scanWindowSteps P solve n) (m.scanWindow P solve n).2 := by
  induction n generalizing m with
  | zero => exact .nil
  | succ n ih =>
    rw [scanWindowSteps_succ, scanWindow_succ]
    split
    case isFalse => exact .nil
    have step := scanStep_traced P solve m
    generalize m.scanStep P solve = stepped at step ⊢
    obtain ⟨m, status⟩ := stepped
    cases status
    case ready => exact step.append (by simp) (ih m)
    all_goals simpa using step

theorem evaluateTurns_traced (n : Nat) (m : Calculator σ) (block : Text) :
    Traced (m.evaluateTurnsSteps P solve n block) (m.evaluateTurns P solve n block).2 := by
  induction n generalizing m block with
  | zero => exact .nil
  | succ n ih =>
    cases block with
    | nil => exact .nil
    | cons c block =>
      rw [evaluateTurnsSteps, evaluateTurns]
      · generalize m.fillWindow (c :: block) = filled
        obtain ⟨m, rest⟩ := filled
        have scanned := scanWindow_traced P solve evalBufferSize m
        simp only
        generalize m.scanWindow P solve evalBufferSize = result at scanned ⊢
        obtain ⟨m, status⟩ := result
        cases status
        case ready =>
          refine scanned.append (by simp) ?_
          simp only
          generalize m.fullWindow P solve = result
          obtain ⟨m, status⟩ := result
          cases status
          case ready => exact ih _ _
          all_goals exact .nil
        all_goals simpa using scanned
      · simp
      · simp

theorem traced (m : Calculator σ) (call : Option Text) :
    Traced (m.steps P solve call) (m.status P solve call) := by
  cases call with
  | some block => exact evaluateTurns_traced P solve _ m block
  | none =>
    rw [steps, status, evaluateResultSteps, evaluateResult]
    simp only
    generalize (if m.operandIndex < m.stack.bufferIndex then
        m.evalAddOperand P solve
          (m.stack.slice m.operandIndex (m.stack.bufferIndex - m.operandIndex))
      else (m, .ready)) = last
    obtain ⟨m, status⟩ := last
    cases status
    case ready =>
      have concluded := addOperator_traced P m.stack none
      simp only
      generalize evalAddOperator P m.stack none = result at concluded ⊢
      obtain ⟨s, status⟩ := result
      cases status
      case ready =>
        have behind := concluded.of_ne (by simp)
        simp only
        split <;> exact behind _
      all_goals exact concluded
    all_goals exact .nil

/-- It is enough that every operator of a call which meets no sound operands is a division by
zero outside of parentheses; where no closing parenthesis runs such a division, nothing less
is enough. -/
theorem reported_iff (m : Calculator σ) (call : Option Text) :
    ((∀ x ∈ m.steps P solve call, x.Faulty P → x.Refused ∧ x.closing = false) →
      Reported P (m.steps P solve call) (m.status P solve call)) ∧
    ((∀ x ∈ m.steps P solve call, x.Refused → x.closing = false) →
      (Reported P (m.steps P solve call) (m.status P solve call) ↔
        ∀ x ∈ m.steps P solve call, x.Faulty P → x.Refused ∧ x.closing = false)) := by
  have reported := (traced P solve m call).reported (P := P)
  constructor
  · intro sound
    exact (reported fun x hx refused => (sound x hx refused.faulty).2).mpr
      fun x hx faulty => (sound x hx faulty).1
  · intro plain
    rw [reported plain]
    refine ⟨fun refused x hx faulty => ?_, fun sound x hx faulty => (sound x hx faulty).1⟩
    exact ⟨refused x hx faulty, plain x hx (refused x hx faulty)⟩

end Calculator
end

/-- What is left of the text `5%0` when its result is asked for -/
theorem Calculator.reported_remainder : ¬ ∀ (P : Platform) (σ : Type)
    (solve : Text → σ → σ × Option Int) (m : Calculator σ) (call : Option Text),
    Reported P (m.steps P solve call) (m.status P solve call) := by
  intro h
  have refused := (h .plain Unit oneReference (freshCalculator.evaluateBlock .plain oneReference
    (chars ['5', '%', '0'])).1 none).refused ⟨.modulo, [0, 5], false⟩ (by decide +kernel)
  exact absurd (refused ⟨.inr rfl, 0, 5, [], rfl, .inl rfl⟩).1 (by decide)

end EmmaNode

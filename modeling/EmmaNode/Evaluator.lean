import EmmaNode.Platform
import Mathlib.Logic.Function.Basic

/-! The calculator of emma-eval.c. It reads an expression block by block through a
window of fifteen bytes; operators and operands wait on two stacks. References are
resolved by a solver that may change a state `σ` of its own. The `operandIndex` that
`evaluate_block` keeps between calls is one static variable, shared by all stacks. -/

namespace EmmaNode

inductive EvalStatus where
  | ready | complete | operandLifoOvf | operatorLifoOvf | resultOvf | parseError | invalidArg
  | operandParseError | badOperator | emptyOperand | operateError | divByZero | badReference
  | bufferOvf
  deriving DecidableEq

inductive Operator where
  | logicalOr | logicalAnd | equals | higherThan | lowerThan | plus | minus | divide | modulo
  | time | not | reference | fSeparator | oSeparator
  deriving DecidableEq

namespace Operator

/-- The table `operators`, in its order. -/
def all : List Operator :=
  [logicalOr, logicalAnd, equals, higherThan, lowerThan, plus, minus, divide, modulo, time, not,
    reference, fSeparator, oSeparator]

def symbol : Operator → Text
  | logicalOr => chars ['|', '|']
  | logicalAnd => chars ['&', '&']
  | equals => chars ['=', '=']
  | higherThan => chars ['>']
  | lowerThan => chars ['<']
  | plus => chars ['+']
  | minus => chars ['-']
  | divide => chars ['/']
  | modulo => chars ['%']
  | time => chars ['*']
  | not => chars ['!']
  | reference => chars ['.']
  | fSeparator => chars [')']
  | oSeparator => chars ['(']

def precedence : Operator → Nat
  | logicalOr => 10
  | logicalAnd => 9
  | equals => 8
  | higherThan => 7
  | lowerThan => 6
  | plus => 5
  | minus => 5
  | divide => 4
  | modulo => 4
  | time => 4
  | not => 3
  | reference => 2
  | fSeparator => 1
  | oSeparator => 1

def isEarly : Operator → Bool
  | fSeparator => true
  | oSeparator => true
  | _ => false

end Operator

def evalMaxOperators : Nat := 10
def evalMaxOperands : Nat := 10
def evalBufferSize : Nat := 15

/-- `num_eval_t`, the tops of both stacks first. -/
structure Stack where
  operators : List Operator
  operands : List Int
  buffer : Nat → UInt8
  bufferIndex : Nat

namespace Stack

def init : Stack := ⟨[], [], fun _ => 0, 0⟩

/-- `clean_stack` -/
def clean (s : Stack) : Stack := { s with operators := [], operands := [], bufferIndex := 0 }

/-- A byte of the window, or the one behind it, which is `bufferIndex` itself. -/
def byte (s : Stack) (i : Nat) : UInt8 :=
  if i < evalBufferSize then s.buffer i else s.bufferIndex.toUInt8

/-- `size` bytes of the window from `start` on. -/
def slice (s : Stack) (start size : Nat) : Text := (List.range size).map fun i => s.byte (start + i)

/-- The operator spelled at `bufferIndex`; no two symbols share their first byte. -/
def operatorHere (s : Stack) : Option Operator :=
  Operator.all.find? fun op => s.slice s.bufferIndex op.symbol.length = op.symbol

/-- Move what starts at `k` to the start of the window. -/
def moveTrailing (s : Stack) (k : Nat) : Stack :=
  { s with buffer := fun i => if i + k < s.bufferIndex then s.buffer (i + k) else s.buffer i }

end Stack

/-- A stack, the static `operandIndex` and the state of the solver. -/
structure Calculator (σ : Type) where
  stack : Stack
  operandIndex : Nat
  env : σ

section
variable (P : Platform)

/-- `antoi` -/
def antoi (s : Text) : Int :=
  let comp : Int := if s.head? = some '-'.toUInt8 then -1 else 1
  let digit (val : Int) (c : UInt8) : Int :=
    if '0'.toUInt8 ≤ c ∧ c ≤ '9'.toUInt8 then P.int (val * 10 + (c.toNat - 48 : Nat)) else val
  P.int ((cString s).foldl digit 0 * comp)

/-- Pop two operands and push `f` of them; what was popped stays popped on failure. -/
def binary (f : Int → Int → Int) : List Int → List Int × EvalStatus
  | op1 :: op2 :: rest => (P.int (f op2 op1) :: rest, .complete)
  | _ => ([], .operateError)

def truth (b : Bool) : Int := if b then 1 else 0

/-- The `operate` functions, separators aside. -/
def operate : Operator → List Int → List Int × EvalStatus
  | .logicalOr => binary P fun a b => truth (a ≠ 0 ∨ b ≠ 0)
  | .logicalAnd => binary P fun a b => truth (a ≠ 0 ∧ b ≠ 0)
  | .equals => binary P fun a b => truth (a = b)
  | .higherThan => binary P fun a b => truth (a > b)
  | .lowerThan => binary P fun a b => truth (a < b)
  | .plus => binary P (· + ·)
  | .minus => binary P (· - ·)
  | .time => binary P (· * ·)
  | .divide => fun
    | 0 :: _ :: rest => (rest, .divByZero)
    | operands => binary P Int.tdiv operands
  | .modulo => binary P fun a b => if b = 0 then P.moduloByZero a else Int.tmod a b
  | .not => fun
    | op1 :: rest => (truth (op1 = 0) :: rest, .complete)
    | [] => ([], .operateError)
  | .reference => fun operands => (operands, .operateError)
  | .fSeparator | .oSeparator => fun operands => (operands, .complete)

/-- `operator_FSeparator` once it has popped itself: run the operators down to the
first opening parenthesis, whatever each of them answers. -/
def fSeparator : List Operator → List Int → List Operator × List Int × EvalStatus
  | [], operands => ([], operands, .parseError)
  | .oSeparator :: rest, operands => (rest, operands, .complete)
  | op :: rest, operands => fSeparator rest (operate P op operands).1

/-- Run the waiting operators that bind at least as tightly as `limit`, all but the
separators when there is no limit. -/
def simplify (limit : Option Operator) :
    List Operator → List Int → List Operator × List Int × EvalStatus
  | [], operands => ([], operands, .ready)
  | op :: rest, operands =>
    if (limit.all fun l => op.precedence ≤ l.precedence) ∧ !op.isEarly then
      match operate P op operands with
      | (operands, .complete) => simplify limit rest operands
      | (operands, error) => (rest, operands, error)
    else (op :: rest, operands, .ready)

/-- `eval_add_operator` -/
def evalAddOperator (s : Stack) (operator : Option Operator) : Stack × EvalStatus :=
  match simplify P operator s.operators s.operands with
  | (operators, operands, .ready) =>
    let s := { s with operators, operands }
    match operator with
    | none => (s, .ready)
    | some op =>
      if evalMaxOperators ≤ operators.length then (s, .operatorLifoOvf)
      else match op with
        | .fSeparator =>
          match fSeparator P operators operands with
          | (operators, operands, .complete) => ({ s with operators, operands }, .ready)
          | (operators, operands, error) => ({ s with operators, operands }, error)
        | _ => ({ s with operators := op :: operators }, .ready)
  | (operators, operands, error) => ({ s with operators, operands }, error)

section
variable {σ : Type} (solve : Text → σ → σ × Option Int)

namespace Calculator

/-- `eval_add_operand` -/
def evalAddOperand (m : Calculator σ) (block : Text) : Calculator σ × EvalStatus :=
  let push (m : Calculator σ) (v : Int) : Calculator σ × EvalStatus :=
    if m.stack.operands.length < evalMaxOperands then
      ({ m with stack := { m.stack with operands := v :: m.stack.operands } }, .ready)
    else (m, .operandLifoOvf)
  match block with
  | [] => (m, .emptyOperand)
  | c :: _ =>
    if c = 0 then (m, .emptyOperand)
    else if (c < '0'.toUInt8 ∨ '9'.toUInt8 < c) ∧ c ≠ '-'.toUInt8 then
      match solve block m.env with
      | (env, some v) => push { m with env } v
      | (env, none) => ({ m with env }, .operandParseError)
    else push m (antoi P block)

/-- An error leaves the static index reset. -/
def fail (m : Calculator σ) (error : EvalStatus) : Calculator σ × EvalStatus :=
  ({ m with operandIndex := 0 }, error)

/-- Copy from the block into the window until one of them ends; spaces are dropped
and zero bytes become digits. -/
def copyBlock : Text → Nat → (Nat → UInt8) → Text × Nat × (Nat → UInt8)
  | [], cnt2, buffer => ([], cnt2, buffer)
  | c :: rest, cnt2, buffer =>
    if cnt2 < evalBufferSize then
      if c = 0 then copyBlock rest (cnt2 + 1) (Function.update buffer cnt2 '0'.toUInt8)
      else if c = ' '.toUInt8 then copyBlock rest cnt2 buffer
      else copyBlock rest (cnt2 + 1) (Function.update buffer cnt2 c)
    else (c :: rest, cnt2, buffer)

/-- Fill the window behind the bytes kept from the last turn. An `operandIndex` past
`bufferIndex` wraps to a start behind the window, and nothing is copied. -/
def fillWindow (m : Calculator σ) (block : Text) : Calculator σ × Text :=
  let cnt2 := (m.stack.bufferIndex + 256 - m.operandIndex) % 256
  match copyBlock block cnt2 m.stack.buffer with
  | (rest, cnt2, buffer) =>
    let buffer := if rest = [] ∧ cnt2 < evalBufferSize then Function.update buffer cnt2 0 else buffer
    ({ m with stack := { m.stack with buffer, bufferIndex := 0 }, operandIndex := 0 }, rest)

/-- Evaluate the window up to its end or its first zero byte. -/
def scanWindow : Nat → Calculator σ → Calculator σ × EvalStatus
  | 0, m => (m, .ready)
  | n + 1, m =>
    let s := m.stack
    if s.bufferIndex < evalBufferSize ∧ s.buffer s.bufferIndex ≠ 0 then
      match s.operatorHere with
      | none => scanWindow n { m with stack := { s with bufferIndex := s.bufferIndex + 1 } }
      | some op =>
        match m.evalAddOperand P solve (s.slice m.operandIndex (s.bufferIndex - m.operandIndex)) with
        | (m, .ready) | (m, .emptyOperand) =>
          match evalAddOperator P m.stack (some op) with
          | (s, .ready) =>
            let stop := s.bufferIndex + op.symbol.length
            scanWindow n { m with stack := { s with bufferIndex := stop }, operandIndex := stop }
          | (s, error) => fail { m with stack := s } error
        | (m, error) => fail m error
    else (m, .ready)

/-- A window without operator that is full is taken for an operand. -/
def fullWindow (m : Calculator σ) : Calculator σ × EvalStatus :=
  if m.operandIndex = 0 ∧ evalBufferSize - 1 ≤ m.stack.bufferIndex then
    match m.evalAddOperand P solve (m.stack.slice 0 (evalBufferSize - 1)) with
    | (m, .ready) => ({ m with operandIndex := m.stack.bufferIndex }, .ready)
    | (m, _) => fail m .bufferOvf
  else (m, .ready)

/-- The turns of `evaluate_block` over a block. Each but the first takes a byte from it. -/
def evaluateTurns : Nat → Calculator σ → Text → Calculator σ × EvalStatus
  | 0, m, _ => (m, .ready)
  | _ + 1, m, [] => (m, .ready)
  | n + 1, m, block =>
    let (m, rest) := m.fillWindow block
    match m.scanWindow P solve evalBufferSize with
    | (m, .ready) =>
      match m.fullWindow P solve with
      | (m, .ready) =>
        evaluateTurns n { m with stack := m.stack.moveTrailing m.operandIndex } rest
      | (m, error) => (m, error)
    | (m, error) => (m, error)

/-- `evaluate_block` without `result` -/
def evaluateBlock (m : Calculator σ) (block : Text) : Calculator σ × EvalStatus :=
  evaluateTurns P solve (block.length + 1) m block

/-- `evaluate_block` with an empty block and a `result` -/
def evaluateResult (m : Calculator σ) : Calculator σ × EvalStatus × Option Int :=
  let s := m.stack
  let last := if m.operandIndex < s.bufferIndex then
      m.evalAddOperand P solve (s.slice m.operandIndex (s.bufferIndex - m.operandIndex))
    else (m, .ready)
  match last with
  | (m, .ready) =>
    let m := { m with operandIndex := 0 }
    match evalAddOperator P m.stack none with
    | (s, .ready) =>
      match s.operands with
      | [v] => ({ m with stack := { s with operands := [] }.clean }, .complete, some v)
      | _ :: _ :: rest => ({ m with stack := { s with operands := rest } }, .parseError, none)
      | [] => ({ m with stack := s }, .parseError, none)
    | (s, error) => ({ m with stack := s }, error, none)
  | (m, error) => ({ m with operandIndex := 0 }, error, none)

end Calculator
end
end
end EmmaNode

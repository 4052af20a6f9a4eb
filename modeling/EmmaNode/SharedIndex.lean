import EmmaNode.EvaluatorFrame

/-! Two stacks and one static `operandIndex`. The client and the local resources evaluate
on stacks of their own, but `evaluate_block` keeps where the last operand began in a variable
that both share. Interleaved evaluations are independent as long as a stack finds that
variable as its own last call has left it. -/

namespace EmmaNode

inductive EvalCall where
  | clean
  | evaluate (block : Text) (last : Bool)
  deriving DecidableEq

inductive Side where
  | client
  | localRoot
  deriving DecidableEq

abbrev Answer := EvalStatus × Option Int

section
variable (P : Platform) {σ : Type} (solve : Side → Text → σ → σ × Option Int)

/-- `clean_stack` leaves the static variable alone, `evaluate_block` with a result goes on
to it when the block had no error. -/
def Calculator.perform (solve : Text → σ → σ × Option Int) (m : Calculator σ) :
    EvalCall → Calculator σ × Answer
  | .clean => ({ m with stack := m.stack.clean }, .ready, none)
  | .evaluate block last =>
    match m.evaluateBlock P solve block with
    | (m, .ready) => if last then m.evaluateResult P solve else (m, .ready, none)
    | (m, error) => (m, error, none)

def Calculator.performAll (solve : Text → σ → σ × Option Int) :
    List EvalCall → Calculator σ → Calculator σ × List Answer
  | [], m => (m, [])
  | call :: rest, m =>
    let (m, answer) := m.perform P solve call
    let (m, answers) := Calculator.performAll solve rest m
    (m, answer :: answers)

structure Bench (σ : Type) where
  stack : Side → Stack
  env : Side → σ
  operandIndex : Nat

namespace Bench

def calculator (b : Bench σ) (d : Side) : Calculator σ := ⟨b.stack d, b.operandIndex, b.env d⟩

def put (b : Bench σ) (d : Side) (m : Calculator σ) : Bench σ :=
  ⟨Function.update b.stack d m.stack, Function.update b.env d m.env, m.operandIndex⟩

def perform (b : Bench σ) (d : Side) (call : EvalCall) : Bench σ × Answer :=
  let (m, answer) := (b.calculator d).perform P (solve d) call
  (b.put d m, answer)

def performAll : List (Side × EvalCall) → Bench σ → Bench σ × List (Side × Answer)
  | [], b => (b, [])
  | (d, call) :: rest, b =>
    let (b, answer) := b.perform P solve d call
    let (b, answers) := performAll rest b
    (b, (d, answer) :: answers)

def InTurn : List (Side × EvalCall) → (Side → Nat) → Bench σ → Prop
  | [], _, _ => True
  | (d, call) :: rest, left, b =>
    (call = .clean ∨ b.operandIndex = left d) ∧
      InTurn rest (if call = .clean then left
        else Function.update left d (b.perform P solve d call).1.operandIndex)
        (b.perform P solve d call).1

end Bench
end

def Side.own {α : Type} (d : Side) (l : List (Side × α)) : List α :=
  l.filterMap fun x => if x.1 = d then some x.2 else none

@[simp] theorem Side.own_nil {α : Type} (d : Side) : d.own ([] : List (Side × α)) = [] := rfl

theorem Side.own_self {α : Type} (d : Side) (x : α) (l : List (Side × α)) :
    d.own ((d, x) :: l) = x :: d.own l := by simp [own]

theorem Side.own_other {α : Type} {d e : Side} (h : e ≠ d) (x : α) (l : List (Side × α)) :
    d.own ((e, x) :: l) = d.own l := by simp [own, h]

section
variable {P : Platform} {σ : Type} {solve : Side → Text → σ → σ × Option Int}

theorem Calculator.perform_clean (solve : Text → σ → σ × Option Int) (m : Calculator σ) :
    m.perform P solve .clean = ({ m with stack := m.stack.clean }, .ready, none) := rfl

namespace Bench

theorem performAll_alone (calls : List (Side × EvalCall)) (left : Side → Nat) (b : Bench σ)
    (turn : InTurn P solve calls left b) (d : Side) :
    let alone := Calculator.performAll P (solve d) (d.own calls) ⟨b.stack d, left d, b.env d⟩
    d.own (performAll P solve calls b).2 = alone.2 ∧
      (performAll P solve calls b).1.stack d = alone.1.stack ∧
      (performAll P solve calls b).1.env d = alone.1.env := by
  induction calls generalizing left b with
  | nil => exact ⟨rfl, rfl, rfl⟩
  | cons call rest ih =>
    obtain ⟨e, call⟩ := call
    obtain ⟨now, later⟩ := turn
    obtain ⟨answers, stack, env⟩ := ih _ _ later
    simp only [performAll]
    by_cases own : e = d
    case neg =>
      -- a call of the other side
      have stack' : (b.perform P solve e call).1.stack d = b.stack d :=
        Function.update_of_ne (Ne.symm own) _ _
      have env' : (b.perform P solve e call).1.env d = b.env d :=
        Function.update_of_ne (Ne.symm own) _ _
      have left' : (if call = .clean then left
          else Function.update left e (b.perform P solve e call).1.operandIndex) d = left d := by
        split
        · rfl
        · exact Function.update_of_ne (Ne.symm own) _ _
      rw [stack', env', left'] at answers stack env
      rw [Side.own_other own, Side.own_other own]
      exact ⟨answers, stack, env⟩
    subst own
    rw [Side.own_self, Side.own_self, Calculator.performAll]
    have stack' (m : Calculator σ) : (b.put e m).stack e = m.stack := Function.update_self ..
    have env' (m : Calculator σ) : (b.put e m).env e = m.env := Function.update_self ..
    by_cases clean : call = .clean
    · subst clean
      simp only [perform, Calculator.perform_clean, if_true, stack', env'] at answers stack env
      simp only [perform, Calculator.perform_clean]
      exact ⟨by rw [answers]; rfl, stack, env⟩
    · have same : b.calculator e = ⟨b.stack e, left e, b.env e⟩ := by
        rw [calculator, now.resolve_left clean]
      simp only [perform, same, if_neg clean, Function.update_self, stack', env'] at answers stack env
      simp only [perform, same]
      exact ⟨by rw [answers]; rfl, stack, env⟩

def start (b : Bench σ) : Bench σ := { b with stack := fun d => (b.stack d).clean }

/-- Interleaved evaluations on clean stacks are independent of each other when each finds
the shared variable as its side has left it, and zero at first. -/
theorem independent (calls : List (Side × EvalCall)) (b : Bench σ)
    (turn : InTurn P solve calls (fun _ => 0) b.start) (d : Side) :
    let alone := Calculator.performAll P (solve d) (d.own calls) ⟨(b.stack d).clean, 0, b.env d⟩
    d.own (performAll P solve calls b.start).2 = alone.2 ∧
      (performAll P solve calls b.start).1.stack d = alone.1.stack ∧
      (performAll P solve calls b.start).1.env d = alone.1.env :=
  performAll_alone calls (fun _ => 0) b.start turn d

end Bench

end

def Bench.fresh : Bench Unit := ⟨fun _ => .init, fun _ => (), 0⟩

def noReference (_ : Side) (_ : Text) (e : Unit) : Unit × Option Int := (e, none)

def inTurnCalls : List (Side × EvalCall) :=
  [(.localRoot, .evaluate (chars ['1', '+', '1']) true), (.client, .evaluate (chars ['2']) true)]

theorem independent_inTurn :
    Side.own .client (Bench.performAll .plain noReference inTurnCalls Bench.fresh.start).2 =
      [(.complete, some 2)] := by
  have turn : Bench.InTurn .plain noReference inTurnCalls (fun _ => 0) Bench.fresh.start :=
    ⟨.inr rfl, .inr (by decide +kernel), trivial⟩
  refine (Bench.independent inTurnCalls Bench.fresh turn .client).1.trans ?_
  decide +kernel

/-- The client's `5` between `1+` and `2` of a local resource resets the variable, so that
`1+` is read again. -/
theorem dependent : ¬ ∀ (P : Platform) (σ : Type) (solve : Side → Text → σ → σ × Option Int)
    (calls : List (Side × EvalCall)) (b : Bench σ) (d : Side), b.operandIndex = 0 →
    d.own (Bench.performAll P solve calls b.start).2 =
      (Calculator.performAll P (solve d) (d.own calls) ⟨(b.stack d).clean, 0, b.env d⟩).2 := by
  intro h
  have same := h .plain Unit noReference
    [(.localRoot, .evaluate (chars ['1', '+']) false), (.client, .evaluate (chars ['5']) true),
      (.localRoot, .evaluate (chars ['2']) true)]
    Bench.fresh .localRoot rfl
  revert same
  decide +kernel

end EmmaNode

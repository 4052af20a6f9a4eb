import EmmaNode.EvaluatorFrame

/-! An expression as a text. It is read from its first operator to the next, with what
stands in between for operands; the calculator sees the same operators and operands as long
as it keeps every operand whole. What has been read is two stacks and the state of the solver. -/

namespace EmmaNode

def symbolAt (q : Text) : Option Operator :=
  Operator.all.find? fun op => q.take op.symbol.length = op.symbol

def firstOperator : Text → Option (Text × Operator × Text)
  | [] => none
  | c :: rest =>
    match symbolAt (c :: rest) with
    | some op => some ([], op, (c :: rest).drop op.symbol.length)
    | none => (firstOperator rest).map fun (p, op, rest) => (c :: p, op, rest)

theorem symbolAt_spelled {q : Text} {op : Operator} (h : symbolAt q = some op) :
    q = op.symbol ++ q.drop op.symbol.length := by
  have spelled : q.take op.symbol.length = op.symbol := by simpa using List.find?_some h
  conv_lhs => rw [← List.take_append_drop op.symbol.length q, spelled]

theorem symbolAt_append (op : Operator) (rest : Text) : symbolAt (op.symbol ++ rest) = some op := by
  cases op <;> rfl

theorem firstOperator_symbol (op : Operator) (rest : Text) :
    firstOperator (op.symbol ++ rest) = some ([], op, rest) := by
  cases op <;> rfl

theorem firstOperator_eq {q p rest : Text} {op : Operator}
    (h : firstOperator q = some (p, op, rest)) : q = p ++ op.symbol ++ rest := by
  induction q generalizing p with
  | nil => cases h
  | cons c q ih =>
    rw [firstOperator] at h
    split at h
    · rename_i here
      cases h
      simpa using symbolAt_spelled here
    · obtain ⟨⟨p', op', rest'⟩, hq, e⟩ := Option.map_eq_some_iff.mp h
      cases e
      rw [ih hq]
      simp

theorem firstOperator_length {q p rest : Text} {op : Operator}
    (h : firstOperator q = some (p, op, rest)) : rest.length < q.length := by
  have size := congrArg List.length (firstOperator_eq h)
  have := op.length_symbol_pos
  simp only [List.length_append] at size
  omega

theorem symbolAt_some {q : Text} {op : Operator} (h : symbolAt q = some op) (t : Text) :
    symbolAt (q ++ t) = some op := by
  rw [symbolAt_spelled h, List.append_assoc]
  exact symbolAt_append op _

theorem symbolAt_none {q : Text} (h : symbolAt q = none) (long : 2 ≤ q.length) (t : Text) :
    symbolAt (q ++ t) = none := by
  cases hs : symbolAt (q ++ t) with
  | none => rfl
  | some op =>
    have spelled : (q ++ t).take op.symbol.length = op.symbol := by
      simpa using List.find?_some hs
    have short := op.length_symbol_le
    rw [List.take_append_of_le_length (by omega)] at spelled
    have found := symbolAt_append op (q.drop op.symbol.length)
    have same : op.symbol ++ q.drop op.symbol.length = q := by
      conv_rhs => rw [← List.take_append_drop op.symbol.length q, spelled]
    rw [same, h] at found
    cases found

theorem firstOperator_append {q p rest : Text} {op : Operator}
    (h : firstOperator q = some (p, op, rest)) (t : Text) :
    firstOperator (q ++ t) = some (p, op, rest ++ t) := by
  induction q generalizing p with
  | nil => cases h
  | cons c q ih =>
    rw [firstOperator] at h
    rw [List.cons_append, firstOperator, ← List.cons_append]
    split at h
    · rename_i op' here
      cases h
      have inside := congrArg List.length (symbolAt_spelled here)
      rw [List.length_append] at inside
      rw [symbolAt_some here]
      simp only
      rw [List.drop_append_of_le_length (by omega)]
    · rename_i other
      obtain ⟨⟨p', op', rest'⟩, hq, e⟩ := Option.map_eq_some_iff.mp h
      cases e
      have long : 2 ≤ (c :: q).length := by
        have := firstOperator_length hq
        rw [List.length_cons]
        omega
      rw [symbolAt_none other long, ih hq]
      rfl

def leftFrom : Nat → Text → Text
  | 0, q => q
  | n + 1, q =>
    match firstOperator q with
    | none => q
    | some (_, _, rest) => leftFrom n rest

def left (q : Text) : Text := leftFrom q.length q

def Complete (w t : Text) : Prop :=
  match firstOperator (w ++ t) with
  | some (p, _, _) => p = w
  | none => t = []

instance (w t : Text) : Decidable (Complete w t) := by
  unfold Complete
  split <;> infer_instance

structure Accum (σ : Type) where
  operators : List Operator
  operands : List Int
  env : σ

section
variable {σ : Type}

def Accum.empty (env : σ) : Accum σ := ⟨[], [], env⟩

def Calculator.accum (m : Calculator σ) : Accum σ := ⟨m.stack.operators, m.stack.operands, m.env⟩

def Calculator.put (m : Calculator σ) (a : Accum σ) : Calculator σ :=
  { m with env := a.env, stack := { m.stack with operators := a.operators, operands := a.operands } }

@[simp] theorem Calculator.put_accum (m : Calculator σ) (a : Accum σ) : (m.put a).accum = a := rfl

@[simp] theorem Calculator.put_operandIndex (m : Calculator σ) (a : Accum σ) :
    (m.put a).operandIndex = m.operandIndex := rfl

@[simp] theorem Calculator.put_bufferIndex (m : Calculator σ) (a : Accum σ) :
    (m.put a).stack.bufferIndex = m.stack.bufferIndex := rfl

@[simp] theorem Calculator.put_buffer (m : Calculator σ) (a : Accum σ) :
    (m.put a).stack.buffer = m.stack.buffer := rfl

namespace Accum

def calculator (a : Accum σ) : Calculator σ := ⟨⟨a.operators, a.operands, fun _ => 0, 0⟩, 0, a.env⟩

variable (P : Platform) (solve : Text → σ → σ × Option Int)

def addOperand (a : Accum σ) (p : Text) : Accum σ × EvalStatus :=
  let (m, status) := a.calculator.evalAddOperand P solve p
  (m.accum, status)

def addOperator (a : Accum σ) (op : Option Operator) : Accum σ × EvalStatus :=
  let (s, status) := evalAddOperator P a.calculator.stack op
  ({ a with operators := s.operators, operands := s.operands }, status)

def token (a : Accum σ) (p : Text) (op : Operator) : Option (Accum σ) :=
  match a.addOperand P solve p with
  | (a, .ready) | (a, .emptyOperand) =>
    match a.addOperator P (some op) with
    | (a, .ready) => some a
    | _ => none
  | _ => none

def readFrom : Nat → Accum σ → Text → Option (Accum σ × Text)
  | 0, a, q => some (a, q)
  | n + 1, a, q =>
    match firstOperator q with
    | none => some (a, q)
    | some (p, op, rest) => (a.token P solve p op).bind fun a => readFrom n a rest

def read (a : Accum σ) (q : Text) : Option (Accum σ × Text) := readFrom P solve q.length a q

def finish (a : Accum σ) (p : Text) : Option Int :=
  match if p = [] then (a, .ready) else a.addOperand P solve p with
  | (a, .ready) =>
    match a.addOperator P none with
    | (a, .ready) =>
      match a.operands with
      | [v] => some v
      | _ => none
    | _ => none
  | _ => none

def outcome (a : Accum σ) (q : Text) : Option Int :=
  (a.read P solve q).bind fun (a, p) => a.finish P solve p

variable {P : Platform} {solve : Text → σ → σ × Option Int}

theorem readFrom_enough (n m : Nat) (a : Accum σ) (q : Text) (hn : q.length ≤ n)
    (hm : q.length ≤ m) : a.readFrom P solve n q = a.readFrom P solve m q := by
  induction n generalizing m a q with
  | zero =>
    obtain rfl : q = [] := List.length_eq_zero_iff.mp (by omega)
    cases m <;> rfl
  | succ n ih =>
    cases m with
    | zero =>
      obtain rfl : q = [] := List.length_eq_zero_iff.mp (by omega)
      rfl
    | succ m =>
      simp only [readFrom]
      cases hq : firstOperator q with
      | none => rfl
      | some found =>
        obtain ⟨p, op, rest⟩ := found
        have shorter := firstOperator_length hq
        simp only
        congr 1
        funext a
        exact ih m a rest (by omega) (by omega)

theorem read_none {a : Accum σ} {q : Text} (h : firstOperator q = none) :
    a.read P solve q = some (a, q) := by
  rw [read]
  cases q with
  | nil => rfl
  | cons c q => rw [List.length_cons, readFrom, h]

theorem read_some {a : Accum σ} {q p rest : Text} {op : Operator}
    (h : firstOperator q = some (p, op, rest)) :
    a.read P solve q = (a.token P solve p op).bind fun a => a.read P solve rest := by
  have shorter := firstOperator_length h
  obtain ⟨n, hn⟩ : ∃ n, q.length = n + 1 := ⟨q.length - 1, by omega⟩
  rw [read, hn, readFrom, h]
  simp only
  congr 1
  funext a
  exact readFrom_enough n rest.length a rest (by omega) (Nat.le_refl _)

theorem readFrom_left {n : Nat} {a a' : Accum σ} {q p : Text} (enough : q.length ≤ n)
    (h : a.readFrom P solve n q = some (a', p)) : p = leftFrom n q ∧ firstOperator p = none := by
  induction n generalizing a q with
  | zero =>
    obtain rfl : q = [] := List.length_eq_zero_iff.mp (by omega)
    cases h
    exact ⟨rfl, rfl⟩
  | succ n ih =>
    simp only [readFrom, leftFrom] at h ⊢
    cases hq : firstOperator q with
    | none =>
      rw [hq] at h
      cases h
      exact ⟨rfl, hq⟩
    | some found =>
      obtain ⟨p', op, rest⟩ := found
      rw [hq] at h
      obtain ⟨b, -, hb⟩ := Option.bind_eq_some_iff.mp h
      have shorter := firstOperator_length hq
      exact ih (by omega) hb

theorem read_left {a a' : Accum σ} {q p : Text} (h : a.read P solve q = some (a', p)) :
    p = left q ∧ firstOperator p = none := readFrom_left (Nat.le_refl _) h

theorem read_append (a : Accum σ) (q t : Text) :
    a.read P solve (q ++ t) = (a.read P solve q).bind fun (a, p) => a.read P solve (p ++ t) := by
  induction hn : q.length using Nat.strongRecOn generalizing a q with
  | ind n ih =>
    cases hq : firstOperator q with
    | none =>
      rw [read_none hq]
      rfl
    | some found =>
      obtain ⟨p, op, rest⟩ := found
      have shorter := firstOperator_length hq
      rw [read_some hq, read_some (firstOperator_append hq t), Option.bind_assoc]
      congr 1
      funext a
      exact ih rest.length (by omega) a rest rfl

theorem outcome_append (a : Accum σ) (q t : Text) :
    a.outcome P solve (q ++ t) =
      (a.read P solve q).bind fun (a, p) => a.outcome P solve (p ++ t) := by
  rw [outcome, read_append, Option.bind_assoc]
  rfl

theorem outcome_none {a : Accum σ} {q : Text} (h : firstOperator q = none) :
    a.outcome P solve q = a.finish P solve q := by
  rw [outcome, read_none h]
  rfl

theorem outcome_some {a : Accum σ} {q p rest : Text} {op : Operator}
    (h : firstOperator q = some (p, op, rest)) :
    a.outcome P solve q = (a.token P solve p op).bind fun a => a.outcome P solve rest := by
  rw [outcome, read_some h, Option.bind_assoc]
  rfl

theorem addOperand_nil (a : Accum σ) : a.addOperand P solve [] = (a, .emptyOperand) := rfl

theorem addOperand_filled (a : Accum σ) {c : UInt8} {rest : Text} (hc : c ≠ 0) :
    (a.addOperand P solve (c :: rest)).2 ≠ .emptyOperand := by
  unfold addOperand Calculator.evalAddOperand
  simp only [if_neg hc]
  split_ifs
  · rcases solve (c :: rest) a.calculator.env with ⟨env, _ | v⟩ <;> simp
  · rcases solve (c :: rest) a.calculator.env with ⟨env, _ | v⟩ <;> simp
  · simp
  · simp

theorem addOperand_status (a : Accum σ) (p : Text) : (a.addOperand P solve p).2 ≠ .complete := by
  unfold addOperand Calculator.evalAddOperand
  cases p with
  | nil => simp
  | cons c rest =>
    simp only
    split_ifs
    · simp
    · rcases solve (c :: rest) a.calculator.env with ⟨env, _ | v⟩ <;> simp
    · rcases solve (c :: rest) a.calculator.env with ⟨env, _ | v⟩ <;> simp
    · simp
    · simp

theorem simplify_status (P : Platform) (limit : Option Operator) (operators : List Operator)
    (operands : List Int) : (simplify P limit operators operands).2.2 ≠ .complete := by
  induction operators generalizing operands with
  | nil => simp [simplify]
  | cons op rest ih =>
    rw [simplify]
    split
    · rcases operate P op operands with ⟨operands, status⟩
      cases status
      case complete => exact ih operands
      all_goals simp
    · simp

theorem addOperator_status (a : Accum σ) (op : Option Operator) :
    (a.addOperator P op).2 ≠ .complete := by
  have simplified := simplify_status P op a.operators a.operands
  unfold addOperator evalAddOperator
  simp only [calculator]
  generalize simplify P op a.operators a.operands = reduced at *
  obtain ⟨operators, operands, status⟩ := reduced
  cases status
  case complete => exact absurd rfl simplified
  case ready =>
    cases op with
    | none => simp
    | some op =>
      simp only
      split
      · simp
      · cases op
        case fSeparator =>
          simp only
          generalize fSeparator P operators operands = closed
          obtain ⟨operators, operands, status⟩ := closed
          cases status <;> simp
        all_goals simp
  all_goals simp

theorem outcome_complete {a : Accum σ} {c : UInt8} {w t : Text} (hc : c ≠ 0)
    (bare : firstOperator (c :: w) = none) (h : Complete (c :: w) t) :
    a.outcome P solve (c :: w ++ t) =
      match a.addOperand P solve (c :: w) with
      | (a, .ready) => a.outcome P solve t
      | _ => none := by
  have filled := @addOperand_filled σ P solve a c w hc
  unfold Complete at h
  split at h
  · rename_i p op rest first
    subst h
    have split : t = op.symbol ++ rest := by
      have := firstOperator_eq first
      rw [List.append_assoc] at this
      exact List.append_cancel_left this
    have next : firstOperator t = some ([], op, rest) := by
      rw [split]
      exact firstOperator_symbol op rest
    rw [outcome_some first, token]
    revert filled
    rcases a.addOperand P solve (c :: w) with ⟨b, status⟩
    intro filled
    cases status
    case ready =>
      simp only
      rw [outcome_some next, token, addOperand_nil]
    case emptyOperand => exact absurd rfl filled
    all_goals rfl
  · subst h
    rw [List.append_nil, outcome_none bare, finish, if_neg (by simp)]
    rcases a.addOperand P solve (c :: w) with ⟨b, status⟩
    cases status
    case ready =>
      simp only
      rw [outcome_none rfl, finish, if_pos rfl]
    all_goals rfl

end Accum
end
end EmmaNode

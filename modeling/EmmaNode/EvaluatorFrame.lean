import EmmaNode.Evaluator

/-! What an evaluation depends on. Between two blocks these are the stacks, the indices and
the bytes of the window in front of `bufferIndex`; what the window holds behind them is read
by nobody before it is written. Two evaluations that start alike, with solvers that answer
alike, go on alike, with states of the solvers that may differ. -/

namespace EmmaNode

section
variable {σ τ : Type}

/-- Two calculators with the same stacks and indices, related windows and related states of
their solvers. -/
structure Calculator.Alike (R : σ → τ → Prop) (B : (Nat → UInt8) → (Nat → UInt8) → Prop)
    (m : Calculator σ) (m' : Calculator τ) : Prop where
  operators : m'.stack.operators = m.stack.operators
  operands : m'.stack.operands = m.stack.operands
  bufferIndex : m'.stack.bufferIndex = m.stack.bufferIndex
  operandIndex : m'.operandIndex = m.operandIndex
  env : R m.env m'.env
  buffer : B m.stack.buffer m'.stack.buffer

def Upto (n : Nat) (b b' : Nat → UInt8) : Prop := ∀ i < n, b' i = b i

def Window (b b' : Nat → UInt8) : Prop :=
  ∀ i < evalBufferSize, (∀ j < i, b j ≠ 0) → b' i = b i

def Solvers (R : σ → τ → Prop) (solve : Text → σ → σ × Option Int)
    (solve' : Text → τ → τ × Option Int) : Prop :=
  ∀ reference e e', R e e' →
    R (solve reference e).1 (solve' reference e').1 ∧ (solve' reference e').2 = (solve reference e).2

/-- Alike between two blocks -/
structure Calculator.Between (R : σ → τ → Prop) (m : Calculator σ) (m' : Calculator τ) : Prop where
  alike : Calculator.Alike R (Upto m.stack.bufferIndex) m m'
  index_le : m.operandIndex ≤ m.stack.bufferIndex
  bufferIndex_le : m.stack.bufferIndex ≤ evalBufferSize

structure Calculator.Reading (R : σ → τ → Prop) (m : Calculator σ) (m' : Calculator τ) : Prop where
  alike : Calculator.Alike R Window m m'
  seen : ∀ j < m.stack.bufferIndex, m.stack.buffer j ≠ 0
  index_le : m.operandIndex ≤ m.stack.bufferIndex
  bufferIndex_le : m.stack.bufferIndex ≤ evalBufferSize

namespace Operator

theorem length_symbol_le (op : Operator) : op.symbol.length ≤ 2 := by
  cases op <;> decide

theorem length_symbol_pos (op : Operator) : 0 < op.symbol.length := by
  cases op <;> decide

theorem symbol_large (op : Operator) : ∀ c ∈ op.symbol, evalBufferSize < c.toNat := by
  have printable : (op.symbol.all fun c => evalBufferSize < c.toNat) = true := by
    cases op <;> rfl
  simpa using printable

end Operator

namespace Stack

theorem slice_congr {s t : Stack} (index : t.bufferIndex = s.bufferIndex) {start size : Nat}
    (h : ∀ i < start + size, i < evalBufferSize → t.buffer i = s.buffer i) :
    t.slice start size = s.slice start size := by
  refine List.map_congr_left fun i hi => ?_
  have hi : i < size := List.mem_range.mp hi
  unfold byte
  split
  · rename_i inside
    exact h (start + i) (by omega) inside
  · rw [index]

theorem operatorHere_inside {s : Stack} {op : Operator} (h : s.operatorHere = some op)
    (inside : s.bufferIndex < evalBufferSize) :
    s.bufferIndex + op.symbol.length ≤ evalBufferSize ∧
      ∀ j < op.symbol.length, s.buffer (s.bufferIndex + j) ≠ 0 := by
  have spelled : s.slice s.bufferIndex op.symbol.length = op.symbol := by
    simpa using List.find?_some h
  have large : ∀ j < op.symbol.length, evalBufferSize < (s.byte (s.bufferIndex + j)).toNat := by
    intro j hj
    refine op.symbol_large _ ?_
    rw [← spelled]
    exact List.mem_map.mpr ⟨j, List.mem_range.mpr hj, rfl⟩
  have within : ∀ j < op.symbol.length, s.bufferIndex + j < evalBufferSize := by
    intro j hj
    by_contra outside
    have last := large j hj
    simp only [byte, if_neg outside] at last
    have := Nat.mod_le s.bufferIndex (2 ^ 8)
    simp only [Nat.toUInt8, UInt8.toNat_ofNat'] at last
    omega
  constructor
  · have := within (op.symbol.length - 1) (by have := op.length_symbol_pos; omega)
    have := op.length_symbol_pos
    omega
  · intro j hj zero
    have := large j hj
    simp [byte, if_pos (within j hj), zero] at this

end Stack

/-! ### One turn of the scan, and one pass -/

namespace Calculator
section
variable (P : Platform) (solve : Text → σ → σ × Option Int)

def addScanned (op : Operator) (m : Calculator σ) : Calculator σ × EvalStatus :=
  match evalAddOperator P m.stack (some op) with
  | (s, .ready) =>
    let stop := s.bufferIndex + op.symbol.length
    ({ m with stack := { s with bufferIndex := stop }, operandIndex := stop }, .ready)
  | (s, error) => fail { m with stack := s } error

/-- One turn at `bufferIndex`: go on by a byte, or evaluate the operand and the operator that
ends it. -/
def scanStep (m : Calculator σ) : Calculator σ × EvalStatus :=
  let s := m.stack
  match s.operatorHere with
  | none => ({ m with stack := { s with bufferIndex := s.bufferIndex + 1 } }, .ready)
  | some op =>
    match m.evalAddOperand P solve (s.slice m.operandIndex (s.bufferIndex - m.operandIndex)) with
    | (m, .ready) | (m, .emptyOperand) => m.addScanned P op
    | (m, error) => fail m error

def Scanning (s : Stack) : Prop := s.bufferIndex < evalBufferSize ∧ s.buffer s.bufferIndex ≠ 0

instance (s : Stack) : Decidable (Scanning s) := inferInstanceAs (Decidable (_ ∧ _))

theorem scanWindow_succ (n : Nat) (m : Calculator σ) : m.scanWindow P solve (n + 1) =
    if Scanning m.stack then
      match m.scanStep P solve with
      | (m, .ready) => m.scanWindow P solve n
      | other => other
    else (m, .ready) := by
  rw [scanWindow]
  by_cases scanning : Scanning m.stack
  · have going : m.stack.bufferIndex < evalBufferSize ∧
        m.stack.buffer m.stack.bufferIndex ≠ 0 := scanning
    simp only [if_pos going, if_pos scanning]
    rw [scanStep]
    cases m.stack.operatorHere with
    | none => rfl
    | some op =>
      simp only
      rcases m.evalAddOperand P solve _ with ⟨m₁, status⟩
      cases status
      case ready | emptyOperand =>
        simp only [addScanned]
        rcases evalAddOperator P m₁.stack (some op) with ⟨s, status⟩
        cases status <;> rfl
      all_goals rfl
  · have done : ¬(m.stack.bufferIndex < evalBufferSize ∧
        m.stack.buffer m.stack.bufferIndex ≠ 0) := scanning
    simp only [if_neg done, if_neg scanning]

/-- One pass of `evaluate_block` over the window, with what it leaves of the block -/
def evaluatePass (m : Calculator σ) (block : Text) : Calculator σ × EvalStatus × Text :=
  let (m, rest) := m.fillWindow block
  match m.scanWindow P solve evalBufferSize with
  | (m, .ready) =>
    match m.fullWindow P solve with
    | (m, .ready) => ({ m with stack := m.stack.moveTrailing m.operandIndex }, .ready, rest)
    | (m, error) => (m, error, rest)
  | (m, error) => (m, error, rest)

theorem evaluateTurns_succ (n : Nat) (m : Calculator σ) (c : UInt8) (block : Text) :
    m.evaluateTurns P solve (n + 1) (c :: block) =
      match m.evaluatePass P solve (c :: block) with
      | (m, .ready, rest) => m.evaluateTurns P solve n rest
      | (m, error, _) => (m, error) := by
  simp only [evaluateTurns, evaluatePass]
  rcases m.fillWindow (c :: block) with ⟨m₁, rest⟩
  simp only
  rcases m₁.scanWindow P solve evalBufferSize with ⟨m₂, status⟩
  cases status
  case ready =>
    simp only
    rcases m₂.fullWindow P solve with ⟨m₃, status⟩
    cases status <;> rfl
  all_goals rfl

end
end Calculator

namespace Calculator
variable {R : σ → τ → Prop} {m : Calculator σ} {m' : Calculator τ}

theorem Reading.upto (h : Reading R m m') : Upto m.stack.bufferIndex m.stack.buffer m'.stack.buffer :=
  fun i hi => h.alike.buffer i (Nat.lt_of_lt_of_le hi h.bufferIndex_le)
    fun j hj => h.seen j (Nat.lt_trans hj hi)

theorem Reading.between (h : Reading R m m') : Between R m m' where
  alike := { h.alike with buffer := h.upto }
  index_le := h.index_le
  bufferIndex_le := h.bufferIndex_le

theorem Reading.operatorHere (h : Reading R m m') (byte : m.stack.buffer m.stack.bufferIndex ≠ 0) :
    m'.stack.operatorHere = m.stack.operatorHere := by
  unfold Stack.operatorHere
  congr 1
  funext op
  have short := op.length_symbol_le
  rw [h.alike.bufferIndex, Stack.slice_congr h.alike.bufferIndex fun i hi inside => ?_]
  refine h.alike.buffer i inside fun j hj => ?_
  rcases Nat.lt_or_eq_of_le (show j ≤ m.stack.bufferIndex by omega) with before | rfl
  · exact h.seen j before
  · exact byte

end Calculator
end

section
variable {P : Platform} {σ τ : Type} {R : σ → τ → Prop}
variable {solve : Text → σ → σ × Option Int} {solve' : Text → τ → τ × Option Int}

theorem evalAddOperator_congr (P : Platform) {s t : Stack} (operators : t.operators = s.operators)
    (operands : t.operands = s.operands) (op : Option Operator) :
    (evalAddOperator P s op).1 = { s with
      operators := (evalAddOperator P s op).1.operators
      operands := (evalAddOperator P s op).1.operands } ∧
    evalAddOperator P t op = ({ t with
      operators := (evalAddOperator P s op).1.operators
      operands := (evalAddOperator P s op).1.operands }, (evalAddOperator P s op).2) := by
  obtain ⟨_, _, buffer, bufferIndex⟩ := s
  obtain ⟨ops, opds, buffer', bufferIndex'⟩ := t
  simp only at operators operands
  subst operators operands
  unfold evalAddOperator
  simp only
  rcases simplify P op ops opds with ⟨ops, opds, status⟩
  cases status <;> try exact ⟨rfl, rfl⟩
  cases op with
  | none => exact ⟨rfl, rfl⟩
  | some op =>
    simp only
    split
    · exact ⟨rfl, rfl⟩
    · cases op <;> try exact ⟨rfl, rfl⟩
      simp only
      rcases fSeparator P ops opds with ⟨ops, opds, status⟩
      cases status <;> exact ⟨rfl, rfl⟩

namespace Calculator
variable {B : (Nat → UInt8) → (Nat → UInt8) → Prop} {m : Calculator σ} {m' : Calculator τ}

theorem evalAddOperand_frame (solve : Text → σ → σ × Option Int) (m : Calculator σ) (block : Text) :
    (m.evalAddOperand P solve block).1.stack.buffer = m.stack.buffer ∧
    (m.evalAddOperand P solve block).1.stack.bufferIndex = m.stack.bufferIndex ∧
    (m.evalAddOperand P solve block).1.operandIndex = m.operandIndex := by
  unfold evalAddOperand
  cases block with
  | nil => exact ⟨rfl, rfl, rfl⟩
  | cons c rest =>
    simp only
    split
    · exact ⟨rfl, rfl, rfl⟩
    split
    · rcases solve (c :: rest) m.env with ⟨e, _ | v⟩
      · exact ⟨rfl, rfl, rfl⟩
      · simp only
        split <;> exact ⟨rfl, rfl, rfl⟩
    · split <;> exact ⟨rfl, rfl, rfl⟩

theorem evalAddOperand_alike (solvers : Solvers R solve solve') (h : Alike R B m m') (block : Text) :
    Alike R B (m.evalAddOperand P solve block).1 (m'.evalAddOperand P solve' block).1 ∧
    (m'.evalAddOperand P solve' block).2 = (m.evalAddOperand P solve block).2 := by
  unfold evalAddOperand
  cases block with
  | nil => exact ⟨h, rfl⟩
  | cons c rest =>
    simp only [h.operands]
    split
    · exact ⟨h, rfl⟩
    split
    · obtain ⟨env, value⟩ := solvers (c :: rest) _ _ h.env
      revert env value
      rcases solve (c :: rest) m.env with ⟨e, v⟩
      rcases solve' (c :: rest) m'.env with ⟨e', v'⟩
      rintro env rfl
      cases v' with
      | none => exact ⟨{ h with env := env }, rfl⟩
      | some v =>
        simp only
        split
        · exact ⟨{ h with env := env, operands := rfl }, rfl⟩
        · exact ⟨{ h with env := env }, rfl⟩
    · split
      · exact ⟨{ h with operands := rfl }, rfl⟩
      · exact ⟨h, rfl⟩

theorem copyBlock_alike (block : Text) {cnt2 : Nat} {b b' : Nat → UInt8} (h : Upto cnt2 b b') :
    (copyBlock block cnt2 b').1 = (copyBlock block cnt2 b).1 ∧
    (copyBlock block cnt2 b').2.1 = (copyBlock block cnt2 b).2.1 ∧
    Upto (copyBlock block cnt2 b).2.1 (copyBlock block cnt2 b).2.2 (copyBlock block cnt2 b').2.2 ∧
    ((copyBlock block cnt2 b).1 ≠ [] → evalBufferSize ≤ (copyBlock block cnt2 b).2.1) := by
  have grown {c : Nat} {b b' : Nat → UInt8} (h : Upto c b b') (x : UInt8) :
      Upto (c + 1) (Function.update b c x) (Function.update b' c x) := by
    intro i hi
    by_cases e : i = c
    · simp [e]
    · simp only [Function.update_of_ne e]
      exact h i (by omega)
  induction block generalizing cnt2 b b' with
  | nil => exact ⟨rfl, rfl, h, fun e => absurd rfl e⟩
  | cons c rest ih =>
    simp only [copyBlock]
    split_ifs
    · exact ih (grown h _)
    · exact ih h
    · exact ih (grown h _)
    · rename_i full
      exact ⟨rfl, rfl, h, fun _ => Nat.le_of_not_lt full⟩

theorem fillWindow_alike (h : Between R m m') (block : Text) :
    Reading R (m.fillWindow block).1 (m'.fillWindow block).1 ∧
    (m'.fillWindow block).2 = (m.fillWindow block).2 := by
  have start : (m.stack.bufferIndex + 256 - m.operandIndex) % 256 =
      m.stack.bufferIndex - m.operandIndex := by
    have := h.index_le
    have := h.bufferIndex_le
    unfold evalBufferSize at this
    omega
  have kept : Upto (m.stack.bufferIndex - m.operandIndex) m.stack.buffer m'.stack.buffer :=
    fun i hi => h.alike.buffer i (by omega)
  obtain ⟨rest, count, filled, stopped⟩ := copyBlock_alike block kept
  unfold fillWindow
  simp only [h.alike.bufferIndex, h.alike.operandIndex, start]
  revert rest count filled stopped
  rcases copyBlock block (m.stack.bufferIndex - m.operandIndex) m.stack.buffer with ⟨rest, c, b⟩
  rcases copyBlock block (m.stack.bufferIndex - m.operandIndex) m'.stack.buffer with ⟨rest', c', b'⟩
  rintro rfl rfl filled stopped
  refine ⟨⟨⟨h.alike.operators, h.alike.operands, rfl, rfl, h.alike.env, ?_⟩, ?_, Nat.le_refl 0,
    Nat.zero_le _⟩, rfl⟩
  · intro i hi nonzero
    simp only at nonzero filled stopped ⊢
    split
    · rename_i ended
      rw [if_pos ended] at nonzero
      rcases Nat.lt_trichotomy i c' with before | rfl | behind
      · simp only [Function.update_of_ne (Nat.ne_of_lt before)]
        exact filled i before
      · simp
      · exact absurd (Function.update_self ..) (nonzero c' behind)
    · rename_i ended
      refine filled i ?_
      by_contra outside
      exact ended ⟨by_contra fun more => by have := stopped more; omega, by omega⟩
  · intro j hj
    exact absurd hj (Nat.not_lt_zero j)

theorem Reading.fail (h : Reading R m m') {x : Calculator σ} {x' : Calculator τ}
    (alike : Alike R Window x x') (buffer : x.stack.buffer = m.stack.buffer)
    (index : x.stack.bufferIndex = m.stack.bufferIndex) (error : EvalStatus) :
    Between R (x.fail error).1 (x'.fail error).1 := by
  refine Reading.between ⟨{ alike with operandIndex := rfl }, ?_, Nat.zero_le _, ?_⟩
  · intro j hj
    simp only [Calculator.fail, buffer] at hj ⊢
    exact h.seen j (index ▸ hj)
  · simp only [Calculator.fail, index]
    exact h.bufferIndex_le

structure Onward (R : σ → τ → Prop) (x : Calculator σ × EvalStatus)
    (x' : Calculator τ × EvalStatus) : Prop where
  status : x'.2 = x.2
  between : Between R x.1 x'.1
  reading : x.2 = .ready → Reading R x.1 x'.1

theorem Reading.addScanned (h : Reading R m m') {a : Calculator σ} {a' : Calculator τ}
    (added : Alike R Window a a') (buffer : a.stack.buffer = m.stack.buffer)
    (index : a.stack.bufferIndex = m.stack.bufferIndex) {op : Operator}
    (here : m.stack.operatorHere = some op) (inside : m.stack.bufferIndex < evalBufferSize) :
    Onward R (a.addScanned P op) (a'.addScanned P op) := by
  obtain ⟨fits, nonzero⟩ := Stack.operatorHere_inside here inside
  obtain ⟨own, other⟩ := evalAddOperator_congr P added.operators added.operands (some op)
  have added' : Alike R Window { a with stack := (evalAddOperator P a.stack (some op)).1 }
      { a' with stack := (evalAddOperator P a'.stack (some op)).1 } := by
    rw [other, own]
    exact ⟨rfl, rfl, added.bufferIndex, added.operandIndex, added.env, added.buffer⟩
  have frame : (evalAddOperator P a.stack (some op)).1.buffer = m.stack.buffer ∧
      (evalAddOperator P a.stack (some op)).1.bufferIndex = m.stack.bufferIndex := by
    rw [own]
    exact ⟨buffer, index⟩
  have same : (evalAddOperator P a'.stack (some op)).2 =
      (evalAddOperator P a.stack (some op)).2 := by rw [other]
  rw [Calculator.addScanned, Calculator.addScanned]
  revert added' frame same
  rcases evalAddOperator P a.stack (some op) with ⟨s, e⟩
  rcases evalAddOperator P a'.stack (some op) with ⟨s', e'⟩
  rintro added' ⟨b, i⟩ rfl
  simp only at added' b i
  cases e'
  case ready =>
    have next : s'.bufferIndex = s.bufferIndex := added'.bufferIndex
    have reading : Reading R
        { a with
          stack := { s with bufferIndex := s.bufferIndex + op.symbol.length }
          operandIndex := s.bufferIndex + op.symbol.length }
        { a' with
          stack := { s' with bufferIndex := s'.bufferIndex + op.symbol.length }
          operandIndex := s'.bufferIndex + op.symbol.length } := by
      refine ⟨⟨added'.operators, added'.operands, by simp only [next], by simp only [next],
        added'.env, added'.buffer⟩, ?_, Nat.le_refl _, ?_⟩
      · intro j hj
        simp only [i, b] at hj ⊢
        by_cases before : j < m.stack.bufferIndex
        · exact h.seen j before
        · have := nonzero (j - m.stack.bufferIndex) (by omega)
          rwa [Nat.add_sub_of_le (by omega)] at this
      · simpa only [i] using fits
    exact ⟨rfl, reading.between, fun _ => reading⟩
  all_goals exact ⟨rfl, h.fail added' b i _, fun error => by cases error⟩

theorem Reading.scanStep (solvers : Solvers R solve solve') (h : Reading R m m')
    (inside : m.stack.bufferIndex < evalBufferSize)
    (byte : m.stack.buffer m.stack.bufferIndex ≠ 0) :
    Onward R (m.scanStep P solve) (m'.scanStep P solve') := by
  have shift : m'.stack.slice m'.operandIndex (m'.stack.bufferIndex - m'.operandIndex) =
      m.stack.slice m.operandIndex (m.stack.bufferIndex - m.operandIndex) := by
    have := h.index_le
    rw [h.alike.operandIndex, h.alike.bufferIndex]
    exact Stack.slice_congr h.alike.bufferIndex fun i hi _ => h.upto i (by omega)
  rw [Calculator.scanStep, Calculator.scanStep]
  simp only [h.operatorHere byte, shift]
  cases here : m.stack.operatorHere with
  | none =>
    have reading : Reading R
        { m with stack := { m.stack with bufferIndex := m.stack.bufferIndex + 1 } }
        { m' with stack := { m'.stack with bufferIndex := m'.stack.bufferIndex + 1 } } := by
      refine ⟨{ h.alike with bufferIndex := by simp only [h.alike.bufferIndex] }, ?_, ?_, inside⟩
      · intro j hj
        rcases Nat.lt_succ_iff_lt_or_eq.mp hj with before | rfl
        · exact h.seen j before
        · exact byte
      · exact Nat.le_succ_of_le h.index_le
    exact ⟨rfl, reading.between, fun _ => reading⟩
  | some op =>
    simp only
    generalize m.stack.slice m.operandIndex (m.stack.bufferIndex - m.operandIndex) = operand
    obtain ⟨added, status⟩ := evalAddOperand_alike (P := P) solvers h.alike operand
    obtain ⟨buffer, index, -⟩ := evalAddOperand_frame (P := P) solve m operand
    revert added status buffer index
    rcases m.evalAddOperand P solve operand with ⟨a, e⟩
    rcases m'.evalAddOperand P solve' operand with ⟨a', e'⟩
    rintro added rfl buffer index
    simp only at added buffer index
    cases e'
    case ready | emptyOperand => exact h.addScanned added buffer index here inside
    all_goals exact ⟨rfl, h.fail added buffer index _, fun error => by cases error⟩

theorem scanWindow_alike (solvers : Solvers R solve solve') (n : Nat) {m : Calculator σ}
    {m' : Calculator τ} (h : Reading R m m') :
    Between R (m.scanWindow P solve n).1 (m'.scanWindow P solve' n).1 ∧
    (m'.scanWindow P solve' n).2 = (m.scanWindow P solve n).2 := by
  induction n generalizing m m' with
  | zero => exact ⟨h.between, rfl⟩
  | succ n ih =>
    have going : Scanning m'.stack ↔ Scanning m.stack := by
      rw [Scanning, Scanning, h.alike.bufferIndex]
      exact and_congr_right fun inside => by rw [h.alike.buffer _ inside h.seen]
    rw [scanWindow_succ, scanWindow_succ]
    simp only [going]
    split
    case isFalse => exact ⟨h.between, rfl⟩
    rename_i scanning
    obtain ⟨status, between, reading⟩ := h.scanStep (P := P) solvers scanning.1 scanning.2
    revert status between reading
    rcases m.scanStep P solve with ⟨a, e⟩
    rcases m'.scanStep P solve' with ⟨a', e'⟩
    rintro rfl between reading
    cases e'
    case ready => exact ih (reading rfl)
    all_goals exact ⟨between, rfl⟩

theorem fullWindow_alike (solvers : Solvers R solve solve') (h : Between R m m') :
    Between R (m.fullWindow P solve).1 (m'.fullWindow P solve').1 ∧
    (m'.fullWindow P solve').2 = (m.fullWindow P solve).2 := by
  unfold fullWindow
  simp only [h.alike.operandIndex, h.alike.bufferIndex]
  split
  case isFalse => exact ⟨h, rfl⟩
  rename_i full
  have slice : m'.stack.slice 0 (evalBufferSize - 1) = m.stack.slice 0 (evalBufferSize - 1) :=
    Stack.slice_congr h.alike.bufferIndex fun i hi _ => h.alike.buffer i (by omega)
  rw [slice]
  generalize m.stack.slice 0 (evalBufferSize - 1) = operand
  obtain ⟨added, status⟩ := evalAddOperand_alike (P := P) solvers h.alike operand
  obtain ⟨-, index, -⟩ := evalAddOperand_frame (P := P) solve m operand
  have fits := h.bufferIndex_le
  revert added status index
  rcases m.evalAddOperand P solve operand with ⟨a, e⟩
  rcases m'.evalAddOperand P solve' operand with ⟨a', e'⟩
  rintro added rfl index
  simp only at added index
  have window : Upto a.stack.bufferIndex a.stack.buffer a'.stack.buffer := by
    rw [index]
    exact added.buffer
  rw [← index] at fits
  cases e'
  case ready =>
    exact ⟨⟨{ added with operandIndex := added.bufferIndex, buffer := window }, Nat.le_refl _,
      fits⟩, rfl⟩
  all_goals
    exact ⟨⟨{ added with operandIndex := rfl, buffer := window }, Nat.zero_le _, fits⟩, rfl⟩

theorem moveTrailing_alike (h : Between R m m') :
    Between R { m with stack := m.stack.moveTrailing m.operandIndex }
      { m' with stack := m'.stack.moveTrailing m'.operandIndex } := by
  refine ⟨{ h.alike with buffer := fun i hi => ?_ }, h.index_le, h.bufferIndex_le⟩
  simp only [Stack.moveTrailing, h.alike.bufferIndex, h.alike.operandIndex] at hi ⊢
  split
  · exact h.alike.buffer _ (by assumption)
  · exact h.alike.buffer i hi

theorem evaluatePass_alike (solvers : Solvers R solve solve') (h : Between R m m') (block : Text) :
    Between R (m.evaluatePass P solve block).1 (m'.evaluatePass P solve' block).1 ∧
    (m'.evaluatePass P solve' block).2 = (m.evaluatePass P solve block).2 := by
  rw [evaluatePass, evaluatePass]
  obtain ⟨filled, left⟩ := fillWindow_alike h block
  simp only
  rw [left]
  obtain ⟨scanned, status⟩ := scanWindow_alike (P := P) solvers evalBufferSize filled
  revert scanned status
  rcases (m.fillWindow block).1.scanWindow P solve evalBufferSize with ⟨a, e⟩
  rcases (m'.fillWindow block).1.scanWindow P solve' evalBufferSize with ⟨a', e'⟩
  rintro scanned rfl
  cases e'
  case ready =>
    obtain ⟨complete, status⟩ := fullWindow_alike (P := P) solvers scanned
    simp only
    revert complete status
    rcases a.fullWindow P solve with ⟨x, e⟩
    rcases a'.fullWindow P solve' with ⟨x', e'⟩
    rintro complete rfl
    cases e'
    case ready => exact ⟨moveTrailing_alike complete, rfl⟩
    all_goals exact ⟨complete, rfl⟩
  all_goals exact ⟨scanned, rfl⟩

theorem evaluateTurns_alike (solvers : Solvers R solve solve') (n : Nat) {m : Calculator σ}
    {m' : Calculator τ} (h : Between R m m') (block : Text) :
    Between R (m.evaluateTurns P solve n block).1 (m'.evaluateTurns P solve' n block).1 ∧
    (m'.evaluateTurns P solve' n block).2 = (m.evaluateTurns P solve n block).2 := by
  induction n generalizing m m' block with
  | zero => exact ⟨h, rfl⟩
  | succ n ih =>
    cases block with
    | nil => exact ⟨h, rfl⟩
    | cons c rest =>
      rw [evaluateTurns_succ, evaluateTurns_succ]
      obtain ⟨between, same⟩ := evaluatePass_alike (P := P) solvers h (c :: rest)
      revert between same
      rcases m.evaluatePass P solve (c :: rest) with ⟨a, e, more⟩
      rcases m'.evaluatePass P solve' (c :: rest) with ⟨a', left⟩
      rintro between rfl
      cases e
      case ready => exact ih between more
      all_goals exact ⟨between, rfl⟩

theorem evaluateBlock_alike (solvers : Solvers R solve solve') (h : Between R m m') (block : Text) :
    Between R (m.evaluateBlock P solve block).1 (m'.evaluateBlock P solve' block).1 ∧
    (m'.evaluateBlock P solve' block).2 = (m.evaluateBlock P solve block).2 :=
  evaluateTurns_alike solvers _ h block

theorem evaluateResult_alike (solvers : Solvers R solve solve') (h : Between R m m') :
    Between R (m.evaluateResult P solve).1 (m'.evaluateResult P solve').1 ∧
    (m'.evaluateResult P solve').2 = (m.evaluateResult P solve).2 := by
  have slice : m'.stack.slice m.operandIndex (m.stack.bufferIndex - m.operandIndex) =
      m.stack.slice m.operandIndex (m.stack.bufferIndex - m.operandIndex) := by
    have := h.index_le
    exact Stack.slice_congr h.alike.bufferIndex fun i hi _ => h.alike.buffer i (by omega)
  have last : Between R (if m.operandIndex < m.stack.bufferIndex then
        m.evalAddOperand P solve (m.stack.slice m.operandIndex (m.stack.bufferIndex - m.operandIndex))
      else (m, .ready)).1 (if m'.operandIndex < m'.stack.bufferIndex then
        m'.evalAddOperand P solve'
          (m'.stack.slice m'.operandIndex (m'.stack.bufferIndex - m'.operandIndex))
      else (m', .ready)).1 ∧
      (if m'.operandIndex < m'.stack.bufferIndex then
        m'.evalAddOperand P solve'
          (m'.stack.slice m'.operandIndex (m'.stack.bufferIndex - m'.operandIndex))
      else (m', .ready)).2 = (if m.operandIndex < m.stack.bufferIndex then
        m.evalAddOperand P solve (m.stack.slice m.operandIndex (m.stack.bufferIndex - m.operandIndex))
      else (m, .ready)).2 := by
    simp only [h.alike.operandIndex, h.alike.bufferIndex, slice]
    split
    · generalize m.stack.slice m.operandIndex (m.stack.bufferIndex - m.operandIndex) = operand
      obtain ⟨added, status⟩ := evalAddOperand_alike (P := P) solvers h.alike operand
      obtain ⟨-, index, static⟩ := evalAddOperand_frame (P := P) solve m operand
      refine ⟨⟨?_, ?_, ?_⟩, status⟩
      · rw [index]
        exact added
      · rw [index, static]
        exact h.index_le
      · rw [index]
        exact h.bufferIndex_le
    · exact ⟨h, rfl⟩
  unfold evaluateResult
  simp only
  revert last
  generalize (if m.operandIndex < m.stack.bufferIndex then _ else _) = x
  generalize (if m'.operandIndex < m'.stack.bufferIndex then _ else _) = x'
  obtain ⟨a, e⟩ := x
  obtain ⟨a', e'⟩ := x'
  rintro ⟨between, rfl⟩
  simp only at between
  have alike := between.alike
  cases e'
  case ready =>
    obtain ⟨own, other⟩ := evalAddOperator_congr P alike.operators alike.operands none
    simp only [other]
    revert own
    rcases evalAddOperator P a.stack none with ⟨s, e⟩
    intro own
    simp only at own
    have buffer : s.buffer = a.stack.buffer := by rw [own]
    have index : s.bufferIndex = a.stack.bufferIndex := by rw [own]
    have window : Upto s.bufferIndex s.buffer a'.stack.buffer := by
      rw [buffer, index]
      exact alike.buffer
    have fits : s.bufferIndex ≤ evalBufferSize := index ▸ between.bufferIndex_le
    have same : a'.stack.bufferIndex = s.bufferIndex := alike.bufferIndex.trans index.symm
    simp only
    cases e
    case ready =>
      simp only
      rcases hs : s.operands with _ | ⟨v, _ | ⟨w, rest⟩⟩
      · exact ⟨⟨⟨rfl, hs.symm, same, rfl, alike.env, window⟩, Nat.zero_le _, fits⟩, rfl⟩
      · exact ⟨⟨⟨rfl, rfl, rfl, rfl, alike.env, fun i hi => absurd hi (Nat.not_lt_zero i)⟩,
          Nat.zero_le _, Nat.zero_le _⟩, rfl⟩
      · exact ⟨⟨⟨rfl, rfl, same, rfl, alike.env, window⟩, Nat.zero_le _, fits⟩, rfl⟩
    all_goals exact ⟨⟨⟨rfl, rfl, same, rfl, alike.env, window⟩, Nat.zero_le _, fits⟩, rfl⟩
  all_goals
    exact ⟨⟨{ alike with operandIndex := rfl }, Nat.zero_le _, between.bufferIndex_le⟩, rfl⟩

end Calculator
end

/-! Calculators that have their whole stacks in common, windows included, go on alike as
well, wherever their indices stand. -/

section
variable {P : Platform} {σ τ : Type} {R : σ → τ → Prop}
variable {solve : Text → σ → σ × Option Int} {solve' : Text → τ → τ × Option Int}

namespace Calculator
variable {m : Calculator σ} {m' : Calculator τ}

abbrev Level (R : σ → τ → Prop) (m : Calculator σ) (m' : Calculator τ) : Prop := Alike R Eq m m'

theorem Alike.stack (h : Level R m m') : m'.stack = m.stack := by
  obtain ⟨⟨operators, operands, buffer, bufferIndex⟩, _, _⟩ := m
  obtain ⟨⟨operators', operands', buffer', bufferIndex'⟩, _, _⟩ := m'
  have := h.operators
  have := h.operands
  have := h.buffer
  have := h.bufferIndex
  simp_all

theorem level_of (stack : m'.stack = m.stack) (index : m'.operandIndex = m.operandIndex)
    (env : R m.env m'.env) : Level R m m' :=
  ⟨by rw [stack], by rw [stack], by rw [stack], index, env, by rw [stack]⟩

theorem fillWindow_level (h : Level R m m') (block : Text) :
    Level R (m.fillWindow block).1 (m'.fillWindow block).1 ∧
      (m'.fillWindow block).2 = (m.fillWindow block).2 := by
  simp only [fillWindow, h.stack, h.operandIndex]
  exact ⟨level_of rfl rfl h.env, trivial⟩

theorem addScanned_level (h : Level R m m') (op : Operator) :
    Level R (m.addScanned P op).1 (m'.addScanned P op).1 ∧
      (m'.addScanned P op).2 = (m.addScanned P op).2 := by
  rw [addScanned, addScanned, h.stack]
  rcases evalAddOperator P m.stack (some op) with ⟨s, e⟩
  cases e <;> exact ⟨level_of rfl rfl h.env, rfl⟩

theorem scanStep_level (solvers : Solvers R solve solve') (h : Level R m m') :
    Level R (m.scanStep P solve).1 (m'.scanStep P solve').1 ∧
      (m'.scanStep P solve').2 = (m.scanStep P solve).2 := by
  rw [scanStep, scanStep]
  simp only [h.stack, h.operandIndex]
  cases m.stack.operatorHere with
  | none => exact ⟨level_of rfl rfl h.env, rfl⟩
  | some op =>
    simp only
    obtain ⟨added, status⟩ := evalAddOperand_alike (P := P) solvers h
      (m.stack.slice m.operandIndex (m.stack.bufferIndex - m.operandIndex))
    revert added status
    generalize m.stack.slice m.operandIndex (m.stack.bufferIndex - m.operandIndex) = operand
    rcases m.evalAddOperand P solve operand with ⟨a, e⟩
    rcases m'.evalAddOperand P solve' operand with ⟨a', e'⟩
    rintro added rfl
    cases e'
    case ready | emptyOperand => exact addScanned_level added op
    all_goals exact ⟨{ added with operandIndex := rfl }, rfl⟩

theorem scanWindow_level (solvers : Solvers R solve solve') (n : Nat) {m : Calculator σ}
    {m' : Calculator τ} (h : Level R m m') :
    Level R (m.scanWindow P solve n).1 (m'.scanWindow P solve' n).1 ∧
      (m'.scanWindow P solve' n).2 = (m.scanWindow P solve n).2 := by
  induction n generalizing m m' with
  | zero => exact ⟨h, rfl⟩
  | succ n ih =>
    rw [scanWindow_succ, scanWindow_succ, h.stack]
    split
    case isFalse => exact ⟨h, rfl⟩
    obtain ⟨level, status⟩ := scanStep_level (P := P) solvers h
    revert level status
    rcases m.scanStep P solve with ⟨a, e⟩
    rcases m'.scanStep P solve' with ⟨a', e'⟩
    rintro level rfl
    cases e'
    case ready => exact ih level
    all_goals exact ⟨level, rfl⟩

theorem fullWindow_level (solvers : Solvers R solve solve') (h : Level R m m') :
    Level R (m.fullWindow P solve).1 (m'.fullWindow P solve').1 ∧
      (m'.fullWindow P solve').2 = (m.fullWindow P solve).2 := by
  simp only [fullWindow, h.stack, h.operandIndex]
  split
  case isFalse => exact ⟨h, rfl⟩
  obtain ⟨added, status⟩ := evalAddOperand_alike (P := P) solvers h
    (m.stack.slice 0 (evalBufferSize - 1))
  revert added status
  rcases m.evalAddOperand P solve _ with ⟨a, e⟩
  rcases m'.evalAddOperand P solve' _ with ⟨a', e'⟩
  rintro added rfl
  cases e'
  case ready => exact ⟨{ added with operandIndex := added.bufferIndex }, rfl⟩
  all_goals exact ⟨{ added with operandIndex := rfl }, rfl⟩

theorem moveTrailing_level (h : Level R m m') :
    Level R { m with stack := m.stack.moveTrailing m.operandIndex }
      { m' with stack := m'.stack.moveTrailing m'.operandIndex } :=
  level_of (by rw [h.stack, h.operandIndex]) h.operandIndex h.env

theorem evaluatePass_level (solvers : Solvers R solve solve') (h : Level R m m') (block : Text) :
    Level R (m.evaluatePass P solve block).1 (m'.evaluatePass P solve' block).1 ∧
      (m'.evaluatePass P solve' block).2 = (m.evaluatePass P solve block).2 := by
  rw [evaluatePass, evaluatePass]
  obtain ⟨filled, left⟩ := fillWindow_level h block
  simp only
  rw [left]
  obtain ⟨scanned, status⟩ := scanWindow_level (P := P) solvers evalBufferSize filled
  revert scanned status
  rcases (m.fillWindow block).1.scanWindow P solve evalBufferSize with ⟨a, e⟩
  rcases (m'.fillWindow block).1.scanWindow P solve' evalBufferSize with ⟨a', e'⟩
  rintro scanned rfl
  cases e'
  case ready =>
    obtain ⟨complete, status⟩ := fullWindow_level (P := P) solvers scanned
    simp only
    revert complete status
    rcases a.fullWindow P solve with ⟨x, e⟩
    rcases a'.fullWindow P solve' with ⟨x', e'⟩
    rintro complete rfl
    cases e'
    case ready => exact ⟨moveTrailing_level complete, rfl⟩
    all_goals exact ⟨complete, rfl⟩
  all_goals exact ⟨scanned, rfl⟩

theorem evaluateTurns_level (solvers : Solvers R solve solve') (n : Nat) {m : Calculator σ}
    {m' : Calculator τ} (h : Level R m m') (block : Text) :
    Level R (m.evaluateTurns P solve n block).1 (m'.evaluateTurns P solve' n block).1 ∧
      (m'.evaluateTurns P solve' n block).2 = (m.evaluateTurns P solve n block).2 := by
  induction n generalizing m m' block with
  | zero => exact ⟨h, rfl⟩
  | succ n ih =>
    cases block with
    | nil => exact ⟨h, rfl⟩
    | cons c rest =>
      rw [evaluateTurns_succ, evaluateTurns_succ]
      obtain ⟨level, same⟩ := evaluatePass_level (P := P) solvers h (c :: rest)
      revert level same
      rcases m.evaluatePass P solve (c :: rest) with ⟨a, e, more⟩
      rcases m'.evaluatePass P solve' (c :: rest) with ⟨a', left⟩
      rintro level rfl
      cases e
      case ready => exact ih level more
      all_goals exact ⟨level, rfl⟩

theorem evaluateResult_level (solvers : Solvers R solve solve') (h : Level R m m') :
    Level R (m.evaluateResult P solve).1 (m'.evaluateResult P solve').1 ∧
      (m'.evaluateResult P solve').2 = (m.evaluateResult P solve).2 := by
  have last : Level R
      (if m.operandIndex < m.stack.bufferIndex then m.evalAddOperand P solve
        (m.stack.slice m.operandIndex (m.stack.bufferIndex - m.operandIndex)) else (m, .ready)).1
      (if m'.operandIndex < m'.stack.bufferIndex then m'.evalAddOperand P solve'
        (m'.stack.slice m'.operandIndex (m'.stack.bufferIndex - m'.operandIndex))
        else (m', .ready)).1 ∧
      (if m'.operandIndex < m'.stack.bufferIndex then m'.evalAddOperand P solve'
        (m'.stack.slice m'.operandIndex (m'.stack.bufferIndex - m'.operandIndex))
        else (m', .ready)).2 =
      (if m.operandIndex < m.stack.bufferIndex then m.evalAddOperand P solve
        (m.stack.slice m.operandIndex (m.stack.bufferIndex - m.operandIndex)) else (m, .ready)).2 := by
    simp only [h.stack, h.operandIndex]
    split
    · exact evalAddOperand_alike solvers h _
    · exact ⟨h, rfl⟩
  unfold evaluateResult
  simp only
  revert last
  generalize (if m.operandIndex < m.stack.bufferIndex then m.evalAddOperand P solve
    (m.stack.slice m.operandIndex (m.stack.bufferIndex - m.operandIndex)) else (m, .ready)) = a
  generalize (if m'.operandIndex < m'.stack.bufferIndex then m'.evalAddOperand P solve'
    (m'.stack.slice m'.operandIndex (m'.stack.bufferIndex - m'.operandIndex))
    else (m', .ready)) = a'
  obtain ⟨a, e⟩ := a
  obtain ⟨a', e'⟩ := a'
  rintro ⟨added, rfl⟩
  have env : R a.env a'.env := added.env
  obtain ⟨stack, index, e₁⟩ := a'
  obtain rfl : stack = a.stack := added.stack
  cases e'
  case ready =>
    simp only
    rcases evalAddOperator P a.stack none with ⟨s, e⟩
    cases e
    case ready =>
      simp only
      rcases s.operands with _ | ⟨v, _ | ⟨w, rest⟩⟩
      · exact ⟨level_of rfl rfl env, rfl⟩
      · exact ⟨level_of rfl rfl env, rfl⟩
      · exact ⟨level_of rfl rfl env, rfl⟩
    all_goals exact ⟨level_of rfl rfl env, rfl⟩
  all_goals exact ⟨level_of rfl rfl env, rfl⟩

end Calculator
end
end EmmaNode

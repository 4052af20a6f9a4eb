import EmmaNode.EvaluatorFrame

/-! The loops of `evaluate_block`, with fuel that may run out. A pass over the window leaves
fewer bytes in it than it has room for, so that the next pass takes at least one from the block. -/

namespace EmmaNode
namespace Calculator

section
variable (P : Platform) {σ : Type} (solve : Text → σ → σ × Option Int)

def scanLoop : Nat → Calculator σ → Option (Calculator σ × EvalStatus)
  | 0, _ => none
  | n + 1, m =>
    if Scanning m.stack then
      match m.scanStep P solve with
      | (m, .ready) => scanLoop n m
      | other => some other
    else some (m, .ready)

def moveLoop (operandIndex stop : Nat) : Nat → Nat → (Nat → UInt8) → Option (Nat → UInt8)
  | 0, _, _ => none
  | n + 1, cnt2, buffer =>
    if cnt2 < stop then
      moveLoop operandIndex stop n (cnt2 + 1)
        (Function.update buffer (cnt2 - operandIndex) (buffer cnt2))
    else some buffer

def pass (turns : Nat) (m : Calculator σ) (block : Text) :
    Option (Calculator σ × EvalStatus × Text) :=
  let (m, rest) := m.fillWindow block
  (m.scanLoop P solve turns).bind fun
    | (m, .ready) =>
      match m.fullWindow P solve with
      | (m, .ready) =>
        (moveLoop m.operandIndex m.stack.bufferIndex turns m.operandIndex m.stack.buffer).map
          fun buffer => ({ m with stack := { m.stack with buffer } }, .ready, rest)
      | (m, error) => some (m, error, rest)
    | (m, error) => some (m, error, rest)

def passes (turns : Nat) : Nat → Calculator σ → Text → Option (Calculator σ × EvalStatus)
  | _, m, [] => some (m, .ready)
  | 0, _, _ :: _ => none
  | n + 1, m, c :: block =>
    (m.pass P solve turns (c :: block)).bind fun
      | (m, .ready, rest) => passes turns n m rest
      | (m, error, _) => some (m, error)

end

variable {P : Platform} {σ : Type} {solve : Text → σ → σ × Option Int}
variable {m m' : Calculator σ} {status : EvalStatus} {block rest : Text}

/-- What one turn can do: the window stays, and the scan goes on behind `bufferIndex`, at most to
the end of the window; the operand begins where it did or there. -/
structure Stepped (m m' : Calculator σ) : Prop where
  buffer : m'.stack.buffer = m.stack.buffer
  onward : m.stack.bufferIndex < m'.stack.bufferIndex
  inside : m'.stack.bufferIndex ≤ evalBufferSize
  operand : m'.operandIndex = m.operandIndex ∨ m'.operandIndex = m'.stack.bufferIndex

theorem scanStep_cases (P : Platform) (solve : Text → σ → σ × Option Int) (m : Calculator σ) :
    (m.stack.operatorHere = none ∧ m.scanStep P solve =
      ({ m with stack := { m.stack with bufferIndex := m.stack.bufferIndex + 1 } }, .ready)) ∨
    ∃ op, m.stack.operatorHere = some op ∧
      ∃ m₁ : Calculator σ, m₁.stack.buffer = m.stack.buffer ∧
        m₁.stack.bufferIndex = m.stack.bufferIndex ∧
        ((∃ error, error ≠ .ready ∧ m.scanStep P solve = m₁.fail error) ∨
          m.scanStep P solve = ({ m₁ with
            stack := { m₁.stack with
              bufferIndex := m.stack.bufferIndex + op.symbol.length }
            operandIndex := m.stack.bufferIndex + op.symbol.length }, .ready)) := by
  rw [scanStep]
  simp only
  cases m.stack.operatorHere with
  | none => exact .inl ⟨rfl, rfl⟩
  | some op =>
    refine .inr ⟨op, rfl, ?_⟩
    have operand := evalAddOperand_frame (P := P) solve m
      (m.stack.slice m.operandIndex (m.stack.bufferIndex - m.operandIndex))
    revert operand
    simp only
    rcases m.evalAddOperand P solve _ with ⟨m₁, status⟩
    rintro ⟨buffer, index, -⟩
    have frame := (evalAddOperator_congr P (s := m₁.stack) (t := m₁.stack) rfl rfl (some op)).1
    cases status
    case ready | emptyOperand =>
      simp only [addScanned]
      revert frame
      rcases evalAddOperator P m₁.stack (some op) with ⟨s, status⟩
      intro frame
      have buffer' : s.buffer = m.stack.buffer := (congrArg Stack.buffer frame).trans buffer
      have index' : s.bufferIndex = m.stack.bufferIndex :=
        (congrArg Stack.bufferIndex frame).trans index
      refine ⟨{ m₁ with stack := s }, buffer', index', ?_⟩
      cases status
      case ready =>
        right
        rw [← index']
      all_goals exact .inl ⟨_, by decide, rfl⟩
    all_goals exact ⟨m₁, buffer, index, .inl ⟨_, by decide, rfl⟩⟩

theorem scanStep_ready (inside : m.stack.bufferIndex < evalBufferSize)
    (h : m.scanStep P solve = (m', .ready)) : Stepped m m' := by
  rcases scanStep_cases P solve m with
    ⟨-, run⟩ | ⟨op, here, m₁, buffer, -, ⟨error, other, run⟩ | run⟩
  · rw [run] at h
    cases h
    exact ⟨rfl, Nat.lt_succ_self _, inside, .inl rfl⟩
  · rw [run] at h
    exact absurd (congrArg Prod.snd h) other
  · rw [run] at h
    cases h
    have := op.length_symbol_pos
    exact ⟨buffer, by simp only; omega, (Stack.operatorHere_inside here inside).1, .inr rfl⟩

/-- Where a scan has stopped without an error -/
structure Scanned (m : Calculator σ) : Prop where
  inside : m.stack.bufferIndex ≤ evalBufferSize
  operand : m.operandIndex ≤ m.stack.bufferIndex

theorem Scanned.step (h : Scanned m) (scanning : Scanning m.stack)
    (run : m.scanStep P solve = (m', .ready)) : Scanned m' := by
  have step := scanStep_ready scanning.1 run
  refine ⟨step.inside, ?_⟩
  have order := h.operand
  have onward := step.onward
  rcases step.operand with same | new <;> omega

theorem Scanned.scanWindow (h : Scanned m) (n : Nat)
    (run : m.scanWindow P solve n = (m', .ready)) : Scanned m' := by
  induction n generalizing m with
  | zero =>
    cases run
    exact h
  | succ n ih =>
    rw [scanWindow_succ] at run
    split at run
    · rename_i scanning
      cases step : m.scanStep P solve with
      | mk m₁ status =>
        rw [step] at run
        cases status
        case ready => exact ih (h.step scanning step) run
        all_goals cases run
    · cases run
      exact h

theorem scanLoop_eq (P : Platform) (solve : Text → σ → σ × Option Int) {turns n : Nat}
    (m : Calculator σ) (less : n < turns)
    (enough : evalBufferSize ≤ m.stack.bufferIndex + n) :
    m.scanLoop P solve turns = some (m.scanWindow P solve n) := by
  induction n generalizing m turns with
  | zero =>
    obtain ⟨turns, rfl⟩ : ∃ k, turns = k + 1 := ⟨turns - 1, by omega⟩
    have done : ¬Scanning m.stack := fun h => by
      have := h.1
      omega
    rw [scanLoop, if_neg done]
    rfl
  | succ n ih =>
    obtain ⟨turns, rfl⟩ : ∃ k, turns = k + 1 := ⟨turns - 1, by omega⟩
    rw [scanLoop, scanWindow_succ]
    split
    · rename_i scanning
      cases step : m.scanStep P solve with
      | mk m₁ status =>
        cases status
        case ready =>
          have onward := (scanStep_ready scanning.1 step).onward
          exact ih m₁ (Nat.lt_of_succ_lt_succ less) (by omega)
        all_goals rfl
    · rfl

def Roomy (m : Calculator σ) : Prop :=
  (m.stack.bufferIndex + 256 - m.operandIndex) % 256 < evalBufferSize

theorem Scanned.fullWindow (h : Scanned m) (run : m.fullWindow P solve = (m', .ready)) :
    Scanned m' ∧ Roomy m' := by
  have inside := h.inside
  have order := h.operand
  rw [Calculator.fullWindow] at run
  split at run
  · have frame := evalAddOperand_frame (P := P) solve m (m.stack.slice 0 (evalBufferSize - 1))
    cases added : m.evalAddOperand P solve (m.stack.slice 0 (evalBufferSize - 1)) with
    | mk m₁ status =>
      rw [added] at run frame
      obtain ⟨-, index, -⟩ := frame
      simp only at index
      cases status
      case ready =>
        cases run
        refine ⟨⟨by simp only [index]; exact inside, Nat.le_refl _⟩, ?_⟩
        have none' : m₁.stack.bufferIndex + 256 - m₁.stack.bufferIndex = 256 := by omega
        rw [Roomy]
        simp only [none']
        decide
      all_goals cases run
  · rename_i other
    cases run
    refine ⟨h, ?_⟩
    rw [evalBufferSize] at other inside
    rw [Roomy, evalBufferSize]
    omega

theorem moveLoop_eq (k stop : Nat) {n : Nat} (buffer : Nat → UInt8) (j : Nat)
    (le : k + j ≤ stop ∨ j = 0) (enough : stop - (k + j) < n) :
    moveLoop k stop n (k + j) (fun i => if i < j then buffer (i + k) else buffer i) =
      some fun i => if i + k < stop then buffer (i + k) else buffer i := by
  induction n generalizing j with
  | zero => omega
  | succ n ih =>
    rw [moveLoop]
    split
    · rename_i more
      have next : Function.update (fun i => if i < j then buffer (i + k) else buffer i) (k + j - k)
          (if k + j < j then buffer (k + j + k) else buffer (k + j)) =
          fun i => if i < j + 1 then buffer (i + k) else buffer i := by
        rw [Nat.add_sub_cancel_left, if_neg (by omega)]
        funext i
        by_cases here : i = j
        · subst here
          rw [Function.update_self, if_pos (Nat.lt_succ_self i), Nat.add_comm]
        · rw [Function.update_of_ne here]
          have same : i < j ↔ i < j + 1 := by omega
          simp only [same]
      rw [next]
      exact ih (j + 1) (.inl more) (by omega)
    · rename_i done
      congr 1
      funext i
      have same : i < j ↔ i + k < stop := by omega
      simp only [same]

theorem scanned_fill (m : Calculator σ) (block : Text) : Scanned (m.fillWindow block).1 := by
  rw [fillWindow]
  exact ⟨Nat.zero_le _, Nat.le_refl _⟩

theorem pass_eq {turns : Nat} (enough : evalBufferSize < turns) (m : Calculator σ) (block : Text) :
    m.pass P solve turns block = some (m.evaluatePass P solve block) := by
  have start := scanned_fill m block
  have scan := scanLoop_eq P solve (m.fillWindow block).1 enough
    (Nat.le_add_left ..)
  rw [pass, evaluatePass]
  revert start scan
  rcases m.fillWindow block with ⟨m₁, rest⟩
  intro start scan
  simp only [scan, Option.bind_some]
  cases scanned : m₁.scanWindow P solve evalBufferSize with
  | mk m₂ status =>
    cases status
    case ready =>
      simp only
      cases full : m₂.fullWindow P solve with
      | mk m₃ status =>
        cases status
        case ready =>
          have stopped := ((start.scanWindow evalBufferSize scanned).fullWindow full).1
          have inside := stopped.inside
          have few : m₃.stack.bufferIndex - (m₃.operandIndex + 0) < turns := by omega
          have moved := moveLoop_eq m₃.operandIndex m₃.stack.bufferIndex m₃.stack.buffer 0
            (.inr rfl) few
          simp only [Nat.add_zero, Nat.not_lt_zero, if_false] at moved
          simp only [moved, Option.map_some]
          rfl
        all_goals rfl
    all_goals rfl

theorem evaluatePass_roomy (run : m.evaluatePass P solve block = (m', .ready, rest)) :
    Roomy m' := by
  have start := scanned_fill m block
  rw [evaluatePass] at run
  revert start run
  rcases m.fillWindow block with ⟨m₁, rest'⟩
  intro run start
  cases scanned : m₁.scanWindow P solve evalBufferSize with
  | mk m₂ status =>
    simp only [scanned] at run
    cases status
    case ready =>
      simp only at run
      cases full : m₂.fullWindow P solve with
      | mk m₃ status =>
        rw [full] at run
        cases status
        case ready =>
          cases run
          exact ((start.scanWindow evalBufferSize scanned).fullWindow full).2
        all_goals cases run
    all_goals cases run

theorem evaluatePass_rest (m : Calculator σ) (block : Text) :
    (m.evaluatePass P solve block).2.2 = (m.fillWindow block).2 := by
  rw [evaluatePass]
  rcases m.fillWindow block with ⟨m₁, rest⟩
  simp only
  rcases m₁.scanWindow P solve evalBufferSize with ⟨m₂, status⟩
  cases status
  case ready =>
    simp only
    rcases m₂.fullWindow P solve with ⟨m₃, status⟩
    cases status <;> rfl
  all_goals rfl

theorem copyBlock_length (block : Text) (cnt2 : Nat) (buffer : Nat → UInt8) :
    (copyBlock block cnt2 buffer).1.length ≤ block.length := by
  induction block generalizing cnt2 buffer with
  | nil => exact Nat.le_refl _
  | cons c rest ih =>
    rw [copyBlock]
    split_ifs
    · exact Nat.le_succ_of_le (ih ..)
    · exact Nat.le_succ_of_le (ih ..)
    · exact Nat.le_succ_of_le (ih ..)
    · exact Nat.le_refl _

theorem copyBlock_takes {cnt2 : Nat} (room : cnt2 < evalBufferSize) (c : UInt8) (rest : Text)
    (buffer : Nat → UInt8) : (copyBlock (c :: rest) cnt2 buffer).1.length ≤ rest.length := by
  rw [copyBlock, if_pos room]
  split_ifs <;> exact copyBlock_length ..

theorem Roomy.takes (P : Platform) (solve : Text → σ → σ × Option Int) (room : Roomy m)
    (some' : block ≠ []) :
    (m.evaluatePass P solve block).2.2.length < block.length := by
  obtain ⟨c, rest, rfl⟩ := List.exists_cons_of_ne_nil some'
  rw [evaluatePass_rest, fillWindow]
  exact Nat.lt_succ_of_le (copyBlock_takes room c rest _)

theorem Roomy.passes (room : Roomy m) {turns : Nat} (large : evalBufferSize < turns) {fuel n : Nat}
    (enough : block.length ≤ fuel) (enough' : block.length ≤ n) :
    m.passes P solve turns fuel block = some (m.evaluateTurns P solve n block) := by
  induction fuel generalizing m block n with
  | zero =>
    obtain rfl : block = [] := List.eq_nil_of_length_eq_zero (Nat.le_zero.mp enough)
    cases n <;> rfl
  | succ fuel ih =>
    cases block with
    | nil => cases n <;> rfl
    | cons c block =>
      obtain ⟨n, rfl⟩ : ∃ k, n = k + 1 := ⟨n - 1, by rw [List.length_cons] at enough'; omega⟩
      have takes := room.takes P solve (List.cons_ne_nil c block)
      rw [Calculator.passes, pass_eq large, Option.bind_some, evaluateTurns_succ]
      revert takes
      cases run : m.evaluatePass P solve (c :: block) with
      | mk m₁ left =>
        obtain ⟨status, rest⟩ := left
        intro takes
        have takes : rest.length < (c :: block).length := takes
        rw [List.length_cons] at enough enough' takes
        cases status
        case ready => exact ih (evaluatePass_roomy run) (by omega) (by omega)
        all_goals rfl

/-- `evaluate_block` returns in every state. Its loops take no more turns than the window has
bytes and one, its passes are no more than the bytes of the block and one, and each pass behind
another takes at least one of these bytes. -/
theorem evaluateBlock_returns (P : Platform) {σ : Type} (solve : Text → σ → σ × Option Int)
    (m : Calculator σ) (block : Text) (turns : Nat) (large : evalBufferSize < turns) :
    (∀ fuel, block.length < fuel →
      m.passes P solve turns fuel block = some (m.evaluateBlock P solve block)) ∧
    ∀ m₁ rest, m.pass P solve turns block = some (m₁, .ready, rest) → rest ≠ [] →
      ∃ m₂ status rest', m₁.pass P solve turns rest = some (m₂, status, rest') ∧
        rest'.length < rest.length := by
  constructor
  · intro fuel enough
    cases block with
    | nil =>
      rw [Calculator.passes]
      rfl
    | cons c block =>
      obtain ⟨fuel, rfl⟩ : ∃ k, fuel = k + 1 := ⟨fuel - 1, by omega⟩
      have short : (m.evaluatePass P solve (c :: block)).2.2.length ≤ (c :: block).length := by
        rw [evaluatePass_rest, fillWindow]
        exact copyBlock_length ..
      rw [Calculator.passes, pass_eq large, Option.bind_some, evaluateBlock, evaluateTurns_succ]
      revert short
      cases run : m.evaluatePass P solve (c :: block) with
      | mk m₁ left =>
        obtain ⟨status, rest⟩ := left
        intro short
        cases status
        case ready =>
          exact (evaluatePass_roomy run).passes large
            (Nat.le_trans short (Nat.le_of_lt_succ enough)) short
        all_goals rfl
  · intro m₁ rest run some'
    rw [pass_eq large] at run
    have takes := (evaluatePass_roomy (Option.some.inj run)).takes P solve some'
    exact ⟨_, _, _, pass_eq large m₁ rest, takes⟩

def stale : Calculator Unit := ⟨{ Stack.init with buffer := fun _ => '7'.toUInt8 }, 9, ()⟩

theorem evaluateBlock_stale :
    stale.passes .plain (fun _ e => (e, none)) 16 4 (chars ['1', '+', '2']) =
      some (stale.evaluateBlock .plain (fun _ e => (e, none)) (chars ['1', '+', '2'])) :=
  (evaluateBlock_returns .plain _ stale _ 16 (by decide)).1 4 (by decide)

end Calculator
end EmmaNode

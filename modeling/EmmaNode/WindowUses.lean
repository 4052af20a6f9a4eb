import EmmaNode.Passes
import EmmaNode.SharedIndex

/-! Which bytes of the window `evaluate_block` touches, and those of its calls that it hands
a pointer into the window: `strncmp`, `eval_add_operand`, `antoi`, and the `%s` of the solvers. A
read outside the window ends what is listed of it, since nothing is known of the bytes there. -/

namespace EmmaNode

def textReads (buffer : Nat → UInt8) : Nat → Nat → List Nat
  | 0, _ => []
  | n + 1, i => i :: if buffer i = 0 then [] else textReads buffer n (i + 1)

/-- The indices that `strncmp` reads to compare a symbol with what is at `i` -/
def compareReads (buffer : Nat → UInt8) : Nat → Text → List Nat
  | _, [] => []
  | i, c :: symbol => i :: if buffer i = c then compareReads buffer (i + 1) symbol else []

def copyWrites : Text → Nat → List Nat
  | [], _ => []
  | c :: rest, cnt2 =>
    if cnt2 < evalBufferSize then
      if c = ' '.toUInt8 then copyWrites rest cnt2 else cnt2 :: copyWrites rest (cnt2 + 1)
    else []

/-- An operand that `eval_add_operand` gives to the solver -/
def IsReference (c : UInt8) : Prop := (c < '0'.toUInt8 ∨ '9'.toUInt8 < c) ∧ c ≠ '-'.toUInt8

instance (c : UInt8) : Decidable (IsReference c) := inferInstanceAs (Decidable (_ ∧ _))

/-- What `eval_add_operand` reads of an operand: `antoi` stops at its size, the `%s` of a solver
at a zero only. -/
def operandReads (buffer : Nat → UInt8) (start size : Nat) : List Nat :=
  if size = 0 then []
  else start ::
    if buffer start = 0 then []
    else if IsReference (buffer start) then textReads buffer (evalBufferSize + 1 - start) start
    else start :: textReads buffer size start

inductive WindowUse where
  /-- the copy of a block to `cnt2`, the zero behind it, and the window as it is then printed -/
  | fill (buffer : Nat → UInt8) (cnt2 : Nat) (block : Text)
  /-- the condition of the loop over the window -/
  | look (s : Stack)
  | compare (s : Stack) (op : Operator)
  | operand (s : Stack) (start size : Nat)
  | move (operandIndex stop : Nat)

namespace WindowUse

def indices : WindowUse → List Nat
  | .fill buffer cnt2 block =>
    let (rest, stop, buffer) := Calculator.copyBlock block cnt2 buffer
    let ends := rest = [] ∧ stop < evalBufferSize
    copyWrites block cnt2 ++ (if ends then [stop] else []) ++
      textReads (if ends then Function.update buffer stop 0 else buffer) evalBufferSize 0
  | .look s => if s.bufferIndex < evalBufferSize then [s.bufferIndex] else []
  | .compare s op => compareReads s.buffer s.bufferIndex op.symbol
  | .operand s start size => operandReads s.buffer start size
  | .move operandIndex stop =>
    (List.range' operandIndex (stop - operandIndex)).flatMap fun cnt2 => [cnt2, cnt2 - operandIndex]

/-- A use that stays in the window -/
def Inside (u : WindowUse) : Prop := ∀ k ∈ u.indices, k < evalBufferSize

instance (u : WindowUse) : Decidable u.Inside := inferInstanceAs (Decidable (∀ k ∈ _, _))

def Overruns : WindowUse → Prop
  | .compare s op => s.bufferIndex = evalBufferSize - 1 ∧ op.symbol.length = 2 ∧
      op.symbol.head? = some (s.buffer s.bufferIndex)
  | .operand s start size => size ≠ 0 ∧ IsReference (s.buffer start) ∧
      ∀ k, start ≤ k → k < evalBufferSize → s.buffer k ≠ 0
  | .fill .. | .look _ | .move .. => False

def Valid : WindowUse → Prop
  | .compare s _ => s.bufferIndex < evalBufferSize
  | .operand _ start size => start + size ≤ evalBufferSize
  | .move _ stop => stop ≤ evalBufferSize
  | .fill .. | .look _ => True

end WindowUse

namespace Calculator
section
variable (P : Platform) {σ : Type} (solve : Text → σ → σ × Option Int)

/-- One turn compares the symbols in their order; the operand in front of the one it finds is
evaluated before the others are compared. -/
def stepUses (m : Calculator σ) : List WindowUse :=
  let s := m.stack
  match s.operatorHere with
  | none => Operator.all.map (.compare s)
  | some op =>
    (Operator.all.takeWhile (· ≠ op) ++ [op]).map (.compare s) ++
      .operand s m.operandIndex (s.bufferIndex - m.operandIndex) ::
        if (m.scanStep P solve).2 = .ready then
          (Operator.all.dropWhile (· ≠ op)).tail.map (.compare s)
        else []

def scanUses : Nat → Calculator σ → List WindowUse
  | 0, m => [.look m.stack]
  | n + 1, m => .look m.stack ::
    if Scanning m.stack then
      m.stepUses P solve ++
        match m.scanStep P solve with
        | (m, .ready) => scanUses n m
        | _ => []
    else []

def fullUses (m : Calculator σ) : List WindowUse :=
  if m.operandIndex = 0 ∧ evalBufferSize - 1 ≤ m.stack.bufferIndex then
    [.operand m.stack 0 (evalBufferSize - 1)]
  else []

def passUses (m : Calculator σ) (block : Text) : List WindowUse :=
  let filled := (m.fillWindow block).1
  .fill m.stack.buffer ((m.stack.bufferIndex + 256 - m.operandIndex) % 256) block ::
    (filled.scanUses P solve evalBufferSize ++
      match filled.scanWindow P solve evalBufferSize with
      | (m, .ready) => m.fullUses ++
        match m.fullWindow P solve with
        | (m, .ready) => [.move m.operandIndex m.stack.bufferIndex]
        | _ => []
      | _ => [])

def turnsUses : Nat → Calculator σ → Text → List WindowUse
  | 0, _, _ | _ + 1, _, [] => []
  | n + 1, m, c :: block => m.passUses P solve (c :: block) ++
    match m.evaluatePass P solve (c :: block) with
    | (m, .ready, rest) => turnsUses n m rest
    | _ => []

def resultUses (m : Calculator σ) : List WindowUse :=
  if m.operandIndex < m.stack.bufferIndex then
    [.operand m.stack m.operandIndex (m.stack.bufferIndex - m.operandIndex)]
  else []

def performUses (m : Calculator σ) : EvalCall → List WindowUse
  | .clean => []
  | .evaluate block last => m.turnsUses P solve (block.length + 1) block ++
    match m.evaluateBlock P solve block with
    | (m, .ready) => if last then m.resultUses else []
    | _ => []

end
end Calculator

/-! ### What a use touches -/

theorem textReads_inside (buffer : Nat → UInt8) (n i stop : Nat) :
    (∀ k ∈ textReads buffer n i, k < stop) ↔
      i + n ≤ stop ∨ n = 0 ∨ ∃ k, i ≤ k ∧ k < stop ∧ buffer k = 0 := by
  induction n generalizing i with
  | zero => simp [textReads]
  | succ n ih =>
    rw [textReads]
    by_cases zero : buffer i = 0
    · simp only [if_pos zero, List.mem_singleton, forall_eq]
      constructor
      · exact fun inside => .inr (.inr ⟨i, Nat.le_refl i, inside, zero⟩)
      · rintro (short | none' | ⟨k, from', inside, -⟩) <;> omega
    · simp only [if_neg zero, List.mem_cons, forall_eq_or_imp, ih]
      constructor
      · rintro ⟨first, short | rfl | ⟨k, from', inside, at'⟩⟩
        · exact .inl (by omega)
        · exact .inl (by omega)
        · exact .inr (.inr ⟨k, by omega, inside, at'⟩)
      · rintro (short | none' | ⟨k, from', inside, at'⟩)
        · exact ⟨by omega, .inl (by omega)⟩
        · omega
        · have later : i ≠ k := by
            rintro rfl
            exact zero at'
          exact ⟨by omega, .inr (.inr ⟨k, by omega, inside, at'⟩)⟩

theorem copyWrites_inside (block : Text) (cnt2 : Nat) :
    ∀ k ∈ copyWrites block cnt2, k < evalBufferSize := by
  induction block generalizing cnt2 with
  | nil => simp [copyWrites]
  | cons c rest ih =>
    rw [copyWrites]
    split_ifs with room blank
    · exact ih cnt2
    · rintro k (_ | ⟨_, later⟩)
      · exact room
      · exact ih (cnt2 + 1) k later
    · simp

theorem compareReads_inside (buffer : Nat → UInt8) {i : Nat} (inside : i < evalBufferSize)
    (op : Operator) : (∀ k ∈ compareReads buffer i op.symbol, k < evalBufferSize) ↔
      ¬(i = evalBufferSize - 1 ∧ op.symbol.length = 2 ∧ op.symbol.head? = some (buffer i)) := by
  have size : op.symbol.length = 1 ∨ op.symbol.length = 2 := by
    have := op.length_symbol_pos
    have := op.length_symbol_le
    omega
  revert size
  generalize op.symbol = symbol
  intro size
  match symbol with
  | [] => simp at size
  | [c] =>
    have first : (if buffer i = c then compareReads buffer (i + 1) [] else []) = [] := by
      split <;> rfl
    simp [compareReads, inside]
  | [c, d] =>
    have last : ∀ k ∈ compareReads buffer (i + 1) [d], k = i + 1 := by
      simp [compareReads]
    rw [compareReads]
    by_cases same : buffer i = c
    · simp only [same, List.length_cons, List.head?_cons]
      simp [compareReads, inside]
      rw [evalBufferSize] at *
      omega
    · simp [same, inside, Ne.symm same]
  | _ :: _ :: _ :: _ => simp at size

theorem operandReads_inside (buffer : Nat → UInt8) {start size : Nat}
    (valid : start + size ≤ evalBufferSize) :
    (∀ k ∈ operandReads buffer start size, k < evalBufferSize) ↔
      ¬(size ≠ 0 ∧ IsReference (buffer start) ∧
        ∀ k, start ≤ k → k < evalBufferSize → buffer k ≠ 0) := by
  rw [operandReads]
  by_cases none' : size = 0
  · simp [none']
  have inside : start < evalBufferSize := by omega
  by_cases zero : buffer start = 0
  · simp only [if_neg none', if_pos zero, List.mem_singleton, forall_eq, inside, true_iff]
    exact fun goes => goes.2.2 start (Nat.le_refl start) inside zero
  by_cases reference : IsReference (buffer start)
  · simp only [if_neg none', if_neg zero, if_pos reference, List.mem_cons, forall_eq_or_imp,
      textReads_inside, inside, true_and]
    constructor
    · rintro (short | few | ⟨k, from', within, at'⟩) goes
      · omega
      · omega
      · exact goes.2.2 k from' within at'
    · intro ends
      by_contra leaves
      refine ends ⟨none', reference, fun k from' within at' => leaves ?_⟩
      exact .inr (.inr ⟨k, from', within, at'⟩)
  · simp only [if_neg none', if_neg zero, if_neg reference, List.mem_cons, forall_eq_or_imp,
      textReads_inside, inside, true_and]
    exact iff_of_true (.inl valid) fun goes => reference goes.2.1

theorem WindowUse.Valid.inside_iff {u : WindowUse} (h : u.Valid) : u.Inside ↔ ¬u.Overruns := by
  cases u with
  | fill buffer cnt2 block =>
    refine iff_of_true ?_ id
    intro k touched
    simp only [indices, List.mem_append] at touched
    rcases touched with (written | zero) | printed
    · exact copyWrites_inside block cnt2 k written
    · split at zero
      · rename_i ends
        rw [List.mem_singleton.mp zero]
        exact ends.2
      · cases zero
    · have short : 0 + evalBufferSize ≤ evalBufferSize := Nat.le_refl _
      exact (textReads_inside _ evalBufferSize 0 evalBufferSize).mpr (.inl short) k printed
  | look s =>
    refine iff_of_true ?_ id
    intro k touched
    rw [indices] at touched
    split at touched
    · rename_i inside
      rw [List.mem_singleton.mp touched]
      exact inside
    · cases touched
  | compare s op => exact compareReads_inside s.buffer h op
  | operand s start size => exact operandReads_inside s.buffer h
  | move operandIndex stop =>
    refine iff_of_true ?_ id
    have stop_le : stop ≤ evalBufferSize := h
    intro k touched
    simp only [indices, List.mem_flatMap, List.mem_range'_1, List.mem_cons, List.not_mem_nil,
      or_false] at touched
    obtain ⟨cnt2, range, rfl | rfl⟩ := touched <;> omega

namespace Calculator
variable {P : Platform} {σ : Type} {solve : Text → σ → σ × Option Int}
variable {m : Calculator σ}

/-! ### The window between two calls -/

section
variable (P solve)

theorem scanStep_index (inside : m.stack.bufferIndex < evalBufferSize) :
    (m.scanStep P solve).1.stack.bufferIndex ≤ evalBufferSize := by
  rcases scanStep_cases P solve m with
    ⟨-, run⟩ | ⟨op, here, m₁, -, index, ⟨error, -, run⟩ | run⟩
  · rw [run]
    exact inside
  · rw [run]
    exact Nat.le_of_lt (Nat.lt_of_le_of_lt (Nat.le_of_eq index) inside)
  · rw [run]
    exact (Stack.operatorHere_inside here inside).1

theorem scanWindow_index (n : Nat) (inside : m.stack.bufferIndex ≤ evalBufferSize) :
    (m.scanWindow P solve n).1.stack.bufferIndex ≤ evalBufferSize := by
  induction n generalizing m with
  | zero => exact inside
  | succ n ih =>
    rw [scanWindow_succ]
    split
    · rename_i scanning
      have step := scanStep_index P solve scanning.1
      revert step
      rcases m.scanStep P solve with ⟨m₁, status⟩
      intro step
      cases status
      case ready => exact ih step
      all_goals exact step
    · exact inside

theorem fullWindow_index (m : Calculator σ) :
    (m.fullWindow P solve).1.stack.bufferIndex = m.stack.bufferIndex := by
  rw [fullWindow]
  split
  · have frame := (evalAddOperand_frame (P := P) solve m
      (m.stack.slice 0 (evalBufferSize - 1))).2.1
    revert frame
    rcases m.evalAddOperand P solve _ with ⟨m₁, status⟩
    intro frame
    cases status <;> exact frame
  · rfl

theorem evaluatePass_index (m : Calculator σ) (block : Text) :
    (m.evaluatePass P solve block).1.stack.bufferIndex ≤ evalBufferSize := by
  have start := (scanned_fill m block).inside
  rw [evaluatePass]
  revert start
  rcases m.fillWindow block with ⟨m₁, rest⟩
  intro start
  have scan := scanWindow_index P solve evalBufferSize start
  simp only
  revert scan
  rcases m₁.scanWindow P solve evalBufferSize with ⟨m₂, status⟩
  intro scan
  cases status
  case ready =>
    have full := fullWindow_index P solve m₂
    simp only
    revert full
    rcases m₂.fullWindow P solve with ⟨m₃, status⟩
    intro full
    cases status <;> exact Nat.le_trans (Nat.le_of_eq full) scan
  all_goals exact scan

theorem evaluateTurns_index (n : Nat) (block : Text)
    (inside : m.stack.bufferIndex ≤ evalBufferSize) :
    (m.evaluateTurns P solve n block).1.stack.bufferIndex ≤ evalBufferSize := by
  induction n generalizing m block with
  | zero => exact inside
  | succ n ih =>
    cases block with
    | nil => exact inside
    | cons c block =>
      have pass := evaluatePass_index P solve m (c :: block)
      rw [evaluateTurns_succ]
      revert pass
      rcases m.evaluatePass P solve (c :: block) with ⟨m₁, status, rest⟩
      intro pass
      cases status
      case ready => exact ih rest pass
      all_goals exact pass

theorem evaluateResult_index (m : Calculator σ) :
    (m.evaluateResult P solve).1.stack.bufferIndex ≤ m.stack.bufferIndex := by
  have last : (if m.operandIndex < m.stack.bufferIndex then
      m.evalAddOperand P solve
        (m.stack.slice m.operandIndex (m.stack.bufferIndex - m.operandIndex))
      else (m, .ready)).1.stack.bufferIndex = m.stack.bufferIndex := by
    split
    · exact (evalAddOperand_frame (P := P) solve m _).2.1
    · rfl
  rw [evaluateResult]
  simp only
  revert last
  generalize (if m.operandIndex < m.stack.bufferIndex then _ else _) = x
  obtain ⟨m₁, status⟩ := x
  intro last
  cases status
  case ready =>
    have frame := (evalAddOperator_congr P (s := m₁.stack) (t := m₁.stack) rfl rfl none).1
    simp only
    revert frame
    rcases evalAddOperator P m₁.stack none with ⟨s, status⟩
    intro frame
    have index : s.bufferIndex = m.stack.bufferIndex :=
      (congrArg Stack.bufferIndex frame).trans last
    cases status
    case ready =>
      simp only
      split
      · exact Nat.zero_le _
      · exact Nat.le_of_eq index
      · exact Nat.le_of_eq index
    all_goals exact Nat.le_of_eq index
  all_goals exact Nat.le_of_eq last

theorem perform_index (call : EvalCall) (inside : m.stack.bufferIndex ≤ evalBufferSize) :
    (m.perform P solve call).1.stack.bufferIndex ≤ evalBufferSize := by
  cases call with
  | clean => exact Nat.zero_le _
  | evaluate block last =>
    have turns := evaluateTurns_index P solve (block.length + 1) block inside
    rw [perform, evaluateBlock]
    revert turns
    rcases m.evaluateTurns P solve (block.length + 1) block with ⟨m₁, status⟩
    intro turns
    cases status
    case ready =>
      cases last
      · exact turns
      · exact Nat.le_trans (evaluateResult_index P solve m₁) turns
    all_goals exact turns

end

/-! ### The uses of a call -/

theorem stepUses_valid (h : Scanned m) (inside : m.stack.bufferIndex < evalBufferSize) :
    ∀ u ∈ m.stepUses P solve, u.Valid := by
  have compared (ops : List Operator) : ∀ u ∈ ops.map (WindowUse.compare m.stack), u.Valid := by
    intro u used
    obtain ⟨op, -, rfl⟩ := List.mem_map.mp used
    exact inside
  have operand : (WindowUse.operand m.stack m.operandIndex
      (m.stack.bufferIndex - m.operandIndex)).Valid := by
    have order := h.operand
    have within := h.inside
    rw [WindowUse.Valid]
    omega
  intro u used
  rw [stepUses] at used
  cases here : m.stack.operatorHere with
  | none =>
    rw [here] at used
    exact compared _ u used
  | some op =>
    rw [here] at used
    rcases List.mem_append.mp used with before | behind
    · exact compared _ u before
    · rcases List.mem_cons.mp behind with rfl | behind
      · exact operand
      · split at behind
        · exact compared _ u behind
        · cases behind

theorem scanUses_valid (h : Scanned m) (n : Nat) : ∀ u ∈ m.scanUses P solve n, u.Valid := by
  induction n generalizing m with
  | zero =>
    intro u used
    rw [List.mem_singleton.mp used]
    trivial
  | succ n ih =>
    intro u used
    rw [scanUses] at used
    rcases List.mem_cons.mp used with rfl | used
    · trivial
    split at used
    · rename_i scanning
      rcases List.mem_append.mp used with now | later
      · exact stepUses_valid h scanning.1 u now
      · cases step : m.scanStep P solve with
        | mk m₁ status =>
          rw [step] at later
          cases status
          case ready => exact ih (h.step scanning step) u later
          all_goals cases later
    · cases used

theorem passUses_valid (m : Calculator σ) (block : Text) :
    ∀ u ∈ m.passUses P solve block, u.Valid := by
  have start := scanned_fill m block
  intro u used
  rw [passUses] at used
  rcases List.mem_cons.mp used with rfl | used
  · trivial
  revert used start
  generalize (m.fillWindow block).1 = m₁
  intro start used
  rcases List.mem_append.mp used with scan | used
  · exact scanUses_valid start evalBufferSize u scan
  cases scanned : m₁.scanWindow P solve evalBufferSize with
  | mk m₂ status =>
    rw [scanned] at used
    cases status
    case ready =>
      have stopped := start.scanWindow evalBufferSize scanned
      rcases List.mem_append.mp used with full | used
      · rw [fullUses] at full
        split at full
        · rw [List.mem_singleton.mp full]
          exact (by decide : 0 + (evalBufferSize - 1) ≤ evalBufferSize)
        · cases full
      · cases full : m₂.fullWindow P solve with
        | mk m₃ status =>
          rw [full] at used
          cases status
          case ready =>
            rw [List.mem_singleton.mp used]
            exact (stopped.fullWindow full).1.inside
          all_goals cases used
    all_goals cases used

theorem turnsUses_valid (n : Nat) (m : Calculator σ) (block : Text) :
    ∀ u ∈ m.turnsUses P solve n block, u.Valid := by
  induction n generalizing m block with
  | zero => exact fun u used => nomatch used
  | succ n ih =>
    cases block with
    | nil => exact fun u used => nomatch used
    | cons c block =>
      intro u used
      rw [turnsUses] at used
      rcases List.mem_append.mp used with now | later
      · exact passUses_valid m (c :: block) u now
      · revert later
        rcases m.evaluatePass P solve (c :: block) with ⟨m₁, status, rest⟩
        intro later
        cases status
        case ready => exact ih m₁ rest u later
        all_goals cases later

theorem resultUses_valid (inside : m.stack.bufferIndex ≤ evalBufferSize) :
    ∀ u ∈ m.resultUses, u.Valid := by
  intro u used
  rw [resultUses] at used
  split at used
  · rw [List.mem_singleton.mp used, WindowUse.Valid]
    omega
  · cases used

theorem performUses_valid (call : EvalCall) (inside : m.stack.bufferIndex ≤ evalBufferSize) :
    ∀ u ∈ m.performUses P solve call, u.Valid := by
  cases call with
  | clean => exact fun u used => nomatch used
  | evaluate block last =>
    intro u used
    rw [performUses] at used
    rcases List.mem_append.mp used with turns | result
    · exact turnsUses_valid (block.length + 1) m block u turns
    · have index := evaluateTurns_index P solve (block.length + 1) block inside
      rw [evaluateBlock] at result
      revert index result
      rcases m.evaluateTurns P solve (block.length + 1) block with ⟨m₁, status⟩
      intro result index
      cases status
      case ready =>
        cases last
        · cases result
        · exact resultUses_valid index u result
      all_goals cases result

end Calculator

/-! ### Runs -/

structure Evaluators (ι σ : Type) where
  stack : ι → Stack
  operandIndex : Nat
  env : σ

inductive EvaluatorEvent (ι σ : Type) where
  | call (d : ι) (call : EvalCall)
  /-- `evaluate_block` without a stack -/
  | reset
  /-- others change what the solvers read -/
  | others (env : σ)

namespace Evaluators
section
variable (P : Platform) {ι σ : Type} [DecidableEq ι] (solve : ι → Text → σ → σ × Option Int)

def calculator (b : Evaluators ι σ) (d : ι) : Calculator σ := ⟨b.stack d, b.operandIndex, b.env⟩

def perform (b : Evaluators ι σ) : EvaluatorEvent ι σ → Evaluators ι σ
  | .call d call =>
    let m := ((b.calculator d).perform P (solve d) call).1
    ⟨Function.update b.stack d m.stack, m.operandIndex, m.env⟩
  | .reset => { b with operandIndex := 0 }
  | .others env => { b with env }

def eventUses (b : Evaluators ι σ) : EvaluatorEvent ι σ → List WindowUse
  | .call d call => (b.calculator d).performUses P (solve d) call
  | .reset | .others _ => []

def uses : List (EvaluatorEvent ι σ) → Evaluators ι σ → List WindowUse
  | [], _ => []
  | event :: events, b => b.eventUses P solve event ++ uses events (b.perform P solve event)

end

def start {ι σ : Type} (b : Evaluators ι σ) : Evaluators ι σ :=
  { b with stack := fun d => (b.stack d).clean }

/-- No stack has its index behind the window. -/
def Within {ι σ : Type} (b : Evaluators ι σ) : Prop :=
  ∀ d, (b.stack d).bufferIndex ≤ evalBufferSize

variable {P : Platform} {ι σ : Type} [DecidableEq ι] {solve : ι → Text → σ → σ × Option Int}
variable {b : Evaluators ι σ}

theorem Within.perform (h : b.Within) (event : EvaluatorEvent ι σ) :
    (b.perform P solve event).Within := by
  cases event with
  | call d call =>
    intro e
    by_cases own : e = d
    · subst own
      simp only [Evaluators.perform, Function.update_self]
      exact Calculator.perform_index P (solve e) call (h e)
    · simp only [Evaluators.perform, Function.update_of_ne own]
      exact h e
  | reset | others => exact h

theorem Within.uses_valid (P : Platform) (solve : ι → Text → σ → σ × Option Int) (h : b.Within)
    (events : List (EvaluatorEvent ι σ)) : ∀ u ∈ uses P solve events b, u.Valid := by
  induction events generalizing b with
  | nil => exact fun u used => nomatch used
  | cons event events ih =>
    intro u used
    rw [uses] at used
    rcases List.mem_append.mp used with now | later
    · cases event with
      | call d call => exact Calculator.performUses_valid call (h d) u now
      | reset | others => cases now
    · exact ih (h.perform event) u later

/-- The window is not left in a run just when none of its uses begins a symbol of two bytes with
the last byte of the window, or hands a reference without a zero behind it to a solver. -/
theorem window_kept_iff (P : Platform) {ι σ : Type} [DecidableEq ι]
    (solve : ι → Text → σ → σ × Option Int) (events : List (EvaluatorEvent ι σ))
    (b : Evaluators ι σ) :
    (∀ u ∈ uses P solve events b.start, u.Inside) ↔
      ∀ u ∈ uses P solve events b.start, ¬u.Overruns := by
  have within : b.start.Within := fun _ => Nat.zero_le _
  have valid := within.uses_valid P solve events
  exact forall₂_congr fun u used => (valid u used).inside_iff

def idle : Evaluators Unit Unit := ⟨fun _ => .init, 0, ()⟩

/-- The reference `L#a` is solved in a full window without a zero. -/
theorem window_left : ¬ ∀ (P : Platform) (ι σ : Type) [DecidableEq ι]
    (solve : ι → Text → σ → σ × Option Int) (events : List (EvaluatorEvent ι σ))
    (b : Evaluators ι σ), ∀ u ∈ uses P solve events b.start, u.Inside := by
  intro h
  have inside := h .plain Unit Unit (fun _ _ e => (e, some 7))
    [.call () (.evaluate (chars ['L', '#', 'a', '+', '1', '+', '1', '+', '1', '+', '1', '+', '1',
      '+', '1']) false)] idle
  revert inside
  decide +kernel

end Evaluators
end EmmaNode

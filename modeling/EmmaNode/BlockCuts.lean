import EmmaNode.Windows
import EmmaNode.AgentContent

/-! A text written to a local resource in blocks. The calculator keeps what waits between two
blocks, so that the cut does not matter where no window takes bytes for what they are not. -/

namespace EmmaNode

namespace State
variable (P : Platform) (s : State) (uri : Text)

def valueOf : Option UInt16 :=
  (s.resolve uri).map fun i => s.store.values ((s.store.tree.data i).getD 0)

def evaluation (blocks : List Text) : Option State :=
  ((s.emmaResourceOpen uri).1.transfer P uri blocks 0).bind fun s =>
    let solve := s.store.rootResourceSolver P s.env
    if (s.calculator.evaluateResult P solve).2.1 = .complete then some (s.emmaResourceClose P uri)
    else none

def stored (blocks : List Text) : Option (Option UInt16) :=
  (s.evaluation P uri blocks).map fun s => s.valueOf uri

/-- Up to its first error the text is read as it stands, references solved by the store. -/
def Intact (blocks : List Text) : Prop :=
  (Accum.empty s.reader).Intact P (s.store.rootResourceSolver P s.env) blocks

variable {P s uri}

theorem rootResourceWrite_blocks (block : Text) :
    s.rootResourceWrite P block =
      match s.calculator.evaluateBlock P (s.store.rootResourceSolver P s.env)
        (block.take (block.length % 256)) with
      | (m, .ready) => (s.setCalculator m, (block.length : Int))
      | (m, _) => (s.setCalculator m, 0) := rfl

theorem transfer_resource (root : emmaGetRoot uri = some .resource) {i : Nat}
    (there : s.store.tree.resolve uri = some i) (blocks : List Text) (offset : Nat)
    (m : Calculator Reader) :
    (s.setCalculator m).transfer P uri blocks offset =
      match m.evaluateBlocks P (s.store.rootResourceSolver P s.env) blocks with
      | (m, .ready) => some (s.setCalculator m)
      | _ => none := by
  induction blocks generalizing m offset with
  | nil => rfl
  | cons block later ih =>
    have write : (s.setCalculator m).emmaResourceWrite P uri block offset =
        (s.setCalculator m).rootResourceWrite P block := by
      have there' : (s.setCalculator m).resolve uri = some i := there
      simp only [emmaResourceWrite, root, there']
    have calculator : (s.setCalculator m).calculator = m := rfl
    have solver : (s.setCalculator m).store.rootResourceSolver P (s.setCalculator m).env =
        s.store.rootResourceSolver P s.env := rfl
    rw [transfer, write, rootResourceWrite_blocks, calculator, solver, Calculator.evaluateBlocks]
    cases fed : m.evaluateBlock P (s.store.rootResourceSolver P s.env)
        (block.take (block.length % 256)) with
    | mk m₁ status =>
    cases status
    case ready =>
      simp only [if_true]
      exact ih _ m₁
    -- a block that is refused has a byte, and nothing of it was written
    all_goals
      have filled : ¬(0 : Int) = block.length := by
        intro empty
        obtain rfl : block = [] := List.length_eq_zero_iff.mp (by omega)
        cases fed
      simp only [if_neg filled]

theorem emmaResourceClose_valueOf (root : emmaGetRoot uri = some .resource) {i : Nat}
    (there : s.store.tree.resolve uri = some i) : (s.emmaResourceClose P uri).valueOf uri =
      ((s.calculator.evaluateResult P (s.store.rootResourceSolver P s.env)).2.2.map
        UInt16.ofInt).or (s.valueOf uri) := by
  have there' : s.resolve uri = some i := there
  unfold emmaResourceClose rootResourceClose
  simp only [root, there']
  rcases s.calculator.evaluateResult P (s.store.rootResourceSolver P s.env) with ⟨m, status, _ | v⟩
  · rfl
  · simp only [valueOf, resolve, setCalculator, there, Option.map_some, Function.update_self]
    rfl

theorem stored_outcome (root : emmaGetRoot uri = some .resource) {i : Nat}
    (there : s.store.tree.resolve uri = some i) (fresh : s.operandIndex = 0) {blocks : List Text}
    (intact : s.Intact P blocks) :
    s.stored P uri blocks = ((Accum.empty s.reader).outcome P
      (s.store.rootResourceSolver P s.env) (cleaned blocks.flatten)).map
        fun v => some (UInt16.ofInt v) := by
  have there' : s.resolve uri = some i := there
  have opened : (s.emmaResourceOpen uri).1 =
      s.setCalculator ⟨s.stack.clean, s.operandIndex, s.reader⟩ := by
    simp only [emmaResourceOpen, root, there']
    rfl
  have answers := @Calculator.evaluateText_outcome P Reader (s.store.rootResourceSolver P s.env)
    ⟨s.stack.clean, s.operandIndex, s.reader⟩ fresh rfl blocks intact
  have accum : (⟨s.stack.clean, s.operandIndex, s.reader⟩ : Calculator Reader).accum =
      Accum.empty s.reader := rfl
  rw [accum] at answers
  rw [stored, evaluation, opened, transfer_resource root there]
  unfold Calculator.evaluateText at answers
  generalize Calculator.evaluateBlocks P (s.store.rootResourceSolver P s.env) blocks _ = fed at *
  generalize (Accum.empty s.reader).outcome P _ _ = value at *
  obtain ⟨m, status⟩ := fed
  cases status
  case ready =>
    obtain ⟨result, complete⟩ := answers
    have calculator : (s.setCalculator m).calculator = m := rfl
    have solver : (s.setCalculator m).store.rootResourceSolver P (s.setCalculator m).env =
        s.store.rootResourceSolver P s.env := rfl
    simp only at result complete
    simp only [Option.bind_some, calculator, solver]
    cases value with
    | none =>
      rw [if_neg (fun e => by simpa using complete.mp e)]
      rfl
    | some v =>
      rw [if_pos (complete.mpr rfl), Option.map_some,
        emmaResourceClose_valueOf root (s := s.setCalculator m) there, calculator, solver, result]
      rfl
  all_goals
    obtain ⟨result, -⟩ := answers
    simp only at result
    rw [← result]
    rfl

/-- Two intact cuts of a text store the same value, or fail both. -/
theorem cut_independent (root : emmaGetRoot uri = some .resource)
    (there : s.store.emmaResourceExists uri = true) (fresh : s.operandIndex = 0)
    {a b : List Text} (same : a.flatten = b.flatten) (intactA : s.Intact P a)
    (intactB : s.Intact P b) : s.stored P uri a = s.stored P uri b := by
  obtain ⟨i, hi⟩ := Option.isSome_iff_exists.mp there
  rw [stored_outcome root hi fresh intactA, stored_outcome root hi fresh intactB, same]

def oneResource : List StoreOp := [.add (some .resource) (chars ['x'])]

def newResource : Text := chars ['L', '/', 'x']

theorem cut_independent_sum :
    (after oneResource).stored .plain newResource [chars ['1', '+', ' ', '2']] =
      (after oneResource).stored .plain newResource [chars ['1'], [], chars ['+', ' '], chars ['2']] :=
  cut_independent (by decide) (by decide +kernel) rfl (by decide)
    (Accum.intact_legible _ ⟨(chars ['2'], 2), by decide +kernel, by decide⟩)
    (Accum.intact_legible _ ⟨(chars ['2'], 0), by decide +kernel, by decide⟩)

/-- The last operand of `1+234` is looked for where only its last bytes are. -/
theorem cut_dependent : ¬ ∀ (P : Platform) (s : State) (uri : Text) (a b : List Text),
    s.store.Reached P → emmaGetRoot uri = some .resource → s.store.emmaResourceExists uri = true →
    s.operandIndex = 0 → a.flatten = b.flatten → s.stored P uri a = s.stored P uri b := by
  intro h
  have same := h .plain _ newResource [chars ['1', '+', '2', '3', '4']]
    [chars ['1', '+', '2'], chars ['3', '4']] (after_reached oneResource) (by decide)
    (by decide +kernel) rfl (by decide)
  revert same
  decide +kernel

end State
end EmmaNode

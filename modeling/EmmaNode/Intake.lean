import EmmaNode.LocalDelivery
import EmmaNode.GetFrame
import EmmaNode.Digits

/-! What a root takes of a payload and what the resource then holds, told by the resource in
front of the first block: by the scanner of an agent and the file system, or by the evaluator.
The system root takes nothing. -/

namespace EmmaNode

def Dense (blocks : List Text) : Prop := ∀ block ∈ blocks.dropLast, block ≠ []

theorem Dense.tail {block : Text} {rest : List Text} (h : Dense (block :: rest)) : Dense rest := by
  cases rest with
  | nil => exact fun _ member => absurd member (by simp)
  | cons next rest => exact fun b member => h b (List.mem_cons_of_mem _ member)

theorem Dense.last {rest : List Text} (h : Dense ([] :: rest)) : rest = [] := by
  cases rest with
  | nil => rfl
  | cons next rest => exact absurd rfl (h [] List.mem_cons_self)

theorem Cut.dense {payload : Text} {blocks : List Text} (cut : Cut payload blocks) : Dense blocks := by
  rintro _ member rfl
  cases cut.full [] member

/-- To write no byte changes none. -/
def Platform.IdleWrites (P : Platform) : Prop :=
  ∀ file offset, match P.cfsWrite file offset [] with
    | .refused => True
    | .wrote _ file' => file' = file.getD []

theorem Platform.plain_idleWrites : Platform.plain.IdleWrites := by
  intro file offset
  show match storeBytes file offset [] with
    | .refused => True
    | .wrote _ file' => file' = file.getD []
  by_cases inside : 0 ≤ offset ∧ offset ≤ (file.getD []).length
  · simp [storeBytes, inside]
  · simp [storeBytes, inside]

def Platform.filed (P : Platform) : List Text → Nat → Option Text → Option (Option Text)
  | [], _, file => some file
  | block :: rest, num, file =>
    if block = [] then filed P rest (num + 1) file
    else match P.cfsWrite file (P.int (num * emmaClientBufferSize : Nat)) block with
      | .wrote n file =>
        if (UInt16.ofInt n).toNat = block.length then filed P rest (num + 1) (some file) else none
      | .refused => none

def Agent.Unrepeated (P : Platform) : List Text → Nat → Agent → Prop
  | [], _, _ => True
  | block :: rest, num, a =>
    (a.analyzeBlock P block (P.int (num * emmaClientBufferSize : Nat))).2 = false ∧
      Unrepeated P rest (num + 1)
        { (a.analyzeBlock P block (P.int (num * emmaClientBufferSize : Nat))).1 with
          size := (a.analyzeBlock P block (P.int (num * emmaClientBufferSize : Nat))).1.size +
            UInt16.ofNat block.length }

namespace State
variable (P : Platform) (s : State) (uri : Text) (blocks : List Text)

def file (slot : Nat) : Option Text := s.store.files (s.store.agents slot).memoryIndex

/-- The evaluator as `emma_resource_open` leaves it -/
def cleared : Calculator Reader := ⟨s.stack.clean, s.operandIndex, s.reader⟩

/-- The root of the target takes the blocks. -/
def Takes : Prop :=
  match emmaGetRoot uri with
  | some .agent => ∀ slot, (s.add P uri).store.slotOf uri = some slot →
      ((s.add P uri).store.agents slot).Unrepeated P blocks 0 ∧
        (P.filed blocks 0 ((s.add P uri).file slot)).isSome
  | some .resource => (s.cleared.evaluateBlocks P
      ((s.add P uri).store.rootResourceSolver P s.env) blocks).2 = .ready
  | _ => ∀ block ∈ blocks, block = []

/-- A resource that takes the blocks holds what they put into it. -/
def Holds : Prop :=
  match emmaGetRoot uri with
  | some .agent => ∀ slot, s.store.slotOf uri = some slot →
      ∀ file ∈ P.filed blocks 0 (s.file slot), file.getD [] = (s.file slot).getD []
  | some .resource => ∀ v ∈ (s.cleared.evaluateText P
      (s.store.rootResourceSolver P s.env) blocks).2, s.valueOf uri = some (UInt16.ofInt v)
  | _ => True

/-- What the evaluator has left has no value, or the one the resource has. -/
def Spent : Prop :=
  emmaGetRoot uri = some .resource → ∀ v ∈ (s.calculator.evaluateResult P
    (s.store.rootResourceSolver P s.env)).2.2, s.valueOf uri = some (UInt16.ofInt v)

end State

theorem Store.Reached.slotOf {P : Platform} {st : Store} (h : st.Reached P) {uri : Text} {i : Nat}
    (there : st.tree.resolve uri = some i) : ∃ slot, st.slotOf uri = some slot := by
  obtain ⟨f, so⟩ := h.sound
  obtain ⟨root, -, live⟩ := so.shape.resolve_mem there
  obtain ⟨slot, hdata, -⟩ := so.slot root i live
  exact ⟨slot, by rw [Store.slotOf, there]; exact hdata⟩

namespace State
variable {P : Platform} {s t u : State} {uri : Text} {slot : Nat}

theorem Agrees.refl (s : State) : s.Agrees P uri s := ⟨rfl, fun _ _ => rfl⟩

theorem Agrees.symm (h : s.Agrees P uri t) : t.Agrees P uri s :=
  ⟨h.1.symm, fun size index => (h.2 size index).symm⟩

theorem Agrees.trans (a : s.Agrees P uri t) (b : t.Agrees P uri u) : s.Agrees P uri u :=
  ⟨b.1.trans a.1, fun size index => (b.2 size index).trans (a.2 size index)⟩

theorem IsAgent.exists (a : s.IsAgent uri slot) : s.store.emmaResourceExists uri = true := by
  obtain ⟨i, hi, -⟩ := a.resolve
  exact congrArg Option.isSome hi

theorem IsAgent.content_eq (a : s.IsAgent uri slot) : s.content uri = (s.file slot).getD [] := by
  rw [content, a.slot]
  rfl

theorem IsAgent.agrees_iff {slot' : Nat} (a : s.IsAgent uri slot) (b : t.IsAgent uri slot') :
    s.Agrees P uri t ↔ t.content uri = s.content uri := by
  have reads {w : State} {k : Nat} (a : w.IsAgent uri k) (size : Nat) (index : Int) :
      (w.emmaResourceRead P uri size index).2 = if index < 0 then .none
        else ⟨((w.content uri).drop index.toNat).take size,
          (((w.content uri).drop index.toNat).take size).length⟩ := by
    obtain ⟨i, hi, hdata⟩ := a.resolve
    have there : (w.store.tree.emmaGetResource (emmaGetName uri) .agent).resource = some i := by
      rw [Tree.resolve, a.root] at hi
      exact hi
    simp only [emmaResourceRead, Store.emmaResourceRead, a.root, there, hdata, Option.getD_some,
      Store.rootAgentRead, a.content_eq, file]
    cases w.store.files (w.store.agents k).memoryIndex with
    | none => simp [ReadResult.none]
    | some file => rfl
  constructor
  · rintro ⟨-, same⟩
    have whole := same ((s.content uri).length + (t.content uri).length) 0
    rw [reads a, reads b] at whole
    have bytes := congrArg ReadResult.bytes whole
    simp only [Int.lt_irrefl, if_false, Int.toNat_zero, List.drop_zero,
      List.take_of_length_le (Nat.le_add_right _ _),
      List.take_of_length_le (Nat.le_add_left _ _)] at bytes
    exact bytes
  · intro same
    exact ⟨b.exists.trans a.exists.symm, fun size index => by rw [reads a, reads b, same]⟩

theorem agrees_resource (root : emmaGetRoot uri = some .resource) {i j : Nat}
    (hi : s.resolve uri = some i) (hj : t.resolve uri = some j) :
    s.Agrees P uri t ↔ t.valueOf uri = s.valueOf uri := by
  have reads {w : State} {k : Nat} (hk : w.resolve uri = some k) (size : Nat) (index : Int) :
      (w.emmaResourceRead P uri size index).2 =
        w.store.rootResourceRead P ((w.store.tree.data k).getD 0) size index := by
    have there : (w.store.tree.emmaGetResource (emmaGetName uri) .resource).resource = some k := by
      rw [State.resolve, Tree.resolve, root] at hk
      exact hk
    simp only [emmaResourceRead, Store.emmaResourceRead, root, there]
  have value {w : State} {k : Nat} (hk : w.resolve uri = some k) :
      w.valueOf uri = some (w.store.values ((w.store.tree.data k).getD 0)) := by
    rw [valueOf, hk, Option.map_some]
  rw [value hi, value hj, Option.some_inj]
  generalize hv : s.store.values ((s.store.tree.data i).getD 0) = v
  generalize hw : t.store.values ((t.store.tree.data j).getD 0) = w
  constructor
  · rintro ⟨-, same⟩
    have whole := same ((decimal v.toNat).length + (decimal w.toNat).length) 0
    have zero : P.unsigned 0 = 0 := by simp [Platform.unsigned]
    have digits (n : Nat) : decimal n ≠ [] := List.ne_nil_of_length_pos (length_decimal_pos n)
    rw [reads hi, reads hj, Store.rootResourceRead, Store.rootResourceRead, hv, hw, zero] at whole
    have bytes := congrArg ReadResult.bytes whole
    simp only [List.drop_zero, List.take_of_length_le (Nat.le_add_right _ _),
      List.take_of_length_le (Nat.le_add_left _ _), digits, if_false] at bytes
    have numbers := congrArg decimalValue bytes
    rw [decimalValue_decimal, decimalValue_decimal] at numbers
    exact UInt16.toNat_inj.mp numbers
  · rintro rfl
    refine ⟨?_, fun size index => ?_⟩
    · have there : t.store.tree.resolve uri = some j := hj
      have there' : s.store.tree.resolve uri = some i := hi
      rw [Store.emmaResourceExists, Store.emmaResourceExists, there, there']
      rfl
    · rw [reads hi, reads hj, Store.rootResourceRead, Store.rootResourceRead, hv, hw]

theorem IsAgent.writeNum (a : u.IsAgent uri slot) (num : Nat) (block : Text) :
    (u.writeNum P uri num block).1.IsAgent uri slot := by
  obtain ⟨agents, files, same⟩ := Content.rootAgentWrite (P := P) u.store slot block
    (P.int (num * emmaClientBufferSize : Nat))
  refine ⟨a.root, ?_⟩
  rw [State.writeNum, a.write, same]
  exact a.slot

theorem IsAgent.taken (a : u.IsAgent uri slot) {num : Nat} {block : Text} (filled : block ≠ [])
    {agent : Agent} {twice : Bool}
    (scan : (u.store.agents slot).analyzeBlock P block (P.int (num * emmaClientBufferSize : Nat)) =
      (agent, twice)) :
    (UInt16.ofInt (u.writeNum P uri num block).2).toNat = block.length ↔
      twice = false ∧ ∃ n file, P.cfsWrite (u.file slot)
        (P.int (num * emmaClientBufferSize : Nat)) block = .wrote n file ∧
        (UInt16.ofInt n).toNat = block.length := by
  have long : (UInt16.ofInt 0).toNat ≠ block.length := fun e =>
    filled (List.length_eq_zero_iff.mp e.symm)
  have index := (u.store.agents slot).analyzeBlock_memoryIndex (P := P) block
    (P.int (num * emmaClientBufferSize : Nat))
  simp only [scan] at index
  rw [State.writeNum, a.write, Store.rootAgentWrite, scan, file]
  cases twice with
  | true => simpa using long
  | false =>
    simp only [index, true_and]
    cases P.cfsWrite (u.store.files (u.store.agents slot).memoryIndex)
      (P.int (num * emmaClientBufferSize : Nat)) block with
    | refused => simpa using long
    | wrote n file => simp

theorem IsAgent.wrote (a : u.IsAgent uri slot) {num : Nat} {block : Text} {agent : Agent}
    (scan : (u.store.agents slot).analyzeBlock P block (P.int (num * emmaClientBufferSize : Nat)) =
      (agent, false)) {n : Int} {file : Text}
    (stored : P.cfsWrite (u.file slot) (P.int (num * emmaClientBufferSize : Nat)) block =
      .wrote n file) :
    (u.writeNum P uri num block).1.store.agents slot =
        { agent with size := agent.size + UInt16.ofInt n } ∧
      (u.writeNum P uri num block).1.file slot = some file := by
  have index := (u.store.agents slot).analyzeBlock_memoryIndex (P := P) block
    (P.int (num * emmaClientBufferSize : Nat))
  simp only [scan] at index
  rw [State.file, ← index] at stored
  constructor <;>
    simp only [State.writeNum, a.write, Store.rootAgentWrite, scan, stored, State.file,
      Function.update_self]

theorem IsAgent.wrote_nil (idle : P.IdleWrites) (a : u.IsAgent uri slot) (num : Nat) :
    (u.writeNum P uri num []).1.content uri = u.content uri := by
  rw [(a.writeNum num []).content_eq, a.content_eq, State.writeNum, a.write, file, file]
  have index := (u.store.agents slot).analyzeBlock_memoryIndex (P := P) []
    (P.int (num * emmaClientBufferSize : Nat))
  rcases scan : (u.store.agents slot).analyzeBlock P [] (P.int (num * emmaClientBufferSize : Nat))
    with ⟨agent, _ | _⟩
  · simp only [scan] at index
    have still := idle (u.store.files agent.memoryIndex) (P.int (num * emmaClientBufferSize : Nat))
    simp only [Store.rootAgentWrite, scan]
    revert still
    cases P.cfsWrite (u.store.files agent.memoryIndex)
      (P.int (num * emmaClientBufferSize : Nat)) [] with
    | refused => simp [index]
    | wrote n file =>
      rintro rfl
      simp [index]
  · simp [Agent.analyzeBlock, Agent.scan] at scan

theorem filed_cons {num : Nat} {block : Text} (filled : block ≠ []) {rest : List Text}
    {old : Option Text} {n : Int} {file : Text}
    (stored : P.cfsWrite old (P.int (num * emmaClientBufferSize : Nat)) block = .wrote n file)
    (full : (UInt16.ofInt n).toNat = block.length) :
    P.filed (block :: rest) num old = P.filed rest (num + 1) (some file) := by
  simp only [Platform.filed, if_neg filled, stored, if_pos full]

theorem filed_refused {num : Nat} {block : Text} (filled : block ≠ []) {rest : List Text}
    {old : Option Text} (refused : ¬∃ n file, P.cfsWrite old
      (P.int (num * emmaClientBufferSize : Nat)) block = .wrote n file ∧
        (UInt16.ofInt n).toNat = block.length) :
    P.filed (block :: rest) num old = none := by
  simp only [Platform.filed, if_neg filled]
  split
  · rename_i n file stored
    rw [if_neg fun full => refused ⟨n, file, stored, full⟩]
  · rfl

theorem IsAgent.accepts_iff (a : u.IsAgent uri slot) {blocks : List Text} (dense : Dense blocks)
    (num : Nat) : u.Accepts P uri blocks num ↔
      (u.store.agents slot).Unrepeated P blocks num ∧
        (P.filed blocks num (u.file slot)).isSome := by
  induction blocks generalizing u num with
  | nil => simp [Accepts, Agent.Unrepeated, Platform.filed]
  | cons block rest ih =>
    rw [Accepts, Agent.Unrepeated]
    rcases scan : (u.store.agents slot).analyzeBlock P block
      (P.int (num * emmaClientBufferSize : Nat)) with ⟨agent, twice⟩
    by_cases empty : block = []
    · subst empty
      obtain rfl := dense.last
      obtain rfl : twice = false := by
        have := congrArg Prod.snd scan
        simpa [Agent.analyzeBlock, Agent.scan] using this.symm
      simp [Accepts, Agent.Unrepeated, Platform.filed]
    · have taken := a.taken empty scan
      by_cases full : (UInt16.ofInt (u.writeNum P uri num block).2).toNat = block.length
      · obtain ⟨rfl, n, file, stored, whole⟩ := taken.mp full
        obtain ⟨agents, files⟩ := a.wrote scan stored
        have size : UInt16.ofInt n = UInt16.ofNat block.length := by rw [← whole, UInt16.ofNat_toNat]
        rw [ih (a.writeNum num block) dense.tail, agents, files, filed_cons empty stored whole, size]
        simp [full]
      · have refused : ¬(twice = false ∧ (P.filed (block :: rest) num (u.file slot)).isSome) := by
          rintro ⟨once, some⟩
          by_cases stored : ∃ n file, P.cfsWrite (u.file slot)
              (P.int (num * emmaClientBufferSize : Nat)) block = .wrote n file ∧
              (UInt16.ofInt n).toNat = block.length
          · exact full (taken.mpr ⟨once, stored⟩)
          · rw [filed_refused empty stored] at some
            cases some
        constructor
        · rintro ⟨good, -⟩
          exact absurd (good empty) full
        · rintro ⟨⟨once, -⟩, some⟩
          exact absurd ⟨once, some⟩ refused

theorem IsAgent.writes_content (idle : P.IdleWrites) (a : u.IsAgent uri slot) {blocks : List Text}
    (dense : Dense blocks) {num : Nat} (single : (u.store.agents slot).Unrepeated P blocks num)
    {file : Option Text} (filed : P.filed blocks num (u.file slot) = some file) :
    (u.writes P uri blocks num).IsAgent uri slot ∧
      (u.writes P uri blocks num).content uri = file.getD [] := by
  induction blocks generalizing u num with
  | nil =>
    obtain rfl := Option.some.inj filed
    exact ⟨a, a.content_eq⟩
  | cons block rest ih =>
    by_cases empty : block = []
    · subst empty
      obtain rfl := dense.last
      obtain rfl := Option.some.inj filed
      exact ⟨a.writeNum num [], (a.wrote_nil idle num).trans a.content_eq⟩
    · obtain ⟨once, later⟩ := single
      by_cases stored : ∃ n file, P.cfsWrite (u.file slot)
          (P.int (num * emmaClientBufferSize : Nat)) block = .wrote n file ∧
          (UInt16.ofInt n).toNat = block.length
      · obtain ⟨n, file', stored, whole⟩ := stored
        have scan : (u.store.agents slot).analyzeBlock P block
            (P.int (num * emmaClientBufferSize : Nat)) =
            (((u.store.agents slot).analyzeBlock P block
              (P.int (num * emmaClientBufferSize : Nat))).1, false) := by rw [← once]
        obtain ⟨agents, files⟩ := a.wrote scan stored
        have size : UInt16.ofInt n = UInt16.ofNat block.length := by rw [← whole, UInt16.ofNat_toNat]
        rw [filed_cons empty stored whole, ← files] at filed
        rw [size] at agents
        exact ih (a.writeNum num block) dense.tail (by rw [agents]; exact later) filed
      · rw [filed_refused empty stored] at filed
        cases filed

theorem writes_resource (root : emmaGetRoot uri = some .resource) {i : Nat}
    (there : u.resolve uri = some i) {blocks : List Text}
    (fits : ∀ block ∈ blocks, block.length ≤ emmaClientBufferSize) (num : Nat)
    (m : Calculator Reader) :
    ((u.setCalculator m).Accepts P uri blocks num ↔
      (m.evaluateBlocks P (u.store.rootResourceSolver P u.env) blocks).2 = .ready) ∧
    ((m.evaluateBlocks P (u.store.rootResourceSolver P u.env) blocks).2 = .ready →
      (u.setCalculator m).writes P uri blocks num =
        u.setCalculator (m.evaluateBlocks P (u.store.rootResourceSolver P u.env) blocks).1) := by
  induction blocks generalizing num m with
  | nil => exact ⟨iff_of_true trivial rfl, fun _ => rfl⟩
  | cons block rest ih =>
    have write : (u.setCalculator m).writeNum P uri num block =
        (u.setCalculator m).rootResourceWrite P block := by
      have there' : (u.setCalculator m).resolve uri = some i := there
      simp only [writeNum, emmaResourceWrite, root, there']
    have short := fits block List.mem_cons_self
    rw [Accepts, writes, write, rootResourceWrite_blocks, Calculator.evaluateBlocks,
      show (u.setCalculator m).calculator = m from rfl,
      show (u.setCalculator m).store.rootResourceSolver P (u.setCalculator m).env =
        u.store.rootResourceSolver P u.env from rfl]
    cases fed : m.evaluateBlock P (u.store.rootResourceSolver P u.env)
        (block.take (block.length % 256)) with
    | mk m₁ status =>
    cases status
    case ready =>
      have full : (UInt16.ofInt (block.length : Int)).toNat = block.length :=
        toNat_ofInt (by rw [emmaClientBufferSize] at short; omega)
      obtain ⟨accepts, written⟩ := ih (fun b hb => fits b (List.mem_cons_of_mem _ hb)) (num + 1) m₁
      simp only [full, implies_true, true_and]
      exact ⟨accepts, written⟩
    -- a block that is refused has a byte, and nothing of it was written
    all_goals
      have filled : block ≠ [] := by
        rintro rfl
        cases fed
      have wrong : (UInt16.ofInt 0).toNat ≠ block.length := fun e =>
        filled (List.length_eq_zero_iff.mp e.symm)
      simp [filled, wrong]

theorem close_agrees (root : emmaGetRoot uri = some .resource) {i : Nat}
    (there : u.resolve uri = some i) : u.Agrees P uri (u.emmaResourceClose P uri) ↔
      ∀ v ∈ (u.calculator.evaluateResult P (u.store.rootResourceSolver P u.env)).2.2,
        u.valueOf uri = some (UInt16.ofInt v) := by
  have still : (u.emmaResourceClose P uri).resolve uri = some i :=
    ((Content.emmaResourceClose _ _).resolve_eq uri).trans there
  rw [agrees_resource root there still, emmaResourceClose_valueOf root there]
  cases (u.calculator.evaluateResult P (u.store.rootResourceSolver P u.env)).2.2 with
  | none => simp
  | some v => simp [eq_comm]

section
variable {i : Nat} {blocks : List Text}

theorem begun_eq (made : (s.add P uri).resolve uri = some i) :
    s.begun P uri = { s.add P uri with
      stack := if emmaGetRoot uri = some .resource then s.stack.clean else s.stack } := by
  rw [begun, emmaResourceOpen_there made]
  rfl

theorem begun_agent (h : s.store.Reached P) (made : (s.add P uri).resolve uri = some i)
    (root : emmaGetRoot uri = some .agent) : ∃ slot, (s.begun P uri).IsAgent uri slot := by
  obtain ⟨files, run⟩ := h
  have grown : (s.add P uri).store.Reached P :=
    ⟨files, run.tail (e := .add (emmaGetRoot uri) (emmaGetName uri)) trivial rfl⟩
  obtain ⟨slot, hslot⟩ := grown.slotOf made
  refine ⟨slot, root, ?_⟩
  rw [begun_eq made]
  exact hslot

theorem begun_resource (made : (s.add P uri).resolve uri = some i)
    (root : emmaGetRoot uri = some .resource) :
    s.begun P uri = (s.add P uri).setCalculator s.cleared := by
  rw [begun_eq made, if_pos root]
  rfl

theorem writes_system (root : emmaGetRoot uri = some .system) (num : Nat) (u : State) :
    (u.Accepts P uri blocks num ↔ ∀ block ∈ blocks, block = []) ∧ u.writes P uri blocks num = u := by
  induction blocks generalizing num u with
  | nil => simp [Accepts, writes]
  | cons block rest ih =>
    have write : u.writeNum P uri num block = (u, 0) := by
      simp only [State.writeNum, emmaResourceWrite, root]
      split <;> rfl
    have zero : (UInt16.ofInt 0).toNat = block.length ↔ block = [] :=
      ⟨fun e => List.length_eq_zero_iff.mp e.symm, by rintro rfl; rfl⟩
    rw [Accepts, writes, write]
    simp only [zero, ih, List.forall_mem_cons]
    refine ⟨⟨fun h => ⟨?_, h.2⟩, fun h => ⟨fun _ => h.1, h.2⟩⟩, trivial⟩
    by_contra filled
    exact filled (h.1 filled)

theorem takes_iff (h : s.store.Reached P) (made : (s.add P uri).resolve uri = some i)
    (dense : Dense blocks) (fits : ∀ block ∈ blocks, block.length ≤ emmaClientBufferSize) :
    s.Takes P uri blocks ↔ (s.begun P uri).Accepts P uri blocks 0 := by
  obtain ⟨root, hroot, -⟩ := Option.bind_eq_some_iff.mp made
  cases root with
  | agent =>
    obtain ⟨slot, a⟩ := begun_agent h made hroot
    have same : (s.begun P uri).store = (s.add P uri).store := by rw [begun_eq made]
    have hslot := a.slot
    rw [same] at hslot
    rw [a.accepts_iff dense, State.file, same]
    simp only [Takes, hroot, hslot, Option.some.injEq, forall_eq', State.file]
  | resource =>
    rw [begun_resource made hroot, (writes_resource hroot made fits 0 s.cleared).1]
    simp only [Takes, hroot]
    rfl
  | system =>
    rw [(writes_system hroot 0 _).1]
    simp only [Takes, hroot]

theorem inert (idle : P.IdleWrites) (h : s.store.Reached P)
    (made : (s.add P uri).resolve uri = some i) (dense : Dense blocks) :
    (((s.begun P uri).writes P uri (blocks.filter (· ≠ [])) 0).emmaResourceClose P uri).Agrees P uri
      (((s.begun P uri).writes P uri blocks 0).emmaResourceClose P uri) := by
  obtain ⟨root, hroot, -⟩ := Option.bind_eq_some_iff.mp made
  cases root with
  | agent =>
    obtain ⟨slot, a⟩ := begun_agent h made hroot
    generalize s.begun P uri = u at a ⊢
    generalize 0 = num
    simp only [emmaResourceClose, hroot]
    induction blocks generalizing u num with
    | nil => exact .refl _
    | cons block rest ih =>
      by_cases empty : block = []
      · subst empty
        obtain rfl := dense.last
        exact (a.agrees_iff (a.writeNum num [])).mpr (a.wrote_nil idle num)
      · rw [List.filter_cons_of_pos (by simpa using empty), writes, writes]
        exact ih dense.tail _ (a.writeNum num block) (num + 1)
  | resource =>
    have skip (u : State) (num : Nat) : (u.writeNum P uri num []).1 = u := by
      simp only [State.writeNum, emmaResourceWrite, hroot]
      split <;> rfl
    have place (u : State) (block : Text) (num num' : Nat) :
        u.writeNum P uri num block = u.writeNum P uri num' block := by
      simp only [State.writeNum, emmaResourceWrite, hroot]
    have same (num num' : Nat) (u : State) :
        u.writes P uri (blocks.filter (· ≠ [])) num = u.writes P uri blocks num' := by
      clear dense
      induction blocks generalizing num num' u with
      | nil => rfl
      | cons block rest ih =>
        by_cases empty : block = []
        · rw [List.filter_cons_of_neg (by simpa using empty), writes, empty, skip,
            ih num (num' + 1)]
        · rw [List.filter_cons_of_pos (by simpa using empty), writes, writes, place u block num num',
            ih (num + 1) (num' + 1)]
    rw [same 0 0]
    exact .refl _
  | system =>
    rw [(writes_system hroot 0 _).2, (writes_system hroot 0 _).2]
    exact .refl _

theorem writes_holds (idle : P.IdleWrites) (h : s.store.Reached P) (there : s.resolve uri = some i)
    (dense : Dense blocks) (fits : ∀ block ∈ blocks, block.length ≤ emmaClientBufferSize)
    (takes : s.Takes P uri blocks) :
    s.Agrees P uri (((s.begun P uri).writes P uri blocks 0).emmaResourceClose P uri) ↔
      s.Holds P uri blocks := by
  have known := add_known (P := P) there
  have made : (s.add P uri).resolve uri = some i := by rw [known]; exact there
  obtain ⟨root, hroot, -⟩ := Option.bind_eq_some_iff.mp there
  cases root with
  | agent =>
    obtain ⟨slot, hslot⟩ := h.slotOf there
    have a : s.IsAgent uri slot := ⟨hroot, hslot⟩
    have begins : s.begun P uri = s := by
      rw [begun_eq made, known, hroot, if_neg (by decide)]
    rw [begins]
    simp only [Takes, hroot, known, hslot, Option.some.injEq, forall_eq'] at takes
    obtain ⟨single, filed⟩ := takes
    obtain ⟨file, filed⟩ := Option.isSome_iff_exists.mp filed
    obtain ⟨a', content⟩ := a.writes_content idle dense single filed
    simp only [emmaResourceClose, hroot, Holds, hslot, Option.some.injEq, forall_eq', filed,
      Option.mem_def]
    rw [a.agrees_iff a', content, a.content_eq]
  | resource =>
    rw [begun_resource made hroot, known]
    simp only [Takes, hroot, known] at takes
    rw [(writes_resource hroot there fits 0 s.cleared).2 takes]
    simp only [Holds, hroot, Calculator.evaluateText]
    revert takes
    rcases s.cleared.evaluateBlocks P (s.store.rootResourceSolver P s.env) blocks with ⟨m, status⟩
    rintro rfl
    have still : (s.setCalculator m).resolve uri = some i := there
    have same : s.Agrees P uri (s.setCalculator m) := (agrees_resource hroot there still).mpr rfl
    exact ⟨fun all => (close_agrees hroot still).mp (same.symm.trans all),
      fun all => same.trans ((close_agrees hroot still).mpr all)⟩
  | system =>
    have begins : s.begun P uri = s := by
      rw [begun_eq made, known, hroot, if_neg (by decide)]
    rw [begins, (writes_system hroot 0 _).2]
    simp only [emmaResourceClose, hroot, Holds, iff_true]
    exact .refl _

theorem takes_nil (s : State) (uri : Text) : s.Takes P uri [[]] ∧ s.Holds P uri [[]] := by
  unfold Takes Holds
  split
  · simp [Agent.Unrepeated, Agent.analyzeBlock, Agent.scan, Platform.filed]
  · refine ⟨rfl, fun v hv => ?_⟩
    have none' := s.cleared.evaluateResult_clean P (s.store.rootResourceSolver P s.env) rfl rfl rfl
    have value : (s.cleared.evaluateResult P (s.store.rootResourceSolver P s.env)).2.2 = some v := hv
    rw [none'] at value
    cases value
  · simp

end

end State
end EmmaNode

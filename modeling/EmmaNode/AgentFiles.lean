import EmmaNode.StoreBalance

/-! Which file an agent writes to. The pool of agents and the table `memory` of files are
allocators of their own; a block of the pool keeps the index of its file. In every store the
index is one of the table, marked there, and no other block has it. -/

namespace EmmaNode

def getFileName (memoryIndex : Nat) : Option Text :=
  if rootMaxAlloc .agent ≤ memoryIndex then none
  else some (chars ['R', 'O', 'O', 'T', 'A', 'G', 'E', 'N', 'T'] ++ decimal memoryIndex)

theorem getFileName_inj {i j : Nat} {name : Text} (hi : getFileName i = some name)
    (hj : getFileName j = some name) : i = j := by
  unfold getFileName at hi hj
  split at hi
  · cases hi
  split at hj
  · cases hj
  rename_i inside inside'
  have few : ∀ i < rootMaxAlloc .agent, ∀ j < rootMaxAlloc .agent, decimal i = decimal j → i = j := by
    decide
  have same := List.append_cancel_left (Option.some.inj (hi.trans hj.symm))
  exact few i (Nat.not_le.mp inside) j (Nat.not_le.mp inside') same

namespace Store
variable (P : Platform) (st : Store)

/-- The cells of `memory` that `getMemoryIndex` reads; it marks the last one. -/
def memoryReads : List Nat := List.range (st.getMemoryIndex + 1)

inductive RootOp where
  | call (op : StoreOp)
  | reset (root : Root) (slot : Nat)

def perform : RootOp → Store
  | .call op => st.apply P op
  | .reset root slot => st.resetData root slot

/-- Reached from the store of `emma_resource_init` by calls and resets. -/
def Performed : Prop :=
  ∃ files, Runs (fun st op => some (perform P st op)) (fun _ _ => True) (empty files) st

/-- Agents in use and files in use go together. -/
structure FilesApart (st : Store) : Prop where
  marked : ∀ i, st.memory i = true ↔
    ∃ slot, (st.alloc .agent).Used slot ∧ (st.agents slot).memoryIndex = i
  inTable : ∀ slot, (st.alloc .agent).Used slot →
    (st.agents slot).memoryIndex < rootMaxAlloc .agent
  /-- What `getMemoryIndex` reads and marks once there is a block for the agent -/
  reads : (st.alloc .agent).alloc.isSome → ∀ i ∈ st.memoryReads, i < rootMaxAlloc .agent
  named : ∀ slot, (st.alloc .agent).Used slot →
    (getFileName (st.agents slot).memoryIndex).isSome
  apart : ∀ slot slot', (st.alloc .agent).Used slot → (st.alloc .agent).Used slot' →
    getFileName (st.agents slot).memoryIndex = getFileName (st.agents slot').memoryIndex →
    slot = slot'

/-- Nothing is marked behind the table. -/
def Inside (st : Store) : Prop := ∀ i, st.memory i = true → i < rootMaxAlloc .agent

variable {P : Platform} {st : Store} {f : Root → Forest Nat}

theorem Balanced.apart_of_inside (b : st.Balanced) (inside : st.Inside) : st.FilesApart where
  marked i := by
    constructor
    · intro marked
      exact (b.file i (inside i marked)).mp marked
    · rintro ⟨slot, used, rfl⟩
      exact (b.file _ (b.inTable slot used)).mpr ⟨slot, used, rfl⟩
  inTable := b.inTable
  reads room i hi := by
    obtain ⟨⟨slot, pool⟩, h⟩ := Option.isSome_iff_exists.mp room
    have last := (b.getMemoryIndex_lt h).1
    have := List.mem_range.mp hi
    omega
  named slot used := by
    rw [getFileName, if_neg (Nat.not_le.mpr (b.inTable slot used))]
    rfl
  apart slot slot' used used' same := by
    obtain ⟨name, hname⟩ : ∃ name, getFileName (st.agents slot).memoryIndex = some name := by
      rw [getFileName, if_neg (Nat.not_le.mpr (b.inTable slot used))]
      exact ⟨_, rfl⟩
    exact b.apart slot slot' used used' (getFileName_inj hname (same ▸ hname))

theorem Inside.add (inside : st.Inside) (b : st.Balanced)
    (size : st.tree.pool.used.length = emmaMaxResources) (root : Option Root) (name : Text) :
    (st.emmaResourceAdd P root name).1.Inside := by
  cases root with
  | none => exact inside
  | some root =>
    by_cases hne : name = []
    · simpa [emmaResourceAdd, if_pos hne] using inside
    cases missing : (st.tree.emmaGetResource name root).resource with
    | some i => simpa [emmaResourceAdd, if_neg hne, missing] using inside
    | none =>
      obtain ⟨n, pool, -, ⟨-, e⟩ | ⟨slot, data, st₁, -, hdata, -, -, e⟩⟩ :=
        emmaResourceAdd_cases P b size root hne missing
      · rw [e]
        exact inside
      have cleaned : (st.cleanResource n).Balanced := b.congr rfl rfl rfl fun _ => rfl
      have files := cleaned.allocData root
      rw [hdata] at files
      have allocated : st₁.Inside := by
        obtain ⟨-, bad⟩ | ⟨-, -, -, -, -, -, ⟨memory, -⟩ | ⟨-, index, small, -, memory, -⟩⟩ := files
        · cases bad
        · intro i hi
          rw [memory] at hi
          exact inside i hi
        · intro i hi
          rw [memory, Function.update_apply] at hi
          split at hi
          · rename_i same
            rwa [same]
          · exact inside i hi
      have prepared : (st₁.prepare P root n slot pool (basename name)).Inside := by
        intro i hi
        rw [(prepare_balance st₁ P root n slot pool (basename name)).1] at hi
        exact allocated i hi
      rw [e]
      split
      · exact prepared
      · intro i hi
        rw [(insert_balance _ root _ n).2.1] at hi
        exact prepared i hi

theorem Inside.del (inside : st.Inside) (uri : Text) : (st.emmaResourceDel uri).1.Inside := by
  have freed (root : Root) (slot : Nat) : (st.freeData root slot).Inside := by
    cases root with
    | agent =>
      intro i hi
      simp only [freeData, Function.update_apply] at hi
      split at hi
      · cases hi
      · exact inside i hi
    | resource => exact inside
    | system => exact inside
  have taken {st : Store} (inside : st.Inside) (root : Root) (place : Lookup) (i : Nat) :
      (st.extract root place i).Inside := by
    unfold extract
    split
    · split
      · split <;> exact inside
      · exact inside
    · exact inside
  unfold emmaResourceDel
  cases emmaGetRoot uri with
  | none => exact inside
  | some root =>
    simp only
    generalize st.tree.emmaGetResource (emmaGetName uri) root = place
    cases place.resource with
    | none => exact inside
    | some i =>
      simp only
      split
      · exact inside
      · cases st.tree.data i with
        | none => exact taken inside root place i
        | some slot => exact taken (freed root slot) root place i

theorem Inside.apply (inside : st.Inside) (b : st.Balanced)
    (size : st.tree.pool.used.length = emmaMaxResources) (op : StoreOp) :
    (st.apply P op).Inside := by
  by_cases add : ∃ root name, op = .add root name
  · obtain ⟨root, name, rfl⟩ := add
    exact inside.add b size root name
  by_cases del : ∃ uri, op = .del uri
  · obtain ⟨uri, rfl⟩ := del
    exact inside.del uri
  obtain ⟨memory, -⟩ := apply_balance (P := P) op (fun root name e => add ⟨root, name, e⟩)
    fun uri e => del ⟨uri, e⟩
  intro i hi
  rw [memory] at hi
  exact inside i hi

theorem resetData_balance (st : Store) (root : Root) (slot : Nat) :
    (st.resetData root slot).tree = st.tree ∧ (st.resetData root slot).alloc = st.alloc ∧
      (st.resetData root slot).memory = st.memory ∧
      ∀ s, ((st.resetData root slot).agents s).memoryIndex = (st.agents s).memoryIndex := by
  cases root with
  | agent =>
    refine ⟨rfl, rfl, rfl, fun s => ?_⟩
    simp only [resetData, Function.update_apply]
    split
    · rename_i same
      rw [same]
      rfl
    · rfl
  | resource => exact ⟨rfl, rfl, rfl, fun _ => rfl⟩
  | system => exact ⟨rfl, rfl, rfl, fun _ => rfl⟩

/-- No two agents share a file, and the table of files is never left. -/
theorem Performed.filesApart (h : st.Performed P) : st.FilesApart := by
  obtain ⟨files, run⟩ := h
  have kept (t : Store) (op : RootOp) (u : Store) (step : some (perform P t op) = some u)
      (inv : (∃ f, t.Sound f) ∧ t.Balanced ∧ t.Inside) :
      (∃ f, u.Sound f) ∧ u.Balanced ∧ u.Inside := by
    obtain ⟨⟨f, so⟩, b, inside⟩ := inv
    cases step
    cases op with
    | call op => exact ⟨so.apply op, b.apply so op, inside.apply b so.shape.size op⟩
    | reset root slot =>
      obtain ⟨tree, alloc, memory, index⟩ := resetData_balance t root slot
      refine ⟨⟨f, so.content tree alloc⟩, b.congr (congrArg Tree.pool tree) alloc memory index,
        fun i hi => inside i ?_⟩
      rw [perform, memory] at hi
      exact hi
  obtain ⟨-, b, inside⟩ := run.keeps (fun t op u _ step inv => kept t op u step inv)
    ⟨⟨_, sound_empty files⟩, balanced_empty files, fun i hi => by simp [empty] at hi⟩
  exact b.apart_of_inside inside

/-- Two agents, the first one reset -/
theorem filesApart_again : ((((empty fun _ => none).perform .plain
    (.call (.add (some .agent) (chars ['x'])))).perform .plain
    (.call (.add (some .agent) (chars ['y'])))).perform .plain (.reset .agent 0)).FilesApart := by
  refine Performed.filesApart (P := .plain) ⟨fun _ => none, ?_⟩
  exact ((Runs.refl.tail trivial rfl).tail trivial rfl).tail trivial rfl

end Store
end EmmaNode

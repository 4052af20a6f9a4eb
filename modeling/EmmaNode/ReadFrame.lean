import EmmaNode.EvaluatorFrame
import EmmaNode.Roots

/-! What a read depends on: where resources hang, what they are called and what they hold,
not which of them are locked or marked, and not the pools. The iterator does not count
either, as a listing starts anew; the random numbers drawn so far do. -/

namespace EmmaNode

/-- Trees that differ in their pools only -/
structure Tree.Same (t t' : Tree) : Prop where
  links : t'.links = t.links
  name : t'.name = t.name
  data : t'.data = t.data
  list : t'.list = t.list

/-- Stores that read the same -/
structure Store.Same (st st' : Store) : Prop where
  tree : st.tree.Same st'.tree
  agents : st'.agents = st.agents
  values : st'.values = st.values
  files : st'.files = st.files

/-- Iterators at the same place -/
structure Iter.Same (it it' : Iter) : Prop where
  rootTmp : it'.rootTmp = it.rootTmp
  cursor : it'.cursor = it.cursor

/-- Readers with the same random numbers ahead -/
structure Reader.Same (r r' : Reader) : Prop where
  seed : r'.seed = r.seed
  draws : r'.draws = r.draws

theorem Tree.Same.refl (t : Tree) : t.Same t := ⟨rfl, rfl, rfl, rfl⟩

theorem Store.Same.refl (st : Store) : st.Same st := ⟨.refl _, rfl, rfl, rfl⟩

theorem Store.Same.trans {st₁ st₂ st₃ : Store} (a : st₁.Same st₂) (b : st₂.Same st₃) :
    st₁.Same st₃ :=
  ⟨⟨b.tree.links.trans a.tree.links, b.tree.name.trans a.tree.name, b.tree.data.trans a.tree.data,
    b.tree.list.trans a.tree.list⟩, b.agents.trans a.agents, b.values.trans a.values,
    b.files.trans a.files⟩

theorem Reader.Same.refl (r : Reader) : r.Same r := ⟨rfl, rfl⟩

namespace Tree.Same
variable {t t' : Tree}

theorem findSibling (h : t.Same t') (segment : Text) (fuel : Nat) (previous head : Option Nat) :
    t'.findSibling segment fuel previous head = t.findSibling segment fuel previous head := by
  induction fuel generalizing previous head with
  | zero => rfl
  | succ fuel ih =>
    cases head with
    | none => rfl
    | some i => simp only [Tree.findSibling, h.name, h.links, ih]

theorem descend (h : t.Same t') (segments : List (Text × Bool)) (folder head : Option Nat) :
    t'.descend segments folder head = t.descend segments folder head := by
  induction segments generalizing folder head with
  | nil => rfl
  | cons segment rest ih => simp only [Tree.descend, h.findSibling, h.links, ih]

theorem emmaGetResource (h : t.Same t') (name : Text) (root : Root) :
    t'.emmaGetResource name root = t.emmaGetResource name root := by
  simp only [Tree.emmaGetResource, h.descend, h.list]

theorem resolve (h : t.Same t') (uri : Text) : t'.resolve uri = t.resolve uri := by
  simp only [Tree.resolve, h.emmaGetResource]

theorem pathNames (h : t.Same t') (fuel i : Nat) (path : List Text) :
    t'.pathNames fuel i path = t.pathNames fuel i path := by
  induction fuel generalizing i path with
  | zero => rfl
  | succ fuel ih => simp only [Tree.pathNames, h.links, h.name, ih]

theorem printFullPath (h : t.Same t') (root : Root) (resource : Option Nat) (blockSize : Nat) :
    t'.printFullPath root resource blockSize = t.printFullPath root resource blockSize := by
  cases resource <;> simp only [Tree.printFullPath, h.pathNames, h.name]

theorem listAt (h : t.Same t') (rootTmp : Nat) : Iter.listAt t' rootTmp = Iter.listAt t rootTmp := by
  simp only [Iter.listAt, h.list]

theorem getNext (h : t.Same t') {it it' : Iter} (same : it.Same it') (blockSize : Nat) :
    (it'.getNext t' blockSize).1 = (it.getNext t blockSize).1 ∧
    (it.getNext t blockSize).2.Same (it'.getNext t' blockSize).2 := by
  simp only [Iter.getNext, Iter.root, same.rootTmp, same.cursor, h.links, h.listAt, h.printFullPath]
  cases Root.all[it.rootTmp]? with
  | none => exact ⟨rfl, same⟩
  | some root =>
    simp only
    cases it.cursor.search t.links Iter.maxTurns with
    | none => exact ⟨rfl, ⟨rfl, rfl⟩⟩
    | some c =>
      simp only
      split <;> exact ⟨rfl, ⟨rfl, rfl⟩⟩

end Tree.Same

theorem Store.solvers_of_reads {P : Platform} {st st' : Store} (env : Env)
    (reads : ∀ (uri : Text) (r r' : Reader), r.Same r' →
      (st.emmaResourceRead P env uri emmaIntSize 0 r).1.Same
        (st'.emmaResourceRead P env uri emmaIntSize 0 r').1 ∧
      (st'.emmaResourceRead P env uri emmaIntSize 0 r').2 =
        (st.emmaResourceRead P env uri emmaIntSize 0 r).2) :
    Solvers Reader.Same (st.rootResourceSolver P env) (st'.rootResourceSolver P env) := by
  intro reference r r' same
  simp only [Store.rootResourceSolver, readNumber]
  obtain ⟨reader, result⟩ := reads (referenceUri (if reference.take 2 = chars ['R', '#'] then
    chars ['L', '#'] ++ reference.drop 2 else reference)) r r' same
  exact ⟨reader, by rw [result]⟩

namespace Store.Same
variable {P : Platform} {st st' : Store}

theorem resourcesFrom (h : st.Same st') (blockSize : Nat) (packet : Int) (fuel : Nat) (name : Text)
    {it it' : Iter} (same : it.Same it') (first : Bool) (count : Int) (data : Text) :
    (st'.resourcesFrom P blockSize packet fuel name it' first count data).2 =
      (st.resourcesFrom P blockSize packet fuel name it first count data).2 := by
  induction fuel generalizing name it it' first count data with
  | zero => rfl
  | succ fuel ih =>
    obtain ⟨next, rest⟩ := h.tree.getNext same blockSize
    revert next rest
    simp only [Store.resourcesFrom]
    rcases it.getNext st.tree blockSize with ⟨_, jt⟩
    rcases it'.getNext st'.tree blockSize with ⟨next, jt'⟩
    rintro rfl rest
    cases next with
    | nil => split_ifs <;> rfl
    | cons c cs =>
      split_ifs <;> first | rfl | exact ih _ rest _ _ _

theorem rootSystemRead (h : st.Same st') (env : Env) (uri : Text) (blockSize : Nat)
    (blockIndex : Int) {r r' : Reader} (same : r.Same r') :
    (st.rootSystemRead P env uri blockSize blockIndex r).1.Same
      (st'.rootSystemRead P env uri blockSize blockIndex r').1 ∧
    (st'.rootSystemRead P env uri blockSize blockIndex r').2 =
      (st.rootSystemRead P env uri blockSize blockIndex r).2 := by
  have start : (r.iter.reset st.tree).Same (r'.iter.reset st'.tree) :=
    ⟨rfl, by simp only [Iter.reset, Iter.begin, h.tree.list]⟩
  obtain ⟨name, rest⟩ := h.tree.getNext start blockSize
  unfold Store.rootSystemRead
  simp only [same.seed, same.draws, name]
  split_ifs
  · exact ⟨same, rfl⟩
  · exact ⟨⟨rfl, rfl⟩, rfl⟩
  · exact ⟨same, rfl⟩
  · exact ⟨same, rfl⟩
  · exact ⟨same, rfl⟩
  · exact ⟨⟨rfl, rfl⟩, h.resourcesFrom _ _ _ _ rest _ _ _⟩
  · exact ⟨same, rfl⟩

theorem emmaResourceRead (h : st.Same st') (env : Env) (uri : Text) (blockSize : Nat)
    (blockIndex : Int) {r r' : Reader} (same : r.Same r') :
    (st.emmaResourceRead P env uri blockSize blockIndex r).1.Same
      (st'.emmaResourceRead P env uri blockSize blockIndex r').1 ∧
    (st'.emmaResourceRead P env uri blockSize blockIndex r').2 =
      (st.emmaResourceRead P env uri blockSize blockIndex r).2 := by
  unfold Store.emmaResourceRead
  cases emmaGetRoot uri with
  | none => exact ⟨same, rfl⟩
  | some root =>
    simp only [h.tree.emmaGetResource, h.tree.data]
    cases (st.tree.emmaGetResource (emmaGetName uri) root).resource with
    | none => exact ⟨same, rfl⟩
    | some i =>
      cases root with
      | agent => exact ⟨same, by simp only [rootAgentRead, h.agents, h.files]⟩
      | resource => exact ⟨same, by simp only [rootResourceRead, h.values]⟩
      | system => exact h.rootSystemRead env uri blockSize blockIndex same

theorem rootResourceSolver (h : st.Same st') (env : Env) :
    Solvers Reader.Same (st.rootResourceSolver P env) (st'.rootResourceSolver P env) :=
  solvers_of_reads env fun uri _ _ same => h.emmaResourceRead env uri emmaIntSize 0 same

end Store.Same
end EmmaNode

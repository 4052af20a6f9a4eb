import EmmaNode.LockState
import EmmaNode.ReadFrame

/-! What the handler's answer to a block depends on. Two nodes with the same resources and
with evaluators that go on alike answer a block alike, whatever else differs between them:
the iterator, the locks and marks of other resources and the pools. -/

namespace EmmaNode

namespace Store
variable {st st' : Store}

theorem emmaResourceDel_content (st : Store) (uri : Text) :
    SameContent st (st.emmaResourceDel uri).1 := by
  have refl : SameContent st st := ⟨rfl, rfl, rfl, rfl, rfl, rfl, rfl, rfl⟩
  unfold emmaResourceDel
  cases emmaGetRoot uri with
  | none => exact refl
  | some root =>
    simp only
    generalize st.tree.emmaGetResource (emmaGetName uri) root = place
    cases place.resource with
    | none => exact refl
    | some i =>
      simp only
      split
      · exact refl
      · have took {t : Store} (freed : SameContent st t) :
            SameContent st { t.extract root place i with
              tree := { (t.extract root place i).tree with
                pool := (t.extract root place i).tree.pool.free i } } := by
          obtain ⟨taken, -, -⟩ := @extract_same t root place i
          exact ⟨taken.mutex.trans freed.mutex, taken.lastModified.trans freed.lastModified,
            taken.clocktime.trans freed.clocktime, taken.agents.trans freed.agents,
            taken.values.trans freed.values, taken.files.trans freed.files,
            taken.name.trans freed.name, taken.data.trans freed.data⟩
        cases st.tree.data i with
        | none => exact took refl
        | some slot => exact took (freeData_same root slot)

theorem extract_tree (h : st.tree.Same st'.tree) (root : Root) (place : Lookup) (i : Nat) :
    (st.extract root place i).tree.Same (st'.extract root place i).tree := by
  obtain ⟨folder, previous, resource⟩ := place
  obtain ⟨links, name, data, list⟩ := h
  unfold extract
  cases previous with
  | none => exact ⟨links, name, data, list⟩
  | some q =>
    simp only [links, list]
    split
    · cases folder with
      | none => exact ⟨rfl, name, data, rfl⟩
      | some f => exact ⟨rfl, name, data, rfl⟩
    · exact ⟨rfl, name, data, rfl⟩

theorem emmaResourceDel_tree (h : st.tree.Same st'.tree) (uri : Text) :
    (st.emmaResourceDel uri).1.tree.Same (st'.emmaResourceDel uri).1.tree ∧
      (st'.emmaResourceDel uri).2 = (st.emmaResourceDel uri).2 := by
  unfold emmaResourceDel
  cases emmaGetRoot uri with
  | none => exact ⟨h, rfl⟩
  | some root =>
    simp only [h.emmaGetResource, h.links, h.data]
    generalize st.tree.emmaGetResource (emmaGetName uri) root = place
    cases place.resource with
    | none => exact ⟨h, rfl⟩
    | some i =>
      simp only
      split
      · exact ⟨h, rfl⟩
      · have took {t t' : Store} (freed : t.tree.Same t'.tree) :
            Tree.Same
              { (t.extract root place i).tree with
                pool := (t.extract root place i).tree.pool.free i }
              { (t'.extract root place i).tree with
                pool := (t'.extract root place i).tree.pool.free i } := by
          obtain ⟨links, name, data, list⟩ := extract_tree freed root place i
          exact ⟨links, name, data, list⟩
        cases st.tree.data i with
        | none => exact ⟨took h, rfl⟩
        | some slot =>
          have freed : (st.freeData root slot).tree.Same (st'.freeData root slot).tree := by
            simpa only [freeData_tree] using h
          exact ⟨took freed, rfl⟩

end Store

namespace Store.Same
variable {P : Platform} {st st' : Store}

theorem emmaResourceDel (h : st.Same st') (uri : Text) :
    (st.emmaResourceDel uri).1.Same (st'.emmaResourceDel uri).1 ∧
      (st'.emmaResourceDel uri).2 = (st.emmaResourceDel uri).2 := by
  obtain ⟨tree, answer⟩ := emmaResourceDel_tree h.tree uri
  have kept := st.emmaResourceDel_content uri
  have kept' := st'.emmaResourceDel_content uri
  refine ⟨⟨tree, ?_, ?_, ?_⟩, answer⟩
  · rw [kept.agents, kept'.agents, h.agents]
  · rw [kept.values, kept'.values, h.values]
  · rw [kept.files, kept'.files, h.files]

theorem cleanResource (h : st.Same st') (n : Nat) :
    (st.cleanResource n).Same (st'.cleanResource n) := by
  obtain ⟨links, name, data, list⟩ := h.tree
  refine ⟨⟨?_, ?_, ?_, list⟩, h.agents, h.values, h.files⟩
  · simp only [Store.cleanResource, Tree.clean, links]
  · simp only [Store.cleanResource, Tree.clean, name]
  · simp only [Store.cleanResource, Tree.clean, data]

theorem prepare (h : st.Same st') (n slot : Nat) (pool : Pool) (base : Text) :
    (st.prepare P .resource n slot pool base).Same (st'.prepare P .resource n slot pool base) := by
  obtain ⟨links, name, data, list⟩ := h.tree
  refine ⟨⟨links, ?_, ?_, list⟩, h.agents, ?_, h.files⟩
  · simp only [Store.prepare, Store.fillResource, resetData, name]
  · simp only [Store.prepare, Store.fillResource, resetData, data]
  · simp only [Store.prepare, Store.fillResource, resetData, h.values]

theorem allocData (h : st.Same st') (alloc : st'.alloc .resource = st.alloc .resource) :
    (st.allocData .resource).1.Same (st'.allocData .resource).1 ∧
      (st'.allocData .resource).2 = (st.allocData .resource).2 := by
  simp only [Store.allocData, alloc]
  cases (st.alloc .resource).alloc with
  | none => exact ⟨h, rfl⟩
  | some pair => exact ⟨⟨h.tree, h.agents, h.values, h.files⟩, rfl⟩

theorem insert (h : st.Same st') (root : Root) (folder : Option Nat) (n : Nat) :
    (st.insert root folder n).Same (st'.insert root folder n) := by
  obtain ⟨links, name, data, list⟩ := h.tree
  cases folder with
  | none =>
    refine ⟨⟨?_, name, data, ?_⟩, h.agents, h.values, h.files⟩
    · simp only [Store.insert, links, list]
    · simp only [Store.insert, list]
  | some f =>
    refine ⟨⟨?_, name, data, list⟩, h.agents, h.values, h.files⟩
    simp only [Store.insert, links]

theorem emmaResourceAdd (h : st.Same st') (pool : st'.tree.pool = st.tree.pool)
    (alloc : st'.alloc .resource = st.alloc .resource) (name : Text) :
    (st.emmaResourceAdd P (some .resource) name).1.Same
      (st'.emmaResourceAdd P (some .resource) name).1 := by
  by_cases hne : name = []
  · simpa only [Store.emmaResourceAdd, if_pos hne] using h
  have place := h.tree.emmaGetResource name .resource
  cases missing : (st.tree.emmaGetResource name .resource).resource with
  | some i => simpa [Store.emmaResourceAdd, hne, place, missing] using h
  | none =>
    rw [emmaResourceAdd_eq P st _ hne missing, emmaResourceAdd_eq P st' _ hne (place ▸ missing),
      pool, place]
    cases st.tree.pool.alloc with
    | none => exact h
    | some pair =>
      obtain ⟨n, rest⟩ := pair
      obtain ⟨taken, slot⟩ := (h.cleanResource n).allocData alloc
      revert taken slot
      simp only
      rcases (st.cleanResource n).allocData .resource with ⟨a, left⟩
      rcases (st'.cleanResource n).allocData .resource with ⟨a', left'⟩
      rintro taken rfl
      cases left' with
      | none => exact taken
      | some slot =>
        have prepared := taken.prepare (P := P) n slot rest (basename name)
        simp only
        split
        · exact prepared
        · exact prepared.insert _ _ _

theorem rootAgentWrite (h : st.Same st') (slot : Nat) (block : Text) (index : Int) :
    (st.rootAgentWrite P slot block index).1.Same (st'.rootAgentWrite P slot block index).1 ∧
      (st'.rootAgentWrite P slot block index).2 = (st.rootAgentWrite P slot block index).2 := by
  simp only [Store.rootAgentWrite, h.agents, h.files]
  split
  · exact ⟨⟨h.tree, rfl, h.values, rfl⟩, rfl⟩
  · split
    · exact ⟨⟨h.tree, rfl, h.values, rfl⟩, rfl⟩
    · exact ⟨⟨h.tree, rfl, h.values, rfl⟩, rfl⟩

end Store.Same

structure Calculator.Congruent (P : Platform)
    (C : Calculator Reader → Calculator Reader → Prop) : Prop where
  reader : ∀ {m m'}, C m m' → m.env.Same m'.env
  setReader : ∀ {m m'} {r r' : Reader}, C m m' → r.Same r' →
    C { m with env := r } { m' with env := r' }
  block : ∀ {m m' solve solve'}, Solvers Reader.Same solve solve' → C m m' → ∀ block,
    C (m.evaluateBlock P solve block).1 (m'.evaluateBlock P solve' block).1 ∧
      (m'.evaluateBlock P solve' block).2 = (m.evaluateBlock P solve block).2
  result : ∀ {m m' solve solve'}, Solvers Reader.Same solve solve' → C m m' →
    C (m.evaluateResult P solve).1 (m'.evaluateResult P solve').1 ∧
      (m'.evaluateResult P solve').2 = (m.evaluateResult P solve).2

theorem Calculator.congruent_between (P : Platform) : Congruent P (Between Reader.Same) where
  reader h := h.alike.env
  setReader h same := ⟨{ h.alike with env := same }, h.index_le, h.bufferIndex_le⟩
  block solvers h block := evaluateBlock_alike solvers h block
  result solvers h := evaluateResult_alike solvers h

theorem Calculator.congruent_level (P : Platform) : Congruent P (Level Reader.Same) where
  reader h := h.env
  setReader h same := { h with env := same }
  block solvers h block := evaluateTurns_level solvers (block.length + 1) h block
  result solvers h := evaluateResult_level solvers h

structure State.Matched (C : Calculator Reader → Calculator Reader → Prop) (s t : State) :
    Prop where
  store : s.store.Same t.store
  env : t.env = s.env
  calculator : C s.calculator t.calculator

namespace State.Matched
variable {P : Platform} {s t : State}
variable {C : Calculator Reader → Calculator Reader → Prop}

theorem setCalculator (h : s.Matched C t) {m m' : Calculator Reader} (b : C m m') :
    (s.setCalculator m).Matched C (t.setCalculator m') := { h with calculator := b }

theorem write (c : Calculator.Congruent P C) (h : s.Matched C t) (uri block : Text)
    (index : Int) :
    (s.emmaResourceWrite P uri block index).1.Matched C (t.emmaResourceWrite P uri block index).1 ∧
      (t.emmaResourceWrite P uri block index).2 = (s.emmaResourceWrite P uri block index).2 := by
  have there : t.resolve uri = s.resolve uri := h.store.tree.resolve uri
  simp only [State.emmaResourceWrite, there]
  cases emmaGetRoot uri with
  | none => exact ⟨h, rfl⟩
  | some root =>
    cases s.resolve uri with
    | none => exact ⟨h, rfl⟩
    | some i =>
      cases root with
      | agent =>
        obtain ⟨written, length⟩ := h.store.rootAgentWrite (P := P)
          ((s.store.tree.data i).getD 0) block index
        simp only [h.store.tree.data]
        exact ⟨{ h with store := written }, length⟩
      | system => exact ⟨h, rfl⟩
      | resource =>
        simp only [rootResourceWrite, h.env]
        obtain ⟨between, status⟩ := c.block (h.store.rootResourceSolver s.env) h.calculator
          (block.take (block.length % 256))
        revert between status
        rcases s.calculator.evaluateBlock P _ _ with ⟨m, e⟩
        rcases t.calculator.evaluateBlock P _ _ with ⟨m', e'⟩
        rintro between rfl
        cases e'
        all_goals exact ⟨h.setCalculator between, rfl⟩

theorem close (c : Calculator.Congruent P C) (h : s.Matched C t) (uri : Text) :
    (s.emmaResourceClose P uri).Matched C (t.emmaResourceClose P uri) := by
  have there : t.resolve uri = s.resolve uri := h.store.tree.resolve uri
  unfold State.emmaResourceClose
  split
  · simp only [there, h.store.tree.data]
    cases s.resolve uri with
    | none => exact h
    | some i =>
      simp only [rootResourceClose, h.env]
      obtain ⟨between, status⟩ := c.result (h.store.rootResourceSolver s.env) h.calculator
      revert between status
      rcases s.calculator.evaluateResult P _ with ⟨m, e, v⟩
      rcases t.calculator.evaluateResult P _ with ⟨m', e', v'⟩
      rintro between ⟨⟩
      cases v with
      | none => exact h.setCalculator between
      | some v =>
        have closed := h.setCalculator between
        exact { closed with
          store := ⟨h.store.tree, h.store.agents, by simp only [h.store.values], h.store.files⟩ }
  · exact h

end State.Matched

/-- Nodes whose resources and evaluators are alike, in the same place of a transfer -/
structure State.Akin (C : Calculator Reader → Calculator Reader → Prop) (s t : State) : Prop where
  store : s.store.Same t.store
  env : t.env = s.env
  opened : t.opened = 0 ↔ s.opened = 0
  locked : t.locked = 0 ↔ s.locked = 0
  count : t.count = s.count
  calculator : C s.calculator t.calculator

namespace State.Akin
variable {P : Platform} {s t : State} {rq : Request} {uri : Text}
variable {C : Calculator Reader → Calculator Reader → Prop}

theorem resolve (h : s.Akin C t) (uri : Text) : t.resolve uri = s.resolve uri :=
  h.store.tree.resolve uri

theorem release (h : s.Akin C t) (uri : Text) : (s.release uri).Akin C (t.release uri) := by
  refine { h with store := ?_ }
  simp only [State.release, Store.emmaResourceRelease, h.store.tree.resolve]
  split
  · exact ⟨h.store.tree, h.store.agents, h.store.values, h.store.files⟩
  · exact h.store

theorem setClocktime (h : s.Akin C t) (uri : Text) :
    (s.setClocktime uri).Akin C (t.setClocktime uri) := by
  refine { h with store := ?_ }
  simp only [State.setClocktime, Store.emmaResourceSetClocktime, h.store.tree.resolve]
  split
  · exact ⟨h.store.tree, h.store.agents, h.store.values, h.store.files⟩
  · exact h.store

theorem setLastModified (h : s.Akin C t) (uri : Text) (key : Modifier) :
    (s.setLastModified uri key).Akin C (t.setLastModified uri key) := by
  simp only [State.setLastModified, h.resolve]
  split
  · exact { h with store := ⟨h.store.tree, h.store.agents, h.store.values, h.store.files⟩ }
  · exact h

theorem setLastModifier (h : s.Akin C t) (key : Modifier) :
    (s.setLastModifier key).Akin C (t.setLastModifier key) := { h with }

theorem flags (h : s.Akin C t) (opened locked : UInt8) :
    State.Akin C { s with opened, locked } { t with opened, locked } :=
  { h with opened := Iff.rfl, locked := Iff.rfl }

theorem setCalculator (h : s.Akin C t) {m m' : Calculator Reader} (b : C m m') :
    (s.setCalculator m).Akin C (t.setCalculator m') := { h with calculator := b }

theorem setReader (c : Calculator.Congruent P C) (h : s.Akin C t) {r r' : Reader}
    (same : r.Same r') : State.Akin C { s with reader := r } { t with reader := r' } :=
  { h with calculator := c.setReader h.calculator same }

theorem del (c : Calculator.Congruent P C) (h : s.Akin C t) (uri : Text) :
    (s.del uri).1.Akin C (t.del uri).1 ∧ (t.del uri).2 = (s.del uri).2 := by
  obtain ⟨store, answer⟩ := h.store.emmaResourceDel uri
  have same : s.reader.Same t.reader := c.reader h.calculator
  have reset : Reader.Same { s.reader with iter := s.reader.iter.reset s.store.tree }
      { t.reader with iter := t.reader.iter.reset t.store.tree } := ⟨same.seed, same.draws⟩
  exact ⟨{ h.setReader c reset with store := store }, answer⟩

theorem cancelTransfer (c : Calculator.Congruent P C) (h : s.Akin C t) (uri : Text) :
    (s.cancelTransfer uri).Akin C (t.cancelTransfer uri) := by
  obtain ⟨deleted, answer⟩ := h.del c uri
  unfold State.cancelTransfer
  revert deleted answer
  rcases s.del uri with ⟨u, n⟩
  rcases t.del uri with ⟨u', n'⟩
  rintro deleted rfl
  cases n' with
  | zero => exact (deleted.setLastModifier .server).flags 0 0
  | succ n => exact (deleted.release uri).flags 0 0

theorem matched (h : s.Akin C t) : s.Matched C t := ⟨h.store, h.env, h.calculator⟩

theorem of_matched {s' t' : State} (h : s.Akin C t) (m : s'.Matched C t') (a : s.Content s')
    (b : t.Content t') : s'.Akin C t' where
  store := m.store
  env := m.env
  opened := by rw [a.opened, b.opened, h.opened]
  locked := by rw [a.locked, b.locked, h.locked]
  count := by rw [a.count, b.count, h.count]
  calculator := m.calculator

theorem write (c : Calculator.Congruent P C) (h : s.Akin C t) (uri block : Text) (index : Int) :
    (s.emmaResourceWrite P uri block index).1.Akin C (t.emmaResourceWrite P uri block index).1 ∧
      (t.emmaResourceWrite P uri block index).2 = (s.emmaResourceWrite P uri block index).2 := by
  obtain ⟨written, length⟩ := h.matched.write c uri block index
  exact ⟨h.of_matched written (.emmaResourceWrite s uri block index)
    (.emmaResourceWrite t uri block index), length⟩

theorem close (c : Calculator.Congruent P C) (h : s.Akin C t) (uri : Text) :
    (s.emmaResourceClose P uri).Akin C (t.emmaResourceClose P uri) :=
  h.of_matched (h.matched.close c uri) (.emmaResourceClose s uri) (.emmaResourceClose t uri)

theorem endTransfer (c : Calculator.Congruent P C) (h : s.Akin C t) (uri : Text) :
    (s.endTransfer P uri).Akin C (t.endTransfer P uri) :=
  { (((h.setLastModified uri .server).close c uri).release uri) with locked := Iff.rfl }

theorem finish (h : s.Akin C t) (r : Reply) (status : Status) (n : UInt32) :
    (s.finish r status n).1.Akin C (t.finish r status n).1 ∧
      (t.finish r status n).2 = (s.finish r status n).2 :=
  ⟨{ h with count := rfl }, rfl⟩

theorem writeBlock (c : Calculator.Congruent P C) (h : s.Akin C t) (rq : Request) (uri : Text) :
    (s.writeBlock P rq uri).1.Akin C (t.writeBlock P rq uri).1 ∧
      (t.writeBlock P rq uri).2 = (s.writeBlock P rq uri).2 := by
  obtain ⟨written, length⟩ := h.write c uri rq.payload (blockIndex P rq)
  simp only [State.writeBlock, length]
  split
  · exact ⟨written, rfl⟩
  · exact ⟨written.cancelTransfer c uri, rfl⟩

theorem takeBlock (c : Calculator.Congruent P C) (h : s.Akin C t) (rq : Request) (r : Reply) :
    (s.takeBlock P rq uri r).1.Akin C (t.takeBlock P rq uri r).1 ∧
      (t.takeBlock P rq uri r).2 = (s.takeBlock P rq uri r).2 := by
  obtain ⟨written, status⟩ := h.writeBlock c rq uri
  have timed := written.setClocktime uri
  simp only [State.takeBlock, status]
  split
  · exact timed.finish r _ _
  · exact (timed.endTransfer c uri).finish r _ _

theorem handleBlock (c : Calculator.Congruent P C) (h : s.Akin C t) (rq : Request) (r : Reply) :
    (s.handleBlock P rq uri r).1.Akin C (t.handleBlock P rq uri r).1 ∧
      (t.handleBlock P rq uri r).2 = (s.handleBlock P rq uri r).2 := by
  simp only [State.handleBlock, lost, h.count, ne_eq, h.locked, h.opened]
  split
  · exact ⟨h.cancelTransfer c uri, rfl⟩
  split
  · split
    · split
      · exact ⟨h, rfl⟩
      · exact h.takeBlock c rq r
    · exact ⟨{ (h.release uri) with locked := Iff.rfl }, rfl⟩
  · simp only [refuseBlock, ne_eq, h.opened]
    split
    · exact ⟨{ (h.close c uri) with opened := Iff.rfl }, trivial⟩
    · exact ⟨h, trivial⟩

theorem handlePut (c : Calculator.Congruent P C) (h : s.Akin C t) (later : rq.blockNum ≠ 0)
    (r : Reply) :
    (s.handlePut P rq uri r).1.Akin C (t.handlePut P rq uri r).1 ∧
      (t.handlePut P rq uri r).2 = (s.handlePut P rq uri r).2 := by
  have there : t.store.emmaResourceExists uri = s.store.emmaResourceExists uri :=
    congrArg Option.isSome (h.resolve uri)
  simp only [State.handlePut, there, h.locked, if_neg later]
  split
  · exact ⟨h, rfl⟩
  split
  · simp only [State.handleEmpty]
    split
    · exact h.finish _ _ _
    · exact (((h.setLastModified uri .server).close c uri).release uri).finish _ _ _
  · exact h.handleBlock c rq _

end State.Akin

/-- No resource has the URI, and no transfer is in progress. -/
structure State.Absent (s : State) (uri : Text) : Prop where
  missing : s.resolve uri = none
  free : s.locked = 0

theorem State.Absent.handleBlock {P : Platform} {s : State} {uri : Text} (h : s.Absent uri)
    (rq : Request) (r : Reply) :
    (s.handleBlock P rq uri r).1.Absent uri ∧ (s.handleBlock P rq uri r).2 = r.drop := by
  obtain ⟨missing, free⟩ := h
  unfold State.handleBlock
  by_cases lost : s.lost rq.blockNum
  · simp only [if_pos lost, and_true]
    refine ⟨?_, rfl⟩
    have missing' : s.store.tree.resolve uri = none := missing
    have kept : (s.del uri).1.store = s.store ∧ (s.del uri).2 ≠ 0 := by
      simp only [State.del, Store.emmaResourceDel]
      cases root : emmaGetRoot uri with
      | none => exact ⟨rfl, by simp⟩
      | some root' =>
        rw [Tree.resolve, root] at missing'
        simp only [Option.bind_some] at missing'
        simp only [missing']
        exact ⟨trivial, by simp⟩
    obtain ⟨store, failed⟩ := kept
    unfold State.cancelTransfer
    revert store failed
    rcases s.del uri with ⟨u, n⟩
    intro store failed
    cases n with
    | zero => exact absurd rfl failed
    | succ n =>
      have store : u.store = s.store := store
      show (u.release uri).resolve uri = none
      rw [release_resolve, State.resolve, store]
      exact missing
  · simp only [if_neg lost, free, ne_eq, not_true_eq_false, if_false, and_true]
    unfold refuseBlock
    split
    · have closed : s.emmaResourceClose P uri = s := by
        unfold State.emmaResourceClose
        split
        · simp only [missing]
        · rfl
      rw [closed]
      exact ⟨missing, free⟩
    · exact ⟨missing, free⟩

end EmmaNode

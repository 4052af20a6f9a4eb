import EmmaNode.Statelessness

/-! A GET takes the same lock and opens and closes the same resource as a write. What it
leaves behind is a new evaluator state and another place of the iterator, never a change
of the store. -/

namespace EmmaNode

theorem Calculator.evaluateResult_clean {σ : Type} (P : Platform)
    (solve : Text → σ → σ × Option Int) (m : Calculator σ) (operators : m.stack.operators = [])
    (operands : m.stack.operands = []) (bufferIndex : m.stack.bufferIndex = 0) :
    (m.evaluateResult P solve).2.2 = none := by
  have stale : ¬ m.operandIndex < m.stack.bufferIndex := by
    rw [bufferIndex]
    exact Nat.not_lt_zero _
  simp only [evaluateResult, if_neg stale, evalAddOperator, operators, operands, simplify]

namespace State
variable {P : Platform} {s t : State} {uri : Text}

/-- What a request without effect keeps: the store and who changed it last -/
structure Keeps (s t : State) : Prop where
  store : t.store = s.store
  lastModifier : t.lastModifier = s.lastModifier

theorem Keeps.refl (s : State) : s.Keeps s := ⟨rfl, rfl⟩

theorem Keeps.trans {u : State} (h : s.Keeps t) (h' : t.Keeps u) : s.Keeps u :=
  ⟨h'.store.trans h.store, h'.lastModifier.trans h.lastModifier⟩

theorem keeps_next (s : State) (root : Option Root) (p : Nat) :
    s.Keeps (s.getNextResourceNameByRoot root p).1 := ⟨rfl, rfl⟩

theorem Keeps.finish (h : s.Keeps t) (r : Reply) (status : Status) (n : UInt32) :
    s.Keeps (t.finish r status n).1 := ⟨h.store, h.lastModifier⟩

theorem keeps_listFrom (root : Option Root) (p : Nat) (packet : Int) (fuel : Nat) (buff : Text)
    (s : State) (dCnt : Int) (buffer : Text) :
    s.Keeps (listFrom root p packet fuel buff s dCnt buffer).1 := by
  induction fuel generalizing buff s dCnt buffer with
  | zero => exact .refl s
  | succ fuel ih =>
    have next := s.keeps_next none p
    simp only [listFrom]
    split_ifs <;> first | exact next | exact next.trans (ih _ _ _ _)

theorem keeps_handleList (s : State) (rq : Request) (uri : Text) (r : Reply) :
    s.Keeps (s.handleList rq uri r).1 := by
  have named := s.keeps_next (emmaGetRoot uri) rq.preferredSize
  unfold handleList
  simp only
  exact (named.trans (keeps_listFrom _ _ _ maxNames _ _ _ _)).finish _ _ _

theorem keeps_close (clean : emmaGetRoot uri = some .resource →
    t.stack.operators = [] ∧ t.stack.operands = [] ∧ t.stack.bufferIndex = 0) :
    t.Keeps (t.emmaResourceClose P uri) := by
  unfold emmaResourceClose
  split
  · rename_i root
    obtain ⟨operators, operands, bufferIndex⟩ := clean root
    split
    · have none' := t.calculator.evaluateResult_clean P (t.store.rootResourceSolver P t.env)
        operators operands bufferIndex
      unfold rootResourceClose
      simp only
      split
      · rename_i e
        rw [e] at none'
        cases none'
      · exact ⟨rfl, rfl⟩
    · exact .refl t
  · exact .refl t

theorem given_back {st : Store} {i : Nat} (there : s.resolve uri = some i)
    (free : s.store.mutex i = .released)
    (locked : st = { s.store with mutex := Function.update s.store.mutex i .locked }) :
    st.emmaResourceRelease uri = s.store := by
  have there : s.store.tree.resolve uri = some i := there
  subst locked
  simp only [Store.emmaResourceRelease, there, Function.update_idem, ← free,
    Function.update_eq_self]

theorem keeps_handleRead (s : State) (rq : Request) (uri : Text) (r : Reply) :
    s.Keeps (s.handleRead P rq uri r).1 := by
  unfold handleRead
  cases there : s.resolve uri with
  | none =>
    have missing : s.store.tree.resolve uri = none := there
    have refused : s.lock uri = (s, false) := by
      simp only [lock, Store.emmaResourceLock, missing]
    rw [refused]
    exact (Keeps.refl s).finish _ _ _
  | some i =>
    have there' : s.store.tree.resolve uri = some i := there
    by_cases held : s.store.mutex i = .locked
    · have refused : s.lock uri = (s, false) := by
        simp only [lock, Store.emmaResourceLock, there', if_pos held]
      rw [refused]
      exact (Keeps.refl s).finish _ _ _
    · have free : s.store.mutex i = .released := by
        cases e : s.store.mutex i
        · rfl
        · exact absurd e held
      have locks : s.lock uri = ({ s with
          store := { s.store with mutex := Function.update s.store.mutex i .locked } }, true) := by
        simp only [lock, Store.emmaResourceLock, there', if_neg held]
      rw [locks]
      generalize locked : ({ s with store := { s.store with
        mutex := Function.update s.store.mutex i .locked } } : State) = t
      have stays : t.resolve uri = some i := by
        rw [← locked]
        exact there
      have kept : t.store = { s.store with mutex := Function.update s.store.mutex i .locked } ∧
          t.lastModifier = s.lastModifier := by
        rw [← locked]
        exact ⟨rfl, rfl⟩
      simp only [emmaResourceOpen_there stays]
      refine Keeps.finish ?_ _ _ _
      have closed := @keeps_close P (emmaResourceRead P { t with
        stack := if emmaGetRoot uri = some .resource then t.stack.clean else t.stack } uri
          rq.preferredSize rq.offset).1 uri fun root => by
        simp only [emmaResourceRead, root, if_true]
        exact ⟨rfl, rfl, rfl⟩
      refine ⟨?_, ?_⟩
      · simp only [release, closed.store]
        exact given_back there free kept.1
      · exact closed.lastModifier.trans kept.2

/-- GET leaves the resources, their values and contents, their locks and their marks as
they were, from every state of the evaluator. -/
theorem get_unchanged (P : Platform) (s : State) (rq : Request) (get : rq.method = .get) :
    s.Keeps (s.emmaServerHandler P rq).1 := by
  unfold emmaServerHandler
  simp only [get]
  split
  · exact (Keeps.refl s).finish _ _ _
  · unfold handleGet
    split
    · exact s.keeps_handleList rq _ _
    · exact s.keeps_handleRead rq _ _

def staleNode : State :=
  ({ State.init .plain (fun _ => none) .bare with operandIndex := 7 } : State).add .plain
    (chars ['L', '/', 'a'])

def readValue : Request := ⟨chars ['L', '/', 'a'], .get, none, [], 64, 0, short_empty⟩

theorem get_unchanged_stale : staleNode.Keeps (staleNode.emmaServerHandler .plain readValue).1 :=
  get_unchanged .plain staleNode readValue rfl

end State
end EmmaNode

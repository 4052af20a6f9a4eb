import EmmaNode.Enumeration
import EmmaNode.EvaluatorFrame
import EmmaNode.StoreInvariant

/-! When a handler comes back. The one loop that may not end is that of
`get_next_resource_name_by_root`, and it ends wherever the iterator has been started in the tree it
walks. Only a GET of a root without name goes on from where the iterator stands. -/

namespace EmmaNode

namespace Iter
variable {t : Tree} {blockSize : Nat}

def Comes (t : Tree) (blockSize : Nat) : Nat → Text → Iter → Prop
  | 0, _, _ => True
  | n + 1, name, it =>
    (it.getNext t blockSize).2.stuck = it.stuck ∧
      (name ≠ [] → Comes t blockSize n (it.getNext t blockSize).1 (it.getNext t blockSize).2)

instance (t : Tree) (blockSize n : Nat) (name : Text) (it : Iter) :
    Decidable (it.Comes t blockSize n name) := by
  induction n generalizing name it with
  | zero => exact isTrue trivial
  | succ n ih => exact @instDecidableAnd _ _ _ (@instDecidableForall _ _ _ (ih _ _))

theorem getNext_stuck {it : Iter} (stuck : it.stuck = true) :
    (it.getNext t blockSize).2.stuck = true := by
  unfold getNext
  split
  · exact stuck
  · split
    · rfl
    · split <;> exact stuck

theorem session_stuck {it : Iter} (stuck : it.stuck = true) (n : Nat) :
    (it.session t blockSize (List.replicate n none)).2.stuck = true := by
  induction n generalizing it with
  | zero => exact stuck
  | succ n ih =>
    rw [List.replicate_succ, session_cons]
    exact ih (getNext_stuck stuck)

theorem session_last {it : Iter} (last : it.root = none) (n : Nat) :
    (it.session t blockSize (List.replicate n none)).2 = it := by
  induction n with
  | zero => rfl
  | succ n ih =>
    have same : (it.getNext t blockSize).2 = it := by rw [getNext, last]
    rw [List.replicate_succ, session_cons]
    simpa only [given, same] using ih

/-- However often it is called, it comes back. -/
def Returns (t : Tree) (blockSize : Nat) (it : Iter) : Prop :=
  ∀ n, (it.session t blockSize (List.replicate n none)).2.stuck = it.stuck

theorem returns_of_session {it : Iter} {k : Nat}
    {visits : List (Option (Root × Option Nat) × Text)} {c : Cursor Nat}
    (run : it.session t blockSize (List.replicate k none) = (visits, ⟨3, c, it.stuck⟩)) :
    it.Returns t blockSize := by
  intro n
  by_cases late : k ≤ n
  · obtain ⟨m, rfl⟩ := Nat.exists_eq_add_of_le late
    rw [List.replicate_add, session_append, run]
    simp only [@session_last t blockSize ⟨3, c, it.stuck⟩ rfl m]
  · obtain ⟨m, rfl⟩ := Nat.exists_eq_add_of_le (Nat.le_of_not_le late)
    rw [List.replicate_add, session_append, Prod.mk.injEq] at run
    have final := congrArg stuck run.2
    cases here : it.stuck with
    | true => exact session_stuck here n
    | false =>
      refine Bool.eq_false_iff.mpr fun hangs => ?_
      rw [session_stuck hangs m, here] at final
      cases final

theorem Returns.next {it : Iter} (h : it.Returns t blockSize) :
    (it.getNext t blockSize).2.stuck = it.stuck ∧
      (it.getNext t blockSize).2.Returns t blockSize := by
  have first : (it.getNext t blockSize).2.stuck = it.stuck := h 1
  refine ⟨first, fun n => ?_⟩
  have further := h (n + 1)
  rw [List.replicate_succ, session_cons] at further
  exact further.trans first.symm

theorem Returns.comes {it : Iter} (h : it.Returns t blockSize) (n : Nat) (name : Text) :
    it.Comes t blockSize n name := by
  induction n generalizing it name with
  | zero => trivial
  | succ n ih => exact ⟨h.next.1, fun _ => ih h.next.2 _⟩

end Iter

namespace Store
variable {P : Platform} {st : Store} {f : Root → Forest Nat}

theorem Sound.returns (so : st.Sound f) (it : Iter) (root : Root) (blockSize : Nat) :
    (it.begin st.tree root).Returns st.tree blockSize := by
  have started : it.begin st.tree root =
      ⟨root.index, .start (Iter.listAt st.tree root.index), it.stuck⟩ := by
    cases root <;> rfl
  have run := @Iter.session_roots _ blockSize _ so.shape it.stuck _ root.index rfl
  have behind : root.index + (Root.all.drop root.index).length = 3 := by cases root <;> rfl
  rw [behind] at run
  rw [started]
  exact Iter.returns_of_session run

theorem resourcesFrom_stuck {blockSize : Nat} {it : Iter} (h : it.Returns st.tree blockSize)
    (packet : Int) (fuel : Nat) (name : Text) (first : Bool) (count : Int) (data : Text) :
    (st.resourcesFrom P blockSize packet fuel name it first count data).1.stuck = it.stuck := by
  induction fuel generalizing name it first count data with
  | zero => rfl
  | succ fuel ih =>
    obtain ⟨comes, further⟩ := h.next
    revert comes further
    simp only [resourcesFrom]
    rcases it.getNext st.tree blockSize with ⟨next, jt⟩
    intro comes further
    cases next with
    | nil => split_ifs <;> first | rfl | exact comes
    | cons c cs => split_ifs <;> first | rfl | exact (ih further _ _ _ _).trans comes

theorem Sound.emmaResourceRead_stuck (so : st.Sound f) (env : Env) (uri : Text) (blockSize : Nat)
    (blockIndex : Int) (r : Reader) :
    (st.emmaResourceRead P env uri blockSize blockIndex r).1.iter.stuck = r.iter.stuck := by
  obtain ⟨comes, further⟩ := (so.returns r.iter .agent blockSize).next
  unfold emmaResourceRead
  cases emmaGetRoot uri with
  | none => rfl
  | some root =>
    simp only
    cases (st.tree.emmaGetResource (emmaGetName uri) root).resource with
    | none => rfl
    | some i =>
      cases root with
      | agent => rfl
      | resource => rfl
      | system =>
        simp only [rootSystemRead]
        split_ifs
        all_goals first
          | rfl
          | exact (resourcesFrom_stuck further ..).trans comes

theorem Sound.solver (so : st.Sound f) (env : Env) (hung : Bool) :
    Solvers (fun r r' : Reader => r' = r ∧ r.iter.stuck = hung) (st.rootResourceSolver P env)
      (st.rootResourceSolver P env) := by
  rintro reference r _ ⟨rfl, same⟩
  exact ⟨⟨rfl, (so.emmaResourceRead_stuck ..).trans same⟩, rfl⟩

end Store

namespace State
variable {P : Platform} {s t : State}

def Stays (hung : Bool) (s : State) : Prop := s.Sound ∧ s.hung = hung

namespace Stays
variable {b : Bool}

theorem content (h : s.Stays b) (c : Content s t) (same : t.hung = s.hung) : t.Stays b :=
  ⟨(Sound.kept .plain).content c h.1, same.trans h.2⟩

theorem lock (h : s.Stays b) (uri : Text) : (s.lock uri).1.Stays b :=
  ⟨(Sound.kept .plain).lock uri h.1, h.2⟩

theorem release (h : s.Stays b) (uri : Text) : (s.release uri).Stays b :=
  ⟨(Sound.kept .plain).release uri h.1, h.2⟩

theorem setClocktime (h : s.Stays b) (uri : Text) : (s.setClocktime uri).Stays b :=
  ⟨(Sound.kept .plain).setClocktime uri h.1, h.2⟩

theorem setLastModified (h : s.Stays b) (uri : Text) (key : Modifier) :
    (s.setLastModified uri key).Stays b := by
  refine ⟨?_, ?_⟩
  · unfold State.setLastModified
    cases s.resolve uri with
    | none => exact h.1
    | some i => exact ⟨h.1.choose, h.1.choose_spec.content rfl rfl⟩
  · rw [← h.2, State.setLastModified]
    split <;> rfl

theorem add (h : s.Stays b) (uri : Text) : (s.add P uri).Stays b :=
  ⟨(Sound.kept P).add uri h.1, h.2⟩

theorem del (h : s.Stays b) (uri : Text) : (s.del uri).1.Stays b :=
  ⟨(Sound.kept .plain).del uri h.1, h.2⟩

theorem emmaResourceOpen (h : s.Stays b) (uri : Text) : (s.emmaResourceOpen uri).1.Stays b := by
  refine h.content (.emmaResourceOpen s uri) ?_
  unfold State.emmaResourceOpen
  split
  · rfl
  · split
    · rfl
    · split <;> rfl

theorem level (h : s.Stays b) :
    Solvers (fun r r' : Reader => r' = r ∧ r.iter.stuck = b) (s.store.rootResourceSolver P s.env)
      (s.store.rootResourceSolver P s.env) ∧
    Calculator.Level (fun r r' : Reader => r' = r ∧ r.iter.stuck = b) s.calculator s.calculator := by
  obtain ⟨f, so⟩ := h.1
  exact ⟨so.solver s.env b, Calculator.level_of rfl rfl ⟨rfl, h.2⟩⟩

theorem emmaResourceWrite (h : s.Stays b) (uri block : Text) (index : Int) :
    (s.emmaResourceWrite P uri block index).1.Stays b := by
  refine h.content (.emmaResourceWrite s uri block index) ?_
  unfold State.emmaResourceWrite
  cases emmaGetRoot uri with
  | none => rfl
  | some root =>
    cases s.resolve uri with
    | none => rfl
    | some i =>
      cases root with
      | agent => rfl
      | system => rfl
      | resource =>
        obtain ⟨solvers, level⟩ := h.level (P := P)
        have after := (Calculator.evaluateTurns_level (P := P) solvers
          ((block.take (block.length % 256)).length + 1) level (block.take (block.length % 256))).1
        have stays := after.env.2.trans h.2.symm
        simp only [rootResourceWrite, Calculator.evaluateBlock] at stays ⊢
        revert stays
        rcases Calculator.evaluateTurns P (s.store.rootResourceSolver P s.env)
          ((block.take (block.length % 256)).length + 1) s.calculator
          (block.take (block.length % 256)) with ⟨m, e⟩
        intro stays
        cases e <;> exact stays

theorem emmaResourceClose (h : s.Stays b) (uri : Text) : (s.emmaResourceClose P uri).Stays b := by
  refine h.content (.emmaResourceClose s uri) ?_
  unfold State.emmaResourceClose
  split
  · split
    · obtain ⟨solvers, level⟩ := h.level (P := P)
      have after := (Calculator.evaluateResult_level (P := P) solvers level).1
      have stays := after.env.2.trans h.2.symm
      simp only [rootResourceClose]
      revert stays
      rcases Calculator.evaluateResult P (s.store.rootResourceSolver P s.env) s.calculator with
        ⟨m, e, v⟩
      intro stays
      cases v <;> exact stays
    · rfl
  · rfl

theorem emmaResourceRead (h : s.Stays b) (uri : Text) (size : Nat) (index : Int) :
    (s.emmaResourceRead P uri size index).1.Stays b := by
  obtain ⟨f, so⟩ := h.1
  exact h.content (.emmaResourceRead s uri size index) (so.emmaResourceRead_stuck ..)

theorem finish (h : s.Stays b) (r : Reply) (status : Status) (n : UInt32) :
    (s.finish r status n).1.Stays b := h

theorem flags (h : s.Stays b) (opened locked : UInt8) :
    State.Stays b { s with opened, locked } := h

theorem cancelTransfer (h : s.Stays b) (uri : Text) : (s.cancelTransfer uri).Stays b := by
  have deleted := h.del uri
  unfold State.cancelTransfer
  revert deleted
  rcases s.del uri with ⟨u, n⟩
  intro deleted
  cases n with
  | zero => exact deleted
  | succ n => exact (deleted.release uri).flags 0 0

theorem startTransfer (h : s.Stays b) (uri : Text) : (s.startTransfer P uri).Stays b := by
  have added : ({ s with count := -1 } : State).Stays b := h
  have locked : ((({ s with count := -1 } : State).add P uri).lockUnlessLocked uri).Stays b := by
    unfold lockUnlessLocked
    split
    · exact (added.add uri).lock uri
    · exact added.add uri
  unfold State.startTransfer openUnlessOpened
  split
  · exact locked.emmaResourceOpen uri
  · exact locked

theorem takeBlock (h : s.Stays b) (rq : Request) (uri : Text) (r : Reply) :
    (s.takeBlock P rq uri r).1.Stays b := by
  have written : (s.writeBlock P rq uri).1.Stays b := by
    have wrote := h.emmaResourceWrite (P := P) uri rq.payload (blockIndex P rq)
    simp only [writeBlock]
    split
    · exact wrote
    · exact wrote.cancelTransfer uri
  have timed := written.setClocktime uri
  simp only [State.takeBlock]
  split
  · exact timed
  · exact ((timed.setLastModified uri .server).emmaResourceClose uri).release uri

theorem handleBlock (h : s.Stays b) (rq : Request) (uri : Text) (r : Reply) :
    (s.handleBlock P rq uri r).1.Stays b := by
  simp only [State.handleBlock]
  split
  · exact h.cancelTransfer uri
  split
  · split
    · split
      · exact h
      · exact h.takeBlock rq uri r
    · exact h.release uri
  · rw [refuseBlock]
    split
    · exact h.emmaResourceClose uri
    · exact h

theorem handlePut (h : s.Stays b) (rq : Request) (uri : Text) (r : Reply) :
    (s.handlePut P rq uri r).1.Stays b := by
  simp only [State.handlePut]
  split
  · exact h
  split
  · simp only [handleEmpty]
    split
    · exact h
    · exact ((h.setLastModified uri .server).emmaResourceClose uri).release uri
  split
  · split
    · exact h
    · exact (h.startTransfer uri).handleBlock rq uri _
  · exact h.handleBlock rq uri _

theorem handleDelete (h : s.Stays b) (uri : Text) (r : Reply) : (s.handleDelete uri r).1.Stays b := by
  have locked := h.lock uri
  unfold State.handleDelete
  revert locked
  rcases s.lock uri with ⟨u, had⟩
  intro locked
  cases had with
  | false => exact locked
  | true =>
    have deleted := locked.del uri
    simp only
    revert deleted
    rcases u.del uri with ⟨v, n⟩
    intro deleted
    cases n with
    | zero => exact deleted
    | succ n => exact deleted.release uri

theorem handleRead (h : s.Stays b) (rq : Request) (uri : Text) (r : Reply) :
    (s.handleRead P rq uri r).1.Stays b := by
  have locked := h.lock uri
  unfold State.handleRead
  revert locked
  rcases s.lock uri with ⟨u, had⟩
  intro locked
  cases had with
  | false => exact locked
  | true =>
    have opened := locked.emmaResourceOpen uri
    simp only
    split
    · rename_i v e
      rw [e] at opened
      exact opened.release uri
    · rename_i v n _ e
      rw [e] at opened
      have read := opened.emmaResourceRead (P := P) uri rq.preferredSize rq.offset
      exact (read.emmaResourceClose uri).release uri

end Stays

theorem listFrom_hung (root : Option Root) {size fuel : Nat} {buff : Text}
    (comes : s.reader.iter.Comes s.store.tree size fuel buff) (packet dCnt : Int) (buffer : Text) :
    (listFrom root size packet fuel buff s dCnt buffer).1.hung = s.hung := by
  induction fuel generalizing s buff dCnt buffer with
  | zero => rfl
  | succ fuel ih =>
    obtain ⟨first, further⟩ := comes
    have next : (s.getNextResourceNameByRoot none size).1.hung = s.hung := first
    simp only [listFrom]
    split_ifs with goesOn
    all_goals first
      | exact next
      | exact (ih (s := (s.getNextResourceNameByRoot none size).1)
          (further (by tauto)) _ _).trans next

theorem handleList_hung (so : s.Sound) {rq : Request} {uri : Text} (r : Reply)
    (returns : emmaGetRoot uri = none →
      let next := s.reader.iter.getNext s.store.tree rq.preferredSize
      next.2.stuck = s.hung ∧ next.2.Comes s.store.tree rq.preferredSize maxNames next.1) :
    (s.handleList rq uri r).1.hung = s.hung := by
  have comes : let next := s.reader.iter.get s.store.tree (emmaGetRoot uri) rq.preferredSize
      next.2.stuck = s.hung ∧ next.2.Comes s.store.tree rq.preferredSize maxNames next.1 := by
    cases named : emmaGetRoot uri with
    | none => exact returns named
    | some root =>
      obtain ⟨f, so⟩ := so
      obtain ⟨first, further⟩ := (so.returns s.reader.iter root rq.preferredSize).next
      exact ⟨first, further.comes maxNames _⟩
  obtain ⟨first, further⟩ := comes
  have named : (s.getNextResourceNameByRoot (emmaGetRoot uri) rq.preferredSize).1.hung = s.hung :=
    first
  exact (listFrom_hung (s := (s.getNextResourceNameByRoot (emmaGetRoot uri) rq.preferredSize).1) _
    further _ _ _).trans named

/-- A GET of a root without name goes on from where the iterator stands, and that comes back. -/
def Returns (s : State) (rq : Request) : Prop :=
  ∀ uri ∈ rq.uri, rq.method = .get → emmaResourceIsRoot uri = true → emmaGetRoot uri = none →
    let next := s.reader.iter.getNext s.store.tree rq.preferredSize
    next.2.stuck = s.hung ∧ next.2.Comes s.store.tree rq.preferredSize maxNames next.1

instance (s : State) (rq : Request) : Decidable (s.Returns rq) := by
  unfold Returns
  infer_instance

theorem Sound.emmaServerHandler_hung (so : s.Sound) {rq : Request} (returns : s.Returns rq) :
    (s.emmaServerHandler P rq).1.hung = s.hung := by
  have stays : s.Stays s.hung := ⟨so, rfl⟩
  unfold emmaServerHandler
  cases here : rq.uri with
  | none => rfl
  | some uri =>
    cases method : rq.method with
    | get =>
      simp only [handleGet]
      split
      · rename_i list
        exact handleList_hung so _ (returns uri here method list)
      · exact (stays.handleRead rq uri _).2
    | put => exact (stays.handlePut rq uri _).2
    | post => exact (stays.handlePut rq uri _).2
    | delete => exact (stays.handleDelete uri _).2

end State
end EmmaNode

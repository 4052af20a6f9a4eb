import EmmaNode.Locking

/-! What a PUT or POST block other than the first does when no transfer is in progress. The
handler compares its number with what the last request left in `count`, and takes it for a
block behind a lost one unless it is that number or the next: then it deletes the resource,
or releases it when it cannot be deleted. -/

namespace EmmaNode

namespace State
variable (P : Platform) (s : State)

/-- To close a resource stores no new value: nothing complete is left to evaluate, or its
value is the one that is stored. -/
def ClosesInert (uri : Text) : Prop :=
  emmaGetRoot uri = some .resource → ∀ i, s.resolve uri = some i →
    ∀ v, (s.calculator.evaluateResult P (s.store.rootResourceSolver P s.env)).2.2 = some v →
      s.store.values ((s.store.tree.data i).getD 0) = UInt16.ofInt v

/-- The branches in which a block behind the first leaves the store as it is. -/
def Harmless (rq : Request) : Prop :=
  ∀ uri ∈ rq.uri,
    if rq.method = .post ∧ s.store.emmaResourceExists uri then True
    else if rq.payload = [] then
      rq.more ∨ (∀ i, s.resolve uri = some i →
        s.store.lastModified i = .server ∧ s.store.mutex i = .released) ∧ s.ClosesInert P uri
    else if s.lost rq.blockNum then ∀ i, s.resolve uri = some i →
      (s.store.tree.links i).subRoot.isSome ∧ s.store.mutex i = .released
    else s.opened = 0 ∨ s.ClosesInert P uri

end State

namespace State
variable {P : Platform} {s : State} {rq : Request} {uri : Text}

theorem release_mutex {i : Nat} (h : s.resolve uri = some i) :
    (s.release uri).store.mutex i = .released := by
  simp only [release, Store.emmaResourceRelease, show s.store.tree.resolve uri = some i from h,
    Function.update_self]

theorem release_store_iff (s : State) (uri : Text) : (s.release uri).store = s.store ↔
    ∀ i, s.resolve uri = some i → s.store.mutex i = .released := by
  simp only [release, Store.emmaResourceRelease, resolve]
  cases s.store.tree.resolve uri with
  | none => simp
  | some i =>
    constructor
    · rintro same j hj
      cases hj
      have := congrFun (congrArg Store.mutex same) i
      simpa using this.symm
    · intro released
      simp only [← released i rfl, Function.update_eq_self]

theorem cancelTransfer_store_iff (so : s.Sound) (uri : Text) :
    (s.cancelTransfer uri).store = s.store ↔ ∀ i, s.resolve uri = some i →
      (s.store.tree.links i).subRoot.isSome ∧ s.store.mutex i = .released := by
  have cases := cancelTransfer_cases so uri
  have used := fun i (hi : s.resolve uri = some i) => so.resolve_used hi
  obtain ⟨f, so⟩ := so
  rcases Store.emmaResourceDel_spec so uri with ⟨root, i, -, hi, -, d⟩ | ⟨failed, same, folder⟩
  · have changed : (s.del uri).1.store ≠ s.store := fun same => by
      have pool : s.store.tree.pool.free i = s.store.tree.pool :=
        d.pool.symm.trans (congrArg (fun st : Store => st.tree.pool) same)
      have still := used i hi
      rw [← pool, Pool.used_free] at still
      exact still.1 rfl
    have store : (s.cancelTransfer uri).store = (s.del uri).1.store := by
      rcases cases with ⟨-, -, -, cancelled, -⟩ | ⟨same, -⟩
      · rw [cancelled]
      · exact absurd same changed
    have leaf : ¬∀ i, s.resolve uri = some i →
        (s.store.tree.links i).subRoot.isSome ∧ s.store.mutex i = .released := fun h => by
      have := (h i hi).1
      simp [d.leaf] at this
    rw [store]
    exact iff_of_false changed leaf
  · have store : (s.cancelTransfer uri).store = (s.release uri).store := by
      rcases cases with ⟨-, -, done, -, -⟩ | ⟨-, cancelled⟩
      · exact absurd done failed
      · rw [cancelled]
        exact congrArg (Store.emmaResourceRelease · uri) same
    rw [store, release_store_iff]
    exact ⟨fun h i hi => ⟨folder i hi, h i hi⟩, fun h i hi => (h i hi).2⟩

theorem emmaResourceClose_store_iff (s : State) (uri : Text) :
    (s.emmaResourceClose P uri).store = s.store ↔ s.ClosesInert P uri := by
  unfold emmaResourceClose ClosesInert
  cases hroot : emmaGetRoot uri with
  | none => simp
  | some root =>
    cases root with
    | agent => simp
    | system => simp
    | resource =>
      cases hi : s.resolve uri with
      | none => simp
      | some i =>
        simp only [true_implies, Option.some.injEq, forall_eq', rootResourceClose]
        generalize s.calculator.evaluateResult P (s.store.rootResourceSolver P s.env) = result
        obtain ⟨m, err, v⟩ := result
        cases v with
        | none => simp [setCalculator]
        | some v =>
          simp only [Option.some.injEq, forall_eq']
          constructor
          · intro same
            have := congrFun (congrArg Store.values same) ((s.store.tree.data i).getD 0)
            simpa using this.symm
          · intro same
            rw [← same, Function.update_eq_self]

theorem setLastModified_store (h : ∀ i, s.resolve uri = some i → s.store.lastModified i = .server) :
    (s.setLastModified uri .server).store = s.store := by
  unfold setLastModified
  cases hi : s.resolve uri with
  | none => rfl
  | some i => simp only [← h i hi, Function.update_eq_self]

theorem closesInert_congr {t : State} (calculator : t.calculator = s.calculator)
    (store : t.store = s.store) (env : t.env = s.env) :
    t.ClosesInert P uri ↔ s.ClosesInert P uri := by
  simp only [ClosesInert, resolve, calculator, store, env]

theorem handleEmpty_store_iff (r : Reply) (last : ¬rq.more) :
    (s.handleEmpty P rq uri r).1.store = s.store ↔ (∀ i, s.resolve uri = some i →
      s.store.lastModified i = .server ∧ s.store.mutex i = .released) ∧ s.ClosesInert P uri := by
  have handled : (s.handleEmpty P rq uri r).1.store =
      (((s.setLastModified uri .server).emmaResourceClose P uri).release uri).store := by
    simp only [handleEmpty, last]
    rfl
  rw [handled]
  have closed := Content.emmaResourceClose (P := P) (s.setLastModified uri .server) uri
  have resolved := (closed.resolve_eq uri).trans (setLastModified_resolve uri uri .server)
  have inert : (∀ i, s.resolve uri = some i → s.store.lastModified i = .server) →
      ((s.setLastModified uri .server).ClosesInert P uri ↔ s.ClosesInert P uri) := fun marked =>
    closesInert_congr (by unfold setLastModified; split <;> rfl) (setLastModified_store marked)
      (by unfold setLastModified; split <;> rfl)
  have close_iff := emmaResourceClose_store_iff (P := P) (s.setLastModified uri .server) uri
  have release_iff := release_store_iff ((s.setLastModified uri .server).emmaResourceClose P uri) uri
  rw [resolved, closed.mutex] at release_iff
  have mutex : (s.setLastModified uri .server).store.mutex = s.store.mutex := by
    unfold setLastModified
    split <;> rfl
  rw [mutex] at release_iff
  constructor
  · intro same
    have lasts : (s.setLastModified uri .server).store.lastModified = s.store.lastModified := by
      rw [← closed.lastModified, ← congrArg Store.lastModified same]
      simp only [release, Store.emmaResourceRelease]
      split <;> rfl
    have marked : ∀ i, s.resolve uri = some i → s.store.lastModified i = .server := by
      intro i hi
      rw [← lasts]
      simp [setLastModified, hi]
    have mutexes : (((s.setLastModified uri .server).emmaResourceClose P uri).release uri).store.mutex =
        s.store.mutex := congrArg Store.mutex same
    have released : ∀ i, s.resolve uri = some i → s.store.mutex i = .released := by
      intro i hi
      rw [← mutexes]
      exact release_mutex (resolved.trans hi)
    refine ⟨fun i hi => ⟨marked i hi, released i hi⟩, ?_⟩
    rw [← inert marked, ← close_iff, setLastModified_store marked, ← release_iff.mpr released, same]
  · rintro ⟨kept, closes⟩
    have marked := fun i hi => (kept i hi).1
    rw [release_iff.mpr fun i hi => (kept i hi).2, close_iff.mpr ((inert marked).mpr closes),
      setLastModified_store marked]

theorem refuseBlock_store_iff (s : State) (uri : Text) :
    (s.refuseBlock P uri).store = s.store ↔ s.opened = 0 ∨ s.ClosesInert P uri := by
  rw [← emmaResourceClose_store_iff]
  unfold refuseBlock
  by_cases opened : s.opened = 0
  · simp [opened]
  · simp [opened]

theorem handlePut_store_iff (so : s.Sound) (free : s.locked = 0) (later : rq.blockNum ≠ 0)
    (r : Reply) : (s.handlePut P rq uri r).1.store = s.store ↔
    if rq.method = .post ∧ s.store.emmaResourceExists uri then True
    else if rq.payload = [] then
      rq.more ∨ (∀ i, s.resolve uri = some i →
        s.store.lastModified i = .server ∧ s.store.mutex i = .released) ∧ s.ClosesInert P uri
    else if s.lost rq.blockNum then ∀ i, s.resolve uri = some i →
      (s.store.tree.links i).subRoot.isSome ∧ s.store.mutex i = .released
    else s.opened = 0 ∨ s.ClosesInert P uri := by
  unfold handlePut
  by_cases there : rq.method = .post ∧ s.store.emmaResourceExists uri
  · simp [there, free]
  have there' : ¬(rq.method = .post ∧ s.store.emmaResourceExists uri ∧ s.locked = 0) :=
    fun h => there ⟨h.1, h.2.1⟩
  simp only [if_neg there, if_neg there', later, if_false]
  by_cases empty : rq.payload = []
  · simp only [if_pos empty]
    by_cases more : rq.more = true
    · simp [handleEmpty, more, finish]
    · rw [handleEmpty_store_iff _ more]
      simp [more]
  simp only [if_neg empty, handleBlock]
  by_cases lost : s.lost rq.blockNum
  · simp only [if_pos lost]
    exact cancelTransfer_store_iff so uri
  · simp only [if_neg lost, free, ne_eq, not_true_eq_false, if_false]
    exact refuseBlock_store_iff s uri

/-- With no transfer in progress, a block behind the first leaves the store unchanged in
these cases and no others. -/
theorem strayBlock_harmless_iff {sys : System} (reachable : System.Reachable P sys)
    (free : sys.shared.locked = 0) (put : rq.method = .put ∨ rq.method = .post)
    (later : rq.blockNum ≠ 0) :
    (sys.shared.emmaServerHandler P rq).1.store = sys.shared.store ↔ sys.shared.Harmless P rq := by
  have so := reachable.sound
  unfold emmaServerHandler Harmless
  cases huri : rq.uri with
  | none => simp [finish]
  | some uri =>
    have handled := fun r => @handlePut_store_iff P _ _ uri so free later r
    simp only [Option.mem_def, Option.some.injEq, forall_eq']
    rcases put with hm | hm
    · simpa only [hm] using handled (Reply.init rq)
    · simpa only [hm] using handled (Reply.init rq)

def agentBlock (n : UInt32) (more : Bool) : Request :=
  ⟨chars ['A', '/', 'x'], .put, some ⟨n, more, 1⟩, chars ['1'], 64, 0, short_one⟩

def agentBlocks : List Event :=
  [.request (agentBlock 0 true), .request (agentBlock 1 true), .request (agentBlock 2 false)]

/-- A duplicate of the third of three blocks does no harm. -/
theorem strayBlock_harmless_last : ∃ s : System, System.Reachable .plain s ∧
    s.shared.store.emmaResourceExists (chars ['A', '/', 'x']) = true ∧
    (s.shared.emmaServerHandler .plain (agentBlock 2 false)).1.store = s.shared.store := by
  obtain ⟨s, run, hs⟩ := Runs.of_follow (System.step .plain) (fun _ _ => True)
    (fun s => s.shared.locked = 0 ∧ s.shared.store.emmaResourceExists (chars ['A', '/', 'x']) ∧
      ¬s.shared.lost 2)
    agentBlocks (System.init .plain (fun _ => none) .bare) (by decide +kernel)
  obtain ⟨free, there, near⟩ := of_decide_eq_true hs
  have reachable : System.Reachable .plain s := ⟨_, _, run⟩
  refine ⟨s, reachable, there, (@strayBlock_harmless_iff _ (agentBlock 2 false) _ reachable free
    (.inl rfl) (by decide)).mpr fun uri here => ?_⟩
  obtain rfl : chars ['A', '/', 'x'] = uri := Option.some.inj here
  rw [if_neg fun post => absurd post.1 (by decide), if_neg (by decide),
    if_neg (show ¬s.shared.lost (agentBlock 2 false).blockNum from near)]
  exact .inr fun root => absurd root (by decide)

/-- A duplicate of the second of three blocks arrives behind the third: the agent is deleted. -/
theorem strayBlock_deletes : ¬ ∀ (P : Platform) (sys : System) (rq : Request),
    System.Reachable P sys → sys.shared.locked = 0 → (rq.method = .put ∨ rq.method = .post) →
    rq.blockNum ≠ 0 → (sys.shared.emmaServerHandler P rq).1.store = sys.shared.store := by
  intro h
  obtain ⟨s, run, hs⟩ := Runs.of_follow (System.step .plain) (fun _ _ => True)
    (fun s => s.shared.locked = 0 ∧ s.shared.store.emmaResourceExists (chars ['A', '/', 'x']) ∧
      ¬(s.shared.emmaServerHandler .plain (agentBlock 1 true)).1.store.emmaResourceExists
        (chars ['A', '/', 'x']))
    agentBlocks
    (System.init .plain (fun _ => none) .bare) (by decide +kernel)
  simp only [decide_eq_true_eq] at hs
  obtain ⟨free, there, gone⟩ := hs
  have same := h .plain s (agentBlock 1 true) ⟨_, _, run⟩ free (.inl rfl) (by decide)
  rw [same] at gone
  exact gone there

end State
end EmmaNode

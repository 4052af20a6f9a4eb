import EmmaNode.StoreInvariant

/-! What the client holds when it begins to run agents. Its turn in the state WAITING_MUTEX
ends at the first resource that it can lock, or that is locked and was not last modified by
the client: one lock at most is taken. -/

namespace EmmaNode

def Iter.namesFrom (t : Tree) : Nat → Text → Iter → List Text
  | 0, _, _ => []
  | fuel + 1, name, it =>
    if name = [] then []
    else
      let (next, it) := it.get t none emmaMaxUriSize
      name :: namesFrom t fuel next it

namespace State

def names (s : State) : List Text :=
  let (name, it) := s.reader.iter.get s.store.tree (some .agent) emmaMaxUriSize
  it.namesFrom s.store.tree (maxNames + 1) name

def stopsAt (st : Store) (name : Text) : Bool :=
  !emmaResourceIsRoot name &&
    ((st.emmaResourceLock name).2 || st.emmaResourceGetLastModified name ≠ .client)

def firstStop (s : State) : Option Text := s.names.find? (stopsAt s.store)

end State

namespace System
variable {P : Platform} {s t : System}

def Acquired (st : Store) (t : System) (stop : Option Text) : Prop :=
  t.shared.store.tree = st.tree ∧
  match stop with
  | none => t.client.state = .running ∧ t.shared.store.mutex = st.mutex
  | some name => t.shared.store.mutex = (st.emmaResourceLock name).1.mutex ∧
      t.client.state = if (st.emmaResourceLock name).2 then .running else .waitingMutex

theorem acquireFrom_spec (fuel : Nat) (s : System) (running : s.client.state = .running) :
    Acquired s.shared.store (s.acquireFrom fuel)
      ((s.shared.reader.iter.namesFrom s.shared.store.tree fuel s.client.name).find?
        (State.stopsAt s.shared.store)) := by
  induction fuel generalizing s with
  | zero => exact ⟨rfl, running, rfl⟩
  | succ fuel ih =>
    simp only [acquireFrom, Iter.namesFrom]
    have next : Acquired s.shared.store ((s.nextName none).acquireFrom fuel) _ :=
      ih (s.nextName none) running
    by_cases hname : s.client.name = []
    · rw [if_pos hname, if_pos hname]
      exact ⟨rfl, running, rfl⟩
    rw [if_neg hname, if_neg hname, List.find?_cons]
    by_cases hroot : emmaResourceIsRoot s.client.name = true
    · have pass : State.stopsAt s.shared.store s.client.name = false := by
        simp [State.stopsAt, hroot]
      rw [if_pos hroot, pass]
      exact next
    rw [if_neg hroot]
    rcases s.shared.lock_cases s.client.name with ⟨failed, same, -⟩ | ⟨done, -⟩
    · have pair : s.shared.lock s.client.name = (s.shared, false) := Prod.ext same failed
      have failed : (s.shared.store.emmaResourceLock s.client.name).2 = false := failed
      have same : (s.shared.store.emmaResourceLock s.client.name).1 = s.shared.store :=
        congrArg State.store same
      rw [pair]
      by_cases mine : s.shared.store.emmaResourceGetLastModified s.client.name = .client
      · have pass : State.stopsAt s.shared.store s.client.name = false := by
          simp [State.stopsAt, hroot, failed, mine]
        simp only [pass, mine, ne_eq, not_true_eq_false, if_false]
        exact next
      · have stop : State.stopsAt s.shared.store s.client.name = true := by
          simp [State.stopsAt, hroot, mine]
        simp only [stop, ne_eq, mine, not_false_eq_true, if_true, Acquired, failed, same,
          Bool.false_eq_true, if_false]
        exact ⟨rfl, rfl, rfl⟩
    · have pair : s.shared.lock s.client.name = ((s.shared.lock s.client.name).1, true) :=
        Prod.ext rfl done
      have done : (s.shared.store.emmaResourceLock s.client.name).2 = true := done
      have stop : State.stopsAt s.shared.store s.client.name = true := by
        simp [State.stopsAt, hroot, done]
      rw [pair]
      simp only [stop, Acquired, done, if_true]
      refine ⟨?_, ?_, running⟩
      · simp only [State.setLastModified]
        split <;> simp only [State.lock, Store.emmaResourceLock] <;> split <;>
          [split; skip; split; skip] <;> rfl
      · simp only [State.setLastModified]
        split <;> rfl

theorem acquire_spec (s : System) : Acquired s.shared.store s.acquire s.shared.firstStop :=
  acquireFrom_spec (maxNames + 1)
    ((s.setClient fun c => { c with state := .running }).nextName (some .agent)) rfl

/-- The step locks all resources before agents run, and waits as long as somebody else has
locked one: when it runs agents no transfer is in progress. -/
structure TakesAll (s t : System) : Prop where
  all : t.client.state = .running → ∀ i, (∃ r, t.shared.store.tree.Live r i) →
    t.shared.Locked i ∧ ¬s.shared.Locked i
  waits : (∃ i r, s.shared.store.tree.Live r i ∧ s.shared.Locked i) →
    t.client.state = .waitingMutex

/-- Either the turn ends at a resource that is locked, or it locks the only resource there
is, or there is none. -/
def CanTakeAll (s : System) : Prop :=
  match s.shared.firstStop with
  | none => ∀ i r, ¬s.shared.store.tree.Live r i
  | some name => (s.shared.lock name).2 →
      ∀ i r, s.shared.store.tree.Live r i → s.shared.resolve name = some i

theorem acquire_takesAll (so : s.shared.Sound) : TakesAll s s.acquire ↔ CanTakeAll s := by
  have spec := acquire_spec s
  unfold CanTakeAll
  generalize s.acquire = t at spec ⊢
  obtain ⟨tree, spec⟩ := spec
  cases hstop : s.shared.firstStop with
  | none =>
    simp only [hstop] at spec
    obtain ⟨running, same⟩ := spec
    have locked : ∀ i, t.shared.Locked i ↔ s.shared.Locked i := fun i => by
      simp only [State.Locked, same, tree]
    constructor
    · intro h i r live
      obtain ⟨l, nl⟩ := h.all running i ⟨r, tree ▸ live⟩
      exact nl ((locked i).mp l)
    · intro h
      refine ⟨fun _ i used => ?_, fun waits => ?_⟩
      · obtain ⟨r, live⟩ := used
        exact absurd (tree ▸ live) (h i r)
      · obtain ⟨i, r, live, -⟩ := waits
        exact absurd live (h i r)
  | some name =>
    simp only [hstop] at spec
    obtain ⟨mutex, state⟩ := spec
    rcases s.shared.lock_cases name with ⟨failed, -, -⟩ | ⟨done, i, hi, released, taken⟩
    · have waiting : t.client.state = .waitingMutex := state.trans (by
        rw [show (s.shared.store.emmaResourceLock name).2 = false from failed]
        rfl)
      constructor
      · intro _ h
        simp [failed] at h
      · exact fun _ => ⟨fun h => by simp [waiting] at h, fun _ => waiting⟩
    · have running : t.client.state = .running := state.trans (by
        rw [show (s.shared.store.emmaResourceLock name).2 = true from done]
        rfl)
      have taken : t.shared.store.mutex = Function.update s.shared.store.mutex i .locked :=
        mutex.trans (congrArg (fun s : State => s.store.mutex) taken)
      have locked : ∀ j, t.shared.Locked j ↔ s.shared.Locked j ∨ j = i := fun j => by
        simpa only [State.Locked, tree, taken] using State.locked_update so hi j
      have free : ¬s.shared.Locked i := State.unlocked_released released
      constructor
      · intro h _ j r live
        obtain ⟨l, nl⟩ := h.all running j ⟨r, tree ▸ live⟩
        rw [((locked j).mp l).resolve_left nl]
        exact hi
      · intro h
        have only : ∀ j r, s.shared.store.tree.Live r j → j = i := fun j r live => by
          have := h done j r live
          rw [hi] at this
          exact (Option.some.inj this).symm
        refine ⟨fun _ j used => ?_, fun waits => ?_⟩
        · obtain ⟨r, live⟩ := used
          have same := only j r (tree ▸ live)
          exact ⟨(locked j).mpr (.inr same), same ▸ free⟩
        · obtain ⟨j, r, live, hj⟩ := waits
          exact absurd (only j r live ▸ hj) free

/-- The step from WAITING_MUTEX takes all locks before agents run, and waits for those of
others, exactly when it ends at a locked resource or there is no more than one to lock. -/
theorem takesAll_iff (reachable : Reachable P s) (main : s.client.pc = .main)
    (waiting : s.client.state = .waitingMutex) (step : s.step P .client = some t) :
    TakesAll s t ↔ CanTakeAll s := by
  have acquired : t = s.acquire := by
    unfold System.step at step
    split at step
    · simp at step
    · simp only [clientStep, main, mainTurn, waiting, Option.some.injEq] at step
      exact step.symm
  rw [acquired]
  exact acquire_takesAll reachable.sound

def firstBlock : Event :=
  .request ⟨chars ['A', '/', 'x'], .put, some ⟨0, true, 1⟩, chars ['['], 64, 0, by decide⟩

theorem takesAll_transfer : ∃ s t : System, Reachable .plain s ∧ s.client.pc = .main ∧
    s.client.state = .waitingMutex ∧ s.step .plain .client = some t ∧ TakesAll s t := by
  obtain ⟨s, run, h⟩ := Runs.of_follow (step .plain) (fun _ _ => True)
    (fun s => s.client.pc = .main ∧ s.client.state = .waitingMutex ∧
      (s.step .plain .client).isSome ∧ s.shared.firstStop = some (chars ['A', '/', 'x']) ∧
      (s.shared.lock (chars ['A', '/', 'x'])).2 = false)
    ([firstBlock, .client, .client])
    (init .plain (fun _ => none) .bare) (by decide +kernel)
  simp only [decide_eq_true_eq] at h
  obtain ⟨main, waiting, next, stop, held⟩ := h
  obtain ⟨t, step⟩ := Option.isSome_iff_exists.mp next
  have reachable : Reachable .plain s := ⟨_, _, run⟩
  have can : CanTakeAll s := by
    simp [CanTakeAll, stop, held]
  exact ⟨s, t, reachable, main, waiting, step,
    (takesAll_iff reachable main waiting step).mpr can⟩

/-- A new node runs its agents when one of its six resources is locked. -/
theorem takesAll_fails : ¬ ∀ (P : Platform) (s t : System), Reachable P s →
    s.client.pc = .main → s.client.state = .waitingMutex → s.step P .client = some t →
    TakesAll s t := by
  intro all
  obtain ⟨s, run, h⟩ := Runs.of_follow (step .plain) (fun _ _ => True)
    (fun s => s.client.pc = .main ∧ s.client.state = .waitingMutex ∧
      (s.step .plain .client).any fun t => t.client.state = .running ∧
        t.shared.store.emmaResourceExists systemTime ∧
        ¬t.shared.store.emmaResourceIsLocked systemTime)
    ([.client, .client])
    (init .plain (fun _ => none) .bare) (by decide +kernel)
  simp only [decide_eq_true_eq] at h
  obtain ⟨main, waiting, next⟩ := h
  obtain ⟨t, step, ht⟩ := (Option.any_eq_true _ _).mp next
  simp only [decide_eq_true_eq] at ht
  obtain ⟨running, there, free⟩ := ht
  have reachable : Reachable .plain s := ⟨_, _, run⟩
  have sound : t.shared.Sound := by
    have later : Reachable .plain t := ⟨_, _, run.tail trivial step⟩
    exact later.sound
  obtain ⟨i, hi⟩ := Option.isSome_iff_exists.mp there
  have locked := ((all .plain s t reachable main waiting step).all running i
    (State.Sound.resolve_live sound hi)).1.2
  simp [Store.emmaResourceIsLocked, hi, locked] at free

end System
end EmmaNode

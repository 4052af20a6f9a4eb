import EmmaNode.BlockCuts
import EmmaNode.BlockFrame
import EmmaNode.RoundTrip

/-! What a PUT to a local resource depends on besides its own blocks. Two nodes with the same
resources answer it alike and store the same value if their evaluators are alike when it
begins. A request that fails may leave something in the evaluator, the lock of a resource or
blocks of a pool that belong to no resource; a node with nothing left of these is as good as
one that has just been initialised. -/

namespace EmmaNode

namespace Store

/-- `st'` has the resources of `st` with what they hold, and nothing but these in its pools. -/
structure Renews (st st' : Store) : Prop where
  same : st.Same st'
  pool : ∀ i, st'.tree.pool.Used i ↔ ∃ r, st.tree.Live r i
  alloc : ∀ r slot, (st'.alloc r).Used slot ↔ ∃ i, st.tree.Live r i ∧ st.tree.data i = some slot
  poolSize : st'.tree.pool.used.length = st.tree.pool.used.length
  allocSize : ∀ r, (st'.alloc r).used.length = (st.alloc r).used.length
  released : ∀ i, st'.mutex i = .released

variable {P : Platform} {st st' : Store} {f : Root → Forest Nat}

theorem exists_renews (so : st.Sound f) : ∃ st', st.Renews st' := by
  classical
  have linked := so.links
  have marks (m : Pool) (p : Nat → Prop) (sub : ∀ i, p i → m.Used i) :
      ∃ m' : Pool, m'.used.length = m.used.length ∧ ∀ i, m'.Used i ↔ p i := by
    refine ⟨⟨(List.range m.used.length).map fun i => decide (p i)⟩, by simp, fun i => ?_⟩
    constructor
    · intro used
      obtain ⟨j, hj, hp⟩ : ∃ j, (List.range m.used.length)[i]? = some j ∧ p j := by
        simpa [Pool.Used] using used
      obtain ⟨_, rfl⟩ := List.getElem?_eq_some_iff.mp hj
      simpa using hp
    · intro hp
      have inside := Pool.used_lt (sub i hp)
      simp [Pool.Used, inside, hp]
  have linkedUsed : ∀ i, (∃ r, st.tree.Live r i) → st.tree.pool.Used i := by
    rintro i ⟨r, live⟩
    exact linked.used r i live
  have dataUsed : ∀ r slot, (∃ i, st.tree.Live r i ∧ st.tree.data i = some slot) →
      (st.alloc r).Used slot := by
    rintro r slot ⟨i, live, hdata⟩
    obtain ⟨slot', hdata', used⟩ := linked.data r i live
    obtain rfl : slot = slot' := Option.some.inj (hdata.symm.trans hdata')
    exact used
  obtain ⟨pool, poolSize, pool'⟩ := marks st.tree.pool _ linkedUsed
  have each (r : Root) := marks (st.alloc r) _ (dataUsed r)
  choose alloc allocSize alloc' using each
  exact ⟨{ st with tree := { st.tree with pool }, alloc, mutex := fun _ => .released },
    ⟨⟨rfl, rfl, rfl, rfl⟩, rfl, rfl, rfl⟩, pool', alloc', poolSize, allocSize, fun _ => rfl⟩

theorem emmaResourceAdd_new (so : st.Sound f) {uri : Text} {root : Root}
    (hroot : emmaGetRoot uri = some root) (missing : st.tree.resolve uri = none) {i : Nat}
    (found : (st.emmaResourceAdd P (some root) (emmaGetName uri)).1.tree.resolve uri = some i) :
    (st.emmaResourceAdd P (some root) (emmaGetName uri)).1.mutex i = .released := by
  obtain ⟨grown, ⟨-, sound⟩ | ⟨-, r, folder, n, hr, created⟩⟩ :=
    emmaResourceAdd_spec P so (some root) (emmaGetName uri)
  · rw [grown.resolve so sound, missing] at found
    cases found
  · obtain rfl : root = r := Option.some.inj hr
    obtain rfl := created.sole so grown hroot missing found
    exact created.mutex

end Store

namespace State
variable {P : Platform} {s : State} {st : Store} {uri : Text}

/-- The node after its initialisation, once it has the resources of another one. The random
numbers ahead are what the resource `S/rand` of that node would read as. -/
def renewed (P : Platform) (s : State) (st : Store) : State :=
  { State.init P s.store.files s.env with
    store := st, reader := ⟨.init, s.reader.seed, s.reader.draws⟩ }

/-- An expression that begins finds nothing in the evaluator: what is left on the stack is
cleaned away unless a resource has been left open, the static index is not. -/
structure AtRest (s : State) : Prop where
  operandIndex : s.operandIndex = 0
  stack : s.opened = 0 ∨
    s.stack.operators = [] ∧ s.stack.operands = [] ∧ s.stack.bufferIndex = 0

theorem made_released (sound : s.Sound) (unlocked : s.store.emmaResourceIsLocked uri = false)
    {i : Nat} (made : (s.add P uri).resolve uri = some i) :
    (s.add P uri).store.mutex i = .released := by
  obtain ⟨f, so⟩ := sound
  obtain ⟨root, hroot, -⟩ := Option.bind_eq_some_iff.mp made
  cases known : s.resolve uri with
  | none =>
    simp only [State.add, hroot] at made ⊢
    exact Store.emmaResourceAdd_new so hroot known made
  | some j =>
    rw [add_known known] at made ⊢
    have there : s.store.tree.resolve uri = some i := made
    simp only [Store.emmaResourceIsLocked, there] at unlocked
    cases e : s.store.mutex i with
    | released => rfl
    | locked => simp [e] at unlocked

/-- Both nodes go on alike, or neither has anything to go on with. -/
def Paired (s t : State) (uri : Text) : Prop :=
  s.Akin (Calculator.Between Reader.Same) t ∨ s.Absent uri ∧ t.Absent uri

theorem emmaResourceOpen_there {i : Nat} (there : s.resolve uri = some i) :
    s.emmaResourceOpen uri =
      ({ s with
         stack := if emmaGetRoot uri = some .resource then s.stack.clean else s.stack }, 1) := by
  obtain ⟨root, hroot, -⟩ := Option.bind_eq_some_iff.mp there
  simp only [emmaResourceOpen, hroot, there]
  cases root <;> rfl

theorem begin_eq {i : Nat} (there : s.resolve uri = some i)
    (released : s.store.mutex i = .released) (free : s.locked = 0) :
    (s.lockUnlessLocked uri).openUnlessOpened uri = { s with
      store := { s.store with mutex := Function.update s.store.mutex i .locked }
      locked := 1
      opened := if s.opened = 0 then 1 else s.opened
      stack := if s.opened = 0 ∧ emmaGetRoot uri = some .resource then s.stack.clean
        else s.stack } := by
  have lock : s.lock uri = ({ s with
      store := { s.store with mutex := Function.update s.store.mutex i .locked } }, true) := by
    have there : s.store.tree.resolve uri = some i := there
    simp only [State.lock, Store.emmaResourceLock, there, released, reduceCtorEq, if_false]
  have locking : s.lockUnlessLocked uri = { s with
      store := { s.store with mutex := Function.update s.store.mutex i .locked }
      locked := 1 } := by
    rw [lockUnlessLocked, if_pos free, lock]
    rfl
  have still : (s.lockUnlessLocked uri).resolve uri = some i := by
    rw [locking]
    exact there
  rw [openUnlessOpened, emmaResourceOpen_there still, locking]
  by_cases closed : s.opened = 0
  · simp only [closed, if_true, true_and]
    rfl
  · simp only [closed, if_false, false_and]

theorem begin_absent (missing : s.resolve uri = none) (free : s.locked = 0) :
    ((s.lockUnlessLocked uri).openUnlessOpened uri).Absent uri := by
  have lock : s.lock uri = (s, false) := by
    have missing : s.store.tree.resolve uri = none := missing
    simp only [State.lock, Store.emmaResourceLock, missing]
  have locking : s.lockUnlessLocked uri = s := by
    simp only [lockUnlessLocked, lock, Bool.false_eq_true, if_false, ← free, if_true]
  obtain ⟨store, locked, -, -⟩ := openUnlessOpened_spec s uri
  rw [locking]
  refine ⟨?_, locked.trans free⟩
  rw [State.resolve, store]
  exact missing

structure Underway (s : State) (num : UInt64) : Prop where
  locked : s.locked ≠ 0
  opened : s.opened ≠ 0
  count : s.count + 1 = num

theorem AtRest.calculator {t : State} {i j : Nat} (rest : s.AtRest) (rest' : t.AtRest)
    (reader : s.reader.Same t.reader) (root : emmaGetRoot uri = some .resource)
    (there : s.resolve uri = some i) (there' : t.resolve uri = some j)
    (released : s.store.mutex i = .released) (released' : t.store.mutex j = .released)
    (free : s.locked = 0) (free' : t.locked = 0) :
    Calculator.Between Reader.Same ((s.lockUnlessLocked uri).openUnlessOpened uri).calculator
      ((t.lockUnlessLocked uri).openUnlessOpened uri).calculator := by
  have bare {u : State} (rest : u.AtRest) :
      (if u.opened = 0 then u.stack.clean else u.stack).operators = [] ∧
        (if u.opened = 0 then u.stack.clean else u.stack).operands = [] ∧
        (if u.opened = 0 then u.stack.clean else u.stack).bufferIndex = 0 := by
    split
    · exact ⟨rfl, rfl, rfl⟩
    · rename_i opened
      exact rest.stack.resolve_left opened
  rw [begin_eq there released free, begin_eq there' released' free']
  simp only [root, and_true]
  obtain ⟨operators, operands, bufferIndex⟩ := bare rest
  obtain ⟨operators', operands', bufferIndex'⟩ := bare rest'
  refine ⟨⟨?_, ?_, ?_, ?_, reader, ?_⟩, ?_, ?_⟩
  · exact operators'.trans operators.symm
  · exact operands'.trans operands.symm
  · exact bufferIndex'.trans bufferIndex.symm
  · exact rest'.operandIndex.trans rest.operandIndex.symm
  · intro j hj
    exact absurd (Nat.lt_of_lt_of_eq hj bufferIndex) (Nat.not_lt_zero j)
  · exact Nat.le_of_eq (rest.operandIndex.trans bufferIndex.symm)
  · exact Nat.le_trans (Nat.le_of_eq bufferIndex) (Nat.zero_le _)

theorem begin_underway {i : Nat} (there : s.resolve uri = some i)
    (released : s.store.mutex i = .released) (free : s.locked = 0) (count : s.count = -1) :
    ((s.lockUnlessLocked uri).openUnlessOpened uri).Underway 0 := by
  rw [begin_eq there released free]
  refine ⟨show (1 : UInt8) ≠ 0 by decide, ?_, by rw [count]; decide⟩
  show (if s.opened = 0 then (1 : UInt8) else s.opened) ≠ 0
  split
  · decide
  · assumption

theorem AtRest.begin {t : State} {i : Nat} (rest : s.AtRest) (rest' : t.AtRest)
    (same : s.store.Same t.store) (env : t.env = s.env) (count : t.count = s.count)
    (reader : s.reader.Same t.reader) (root : emmaGetRoot uri = some .resource)
    (there : s.resolve uri = some i) (released : s.store.mutex i = .released)
    (released' : t.store.mutex i = .released) (free : s.locked = 0) (free' : t.locked = 0) :
    ((s.lockUnlessLocked uri).openUnlessOpened uri).Akin (Calculator.Between Reader.Same)
      ((t.lockUnlessLocked uri).openUnlessOpened uri) := by
  have there' : t.resolve uri = some i := (same.tree.resolve uri).trans there
  have calculator := rest.calculator rest' reader root there there' released released' free free'
  have nonzero (u : State) : (if u.opened = 0 then 1 else u.opened) ≠ 0 := by
    split
    · decide
    · assumption
  rw [begin_eq there released free, begin_eq there' released' free'] at calculator ⊢
  exact ⟨⟨same.tree, same.agents, same.values, same.files⟩, env, iff_of_false (nonzero t) (nonzero s),
    Iff.rfl, count, calculator⟩

theorem startTransfer_eq (s : State) (uri : Text) : s.startTransfer P uri =
    (({ s.add P uri with count := -1 } : State).lockUnlessLocked uri).openUnlessOpened uri := rfl

variable {rq : Request} {r : Reply}

theorem Underway.handleBlock (h : s.Underway rq.blockNum.toUInt64) :
    s.handleBlock P rq uri r = s.takeBlock P rq uri r := by
  have lost : ¬s.lost rq.blockNum := by
    rw [lost, ← h.count, UInt64.add_comm, UInt64.add_sub_cancel]
    decide
  have known : rq.blockNum.toUInt64 ≠ s.count := fun e => by
    have same := h.count.trans e
    simp at same
  simp only [State.handleBlock, if_neg lost, if_pos h.locked, if_pos h.opened, if_neg known]

theorem Underway.refused (h : s.Underway rq.blockNum.toUInt64) (refused : ¬s.full P rq uri)
    (sole : (s.store.emmaResourceDel uri).1.tree.resolve uri = none) :
    (s.handleBlock P rq uri r).1.Absent uri := by
  have same : s.store.tree.Same (s.written P rq uri).store.tree := by
    rw [(written_content (P := P) s rq uri).tree]
    exact .refl _
  have gone : ((s.written P rq uri).cancelTransfer uri).resolve uri = none := by
    rw [cancelTransfer_resolve]
    exact ((Store.emmaResourceDel_tree same uri).1.resolve uri).trans sole
  rw [h.handleBlock, takeBlock, writeBlock_eq, if_neg refused]
  simp only
  split
  · exact ⟨(setClocktime_resolve uri uri).trans gone, rfl⟩
  · refine ⟨?_, rfl⟩
    show (State.release _ uri).resolve uri = none
    rw [release_resolve, (Content.emmaResourceClose _ _).resolve_eq, setLastModified_resolve,
      setClocktime_resolve]
    exact gone

end State

/-- The requests carry a text to an URI in blocks, each of them once and in order. -/
structure Carries (method : Method) (uri text : Text) (requests : List Request) : Prop where
  filled : requests ≠ []
  text : requests.flatMap Request.payload = text
  block : ∀ i rq, requests[i]? = some rq → rq.method = method ∧ rq.uri = some uri ∧
    rq.payload ≠ [] ∧ rq.blockNum.toNat = i ∧ (rq.more ↔ i + 1 < requests.length)

namespace State
variable (P : Platform)

def answers : List Request → State → List Reply × State
  | [], s => ([], s)
  | rq :: rest, s =>
    let (s, reply) := s.emmaServerHandler P rq
    let (replies, s) := answers rest s
    (reply :: replies, s)

def effect (uri : Text) (requests : List Request) (s : State) : List Reply × Option UInt16 :=
  ((s.answers P requests).1, (s.answers P requests).2.valueOf uri)

end State

namespace State
variable {P : Platform} {s t : State} {st : Store} {rq : Request} {uri text : Text}
variable {requests : List Request}

theorem emmaServerHandler_later (put : rq.method = .put) (here : rq.uri = some uri)
    (filled : rq.payload ≠ []) (later : rq.blockNum ≠ 0) :
    s.emmaServerHandler P rq = s.handleBlock P rq uri ((Reply.init rq).setBlock1 rq) := by
  simp [emmaServerHandler, here, put, handlePut, filled, later]

theorem emmaServerHandler_first (put : rq.method = .put) (here : rq.uri = some uri)
    (filled : rq.payload ≠ []) (first : rq.blockNum = 0) (free : s.locked = 0) :
    s.emmaServerHandler P rq =
      (s.startTransfer P uri).handleBlock P rq uri ((Reply.init rq).setBlock1 rq) := by
  simp [emmaServerHandler, here, put, handlePut, filled, first, free]

theorem handleBlock_alike (r : Reply) (h : s.Paired t uri) :
    (t.handleBlock P rq uri r).2 = (s.handleBlock P rq uri r).2 ∧
      (s.handleBlock P rq uri r).1.Paired (t.handleBlock P rq uri r).1 uri := by
  rcases h with akin | ⟨absent, absent'⟩
  · obtain ⟨after, reply⟩ := akin.handleBlock (Calculator.congruent_between P) rq r
    exact ⟨reply, .inl after⟩
  · obtain ⟨after, reply⟩ := absent.handleBlock (P := P) rq r
    obtain ⟨after', reply'⟩ := absent'.handleBlock (P := P) rq r
    exact ⟨reply'.trans reply.symm, .inr ⟨after, after'⟩⟩

theorem valueOf_alike (h : s.Paired t uri) : t.valueOf uri = s.valueOf uri := by
  rcases h with akin | ⟨absent, absent'⟩
  · rw [valueOf, valueOf, akin.resolve, akin.store.values, akin.store.tree.data]
  · rw [valueOf, valueOf, absent.missing, absent'.missing]
    rfl

theorem answers_alike
    (later : ∀ rq ∈ requests, rq.method = .put ∧ rq.uri = some uri ∧ rq.payload ≠ [] ∧
      rq.blockNum ≠ 0)
    (h : s.Paired t uri) :
    t.effect P uri requests = s.effect P uri requests := by
  induction requests generalizing s t with
  | nil => exact Prod.ext rfl (valueOf_alike h)
  | cons rq rest ih =>
    obtain ⟨put, here, filled, num⟩ := later rq List.mem_cons_self
    obtain ⟨reply, after⟩ := handleBlock_alike (P := P) ((Reply.init rq).setBlock1 rq) h
    have onward := ih (fun rq hrq => later rq (.tail _ hrq)) after
    obtain ⟨replies, value⟩ := Prod.mk.inj onward
    simp only [effect, answers, emmaServerHandler_later put here filled num]
    rw [reply, replies, value]

end State
end EmmaNode

import EmmaNode.System

/-! What the processes do to the state they share, in terms of a few kinds of writes. Most
functions touch only what resources hold, the calculator and the reader; the others lock,
release, mark, create or delete a resource or set a flag of the server. A property that all
these writes keep is kept by every step of the node. -/

namespace EmmaNode

/-- Only what resources hold, the calculator and the reader may differ. -/
structure State.Content (s t : State) : Prop where
  tree : t.store.tree = s.store.tree
  alloc : t.store.alloc = s.store.alloc
  mutex : t.store.mutex = s.store.mutex
  lastModified : t.store.lastModified = s.store.lastModified
  clocktime : t.store.clocktime = s.store.clocktime
  lastModifier : t.lastModifier = s.lastModifier
  opened : t.opened = s.opened
  locked : t.locked = s.locked
  count : t.count = s.count
  env : t.env = s.env

namespace State.Content
variable {P : Platform} {s t u : State}

theorem refl (s : State) : Content s s := ⟨rfl, rfl, rfl, rfl, rfl, rfl, rfl, rfl, rfl, rfl⟩

theorem trans (a : Content s t) (b : Content t u) : Content s u :=
  ⟨b.tree.trans a.tree, b.alloc.trans a.alloc, b.mutex.trans a.mutex,
    b.lastModified.trans a.lastModified, b.clocktime.trans a.clocktime,
    b.lastModifier.trans a.lastModifier, b.opened.trans a.opened, b.locked.trans a.locked,
    b.count.trans a.count, b.env.trans a.env⟩

theorem reader (s : State) (reader : Reader) : Content s { s with reader } :=
  ⟨rfl, rfl, rfl, rfl, rfl, rfl, rfl, rfl, rfl, rfl⟩

theorem setCalculator (s : State) (m : Calculator Reader) : Content s (s.setCalculator m) :=
  ⟨rfl, rfl, rfl, rfl, rfl, rfl, rfl, rfl, rfl, rfl⟩

theorem emmaResourceOpen (s : State) (uri : Text) : Content s (s.emmaResourceOpen uri).1 := by
  unfold State.emmaResourceOpen
  cases emmaGetRoot uri with
  | none => exact refl s
  | some root =>
    cases s.resolve uri with
    | none => exact refl s
    | some i => cases root <;> exact ⟨rfl, rfl, rfl, rfl, rfl, rfl, rfl, rfl, rfl, rfl⟩

theorem rootAgentWrite (st : Store) (slot : Nat) (block : Text) (index : Int) :
    ∃ agents files,
      (st.rootAgentWrite P slot block index).1 = { st with agents := agents, files := files } := by
  unfold Store.rootAgentWrite
  split
  · exact ⟨_, st.files, rfl⟩
  · split
    · exact ⟨_, st.files, rfl⟩
    · exact ⟨_, _, rfl⟩

theorem rootResourceWrite (s : State) (block : Text) :
    Content s (s.rootResourceWrite P block).1 := by
  unfold State.rootResourceWrite
  simp only
  split <;> exact setCalculator s _

theorem emmaResourceWrite (s : State) (uri block : Text) (index : Int) :
    Content s (s.emmaResourceWrite P uri block index).1 := by
  unfold State.emmaResourceWrite
  cases emmaGetRoot uri with
  | none => exact refl s
  | some root =>
    cases s.resolve uri with
    | none => exact refl s
    | some i =>
      cases root with
      | agent =>
        obtain ⟨agents, files, h⟩ := rootAgentWrite (P := P) s.store
          ((s.store.tree.data i).getD 0) block index
        simp only [h]
        exact ⟨rfl, rfl, rfl, rfl, rfl, rfl, rfl, rfl, rfl, rfl⟩
      | resource => exact rootResourceWrite s block
      | system => exact refl s

theorem rootResourceClose (s : State) (slot : Nat) : Content s (s.rootResourceClose P slot) := by
  unfold State.rootResourceClose
  simp only
  split
  · exact ⟨rfl, rfl, rfl, rfl, rfl, rfl, rfl, rfl, rfl, rfl⟩
  · exact setCalculator s _

theorem emmaResourceClose (s : State) (uri : Text) : Content s (s.emmaResourceClose P uri) := by
  unfold State.emmaResourceClose
  split
  · split
    · exact rootResourceClose s _
    · exact refl s
  · exact refl s

theorem emmaResourceRead (s : State) (uri : Text) (size : Nat) (index : Int) :
    Content s (s.emmaResourceRead P uri size index).1 := reader s _

theorem getNextResourceNameByRoot (s : State) (root : Option Root) (size : Nat) :
    Content s (s.getNextResourceNameByRoot root size).1 := reader s _

theorem listFrom (root : Option Root) (size : Nat) (packet : Int) (fuel : Nat) (buff : Text)
    (s : State) (dCnt : Int) (buffer : Text) :
    Content s (listFrom root size packet fuel buff s dCnt buffer).1 := by
  induction fuel generalizing buff s dCnt buffer with
  | zero => exact refl s
  | succ fuel ih =>
    have next := getNextResourceNameByRoot s none size
    simp only [State.listFrom]
    split_ifs <;> first | exact next | exact next.trans (ih _ _ _ _)

theorem emmaWellKnownCoreHandler (s : State) (size : Nat) (offset : Int) :
    Content s (s.emmaWellKnownCoreHandler size offset).1 := by
  unfold State.emmaWellKnownCoreHandler
  simp only
  split <;> exact reader s _

end State.Content

namespace State
variable {P : Platform} {s t : State}

theorem Content.resolve_eq (c : Content s t) (uri : Text) : t.resolve uri = s.resolve uri := by
  simp only [resolve, c.tree]

theorem setLastModified_resolve (uri uri' : Text) (key : Modifier) :
    (s.setLastModified uri key).resolve uri' = s.resolve uri' := by
  simp only [setLastModified]
  split <;> rfl

theorem release_resolve (uri uri' : Text) : (s.release uri).resolve uri' = s.resolve uri' := by
  simp only [release, Store.emmaResourceRelease, resolve]
  split <;> rfl

theorem endTransfer_resolve (uri uri' : Text) :
    (s.endTransfer P uri).resolve uri' = s.resolve uri' := by
  have closed := Content.emmaResourceClose (P := P) (s.setLastModified uri .server) uri
  refine (release_resolve
    (s := (s.setLastModified uri .server).emmaResourceClose P uri) uri uri').trans ?_
  rw [closed.resolve_eq, setLastModified_resolve]

theorem toNat_ofInt {n : Nat} (h : n < 65536) : (UInt16.ofInt (n : Int)).toNat = n := by
  have fits : ((n : Int) % 2 ^ 16).toNat = n := by omega
  rw [UInt16.ofInt, fits, UInt16.toNat_ofNat']
  exact Nat.mod_eq_of_lt h

theorem add_known {i : Nat} (known : s.resolve uri = some i) : s.add P uri = s := by
  obtain ⟨root, hroot, hi⟩ := Option.bind_eq_some_iff.mp known
  have kept : (s.store.emmaResourceAdd P (some root) (emmaGetName uri)).1 = s.store := by
    unfold Store.emmaResourceAdd
    simp only [hi, Option.isSome_some, if_true]
    split <;> rfl
  rw [State.add, hroot, kept]

end State

/-! ### Properties that all writes keep -/

/-- A property of the shared state kept by the writes of a process that marks resources
with the ids in `keys`. -/
structure State.Kept (P : Platform) (keys : Modifier → Prop) (I : State → Prop) : Prop where
  content : ∀ {s t}, Content s t → I s → I t
  setLastModifier : ∀ {s} key, keys key → I s → I (s.setLastModifier key)
  setLastModified : ∀ {s} uri key, keys key → I s → I (s.setLastModified uri key)
  lock : ∀ {s} uri, I s → I (s.lock uri).1
  release : ∀ {s} uri, I s → I (s.release uri)
  setClocktime : ∀ {s} uri, I s → I (s.setClocktime uri)
  add : ∀ {s} uri, I s → I (s.add P uri)
  del : ∀ {s} uri, I s → I (s.del uri).1
  count : ∀ {s} count, I s → I { s with count }

structure State.ServerKept (P : Platform) (keys : Modifier → Prop) (I : State → Prop) : Prop
    extends State.Kept P keys I where
  flags : ∀ {s} opened locked, I s → I { s with opened, locked }

namespace State.Kept
variable {P : Platform} {keys : Modifier → Prop} {I : State → Prop} {s : State}

theorem finish (k : Kept P keys I) (r : Reply) (status : Status) (n : UInt32) (h : I s) :
    I (s.finish r status n).1 := k.count _ h

theorem handleList (k : Kept P keys I) (rq : Request) (uri : Text) (r : Reply) (h : I s) :
    I (s.handleList rq uri r).1 := by
  have named := Content.getNextResourceNameByRoot s (emmaGetRoot uri) rq.preferredSize
  unfold State.handleList
  simp only
  exact k.finish _ _ _ (k.content (named.trans (Content.listFrom _ _ _ maxNames _ _ _ _)) h)

theorem handleRead (k : Kept P keys I) (rq : Request) (uri : Text) (r : Reply) (h : I s) :
    I (s.handleRead P rq uri r).1 := by
  have locked := k.lock uri h
  unfold State.handleRead
  split
  · rename_i t e
    rw [e] at locked
    have opened := k.content (Content.emmaResourceOpen t uri) locked
    split
    · rename_i u e
      rw [e] at opened
      exact k.finish _ _ _ (k.release uri opened)
    · rename_i u n _ e
      rw [e] at opened
      exact k.finish _ _ _ (k.release uri (k.content ((Content.emmaResourceRead u _ _ _).trans
        (Content.emmaResourceClose _ uri)) opened))
  · rename_i t e
    rw [e] at locked
    exact k.finish _ _ _ locked

theorem handleEmpty (k : Kept P keys I) (hk : keys .server) (rq : Request) (uri : Text)
    (r : Reply) (h : I s) : I (s.handleEmpty P rq uri r).1 := by
  unfold State.handleEmpty
  simp only
  split
  · exact k.finish _ _ _ h
  · exact k.finish _ _ _ (k.release uri (k.content (Content.emmaResourceClose _ uri)
      (k.setLastModified uri _ hk h)))

theorem handleDelete (k : Kept P keys I) (hk : keys .server) (uri : Text) (r : Reply)
    (h : I s) : I (s.handleDelete uri r).1 := by
  have locked := k.lock uri h
  unfold State.handleDelete
  split
  · rename_i t e
    rw [e] at locked
    have deleted := k.del uri locked
    split
    · rename_i u e
      rw [e] at deleted
      exact k.finish _ _ _ (k.setLastModifier _ hk deleted)
    · rename_i u _ _ e
      rw [e] at deleted
      exact k.finish _ _ _ (k.release uri deleted)
  · rename_i t e
    rw [e] at locked
    exact k.finish _ _ _ locked
end State.Kept

namespace State.ServerKept
variable {P : Platform} {keys : Modifier → Prop} {I : State → Prop} {s : State}

theorem lockUnlessLocked (k : ServerKept P keys I) (uri : Text) (h : I s) :
    I (s.lockUnlessLocked uri) := by
  unfold State.lockUnlessLocked
  split
  · exact k.flags _ _ (k.lock uri h)
  · exact h

theorem openUnlessOpened (k : ServerKept P keys I) (uri : Text) (h : I s) :
    I (s.openUnlessOpened uri) := by
  unfold State.openUnlessOpened
  split
  · exact k.flags _ _ (k.content (Content.emmaResourceOpen s uri) h)
  · exact h

theorem startTransfer (k : ServerKept P keys I) (uri : Text) (h : I s) : I (s.startTransfer P uri) :=
  k.openUnlessOpened uri (k.lockUnlessLocked uri (k.add uri (k.count (-1) h)))

theorem cancelTransfer (k : ServerKept P keys I) (hk : keys .server) (uri : Text) (h : I s) :
    I (s.cancelTransfer uri) := by
  have deleted := k.del uri h
  unfold State.cancelTransfer
  refine k.flags _ _ ?_
  split
  · rename_i t e
    rw [e] at deleted
    exact k.setLastModifier _ hk deleted
  · rename_i t _ _ e
    rw [e] at deleted
    exact k.release uri deleted

theorem endTransfer (k : ServerKept P keys I) (hk : keys .server) (uri : Text) (h : I s) :
    I (s.endTransfer P uri) :=
  k.flags _ _ (k.release uri (k.content (Content.emmaResourceClose _ uri)
    (k.setLastModified uri _ hk h)))

theorem writeBlock (k : ServerKept P keys I) (hk : keys .server) (rq : Request) (uri : Text)
    (h : I s) : I (s.writeBlock P rq uri).1 := by
  have written := k.content
    (Content.emmaResourceWrite (P := P) s uri rq.payload (blockIndex P rq)) h
  unfold State.writeBlock
  simp only
  split
  · exact written
  · exact k.cancelTransfer hk uri written

theorem takeBlock (k : ServerKept P keys I) (hk : keys .server) (rq : Request) (uri : Text)
    (r : Reply) (h : I s) : I (s.takeBlock P rq uri r).1 := by
  have written := k.setClocktime uri (k.writeBlock hk rq uri h)
  unfold State.takeBlock
  simp only
  split
  · exact k.finish _ _ _ written
  · exact k.finish _ _ _ (k.endTransfer hk uri written)

theorem refuseBlock (k : ServerKept P keys I) (uri : Text) (h : I s) : I (s.refuseBlock P uri) := by
  unfold State.refuseBlock
  split
  · exact k.flags _ _ (k.content (Content.emmaResourceClose s uri) h)
  · exact h

theorem handleBlock (k : ServerKept P keys I) (hk : keys .server) (rq : Request) (uri : Text)
    (r : Reply) (h : I s) : I (s.handleBlock P rq uri r).1 := by
  unfold State.handleBlock
  split_ifs
  · exact k.cancelTransfer hk uri h
  · exact h
  · exact k.takeBlock hk rq uri r h
  · exact k.flags _ _ (k.release uri h)
  · exact k.refuseBlock uri h

theorem handlePut (k : ServerKept P keys I) (hk : keys .server) (rq : Request) (uri : Text)
    (r : Reply) (h : I s) : I (s.handlePut P rq uri r).1 := by
  unfold State.handlePut
  simp only
  split_ifs
  · exact h
  · exact k.handleEmpty hk rq uri _ h
  · exact h
  · exact k.handleBlock hk rq uri _ (k.startTransfer uri h)
  · exact k.handleBlock hk rq uri _ h

theorem emmaServerHandler (k : ServerKept P keys I) (hk : keys .server) (rq : Request) (h : I s) :
    I (s.emmaServerHandler P rq).1 := by
  unfold State.emmaServerHandler
  simp only
  cases rq.uri with
  | none => exact k.finish _ _ _ h
  | some uri =>
    cases rq.method with
    | get =>
      simp only [State.handleGet]
      split
      · exact k.handleList rq uri _ h
      · exact k.handleRead rq uri _ h
    | put => exact k.handlePut hk rq uri _ h
    | post => exact k.handlePut hk rq uri _ h
    | delete => exact k.handleDelete hk uri _ h

theorem watchResource (k : ServerKept P keys I) (hk : keys .server) (quiet : Bool)
    (root : Option Root) (h : I s) : I (s.watchResource quiet root).1 := by
  have named := k.content (Content.getNextResourceNameByRoot s root emmaMaxUriSize) h
  unfold State.watchResource
  simp only
  split
  · exact k.cancelTransfer hk _ named
  · exact named

theorem watchdog (k : ServerKept P keys I) (hk : keys .server) (quiet : Bool) (h : I s) :
    I (s.watchdog quiet) := by
  unfold State.watchdog
  generalize maxNames = fuel
  induction fuel generalizing s with
  | zero => exact k.content (Content.reader s _) h
  | succ fuel ih =>
    have walked := k.watchResource hk quiet (some .resource)
      (k.watchResource hk quiet (some .agent) (k.watchResource hk quiet none h))
    simp only [State.watchdogFrom]
    split
    · exact ih walked
    · exact walked

end State.ServerKept

namespace State.Kept
variable {P : Platform} {keys : Modifier → Prop} {I : State → Prop} {s : State}

theorem systemTimer (k : Kept P keys I) (hk : keys .system) (h : I s) : I s.systemTimer := by
  have locked := k.lock systemTime h
  unfold State.systemTimer
  split
  · rename_i t e
    rw [e] at locked
    exact k.release _ (k.setLastModified _ _ hk locked)
  · rename_i t e
    rw [e] at locked
    exact locked

theorem wellKnown (k : Kept P keys I) (size : Nat) (offset : Int) (h : I s) :
    I (s.emmaWellKnownCoreHandler size offset).1 :=
  k.content (Content.emmaWellKnownCoreHandler s size offset) h

end State.Kept

/-! ### The client -/

namespace System
variable {P : Platform} (s : System)

/-- A step of the client that goes on in the same state and touches the shared state only
as `State.Content` says. -/
structure Reads (s t : System) : Prop where
  content : State.Content s.shared t.shared
  state : t.client.state = s.client.state

namespace Reads

theorem refl : Reads s s := ⟨State.Content.refl _, rfl⟩

theorem client (f : Client → Client) (h : (f s.client).state = s.client.state) :
    Reads s (s.setClient f) := ⟨State.Content.refl _, h⟩

theorem hang : Reads s s.hang := ⟨State.Content.reader _ _, rfl⟩

theorem nextName (root : Option Root) : Reads s (s.nextName root) :=
  ⟨State.Content.getNextResourceNameByRoot s.shared root emmaMaxUriSize, rfl⟩

theorem setCalculator (m : Calculator Reader) : Reads s (s.setCalculator m) :=
  ⟨⟨rfl, rfl, rfl, rfl, rfl, rfl, rfl, rfl, rfl, rfl⟩, rfl⟩

variable {s} in
theorem trans {t u : System} (a : Reads s t) (b : Reads t u) : Reads s u :=
  ⟨a.content.trans b.content, b.state.trans a.state⟩

theorem readPre (stop : Int) (fuel : Nat) (start : Int) : Reads s (s.readPre P stop fuel start) := by
  induction fuel generalizing s start with
  | zero => exact refl s
  | succ fuel ih =>
    simp only [System.readPre]
    split_ifs
    · exact (setCalculator s _).trans (client _ _ rfl)
    · exact ((setCalculator s _).trans (client _ _ rfl)).trans (ih _ _)
    · exact refl s

theorem evaluatePre : Reads s (s.evaluatePre P) := by
  unfold System.evaluatePre
  cases s.getIndexOfPattern P s.client.resource .pre with
  | none => exact refl s
  | some range =>
    simp only
    have read := (client s (fun c => { c with stack := c.stack.clean }) rfl).trans
      (readPre (P := P) _ range.2 maxClientBlocks (P.int (range.1 + 1)))
    revert read
    generalize (s.setClient fun c => { c with stack := c.stack.clean }).readPre P range.2
      maxClientBlocks (P.int (range.1 + 1)) = t
    intro read
    split_ifs
    · exact (read.trans (setCalculator t _)).trans ((client _ _ rfl).trans (client _ _ rfl))
    · exact (read.trans (setCalculator t _)).trans (client _ _ rfl)
    · exact read.trans (client _ _ rfl)
    · exact read

theorem nextTarget (range : Option (Int × Int)) : Reads s (s.nextTarget P range) := by
  unfold System.nextTarget
  simp only
  cases range <;> (simp only; split)
  · exact client s _ rfl
  · exact hang s
  · exact client s _ rfl
  · exact hang s

theorem startAgent : Reads s (s.startAgent P) := by
  have evaluated := evaluatePre (P := P) s
  unfold System.startAgent
  simp only
  generalize s.evaluatePre P = t at evaluated
  split
  · exact (evaluated.trans (nextTarget t _)).trans (client _ _ rfl)
  · exact (evaluated.trans (client t _ rfl)).trans (client _ _ rfl)

theorem nextAgent : Reads s s.nextAgent := by
  unfold System.nextAgent
  simp only
  split
  · exact (client s _ rfl).trans (client _ _ rfl)
  · exact (nextName s _).trans (client _ _ rfl)

theorem seekContent (fuel : Nat) : Reads s (s.seekContent P fuel) := by
  induction fuel generalizing s with
  | zero => exact refl s
  | succ fuel ih =>
    simp only [System.seekContent]
    split
    · exact (client s _ rfl).trans (ih _)
    · exact client s _ rfl

theorem targetHead : Reads s (s.targetHead P) := by
  unfold System.targetHead
  simp only
  split
  · exact ((client s _ rfl).trans (seekContent _ _)).trans (client _ _ rfl)
  · exact nextAgent s

theorem endTarget : Reads s (s.endTarget P) := by
  unfold System.endTarget
  simp only
  split
  · exact (client s _ rfl).trans (client _ _ rfl)
  · exact (nextTarget s _).trans (client _ _ rfl)

theorem blockHead : Reads s (s.blockHead P) := by
  unfold System.blockHead
  simp only
  split
  · exact client s _ rfl
  · exact client s _ rfl
  · exact endTarget s

theorem preprocessStep : Reads s (s.preprocessStep P) := by
  unfold System.preprocessStep
  simp only
  split <;> exact ⟨State.Content.reader s.shared _, rfl⟩

theorem afterBlock : Reads s (s.afterBlock P) := by
  unfold System.afterBlock
  simp only
  split
  · exact (client s _ rfl).trans (client _ _ rfl)
  · exact (client s _ rfl).trans (endTarget _)

theorem answered : Reads s (s.answered P) := by
  unfold System.answered
  split
  · exact afterBlock s
  · exact (client s _ rfl).trans (endTarget _)

end Reads
end System

namespace State.Kept
variable {P : Platform} {keys : Modifier → Prop} {I : State → Prop} {s : System}

theorem reads (k : Kept P keys I) {t : System} (r : System.Reads s t) (h : I s.shared) :
    I t.shared := k.content r.content h

theorem acquire (k : Kept P keys I) (hk : keys .client) (h : I s.shared) :
    I s.acquire.shared := by
  have start := k.reads (System.Reads.nextName
    (s.setClient fun c => { c with state := .running }) (some .agent)) h
  unfold System.acquire
  revert start
  generalize (s.setClient fun c => { c with state := .running }).nextName (some .agent) = t
  generalize maxNames + 1 = fuel
  intro start
  induction fuel generalizing t with
  | zero => exact k.reads (System.Reads.hang t) start
  | succ fuel ih =>
    simp only [System.acquireFrom]
    have next := k.reads (System.Reads.nextName t none) start
    have locked := k.lock t.client.name start
    split_ifs
    · exact start
    · exact ih _ next
    · split
      · rename_i u e
        rw [e] at locked
        exact k.setLastModified _ _ hk locked
      · exact start
    · split
      · rename_i u e
        rw [e] at locked
        exact k.setLastModified _ _ hk locked
      · exact ih _ next

theorem releaseAll (k : Kept P keys I) (h : I s.shared) : I s.releaseAll.shared := by
  have start := k.reads (System.Reads.nextName s (some .agent)) h
  unfold System.releaseAll
  revert start
  generalize s.nextName (some .agent) = t
  generalize maxNames + 1 = fuel
  intro start
  induction fuel generalizing t with
  | zero => exact k.reads (System.Reads.hang t) start
  | succ fuel ih =>
    simp only [System.releaseFrom]
    split
    · exact start
    · exact ih _ (k.reads (System.Reads.nextName _ none) (k.release t.client.name start))

theorem openLocal (k : Kept P keys I) (uri : Text) (h : I s.shared) :
    I (s.openLocal P uri).shared := by
  unfold System.openLocal
  split
  · exact k.content (Content.emmaResourceOpen _ uri) (k.add uri h)
  · exact h

theorem writeLocal (k : Kept P keys I) (uri : Text) (h : I s.shared) :
    I (s.writeLocal P uri).shared := by
  unfold System.writeLocal
  split
  · exact k.content (Content.emmaResourceWrite s.shared uri s.payload _) h
  · exact h

theorem closeLocal (k : Kept P keys I) (uri : Text) (h : I s.shared) :
    I (s.closeLocal P uri).shared := by
  unfold System.closeLocal
  split
  · exact k.content (Content.emmaResourceClose s.shared uri) h
  · exact h

theorem sendLocal (k : Kept P keys I) (h : I s.shared) : I (s.sendLocal P).shared := by
  unfold System.sendLocal
  simp only
  split_ifs
  · exact h
  · exact k.del _ h
  · exact h
  · exact k.closeLocal _ (k.writeLocal _ (k.openLocal _ h))

theorem sendBlock (k : Kept P keys I) (h : I s.shared) : I (s.sendBlock P).shared := by
  unfold System.sendBlock
  simp only
  split_ifs
  · exact k.reads (System.Reads.afterBlock _) (k.sendLocal h)
  · exact k.content (Content.reader _ _) h
  · exact h

theorem agentHead (k : Kept P keys I) (hk : keys .client) (h : I s.shared) :
    I (s.agentHead P).shared := by
  unfold System.agentHead
  simp only
  split_ifs
  · exact k.reads ((System.Reads.client s _ rfl).trans (System.Reads.nextAgent _)) h
  · exact k.reads ((System.Reads.client s _ rfl).trans (System.Reads.startAgent _)) h
  · exact k.setLastModifier _ hk h

theorem mainTurn (k : Kept P keys I) (hk : keys .client) (h : I s.shared) :
    I s.mainTurn.shared := by
  unfold System.mainTurn
  cases s.client.state with
  | waitingMutex => exact k.acquire hk h
  | running => exact k.reads ((System.Reads.nextName s _).trans (System.Reads.client _ _ rfl)) h
  | idle =>
    simp only
    split <;> exact h
  | start => exact h
  | release => exact k.releaseAll h

theorem clientStep (k : Kept P keys I) (hk : keys .client) {t : System}
    (step : s.clientStep P = some t) (h : I s.shared) : I t.shared := by
  unfold System.clientStep at step
  cases hpc : s.client.pc <;> rw [hpc] at step <;> simp only [Option.some.injEq, reduceCtorEq] at step
    <;> subst step
  · exact k.mainTurn hk h
  · exact k.agentHead hk h
  · exact k.reads (System.Reads.targetHead s) h
  · exact k.reads (System.Reads.blockHead s) h
  · exact k.reads (System.Reads.preprocessStep s) h
  · exact k.sendBlock h
  · exact k.reads (System.Reads.answered s) h

end State.Kept

namespace State
variable {P : Platform} {keys : Modifier → Prop} {I : State → Prop} {s : System}

theorem ServerKept.step (k : ServerKept P keys I) (hk : ∀ key, keys key)
    (env : ∀ {u : State} env, I u → I { u with env })
    {e : Event} {t : System} (step : s.step P e = some t) (h : I s.shared) : I t.shared := by
  unfold System.step at step
  split at step
  · simp at step
  cases e with
  | request rq =>
    simp only [Option.ite_none_right_eq_some, Option.some.injEq] at step
    obtain ⟨-, rfl⟩ := step
    exact k.emmaServerHandler (hk _) rq h
  | wellKnown size offset =>
    simp only [Option.ite_none_right_eq_some, Option.some.injEq] at step
    obtain ⟨-, rfl⟩ := step
    exact k.wellKnown size offset h
  | watchdog =>
    simp only [Option.ite_none_right_eq_some, Option.some.injEq] at step
    obtain ⟨-, rfl⟩ := step
    exact k.watchdog (hk _) _ h
  | systemTimer =>
    simp only [Option.ite_none_right_eq_some, Option.some.injEq] at step
    obtain ⟨-, rfl⟩ := step
    exact k.systemTimer (hk _) h
  | client => exact k.clientStep (hk _) step h
  | response success last =>
    simp only [Option.ite_none_right_eq_some, Option.some.injEq] at step
    obtain ⟨-, rfl⟩ := step
    exact h
  | environment e =>
    simp only [Option.some.injEq] at step
    subst step
    exact env e h

end State
end EmmaNode

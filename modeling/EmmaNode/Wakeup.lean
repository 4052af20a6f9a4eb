import EmmaNode.Transfer

/-! The client sleeps when it was the last to mark the store. At the end of a pass it sets
that mark itself, so a request that modifies the store while agents run goes unnoticed; and
the server marks the store at the end of a transfer, not when the first block makes a
resource. In all other runs every modification is followed by a pass that begins after it. -/

namespace EmmaNode

namespace State
variable (P : Platform) (s : State) (rq : Request)

/-- The resource there is, if any, and the value of a local one -/
def shows (uri : Text) : Option (Nat × Option UInt16) :=
  (s.resolve uri).map fun i =>
    (i, if emmaGetRoot uri = some .resource then
      some (s.store.values ((s.store.tree.data i).getD 0))
    else none)

/-- A resource is created under a name that is cut off to fit: it does not have the URI. -/
def Strays (uri : Text) : Prop :=
  (s.store.emmaResourceAdd P (emmaGetRoot uri) (emmaGetName uri)).2 = 0 ∧
    (s.add P uri).resolve uri = none

instance (uri : Text) : Decidable (s.Strays P uri) := inferInstanceAs (Decidable (_ ∧ _))

/-- The request brings a resource, takes it away, stores its value, writes to an agent, or ends
a transfer with success. -/
def modifies : Bool :=
  match rq.uri with
  | none => false
  | some uri =>
    let (t, r) := s.emmaServerHandler P rq
    match rq.method with
    | .get => false
    | .delete => r.status = some .deleted
    | _ => t.shows uri ≠ s.shows uri ∨ rq.payload ≠ [] ∧
      (rq.blockNum = 0 ∧ s.locked = 0 ∧ s.Strays P uri ∨
        (¬rq.more ∨ emmaGetRoot uri = some .agent) ∧
          (r.status = some .ok ∨ r.status = some .created) ∧ t.resolve uri ≠ none)

/-- The handler marks the store if it modifies it: by a DELETE, at an empty last block, behind a
lost block, and at the last block of a transfer. At another block it deletes a resource that it
cannot write, and marks that. -/
def Marks : Prop :=
  rq.method = .delete ∨ ∃ uri ∈ rq.uri, rq.payload = [] ∨
    rq.blockNum ≠ 0 ∧ s.lost rq.blockNum ∨
    s.Taken P rq uri ∧ (¬rq.more ∨ s.resolve uri ≠ none ∧
      ¬(emmaGetRoot uri = some .agent ∧ (s.atWrite P rq uri).full P rq uri))

instance : Decidable (s.Marks P rq) :=
  inferInstanceAs (Decidable (_ ∨ ∃ uri ∈ rq.uri, _))

end State

/-- The client is idle and has no reason to start. -/
def System.Asleep (s : System) : Prop :=
  s.client.pc = .main ∧ s.client.state = .idle ∧ s.shared.lastModifier = .client ∧
    s.client.previousFail = false

instance (s : System) : Decidable s.Asleep := inferInstanceAs (Decidable (_ ∧ _))

/-- The client is on its way to a pass, or will set out for one when it is idle. -/
def System.Due (s : System) : Prop :=
  s.shared.lastModifier ≠ .client ∨ s.client.previousFail ∨ s.client.state = .start ∨
    s.client.state = .waitingMutex

instance (s : System) : Decidable s.Due := inferInstanceAs (Decidable (_ ∨ _))

/-- The node, and whether a request has modified the store since the client last began to
run its agents. -/
structure Noted where
  system : System
  modified : Bool

namespace Noted
variable (P : Platform)

def init (files : Nat → Option Text) (env : Env) : Noted := ⟨.init P files env, false⟩

def note (s : Noted) (e : Event) (t : System) : Bool :=
  match e with
  | .request rq => s.modified || s.system.shared.modifies P rq
  | _ => s.modified && !(s.system.client.state ≠ .running ∧ t.client.state = .running)

def step (s : Noted) (e : Event) : Option Noted :=
  (s.system.step P e).map fun t => ⟨t, s.note P e t⟩

/-- No request modifies the store while agents run, nor without a mark when no pass is due. -/
def Calm (s : Noted) (e : Event) : Prop :=
  match e with
  | .request rq => s.system.shared.modifies P rq →
    s.system.client.state ≠ .running ∧ (s.system.Due ∨ s.system.shared.Marks P rq)
  | _ => True

instance (s : Noted) (e : Event) : Decidable (Calm P s e) :=
  match e with
  | .request _ => inferInstanceAs (Decidable (_ → _))
  | .wellKnown .. | .watchdog | .systemTimer | .client | .response .. | .environment _ =>
    inferInstanceAs (Decidable True)

end Noted

/-! ### Who marks the store -/

namespace State
variable {P : Platform} {s : State}

theorem kept_notClient (P : Platform) :
    ServerKept P (· ≠ .client) fun s => s.lastModifier ≠ .client where
  content c h := c.lastModifier ▸ h
  flags _ _ h := h
  count _ h := h
  setLastModifier _ hk _ := hk
  setLastModified {s} uri key hk h := by
    unfold setLastModified
    split
    · exact hk
    · exact h
  lock _ h := h
  release _ h := h
  setClocktime _ h := h
  add _ h := h
  del _ h := h

theorem kept_lastModifier (P : Platform) (m : Modifier) :
    Kept P (fun _ => False) fun s => s.lastModifier = m where
  content c h := c.lastModifier.trans h
  count _ h := h
  setLastModifier _ hk _ := hk.elim
  setLastModified _ _ hk _ := hk.elim
  lock _ h := h
  release _ h := h
  setClocktime _ h := h
  add _ h := h
  del _ h := h

theorem setLastModified_lastModifier {uri : Text} {key : Modifier} (h : s.resolve uri ≠ none) :
    (s.setLastModified uri key).lastModifier = key := by
  unfold setLastModified
  cases hr : s.resolve uri with
  | none => exact absurd hr h
  | some i => rfl

theorem endTransfer_lastModifier {uri : Text} (h : s.resolve uri ≠ none) :
    (s.endTransfer P uri).lastModifier = .server := by
  have closed := Content.emmaResourceClose (P := P) (s.setLastModified uri .server) uri
  exact closed.lastModifier.trans (setLastModified_lastModifier h)

theorem handleBlock_lastModifier {rq : Request} {uri : Text} {r : Reply} (hr : r.status = none)
    (last : ¬rq.more) (success : (s.handleBlock P rq uri r).2.status = some .ok ∨
      (s.handleBlock P rq uri r).2.status = some .created)
    (found : (s.handleBlock P rq uri r).1.resolve uri ≠ none) :
    (s.handleBlock P rq uri r).1.lastModifier = .server := by
  revert success found
  unfold handleBlock
  split_ifs
  · simp [Reply.drop, hr]
  · simp [hr]
  · simp only [takeBlock, if_neg last]
    exact fun _ found => endTransfer_lastModifier (by rwa [← endTransfer_resolve (P := P)])
  · simp [Reply.drop, hr]
  · simp [Reply.drop, hr]

theorem handlePut_lastModifier {rq : Request} {uri : Text} {r : Reply} (hr : r.status = none)
    (full : rq.payload ≠ []) (last : ¬rq.more)
    (success : (s.handlePut P rq uri r).2.status = some .ok ∨
      (s.handlePut P rq uri r).2.status = some .created)
    (found : (s.handlePut P rq uri r).1.resolve uri ≠ none) :
    (s.handlePut P rq uri r).1.lastModifier = .server := by
  revert success found
  unfold handlePut
  simp only [if_neg full]
  split_ifs
  · simp [Reply.drop, Reply.setBlock1, hr]
  · simp [Reply.drop, Reply.setBlock1, hr]
  · exact handleBlock_lastModifier hr last
  · exact handleBlock_lastModifier hr last

theorem handleDelete_lastModifier {uri : Text} {r : Reply}
    (success : (s.handleDelete uri r).2.status = some .deleted) :
    (s.handleDelete uri r).1.lastModifier = .server := by
  revert success
  unfold handleDelete
  split
  · split
    · exact fun _ => rfl
    · simp [finish]
  · simp [finish]

theorem shows_congr {t : State} (tree : t.store.tree = s.store.tree)
    (values : t.store.values = s.store.values) (uri : Text) : t.shows uri = s.shows uri := by
  simp only [shows, resolve, tree, values]

theorem release_shows (s : State) (uri : Text) : (s.release uri).shows uri = s.shows uri := by
  refine shows_congr ?_ ?_ uri <;>
    simp only [release, Store.emmaResourceRelease] <;> split <;> rfl

theorem setClocktime_shows (s : State) (uri : Text) :
    (s.setClocktime uri).shows uri = s.shows uri := by
  refine shows_congr ?_ ?_ uri <;>
    simp only [setClocktime, Store.emmaResourceSetClocktime] <;> split <;> rfl

theorem written_shows (s : State) (rq : Request) (uri : Text) :
    (s.written P rq uri).shows uri = s.shows uri := by
  have content := written_content (P := P) s rq uri
  unfold shows
  rw [content.resolve_eq, content.tree]
  cases hi : s.resolve uri with
  | none => rfl
  | some i =>
    by_cases root : emmaGetRoot uri = some .resource
    case neg => simp only [if_neg root]
    have values : (s.written P rq uri).store.values = s.store.values := by
      simp only [written, emmaResourceWrite, root, hi, rootResourceWrite]
      rcases s.calculator.evaluateBlock P _ _ with ⟨m, status⟩
      cases status <;> rfl
    simp only [values]

theorem del_failed {uri : Text} (failed : (s.del uri).2 ≠ 0) : (s.del uri).1.store = s.store := by
  revert failed
  simp only [del, Store.emmaResourceDel]
  cases emmaGetRoot uri with
  | none => exact fun _ => rfl
  | some root =>
    cases hr : (s.store.tree.emmaGetResource (emmaGetName uri) root).resource with
    | none => exact fun _ => by simp only [hr]
    | some i =>
      simp only [hr]
      split_ifs
      · exact fun _ => rfl
      · exact fun h => absurd rfl h

theorem cancelTransfer_marks (s : State) (uri : Text) :
    (s.cancelTransfer uri).lastModifier = .server ∨
      (s.cancelTransfer uri).shows uri = s.shows uri := by
  unfold cancelTransfer
  split
  · exact .inl rfl
  · rename_i t n failed deleted
    have same : t.store = s.store := by
      have := @del_failed s uri (by simpa [deleted] using failed)
      rwa [deleted] at this
    refine .inr ((release_shows t uri).trans (shows_congr ?_ ?_ uri)) <;> rw [same]

theorem endTransfer_marks (s : State) (uri : Text) : (s.endTransfer P uri).lastModifier = .server ∨
    (s.endTransfer P uri).lastModifier = s.lastModifier ∧ (s.endTransfer P uri).resolve uri = none ∧
      s.resolve uri = none := by
  by_cases found : s.resolve uri = none
  case neg => exact .inl (endTransfer_lastModifier found)
  refine .inr ⟨?_, (endTransfer_resolve uri uri).trans found, found⟩
  have closed := Content.emmaResourceClose (P := P) (s.setLastModified uri .server) uri
  refine closed.lastModifier.trans ?_
  simp only [setLastModified, found]

theorem shows_none {uri : Text} (h : s.resolve uri = none) : s.shows uri = none := by
  rw [shows, h]
  rfl

theorem takeBlock_marks (s : State) (rq : Request) (uri : Text) (r : Reply) :
    ((s.takeBlock P rq uri r).1.lastModifier = .server ∨
      (s.takeBlock P rq uri r).1.shows uri = s.shows uri) ∧
    (¬rq.more → (s.takeBlock P rq uri r).1.lastModifier = .server ∨
      (s.takeBlock P rq uri r).1.resolve uri = none) := by
  have wrote := written_shows (P := P) s rq uri
  -- what is in front of the end of the transfer
  have before' : ((s.writeBlock P rq uri).1.setClocktime uri).lastModifier = .server ∨
      ((s.writeBlock P rq uri).1.setClocktime uri).shows uri = s.shows uri := by
    rw [setClocktime_shows, writeBlock_eq]
    split
    · exact .inr wrote
    · exact (cancelTransfer_marks _ uri).imp_right fun same => same.trans wrote
  simp only [takeBlock]
  generalize (s.writeBlock P rq uri).1.setClocktime uri = t at before' ⊢
  split
  · rename_i more
    exact ⟨before', fun last => absurd more last⟩
  · rcases endTransfer_marks (P := P) t uri with mark | ⟨same, gone, none'⟩
    · exact ⟨.inl mark, fun _ => .inl mark⟩
    · refine ⟨before'.imp same.trans fun shown => ?_, fun _ => .inr gone⟩
      exact (shows_none gone).trans ((shows_none none').symm.trans shown)

theorem atWrite_shows {rq : Request} {uri : Text} (there : s.resolve uri ≠ none) :
    (s.atWrite P rq uri).shows uri = s.shows uri := by
  unfold atWrite
  split
  case isFalse => rfl
  obtain ⟨i, hi⟩ := Option.ne_none_iff_exists'.mp there
  unfold startTransfer
  rw [add_known (s := { s with count := -1 }) hi]
  have locked : (({ s with count := -1 } : State).lockUnlessLocked uri).store.tree = s.store.tree ∧
      (({ s with count := -1 } : State).lockUnlessLocked uri).store.values = s.store.values := by
    simp only [lockUnlessLocked, lock, Store.emmaResourceLock]
    constructor <;> repeat' split
    all_goals rfl
  have opened := (openUnlessOpened_spec
    (({ s with count := -1 } : State).lockUnlessLocked uri) uri).1
  refine shows_congr ?_ ?_ uri <;> rw [opened]
  · exact locked.1
  · exact locked.2

theorem handlePut_marks {rq : Request} {uri : Text} {r : Reply}
    (marks : rq.payload = [] ∨ rq.blockNum ≠ 0 ∧ s.lost rq.blockNum ∨
      s.Taken P rq uri ∧ (¬rq.more ∨ s.resolve uri ≠ none))
    (changed : (s.handlePut P rq uri r).1.shows uri ≠ s.shows uri) :
    (s.handlePut P rq uri r).1.lastModifier = .server := by
  by_cases taken : s.Taken P rq uri ∧ (¬rq.more ∨ s.resolve uri ≠ none)
  · obtain ⟨taken, finished⟩ := taken
    rw [handlePut_taken taken] at changed ⊢
    have there (h : s.resolve uri ≠ none) := @atWrite_shows P s rq uri h
    obtain ⟨seen, last⟩ := takeBlock_marks (P := P) (s.atWrite P rq uri) rq uri (r.setBlock1 rq)
    by_cases found : s.resolve uri = none
    · refine (last (finished.resolve_right (absurd found))).resolve_right fun gone => changed ?_
      exact (shows_none gone).trans (shows_none found).symm
    · exact seen.resolve_right fun same => changed (same.trans (there found))
  revert changed
  unfold handlePut
  simp only
  split_ifs with there empty first locked
  · exact absurd rfl
  · unfold handleEmpty
    simp only
    split
    · exact absurd rfl
    · intro changed
      rcases endTransfer_marks (P := P) s uri with mark | ⟨-, gone, none'⟩
      · exact mark
      · exact absurd ((shows_none gone).trans (shows_none none').symm) changed
  · exact absurd rfl
  · exact absurd first (marks.resolve_left empty |>.resolve_right taken).1
  · have lost := (marks.resolve_left empty |>.resolve_right taken).2
    unfold handleBlock
    rw [if_pos lost]
    exact fun changed => (cancelTransfer_marks s uri).resolve_right changed

/-- A transfer does not begin when its resource does not have the URI. -/
theorem Strays.not_taken {rq : Request} {uri : Text} (strays : s.Strays P uri)
    (first : rq.blockNum = 0) (free : s.locked = 0) : ¬s.Taken P rq uri := by
  intro taken
  have missing : (s.add P uri).store.tree.resolve uri = none := strays.2
  obtain ⟨-, locked, -, -⟩ := openUnlessOpened_spec
    (({ s.add P uri with count := -1 } : State).lockUnlessLocked uri) uri
  have lock : (({ s.add P uri with count := -1 } : State).lock uri).2 = false := by
    simp only [State.lock, Store.emmaResourceLock, missing]
  have busy := taken.2.2.2.2.1
  rw [atWrite, if_pos first] at busy
  refine busy (locked.trans ?_)
  rw [lockUnlessLocked, if_pos (show ({ s.add P uri with count := -1 } : State).locked = 0 from free),
    lock]
  rfl

theorem modifies_lastModifier {rq : Request} (h : s.modifies P rq) (marks : s.Marks P rq) :
    (s.emmaServerHandler P rq).1.lastModifier = .server := by
  unfold modifies at h
  unfold emmaServerHandler at h ⊢
  cases huri : rq.uri with
  | none => simp [huri] at h
  | some uri =>
    have put (other : rq.method ≠ .delete)
        (h : (s.handlePut P rq uri (.init rq)).1.shows uri ≠ s.shows uri ∨ rq.payload ≠ [] ∧
          (rq.blockNum = 0 ∧ s.locked = 0 ∧ s.Strays P uri ∨
            (¬rq.more ∨ emmaGetRoot uri = some .agent) ∧
              ((s.handlePut P rq uri (.init rq)).2.status = some .ok ∨
                (s.handlePut P rq uri (.init rq)).2.status = some .created) ∧
              (s.handlePut P rq uri (.init rq)).1.resolve uri ≠ none)) :
        (s.handlePut P rq uri (.init rq)).1.lastModifier = .server := by
      obtain ⟨uri', here, marks⟩ := marks.resolve_left other
      cases huri.symm.trans here
      have seen := handlePut_marks (r := .init rq) (marks.imp_right fun h => h.imp_right fun h =>
        ⟨h.1, h.2.imp_right And.left⟩)
      rcases h with changed | ⟨full, ⟨first, free, strays⟩ | ⟨last | agent, success, found⟩⟩
      · exact seen changed
      · rcases marks with empty | ⟨later, -⟩ | ⟨taken, -⟩
        · exact absurd empty full
        · exact absurd first later
        · exact absurd taken (strays.not_taken first free)
      · exact handlePut_lastModifier rfl full last success found
      by_cases last : rq.more
      case neg => exact handlePut_lastModifier rfl full last success found
      -- a block with a successor that is written in full leaves no mark
      by_cases taken : s.Taken P rq uri
      case neg => exact absurd success (handlePut_not_taken taken)
      rw [handlePut_taken taken, takeBlock_status] at success
      have wrote : (s.atWrite P rq uri).full P rq uri := by
        by_contra short
        simp [last, short] at success
      rcases marks with empty | ⟨later, lost⟩ | ⟨-, done | ⟨-, other⟩⟩
      · exact absurd empty full
      · exact absurd (by simpa [atWrite, later] using lost) taken.2.2.2.1
      · exact absurd last done
      · exact absurd ⟨agent, wrote⟩ other
    simp only [huri] at h ⊢
    cases hm : rq.method with
    | get => simp [hm] at h
    | delete =>
      simp only [hm, decide_eq_true_eq] at h
      exact handleDelete_lastModifier h
    | put =>
      simp only [hm, decide_eq_true_eq] at h
      exact put (by simp [hm]) h
    | post =>
      simp only [hm, decide_eq_true_eq] at h
      exact put (by simp [hm]) h

end State

/-! ### The states of the client -/

namespace System
variable {P : Platform} {s t : System}

theorem acquire_state (s : System) : s.acquire.client.pc = s.client.pc ∧
    (s.acquire.client.state = .running ∨ s.acquire.client.state = .waitingMutex) := by
  unfold acquire
  have start : ((s.setClient fun c => { c with state := .running }).nextName
      (some .agent)).client.pc = s.client.pc ∧ ((s.setClient fun c =>
        { c with state := .running }).nextName (some .agent)).client.state = .running := ⟨rfl, rfl⟩
  revert start
  generalize (s.setClient fun c => { c with state := .running }).nextName (some .agent) = t
  generalize maxNames + 1 = fuel
  intro start
  induction fuel generalizing t with
  | zero => exact ⟨start.1, .inl start.2⟩
  | succ fuel ih =>
    have next := ih (t.nextName none) start
    simp only [acquireFrom]
    split_ifs
    · exact ⟨start.1, .inl start.2⟩
    · exact next
    · split
      · exact ⟨start.1, .inl start.2⟩
      · exact ⟨start.1, .inr rfl⟩
    · split
      · exact ⟨start.1, .inl start.2⟩
      · exact next

theorem releaseAll_state (h : s.client.state = .release) :
    s.releaseAll.client.pc = s.client.pc ∧
      s.releaseAll.shared.lastModifier = s.shared.lastModifier ∧
      s.releaseAll.client.previousFail = s.client.previousFail ∧
      (s.releaseAll.client.state = .release ∨ s.releaseAll.client.state = .idle) := by
  refine ⟨?_, (State.kept_lastModifier .plain _).releaseAll rfl, ?_, ?_⟩
  all_goals
    unfold releaseAll
    have start : (s.nextName (some .agent)).client.pc = s.client.pc ∧
      (s.nextName (some .agent)).client.previousFail = s.client.previousFail ∧
      (s.nextName (some .agent)).client.state = .release := ⟨rfl, rfl, h⟩
    revert start
    generalize s.nextName (some .agent) = t
    generalize maxNames + 1 = fuel
    intro start
    induction fuel generalizing t with
    | zero => first | exact start.1 | exact start.2.1 | exact .inl start.2.2
    | succ fuel ih =>
      simp only [releaseFrom]
      split
      · first | exact start.1 | exact start.2.1 | exact .inr rfl
      · exact ih _ start

theorem mainTurn_spec (s : System) :
    (s.mainTurn.client.pc = s.client.pc ∨ s.mainTurn.client.state = .running) ∧
    match s.client.state with
    | .idle => s.mainTurn.client.state = .start ∨ ¬s.Due
    | .start => s.mainTurn.client.state = .waitingMutex
    | .waitingMutex =>
        s.mainTurn.client.state = .running ∨ s.mainTurn.client.state = .waitingMutex
    | .running => s.mainTurn.client.state = .running
    | .release => s.mainTurn.shared.lastModifier = s.shared.lastModifier ∧
        s.mainTurn.client.previousFail = s.client.previousFail ∧
        (s.mainTurn.client.state = .release ∨ s.mainTurn.client.state = .idle) := by
  unfold mainTurn
  cases h : s.client.state with
  | idle =>
    simp only
    split_ifs with due
    · exact ⟨.inl rfl, .inl rfl⟩
    · refine ⟨.inl rfl, .inr ?_⟩
      rintro (other | failed | start | waiting)
      · exact due (.inl other)
      · exact due (.inr failed)
      · rw [h] at start
        cases start
      · rw [h] at waiting
        cases waiting
  | start => exact ⟨.inl rfl, rfl⟩
  | waitingMutex => exact ⟨.inl s.acquire_state.1, s.acquire_state.2⟩
  | running => exact ⟨.inr h, h⟩
  | release => exact ⟨.inl (releaseAll_state h).1, (releaseAll_state h).2⟩

theorem sendBlock_state (s : System) : (s.sendBlock P).client.state = s.client.state := by
  have open_ (s : System) (uri : Text) : (s.openLocal P uri).client.state = s.client.state := by
    unfold openLocal
    split <;> rfl
  have write (s : System) (uri : Text) : (s.writeLocal P uri).client.state = s.client.state := by
    unfold writeLocal
    simp only
    split_ifs <;> rfl
  have close (s : System) (uri : Text) : (s.closeLocal P uri).client.state = s.client.state := by
    unfold closeLocal
    split <;> rfl
  have locally (s : System) : (s.sendLocal P).client.state = s.client.state := by
    unfold sendLocal
    simp only
    split_ifs
    · rfl
    · rfl
    · rfl
    · exact (close _ _).trans ((write _ _).trans (open_ _ _))
  unfold sendBlock
  simp only
  split_ifs
  · exact (Reads.afterBlock _).state.trans (locally _)
  · rfl
  · rfl

theorem clientStep_running (hpc : s.client.pc ≠ .main) (step : s.clientStep P = some t) :
    t.client.state = s.client.state ∧ t.shared.lastModifier = s.shared.lastModifier ∨
      t.client.state = .release ∧ t.client.pc = .main := by
  have reads {u : System} (r : Reads s u) :
      u.client.state = s.client.state ∧ u.shared.lastModifier = s.shared.lastModifier :=
    ⟨r.state, r.content.lastModifier⟩
  unfold clientStep at step
  cases h : s.client.pc <;> rw [h] at step <;>
    simp only [Option.some.injEq, reduceCtorEq] at step <;> subst step
  · exact absurd h hpc
  · unfold agentHead
    simp only
    split_ifs
    · exact .inl (reads ((Reads.client s _ rfl).trans (Reads.nextAgent _)))
    · exact .inl (reads ((Reads.client s _ rfl).trans (Reads.startAgent _)))
    · exact .inr ⟨rfl, rfl⟩
  · exact .inl (reads (Reads.targetHead s))
  · exact .inl (reads (Reads.blockHead s))
  · exact .inl (reads (Reads.preprocessStep s))
  · exact .inl ⟨sendBlock_state s, (State.kept_lastModifier P _).sendBlock rfl⟩
  · exact .inl (reads (Reads.answered s))

end System

/-! ### Runs -/

namespace Noted
variable {P : Platform}

/-- Agents run in one state only; behind a modification a pass is due. -/
structure Inv (s : Noted) : Prop where
  running : s.system.client.pc ≠ .main → s.system.client.state = .running
  awake : s.modified → s.system.client.state ≠ .running ∧ s.system.Due

theorem inv_other {s : Noted} {shared : State} (inv : s.Inv)
    (keep : s.system.shared.lastModifier ≠ .client → shared.lastModifier ≠ .client) :
    Inv ⟨⟨shared, s.system.client⟩, s.modified⟩ where
  running := inv.running
  awake h := ⟨(inv.awake h).1, (inv.awake h).2.imp_left keep⟩

theorem inv_client {s : Noted} {t : System} (inv : s.Inv) (step : s.system.clientStep P = some t) :
    Inv ⟨t, s.modified &&
      !(s.system.client.state ≠ .running ∧ t.client.state = .running)⟩ := by
  obtain ⟨running, awake⟩ := inv
  by_cases hpc : s.system.client.pc = .main
  · simp only [System.clientStep, hpc, Option.some.injEq] at step
    obtain ⟨pc, turn⟩ := s.system.mainTurn_spec
    rw [step] at pc turn
    refine ⟨fun h => pc.resolve_left fun e => h (e.trans hpc), fun h => ?_⟩
    simp only [Bool.and_eq_true, Bool.not_eq_true', decide_eq_false_iff_not] at h
    obtain ⟨calm, due⟩ := awake h.1
    have stays : t.client.state ≠ .running := fun e => h.2 ⟨calm, e⟩
    refine ⟨stays, ?_⟩
    cases hs : s.system.client.state with
    | idle =>
      simp only [hs] at turn
      exact .inr (.inr (.inl (turn.resolve_right fun asleep => asleep due)))
    | start =>
      simp only [hs] at turn
      exact .inr (.inr (.inr turn))
    | waitingMutex =>
      simp only [hs] at turn
      exact .inr (.inr (.inr (turn.resolve_left stays)))
    | running => exact absurd hs calm
    | release =>
      simp only [hs] at turn
      rcases due with other | failed | start | waiting
      · exact .inl (turn.1 ▸ other)
      · exact .inr (.inl (turn.2.1 ▸ failed))
      · rw [hs] at start
        cases start
      · rw [hs] at waiting
        cases waiting
  · have calm : ¬s.modified := fun h => (awake h).1 (running hpc)
    refine ⟨fun h => ?_, fun h => ?_⟩
    · rcases System.clientStep_running hpc step with ⟨same, -⟩ | ⟨-, main⟩
      · exact same.trans (running hpc)
      · exact absurd main h
    · simp only [Bool.and_eq_true] at h
      exact absurd h.1 calm

theorem inv_step {s u : Noted} {e : Event} (inv : s.Inv) (calm : Calm P s e)
    (step : s.step P e = some u) : u.Inv := by
  simp only [Noted.step, Option.map_eq_some_iff] at step
  obtain ⟨t, step, rfl⟩ := step
  unfold System.step at step
  split at step
  · simp at step
  cases e with
  | request rq =>
    simp only [Option.ite_none_right_eq_some, Option.some.injEq] at step
    obtain ⟨-, rfl⟩ := step
    have keep := (State.kept_notClient P).emmaServerHandler (s := s.system.shared)
      (by decide : Modifier.server ≠ .client) rq
    refine ⟨inv.running, fun h => ?_⟩
    simp only [note, Bool.or_eq_true] at h
    rcases h with old | new
    · exact ⟨(inv.awake old).1, (inv.awake old).2.imp_left keep⟩
    · obtain ⟨still, due | marks⟩ := calm new
      · exact ⟨still, due.imp_left keep⟩
      · refine ⟨still, .inl ?_⟩
        rw [State.modifies_lastModifier new marks]
        decide
  | wellKnown size offset =>
    simp only [Option.ite_none_right_eq_some, Option.some.injEq] at step
    obtain ⟨-, rfl⟩ := step
    have keep := (State.kept_notClient P).wellKnown (s := s.system.shared) size offset
    simpa [note] using inv_other inv keep
  | watchdog =>
    simp only [Option.ite_none_right_eq_some, Option.some.injEq] at step
    obtain ⟨-, rfl⟩ := step
    have keep := (State.kept_notClient P).watchdog (s := s.system.shared)
      (by decide : Modifier.server ≠ .client) s.system.client.quiet
    simpa [note, System.mapShared] using inv_other inv keep
  | systemTimer =>
    simp only [Option.ite_none_right_eq_some, Option.some.injEq] at step
    obtain ⟨-, rfl⟩ := step
    have keep := (State.kept_notClient P).systemTimer (s := s.system.shared)
      (by decide : Modifier.system ≠ .client)
    simpa [note, System.mapShared] using inv_other inv keep
  | client => exact inv_client inv step
  | response success last =>
    simp only [Option.ite_none_right_eq_some, Option.some.injEq] at step
    obtain ⟨blocked, rfl⟩ := step
    have running := inv.running (by simp [blocked])
    refine ⟨fun _ => running, fun h => ?_⟩
    simp only [note, Bool.and_eq_true] at h
    exact absurd running (inv.awake h.1).1
  | environment env =>
    simp only [Option.some.injEq] at step
    subst step
    simpa [note, System.mapShared] using @inv_other s { s.system.shared with env } inv id

theorem inv_init (files : Nat → Option Text) (env : Env) : (init P files env).Inv :=
  ⟨fun h => absurd rfl h, fun h => by simp [init] at h⟩

/-- When no request modifies the store while agents run, nor without a mark when no pass is due,
every modification is followed by a pass that begins after it. -/
theorem no_lost_wakeup {files : Nat → Option Text} {env : Env} {s : Noted}
    (run : Runs (Noted.step P) (Calm P) (init P files env) s) (asleep : s.system.Asleep) :
    s.modified = false := by
  have inv : s.Inv := run.keeps (fun _ _ _ calm step inv => inv_step inv calm step)
    (inv_init files env)
  obtain ⟨-, idle, mark, succeeded⟩ := asleep
  by_contra h
  rcases (inv.awake (by simpa using h)).2 with other | failed | start | waiting
  · exact other mark
  · simp [succeeded] at failed
  · simp [idle] at start
  · simp [idle] at waiting

def putLocal (name : Char) : Event :=
  .request ⟨chars ['L', '/', name], .put, none, chars ['1'], 64, 0, short_one⟩

theorem no_lost_wakeup_put : ∃ s, Runs (Noted.step .plain) (Calm .plain)
    (init .plain (fun _ => none) .bare) s ∧ s.system.Asleep ∧
    s.system.shared.resolve (chars ['L', '/', 'x']) ≠ none ∧ s.modified = false := by
  obtain ⟨s, run, h⟩ := Runs.of_follow (Noted.step .plain) (Calm .plain)
    (fun s => s.system.Asleep ∧ s.system.shared.resolve (chars ['L', '/', 'x']) ≠ none)
    (putLocal 'x' :: List.replicate 8 .client)
    (init .plain (fun _ => none) .bare) (by decide +kernel)
  simp only [Bool.decide_and, Bool.and_eq_true, decide_eq_true_eq] at h
  exact ⟨s, run, h.1, h.2, no_lost_wakeup run h.1⟩

def remoteAgent : Text := chars
  "\x7b\"NAME\":\"x\",\"PRE\":\"1\",\"TARGET\":[\"PUT[a:0:0:0:0:0:0:1]:5683/L/z\"],\"POST\":[\"1\"]\x7d".toList

def putAgent : Event :=
  .request ⟨chars ['A', '/', 'x'], .put, none, remoteAgent, 64, 0, by decide +kernel⟩

/-- The agent waits for the answer to its request when another resource is written. -/
theorem wakeup_lost : ¬ ∀ (P : Platform) (files : Nat → Option Text) (env : Env) (s : Noted),
    Runs (Noted.step P) (fun _ _ => True) (init P files env) s → s.system.Asleep →
    s.modified = false := by
  intro h
  obtain ⟨s, run, hs⟩ := Runs.of_follow (Noted.step .plain) (fun _ _ => True)
    (fun s => s.system.Asleep ∧ s.modified)
    (putAgent :: List.replicate 12 .client ++ [putLocal 'y', .response none true] ++
      List.replicate 5 .client)
    (init .plain (fun _ => none) .bare) (by decide +kernel)
  simp only [Bool.decide_and, Bool.decide_eq_true, Bool.and_eq_true, decide_eq_true_eq] at hs
  have := h .plain _ _ s run hs.1
  simp [hs.2] at this

end Noted
end EmmaNode

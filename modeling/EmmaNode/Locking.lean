import EmmaNode.ClientLocks

/-! Which locks a step of the node gives up, and what it does to the flags of the server.
For a request this depends on the branch of the handler it takes: a release in front of a
transfer that is over, lost or failed goes to the URI of the request, whoever has locked
the resource it leads to. -/

namespace EmmaNode

namespace State
variable (P : Platform) (s : State) (rq : Request) (uri : Text)

/-- A block is written in full. -/
def full : Prop :=
  (UInt16.ofInt (s.emmaResourceWrite P uri rq.payload (blockIndex P rq)).2).toNat =
    rq.payload.length

instance : Decidable (s.full P rq uri) := inferInstanceAs (Decidable (_ = _))

def written : State := (s.emmaResourceWrite P uri rq.payload (blockIndex P rq)).1

def dropped : State := ((s.written P rq uri).del uri).1

def BlockUnlocks (i : Nat) : Prop :=
  if s.lost rq.blockNum then s.resolve uri = some i
  else s.locked ≠ 0 ∧
    if s.opened = 0 then s.resolve uri = some i
    else rq.blockNum.toUInt64 ≠ s.count ∧
      if s.full P rq uri then ¬rq.more ∧ s.resolve uri = some i
      else s.resolve uri = some i ∨ ¬rq.more ∧ (s.dropped P rq uri).resolve uri = some i

instance (i : Nat) : Decidable (s.BlockUnlocks P rq uri i) :=
  inferInstanceAs (Decidable (ite _ _ _))

def PutUnlocks (i : Nat) : Prop :=
  ¬(rq.method = .post ∧ s.store.emmaResourceExists uri ∧ s.locked = 0) ∧
    if rq.payload = [] then ¬rq.more ∧ s.resolve uri = some i
    else if rq.blockNum = 0 then s.locked = 0 ∧ (s.startTransfer P uri).BlockUnlocks P rq uri i
    else s.BlockUnlocks P rq uri i

instance (i : Nat) : Decidable (s.PutUnlocks P rq uri i) :=
  inferInstanceAs (Decidable (_ ∧ ite _ _ _))

def RequestUnlocks (i : Nat) : Prop :=
  (rq.method = .put ∨ rq.method = .post) ∧ ∃ uri ∈ rq.uri, s.PutUnlocks P rq uri i

instance (i : Nat) : Decidable (s.RequestUnlocks P rq i) :=
  inferInstanceAs (Decidable (_ ∧ ∃ uri ∈ rq.uri, _))

end State

namespace State
variable {P : Platform} {s t : State}

theorem cancelTransfer_cases (so : s.Sound) (uri : Text) :
    (∃ i, s.resolve uri = some i ∧ (s.del uri).2 = 0 ∧
      s.cancelTransfer uri = { (s.del uri).1 with lastModifier := .server, opened := 0, locked := 0 } ∧
      ∀ j, (s.del uri).1.Locked j ↔ s.Locked j ∧ j ≠ i) ∨
    (s.del uri).1.store = s.store ∧
      s.cancelTransfer uri = { (s.del uri).1.release uri with opened := 0, locked := 0 } := by
  unfold cancelTransfer
  rcases del_cases so uri with ⟨done, i, hi, locked⟩ | ⟨failed, same⟩
  · refine .inl ⟨i, hi, done, ?_, locked⟩
    split
    · rename_i t e
      rw [e]
      rfl
    · rename_i t n hn e
      rw [e] at done
      exact absurd done hn
  · refine .inr ⟨same, ?_⟩
    split
    · rename_i t e
      rw [e] at failed
      exact absurd rfl failed
    · rename_i t n hn e
      rw [e]

theorem cancelTransfer_locked (so : s.Sound) (uri : Text) (i : Nat) :
    (s.cancelTransfer uri).Locked i ↔ s.Locked i ∧ s.resolve uri ≠ some i := by
  rcases cancelTransfer_cases so uri with ⟨j, hj, -, cancelled, locked⟩ | ⟨same, cancelled⟩
  · rw [cancelled, hj]
    refine (locked i).trans (and_congr_right fun _ => ?_)
    simp [eq_comm]
  · rw [cancelled]
    refine (locked_release (s := (s.del uri).1) uri i).trans ?_
    simp only [Locked, resolve, same]

theorem endTransfer_locked (uri : Text) (i : Nat) :
    (s.endTransfer P uri).Locked i ↔ s.Locked i ∧ s.resolve uri ≠ some i := by
  have closed := Content.emmaResourceClose (P := P) (s.setLastModified uri .server) uri
  refine (locked_release
    (s := (s.setLastModified uri .server).emmaResourceClose P uri) uri i).trans ?_
  rw [closed.locked_iff, closed.resolve_eq, locked_setLastModified, setLastModified_resolve]

theorem handleEmpty_locked (rq : Request) (uri : Text) (r : Reply) (i : Nat) :
    (s.handleEmpty P rq uri r).1.Locked i ↔
      s.Locked i ∧ ¬(¬rq.more ∧ s.resolve uri = some i) := by
  unfold handleEmpty
  simp only
  split
  · rename_i more
    simp [finish, Locked, more]
  · rename_i last
    have ended := endTransfer_locked (P := P) (s := s) uri i
    simp only [last, Bool.false_eq_true, not_false_eq_true, true_and]
    exact ended

theorem writeBlock_eq (s : State) (rq : Request) (uri : Text) :
    s.writeBlock P rq uri = if s.full P rq uri then (s.written P rq uri, .ok)
      else ((s.written P rq uri).cancelTransfer uri, .badRequest) := rfl

theorem written_content (s : State) (rq : Request) (uri : Text) :
    Content s (s.written P rq uri) := Content.emmaResourceWrite s uri rq.payload _

theorem full_resource (root : emmaGetRoot uri = some .resource) (filled : rq.payload ≠ []) {i : Nat}
    (hi : s.resolve uri = some i) :
    (s.full P rq uri ↔ (s.calculator.evaluateBlock P (s.store.rootResourceSolver P s.env)
      (rq.payload.take (rq.payload.length % 256))).2 = .ready) ∧
    s.written P rq uri = s.setCalculator (s.calculator.evaluateBlock P
      (s.store.rootResourceSolver P s.env) (rq.payload.take (rq.payload.length % 256))).1 := by
  have short := rq.payload_le
  have long : rq.payload.length ≠ 0 := fun h => filled (List.length_eq_zero_iff.mp h)
  have wrote : s.emmaResourceWrite P uri rq.payload (blockIndex P rq) =
      s.rootResourceWrite P rq.payload := by
    simp only [emmaResourceWrite, root, hi]
  unfold State.full State.written
  rw [wrote, rootResourceWrite]
  rcases s.calculator.evaluateBlock P (s.store.rootResourceSolver P s.env)
    (rq.payload.take (rq.payload.length % 256)) with ⟨m, e⟩
  cases e
  case ready => exact ⟨iff_of_true (toNat_ofInt (by omega)) rfl, rfl⟩
  all_goals exact ⟨iff_of_false (fun h => long h.symm) (by simp), rfl⟩

theorem setClocktime_resolve (uri uri' : Text) :
    (s.setClocktime uri).resolve uri' = s.resolve uri' := by
  simp only [setClocktime, Store.emmaResourceSetClocktime, resolve]
  split <;> rfl

theorem cancelTransfer_resolve (uri uri' : Text) :
    (s.cancelTransfer uri).resolve uri' = (s.del uri).1.resolve uri' := by
  unfold cancelTransfer
  split
  · rename_i deleted
    rw [deleted]
    rfl
  · rename_i kept
    rw [kept]
    exact release_resolve uri uri'

@[simp] theorem finish_locked (r : Reply) (status : Status) (n : UInt32) (i : Nat) :
    (s.finish r status n).1.Locked i ↔ s.Locked i := Iff.rfl

theorem takeBlock_locked (so : s.Sound) (rq : Request) (uri : Text) (r : Reply) (i : Nat) :
    (s.takeBlock P rq uri r).1.Locked i ↔ s.Locked i ∧
      ¬if s.full P rq uri then ¬rq.more ∧ s.resolve uri = some i
        else s.resolve uri = some i ∨ ¬rq.more ∧ (s.dropped P rq uri).resolve uri = some i := by
  have content := written_content (P := P) s rq uri
  have sound := (Sound.kept P).content content so
  simp only [takeBlock, writeBlock_eq]
  by_cases full : s.full P rq uri
  · simp only [if_pos full]
    have kept : ((s.written P rq uri).setClocktime uri).Locked i ↔ s.Locked i :=
      (locked_setClocktime uri i).trans (content.locked_iff i)
    split
    · rename_i more
      simpa [more] using kept
    · rename_i last
      have ended := endTransfer_locked (P := P) (s := (s.written P rq uri).setClocktime uri) uri i
      rw [kept, setClocktime_resolve, content.resolve_eq] at ended
      simpa [last] using ended
  · simp only [if_neg full]
    have kept := (locked_setClocktime (s := (s.written P rq uri).cancelTransfer uri) uri i).trans
      (cancelTransfer_locked sound uri i)
    rw [content.locked_iff, content.resolve_eq] at kept
    split
    · rename_i more
      simpa [more] using kept
    · rename_i last
      have ended := endTransfer_locked (P := P)
        (s := ((s.written P rq uri).cancelTransfer uri).setClocktime uri) uri i
      rw [kept, setClocktime_resolve, cancelTransfer_resolve] at ended
      simp only [last, Bool.false_eq_true, not_false_eq_true, true_and, not_or]
      exact ended.trans and_assoc

theorem handleBlock_locked (so : s.Sound) (rq : Request) (uri : Text) (r : Reply) (i : Nat) :
    (s.handleBlock P rq uri r).1.Locked i ↔ s.Locked i ∧ ¬s.BlockUnlocks P rq uri i := by
  unfold handleBlock BlockUnlocks
  by_cases lost : s.lost rq.blockNum
  · rw [if_pos lost, if_pos lost]
    exact cancelTransfer_locked so uri i
  rw [if_neg lost, if_neg lost]
  by_cases locked : s.locked = 0
  · simp only [locked, ne_eq, not_true_eq_false, if_false, false_and, not_false_eq_true, and_true]
    unfold refuseBlock
    split
    · exact (Content.emmaResourceClose (P := P) s uri).locked_iff i
    · rfl
  simp only [ne_eq, locked, not_false_eq_true, if_true, true_and]
  by_cases opened : s.opened = 0
  · simp only [opened, not_true_eq_false, if_false, if_true]
    exact locked_release uri i
  simp only [opened, not_false_eq_true, if_true, if_false]
  by_cases known : rq.blockNum.toUInt64 = s.count
  · simp [known]
  simp only [known, if_false, not_false_eq_true, true_and]
  exact takeBlock_locked so rq uri r i

theorem kept_flags (P : Platform) (opened locked : UInt8) :
    Kept P (fun _ => True) fun s => s.opened = opened ∧ s.locked = locked where
  content c h := ⟨c.opened.trans h.1, c.locked.trans h.2⟩
  setLastModifier _ _ h := h
  setLastModified uri key _ h := by
    unfold setLastModified
    split <;> exact h
  lock _ h := h
  release _ h := h
  setClocktime _ h := h
  add _ h := h
  del _ h := h
  count _ h := h

/-! ### The first block -/

theorem emmaResourceOpen_done {uri : Text} {i : Nat} (h : s.resolve uri = some i) :
    (s.emmaResourceOpen uri).2 = 1 := by
  unfold emmaResourceOpen
  cases hr : emmaGetRoot uri with
  | none => simp [resolve, Tree.resolve, hr] at h
  | some root =>
    rw [h]
    cases root <;> rfl

theorem openUnlessOpened_spec (s : State) (uri : Text) :
    (s.openUnlessOpened uri).store = s.store ∧ (s.openUnlessOpened uri).locked = s.locked ∧
    (s.openUnlessOpened uri).count = s.count ∧
    (s.resolve uri ≠ none → (s.openUnlessOpened uri).opened ≠ 0) := by
  have store : (s.emmaResourceOpen uri).1.store = s.store := by
    unfold emmaResourceOpen
    repeat' split
    all_goals rfl
  have content := Content.emmaResourceOpen s uri
  unfold openUnlessOpened
  split
  · refine ⟨store, content.locked, content.count, fun h => ?_⟩
    obtain ⟨i, hi⟩ := Option.ne_none_iff_exists'.mp h
    simp only [emmaResourceOpen_done hi]
    decide
  · rename_i opened
    exact ⟨rfl, rfl, rfl, fun _ => opened⟩

theorem startTransfer_cases (so : s.Sound) (free : s.locked = 0) (uri : Text) :
    (s.startTransfer P uri).count = -1 ∧
    ((s.startTransfer P uri).locked = 0 ∧
      (∀ i, (s.startTransfer P uri).Locked i ↔ s.Locked i) ∧
      (∀ i, (s.add P uri).resolve uri = some i → s.Locked i) ∨
    (s.startTransfer P uri).locked ≠ 0 ∧ (s.startTransfer P uri).opened ≠ 0 ∧
      ∃ i, (s.startTransfer P uri).resolve uri = some i ∧ ¬s.Locked i ∧
        ∀ j, (s.startTransfer P uri).Locked j ↔ s.Locked j ∨ j = i) := by
  have added := (Sound.kept P).add uri ((Sound.kept P).count (-1) so)
  have kept (i : Nat) : (({ s with count := -1 } : State).add P uri).Locked i ↔ s.Locked i :=
    locked_add uri i
  unfold startTransfer
  have found : (({ s with count := -1 } : State).add P uri).resolve uri =
    (s.add P uri).resolve uri := rfl
  have free : (({ s with count := -1 } : State).add P uri).locked = 0 := free
  have restart : (({ s with count := -1 } : State).add P uri).count = -1 := rfl
  generalize ({ s with count := -1 } : State).add P uri = a at added kept found free restart ⊢
  obtain ⟨store, locked, count, done⟩ := openUnlessOpened_spec (a.lockUnlessLocked uri) uri
  unfold lockUnlessLocked at store locked count done ⊢
  rw [if_pos free] at store locked count done ⊢
  generalize openUnlessOpened _ uri = u at store locked count done ⊢
  simp only at store locked count done
  have locked_iff (i : Nat) : u.Locked i ↔ (a.lock uri).1.Locked i := by
    simp only [Locked, store]
  have resolved : u.resolve uri = a.resolve uri := by
    rw [resolve, store]
    rcases a.lock_cases uri with ⟨-, same, -⟩ | ⟨-, i, -, -, same⟩ <;> rw [same] <;> rfl
  refine ⟨count.trans ?_, ?_⟩
  · rcases a.lock_cases uri with ⟨-, same, -⟩ | ⟨-, i, -, -, same⟩ <;> rw [same] <;> exact restart
  rcases a.lock_cases uri with ⟨failed, same, held⟩ | ⟨had, i, hi, released, same⟩
  · refine .inl ⟨by simp [locked, failed], fun i => ?_, fun i hi => ?_⟩
    · rw [locked_iff, same, kept]
    · rw [← found] at hi
      exact (kept i).mp ⟨added.resolve_used hi, held i hi⟩
  · refine .inr ⟨by simp [locked, had], done ?_, i, resolved.trans hi, ?_, fun j => ?_⟩
    · have there : (a.lock uri).1.resolve uri = some i := by
        rw [same]
        exact hi
      intro absent
      have absent : (a.lock uri).1.resolve uri = none := absent
      simp [there] at absent
    · rw [← kept]
      exact unlocked_released released
    · rw [locked_iff, same, locked_update added hi, kept]

/-! ### Requests -/

theorem lock_given_up (so : s.Sound) {uri : Text} (had : (s.lock uri).2 = true) (i : Nat) :
    (s.lock uri).1.Locked i ∧ (s.lock uri).1.resolve uri ≠ some i ↔ s.Locked i := by
  rcases s.lock_cases uri with ⟨failed, -, -⟩ | ⟨-, j, hj, released, same⟩
  · simp [failed] at had
  have resolved : (s.lock uri).1.resolve uri = some j := by
    rw [same]
    exact hj
  have free : ¬s.Locked j := unlocked_released released
  rw [resolved, same, locked_update so hj]
  constructor
  · rintro ⟨old | rfl, other⟩
    · exact old
    · exact absurd rfl other
  · exact fun old => ⟨.inl old, fun e => free (Option.some.inj e ▸ old)⟩

theorem handleRead_locked (so : s.Sound) (rq : Request) (uri : Text) (r : Reply) (i : Nat) :
    (s.handleRead P rq uri r).1.Locked i ↔ s.Locked i := by
  unfold handleRead
  rcases s.lock_cases uri with ⟨failed, same, -⟩ | ⟨had, -⟩
  · have pair : s.lock uri = (s, false) := Prod.ext same failed
    simp only [pair, finish_locked]
  have pair : s.lock uri = ((s.lock uri).1, true) := Prod.ext rfl had
  rw [pair]
  have given : ∀ t, Content (s.lock uri).1 t → ((t.release uri).Locked i ↔ s.Locked i) := by
    intro t content
    rw [locked_release, content.locked_iff, content.resolve_eq]
    exact lock_given_up so had i
  have opened := Content.emmaResourceOpen (s.lock uri).1 uri
  simp only
  split
  · rename_i u e
    rw [e] at opened
    exact given u opened
  · rename_i u n _ e
    rw [e] at opened
    exact given _ (opened.trans ((Content.emmaResourceRead u _ _ _).trans
      (Content.emmaResourceClose (P := P) _ uri)))

theorem handleDelete_locked (so : s.Sound) (uri : Text) (r : Reply) (i : Nat) :
    (s.handleDelete uri r).1.Locked i ↔ s.Locked i := by
  unfold handleDelete
  rcases s.lock_cases uri with ⟨failed, same, -⟩ | ⟨had, -⟩
  · have pair : s.lock uri = (s, false) := Prod.ext same failed
    simp only [pair, finish_locked]
  have pair : s.lock uri = ((s.lock uri).1, true) := Prod.ext rfl had
  have given := lock_given_up so had i
  rw [pair, ← given]
  simp only
  rcases del_cases ((Sound.kept .plain).lock uri so) uri with ⟨done, j, hj, deleted⟩ | ⟨failed, kept⟩
  · split
    · rename_i u e
      rw [e] at deleted
      refine (deleted i).trans ?_
      rw [hj]
      simp [eq_comm]
    · rename_i u n hn e
      rw [e] at done
      exact absurd done hn
  · split
    · rename_i u e
      rw [e] at failed
      exact absurd rfl failed
    · rename_i u n hn e
      rw [e] at kept
      refine (locked_release uri i).trans ?_
      simp only [Locked, resolve, show u.store = _ from kept]

theorem handleList_content (s : State) (rq : Request) (uri : Text) (r : Reply) :
    Content s { (s.handleList rq uri r).1 with count := s.count } := by
  have named := Content.getNextResourceNameByRoot s (emmaGetRoot uri) rq.preferredSize
  unfold handleList
  simp only
  have listed := named.trans (Content.listFrom (emmaGetRoot uri) rq.preferredSize
    (Int.tdiv rq.offset rq.preferredSize) maxNames
    (s.getNextResourceNameByRoot (emmaGetRoot uri) rq.preferredSize).2 _ 0 (chars ['[']))
  exact ⟨listed.tree, listed.alloc, listed.mutex, listed.lastModified, listed.clocktime,
    listed.lastModifier, listed.opened, listed.locked, rfl, listed.env⟩

theorem handleList_locked (rq : Request) (uri : Text) (r : Reply) (i : Nat) :
    (s.handleList rq uri r).1.Locked i ↔ s.Locked i :=
  (handleList_content s rq uri r).locked_iff i

theorem handlePut_keeps (so : s.Sound) {rq : Request} {uri : Text} {i : Nat} (r : Reply)
    (held : s.Locked i) (kept : ¬s.PutUnlocks P rq uri i) :
    (s.handlePut P rq uri r).1.Locked i := by
  unfold PutUnlocks at kept
  unfold handlePut
  by_cases there : rq.method = .post ∧ s.store.emmaResourceExists uri ∧ s.locked = 0
  · rw [if_pos there]
    exact held
  simp only [there, not_false_eq_true, true_and] at kept ⊢
  by_cases empty : rq.payload = []
  · rw [if_pos empty] at kept ⊢
    exact (handleEmpty_locked rq uri _ i).mpr ⟨held, kept⟩
  rw [if_neg empty] at kept ⊢
  by_cases first : rq.blockNum = 0
  · rw [if_pos first] at kept ⊢
    by_cases free : s.locked = 0
    · simp only [free, true_and] at kept
      simp only [free, ne_eq, not_true_eq_false, if_false]
      refine (handleBlock_locked ((Sound.kept P).startTransfer uri so) rq uri _ i).mpr ⟨?_, kept⟩
      rcases startTransfer_cases (P := P) so free uri with ⟨-, ⟨-, same, -⟩ | ⟨-, -, j, -, -, more⟩⟩
      · exact (same i).mpr held
      · exact (more i).mpr (.inl held)
    · rw [if_pos free]
      exact held
  · rw [if_neg first] at kept ⊢
    exact (handleBlock_locked so rq uri _ i).mpr ⟨held, kept⟩

theorem emmaServerHandler_keeps (so : s.Sound) {rq : Request} {i : Nat} (held : s.Locked i)
    (kept : ¬s.RequestUnlocks P rq i) : (s.emmaServerHandler P rq).1.Locked i := by
  unfold emmaServerHandler
  cases huri : rq.uri with
  | none => exact held
  | some uri =>
    simp only
    cases hm : rq.method with
    | get =>
      simp only [handleGet]
      split
      · exact (handleList_locked rq uri _ i).mpr held
      · exact (handleRead_locked so rq uri _ i).mpr held
    | put => exact handlePut_keeps so _ held fun h => kept ⟨.inl hm, uri, huri, h⟩
    | post => exact handlePut_keeps so _ held fun h => kept ⟨.inr hm, uri, huri, h⟩
    | delete => exact (handleDelete_locked so uri _ i).mpr held

/-! ### The other processes -/

/-- The watchdog may take the lock of `i`. -/
def TimedOut (s : State) (quiet : Bool) (i : Nat) : Prop :=
  quiet ∧ s.env.now - s.store.clocktime i > emmaServerTimeoutSecond

instance (s : State) (quiet : Bool) (i : Nat) : Decidable (s.TimedOut quiet i) :=
  inferInstanceAs (Decidable (_ ∧ _))

/-- What one round of the watchdog does: it cancels transfers that have timed out, and any
of them clears the flags. -/
structure Watched (quiet : Bool) (s t : State) : Prop where
  clock : t.env = s.env ∧ t.store.clocktime = s.store.clocktime
  keeps : ∀ i, s.Locked i → t.Locked i ∨ s.TimedOut quiet i
  less : ∀ i, t.Locked i → s.Locked i
  flags : t.locked = s.locked ∧ t.opened = s.opened ∧ (∀ i, s.Locked i → t.Locked i) ∨
    t.locked = 0 ∧ t.opened = 0 ∧ ∃ i, s.Locked i ∧ s.TimedOut quiet i ∧ ¬t.Locked i

theorem Watched.trans {quiet : Bool} {s t u : State} (a : Watched quiet s t)
    (b : Watched quiet t u) : Watched quiet s u := by
  have timedOut (i : Nat) : t.TimedOut quiet i ↔ s.TimedOut quiet i := by
    simp only [TimedOut, a.clock]
  refine ⟨⟨b.clock.1.trans a.clock.1, b.clock.2.trans a.clock.2⟩, fun i hi => ?_,
    fun i hi => a.less i (b.less i hi), ?_⟩
  · rcases a.keeps i hi with kept | out
    · exact (b.keeps i kept).imp_right (timedOut i).mp
    · exact .inr out
  · rcases b.flags with ⟨same, same', keeps⟩ | ⟨zero, zero', i, hi, out, gone⟩
    · rcases a.flags with ⟨same₁, same₁', keeps₁⟩ | ⟨zero, zero', i, hi, out, gone⟩
      · exact .inl ⟨same.trans same₁, same'.trans same₁', fun i hi => keeps i (keeps₁ i hi)⟩
      · exact .inr ⟨same.trans zero, same'.trans zero', i, hi, out, fun h => gone (b.less i h)⟩
    · exact .inr ⟨zero, zero', i, a.less i hi, (timedOut i).mp out, gone⟩

theorem Watched.of_content {quiet : Bool} (c : Content s t) : Watched quiet s t :=
  ⟨⟨c.env, c.clocktime⟩, fun i hi => .inl ((c.locked_iff i).mpr hi),
    fun i hi => (c.locked_iff i).mp hi,
    .inl ⟨c.locked, c.opened, fun i hi => (c.locked_iff i).mpr hi⟩⟩

theorem del_clock (so : s.Sound) (uri : Text) :
    (s.del uri).1.env = s.env ∧ (s.del uri).1.store.clocktime = s.store.clocktime := by
  obtain ⟨f, so⟩ := so
  rcases Store.emmaResourceDel_spec so uri with ⟨root, i, -, -, -, d⟩ | ⟨-, same, -⟩
  · exact ⟨rfl, d.same.clocktime⟩
  · exact ⟨rfl, congrArg Store.clocktime same⟩

theorem release_clock (uri : Text) :
    (s.release uri).env = s.env ∧ (s.release uri).store.clocktime = s.store.clocktime := by
  simp only [release, Store.emmaResourceRelease]
  split <;> exact ⟨trivial, rfl⟩

theorem watchResource_watched (so : s.Sound) (quiet : Bool) (root : Option Root) :
    Watched quiet s (s.watchResource quiet root).1 := by
  have named := Content.getNextResourceNameByRoot s root emmaMaxUriSize
  have sound := (Sound.kept .plain).content named so
  unfold watchResource
  simp only
  split_ifs with out
  · refine (Watched.of_content named).trans ?_
    generalize (s.getNextResourceNameByRoot root emmaMaxUriSize).2 = name at out ⊢
    generalize (s.getNextResourceNameByRoot root emmaMaxUriSize).1 = t at out sound ⊢
    obtain ⟨held, hquiet, late⟩ := out
    unfold Store.emmaResourceIsLocked at held
    unfold Store.emmaResourceGetClocktime at late
    cases hi : t.store.tree.resolve name with
    | none => simp [hi] at held
    | some i =>
      simp only [hi, decide_eq_true_eq] at held late
      have hi : t.resolve name = some i := hi
      have out : t.TimedOut quiet i := ⟨hquiet, late⟩
      have locked := cancelTransfer_locked sound name
      refine ⟨?_, fun j hj => ?_, fun j hj => ((locked j).mp hj).1, .inr ⟨rfl, rfl, i, ?_, out, ?_⟩⟩
      · rcases cancelTransfer_cases sound name with ⟨-, -, -, cancelled, -⟩ | ⟨-, cancelled⟩
        · rw [cancelled]
          exact del_clock sound name
        · rw [cancelled]
          have deleted := del_clock sound name
          have released := release_clock (s := (t.del name).1) name
          exact ⟨released.1.trans deleted.1, released.2.trans deleted.2⟩
      · by_cases hji : j = i
        · exact .inr (hji ▸ out)
        · exact .inl ((locked j).mpr ⟨hj, by rw [hi]; exact fun e => hji (Option.some.inj e).symm⟩)
      · exact ⟨sound.resolve_used hi, held⟩
      · exact fun h => ((locked i).mp h).2 hi
  · exact Watched.of_content named

theorem watchdog_watched (so : s.Sound) (quiet : Bool) : Watched quiet s (s.watchdog quiet) := by
  unfold watchdog
  generalize maxNames = fuel
  induction fuel generalizing s with
  | zero => exact Watched.of_content (Content.reader s _)
  | succ fuel ih =>
    have kept {u : State} (root : Option Root) (hu : u.Sound) : (u.watchResource quiet root).1.Sound :=
      (Sound.kept .plain).watchResource trivial quiet root hu
    have one := watchResource_watched so quiet none
    have two := watchResource_watched (kept none so) quiet (some .agent)
    have three := watchResource_watched (kept (some .agent) (kept none so)) quiet (some .resource)
    have round := (one.trans two).trans three
    simp only [watchdogFrom]
    split
    · exact round.trans (ih (kept (some .resource) (kept (some .agent) (kept none so))))
    · exact round

theorem systemTimer_locked (so : s.Sound) (i : Nat) : s.systemTimer.Locked i ↔ s.Locked i := by
  unfold systemTimer
  rcases s.lock_cases systemTime with ⟨failed, same, -⟩ | ⟨had, -⟩
  · have pair : s.lock systemTime = (s, false) := Prod.ext same failed
    rw [pair]
  have pair : s.lock systemTime = ((s.lock systemTime).1, true) := Prod.ext rfl had
  rw [pair]
  refine (locked_release _ i).trans ?_
  rw [locked_setLastModified, setLastModified_resolve]
  exact lock_given_up so had i

end State

/-! ### The client -/

namespace System
variable {P : Platform} {s t : System}

/-- A step of the client gives up the lock of `i`: at the end of a pass, where it releases
all resources, or where an agent deletes one. -/
def ClientUnlocks (s : System) (i : Nat) : Prop :=
  match s.client.pc with
  | .main => s.client.state = .release ∧ ∃ name ∈ s.shared.names, s.shared.resolve name = some i
  | .send => s.isLocalAddress ((List.range maxIpChunks).map s.client.target.parser.address) ∧
      s.client.target.method = .delete ∧ s.shared.resolve s.client.target.uriText = some i ∧
      (s.shared.del s.client.target.uriText).2 = 0
  | _ => False

instance (s : System) (i : Nat) : Decidable (s.ClientUnlocks i) := by
  unfold ClientUnlocks
  split <;> infer_instance

theorem acquire_keeps (s : System) {i : Nat} (held : s.shared.Locked i) :
    s.acquire.shared.Locked i := by
  obtain ⟨tree, rest⟩ := acquire_spec s
  refine ⟨by rw [tree]; exact held.1, ?_⟩
  cases hstop : s.shared.firstStop with
  | none =>
    rw [hstop] at rest
    rw [rest.2]
    exact held.2
  | some name =>
    rw [hstop] at rest
    rw [rest.1]
    rcases s.shared.lock_cases name with ⟨-, same, -⟩ | ⟨-, j, -, -, same⟩
    · rw [show (s.shared.store.emmaResourceLock name).1 = _ from congrArg State.store same]
      exact held.2
    · rw [show (s.shared.store.emmaResourceLock name).1 = _ from congrArg State.store same]
      simp only [Function.update_apply]
      split
      · rfl
      · exact held.2

theorem releaseFrom_keeps (fuel : Nat) (s : System) {i : Nat} (held : s.shared.Locked i)
    (other : ∀ name ∈ s.shared.reader.iter.namesFrom s.shared.store.tree fuel s.client.name,
      s.shared.resolve name ≠ some i) : (s.releaseFrom fuel).shared.Locked i := by
  induction fuel generalizing s with
  | zero => exact held
  | succ fuel ih =>
    simp only [releaseFrom]
    simp only [Iter.namesFrom] at other
    by_cases hname : s.client.name = []
    · rw [if_pos hname]
      exact held
    rw [if_neg hname] at other ⊢
    simp only [List.mem_cons, forall_eq_or_imp] at other
    have tree : (s.shared.release s.client.name).store.tree = s.shared.store.tree := by
      simp only [State.release, Store.emmaResourceRelease]
      split <;> rfl
    have released := (State.locked_release s.client.name i).mpr ⟨held, other.1⟩
    refine ih _ released fun name hn => ?_
    simp only [nextName, mapShared, State.getNextResourceNameByRoot, tree] at hn
    simp only [nextName, mapShared, State.getNextResourceNameByRoot, State.resolve, tree]
    exact other.2 name hn

theorem writeLocally_keeps (s : System) (uri : Text) {i : Nat} (held : s.shared.Locked i) :
    (((s.openLocal P uri).writeLocal P uri).closeLocal P uri).shared.Locked i := by
  have opened : (s.openLocal P uri).shared.Locked i := by
    unfold openLocal
    split
    · exact ((State.Content.emmaResourceOpen _ uri).locked_iff i).mpr
        ((State.locked_add uri i).mpr held)
    · exact held
  generalize s.openLocal P uri = u at opened
  have written : (u.writeLocal P uri).shared.Locked i := by
    unfold writeLocal
    split
    · exact ((State.Content.emmaResourceWrite u.shared uri u.payload _).locked_iff i).mpr opened
    · exact opened
  generalize u.writeLocal P uri = v at written
  unfold closeLocal
  split
  · exact ((State.Content.emmaResourceClose v.shared uri).locked_iff i).mpr written
  · exact written

theorem sendLocal_keeps (so : s.shared.Sound) {i : Nat} (held : s.shared.Locked i)
    (kept : ¬(s.client.target.method = .delete ∧
      s.shared.resolve s.client.target.uriText = some i ∧
      (s.shared.del s.client.target.uriText).2 = 0)) : (s.sendLocal P).shared.Locked i := by
  unfold sendLocal
  simp only
  split_ifs with _ delete
  · exact held
  · show (s.shared.del s.client.target.uriText).1.Locked i
    rcases State.del_cases so s.client.target.uriText with
      ⟨done, j, hj, locked⟩ | ⟨-, same⟩
    · exact (locked i).mpr ⟨held, fun e => kept ⟨delete, e ▸ hj, done⟩⟩
    · rw [State.Locked, same]
      exact held
  · exact held
  · exact writeLocally_keeps _ _ held

theorem sendBlock_keeps (so : s.shared.Sound) {i : Nat} (held : s.shared.Locked i)
    (kept : ¬(s.isLocalAddress ((List.range maxIpChunks).map s.client.target.parser.address) ∧
      s.client.target.method = .delete ∧ s.shared.resolve s.client.target.uriText = some i ∧
      (s.shared.del s.client.target.uriText).2 = 0)) : (s.sendBlock P).shared.Locked i := by
  have locally (u : System) (shared : u.shared = s.shared)
      (target : u.client.target = s.client.target)
      (there : s.isLocalAddress ((List.range maxIpChunks).map s.client.target.parser.address)) :
      (u.sendLocal P).shared.Locked i := by
    refine sendLocal_keeps (shared ▸ so) (shared ▸ held) ?_
    rw [shared, target]
    exact fun h => kept ⟨there, h⟩
  unfold sendBlock
  simp only
  split_ifs with there
  · exact ((Reads.afterBlock (P := P) _).content.locked_iff i).mpr (locally _ rfl rfl there)
  · exact held
  · exact held

theorem clientStep_keeps (so : s.shared.Sound) {i : Nat} (step : s.clientStep P = some t)
    (held : s.shared.Locked i) (kept : ¬s.ClientUnlocks i) : t.shared.Locked i := by
  have reads {u : System} (r : Reads s u) : u.shared.Locked i := (r.content.locked_iff i).mpr held
  unfold clientStep at step
  unfold ClientUnlocks at kept
  cases hpc : s.client.pc <;> rw [hpc] at step kept <;>
    simp only [Option.some.injEq, reduceCtorEq] at step <;> subst step
  · unfold mainTurn
    cases hs : s.client.state with
    | waitingMutex => exact s.acquire_keeps held
    | running => exact reads ((Reads.nextName s _).trans (Reads.client _ _ rfl))
    | idle =>
      simp only
      split <;> exact held
    | start => exact held
    | release =>
      exact releaseFrom_keeps _ (s.nextName (some .agent)) held
        fun name hn e => kept ⟨hs, name, hn, e⟩
  · unfold agentHead
    simp only
    split_ifs
    · exact reads ((Reads.client s _ rfl).trans (Reads.nextAgent _))
    · exact reads ((Reads.client s _ rfl).trans (Reads.startAgent _))
    · exact held
  · exact reads (Reads.targetHead s)
  · exact reads (Reads.blockHead s)
  · exact reads (Reads.preprocessStep s)
  · exact sendBlock_keeps so held kept
  · exact reads (Reads.answered s)

theorem clientStep_flags (step : s.clientStep P = some t) :
    t.shared.opened = s.shared.opened ∧ t.shared.locked = s.shared.locked :=
  (State.kept_flags P _ _).clientStep trivial step ⟨rfl, rfl⟩

end System
end EmmaNode

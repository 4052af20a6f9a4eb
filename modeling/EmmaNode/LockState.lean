import EmmaNode.Ownership

/-! The flag `locked` of the request handler. It is to say that the transfer in progress
holds the lock of one resource. An empty last block releases that resource and leaves the
flag; blocks of another URI that end a transfer clear the flag and leave the lock. In runs
without these the flag and the lock go together. -/

namespace EmmaNode

namespace State
variable (P : Platform) (s : State) (rq : Request) (uri : Text)

/-- A block with a payload ends the transfer in progress. -/
def Ends : Prop :=
  rq.blockNum ≠ 0 ∧ (s.lost rq.blockNum ∨
    rq.blockNum.toUInt64 ≠ s.count ∧ (¬rq.more ∨ ¬s.full P rq uri))

instance : Decidable (s.Ends P rq uri) := inferInstanceAs (Decidable (_ ∧ _))

end State

namespace State
variable {P : Platform} {s : State} {rq : Request} {uri : Text}

theorem takeBlock_flags (s : State) (rq : Request) (uri : Text) (r : Reply) :
    (¬rq.more ∨ ¬s.full P rq uri) ∧ (s.takeBlock P rq uri r).1.locked = 0 ∨
      (rq.more ∧ s.full P rq uri) ∧ (s.takeBlock P rq uri r).1.locked = s.locked ∧
        (s.takeBlock P rq uri r).1.opened = s.opened := by
  have content := written_content (P := P) s rq uri
  simp only [takeBlock, writeBlock_eq]
  by_cases more : rq.more = true
  · by_cases full : s.full P rq uri
    · simp only [if_pos full, if_pos more]
      exact .inr ⟨⟨more, full⟩, content.locked, content.opened⟩
    · simp only [if_neg full, if_pos more]
      exact .inl ⟨.inr full, rfl⟩
  · simp only [if_neg more]
    exact .inl ⟨.inl more, rfl⟩

inductive Outcome (P : Platform) (s t : State) (rq : Request) : Prop
  /-- no transfer before and none behind -/
  | idle : s.locked = 0 → t.locked = 0 → (∀ i, t.Locked i → s.Locked i) → Outcome P s t rq
  /-- a transfer begins -/
  | begins (i : Nat) : s.locked = 0 → t.locked ≠ 0 → t.opened ≠ 0 → ¬s.Locked i →
      (∀ j, t.Locked j ↔ s.Locked j ∨ j = i) → Outcome P s t rq
  /-- the transfer goes on; an empty block may release a resource -/
  | goesOn : s.locked ≠ 0 → t.locked = s.locked → t.opened = s.opened →
      (∀ i, t.Locked i → s.Locked i) →
      (∀ i, s.Locked i → t.Locked i ∨ (rq.method = .put ∨ rq.method = .post) ∧ rq.payload = [] ∧
        ¬rq.more ∧ ∃ uri ∈ rq.uri, s.resolve uri = some i) → Outcome P s t rq
  /-- the transfer ends -/
  | ends (uri : Text) : s.locked ≠ 0 → t.locked = 0 → (rq.method = .put ∨ rq.method = .post) →
      uri ∈ rq.uri → rq.payload ≠ [] → s.Ends P rq uri →
      (∀ i, t.Locked i → s.Locked i ∧ s.resolve uri ≠ some i) → Outcome P s t rq

theorem Outcome.of_same {t : State} (locked : t.locked = s.locked) (opened : t.opened = s.opened)
    (same : ∀ i, t.Locked i ↔ s.Locked i) : Outcome P s t rq := by
  by_cases free : s.locked = 0
  · exact .idle free (locked.trans free) fun i => (same i).mp
  · exact .goesOn free locked opened (fun i => (same i).mp) fun i hi => .inl ((same i).mpr hi)

theorem handleEmpty_outcome (put : rq.method = .put ∨ rq.method = .post) (here : uri ∈ rq.uri)
    (empty : rq.payload = []) (r : Reply) : Outcome P s (s.handleEmpty P rq uri r).1 rq := by
  have locked := handleEmpty_locked (P := P) (s := s) rq uri r
  obtain ⟨opened, flag⟩ := (kept_flags P s.opened s.locked).handleEmpty trivial rq uri r ⟨rfl, rfl⟩
  by_cases free : s.locked = 0
  · exact .idle free (flag.trans free) fun i h => ((locked i).mp h).1
  · refine .goesOn free flag opened (fun i h => ((locked i).mp h).1) fun i hi => ?_
    by_cases gives : ¬rq.more ∧ s.resolve uri = some i
    · exact .inr ⟨put, empty, gives.1, uri, here, gives.2⟩
    · exact .inl ((locked i).mpr ⟨hi, gives⟩)

theorem handleBlock_idle (so : s.Sound) (free : s.locked = 0) (r : Reply) :
    (s.handleBlock P rq uri r).1.locked = 0 ∧
      ∀ i, (s.handleBlock P rq uri r).1.Locked i → s.Locked i := by
  refine ⟨?_, fun i h => ((handleBlock_locked so rq uri r i).mp h).1⟩
  unfold handleBlock
  by_cases lost : s.lost rq.blockNum
  · rw [if_pos lost]
    rfl
  · simp only [if_neg lost, free, ne_eq, not_true_eq_false, if_false]
    unfold refuseBlock
    split
    · exact (Content.emmaResourceClose (P := P) s uri).locked.trans free
    · exact free

theorem firstBlock_outcome (so : s.Sound) (free : s.locked = 0) (first : rq.blockNum = 0)
    (r : Reply) : Outcome P s ((s.startTransfer P uri).handleBlock P rq uri r).1 rq := by
  have sound := (Sound.kept P).startTransfer uri so
  obtain ⟨count, ⟨refused, same, -⟩ | ⟨locked, opened, i, hi, fresh, more⟩⟩ :=
    startTransfer_cases (P := P) so free uri
  · obtain ⟨zero, less⟩ := @handleBlock_idle P _ rq uri sound refused r
    exact .idle free zero fun j h => (same j).mp (less j h)
  generalize s.startTransfer P uri = u at sound count locked opened hi more ⊢
  have lost : ¬u.lost rq.blockNum := by
    simp only [State.lost, first, count]
    decide
  have known : rq.blockNum.toUInt64 ≠ u.count := by
    rw [first, count]
    decide
  have taken : u.handleBlock P rq uri r = u.takeBlock P rq uri r := by
    simp only [handleBlock, if_neg lost, locked, opened, known, ne_eq, not_false_eq_true, if_true,
      if_false]
  rw [taken]
  have less := takeBlock_locked (P := P) sound rq uri r
  rcases takeBlock_flags (P := P) u rq uri r with ⟨ended, zero⟩ | ⟨⟨hmore, full⟩, same, same'⟩
  · refine .idle free zero fun j h => ?_
    obtain ⟨old, kept⟩ := (less j).mp h
    rcases (more j).mp old with old | rfl
    · exact old
    · exfalso
      apply kept
      split
      · rename_i full
        exact ⟨ended.resolve_right (fun h => h full), hi⟩
      · exact .inl hi
  · refine .begins i free (same ▸ locked) (same' ▸ opened) fresh fun j => ?_
    rw [less, more]
    simp [full, hmore]

theorem handleBlock_outcome (so : s.Sound) (locked : s.locked ≠ 0) (opened : s.opened ≠ 0)
    (put : rq.method = .put ∨ rq.method = .post) (here : uri ∈ rq.uri) (full : rq.payload ≠ [])
    (later : rq.blockNum ≠ 0) (r : Reply) : Outcome P s (s.handleBlock P rq uri r).1 rq := by
  have less := handleBlock_locked (P := P) so rq uri r
  have frame := fun i h => ((less i).mp h).1
  by_cases lost : s.lost rq.blockNum
  · refine .ends uri locked ?_ put here full ⟨later, .inl lost⟩ fun i h => ?_
    · simp only [handleBlock, if_pos lost]
      rfl
    · have := (less i).mp h
      simpa [BlockUnlocks, lost] using this
  by_cases known : rq.blockNum.toUInt64 = s.count
  · have same : s.handleBlock P rq uri r = (s, r) := by
      simp [handleBlock, lost, locked, opened, known]
    rw [same]
    exact .of_same rfl rfl fun _ => Iff.rfl
  have taken : s.handleBlock P rq uri r = s.takeBlock P rq uri r := by
    simp [handleBlock, lost, locked, opened, known]
  rw [taken] at less frame ⊢
  have kept := takeBlock_locked (P := P) so rq uri r
  rcases takeBlock_flags (P := P) s rq uri r with ⟨ended, zero⟩ | ⟨⟨more, whole⟩, same, same'⟩
  · refine .ends uri locked zero put here full ⟨later, .inr ⟨known, ended⟩⟩ fun i h => ⟨frame i h, ?_⟩
    intro hi
    apply ((kept i).mp h).2
    split
    · rename_i whole
      exact ⟨ended.resolve_right fun h => h whole, hi⟩
    · exact .inl hi
  · exact .of_same same same' fun i => by
      rw [kept]
      simp [more, whole]

theorem handlePut_outcome (so : s.Sound) (opened : s.locked ≠ 0 → s.opened ≠ 0)
    (put : rq.method = .put ∨ rq.method = .post) (here : uri ∈ rq.uri) (r : Reply) :
    Outcome P s (s.handlePut P rq uri r).1 rq := by
  have same : Outcome P s s rq := .of_same rfl rfl fun _ => Iff.rfl
  unfold handlePut
  simp only
  split_ifs with there empty first locked
  · exact same
  · exact handleEmpty_outcome put here empty _
  · exact same
  · exact firstBlock_outcome so (not_not.mp locked) first _
  · by_cases free : s.locked = 0
    · obtain ⟨zero, less⟩ := @handleBlock_idle P _ rq uri so free (r.setBlock1 rq)
      exact .idle free zero less
    · exact handleBlock_outcome so free (opened free) put here empty first _

theorem emmaServerHandler_outcome (so : s.Sound) (opened : s.locked ≠ 0 → s.opened ≠ 0)
    (rq : Request) : Outcome P s (s.emmaServerHandler P rq).1 rq := by
  unfold emmaServerHandler
  cases huri : rq.uri with
  | none => exact .of_same rfl rfl fun _ => Iff.rfl
  | some uri =>
    simp only
    cases hm : rq.method with
    | get =>
      simp only [handleGet]
      split
      · have listed := handleList_content s rq uri (Reply.init rq)
        exact .of_same listed.locked listed.opened (handleList_locked rq uri _)
      · have flags := (kept_flags P s.opened s.locked).handleRead rq uri (Reply.init rq) ⟨rfl, rfl⟩
        exact .of_same flags.2 flags.1 (handleRead_locked so rq uri _)
    | put => exact handlePut_outcome so opened (.inl hm) huri _
    | post => exact handlePut_outcome so opened (.inr hm) huri _
    | delete =>
      have flags :=
        (kept_flags P s.opened s.locked).handleDelete trivial uri (Reply.init rq) ⟨rfl, rfl⟩
      exact .of_same flags.2 flags.1 (handleDelete_locked so uri _)

end State

namespace Owned
variable (P : Platform)

/-- The resource `i` is locked for the transfer in progress. -/
def OfServer (s : Owned) (i : Nat) : Prop := s.holder i = some .server ∧ s.Locked i

/-- While a transfer is in progress, nothing else ends it or takes its lock: an empty last
block goes to another resource, a block that ends a transfer to the one that is locked, the
watchdog finds nothing else to cancel, and the client does not give its lock up. -/
def Orderly (s : Owned) (e : Event) : Prop :=
  s.system.shared.locked ≠ 0 → match e with
  | .request rq => (rq.method = .put ∨ rq.method = .post) → ∀ uri ∈ rq.uri,
      (rq.payload = [] → ¬rq.more → ∀ i, s.system.shared.resolve uri = some i →
        ¬s.OfServer i) ∧
      (rq.payload ≠ [] → s.system.shared.Ends P rq uri →
        ∃ i, s.system.shared.resolve uri = some i ∧ s.OfServer i)
  | .watchdog => ∀ i, s.Locked i → s.TimedOut i → s.OfServer i
  | .client => ∀ i, s.OfServer i → ¬s.system.ClientUnlocks i
  | _ => True

instance (s : Owned) (i : Nat) : Decidable (s.OfServer i) := inferInstanceAs (Decidable (_ ∧ _))

instance (s : Owned) (p : Nat → Prop) [DecidablePred p] : Decidable (∀ i, s.Locked i → p i) :=
  decidable_of_iff (∀ i ∈ List.range s.system.shared.store.tree.pool.used.length, s.Locked i → p i)
    ⟨fun h i locked => h i (List.mem_range.mpr (Pool.used_lt locked.1)) locked,
      fun h i _ locked => h i locked⟩

instance (s : Owned) (e : Event) : Decidable (Orderly P s e) :=
  match e with
  | .request rq => inferInstanceAs (Decidable (_ → (_ ∨ _) → ∀ uri ∈ rq.uri,
      (_ → _ → ∀ i ∈ s.system.shared.resolve uri, ¬s.OfServer i) ∧
      (_ → _ → ∃ i ∈ s.system.shared.resolve uri, s.OfServer i)))
  | .watchdog => inferInstanceAs (Decidable (_ → ∀ i, s.Locked i → s.TimedOut i → s.OfServer i))
  | .client => decidable_of_iff (s.system.shared.locked ≠ 0 → ∀ i, s.Locked i →
      s.holder i = some .server → ¬s.system.ClientUnlocks i)
      ⟨fun h busy i own => h busy i own.2 own.1, fun h busy i locked own => h busy i ⟨own, locked⟩⟩
  | .wellKnown .. | .systemTimer | .response .. | .environment _ =>
    inferInstanceAs (Decidable (_ → True))

structure InStep (s : Owned) : Prop where
  sound : s.system.shared.Sound
  locked : ∀ i, s.holder i = some .server → s.Locked i
  unique : ∀ i j, s.holder i = some .server → s.holder j = some .server → i = j
  flag : s.system.shared.locked ≠ 0 ↔ ∃ i, s.holder i = some .server
  opened : s.system.shared.locked ≠ 0 → s.system.shared.opened ≠ 0

variable {P} {s : Owned} {t : System} {e : Event}

theorem InStep.idle (inv : s.InStep) (free : s.system.shared.locked = 0) (i : Nat) :
    s.holder i ≠ some .server := fun h => inv.flag.mpr ⟨i, h⟩ free

theorem hold_server (taken : e.party = some .server → ∀ i, t.shared.Locked i →
    s.Locked i) {i : Nat} (h : s.hold e t i = some .server) :
    s.holder i = some .server ∧ (e.party = some .server ∨ e.isWatchdog ∧ s.TimedOut i →
      t.shared.Locked i) := by
  simp only [hold] at h
  split at h
  · rename_i new
    exact absurd (taken h i new.1) new.2
  split at h
  · simp at h
  rename_i old still
  refine ⟨h, fun mine => ?_⟩
  by_contra gone
  exact still ⟨gone, mine.imp_left fun e => e.trans h.symm⟩

theorem hold_stays {i : Nat} {p : Party} (h : s.holder i = some p) (held : s.Locked i)
    (there : t.shared.Locked i) : s.hold e t i = some p := by
  simp [hold, held, there, h]

theorem InStep.same (inv : s.InStep) (sound : t.shared.Sound)
    (locked : t.shared.locked = s.system.shared.locked)
    (opened : t.shared.opened = s.system.shared.opened)
    (taken : e.party = some .server → ∀ i, t.shared.Locked i → s.Locked i)
    (kept : ∀ i, s.holder i = some .server → t.shared.Locked i) : InStep ⟨t, s.hold e t⟩ where
  sound := sound
  locked i h := kept i (hold_server taken h).1
  unique i j hi hj := inv.unique i j (hold_server taken hi).1 (hold_server taken hj).1
  flag := by
    rw [show (⟨t, s.hold e t⟩ : Owned).system.shared.locked = s.system.shared.locked from locked,
      inv.flag]
    constructor
    · exact fun ⟨i, h⟩ => ⟨i, hold_stays h (inv.locked i h) (kept i h)⟩
    · exact fun ⟨i, h⟩ => ⟨i, (hold_server taken h).1⟩
  opened h := by
    rw [show (⟨t, s.hold e t⟩ : Owned).system.shared.opened = s.system.shared.opened from opened]
    exact inv.opened (locked ▸ h)

theorem InStep.ended (sound : t.shared.Sound) (zero : t.shared.locked = 0)
    (taken : ∀ i, t.shared.Locked i → s.Locked i)
    (gone : ∀ i, s.holder i = some .server → ¬t.shared.Locked i ∧
      (e.party = some .server ∨ e.isWatchdog ∧ s.TimedOut i)) : InStep ⟨t, s.hold e t⟩ := by
  have none : ∀ i, s.hold e t i ≠ some .server := fun i h => by
    obtain ⟨old, there⟩ := hold_server (fun _ => taken) h
    exact (gone i old).1 (there (gone i old).2)
  refine ⟨sound, fun i h => absurd h (none i), fun i j h => absurd h (none i), ?_,
    fun h => absurd zero h⟩
  exact ⟨fun h => absurd zero h, fun ⟨i, h⟩ => absurd h (none i)⟩

theorem request_inStep {rq : Request} (inv : s.InStep) (ok : Orderly P s (.request rq))
    (sound : t.shared.Sound) (outcome : State.Outcome P s.system.shared t.shared rq) :
    InStep ⟨t, s.hold (.request rq) t⟩ := by
  cases outcome with
  | idle free zero less =>
    exact InStep.ended sound zero less fun i h => absurd h (inv.idle free i)
  | begins i free locked opened fresh more =>
    have hold_iff : ∀ j, s.hold (.request rq) t j = some .server ↔ j = i := by
      intro j
      constructor
      · intro h
        by_contra hj
        have kept : t.shared.Locked j → s.Locked j := fun l => ((more j).mp l).resolve_right hj
        simp only [hold] at h
        split at h
        · rename_i new
          exact new.2 (kept new.1)
        split at h
        · simp at h
        · exact inv.idle free j h
      · rintro rfl
        have there := (more j).mpr (.inr rfl)
        have absent : ¬s.Locked j := fresh
        simp [hold, there, absent, Event.party]
    refine ⟨sound, fun j h => ?_, fun j k hj hk => ?_,
    ⟨fun _ => ⟨i, (hold_iff i).mpr rfl⟩, fun _ => locked⟩,
      fun _ => opened⟩
    · exact (more j).mpr (.inr ((hold_iff j).mp h))
    · rw [(hold_iff j).mp hj, (hold_iff k).mp hk]
  | goesOn busy locked opened less keeps =>
    refine inv.same sound locked opened (fun _ => less) fun i h => ?_
    rcases keeps i (inv.locked i h) with kept | ⟨put, empty, last, uri, here, hi⟩
    · exact kept
    · exact absurd ⟨h, inv.locked i h⟩ ((ok busy put uri here).1 empty last i hi)
  | ends uri busy zero put here full ends gone =>
    refine InStep.ended sound zero (fun i h => (gone i h).1) fun i h => ⟨fun there => ?_, .inl rfl⟩
    obtain ⟨j, hj, held, -⟩ := (ok busy put uri here).2 full ends
    exact (gone i there).2 (inv.unique j i held h ▸ hj)

theorem watchdog_inStep (inv : s.InStep) (ok : Orderly P s .watchdog) (sound : t.shared.Sound)
    (watched : State.Watched s.system.client.quiet s.system.shared t.shared) :
    InStep ⟨t, s.hold .watchdog t⟩ := by
  rcases watched.flags with ⟨locked, opened, keeps⟩ | ⟨zero, -, i, hi, out, gone⟩
  · exact inv.same sound locked opened (fun h => by simp [Event.party] at h)
      fun i h => keeps i (inv.locked i h)
  · refine InStep.ended sound zero watched.less fun j hj => ?_
    have busy : s.system.shared.locked ≠ 0 := inv.flag.mpr ⟨j, hj⟩
    have same : i = j := inv.unique i j (ok busy i hi out).1 hj
    exact ⟨same ▸ gone, .inr ⟨rfl, same ▸ out⟩⟩

theorem inStep_step {u : Owned} (inv : s.InStep) (ok : Orderly P s e) (step : s.step P e = some u) :
    u.InStep := by
  simp only [Owned.step, Option.map_eq_some_iff] at step
  obtain ⟨t, step, rfl⟩ := step
  have sound : t.shared.Sound :=
    (State.Sound.kept P).step (fun _ => trivial) (fun _ h => h) step inv.sound
  unfold System.step at step
  split at step
  · simp at step
  cases e with
  | request rq =>
    simp only [Option.ite_none_right_eq_some, Option.some.injEq] at step
    obtain ⟨-, rfl⟩ := step
    exact request_inStep inv ok sound (State.emmaServerHandler_outcome inv.sound inv.opened rq)
  | wellKnown size offset =>
    simp only [Option.ite_none_right_eq_some, Option.some.injEq] at step
    obtain ⟨-, rfl⟩ := step
    have content := State.Content.emmaWellKnownCoreHandler s.system.shared size offset
    exact inv.same sound content.locked content.opened (fun _ i => (content.locked_iff i).mp)
      fun i h => (content.locked_iff i).mpr (inv.locked i h)
  | watchdog =>
    simp only [Option.ite_none_right_eq_some, Option.some.injEq] at step
    obtain ⟨-, rfl⟩ := step
    exact watchdog_inStep inv ok sound (State.watchdog_watched inv.sound _)
  | systemTimer =>
    simp only [Option.ite_none_right_eq_some, Option.some.injEq] at step
    obtain ⟨-, rfl⟩ := step
    have flags := (State.kept_flags P _ _).systemTimer trivial (s := s.system.shared) ⟨rfl, rfl⟩
    exact inv.same sound flags.2 flags.1 (fun _ i => (State.systemTimer_locked inv.sound i).mp)
      fun i h => (State.systemTimer_locked inv.sound i).mpr (inv.locked i h)
  | client =>
    have flags := System.clientStep_flags step
    refine inv.same sound flags.2 flags.1 (fun h => by simp [Event.party] at h) fun i h => ?_
    have held := inv.locked i h
    have busy : s.system.shared.locked ≠ 0 := inv.flag.mpr ⟨i, h⟩
    exact System.clientStep_keeps inv.sound step held (ok busy i ⟨h, held⟩)
  | response success last =>
    simp only [Option.ite_none_right_eq_some, Option.some.injEq] at step
    obtain ⟨-, rfl⟩ := step
    exact inv.same sound rfl rfl (fun _ _ => id) inv.locked
  | environment env =>
    simp only [Option.some.injEq] at step
    subst step
    exact inv.same sound rfl rfl (fun _ _ => id) inv.locked

theorem inStep_init (files : Nat → Option Text) (env : Env) : (init P files env).InStep where
  sound := System.ReachableBy.sound (show System.Reachable P _ from ⟨files, env, .refl⟩)
  locked _ h := by simp [init] at h
  unique _ _ h := by simp [init] at h
  flag := ⟨fun h => absurd rfl h, fun ⟨_, h⟩ => by simp [init] at h⟩
  opened h := absurd rfl h

theorem firstBlock_accepted {s : State} (so : s.Sound) (free : s.locked = 0) {rq : Request}
    {uri : Text} {i : Nat} (put : rq.method = .put) (here : rq.uri = some uri)
    (full : rq.payload ≠ []) (first : rq.blockNum = 0) (hi : (s.add P uri).resolve uri = some i)
    (released : ¬(s.add P uri).Locked i) :
    (s.emmaServerHandler P rq).2.dropped = false ∧ (s.emmaServerHandler P rq).2.status =
      some (if (s.startTransfer P uri).full P rq uri then .ok else .badRequest) := by
  rw [State.locked_add] at released
  obtain ⟨count, ⟨-, -, held⟩ | ⟨locked, opened, -⟩⟩ := State.startTransfer_cases (P := P) so free uri
  · exact absurd (held i hi) released
  have lost : ¬(s.startTransfer P uri).lost rq.blockNum := by
    simp only [State.lost, first, count]
    decide
  have known : rq.blockNum.toUInt64 ≠ (s.startTransfer P uri).count := by
    rw [first, count]
    decide
  simp only [State.emmaServerHandler, here, put, State.handlePut, full, first, free, ne_eq,
    not_true_eq_false, if_false, if_true, reduceCtorEq, false_and]
  generalize s.startTransfer P uri = u at locked opened lost known ⊢
  simp only [State.handleBlock, if_neg lost, locked, opened, known, ne_eq, not_false_eq_true,
    if_true, if_false, State.takeBlock, State.writeBlock_eq, put, reduceCtorEq]
  split_ifs <;> exact ⟨rfl, rfl⟩

/-- The flag is set exactly when one lock is held for a transfer, and when none is, the
next first block to a resource that is free is taken. -/
structure Consistent (P : Platform) (s : Owned) : Prop where
  flag : s.system.shared.locked ≠ 0 ↔ ∃! i, s.OfServer i
  free : s.system.shared.locked = 0 → ∀ i, ¬s.OfServer i
  accepts : (∀ i, ¬s.OfServer i) → ∀ (rq : Request) (uri : Text) (i : Nat), rq.method = .put →
    rq.uri = some uri → rq.payload ≠ [] → rq.blockNum = 0 →
    (s.system.shared.add P uri).resolve uri = some i → ¬(s.system.shared.add P uri).Locked i →
    (s.system.shared.emmaServerHandler P rq).2.dropped = false ∧
      (s.system.shared.emmaServerHandler P rq).2.status =
        some (if (s.system.shared.startTransfer P uri).full P rq uri then .ok else .badRequest)

/-- In an orderly run the flag and the lock of the server go together. -/
theorem consistent_of_orderly {files : Nat → Option Text} {env : Env}
    (run : Runs (Owned.step P) (Orderly P) (init P files env) s) : Consistent P s := by
  have inv : s.InStep := run.keeps (fun _ _ _ ok step inv => inStep_step inv ok step)
    (inStep_init files env)
  have free : s.system.shared.locked = 0 → ∀ i, ¬s.OfServer i := fun h i hi => inv.idle h i hi.1
  refine ⟨⟨fun h => ?_, fun ⟨i, hi, _⟩ => inv.flag.mpr ⟨i, hi.1⟩⟩, free, ?_⟩
  · obtain ⟨i, hi⟩ := inv.flag.mp h
    exact ⟨i, ⟨hi, inv.locked i hi⟩, fun j hj => inv.unique j i hj.1 hi⟩
  · intro none rq uri i put here full first hi released
    have zero : s.system.shared.locked = 0 := by
      by_contra busy
      obtain ⟨j, hj⟩ := inv.flag.mp busy
      exact none j ⟨hj, inv.locked j hj⟩
    exact firstBlock_accepted inv.sound zero put here full first hi released

theorem consistent_further : ∃ s, Runs (Owned.step .plain) (Orderly .plain)
    (init .plain (fun _ => none) .bare) s ∧ s.system.shared.locked = 1 ∧ Consistent .plain s := by
  obtain ⟨s, run, busy⟩ := Runs.of_follow (Owned.step .plain) (Orderly .plain)
    (fun s => s.system.shared.locked = 1)
    [beginLocal 'z', .systemTimer, .client, .client, getLocal 'z', .watchdog, goOnLocal 'z' 1,
      beginLocal 'y', .client]
    (init .plain (fun _ => none) .bare) (by decide +kernel)
  simp only [decide_eq_true_eq] at busy
  exact ⟨s, run, busy, consistent_of_orderly run⟩

def emptyLast : Event :=
  .request ⟨chars ['A', '/', 'x'], .put, some ⟨1, false, 1⟩, [], 64, 0, short_empty⟩

/-- The transfer of `A/x` is over, its lock is released, and the flag stays. -/
theorem flag_stays : ¬ ∀ (P : Platform) (files : Nat → Option Text) (env : Env) (s : Owned),
    Runs (Owned.step P) (fun _ _ => True) (init P files env) s → Consistent P s := by
  intro h
  obtain ⟨s, run, hs⟩ := Runs.of_follow (Owned.step .plain) (fun _ _ => True)
    (fun s => s.system.shared.locked ≠ 0 ∧
      s.system.shared.store.tree.pool.used.length = emmaMaxResources ∧
      ∀ i ∈ List.range emmaMaxResources, ¬s.Locked i)
    ([System.firstBlock, emptyLast]) (init .plain (fun _ => none) .bare)
    (by decide +kernel)
  simp only [decide_eq_true_eq] at hs
  obtain ⟨busy, size, released⟩ := hs
  obtain ⟨i, ⟨-, held⟩, -⟩ := (h .plain _ _ s run).flag.mp busy
  have small := Pool.used_lt held.1
  rw [size] at small
  exact released i (List.mem_range.mpr small) held

end Owned
end EmmaNode

import EmmaNode.Locking

/-! Whose locks are given up by whom. A mutex does not say who has locked it, so a holder is
noted beside the node: it is the party in whose step the mutex was locked, until a step of
that party, or the watchdog after its timeout, finds it released or the resource gone. -/

namespace EmmaNode

inductive Party where
  | server
  | client
  | system
  deriving DecidableEq

namespace Event

def party : Event → Option Party
  | .request _ | .wellKnown .. => some .server
  | .systemTimer => some .system
  | .client => some .client
  | .watchdog | .response .. | .environment _ => none

def isWatchdog : Event → Bool
  | .watchdog => true
  | _ => false

end Event

/-- A step may give up the lock of `i`, whoever holds it. -/
def System.Unlocks (P : Platform) (s : System) (e : Event) (i : Nat) : Prop :=
  match e with
  | .request rq => s.shared.RequestUnlocks P rq i
  | .client => s.ClientUnlocks i
  | _ => False

instance (P : Platform) (s : System) (e : Event) (i : Nat) : Decidable (s.Unlocks P e i) :=
  match e with
  | .request rq => inferInstanceAs (Decidable (s.shared.RequestUnlocks P rq i))
  | .client => inferInstanceAs (Decidable (s.ClientUnlocks i))
  | .wellKnown .. | .watchdog | .systemTimer | .response .. | .environment _ =>
    inferInstanceAs (Decidable False)

structure Owned where
  system : System
  holder : Nat → Option Party

namespace Owned
variable (P : Platform)

def init (files : Nat → Option Text) (env : Env) : Owned := ⟨.init P files env, fun _ => none⟩

def Locked (s : Owned) (i : Nat) : Prop := s.system.shared.Locked i

instance (s : Owned) (i : Nat) : Decidable (s.Locked i) := inferInstanceAs (Decidable (_ ∧ _))

def TimedOut (s : Owned) (i : Nat) : Prop :=
  s.system.shared.TimedOut s.system.client.quiet i

instance (s : Owned) (i : Nat) : Decidable (s.TimedOut i) :=
  inferInstanceAs (Decidable (_ ∧ _))

def hold (s : Owned) (e : Event) (t : System) (i : Nat) : Option Party :=
  if t.shared.Locked i ∧ ¬s.Locked i then e.party
  else if ¬t.shared.Locked i ∧ (e.party = s.holder i ∨ e.isWatchdog ∧ s.TimedOut i) then none
  else s.holder i

def step (s : Owned) (e : Event) : Option Owned :=
  (s.system.step P e).map fun t => ⟨t, s.hold e t⟩

/-- A step gives up no lock of another party. -/
def Respects (s : Owned) (e : Event) : Prop :=
  ∀ i p, s.holder i = some p → s.system.Unlocks P e i → e.party = some p

end Owned

theorem System.step_keeps {P : Platform} {s t : System} {e : Event} (so : s.shared.Sound)
    (step : s.step P e = some t) {i : Nat} (held : s.shared.Locked i) :
    t.shared.Locked i ∨ s.Unlocks P e i ∨
      e.isWatchdog ∧ s.shared.TimedOut s.client.quiet i := by
  unfold System.step at step
  split at step
  · simp at step
  cases e with
  | request rq =>
    simp only [Option.ite_none_right_eq_some, Option.some.injEq] at step
    obtain ⟨-, rfl⟩ := step
    by_cases gives : s.shared.RequestUnlocks P rq i
    · exact .inr (.inl gives)
    · exact .inl (State.emmaServerHandler_keeps so held gives)
  | wellKnown size offset =>
    simp only [Option.ite_none_right_eq_some, Option.some.injEq] at step
    obtain ⟨-, rfl⟩ := step
    exact .inl (((State.Content.emmaWellKnownCoreHandler s.shared size offset).locked_iff i).mpr held)
  | watchdog =>
    simp only [Option.ite_none_right_eq_some, Option.some.injEq] at step
    obtain ⟨-, rfl⟩ := step
    rcases (State.watchdog_watched so s.client.quiet).keeps i held with kept | out
    · exact .inl kept
    · exact .inr (.inr ⟨rfl, out⟩)
  | systemTimer =>
    simp only [Option.ite_none_right_eq_some, Option.some.injEq] at step
    obtain ⟨-, rfl⟩ := step
    exact .inl ((State.systemTimer_locked so i).mpr held)
  | client =>
    by_cases gives : s.ClientUnlocks i
    · exact .inr (.inl gives)
    · exact .inl (System.clientStep_keeps so step held gives)
  | response success last =>
    simp only [Option.ite_none_right_eq_some, Option.some.injEq] at step
    obtain ⟨-, rfl⟩ := step
    exact .inl held
  | environment env =>
    simp only [Option.some.injEq] at step
    subst step
    exact .inl held

namespace Owned
variable {P : Platform} {s t : Owned}

/-- A holder's lock is there. -/
structure Inv (s : Owned) : Prop where
  sound : s.system.shared.Sound
  locked : ∀ i p, s.holder i = some p → s.Locked i

theorem inv_init (files : Nat → Option Text) (env : Env) : (init P files env).Inv :=
  ⟨System.ReachableBy.sound (show System.Reachable P _ from ⟨files, env, .refl⟩),
    fun i p h => by simp [init] at h⟩

theorem inv_step {e : Event} (inv : s.Inv) (ok : Respects P s e) (step : s.step P e = some t) :
    t.Inv := by
  simp only [Owned.step, Option.map_eq_some_iff] at step
  obtain ⟨u, step, rfl⟩ := step
  refine ⟨(State.Sound.kept P).step (fun _ => trivial) (fun _ h => h) step inv.sound, ?_⟩
  intro i p h
  simp only [hold] at h
  split at h
  · rename_i taken
    exact taken.1
  split at h
  · simp at h
  rename_i still
  by_contra gone
  have keeps := System.step_keeps inv.sound step (inv.locked i p h)
  rcases keeps with kept | gives | out
  · exact gone kept
  · exact still ⟨gone, .inl ((ok i p h gives).trans h.symm)⟩
  · exact still ⟨gone, .inr out⟩

/-- When no step gives up a lock of another party, a lock that was taken is there until its
holder or the timeout ends it; so nobody else can have it before. -/
theorem holder_locked {files : Nat → Option Text} {env : Env}
    (run : Runs (Owned.step P) (Respects P) (init P files env) s) :
    (∀ i p, s.holder i = some p → s.Locked i) ∧
    ∀ uri i, s.system.shared.resolve uri = some i → (s.system.shared.lock uri).2 = true →
      s.holder i = none := by
  have inv : s.Inv := run.keeps (fun _ _ _ ok step inv => inv_step inv ok step) (inv_init files env)
  refine ⟨inv.locked, fun uri i hi had => ?_⟩
  cases h : s.holder i with
  | none => rfl
  | some p =>
    rcases s.system.shared.lock_cases uri with ⟨failed, -, -⟩ | ⟨-, j, hj, released, -⟩
    · simp [failed] at had
    · rw [hi] at hj
      cases hj
      have held := (inv.locked i p h).2
      simp [released] at held

def beginLocal (name : Char) : Event :=
  .request ⟨chars ['L', '/', name], .put, some ⟨0, true, 1⟩, chars ['1'], 64, 0, short_one⟩

def Checked (P : Platform) (s : Owned) (e : Event) : Prop :=
  ∀ i ∈ List.range s.system.shared.store.tree.pool.used.length, s.holder i ≠ none →
    s.system.Unlocks P e i → e.party = s.holder i

instance (P : Platform) (s : Owned) (e : Event) : Decidable (Checked P s e) :=
  inferInstanceAs (Decidable (∀ i ∈ _, _))

theorem Inv.respects {e : Event} (inv : s.Inv) (checked : Checked P s e) : Respects P s e := by
  intro i p h gives
  have inside := List.mem_range.mpr (Pool.used_lt (inv.locked i p h).1)
  exact (checked i inside (by simp [h]) gives).trans h

theorem respects_run {files : Nat → Option Text} {env : Env}
    (run : Runs (Owned.step P) (Checked P) (init P files env) s) :
    Runs (Owned.step P) (Respects P) (init P files env) s := by
  have check (t : Owned) (e : Event) (inv : t.Inv) (checked : Checked P t e) : Respects P t e :=
    inv.respects checked
  have stable (t : Owned) (e : Event) (u : Owned) (ok : Respects P t e) (step : t.step P e = some u)
      (inv : t.Inv) : u.Inv := inv_step inv ok step
  exact (run.strengthen check stable (inv_init files env)).1

def goOnLocal (name : Char) (num : UInt32) : Event :=
  .request ⟨chars ['L', '/', name], .put, some ⟨num, true, 1⟩, chars ['1'], 64, 0, short_one⟩

def getLocal (name : Char) : Event :=
  .request ⟨chars ['L', '/', name], .get, none, [], 64, 0, short_empty⟩

theorem holder_locked_further : ∃ s, Runs (Owned.step .plain) (Respects .plain)
    (init .plain (fun _ => none) .bare) s ∧ s.holder 6 = some .server ∧ s.Locked 6 := by
  obtain ⟨s, run, held⟩ := Runs.of_follow (Owned.step .plain) (Checked .plain)
    (fun s => s.holder 6 = some .server)
    [beginLocal 'z', .systemTimer, .client, .client, getLocal 'z', .watchdog, goOnLocal 'z' 1, .client]
    (init .plain (fun _ => none) .bare) (by decide +kernel)
  simp only [decide_eq_true_eq] at held
  have run' : Runs (Owned.step .plain) (Respects .plain) (init .plain (fun _ => none) .bare) s :=
    respects_run run
  exact ⟨s, run', held, (holder_locked run').1 6 .server held⟩

def putTrivial : Event :=
  .request ⟨chars ['A', '/', 'x'], .put, none, chars ['1'], 64, 0, short_one⟩

/-- The client releases the resource of a transfer that is not its own. -/
theorem holder_robbed : ¬ ∀ (P : Platform) (files : Nat → Option Text) (env : Env) (s : Owned),
    Runs (Owned.step P) (fun _ _ => True) (init P files env) s →
    ∀ i p, s.holder i = some p → s.Locked i := by
  intro h
  obtain ⟨s, run, hs⟩ := Runs.of_follow (Owned.step .plain) (fun _ _ => True)
    (fun s => s.holder 7 = some .server ∧ ¬s.Locked 7)
    (putTrivial :: beginLocal 'z' :: List.replicate 9 .client)
    (init .plain (fun _ => none) .bare) (by decide +kernel)
  simp only [decide_eq_true_eq] at hs
  exact hs.2 (h .plain _ _ s run 7 .server hs.1)

end Owned
end EmmaNode

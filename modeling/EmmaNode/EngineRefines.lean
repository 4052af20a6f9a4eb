import EmmaNode.Engine

/-! The node with its engine does what the node of the processes does: each of its steps is a step
of the system or none. What the engine makes of datagrams is a request to the system's handlers
or an answer to its client. -/

namespace EmmaNode
namespace Node
variable {P : Platform} {n n' : Node}

theorem answer_system (mid : UInt16) : (n.answer mid).system = n.system := by
  simp only [answer]
  split
  · rfl
  · split <;> rfl

theorem send_system (i interval : Nat) : (n.send i interval).system = n.system := by
  simp only [send]
  split <;> rfl

theorem retransmit_system : n.retransmit.system = n.system := by
  simp only [retransmit]
  split <;> rfl

theorem conclude_system (d : Incoming) (message : CoapPacket Text) (i : Nat)
    (response : CoapPacket Text) (newOffset : UInt32) :
    (n.conclude P d message i response newOffset).system = n.system := by
  simp only [conclude]
  split
  · rfl
  · split
    · rfl
    · split
      · rfl
      · exact send_system i 0

variable (P n) in
def handled (message : CoapPacket Text) (method : Method) (buffer : Text) (i : Nat) : Node :=
  let system := (n.serviceCbk P message method buffer (n.prepare message)).1
  let currentMid := if message.type = MessageType.con then n.currentMid else n.currentMid + 1
  { n with system, currentMid }.scribble i buffer

theorem serveWith_eq (d : Incoming) (message : CoapPacket Text) (method : Method) (buffer : Text)
    (i : Nat) : n.serveWith P d message method buffer i =
      if (n.handled P message method buffer i).hung then n.handled P message method buffer i
      else (n.handled P message method buffer i).conclude P d message i
        (n.serviceCbk P message method buffer (n.prepare message)).2.1
        (n.serviceCbk P message method buffer (n.prepare message)).2.2 := rfl

theorem serveWith_system (d : Incoming) (message : CoapPacket Text) (method : Method)
    (buffer : Text) (i : Nat) :
    (n.serveWith P d message method buffer i).system =
      (n.serviceCbk P message method buffer (n.prepare message)).1 := by
  rw [serveWith_eq]
  split
  · rfl
  · exact conclude_system ..

theorem issue_system (success : Option Bool) (interval : Nat) :
    (n.issue success interval).system = n.system ∨
      ∃ last, (n.issue success interval).system = n.system.respond success last := by
  simp only [issue]
  split
  · exact .inl rfl
  · refine .inr ?_
    split
    · exact ⟨true, rfl⟩
    · exact ⟨false, send_system _ _⟩

/-- The callback has told a request of an answer, or not. -/
def Told (r r' : RequestState) : Prop :=
  r' = r ∨ ∃ response, r' = { r with response, polled := true }

theorem Told.active {r r' : RequestState} (h : Told r r') : r'.active = r.active := by
  rcases h with rfl | ⟨response, rfl⟩ <;> rfl

theorem send_told (i interval : Nat) : Told n.requestState (n.send i interval).requestState := by
  simp only [send]
  split
  · exact .inr ⟨_, rfl⟩
  · exact .inl rfl

theorem answer_told (mid : UInt16) : Told n.requestState (n.answer mid).requestState := by
  simp only [answer]
  split
  · exact .inl rfl
  · split
    · exact .inr ⟨_, rfl⟩
    · exact .inl rfl

theorem retransmit_told : Told n.requestState n.retransmit.requestState := by
  simp only [retransmit]
  split
  · exact .inr ⟨_, rfl⟩
  · exact .inl rfl

theorem conclude_told (d : Incoming) (message : CoapPacket Text) (i : Nat)
    (response : CoapPacket Text) (newOffset : UInt32) :
    Told n.requestState (n.conclude P d message i response newOffset).requestState := by
  simp only [conclude]
  split
  · exact .inl rfl
  · split
    · exact .inl rfl
    · split
      · exact .inl rfl
      · exact send_told i 0

theorem coapReceive_told (d : Incoming) (buffer : Text) :
    Told n.requestState (n.coapReceive P d buffer).requestState := by
  simp only [coapReceive]
  split
  · exact .inl rfl
  · split
    · simp only [serve]
      split
      · exact .inl rfl
      · rw [serveWith_eq]
        split
        · exact .inl rfl
        · exact conclude_told ..
    · exact answer_told _

theorem coapReceive_client (d : Incoming) (buffer : Text) :
    (n.coapReceive P d buffer).system.client = n.system.client := by
  simp only [coapReceive]
  split
  · rfl
  · split
    · simp only [serve]
      split
      · rfl
      · rw [serveWith_system]
        simp only [serviceCbk]
        split <;> rfl
    · rw [answer_system]

def Waits (n : Node) : Prop := n.requestState.active = true → n.system.client.pc = .blocked

theorem issue_waits (success : Option Bool) (interval : Nat)
    (blocked : n.system.client.pc = .blocked) : (n.issue success interval).Waits := by
  simp only [issue]
  split
  · exact fun _ => blocked
  · split
    · intro active
      cases active
    · intro _
      rw [send_system]
      exact blocked

theorem poll_waits (h : n.Waits) (interval : Nat) : (n.poll interval).Waits := by
  simp only [poll]
  split
  · exact h
  · rename_i active
    have blocked : n.system.client.pc = .blocked := h (not_not.mp active)
    split
    · intro active
      cases active
    · split
      · exact issue_waits _ interval blocked
      · intro active
        cases active

variable (calm : n.system.shared.reader.iter.stuck = false)
include calm

theorem serviceCbk_system (yields : n.system.client.pc.yields = true) (message : CoapPacket Text)
    (method : Method) (buffer : Text) (response : CoapPacket Text) :
    Runs (System.step P) (fun _ _ => True) n.system
      (n.serviceCbk P message method buffer response).1 := by
  rw [serviceCbk]
  split
  · refine Runs.refl.tail (e := .request (message.request method)) trivial ?_
    rw [System.step, calm, if_neg Bool.false_ne_true]
    exact if_pos yields
  · refine Runs.refl.tail (e := .wellKnown message.blockSize.toNat
      message.blockOffset.toInt32.toInt) trivial ?_
    rw [System.step, calm, if_neg Bool.false_ne_true]
    exact if_pos yields
  · exact .refl
  · exact .refl

theorem coapReceive_system (yields : n.system.client.pc.yields = true) (d : Incoming)
    (buffer : Text) :
    Runs (System.step P) (fun _ _ => True) n.system (n.coapReceive P d buffer).system := by
  rw [coapReceive]
  split
  · exact .refl
  · simp only
    split
    · rw [serve]
      split
      · exact .refl
      · rw [serveWith_system]
        exact serviceCbk_system calm yields _ _ _ _
    · rw [answer_system]
      exact .refl

theorem respond_run (blocked : n.system.client.pc = .blocked) (success : Option Bool)
    (last : Bool) :
    Runs (System.step P) (fun _ _ => True) n.system (n.system.respond success last) := by
  refine Runs.refl.tail (e := .response success last) trivial ?_
  rw [System.step, calm, if_neg Bool.false_ne_true]
  exact if_pos blocked

theorem issue_run {m : Node} (same : m.system = n.system) (blocked : n.system.client.pc = .blocked)
    (success : Option Bool) (interval : Nat) :
    Runs (System.step P) (fun _ _ => True) n.system (m.issue success interval).system := by
  rcases issue_system (n := m) success interval with silent | ⟨last, responded⟩
  · rw [silent, same]
    exact .refl
  · rw [responded, same]
    exact respond_run calm blocked success last

theorem poll_run (h : n.Waits) (interval : Nat) :
    Runs (System.step P) (fun _ _ => True) n.system (n.poll interval).system := by
  simp only [poll]
  split
  · exact .refl
  · rename_i active
    have blocked : n.system.client.pc = .blocked := h (not_not.mp active)
    split
    · exact respond_run calm blocked none true
    · split
      · exact issue_run calm (by rfl) blocked _ interval
      · exact respond_run calm blocked _ true

omit calm

theorem ready_yields (h : n.ready = true) : n.system.client.pc.yields = true :=
  (Bool.and_eq_true_iff.mp h).1

theorem Waits.ready (h : n.Waits) (active : n.requestState.active = true) : n.ready = true := by
  rw [Node.ready, h active, active]
  rfl

theorem own_eq {e : Event} (h : n.own P e = some n') :
    n.system.step P e = some n'.system ∧ n' = { n with system := n'.system } := by
  obtain ⟨system, step, rfl⟩ := Option.map_eq_some_iff.mp h
  exact ⟨step, rfl⟩

theorem own_client {e : Event}
    (own : e = .client ∨ e = .watchdog ∨ e = .systemTimer ∨ ∃ env, e = .environment env)
    (blocked : n.system.client.pc = .blocked) (h : n.own P e = some n') :
    n'.system.client = n.system.client := by
  have step := (own_eq h).1
  unfold System.step at step
  split at step
  · cases step
  rcases own with rfl | rfl | rfl | ⟨env, rfl⟩
  · simp only [System.clientStep, blocked] at step
    cases step
  · simp only [Option.ite_none_right_eq_some, Option.some.injEq] at step
    rw [← step.2]
    rfl
  · simp only [Option.ite_none_right_eq_some, Option.some.injEq] at step
    rw [← step.2]
    rfl
  · rw [← Option.some.inj step]
    rfl

theorem own_run {e : Event} (h : n.own P e = some n') :
    Runs (System.step P) (fun _ _ => True) n.system n'.system :=
  Runs.refl.tail trivial (own_eq h).1

variable {e : NodeEvent}

theorem step_cases (h : n.step P e = some n') :
    n.hung = false ∧
      ((∃ d buffer, e = .datagram d buffer ∧ n.ready = true ∧ n'.hung = false ∧
          n' = n.coapReceive P d buffer) ∨
        (∃ i, e = .expire i ∧ (n.transactions.cell i).running = true ∧
          n' = { n with transactions := n.transactions.expire i }) ∨
        (e = .retransmit ∧ n' = n.retransmit) ∨
        (∃ interval, e = .begin interval ∧ n.system.client.pc = .blocked ∧
          n.requestState.active = false ∧ n' = n.begin P interval) ∨
        (∃ interval, e = .poll interval ∧ n.requestState.polled = true ∧ n' = n.poll interval) ∨
        ∃ own, (own = .client ∨ own = .watchdog ∨ own = .systemTimer ∨ ∃ env, own = .environment env) ∧
          n.own P own = some n') := by
  unfold step at h
  split at h
  · cases h
  rename_i calm
  refine ⟨Bool.eq_false_iff.mpr calm, ?_⟩
  cases e with
  | datagram d buffer =>
    simp only [Option.ite_none_right_eq_some, Option.some.injEq, Bool.and_eq_true,
      Bool.not_eq_true'] at h
    obtain ⟨⟨ready, back⟩, rfl⟩ := h
    exact .inl ⟨d, buffer, rfl, ready, back, rfl⟩
  | expire i =>
    simp only [Option.ite_none_right_eq_some, Option.some.injEq, Bool.and_eq_true] at h
    exact .inr (.inl ⟨i, rfl, h.1.2, h.2.symm⟩)
  | retransmit =>
    simp only [Option.ite_none_right_eq_some, Option.some.injEq] at h
    exact .inr (.inr (.inl ⟨rfl, h.2.symm⟩))
  | begin interval =>
    simp only [Option.ite_none_right_eq_some, Option.some.injEq, Bool.not_eq_true] at h
    exact .inr (.inr (.inr (.inl ⟨interval, rfl, h.1.1, h.1.2, h.2.symm⟩)))
  | poll interval =>
    simp only [Option.ite_none_right_eq_some, Option.some.injEq, Bool.and_eq_true] at h
    exact .inr (.inr (.inr (.inr (.inl ⟨interval, rfl, h.1.2, h.2.symm⟩))))
  | client => exact .inr (.inr (.inr (.inr (.inr ⟨_, .inl rfl, h⟩))))
  | watchdog =>
    simp only [Option.ite_none_right_eq_some] at h
    exact .inr (.inr (.inr (.inr (.inr ⟨_, .inr (.inl rfl), h.2⟩))))
  | systemTimer =>
    simp only [Option.ite_none_right_eq_some] at h
    exact .inr (.inr (.inr (.inr (.inr ⟨_, .inr (.inr (.inl rfl)), h.2⟩))))
  | environment env => exact .inr (.inr (.inr (.inr (.inr ⟨_, .inr (.inr (.inr ⟨env, rfl⟩)), h⟩))))

theorem step_datagram {d : Incoming} {buffer : Text} (h : n.step P (.datagram d buffer) = some n') :
    n.ready = true ∧ n'.hung = false ∧ n' = n.coapReceive P d buffer := by
  unfold step at h
  split at h
  · cases h
  simp only [Option.ite_none_right_eq_some, Option.some.injEq, Bool.and_eq_true,
    Bool.not_eq_true'] at h
  obtain ⟨⟨ready, back⟩, rfl⟩ := h
  exact ⟨ready, back, rfl⟩

theorem step_of_active (waits : n.Waits) (active : n.requestState.active = true)
    (calm : n.hung = false) (d : Incoming) (buffer : Text)
    (back : (n.coapReceive P d buffer).hung = false) :
    n.step P (.datagram d buffer) = some (n.coapReceive P d buffer) := by
  unfold step
  rw [if_neg (Bool.eq_false_iff.mp calm)]
  exact if_pos (Bool.and_eq_true_iff.mpr ⟨waits.ready active, by rw [back]; rfl⟩)

theorem Waits.step (h : n.Waits) (step : n.step P e = some n') : n'.Waits := by
  obtain ⟨calm, ⟨d, buffer, -, -, -, rfl⟩ | ⟨i, -, -, rfl⟩ | ⟨-, rfl⟩ | ⟨interval, -, blocked, -, rfl⟩ |
    ⟨interval, -, -, rfl⟩ | ⟨own, which, step⟩⟩ := step_cases step
  · intro active
    rw [coapReceive_client]
    exact h ((coapReceive_told d buffer).active ▸ active)
  · exact h
  · intro active
    rw [retransmit_system]
    exact h (retransmit_told.active ▸ active)
  · exact issue_waits _ interval blocked
  · exact poll_waits h interval
  · intro active
    rw [(own_eq step).2] at active
    rw [own_client which (h active) step]
    exact h active

theorem step_system (waits : n.Waits) (step : n.step P e = some n') :
    Runs (System.step P) (fun _ _ => True) n.system n'.system := by
  obtain ⟨calm, ⟨d, buffer, rfl, ready, -, rfl⟩ | ⟨i, -, -, rfl⟩ | ⟨-, rfl⟩ |
    ⟨interval, -, blocked, -, rfl⟩ | ⟨interval, -, -, rfl⟩ | ⟨own, -, step⟩⟩ := step_cases step
  · exact coapReceive_system calm (ready_yields ready) d buffer
  · exact .refl
  · rw [retransmit_system]
    exact .refl
  · exact issue_run calm (by rfl) blocked none interval
  · exact poll_run calm waits interval
  · exact own_run step

theorem ReachableBy.system_run {num : Nat} {ok : Node → NodeEvent → Prop}
    (h : ReachableBy P num ok n) : n.Waits ∧ System.Reachable P n.system := by
  obtain ⟨files, env, mid, run⟩ := h
  have start : (Node.init P num files env mid).Waits := fun active => by cases active
  have both := run.keeps
    (I := fun n => n.Waits ∧ Runs (System.step P) (fun _ _ => True) (System.init P files env) n.system)
    (fun t e u _ step inv => ⟨inv.1.step step, inv.2.trans (step_system inv.1 step)⟩) ⟨start, .refl⟩
  exact ⟨both.1, files, env, both.2⟩

/-- Every state of the node with its engine, whatever datagrams it was sent, has a system that is
reached by requests, answers and the node's own events. -/
theorem reachable_system {num : Nat} {ok : Node → NodeEvent → Prop} (h : ReachableBy P num ok n) :
    System.Reachable P n.system :=
  h.system_run.2

def carrying (bytes : Text) : Incoming :=
  ⟨fun i => bytes.getD i 0, UInt16.ofNat bytes.length, [], 0⟩

def putDatagram : Incoming :=
  carrying ((CoapPacket.build .con 3 7 [.uriPath (chars ['L', '/', 'y']),
    .payload (chars ['4', '2'])]).serialize.getD [])

/-- A PUT of `L/y` and what is too short are answered, while the client is at work. -/
theorem reachable_system_answered : ∃ n : Node, n.sent.length = 2 ∧
    n.system.shared.store.emmaResourceExists (chars ['L', '/', 'y']) = true ∧
    System.Reachable .plain n.system := by
  obtain ⟨n, run, hn⟩ := Runs.of_follow (Node.step .plain) (fun _ _ => True)
    (fun n => n.sent.length = 2 ∧
      n.system.shared.store.emmaResourceExists (chars ['L', '/', 'y']) = true)
    [.client, .datagram putDatagram [], .datagram (carrying []) [], .retransmit, .client, .client]
    (.init .plain 1 (fun _ => none) .bare 0) (by decide +kernel)
  obtain ⟨sent, there⟩ := of_decide_eq_true hn
  exact ⟨n, sent, there, reachable_system ⟨_, _, _, run⟩⟩

end Node
end EmmaNode

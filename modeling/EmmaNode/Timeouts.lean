import EmmaNode.OpenTransactions

/-! A request that nobody answers. Its timer runs twice as long every time, and with the last of
the messages it is given up. -/

namespace EmmaNode
namespace Node
variable {P : Platform} {n n' : Node} {i : Nat}

def Timed (_ : Node) : NodeEvent → Prop
  | .expire _ => True
  | .retransmit => True
  | _ => False

def timeout (n : Node) (i : Nat) : Node :=
  Node.retransmit { n with transactions := n.transactions.expire i }

theorem retransmit_run (h : n.Sound) (member : i ∈ n.transactions.list)
    (calm : n.hung = false) :
    Runs (step P) Timed n n.retransmit := by
  have ready := h.waits.ready (h.of_mem member).1.1
  refine Runs.refl.tail (e := .retransmit) trivial ?_
  unfold step
  rw [if_neg (Bool.eq_false_iff.mp calm)]
  exact if_pos ready

theorem timeout_run (h : n.Sound) (member : i ∈ n.transactions.list)
    (calm : n.hung = false)
    (running : (n.transactions.cell i).running = true) : Runs (step P) Timed n (n.timeout i) := by
  have ready := h.waits.ready (h.of_mem member).1.1
  have expired : n.step P (.expire i) =
      some { n with transactions := n.transactions.expire i } := by
    unfold step
    rw [if_neg (Bool.eq_false_iff.mp calm)]
    exact if_pos (Bool.and_eq_true_iff.mpr ⟨ready, running⟩)
  have first : Runs (step P) Timed n { n with transactions := n.transactions.expire i } :=
    Runs.refl.tail (e := .expire i) trivial expired
  refine first.trans (retransmit_run (i := i) ?_ ?_ ?_)
  · exact h.expire i
  · exact member
  · exact calm

def after (n : Node) (i : Nat) (rounds : Nat) : Node :=
  { n with
    transactions := n.transactions.modify i fun t => { t with
      retransCounter := t.retransCounter + rounds, interval := t.interval * 2 ^ rounds }
    sent := n.sent ++ List.replicate rounds (n.transactions.cell i).datagram }

theorem after_zero : n.after i 0 = n := by
  simp [after, Roster.modify, Function.update_eq_self]

theorem timeout_eq (h : n.Sound) (member : i ∈ n.transactions.list)
    (running : (n.transactions.cell i).running = true) :
    n.timeout i =
      if (n.transactions.cell i).retransCounter + 1 < coapMaxRetransmit then n.after i 1
      else { n with
        transactions := n.transactions.drop i fun t =>
          { t with retransCounter := t.retransCounter + 1, running := false }
        sent := n.sent ++ [(n.transactions.cell i).datagram]
        requestState := { n.requestState with response := false, polled := true } } := by
  have cell : ((n.transactions.expire i).cell i) = (n.transactions.cell i).stop :=
    Function.update_self ..
  have sound : ({ n with transactions := n.transactions.expire i } : Node).Sound := h.expire i
  have counter : (n.transactions.cell i).stop.retransCounter =
      (n.transactions.cell i).retransCounter := rfl
  rw [timeout, sound.retransmit_stopped (i := i) member (by rw [cell]; rfl)]
  simp only [cell, counter]
  by_cases more : (n.transactions.cell i).retransCounter + 1 < coapMaxRetransmit
  · -- the timer runs again as it did before
    have same : (n.transactions.expire i).modify i again = n.transactions.modify i fun t => { t with
        retransCounter := t.retransCounter + 1, interval := t.interval * 2 ^ 1 } := by
      rw [Transactions.expire, Roster.modify_modify]
      refine Roster.modify_congr ?_
      simp [again, Transaction.stop, running]
    simp only [if_pos more, after, same]
    rfl
  · have same : ((n.transactions.expire i).modify i fun t =>
        { t with retransCounter := t.retransCounter + 1 }).drop i .stop =
          n.transactions.drop i fun t =>
            { t with retransCounter := t.retransCounter + 1, running := false } := by
      rw [Transactions.expire, Roster.modify_modify, Roster.drop_modify]
      rfl
    simp only [if_neg more, same]
    rfl

theorem after_cell (rounds : Nat) : (n.after i rounds).transactions.cell i =
    { n.transactions.cell i with
      retransCounter := (n.transactions.cell i).retransCounter + rounds
      interval := (n.transactions.cell i).interval * 2 ^ rounds } :=
  Function.update_self ..

theorem after_counter (rounds : Nat) : ((n.after i rounds).transactions.cell i).retransCounter =
    (n.transactions.cell i).retransCounter + rounds := by
  rw [after_cell]

theorem after_datagram (rounds : Nat) : ((n.after i rounds).transactions.cell i).datagram =
    (n.transactions.cell i).datagram := by
  rw [after_cell]
  rfl

theorem after_succ (rounds : Nat) : (n.after i rounds).after i 1 = n.after i (rounds + 1) := by
  have cells : (n.after i rounds).transactions.modify i (fun t => { t with
      retransCounter := t.retransCounter + 1, interval := t.interval * 2 ^ 1 }) =
        n.transactions.modify i fun t => { t with
          retransCounter := t.retransCounter + (rounds + 1)
          interval := t.interval * 2 ^ (rounds + 1) } := by
    rw [after, Roster.modify_modify]
    refine Roster.modify_congr ?_
    simp only [Function.comp_apply, Nat.add_assoc, Nat.mul_assoc, ← Nat.pow_add]
  rw [after, cells, after_datagram]
  simp only [after, List.append_assoc, List.replicate_succ', List.replicate_zero, List.nil_append]

theorem ReachableBy.timed {num : Nat} (h : ReachableBy P num (Kept P) n)
    (run : Runs (step P) Timed n n') : ReachableBy P num (Kept P) n' := by
  obtain ⟨files, env, mid, start⟩ := h
  refine ⟨files, env, mid, start.trans (run.weaken fun t e timed => ?_)⟩
  cases e with
  | datagram d buffer => exact absurd timed id
  | _ => rfl

theorem after_run {num : Nat} (h : ReachableBy P num (Kept P) n) (member : i ∈ n.transactions.list)
    (calm : n.hung = false)
    (running : (n.transactions.cell i).running = true) (rounds : Nat)
    (early : (n.transactions.cell i).retransCounter + rounds < coapMaxRetransmit) :
    Runs (step P) Timed n (n.after i rounds) := by
  induction rounds with
  | zero =>
    rw [after_zero]
    exact .refl
  | succ rounds ih =>
    have before := ih (Nat.lt_of_succ_lt early)
    have sound := (h.timed before).sound
    have runs : ((n.after i rounds).transactions.cell i).running = true := by
      rw [after_cell]
      exact running
    have next := timeout_run (P := P) (i := i) sound member calm runs
    rw [timeout_eq sound member runs, after_counter, if_pos (by omega), after_succ] at next
    exact before.trans next

theorem given_up {num : Nat} (h : ReachableBy P num (Kept P) n) (member : i ∈ n.transactions.list)
    (calm : n.hung = false)
    (running : (n.transactions.cell i).running = true) :
    ∃ n', Runs (step P) Timed n n' ∧ n'.system = n.system ∧ n'.transactions.list = [] ∧
      n'.requestState = { n.requestState with response := false, polled := true } ∧
      n'.sent = n.sent ++
        List.replicate (coapMaxRetransmit - (n.transactions.cell i).retransCounter)
          (n.transactions.cell i).datagram := by
  obtain ⟨-, -, list, holds⟩ := h.sound.of_mem member
  obtain ⟨rounds, last⟩ : ∃ rounds,
      (n.transactions.cell i).retransCounter + rounds + 1 = coapMaxRetransmit :=
    ⟨coapMaxRetransmit - (n.transactions.cell i).retransCounter - 1, by have := holds.counter; omega⟩
  have before := after_run h member calm running rounds (by omega)
  have sound := (h.timed before).sound
  have runs : ((n.after i rounds).transactions.cell i).running = true := by
    rw [after_cell]
    exact running
  have next := timeout_run (P := P) (i := i) sound member calm runs
  refine ⟨_, before.trans next, ?_⟩
  rw [timeout_eq sound member runs, after_counter, if_neg (by omega), after_datagram]
  refine ⟨rfl, ?_, rfl, ?_⟩
  · exact (congrArg (List.erase · i) list).trans (List.erase_cons_head ..)
  · have count : coapMaxRetransmit - (n.transactions.cell i).retransCounter = rounds + 1 := by omega
    rw [count, List.replicate_succ', ← List.append_assoc]
    rfl

/-- While no answer comes, the message of a request is sent again and again, unchanged and after
twice the time; with the fourth repetition the client is told that there is no answer. -/
theorem silence {num : Nat} (h : ReachableBy P num (Kept P) n) (member : i ∈ n.transactions.list)
    (calm : n.hung = false)
    (running : (n.transactions.cell i).running = true) :
    (∀ rounds, (n.transactions.cell i).retransCounter + rounds < coapMaxRetransmit →
      Runs (step P) Timed n (n.after i rounds)) ∧
    ∃ n', Runs (step P) Timed n n' ∧ n'.system = n.system ∧ n'.transactions.list = [] ∧
      n'.requestState = { n.requestState with response := false, polled := true } ∧
      n'.sent = n.sent ++
        List.replicate (coapMaxRetransmit - (n.transactions.cell i).retransCounter)
          (n.transactions.cell i).datagram :=
  ⟨after_run h member calm running, given_up h member calm running⟩

theorem silence_asking : ∃ n n' : Node, ReachableBy .plain 1 (Kept .plain) n ∧
    Runs (step .plain) Timed n n' ∧ n'.requestState.polled = true ∧ n'.requestState.response = false := by
  obtain ⟨n, reached, -, -, -, calm, list, running⟩ := asking_run
  obtain ⟨-, n', run, -, -, told, -⟩ :=
    silence reached (list ▸ List.mem_singleton_self 0) calm running
  exact ⟨n, n', reached, run, by rw [told], by rw [told]⟩

theorem timed_out {num : Nat} (h : ReachableBy P num (Kept P) n)
    (active : n.requestState.active = true) (silent : n.requestState.polled = false)
    (calm : n.hung = false) :
    ∃ n', Runs (step P) Timed n n' ∧ n'.system = n.system ∧ n'.transactions.list = [] ∧
      n'.requestState = { n.requestState with response := false, polled := true } := by
  obtain ⟨i, -, list, holds⟩ := h.sound.waiting active silent
  have member : i ∈ n.transactions.list := list ▸ List.mem_singleton_self i
  cases running : (n.transactions.cell i).running with
  | true =>
    obtain ⟨n', run, system, gone, told, -⟩ := given_up h member calm running
    exact ⟨n', run, system, gone, told⟩
  | false =>
    -- the timer has run out before, and its event comes first
    have first := retransmit_run (P := P) h.sound member calm
    rw [h.sound.retransmit_stopped member running] at first
    by_cases more : (n.transactions.cell i).retransCounter + 1 < coapMaxRetransmit
    · simp only [if_pos more] at first
      have cell : (n.transactions.modify i again).cell i = again (n.transactions.cell i) :=
        Function.update_self ..
      obtain ⟨n', run, system, gone, told, -⟩ := given_up (i := i) (h.timed first) member calm
        (by rw [cell]; rfl)
      exact ⟨n', first.trans run, system, gone, told⟩
    · simp only [if_neg more] at first
      refine ⟨_, first, rfl, ?_, rfl⟩
      exact (congrArg (List.erase · i) list).trans (List.erase_cons_head ..)

/-- Whatever has happened before, timers alone bring the client back from a request. -/
theorem woken {num : Nat} (h : ReachableBy P num (Kept P) n)
    (active : n.requestState.active = true) (silent : n.requestState.polled = false)
    (calm : n.hung = false) (interval : Nat) :
    ∃ n' n'', Runs (step P) Timed n n' ∧ n'.step P (.poll interval) = some n'' ∧
      n''.system.shared = n.system.shared ∧ n''.system.client.pc = .answered ∧
      n''.transactions.list = [] := by
  obtain ⟨n', run, system, gone, told⟩ := timed_out h active silent calm
  have active' : n'.requestState.active = true := by rw [told]; exact active
  have polled : n'.requestState.polled = true := by rw [told]
  have ready := (h.timed run).sound.waits.ready active'
  have step : n'.step P (.poll interval) = some (n'.poll interval) := by
    have calm' : n'.hung = false := by
      rw [hung, system]
      exact calm
    unfold Node.step
    rw [if_neg (Bool.eq_false_iff.mp calm')]
    exact if_pos (Bool.and_eq_true_iff.mpr ⟨ready, polled⟩)
  have left : n'.poll interval =
      { n' with requestState := { n'.requestState with polled := false } }.leave none := by
    rw [poll, if_neg (not_not.mpr active'), if_pos (by rw [told]; exact Bool.false_ne_true)]
  refine ⟨n', _, run, step, ?_⟩
  rw [left]
  refine ⟨?_, rfl, gone⟩
  change n'.system.shared = n.system.shared
  rw [system]

theorem woken_asking : ∃ n n' n'' : Node, n.system.client.pc = .blocked ∧
    Runs (step .plain) Timed n n' ∧ n'.step .plain (.poll 0) = some n'' ∧
    n''.system.client.pc = .answered := by
  obtain ⟨n, reached, active, silent, -, calm, -⟩ := asking_run
  obtain ⟨n', n'', run, step, -, back, -⟩ := woken reached active silent calm 0
  exact ⟨n, n', n'', reached.sound.waits active, run, step, back⟩

end Node
end EmmaNode

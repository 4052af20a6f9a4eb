import EmmaNode.Replies

/-! The transaction of the request that waits. It is the only one that stays open, and whoever is
behind it is woken when it is answered or given up, unless a datagram takes it away. -/

namespace EmmaNode
namespace Node

instance (P : Platform) (n : Node) (message : CoapPacket Text) (method : Method) (buffer : Text) :
    Decidable (n.Returns P message method buffer) :=
  inferInstanceAs (Decidable (_ = _))

instance (P : Platform) (n : Node) (d : Incoming) (message : CoapPacket Text) (method : Method)
    (buffer : Text) : Decidable (n.Serves P d message method buffer) :=
  inferInstanceAs (Decidable (_ → _))

/-- A datagram takes an open transaction from its owner: one that cannot be read while the static
pointer is still at it, or a request with its message id whose response is cancelled. -/
def robs (P : Platform) (n : Node) : NodeEvent → Bool
  | .datagram d buffer =>
    match d.memory.parseMessage d.dataLen with
    | .error _ => n.transactions.list.any (n.transaction = some ·)
    | .ok (m, p) =>
      match Method.ofCode p.code with
      | none => false
      | some method => !decide (n.Serves P d (p.map (·.text m)) method buffer) &&
          (n.transactions.getTransactionByMid p.mid).isSome
  | _ => false

/-- What is sent is a reply or a request of the client. -/
def Spoken (x : Datagram) : Prop :=
  ∃ p : CoapPacket Text, p.serialize = some x.bytes ∧
    (p.IsReply ∨ ∃ (request : ClientRequest) (blockNum : UInt32) (mid : UInt16),
      request.Fits ∧ p = requestMessage request blockNum mid)

/-- A transaction with the request the client is in -/
structure Holds (n : Node) (t : Transaction) : Prop where
  callback : t.callback = true
  counter : t.retransCounter < coapMaxRetransmit
  message : ∃ (request : ClientRequest) (bytes : Text), n.system.client.request = some request ∧
    (requestMessage request n.requestState.blockNum t.mid).serialize = some bytes ∧
    t.datagram = ⟨request.address, request.port, bytes⟩

structure Sound (n : Node) : Prop where
  waits : n.Waits
  fits : n.system.RequestFits
  /-- a request that waits has a transaction, which is the only one -/
  waiting : n.requestState.active = true → n.requestState.polled = false →
    ∃ i, n.requestState.transaction = some i ∧ n.transactions.list = [i] ∧
      n.Holds (n.transactions.cell i)
  /-- otherwise there is none -/
  idle : n.requestState.active = false ∨ n.requestState.polled = true → n.transactions.list = []
  polled : n.requestState.polled = true → n.requestState.active = true
  asked : n.requestState.active = true → ∃ request, n.system.client.request = some request
  spoken : ∀ x ∈ n.sent, Spoken x

variable {P : Platform} {n n' : Node} {d : Incoming}

theorem Holds.congr {t : Transaction} (h : n.Holds t) (client : n'.system.client = n.system.client)
    (requestState : n'.requestState = n.requestState) : n'.Holds t where
  callback := h.callback
  counter := h.counter
  message := by
    rw [client, requestState]
    exact h.message

theorem Holds.confirmable {t : Transaction} (h : n.Holds t) : t.confirmable = true := by
  obtain ⟨request, bytes, -, written, same⟩ := h.message
  have type := CoapPacket.serialize_type written
  have packet : t.packet.take t.packetLen = bytes := congrArg Datagram.bytes same
  have filled := CoapPacket.serialize_ne_nil written
  have head : t.packet.headD 0 = bytes.headD 0 := by
    rw [← packet] at filled ⊢
    cases eq : t.packet with
    | nil => rw [List.take_nil]
    | cons first rest =>
      cases len : t.packetLen with
      | zero => exact absurd (by rw [len, List.take_zero]) filled
      | succ k => rfl
  rw [Transaction.confirmable, head, type, (requestMessage_head _ _).1]
  rfl

theorem Sound.of_mem (h : n.Sound) {i : Nat} (member : i ∈ n.transactions.list) :
    (n.requestState.active = true ∧ n.requestState.polled = false) ∧
      n.requestState.transaction = some i ∧ n.transactions.list = [i] ∧
      n.Holds (n.transactions.cell i) := by
  have waits : n.requestState.active = true ∧ n.requestState.polled = false := by
    by_contra idle
    rw [h.idle (by simpa [← Bool.not_eq_true, or_iff_not_imp_left] using idle)] at member
    exact absurd member List.not_mem_nil
  obtain ⟨j, transaction, list, holds⟩ := h.waiting waits.1 waits.2
  obtain rfl : i = j := List.mem_singleton.mp (list ▸ member)
  exact ⟨waits, transaction, list, holds⟩

theorem Sound.leaves (h : n.Sound) (leaves : n.Leaves n')
    (client : n'.system.client = n.system.client) (spoken : ∀ x ∈ n'.sent, Spoken x) : n'.Sound where
  waits := by
    rw [Waits, leaves.requestState, client]
    exact h.waits
  fits := by
    rw [System.RequestFits, client]
    exact h.fits
  waiting := by
    rw [leaves.requestState]
    intro active silent
    obtain ⟨i, transaction, list, holds⟩ := h.waiting active silent
    refine ⟨i, transaction, leaves.list.trans list, ?_⟩
    rw [leaves.cells i (list ▸ List.mem_singleton_self i)]
    exact holds.congr client leaves.requestState
  idle := by
    rw [leaves.requestState, leaves.list]
    exact h.idle
  polled := by
    rw [leaves.requestState]
    exact h.polled
  asked := by
    rw [leaves.requestState, client]
    exact h.asked
  spoken := spoken

/-! ### Datagrams -/

theorem refuse_leaves (apart : ∀ i ∈ n.transactions.list, n.transaction ≠ some i)
    (status : CoapStatus) (mid : UInt16) : n.Leaves (n.refuse d status mid) := by
  cases pointer : n.transaction with
  | none =>
    refine ⟨?_, fun j _ => ?_, rfl⟩
    · rw [refuse, pointer]
      rfl
    · rw [refuse, pointer]
      rfl
  | some i =>
    have free : i ∉ n.transactions.list := fun hi => apart i hi pointer
    refine ⟨?_, fun j hj => ?_, rfl⟩
    · rw [refuse, pointer]
      exact List.erase_of_not_mem free
    · have other : j ≠ i := fun same => free (same ▸ hj)
      rw [refuse, pointer]
      exact Function.update_of_ne other _ _

variable {message : CoapPacket Text} {method : Method} {buffer : Text}

theorem serve_leaves (back : (n.serve P d message method buffer).hung = false)
    (kept : n.Serves P d message method buffer ∨
      n.transactions.getTransactionByMid message.mid = none) :
    n.Leaves (n.serve P d message method buffer) := by
  cases new : n.transactions.newTransaction message.mid d.address d.port with
  | none =>
    rw [serve_full new]
    have leaves : { n with transaction := none }.Leaves
        ({ n with transaction := none }.refuse d .serviceUnavailable message.mid) :=
      refuse_leaves (fun _ _ => Option.some_ne_none _ ∘ Eq.symm) _ _
    exact ⟨leaves.list, leaves.cells, leaves.requestState⟩
  | some found =>
    obtain ⟨i, transactions⟩ := found
    have room : (n.transactions.newTransaction message.mid d.address d.port).isSome = true := by
      rw [new]
      rfl
    have returns := serve_returns room back
    cases dropped : cancelled P (n.response P message method buffer) with
    | false => exact (serve_kept new returns dropped).1
    | true =>
      have young : n.transactions.getTransactionByMid message.mid = none := by
        rcases kept with serves | young
        · exact absurd (dropped.symm.trans (serves room).2) (by decide)
        · exact young
      obtain ⟨-, -, requestState, list, cells⟩ := serve_cancelled new returns dropped
      have fresh := (Roster.take_spec new).1
      rw [young, Option.getD_none] at list cells
      refine ⟨?_, fun j hj => cells j hj fun same => fresh (same ▸ hj), requestState⟩
      rw [list, List.erase_append_right _ fresh, List.erase_cons_head, List.append_nil]

theorem coapReceive_spoken (h : ∀ x ∈ n.sent, Spoken x) (d : Incoming) (buffer : Text) :
    ∀ x ∈ (n.coapReceive P d buffer).sent, Spoken x := by
  obtain ⟨sends, silent⟩ := coapReceive_sends (n := n) (P := P) d buffer
  by_cases replies : n.Replies P d buffer
  · obtain ⟨p, reply, bytes, written, sent⟩ := sends replies
    rw [sent]
    intro x hx
    rcases List.mem_append.mp hx with old | new
    · exact h x old
    · obtain rfl := List.mem_singleton.mp new
      exact ⟨p, written, .inl reply⟩
  · rw [silent replies]
    exact h

theorem Sound.told (h : n.Sound) {i : Nat} (open' : n.transactions.list = [i])
    (list : n'.transactions.list = []) (response : Bool)
    (told : n'.requestState = { n.requestState with response, polled := true })
    (client : n'.system.client = n.system.client) (spoken : ∀ x ∈ n'.sent, Spoken x) :
    n'.Sound := by
  have active := (h.of_mem (open' ▸ List.mem_singleton_self i)).1.1
  exact {
    waits := by
      rw [Waits, told, client]
      exact h.waits
    fits := by
      rw [System.RequestFits, client]
      exact h.fits
    waiting := by
      rw [told]
      exact fun _ silent => absurd silent.symm Bool.false_ne_true
    idle := fun _ => list
    polled := by
      rw [told]
      exact fun _ => active
    asked := by
      rw [client]
      exact fun _ => h.asked active
    spoken := spoken }

theorem answer_sound (h : n.Sound) (mid : UInt16) : (n.answer mid).Sound := by
  have spoken : ∀ x ∈ (n.answer mid).sent, Spoken x := by
    rw [answer_sent]
    exact h.spoken
  have client : (n.answer mid).system.client = n.system.client := by rw [answer_system]
  cases found : n.transactions.getTransactionByMid mid with
  | none =>
    refine h.leaves ⟨?_, fun j _ => ?_, ?_⟩ client spoken
    all_goals rw [answer, found]
  | some i =>
    have member : i ∈ n.transactions.list := List.mem_of_find?_eq_some found
    obtain ⟨-, -, list, holds⟩ := h.of_mem member
    refine h.told list ?_ true ?_ client spoken
    · rw [answer, found]
      simp only [holds.callback, if_true]
      exact (congrArg (List.erase · i) list).trans (List.erase_cons_head ..)
    · rw [answer_requestState, if_pos ⟨i, found, holds.callback⟩]

theorem Sound.heard (h : n.Sound) (q : CoapPacket Text) : (n.heard q).Sound :=
  h.leaves ⟨rfl, fun _ _ => rfl, rfl⟩ rfl h.spoken

theorem Sound.datagram (h : n.Sound) (back : (n.coapReceive P d buffer).hung = false)
    (kept : n.robs P (.datagram d buffer) = false) :
    (n.coapReceive P d buffer).Sound := by
  have client := coapReceive_client (n := n) (P := P) d buffer
  have spoken := coapReceive_spoken (P := P) h.spoken d buffer
  rw [robs] at kept
  cases parsed : d.memory.parseMessage d.dataLen with
  | error status =>
    rw [parsed] at kept
    rw [coapReceive_error parsed] at client spoken ⊢
    have apart : ∀ i ∈ n.transactions.list, n.transaction ≠ some i := by
      simpa using kept
    exact h.leaves (refuse_leaves apart _ _) client spoken
  | ok made =>
    obtain ⟨m, p⟩ := made
    rw [parsed] at kept
    cases code : Method.ofCode p.code with
    | none =>
      rw [coapReceive_answer parsed code]
      exact answer_sound (h.heard _) _
    | some method =>
      simp only [code] at kept
      rw [coapReceive_request parsed code] at client spoken back ⊢
      have either : n.Serves P d (p.map (·.text m)) method buffer ∨
          n.transactions.getTransactionByMid p.mid = none := by
        by_cases serves : n.Serves P d (p.map (·.text m)) method buffer
        · exact .inl serves
        · rw [decide_eq_false serves, Bool.not_false, Bool.true_and] at kept
          exact .inr (Option.not_isSome_iff_eq_none.mp (by rw [kept]; exact Bool.false_ne_true))
      exact (h.heard _).leaves (serve_leaves back either) client spoken

/-! ### Timers -/

def again (t : Transaction) : Transaction :=
  { t with retransCounter := t.retransCounter + 1, running := true, interval := t.interval * 2 }

theorem checkFrom_single (ts : Transactions) {i : Nat} (list : ts.list = [i])
    (confirmable : (ts.cell i).confirmable = true) (stopped : (ts.cell i).running = false) :
    Transactions.checkFrom [i] ts =
      if (ts.cell i).retransCounter + 1 < coapMaxRetransmit then
        (ts.modify i again, [(ts.cell i).datagram], false)
      else ((ts.modify i fun t => { t with retransCounter := t.retransCounter + 1 }).drop i .stop,
        [(ts.cell i).datagram], (ts.cell i).callback) := by
  set ts' : Transactions := ts.modify i fun t => { t with retransCounter := t.retransCounter + 1 }
    with hts
  have cell : ts'.cell i =
      { ts.cell i with retransCounter := (ts.cell i).retransCounter + 1 } := Function.update_self ..
  have still : (ts'.cell i).confirmable = true := by
    rw [cell]
    exact confirmable
  have late : ts'.timedOut i = decide (coapMaxRetransmit ≤ (ts.cell i).retransCounter + 1) := by
    rw [Transactions.timedOut, still, cell, Bool.true_and]
  have listed : ts'.list = [i] := list
  rw [Transactions.checkFrom, stopped, if_neg Bool.false_ne_true]
  simp only [← hts]
  by_cases more : (ts.cell i).retransCounter + 1 < coapMaxRetransmit
  · have early : ts'.timedOut i = false := by
      rw [late]
      exact decide_eq_false (Nat.not_le.mpr more)
    have sent : ts'.sendTransaction i 0 = ts.modify i again := by
      rw [Transactions.sendTransaction, still, early, hts]
      exact Roster.modify_modify ts i _ (·.restart 0)
    rw [sent, if_pos more, Roster.list_modify, list, if_pos (List.mem_singleton_self i), cell,
      Transactions.checkFrom]
    rfl
  · have late : ts'.timedOut i = true := by
      rw [late]
      exact decide_eq_true (Nat.not_lt.mp more)
    have sent : ts'.sendTransaction i 0 = ts'.drop i .stop := by
      rw [Transactions.sendTransaction, still, late]
      rfl
    have gone : i ∉ (ts'.drop i .stop).list := by
      rw [Roster.list_drop, listed, List.erase_cons_head]
      exact List.not_mem_nil
    rw [sent, if_neg more, if_neg gone, Transactions.calledBack, late, cell]
    rfl

theorem checkFrom_running (ts : Transactions) (is : List Nat)
    (running : ∀ i ∈ is, (ts.cell i).running = true) :
    Transactions.checkFrom is ts = (ts, [], false) := by
  induction is with
  | nil => rfl
  | cons i is ih =>
    rw [Transactions.checkFrom, if_pos (running i List.mem_cons_self)]
    exact ih fun j hj => running j (List.mem_cons_of_mem _ hj)

theorem retransmit_running (running : ∀ i ∈ n.transactions.list,
    (n.transactions.cell i).running = true) : n.retransmit = n := by
  rw [retransmit, Transactions.checkTransactions, checkFrom_running _ _ running]
  simp only [List.append_nil, Bool.false_eq_true, if_false]

theorem Sound.retransmit_stopped (h : n.Sound) {i : Nat} (member : i ∈ n.transactions.list)
    (stopped : (n.transactions.cell i).running = false) :
    n.retransmit = { n with
      transactions := if (n.transactions.cell i).retransCounter + 1 < coapMaxRetransmit then
          n.transactions.modify i again
        else (n.transactions.modify i fun t =>
          { t with retransCounter := t.retransCounter + 1 }).drop i .stop
      sent := n.sent ++ [(n.transactions.cell i).datagram]
      requestState := if (n.transactions.cell i).retransCounter + 1 < coapMaxRetransmit then
          n.requestState
        else { n.requestState with response := false, polled := true } } := by
  obtain ⟨-, -, list, holds⟩ := h.of_mem member
  rw [Node.retransmit, Transactions.checkTransactions, list,
    checkFrom_single _ list holds.confirmable stopped]
  by_cases more : (n.transactions.cell i).retransCounter + 1 < coapMaxRetransmit
  · simp only [if_pos more, Bool.false_eq_true, if_false]
  · simp only [if_neg more, holds.callback, if_true]
    rfl

theorem Sound.retransmit (h : n.Sound) : n.retransmit.Sound := by
  by_cases quiet : ∀ i ∈ n.transactions.list, (n.transactions.cell i).running = true
  · rw [retransmit_running quiet]
    exact h
  obtain ⟨i, member, stopped⟩ : ∃ i ∈ n.transactions.list,
      (n.transactions.cell i).running = false := by
    simpa using quiet
  obtain ⟨⟨active, silent⟩, transaction, list, holds⟩ := h.of_mem member
  have spoken : ∀ x ∈ n.sent ++ [(n.transactions.cell i).datagram], Spoken x := by
    intro x hx
    rcases List.mem_append.mp hx with old | new
    · exact h.spoken x old
    · obtain ⟨request, bytes, asked, written, same⟩ := holds.message
      obtain rfl := List.mem_singleton.mp new
      exact ⟨_, by rw [same]; exact written, .inr ⟨request, _, _, h.fits request asked, rfl⟩⟩
  rw [h.retransmit_stopped member stopped]
  by_cases more : (n.transactions.cell i).retransCounter + 1 < coapMaxRetransmit
  · simp only [if_pos more]
    refine ⟨h.waits, h.fits, fun _ _ => ⟨i, transaction, list, ?_⟩, fun idle => ?_, h.polled, h.asked,
      spoken⟩
    · have cell : (n.transactions.modify i again).cell i = again (n.transactions.cell i) :=
        Function.update_self ..
      rw [cell]
      exact ⟨holds.callback, more, holds.message⟩
    · exact absurd idle (by simp [active, silent])
  · simp only [if_neg more]
    refine h.told list ?_ false rfl rfl spoken
    exact (congrArg (List.erase · i) list).trans (List.erase_cons_head ..)

theorem Sound.expire (h : n.Sound) (i : Nat) :
    ({ n with transactions := n.transactions.expire i } : Node).Sound where
  waits := h.waits
  fits := h.fits
  waiting active silent := by
    obtain ⟨j, transaction, list, holds⟩ := h.waiting active silent
    refine ⟨j, transaction, list, ?_⟩
    rw [Transactions.expire, Roster.cell_modify, Function.update_apply]
    split
    · rename_i same
      subst same
      exact ⟨holds.callback, holds.counter, holds.message⟩
    · exact ⟨holds.callback, holds.counter, holds.message⟩
  idle := h.idle
  polled := h.polled
  asked := h.asked
  spoken := h.spoken

/-! ### The blocking request -/

theorem send_confirmable {i interval : Nat}
    (confirmable : (n.transactions.cell i).confirmable = true)
    (early : (n.transactions.cell i).retransCounter < coapMaxRetransmit) :
    n.send i interval = { n with
      transactions := n.transactions.modify i (·.restart interval)
      sent := n.sent ++ [(n.transactions.cell i).datagram] } := by
  have alive : n.transactions.timedOut i = false := by
    rw [Transactions.timedOut, decide_eq_false (Nat.not_le.mpr early), Bool.and_false]
  rw [send, Transactions.calledBack, alive, Transactions.sendTransaction, confirmable, alive]
  rfl

theorem restart_datagram (t : Transaction) (interval : Nat) :
    (t.restart interval).datagram = t.datagram := rfl

theorem leave_sound (fits : n.system.RequestFits) (list : n.transactions.list = [])
    (silent : n.requestState.polled = false) (spoken : ∀ x ∈ n.sent, Spoken x)
    (success : Option Bool) : (n.leave success).Sound where
  waits active := by cases active
  fits := fits
  waiting active := by cases active
  idle _ := list
  polled polled := absurd (silent.symm.trans polled) Bool.false_ne_true
  asked active := by cases active
  spoken := spoken

theorem issue_sound (blocked : n.system.client.pc = .blocked) (fits : n.system.RequestFits)
    (asked : ∃ request, n.system.client.request = some request) (list : n.transactions.list = [])
    (silent : n.requestState.polled = false) (spoken : ∀ x ∈ n.sent, Spoken x)
    (success : Option Bool) (interval : Nat) : (n.issue success interval).Sound := by
  obtain ⟨request, asked⟩ := asked
  have fit := fits request asked
  rw [issue, asked]
  simp only
  split
  · exact leave_sound (n := { n with currentMid := n.currentMid + 1 }) fits list silent spoken success
  rename_i i transactions new
  obtain ⟨-, listed, cell⟩ := Roster.take_spec new
  obtain ⟨bytes, written⟩ := requestMessage_serialize n.requestState.blockNum (n.currentMid + 1) fit
  have type := (@requestMessage_head request n.requestState.blockNum (n.currentMid + 1)).1
  rw [written, Option.getD_some]
  set m : Node := { n with
    currentMid := n.currentMid + 1
    system := n.system.respond success false
    transactions := transactions.modify i fun t => { t with callback := true }.fill bytes
    requestState := { n.requestState with active := true, transaction := some i } } with hm
  -- the cell of the message
  have own : m.transactions.cell i = ({ n.transactions.cell i with
      mid := n.currentMid + 1, retransCounter := 0, address := request.address
      port := request.port, callback := true } : Transaction).fill bytes := by
    rw [hm, Roster.cell_modify, Function.update_self, cell, Function.update_self]
  have confirmable : (m.transactions.cell i).confirmable = true := by
    rw [own, fill_confirmable _ written, type]
    rfl
  have start : (m.transactions.cell i).retransCounter = 0 := by
    rw [own]
    rfl
  change (m.send i interval).Sound
  rw [send_confirmable confirmable (by rw [start]; decide), own, fill_datagram]
  refine ⟨fun _ => blocked, fits, fun _ _ => ⟨i, rfl, ?_, ?_⟩, fun idle => ?_,
    fun polled => absurd (silent.symm.trans polled) Bool.false_ne_true, fun _ => ⟨request, asked⟩,
    fun x hx => ?_⟩
  · exact listed.trans (by rw [list, List.nil_append])
  · rw [Roster.cell_modify, Function.update_self, own]
    have first : 0 < coapMaxRetransmit := by decide
    exact ⟨rfl, first, request, bytes, asked, written, (restart_datagram _ _).trans (fill_datagram _ _)⟩
  · rcases idle with idle | polled
    · cases idle
    · exact absurd (silent.symm.trans polled) Bool.false_ne_true
  · rcases List.mem_append.mp hx with old | new
    · exact spoken x old
    · obtain rfl := List.mem_singleton.mp new
      exact ⟨_, written, .inr ⟨request, _, _, fit, rfl⟩⟩

theorem Sound.begin (h : n.Sound) (blocked : n.system.client.pc = .blocked)
    (idle : n.requestState.active = false) (interval : Nat) : (n.begin P interval).Sound := by
  have list := h.idle (.inl idle)
  have silent : n.requestState.polled = false := by
    cases polled : n.requestState.polled with
    | false => rfl
    | true => exact (h.polled polled).symm.trans idle
  rw [Node.begin]
  generalize (if n.system.client.postBlockNum = 0 then P.random n.system.shared.reader.seed 0
    else n.currentMid) = currentMid
  cases asked : n.system.client.request with
  | none =>
    rw [issue, asked]
    exact {
      waits := fun _ => blocked
      fits := h.fits
      waiting := fun active => by cases active
      idle := fun _ => list
      polled := fun polled => absurd (silent.symm.trans polled) Bool.false_ne_true
      asked := fun active => by cases active
      spoken := h.spoken }
  | some request =>
    refine issue_sound ?_ ?_ ?_ ?_ ?_ ?_ none interval
    · exact blocked
    · exact h.fits
    · exact ⟨request, asked⟩
    · exact list
    · exact silent
    · exact h.spoken

theorem Sound.poll (h : n.Sound) (polled : n.requestState.polled = true) (interval : Nat) :
    (n.poll interval).Sound := by
  have list := h.idle (.inr polled)
  have active := h.polled polled
  have asked := h.asked active
  simp only [Node.poll, active, not_true_eq_false, if_false]
  split
  · exact leave_sound (by exact h.fits) (by exact list) (by rfl) (by exact h.spoken) none
  · have silent : ∀ r : RequestState, r.polled = false → ∀ message,
        (r.readBlock message).count.polled = false := by
      intro r silent message
      rw [RequestState.readBlock, RequestState.count]
      split <;> split <;> exact silent
    split
    · refine issue_sound ?_ ?_ ?_ ?_ ?_ ?_ _ interval
      · exact h.waits active
      · exact h.fits
      · exact asked
      · exact list
      · exact silent _ rfl _
      · exact h.spoken
    · refine leave_sound ?_ ?_ ?_ ?_ _
      · exact h.fits
      · exact list
      · exact silent _ rfl _
      · exact h.spoken

theorem Sound.step (h : n.Sound) {e : NodeEvent} (kept : n.robs P e = false)
    (step : n.step P e = some n') : n'.Sound := by
  have waits := h.waits.step step
  obtain ⟨-, ⟨d, buffer, rfl, -, back, rfl⟩ | ⟨i, -, -, rfl⟩ | ⟨-, rfl⟩ |
    ⟨interval, -, blocked, idle, rfl⟩ | ⟨interval, -, polled, rfl⟩ | ⟨own, which, moved⟩⟩ :=
    step_cases step
  · exact h.datagram back kept
  · exact h.expire i
  · exact h.retransmit
  · exact h.begin blocked idle interval
  · exact h.poll polled interval
  · obtain ⟨moved', rest⟩ := own_eq moved
    have fits := h.fits.step moved'
    have client := fun active => own_client which (h.waits active) moved
    rw [rest] at waits ⊢
    refine ⟨waits, fits, fun active silent => ?_, h.idle, h.polled, fun active => ?_, h.spoken⟩
    · obtain ⟨i, transaction, list, holds⟩ := h.waiting active silent
      exact ⟨i, transaction, list, holds.congr (client active) rfl⟩
    · obtain ⟨request, asked⟩ := h.asked active
      exact ⟨request, (congrArg Client.request (client active)).trans asked⟩

theorem sound_init (num : Nat) (files : Nat → Option Text) (env : Env) (mid : UInt16) :
    (Node.init P num files env mid).Sound where
  waits active := by cases active
  fits := System.requestFits_init files env
  waiting active := by cases active
  idle _ := rfl
  polled polled := by cases polled
  asked active := by cases active
  spoken x hx := absurd hx List.not_mem_nil

/-- No datagram takes an open transaction. -/
def Kept (P : Platform) (n : Node) (e : NodeEvent) : Prop := n.robs P e = false

instance (P : Platform) (n : Node) (e : NodeEvent) : Decidable (Kept P n e) :=
  inferInstanceAs (Decidable (_ = _))

theorem ReachableBy.sound {num : Nat} (h : ReachableBy P num (Kept P) n) : n.Sound := by
  obtain ⟨files, env, mid, run⟩ := h
  exact run.keeps (fun _ _ _ kept step sound => sound.step kept step) (sound_init num files env mid)

/-! ### Owners -/

/-- A request that waits owns the one open transaction, and its message is in it; otherwise there
is none. -/
def Owned (n : Node) : Prop :=
  if n.requestState.active = true ∧ n.requestState.polled = false then
    ∃ i, n.requestState.transaction = some i ∧ n.transactions.list = [i] ∧
      n.Holds (n.transactions.cell i)
  else n.transactions.list = []

theorem Sound.owned (h : n.Sound) : n.Owned := by
  rw [Owned]
  split
  · rename_i waits
    exact h.waiting waits.1 waits.2
  · rename_i idle
    exact h.idle (by simpa [← Bool.not_eq_true, or_iff_not_imp_left] using idle)

/-- In every state that is reached without a transaction being taken from its owner, the owners are
in order, and all that was ever sent are replies and requests of the client. -/
theorem owned_of_kept {num : Nat} (h : ReachableBy P num (Kept P) n) :
    n.Owned ∧ ∀ x ∈ n.sent, Spoken x :=
  ⟨h.sound.owned, h.sound.spoken⟩

def agentFor (method : Text) : Text :=
  chars "\x7b\"NAME\":\"x\",\"PRE\":\"1\",\"TARGET\":[\"".toList ++ method ++
    chars "[a:0:0:0:0:0:0:1]:1/L/y\"],\"POST\":[\"1\"]\x7d".toList

def agentDatagram (method : Text) (num : Nat) (more : Bool) : Incoming :=
  carrying ((CoapPacket.build .con 3 0 [.uriPath (chars ['A', '/', 'x']),
    .block1 (UInt32.ofNat num) more 64,
    .payload (((agentFor method).drop (64 * num)).take 64)]).serialize.getD [])

def asking (method : Text) : List NodeEvent :=
  [.datagram (agentDatagram method 0 true) [], .datagram (agentDatagram method 1 false) []] ++
    List.replicate 12 .client ++ [.begin 10]

def put : Text := chars ['P', 'U', 'T']

theorem asking_run : ∃ n : Node, ReachableBy .plain 1 (Kept .plain) n ∧
    n.requestState.active = true ∧ n.requestState.polled = false ∧
    n.transaction = n.requestState.transaction ∧ n.hung = false ∧
    n.transactions.list = [0] ∧ (n.transactions.cell 0).running = true := by
  obtain ⟨n, run, hn⟩ := Runs.of_follow (Node.step .plain) (Kept .plain)
    (fun n => n.requestState.active ∧ n.requestState.polled = false ∧
      n.transaction = n.requestState.transaction ∧ n.hung = false ∧
      n.transactions.list = [0] ∧ (n.transactions.cell 0).running = true)
    (asking put) (.init .plain 1 (fun _ => none) .bare 0) (by decide +kernel)
  simp only [decide_eq_true_eq] at hn
  exact ⟨n, ⟨_, _, _, run⟩, hn⟩

theorem owned_of_kept_asking : ∃ n : Node, n.requestState.active = true ∧ n.Owned ∧
    ∀ x ∈ n.sent, Spoken x := by
  obtain ⟨n, reached, active, -⟩ := asking_run
  exact ⟨n, active, owned_of_kept reached⟩

theorem Sound.robbed (h : n.Sound) (back : (n.coapReceive P d buffer).hung = false)
    (robs : n.robs P (.datagram d buffer) = true) :
    ¬(n.coapReceive P d buffer).Owned := by
  rw [Node.robs] at robs
  cases parsed : d.memory.parseMessage d.dataLen with
  | error status =>
    rw [parsed] at robs
    obtain ⟨i, member, pointer⟩ := List.any_eq_true.mp robs
    obtain ⟨⟨active, silent⟩, -, list, -⟩ := h.of_mem member
    have gone : (n.refuse d status d.memory.header.mid).transactions.list = [] := by
      rw [refuse, of_decide_eq_true pointer]
      exact (congrArg (List.erase · i) list).trans (List.erase_cons_head ..)
    rw [coapReceive_error parsed, Owned, if_pos ⟨active, silent⟩, gone]
    rintro ⟨j, -, list, -⟩
    cases list
  | ok made =>
    obtain ⟨m, p⟩ := made
    rw [parsed] at robs
    cases code : Method.ofCode p.code with
    | none =>
      simp only [code] at robs
      exact absurd robs Bool.false_ne_true
    | some method =>
      simp only [code, Bool.and_eq_true, Bool.not_eq_true', decide_eq_false_iff_not] at robs
      obtain ⟨refused, older⟩ := robs
      obtain ⟨room, unserved⟩ := Classical.not_imp.mp refused
      rw [coapReceive_request parsed code] at back
      have returns := serve_returns (by exact room) back
      obtain ⟨⟨j, transactions⟩, new⟩ := Option.isSome_iff_exists.mp room
      obtain ⟨i, found⟩ := Option.isSome_iff_exists.mp older
      obtain ⟨⟨active, silent⟩, transaction, list, -⟩ :=
        h.of_mem (List.mem_of_find?_eq_some found)
      obtain ⟨-, -, requestState, left, -⟩ := serve_cancelled (n := n.heard (p.map (·.text m)))
        new returns (Bool.eq_true_of_not_eq_false fun kept => unserved ⟨returns, kept⟩)
      have found' : (n.heard (p.map (·.text m))).transactions.getTransactionByMid
          (p.map (·.text m)).mid = some i := found
      have list' : (n.heard (p.map (·.text m))).transactions.list = [i] := list
      have fresh := (Roster.take_spec new).1
      rw [found', list', Option.getD_some, List.singleton_append, List.erase_cons_head] at left
      rw [coapReceive_request parsed code, Owned, requestState, if_pos ⟨active, silent⟩, left]
      rintro ⟨k, transaction', list', -⟩
      obtain rfl := Option.some.inj (transaction.symm.trans transaction')
      obtain rfl := List.singleton_inj.mp list'
      exact fresh (list ▸ List.mem_singleton_self _)

/-- A step leaves the owners in order exactly when it takes no transaction from them. -/
theorem owned_step_iff {num : Nat} {e : NodeEvent} (h : ReachableBy P num (Kept P) n)
    (step : n.step P e = some n') : n'.Owned ↔ Kept P n e := by
  refine ⟨fun owned => ?_, fun kept => (h.sound.step kept step).owned⟩
  by_contra robs
  have robs : n.robs P e = true := Bool.eq_true_of_not_eq_false robs
  cases e with
  | datagram d buffer =>
    obtain ⟨-, back, rfl⟩ := step_datagram step
    exact h.sound.robbed back robs owned
  | _ => exact absurd robs Bool.false_ne_true

/-- What cannot be read, while the static pointer is at the transaction -/
theorem owned_step_iff_unread : ∃ n n' : Node, n.step .plain (.datagram (carrying []) []) = some n' ∧
    (n'.Owned ↔ Kept .plain n (.datagram (carrying []) [])) := by
  obtain ⟨n, reached, active, -, -, calm, -⟩ := asking_run
  have step := step_of_active (P := .plain) reached.sound.waits active calm (carrying []) []
    ((coapReceive_error_hung rfl).trans calm)
  exact ⟨n, _, step, owned_step_iff reached step⟩

/-! ### Without a transaction -/

structure Forsaken (n : Node) : Prop where
  active : n.requestState.active = true
  silent : n.requestState.polled = false
  blocked : n.system.client.pc = .blocked
  none : n.transactions.list = []

theorem coapReceive_leaves (none' : n.transactions.list = []) {d : Incoming} {buffer : Text}
    (back : (n.coapReceive P d buffer).hung = false) : n.Leaves (n.coapReceive P d buffer) := by
  have missing : ∀ mid, n.transactions.getTransactionByMid mid = none := by
    intro mid
    rw [Transactions.getTransactionByMid, Roster.find?, none', List.find?_nil]
  cases parsed : d.memory.parseMessage d.dataLen with
  | error status =>
    rw [coapReceive_error parsed]
    exact refuse_leaves (fun i member => absurd (none' ▸ member) List.not_mem_nil) _ _
  | ok made =>
    obtain ⟨m, p⟩ := made
    cases code : Method.ofCode p.code with
    | none =>
      have missing' : (n.heard (p.map (·.text m))).transactions.getTransactionByMid p.mid = none :=
        missing p.mid
      rw [coapReceive_answer parsed code, answer, missing']
      exact ⟨rfl, fun _ _ => rfl, rfl⟩
    | some method =>
      rw [coapReceive_request parsed code] at back ⊢
      have leaves := serve_leaves back (.inr (missing (p.map (·.text m)).mid))
      exact ⟨leaves.list, leaves.cells, leaves.requestState⟩

theorem Forsaken.step (h : n.Forsaken) {e : NodeEvent} (step : n.step P e = some n') :
    n'.Forsaken ∧ n'.system.client = n.system.client := by
  have active := h.active
  have silent := h.silent
  obtain ⟨-, ⟨d, buffer, rfl, -, back, rfl⟩ | ⟨i, -, -, rfl⟩ | ⟨-, rfl⟩ | ⟨interval, -, -, idle, rfl⟩ |
    ⟨interval, -, polled, rfl⟩ | ⟨own, which, moved⟩⟩ := step_cases step
  · have leaves := coapReceive_leaves h.none back
    have client := coapReceive_client (n := n) (P := P) d buffer
    refine ⟨⟨?_, ?_, ?_, leaves.list.trans h.none⟩, client⟩
    · rw [leaves.requestState]
      exact active
    · rw [leaves.requestState]
      exact silent
    · rw [client]
      exact h.blocked
  · exact ⟨⟨active, silent, h.blocked, h.none⟩, rfl⟩
  · rw [retransmit_running fun i member => absurd (h.none ▸ member) List.not_mem_nil]
    exact ⟨h, rfl⟩
  · exact absurd (idle.symm.trans active) Bool.false_ne_true
  · exact absurd (silent.symm.trans polled) Bool.false_ne_true
  · have client := own_client which h.blocked moved
    refine ⟨⟨?_, ?_, ?_, ?_⟩, client⟩
    · rw [(own_eq moved).2]
      exact active
    · rw [(own_eq moved).2]
      exact silent
    · rw [client]
      exact h.blocked
    · rw [(own_eq moved).2]
      exact h.none

/-- A datagram that cannot be read ends the request of the client when the static pointer is at its
transaction: whatever happens then, the client does not move any more. -/
theorem forsaken {num : Nat} {n₁ n₂ : Node} {status : CoapStatus}
    {ok : Node → NodeEvent → Prop} (h : ReachableBy P num (Kept P) n)
    (active : n.requestState.active = true) (silent : n.requestState.polled = false)
    (stale : n.transaction = n.requestState.transaction)
    (unread : d.memory.parseMessage d.dataLen = .error status) {buffer : Text}
    (step : n.step P (.datagram d buffer) = some n₁) (run : Runs (Node.step P) ok n₁ n₂) :
    n₂.system.client = n.system.client ∧ n₂.system.client.pc = .blocked := by
  obtain ⟨i, transaction, list, -⟩ := h.sound.waiting active silent
  obtain ⟨-, -, rfl⟩ := step_datagram step
  rw [coapReceive_error unread] at run
  have start : (n.refuse d status d.memory.header.mid).Forsaken := by
    refine ⟨active, silent, h.sound.waits active, ?_⟩
    rw [refuse, stale, transaction]
    exact (congrArg (List.erase · i) list).trans (List.erase_cons_head ..)
  have kept := run.keeps (I := fun m => m.Forsaken ∧ m.system.client = n.system.client)
    (fun _ _ _ _ step inv => ⟨(inv.1.step step).1, (inv.1.step step).2.trans inv.2⟩) ⟨start, rfl⟩
  exact ⟨kept.2, kept.1.blocked⟩

/-- The node has served the requests that wrote its agent, and now it gets an empty datagram. -/
theorem forsaken_asking : ∃ n n₁ : Node, ReachableBy .plain 1 (Kept .plain) n ∧
    n.step .plain (.datagram (carrying []) []) = some n₁ ∧
    ∀ n₂, Runs (Node.step .plain) (fun _ _ => True) n₁ n₂ →
      n₂.system.client = n.system.client ∧ n₂.system.client.pc = .blocked := by
  obtain ⟨n, reached, active, silent, stale, calm, -⟩ := asking_run
  have step := step_of_active (P := .plain) reached.sound.waits active calm (carrying []) []
    ((coapReceive_error_hung rfl).trans calm)
  have unread : (carrying []).memory.parseMessage (carrying []).dataLen = .error .badRequest := rfl
  exact ⟨n, _, reached, step, fun n₂ run => forsaken reached active silent stale unread step run⟩

end Node
end EmmaNode

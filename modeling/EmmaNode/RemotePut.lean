import EmmaNode.RemoteDelete
import EmmaNode.TornAgents

/-! An agent that is sent over the network. Datagrams with its blocks may be lost, repeated or come
in any order; a success that is read in a reply to the last block means that the agent is there. -/

namespace EmmaNode

namespace State
variable {P : Platform} {s : State} {rq : Request} {uri : Text}

theorem handleBlock_reply (u : State) {r : Reply} (status : r.status = none)
    (untaken : ¬(¬u.lost rq.blockNum ∧ u.locked ≠ 0 ∧ u.opened ≠ 0 ∧
      rq.blockNum.toUInt64 ≠ u.count)) :
    (u.handleBlock P rq uri r).2.dropped = true ∨
      (u.handleBlock P rq uri r).2.status = none ∧ u.locked ≠ 0 ∧
        rq.blockNum.toUInt64 = u.count := by
  unfold handleBlock
  split_ifs with near locked opened known
  · exact .inl rfl
  · exact .inr ⟨status, locked, known⟩
  · exact absurd ⟨near, locked, opened, known⟩ untaken
  · exact .inl rfl
  · exact .inl rfl

theorem handlePut_reply (so : s.Sound) (put : rq.method = .put) :
    (s.handlePut P rq uri (.init rq)).2.dropped = true ∨
      (s.handlePut P rq uri (.init rq)).2.status = some .badRequest ∨
      (s.handlePut P rq uri (.init rq)).2.success ∨
      (s.handlePut P rq uri (.init rq)).2.status = none ∧ rq.payload ≠ [] ∧ s.locked ≠ 0 ∧
        rq.blockNum.toUInt64 = s.count := by
  have fresh : ¬(rq.method = .post ∧ s.store.emmaResourceExists uri ∧ s.locked = 0) := by simp [put]
  by_cases empty : rq.payload = []
  · simp only [handlePut, if_neg fresh, if_pos empty]
    exact .inr (.inl rfl)
  by_cases taken : s.Taken P rq uri
  · have other : ¬(rq.method = .post ∧ ¬rq.more = true) := by simp [put]
    have status := @takeBlock_status P (s.atWrite P rq uri) rq uri ((Reply.init rq).setBlock1 rq)
    rw [if_neg other] at status
    rw [handlePut_taken taken]
    by_cases full : (s.atWrite P rq uri).full P rq uri
    · rw [if_pos full] at status
      exact .inr (.inr (.inl (.inl status)))
    · rw [if_neg full] at status
      exact .inr (.inl status)
  · simp only [Taken, fresh, empty, not_false_eq_true, true_and, ne_eq] at taken
    simp only [handlePut, if_neg fresh, if_neg empty]
    by_cases first : rq.blockNum = 0
    · rw [if_pos first]
      by_cases free : s.locked = 0
      · rw [if_neg (not_not.mpr free)]
        rcases @handleBlock_reply P rq uri (s.startTransfer P uri)
          ((Reply.init rq).setBlock1 rq) rfl
          (fun h => taken ⟨fun _ => free, by simpa [atWrite, first] using h⟩) with
          dropped | ⟨-, -, known⟩
        · exact .inl dropped
        · rw [first, (startTransfer_cases (P := P) so free uri).1] at known
          exact absurd known (by decide)
      · rw [if_pos free]
        exact .inl rfl
    · rw [if_neg first]
      rcases @handleBlock_reply P rq uri s ((Reply.init rq).setBlock1 rq) rfl
        (fun h => taken ⟨fun e => absurd e first, by simpa [atWrite, first] using h⟩) with
        dropped | ⟨status, locked, known⟩
      · exact .inl dropped
      · exact .inr (.inr (.inr ⟨status, empty, locked, known⟩))

end State

namespace Transfer
variable {P : Platform} {t : Transfer} {s : State} {rq : Request} {j : Nat}

/-- While a transfer is in progress, the last block is only known if it is empty. -/
def Ends (t : Transfer) (s : State) : Prop :=
  s.locked ≠ 0 → s.count.toNat = t.last → t.text.length ≤ t.last * t.size

theorem Ends.deliver (ends : t.Ends s) (so : s.Sound) (b : t.Block j rq) (hj : j ≤ t.last)
    (positive : 0 < t.size) : t.Ends (s.emmaServerHandler P rq).1 := by
  rw [b.handler]
  have num : rq.blockNum.toUInt64.toNat = j := by rw [UInt32.toNat_toUInt64, b.num]
  by_cases empty : rq.payload = []
  · have last := b.eq_last hj positive empty
    have length := congrArg List.length (b.payload.symm.trans empty)
    rw [last, List.length_take, List.length_drop, List.length_nil] at length
    exact fun _ _ => by omega
  by_cases taken : s.Taken P rq t.uri
  · rw [State.handlePut_taken taken]
    intro locked count
    exfalso
    by_cases full : (s.atWrite P rq t.uri).full P rq t.uri
    · by_cases more : rq.more = true
      · simp only [State.takeBlock, State.writeBlock_eq, if_pos full, if_pos more, State.finish]
          at count
        have before : j < t.last := of_decide_eq_true (b.more.symm.trans more)
        omega
      · simp only [State.takeBlock, State.writeBlock_eq, if_pos full, if_neg more, State.finish]
          at locked
        exact locked rfl
    · by_cases more : rq.more = true
      · simp only [State.takeBlock, State.writeBlock_eq, if_neg full, if_pos more, State.finish]
          at locked
        exact locked rfl
      · simp only [State.takeBlock, State.writeBlock_eq, if_neg full, if_neg more, State.finish]
          at locked
        exact locked rfl
  · rcases State.handlePut_untaken so b.put empty taken (.init rq) with free | same
    · exact fun locked => absurd free locked
    · rw [same]
      exact ends

theorem Ends.success (ends : t.Ends s) (so : s.Sound) (b : t.Block t.last rq)
    (kept : (s.emmaServerHandler P rq).2.dropped = false)
    (fine : (s.emmaServerHandler P rq).2.status ≠ some .badRequest) :
    (s.emmaServerHandler P rq).2.success := by
  rw [b.handler] at kept fine ⊢
  rcases @State.handlePut_reply P s rq t.uri so b.put with dropped | bad | success |
    ⟨-, filled, locked, known⟩
  · rw [kept] at dropped
    cases dropped
  · exact absurd bad fine
  · exact success
  · have count : s.count.toNat = t.last := by rw [← known, UInt32.toNat_toUInt64, b.num]
    have length := ends locked count
    rw [b.payload, List.drop_eq_nil_of_le length, List.take_nil] at filled
    exact absurd rfl filled

/-- The invariant of a transfer -/
structure Kept (P : Platform) (t : Transfer) (s : State) : Prop where
  inv : t.Inv P s
  ends : t.Ends s

theorem Kept.deliver (cfs : P.Cfs) (h : t.Kept P s) (b : t.Block j rq) (hj : j ≤ t.last)
    (positive : 0 < t.size) : t.Kept P (s.emmaServerHandler P rq).1 :=
  ⟨h.inv.deliver cfs b hj positive, h.ends.deliver h.inv.sound b hj positive⟩

end Transfer

namespace Node
open CoapPacket
variable {P : Platform} {n : Node} {d : Incoming} {message : CoapPacket Text} {buffer : Text}

theorem concluded_good {response : CoapPacket Text} {newOffset : UInt32}
    (good : (concluded message response newOffset).code < badRequestCode) :
    (concluded message response newOffset).code = response.code ∧
      (concluded message response newOffset).mid = response.mid := by
  rw [concluded] at good ⊢
  cases made : message.blockwise response newOffset with
  | error status =>
    obtain rfl := blockwise_error made
    simp only [made] at good
    exact absurd good (by decide : ¬CoapStatus.notImplemented.code < badRequestCode)
  | ok p =>
    simp only [made] at good ⊢
    rcases blockwise_code made with same | bad
    · exact ⟨same, (blockwise_head made).1⟩
    · rw [bad] at good
      exact absurd good (by decide)

theorem respond_code (r : Reply) (p : CoapPacket Text) :
    (r.respond P buffer p).code = (r.status.map Status.code).getD p.code := by
  obtain ⟨status, dropped, block1, payload, offset⟩ := r
  have block : ∀ (p : CoapPacket Text) num more size,
      (p.setHeaderBlock1 num more size).code = p.code := by
    intro p num more size
    rw [setHeaderBlock1]
    split <;> rfl
  cases status <;> cases dropped <;> cases payload <;> cases block1 <;>
    simp [Reply.respond, setStatusCode, block]

theorem told_good {method : Method} (confirmable : message.type = .con)
    (other : message.url ≠ wellKnownCore) (valid : message.mid ≠ 0xFFFF) {y : Datagram}
    (sent : (n.serve P d message method buffer).sent = n.sent ++ [y]) {p : CoapPacket Text}
    (tells : y.Tells p) (same : p.mid = message.mid) (good : p.code < badRequestCode) :
    (n.transactions.newTransaction message.mid d.address d.port).isSome = true ∧
      (n.system.shared.emmaServerHandler P (message.request method)).2.dropped = false ∧
      (n.system.shared.emmaServerHandler P (message.request method)).2.status ≠
        some .badRequest := by
  have read : ∀ q : CoapPacket Text, q.IsReply → n.Sends d q (n.serve P d message method buffer) →
      p.code = q.code ∧ p.mid = q.mid := by
    intro q reply sends
    rw [reply.told (sends.written sent) tells]
    exact ⟨rfl, rfl⟩
  cases new : n.transactions.newTransaction message.mid d.address d.port with
  | none =>
    rw [serve_full new] at read
    obtain ⟨code, -⟩ := read _ (errorMessage_isReply .serviceUnavailable message.mid)
      (refuse_sends _ _)
    rw [code] at good
    exact absurd good (by decide : ¬CoapStatus.serviceUnavailable.code < badRequestCode)
  | some found =>
    refine ⟨rfl, ?_⟩
    by_cases hangs : ¬n.Returns P message method buffer
    · have silent := (serve_hung (d := d) (by rw [new]; rfl) hangs).1.symm.trans sent
      simp at silent
    have returns := not_not.mp hangs
    cases dropped : cancelled P (n.response P message method buffer) with
    | true =>
      have silent := (serve_cancelled (d := d) new returns dropped).1.symm.trans sent
      simp at silent
    | false =>
      obtain ⟨code, mid⟩ := read (n.reply P message method buffer)
        (concluded_spec (response_isReply message method buffer)).1 (serve_kept new returns dropped).2.2
      rw [code] at good
      obtain ⟨code', mid'⟩ := concluded_good good
      have start := (prepare_head (n := n) confirmable).1
      have response := @response_other P n message method buffer other
      have head := (respond_head P (n.system.shared.emmaServerHandler P
        (message.request method)).2 buffer (n.prepare message)).1
      have whole : (n.reply P message method buffer).mid = if (n.system.shared.emmaServerHandler P
          (message.request method)).2.dropped then 0xFFFF else message.mid :=
        mid'.trans ((congrArg CoapPacket.mid response).trans (head.trans (by rw [start])))
      rw [whole] at mid
      constructor
      · by_contra drop
        rw [if_pos (Bool.eq_true_of_not_eq_false drop)] at mid
        exact valid (same.symm.trans mid)
      · intro bad
        have failed : (n.reply P message method buffer).code = Status.badRequest.code :=
          code'.trans ((congrArg CoapPacket.code response).trans (by rw [respond_code, bad]; rfl))
        rw [failed] at good
        exact absurd good (by decide)

end Node

namespace Transfer
variable {P : Platform} {t : Transfer} {d : Incoming} {j : Nat} {mid : UInt16}

/-- A transfer in chunks, to an URI that comes through a message as it is -/
structure Plain (t : Transfer) : Prop where
  uri : PlainUri t.uri
  size : t.size = restMaxChunkSize

def request (t : Transfer) (j : Nat) : ClientRequest where
  method := .put
  uri := t.uri
  block1 := ⟨UInt32.ofNat j, decide (j < t.last), restMaxChunkSize.toUInt16⟩
  payload := (t.text.drop (j * t.size)).take t.size
  address := []
  port := 0

theorem Plain.num_lt (plain : t.Plain) (hj : j ≤ t.last) : j < 1024 := by
  have inside := Nat.le_trans (Nat.mul_le_mul_right t.size hj) t.full
  have short := t.short
  have : t.size = 64 := plain.size
  rw [this] at inside
  omega

theorem Plain.fits (plain : t.Plain) (hj : j ≤ t.last) : (t.request j).Fits where
  method := (by decide : Method.put ≠ .get)
  uri := Nat.le_of_lt plain.uri.short
  payload := Nat.le_trans (List.length_take_le _ _) (Nat.le_of_eq plain.size)
  size := rfl
  num := by
    have small := plain.num_lt hj
    rw [UInt32.le_iff_toNat_le]
    change (UInt32.ofNat j).toNat ≤ 0xFFFFF
    rw [UInt32.toNat_ofNat', Nat.mod_eq_of_lt (by omega)]
    omega

theorem Plain.block (plain : t.Plain) (hj : j ≤ t.last) : t.Block j ((t.request j).received 0) where
  uri := by
    have named : t.uri ≠ [] := by
      intro empty
      have agent := t.agent
      rw [empty] at agent
      cases agent
    rw [Request.uri]
    change (if t.uri ≠ [] ∧ t.uri.length < emmaMaxUriSize then some (cString t.uri) else none) = _
    rw [if_pos ⟨named, plain.uri.short⟩, plain.uri.cString]
  put := rfl
  num := by
    have small := plain.num_lt hj
    change (UInt32.ofNat j).toNat = j
    rw [UInt32.toNat_ofNat', Nat.mod_eq_of_lt (by omega)]
  more := rfl
  size := fun _ => plain.size.symm
  payload := by
    change ((t.text.drop (j * t.size)).take t.size).take restMaxChunkSize = _
    rw [← plain.size, List.take_take, Nat.min_self]

/-- A datagram with a block of the transfer -/
def Carried (t : Transfer) (d : Incoming) (j : Nat) (mid : UInt16) : Prop :=
  ∃ bytes, (Node.requestMessage (t.request j) 0 mid).serialize = some bytes ∧ d.Carries bytes

/-- A datagram with a block comes in, or something happens that leaves the resources and the
transfer alone. -/
def Turn (P : Platform) (t : Transfer) (n : Node) (e : NodeEvent) : Prop :=
  (∃ d buffer j mid, e = .datagram d buffer ∧ j ≤ t.last ∧ t.Carried d j mid) ∨
    ∀ n', n.step P e = some n' → n.system.shared.Spares n'.system.shared

theorem Plain.parsed (plain : t.Plain) (hj : j ≤ t.last) (carried : t.Carried d j mid) :
    ∃ (m : Memory) (p : CoapPacket Slice), d.memory.parseMessage d.dataLen = .ok (m, p) ∧
      Method.ofCode p.code = some .put ∧ p.type = .con ∧ p.mid = mid ∧
      (p.map (·.text m)).request .put = (t.request j).received 0 ∧
      (p.map (·.text m)).url ≠ Node.wellKnownCore := by
  obtain ⟨bytes, written, carries⟩ := carried
  obtain ⟨m, p, parsed, code, type, mid, read⟩ := Node.requestMessage_parsed (plain.fits hj)
    plain.uri.clean plain.uri.few (by decide) written carries.holds
  have url : (p.map (·.text m)).url = t.uri := congrArg Request.url read
  refine ⟨m, p, carries.length ▸ parsed, code, type, mid, read, ?_⟩
  rw [url]
  intro core
  have agent := t.agent
  rw [core] at agent
  cases agent

theorem Plain.coapReceive (plain : t.Plain) (hj : j ≤ t.last) (carried : t.Carried d j mid)
    (n : Node) (buffer : Text) :
    (n.coapReceive P d buffer).system.shared =
      if (n.transactions.newTransaction mid d.address d.port).isSome then
        (n.system.shared.emmaServerHandler P ((t.request j).received 0)).1
      else n.system.shared := by
  obtain ⟨m, p, parsed, code, -, rfl, read, away⟩ := plain.parsed hj carried
  rw [Node.coapReceive_request parsed code, Node.serve_system (.inr away), read]
  by_cases room : (n.transactions.newTransaction p.mid d.address d.port).isSome
  · rw [if_pos room]
    exact congrArg System.shared (if_pos ⟨room, away⟩)
  · rw [if_neg room]
    exact congrArg System.shared (if_neg fun both => room both.1)

theorem Kept.spared {s' : State} {s : State} (kept : t.Kept P s) (spares : s.Spares s')
    (so : s'.Sound) : t.Kept P s' where
  inv := kept.inv.spared spares so
  ends := by
    rw [Ends, spares.locked, spares.count]
    exact kept.ends

theorem Kept.step (cfs : P.Cfs) (plain : t.Plain) {n n' : Node} {e : NodeEvent}
    (kept : t.Kept P n.system.shared) (so : n'.system.shared.Sound) (turn : t.Turn P n e)
    (step : n.step P e = some n') : t.Kept P n'.system.shared := by
  rcases turn with ⟨d, buffer, j, mid, rfl, hj, carried⟩ | quiet
  · obtain ⟨-, -, rfl⟩ := Node.step_datagram step
    rw [plain.coapReceive hj carried]
    split
    · exact kept.deliver cfs (plain.block hj) hj (by rw [plain.size]; decide)
    · exact kept
  · exact kept.spared (quiet n' step) so

/-- When a success is read in the reply to the last block, the other node has the whole agent,
whatever became of the datagrams with the blocks before. -/
theorem told_stored {num : Nat} {ok : Node → NodeEvent → Prop} {n₀ n : Node} {buffer : Text}
    (cfs : P.Cfs) (plain : t.Plain) (reached : Node.ReachableBy P num ok n₀)
    (idle : n₀.system.shared.locked = 0) (run : Runs (Node.step P) (t.Turn P) n₀ n)
    (carried : t.Carried d t.last mid) (valid : mid ≠ 0xFFFF) {y : Datagram}
    (sent : (n.coapReceive P d buffer).sent = n.sent ++ [y]) {p : CoapPacket Text}
    (tells : y.Tells p) (same : p.mid = mid) (told : Node.success p = true) :
    t.Stored P (n.coapReceive P d buffer).system.shared := by
  have start : t.Kept P n₀.system.shared :=
    ⟨⟨reached.system_run.2.sound, .inl idle⟩, fun locked => absurd idle locked⟩
  have kept : t.Kept P n.system.shared := by
    refine (run.keeps (I := fun n => (n.Waits ∧ System.Reachable P n.system) ∧
      t.Kept P n.system.shared) (fun n e n' turn step inv => ?_) ⟨reached.system_run, start⟩).2
    obtain ⟨⟨waits, files, env, before⟩, kept⟩ := inv
    have reached : System.Reachable P n'.system :=
      ⟨files, env, before.trans (Node.step_system waits step)⟩
    exact ⟨⟨waits.step step, reached⟩, Kept.step cfs plain kept reached.sound turn step⟩
  have good : p.code < badRequestCode := by
    by_contra bad
    rw [Node.success_eq_false p (UInt8.not_lt.mp bad)] at told
    cases told
  have block := plain.block (Nat.le_refl t.last)
  rw [plain.coapReceive (Nat.le_refl _) carried]
  obtain ⟨m, q, parsed, code, type, rfl, read, away⟩ := plain.parsed (Nat.le_refl _) carried
  rw [Node.coapReceive_request parsed code] at sent
  obtain ⟨room, answered, fine⟩ := Node.told_good type away valid sent tells same good
  rw [read] at answered fine
  have room' : (n.transactions.newTransaction q.mid d.address d.port).isSome = true := room
  rw [if_pos room']
  exact kept.inv.stored cfs block (kept.ends.success kept.inv.sound block answered fine)

theorem agentUri_root : emmaGetRoot (chars ['A', '/', 'x']) = some .agent := by decide

def agentBlocks : Transfer where
  uri := chars ['A', '/', 'x']
  text := Node.agentFor Node.put
  size := 64
  last := 1
  agent := agentUri_root
  short := by decide
  full := by decide
  whole := by decide

def agentBlock (j : Nat) : Incoming :=
  Node.carrying ((Node.requestMessage (agentBlocks.request j) 0 7).serialize.getD [])

theorem agentBlocks_plain : agentBlocks.Plain where
  uri := agentUri_plain
  size := rfl

theorem agentBlock_carried (hj : j ≤ 1) : agentBlocks.Carried (agentBlock j) j 7 := by
  obtain ⟨bytes, written⟩ := Node.requestMessage_serialize 0 7 (agentBlocks_plain.fits hj)
  have sent : agentBlock j = Node.carrying bytes := by
    rw [agentBlock, written]
    rfl
  exact ⟨bytes, written, sent ▸ Node.carrying_carries bytes⟩

def afterBlocks (blocks : List Nat) : Node :=
  blocks.foldl (fun n j => n.coapReceive .plain (agentBlock j) [])
    (.init .plain 1 (fun _ => none) .bare 0)

theorem afterBlocks_append (blocks : List Nat) (j : Nat) : afterBlocks (blocks ++ [j]) =
    (afterBlocks blocks).coapReceive .plain (agentBlock j) [] := by
  rw [afterBlocks, List.foldl_append]
  rfl

theorem afterBlocks_run {blocks : List Nat} {j : Nat} (hj : j ≤ 1)
    (run : Runs (Node.step .plain) (agentBlocks.Turn .plain) (afterBlocks []) (afterBlocks blocks))
    (ready : (afterBlocks blocks).ready = true ∧ (afterBlocks blocks).hung = false ∧
      (afterBlocks (blocks ++ [j])).hung = false) :
    Runs (Node.step .plain) (agentBlocks.Turn .plain) (afterBlocks [])
      (afterBlocks (blocks ++ [j])) := by
  rw [afterBlocks_append] at ready ⊢
  refine run.tail (e := .datagram (agentBlock j) [])
    (.inl ⟨_, _, j, 7, rfl, hj, agentBlock_carried hj⟩) ?_
  rw [Node.step, if_neg (Bool.eq_false_iff.mp ready.2.1)]
  exact if_pos (Bool.and_eq_true_iff.mpr ⟨ready.1, by rw [ready.2.2]; rfl⟩)

def late (n : Node) : Node :=
  { n with system := n.system.mapShared fun s => { s with env := lateEnv } }

theorem late_run {n n' : Node} (run : Runs (Node.step .plain) (agentBlocks.Turn .plain) n n')
    (calm : n'.hung = false) : Runs (Node.step .plain) (agentBlocks.Turn .plain) n (late n') := by
  have step : n'.step .plain (.environment lateEnv) = some (late n') := by
    have calm' : n'.system.shared.reader.iter.stuck = false := calm
    rw [Node.step, if_neg (Bool.eq_false_iff.mp calm)]
    simp only [Node.own]
    rw [System.step, calm']
    rfl
  refine run.tail (.inr fun n'' step' => ?_) step
  obtain rfl := Option.some.inj (step.symm.trans step')
  exact ⟨.refl _, rfl, rfl⟩

/-- The last block comes too early, the first one twice, then five seconds later the last one
again. -/
theorem told_stored_two : agentBlocks.Stored .plain
    ((late (afterBlocks [1, 0, 0])).coapReceive .plain (agentBlock 1) []).system.shared := by
  have run := late_run (afterBlocks_run (j := 0) (by decide) (afterBlocks_run (j := 0) (by decide)
    (afterBlocks_run (j := 1) (by decide) .refl (by decide +kernel)) (by decide +kernel))
    (by decide +kernel)) (by decide +kernel)
  obtain ⟨y, sent, answer⟩ : ∃ y : Datagram,
      ((late (afterBlocks [1, 0, 0])).coapReceive .plain (agentBlock 1) []).sent =
        (late (afterBlocks [1, 0, 0])).sent ++ [y] ∧
        ((Node.carrying y.bytes).memory.parseMessage (Node.carrying y.bytes).dataLen).toOption.any
          (fun made => decide (made.2.mid = 7) && Node.success (made.2.map (·.text made.1))) :=
    ⟨((late (afterBlocks [1, 0, 0])).coapReceive .plain (agentBlock 1) []).sent.getLast
      (by decide +kernel), by decide +kernel, by decide +kernel⟩
  have reached : Node.ReachableBy .plain 1 (fun _ _ => True) (afterBlocks []) := ⟨_, _, _, .refl⟩
  have idle : (afterBlocks []).system.shared.locked = 0 := by decide +kernel
  cases parsed : (Node.carrying y.bytes).memory.parseMessage (Node.carrying y.bytes).dataLen with
  | error status =>
    rw [parsed] at answer
    cases answer
  | ok made =>
    rw [parsed] at answer
    obtain ⟨same, told⟩ := Bool.and_eq_true_iff.mp answer
    exact told_stored Platform.plain_cfs agentBlocks_plain reached idle run
      (agentBlock_carried (Nat.le_refl 1)) (by decide) sent
      ⟨_, made, Node.carrying_carries _, parsed, rfl⟩ (of_decide_eq_true same) told

end Transfer
end EmmaNode

import EmmaNode.Exchange

/-! A request of the client always has a Block1 option, and the handler of the server answers it
for PUT and POST only: a resource that is deleted by a request is reported as one that is not. -/

namespace EmmaNode
namespace Node
open CoapPacket
variable {P : Platform} {n n' : Node} {d : Incoming} {message : CoapPacket Text} {buffer : Text}

theorem blockwise_code {message p q : CoapPacket Text} {newOffset : UInt32}
    (made : message.blockwise p newOffset = .ok q) :
    q.code = p.code ∨ q.code = Status.badOption.code := by
  have block2 : ∀ (p : CoapPacket Text) num more size,
      (p.setHeaderBlock2 num more size).code = p.code := by
    intro p num more size
    rw [setHeaderBlock2]
    split <;> rfl
  simp only [CoapPacket.blockwise] at made
  split at made
  · cases made
  split at made
  · split at made
    · split at made
      all_goals
        obtain rfl := Except.ok.inj made
      · exact .inr rfl
      · exact .inl (block2 p _ _ _)
    · obtain rfl := Except.ok.inj made
      split
      · exact .inl (block2 p _ _ _)
      · exact .inl (block2 p _ _ _)
  · split at made
    all_goals
      obtain rfl := Except.ok.inj made
    · exact .inl (block2 p _ _ _)
    · exact .inl rfl

theorem blockwise_error {message p : CoapPacket Text} {newOffset : UInt32} {status : CoapStatus}
    (refused : message.blockwise p newOffset = .error status) : status = .notImplemented := by
  simp only [CoapPacket.blockwise] at refused
  split at refused
  · exact (Except.error.inj refused).symm
  · split at refused
    · split at refused
      · split at refused <;> cases refused
      · cases refused
    · split at refused <;> cases refused

theorem concluded_fails {response : CoapPacket Text} {newOffset : UInt32}
    (asked : message.isOption .block1 = true) (silent : response.isOption .block1 = false) :
    badRequestCode ≤ (concluded message response newOffset).code := by
  rw [concluded]
  cases made : message.blockwise response newOffset with
  | error status =>
    obtain rfl := blockwise_error made
    exact (by decide : badRequestCode ≤ CoapStatus.notImplemented.code)
  | ok p =>
    have bad : badRequestCode ≤ response.code := by
      by_contra good
      have refused : message.blockwise response newOffset = .error .notImplemented := by
        rw [CoapPacket.blockwise]
        exact if_pos ⟨asked, UInt8.not_le.mp good, by rw [silent]; exact Bool.false_ne_true⟩
      cases refused.symm.trans made
    rcases blockwise_code made with same | option
    · exact same ▸ bad
    · rw [option]
      decide

theorem success_eq_false (p : CoapPacket Text) (bad : badRequestCode ≤ p.code) :
    success p = false := by
  have all : ∀ code < 256, 128 ≤ code → UInt8.ofNat code >>> 5 &&& 0x0F ≠ 2 := by
    decide +kernel
  have code := all p.code.toNat p.code.toNat_lt (UInt8.le_iff_toNat_le.mp bad)
  rw [UInt8.ofNat_toNat] at code
  exact decide_eq_false code

theorem respond_isOption {r : Reply} (silent : r.block1 = none) (p : CoapPacket Text) :
    (r.respond P buffer p).isOption = p.isOption := by
  obtain ⟨status, dropped, block1, payload, offset⟩ := r
  obtain rfl := silent
  cases status <;> cases dropped <;> cases payload <;> rfl

theorem handleDelete_block1 (s : State) (rq : Request) (delete : rq.method = .delete) :
    (s.emmaServerHandler P rq).2.block1 = none := by
  rw [State.emmaServerHandler]
  cases rq.uri with
  | none => rfl
  | some uri =>
    simp only [delete, State.handleDelete]
    split
    · split <;> rfl
    · rfl

theorem response_delete (message : CoapPacket Text) (buffer : Text) :
    (n.response P message .delete buffer).isOption .block1 = false := by
  have start : (n.prepare message).isOption .block1 = false := by
    rw [prepare]
    split <;> rfl
  rw [response, serviceCbk]
  by_cases core : message.url = wellKnownCore
  · rw [core, invoke_core (by decide)]
    exact start
  · rw [invoke_other core]
    have silent := handleDelete_block1 (P := P) n.system.shared (message.request .delete) rfl
    exact (congrFun (respond_isOption silent _) _).trans start

theorem serve_delete (asked : message.isOption .block1 = true) :
    (n.serve P d message .delete buffer).sent = n.sent ∨
      ∃ p : CoapPacket Text, p.IsReply ∧ badRequestCode ≤ p.code ∧
        n.Sends d p (n.serve P d message .delete buffer) := by
  cases new : n.transactions.newTransaction message.mid d.address d.port with
  | none =>
    rw [serve_full new]
    exact .inr ⟨_, errorMessage_isReply .serviceUnavailable message.mid,
      (by decide : badRequestCode ≤ CoapStatus.serviceUnavailable.code), refuse_sends _ _⟩
  | some found =>
    by_cases returns : n.Returns P message .delete buffer
    · cases dropped : cancelled P (n.response P message .delete buffer) with
      | true => exact .inl (serve_cancelled new returns dropped).1
      | false =>
        exact .inr ⟨_, (concluded_spec (response_isReply message .delete buffer)).1,
          concluded_fails asked (response_delete message buffer),
          (serve_kept new returns dropped).2.2⟩
    · exact .inl (serve_hung (by rw [new]; rfl) returns).1

theorem answer_message (mid : UInt16) : (n.answer mid).message = n.message := by
  simp only [answer]
  split
  · rfl
  · split <;> rfl

theorem reply_unsuccessful {p : CoapPacket Text} (reply : p.IsReply) (bad : badRequestCode ≤ p.code)
    {bytes : Text} (written : p.serialize = some bytes) (carries : d.Carries bytes) :
    success (n.coapReceive P d buffer).message = false := by
  obtain ⟨⟨m, q⟩, parsed, read⟩ := reply.read written carries
  have code : q.code = p.code := congrArg CoapPacket.code read
  rw [coapReceive_answer parsed (by rw [code, reply.code]), answer_message]
  refine success_eq_false _ ?_
  change badRequestCode ≤ q.code
  rw [code]
  exact bad

/-- The client's DELETE does to the other node what its handler does, and what comes back is never
a success, whether the resource is deleted or not. -/
theorem delete_unsuccessful {num : Nat} {P' : Platform} {m : Node} {i : Nat}
    {request : ClientRequest} (reached : ReachableBy P num (Kept P) n)
    (way : n.OnTheWay i request) (delete : request.method = .delete)
    (carries : d.Carries (n.transactions.cell i).datagram.bytes) :
    ((m.coapReceive P' d buffer).system =
      if (m.transactions.newTransaction (n.transactions.cell i).mid d.address d.port).isSome ∧
          request.uri ≠ wellKnownCore then
        { m.system with shared := (m.system.shared.emmaServerHandler P'
          (request.received n.requestState.blockNum)).1 }
      else m.system) ∧
    ∀ y : Datagram, (m.coapReceive P' d buffer).sent = m.sent ++ [y] →
      ∀ (n' : Node) (d' : Incoming) (buffer' : Text), d'.Carries y.bytes →
        success (n'.coapReceive P d' buffer').message = false := by
  refine ⟨way.served reached.sound carries, fun y sent n' d' buffer' carries' => ?_⟩
  obtain ⟨memory, p, parsed, code, -, -, read⟩ := way.parsed reached.sound carries
  have asked : (p.map (·.text memory)).isOption .block1 = true := by
    have block1 := congrArg Request.block1 read
    by_contra silent
    rw [CoapPacket.request, if_neg silent] at block1
    cases block1
  rw [delete] at code
  rw [coapReceive_request parsed code] at sent
  rcases @serve_delete P' (m.heard (p.map (·.text memory))) d (p.map (·.text memory)) buffer
    asked with silent | ⟨q, reply, bad, sends⟩
  · have none' := silent.symm.trans sent
    simp [heard] at none'
  · exact reply_unsuccessful reply bad (sends.written sent) carries'

def holder : Node :=
  (Node.init .plain 1 (fun _ => none) .bare 0).coapReceive .plain
    (carrying ((build .con 3 0 [.uriPath (chars ['L', '/', 'y']), .payload (chars ['1'])]).serialize.getD
      [])) []

def hasIt (n : Node) : Bool := n.system.shared.store.emmaResourceExists (chars ['L', '/', 'y'])

/-- The resource is deleted, and the client is told that it is not. -/
theorem delete_unsuccessful_asking : ∃ (n : Node) (y : Datagram), holder.hasIt = true ∧
    (holder.coapReceive .plain (carrying (n.transactions.cell 0).datagram.bytes) []).hasIt = false ∧
    (holder.coapReceive .plain (carrying (n.transactions.cell 0).datagram.bytes) []).sent =
      holder.sent ++ [y] ∧
    success (n.coapReceive .plain (carrying y.bytes) []).message = false := by
  obtain ⟨n, run, hn⟩ := Runs.of_follow (Node.step .plain) (Kept .plain)
    (fun n =>
      let after := holder.coapReceive .plain (carrying (n.transactions.cell 0).datagram.bytes) []
      n.transactions.list = [0] ∧ n.requestState.blockNum = 0 ∧ holder.hasIt = true ∧
      after.hasIt = false ∧ after.sent = holder.sent ++ [after.sent.getD 1 ⟨[], 0, []⟩] ∧
      n.system.client.request.any fun request =>
        request.uri = chars ['L', '/', 'y'] ∧ request.method.code = 4)
    (asking (chars ['D', 'E', 'L', 'E', 'T', 'E'])) (.init .plain 1 (fun _ => none) .bare 0)
    (by decide +kernel)
  simp only [decide_eq_true_eq] at hn
  obtain ⟨list, first, there, gone, sent, hn⟩ := hn
  obtain ⟨request, asked, hr⟩ := (Option.any_eq_true _ _).mp hn
  obtain ⟨uri, code⟩ := of_decide_eq_true hr
  have delete : request.method = .delete := by
    cases method : request.method with
    | delete => rfl
    | _ =>
      rw [method] at code
      exact absurd code (by decide)
  have way : n.OnTheWay 0 request := by
    refine ⟨?_, asked, ?_, ?_, ?_⟩
    · rw [list]
      exact List.mem_singleton_self 0
    · rw [uri]
      decide
    · rw [uri]
      decide
    · rw [first]
      decide
  refine ⟨n, _, there, gone, sent, ?_⟩
  exact (delete_unsuccessful ⟨_, _, _, run⟩ way delete (carrying_carries _)).2 _ sent n _ []
    (carrying_carries _)

end Node
end EmmaNode

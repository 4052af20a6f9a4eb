import EmmaNode.Delivery
import EmmaNode.Returning
import EmmaNode.Timeouts
import Mathlib.Data.List.Infix

/-! A request on its way to another node, and the reply on its way back. -/

namespace EmmaNode

/-- A path that is put together again as it was taken apart -/
structure CleanPath (path : Text) : Prop where
  front : ¬[slash] <+: path
  back : ¬[slash] <:+ path
  inside : ¬[slash, slash] <:+: path

instance (path : Text) : Decidable (CleanPath path) :=
  decidable_of_iff (¬[slash] <+: path ∧ ¬[slash] <:+ path ∧ ¬[slash, slash] <:+: path)
    ⟨fun h => ⟨h.1, h.2.1, h.2.2⟩, fun h => ⟨h.front, h.back, h.inside⟩⟩

/-- An URI that comes through a message as it is -/
structure PlainUri (uri : Text) : Prop where
  clean : CleanPath uri
  few : (split slash uri).length < 14
  short : uri.length < emmaMaxUriSize
  whole : ∀ c ∈ uri, c ≠ 0

theorem PlainUri.cString {uri : Text} (h : PlainUri uri) : cString uri = uri := by
  rw [EmmaNode.cString, List.takeWhile_eq_self_iff]
  intro c member
  simpa using h.whole c member

theorem agentUri_plain : PlainUri (chars ['A', '/', 'x']) :=
  ⟨by decide, by decide, by decide, by decide +kernel⟩

def ClientRequest.received (request : ClientRequest) (blockNum : UInt32) : Request where
  url := request.uri
  method := request.method
  block1 := some request.block1
  payload := request.payload.take restMaxChunkSize
  preferredSize := restMaxChunkSize
  offset := blockNum.toNat * restMaxChunkSize
  payload_le := Nat.le_trans (List.length_take_le ..) (by decide)

theorem BlockOption.received_chunk {b : BlockOption} (size : b.size = restMaxChunkSize.toUInt16) :
    b.received = { b with offset := b.num * 64 } := by
  have exponent : b.exponent = 2 := by
    rw [BlockOption.exponent, size]
    decide
  rw [BlockOption.received, exponent, show (16 <<< UInt16.ofNat 2 : UInt16) = 64 by decide]
  obtain ⟨num, more, size', offset⟩ := b
  obtain rfl := size
  rfl

theorem strip_clean {path : Text} (front : ¬[slash] <+: path) :
    CoapPacket.strip slash path = path := by
  cases path with
  | nil => rfl
  | cons first rest =>
    have other : first ≠ slash := by
      rintro rfl
      exact front ⟨rest, rfl⟩
    rw [CoapPacket.strip, List.dropWhile_cons_of_neg (by simpa using other)]

namespace Node
open CoapPacket
variable {request : ClientRequest} {blockNum : UInt32} {mid : UInt16}

theorem requestMessage_fields (fits : request.Fits) :
    (requestMessage request blockNum mid).block1 =
        ⟨request.block1.num, request.block1.more, request.block1.size, 0⟩ ∧
      (asks blockNum = true → (requestMessage request blockNum mid).block2 =
        ⟨blockNum, false, restMaxChunkSize.toUInt16, 0⟩) ∧
      (requestMessage request blockNum mid).payload = request.payload.take restMaxChunkSize := by
  have plain : (plainMessage request mid).block1 =
        ⟨request.block1.num, request.block1.more, request.block1.size, 0⟩ ∧
      (plainMessage request mid).payload = request.payload.take restMaxChunkSize ∧
      (plainMessage request mid).block2 = .zero := by
    rw [plainMessage, setHeaderBlock1, if_pos fits.takesBlock]
    exact ⟨rfl, rfl, rfl⟩
  rw [requestMessage_eq]
  split
  · rename_i asked
    have taken : takesBlock blockNum restMaxChunkSize.toUInt16 :=
      ⟨by decide, by decide, of_decide_eq_true (Bool.and_eq_true_iff.mp asked).2⟩
    rw [setHeaderBlock2, if_pos taken]
    refine ⟨plain.1, fun _ => ?_, plain.2.1⟩
    simp only [setOption, plain.2.2]
    rfl
  · rename_i silent
    exact ⟨plain.1, fun asked => absurd asked silent, plain.2.1⟩

theorem requestMessage_request (fits : request.Fits) (clean : CleanPath request.uri)
    (small : blockNum ≤ 0xFFFFF) :
    (requestMessage request blockNum mid).received.request request.method =
      request.received blockNum := by
  obtain ⟨block1, block2, payload⟩ := @requestMessage_fields request blockNum mid fits
  have set := requestMessage_present blockNum mid fits
  have path : rejoin slash (requestMessage request blockNum mid).uriPath = request.uri := by
    rw [requestMessage_uriPath, strip_clean clean.front,
      rejoin_clean clean.front clean.back clean.inside]
  set p := requestMessage request blockNum mid with hp
  have option : ∀ o, o ≠ .fencePost → p.received.isOption o = decide (p.Present o) := by
    intro o other
    have bits : p.received.isOption =
        Function.update (fun o => decide (p.Present o)) .fencePost p.fenced := rfl
    rw [bits, Function.update_of_ne other]
  have hasPath : p.received.isOption .uriPath = true := by
    rw [option _ (by decide)]
    exact decide_eq_true ((set _).mpr (.inl rfl))
  have hasBlock1 : p.received.isOption .block1 = true := by
    rw [option _ (by decide)]
    exact decide_eq_true ((set _).mpr (.inr (.inr rfl)))
  have hasBlock2 : p.received.isOption .block2 = asks blockNum := by
    rw [option _ (by decide)]
    exact Bool.eq_iff_iff.mpr (decide_eq_true_iff.trans ((set _).trans (by simp)))
  have set1 : p.isOption .block1 = true := ((set _).mpr (.inr (.inr rfl))).1
  have received1 : p.received.block1 =
      ⟨request.block1.num, request.block1.more, request.block1.size, request.block1.num * 64⟩ := by
    have value : p.received.block1 = if p.isOption .block1 then p.block1.received else .zero := rfl
    rw [value, if_pos set1, block1]
    exact BlockOption.received_chunk fits.size
  have received2 : asks blockNum = true → p.received.block2 =
      ⟨blockNum, false, restMaxChunkSize.toUInt16, blockNum * 64⟩ := by
    intro asked
    have set2 : p.isOption .block2 = true := ((set _).mpr (.inr (.inl ⟨rfl, asked⟩))).1
    have value : p.received.block2 = if p.isOption .block2 then p.block2.received else .zero := rfl
    rw [value, if_pos set2, block2 asked]
    exact BlockOption.received_chunk rfl
  have size : p.received.blockSize.toNat = restMaxChunkSize := by
    rw [CoapPacket.blockSize, hasBlock2]
    split
    · rename_i asked
      rw [received2 asked]
      exact (by decide : (min restMaxChunkSize.toUInt16 restMaxChunkSize.toUInt16).toNat = 64)
    · decide
  have offset : p.received.blockOffset.toInt32.toInt = blockNum.toNat * restMaxChunkSize := by
    have most : blockNum.toNat ≤ 0xFFFFF := UInt32.le_iff_toNat_le.mp small
    have product : (blockNum * 64).toNat = blockNum.toNat * 64 := by
      rw [UInt32.toNat_mul]
      exact Nat.mod_eq_of_lt (show blockNum.toNat * 64 < 2 ^ 32 by omega)
    rw [CoapPacket.blockOffset, hasBlock2]
    split
    · rename_i asked
      rw [received2 asked]
      change (blockNum * 64).toInt32.toInt = _
      rw [Int32.toInt, UInt32.toBitVec_toInt32, BitVec.toInt_eq_toNat_bmod, UInt32.toNat_toBitVec,
        product, Int.bmod_eq_of_le (by omega) (by omega)]
      rfl
    · rename_i silent
      have first : blockNum.toNat = 0 := by
        by_contra later
        refine silent (Bool.and_eq_true_iff.mpr ⟨decide_eq_true ?_, decide_eq_true small⟩)
        exact UInt32.lt_iff_toNat_lt.mpr (Nat.pos_of_ne_zero later)
      rw [first]
      rfl
  rw [CoapPacket.request, ClientRequest.received, Request.mk.injEq]
  refine ⟨?_, rfl, ?_, ?_, size, offset⟩
  · rw [CoapPacket.url, if_pos hasPath]
    exact path
  · rw [if_pos hasBlock1, received1]
  · exact (congrArg (List.take restMaxChunkSize) payload).trans (List.take_take ..)

theorem requestMessage_counted (fits : request.Fits) :
    (requestMessage request blockNum mid).Counted := by
  rw [Counted, numbers, requestMessage_written blockNum mid fits, requestOptions]
  split <;> decide

theorem requestMessage_few (fits : request.Fits) (clean : CleanPath request.uri)
    (few : (split slash request.uri).length < 14) :
    (requestMessage request blockNum mid).options.length < 16 := by
  rw [(requestMessage_near blockNum mid fits).options, requestOptions]
  split <;>
    simp only [List.flatMap_cons, List.flatMap_nil, values, requestMessage_uriPath,
      strip_clean clean.front, List.length_append, List.length_map, List.length_cons,
      List.length_nil] <;> omega

theorem requestMessage_parsed (fits : request.Fits) (clean : CleanPath request.uri)
    (few : (split slash request.uri).length < 14) (small : blockNum ≤ 0xFFFFF) {bytes : Text}
    (written : (requestMessage request blockNum mid).serialize = some bytes) {memory : Memory}
    (holds : memory.read 0 bytes.length = bytes) :
    ∃ (m : Memory) (p : CoapPacket Slice),
      memory.parseMessage (UInt16.ofNat bytes.length) = .ok (m, p) ∧
      Method.ofCode p.code = some request.method ∧ p.type = .con ∧ p.mid = mid ∧
      (p.map (·.text m)).request request.method = request.received blockNum := by
  have direct : (requestMessage request blockNum mid).isOption .proxyUri = false := by
    refine Bool.eq_false_iff.mpr fun set => ?_
    rw [requestMessage_isOption blockNum mid fits] at set
    simp at set
  obtain ⟨⟨m, p⟩, parsed, read⟩ := Memory.parse_direct (requestMessage_built blockNum mid) written
    holds (requestMessage_few fits clean few) (requestMessage_counted fits) direct
  obtain ⟨type, code, mid'⟩ := @requestMessage_head request blockNum mid
  have code' : p.code = request.method.code := (congrArg CoapPacket.code read).trans code
  refine ⟨m, p, parsed, ?_, (congrArg CoapPacket.type read).trans type,
    (congrArg CoapPacket.mid read).trans mid', ?_⟩
  · rw [code']
    cases request.method <;> rfl
  · exact (congrArg (CoapPacket.request · request.method) read).trans
      (requestMessage_request fits clean small)

theorem respond_head (P : Platform) (r : Reply) (buffer : Text) (p : CoapPacket Text) :
    (r.respond P buffer p).mid = (if r.dropped then 0xFFFF else p.mid) ∧
      (r.respond P buffer p).type = p.type := by
  have block1 : ∀ num more size, (p.setHeaderBlock1 num more size).mid = p.mid ∧
      (p.setHeaderBlock1 num more size).type = p.type := by
    intro num more size
    rw [setHeaderBlock1]
    split
    · exact ⟨rfl, rfl⟩
    · exact ⟨rfl, rfl⟩
  unfold Reply.respond
  extract_lets first second third
  have h₁ : first.mid = p.mid ∧ first.type = p.type := by
    simp only [first]
    split
    · exact ⟨rfl, rfl⟩
    · exact block1 _ _ _
  have h₂ : second.mid = p.mid ∧ second.type = p.type := by
    simp only [second]
    split
    · exact h₁
    · exact h₁
  have h₃ : third.mid = p.mid ∧ third.type = p.type := by
    simp only [third]
    split
    · exact h₂
    · exact h₂
  split
  · exact ⟨rfl, h₃.2⟩
  · exact h₃

def wellKnownCore : Text := chars ".well-known/core".toList

theorem invoke_other {url : Text} (other : url ≠ wellKnownCore) (method : Method) :
    restInvokeRestfulService restfulServices url method = .handled .emmaServer := by
  have flags : method ∈ [Method.get, .put, .post, .delete] := by cases method <;> decide
  rw [restInvokeRestfulService, restfulServices,
    List.find?_cons_of_neg fun same => other (of_decide_eq_true same).symm]
  cases url with
  | nil => exact if_pos flags
  | cons first rest => exact if_pos flags

theorem invoke_core {method : Method} (other : method ≠ .get) :
    restInvokeRestfulService restfulServices wellKnownCore method = .methodNotAllowed := by
  cases method with
  | get => exact absurd rfl other
  | _ => rfl

variable {P : Platform} {n : Node} {d : Incoming} {message : CoapPacket Text} {method : Method}
  {buffer : Text}

theorem prepare_head (confirmable : message.type = .con) :
    (n.prepare message).mid = message.mid ∧ (n.prepare message).type = .ack := by
  rw [prepare, responseMid, if_pos confirmable, if_pos confirmable]
  split
  · exact ⟨rfl, rfl⟩
  · exact ⟨rfl, rfl⟩

theorem response_other (other : message.url ≠ wellKnownCore) :
    n.response P message method buffer =
      (n.system.shared.emmaServerHandler P (message.request method)).2.respond P buffer
        (n.prepare message) := by
  rw [response, serviceCbk, invoke_other other]

theorem response_head (confirmable : message.type = .con) (other : method ≠ .get)
    (kept : (n.system.shared.emmaServerHandler P (message.request method)).2.dropped = false) :
    (n.response P message method buffer).mid = message.mid ∧
      (n.response P message method buffer).type = .ack := by
  have start := prepare_head (n := n) confirmable
  by_cases core : message.url = wellKnownCore
  · rw [response, serviceCbk, core, invoke_core other]
    exact start
  · rw [response_other core]
    have head := respond_head P (n.system.shared.emmaServerHandler P (message.request method)).2
      buffer (n.prepare message)
    rw [kept, if_neg Bool.false_ne_true] at head
    exact ⟨head.1.trans start.1, head.2.trans start.2⟩

theorem serve_system (other : method ≠ .get ∨ message.url ≠ wellKnownCore) :
    (n.serve P d message method buffer).system =
      if (n.transactions.newTransaction message.mid d.address d.port).isSome ∧
          message.url ≠ wellKnownCore then
        { n.system with shared :=
          (n.system.shared.emmaServerHandler P (message.request method)).1 }
      else n.system := by
  cases new : n.transactions.newTransaction message.mid d.address d.port with
  | none =>
    rw [if_neg fun both => Bool.false_ne_true both.1, serve_full new]
    rfl
  | some found =>
    obtain ⟨i, transactions⟩ := found
    rw [serve, new]
    simp only [serveWith_system]
    rw [serviceCbk]
    by_cases core : message.url = wellKnownCore
    · rw [core, invoke_core (other.resolve_right (not_not.mpr core)), if_neg fun both => both.2 rfl]
    · rw [invoke_other core, if_pos ⟨rfl, core⟩]

theorem serviceCbk_returns (so : n.system.shared.Sound) (calm : n.hung = false)
    (other : method ≠ .get ∨ message.url ≠ wellKnownCore)
    (returns : n.system.shared.Returns (message.request method)) :
    n.Returns P message method buffer := by
  rw [Returns, serviceCbk]
  by_cases core : message.url = wellKnownCore
  · rw [core, invoke_core (other.resolve_right (not_not.mpr core))]
    exact calm
  · rw [invoke_other core]
    exact (so.emmaServerHandler_hung returns).trans calm

theorem serve_answers (confirmable : message.type = .con) (other : method ≠ .get)
    (so : n.system.shared.Sound) (calm : n.hung = false)
    (kept : (n.system.shared.emmaServerHandler P (message.request method)).2.dropped = false)
    (valid : message.mid ≠ 0xFFFF) :
    ∃ p : CoapPacket Text, p.IsReply ∧ p.type = .ack ∧ p.mid = message.mid ∧
      n.Sends d p (n.serve P d message method buffer) := by
  obtain ⟨mid, type⟩ := @response_head P n message method buffer confirmable other kept
  cases new : n.transactions.newTransaction message.mid d.address d.port with
  | none =>
    rw [serve_full new]
    exact ⟨_, errorMessage_isReply .serviceUnavailable message.mid, rfl, rfl, refuse_sends _ _⟩
  | some found =>
    obtain ⟨i, transactions⟩ := found
    have sent : cancelled P (n.response P message method buffer) = false := by
      rw [cancelled, mid, decide_eq_false valid, Bool.and_false]
    obtain ⟨reply, head⟩ := @concluded_spec message (n.response P message method buffer)
      (n.serviceCbk P message method buffer (n.prepare message)).2.2
      (response_isReply (n := n) (P := P) message method buffer)
    rw [mid, type, or_self] at head
    have returns : n.Returns P message method buffer :=
      serviceCbk_returns so calm (.inl other) fun _ _ get => absurd get other
    exact ⟨_, reply, head.2, head.1, (serve_kept new returns sent).2.2⟩

theorem Sound.answered (h : n.Sound) {i : Nat} (member : i ∈ n.transactions.list)
    {p : CoapPacket Text} (reply : p.IsReply) (mid : (n.transactions.cell i).mid = p.mid)
    {bytes : Text} (written : p.serialize = some bytes) (carries : d.Carries bytes) :
    (n.coapReceive P d buffer).requestState =
      { n.requestState with response := true, polled := true } := by
  obtain ⟨-, -, list, holds⟩ := h.of_mem member
  obtain ⟨⟨m, q⟩, parsed, read⟩ := reply.read written carries
  have code : Method.ofCode q.code = none := by
    rw [show q.code = p.code from congrArg CoapPacket.code read, reply.code]
  have mid' : q.mid = p.mid := congrArg CoapPacket.mid read
  have found : (n.heard (q.map (·.text m))).transactions.getTransactionByMid q.mid = some i := by
    change n.transactions.list.find? (fun i => (n.transactions.cell i).mid = q.mid) = some i
    rw [list, mid', ← mid]
    exact List.find?_cons_of_pos (by simp)
  rw [coapReceive_answer parsed code, answer_requestState,
    if_pos ⟨i, found, holds.callback⟩]
  rfl

/-- A request as it is on its way: a request that waits, with a path that fits into a message -/
structure OnTheWay (n : Node) (i : Nat) (request : ClientRequest) : Prop where
  open' : i ∈ n.transactions.list
  asked : n.system.client.request = some request
  clean : CleanPath request.uri
  few : (split slash request.uri).length < 14
  small : n.requestState.blockNum ≤ 0xFFFFF

theorem OnTheWay.parsed {i : Nat} {request : ClientRequest} (h : n.OnTheWay i request)
    (sound : n.Sound) (carries : d.Carries (n.transactions.cell i).datagram.bytes) :
    ∃ (m : Memory) (p : CoapPacket Slice), d.memory.parseMessage d.dataLen = .ok (m, p) ∧
      Method.ofCode p.code = some request.method ∧ p.type = .con ∧
      p.mid = (n.transactions.cell i).mid ∧
      (p.map (·.text m)).request request.method = request.received n.requestState.blockNum := by
  obtain ⟨-, -, -, holds⟩ := sound.of_mem h.open'
  obtain ⟨request', bytes, asked, written, same⟩ := holds.message
  obtain rfl := Option.some.inj (h.asked.symm.trans asked)
  have bytes' : (n.transactions.cell i).datagram.bytes = bytes := congrArg Datagram.bytes same
  rw [bytes'] at carries
  rw [carries.length]
  exact requestMessage_parsed (sound.fits request h.asked) h.clean h.few h.small written carries.holds

theorem OnTheWay.served {P' : Platform} {m : Node} {i : Nat} {request : ClientRequest}
    (way : n.OnTheWay i request) (sound : n.Sound)
    (carries : d.Carries (n.transactions.cell i).datagram.bytes) :
    (m.coapReceive P' d buffer).system =
      if (m.transactions.newTransaction (n.transactions.cell i).mid d.address d.port).isSome ∧
          request.uri ≠ wellKnownCore then
        { m.system with shared := (m.system.shared.emmaServerHandler P'
          (request.received n.requestState.blockNum)).1 }
      else m.system := by
  have fits := sound.fits request way.asked
  obtain ⟨memory, p, parsed, code, -, mid, read⟩ := way.parsed sound carries
  have url : (p.map (·.text memory)).url = request.uri := congrArg Request.url read
  rw [coapReceive_request parsed code, serve_system (.inl fits.method), ← mid, ← url, ← read]
  rfl

/-- What the request of a client makes another node do, however late its datagram comes and however
often: the handler gets the very request, if the node has a transaction for it. -/
theorem request_served {num : Nat} {P' : Platform} {m : Node} {i : Nat} {request : ClientRequest}
    (reached : ReachableBy P num (Kept P) n) (way : n.OnTheWay i request)
    (carries : d.Carries (n.transactions.cell i).datagram.bytes) :
    (m.coapReceive P' d buffer).system =
      if (m.transactions.newTransaction (n.transactions.cell i).mid d.address d.port).isSome ∧
          request.uri ≠ wellKnownCore then
        { m.system with shared := (m.system.shared.emmaServerHandler P'
          (request.received n.requestState.blockNum)).1 }
      else m.system :=
  way.served reached.sound carries

theorem carrying_carries (bytes : Text) : (carrying bytes).Carries bytes where
  length := rfl
  holds := by
    refine List.ext_getElem (by simp) fun i _ h => ?_
    simp [carrying, Memory.read, h]

theorem asking_way : ∃ (n : Node) (request : ClientRequest), ReachableBy .plain 1 (Kept .plain) n ∧
    n.OnTheWay 0 request ∧ request.uri = chars ['L', '/', 'y'] ∧ n.requestState.polled = false ∧
    ((Node.init .plain 1 (fun _ => none) .bare 0).system.shared.emmaServerHandler .plain
      (request.received n.requestState.blockNum)).2.dropped = false ∧
    (n.transactions.cell 0).mid ≠ 0xFFFF := by
  obtain ⟨n, run, hn⟩ := Runs.of_follow (Node.step .plain) (Kept .plain)
    (fun n => n.transactions.list = [0] ∧ n.requestState.polled = false ∧
      n.requestState.blockNum = 0 ∧ (n.transactions.cell 0).mid ≠ 0xFFFF ∧
      n.system.client.request.any fun request => request.uri = chars ['L', '/', 'y'] ∧
        ((Node.init .plain 1 (fun _ => none) .bare 0).system.shared.emmaServerHandler .plain
          (request.received 0)).2.dropped = false)
    (asking put) (.init .plain 1 (fun _ => none) .bare 0) (by decide +kernel)
  simp only [decide_eq_true_eq] at hn
  obtain ⟨list, silent, first, valid, hn⟩ := hn
  obtain ⟨request, asked, hr⟩ := (Option.any_eq_true _ _).mp hn
  obtain ⟨uri, kept⟩ := of_decide_eq_true hr
  refine ⟨n, request, ⟨_, _, _, run⟩, ⟨?_, asked, ?_, ?_, ?_⟩, uri, silent, ?_, valid⟩
  · rw [list]
    exact List.mem_singleton_self 0
  · rw [uri]
    decide
  · rw [uri]
    decide
  · rw [first]
    decide
  · rw [first]
    exact kept

/-- The handler of the other node puts the text of the request. -/
theorem request_served_asking : ∃ (n : Node) (request : ClientRequest),
    n.system.client.request = some request ∧
    ((Node.init .plain 1 (fun _ => none) .bare 0).coapReceive .plain
      (carrying (n.transactions.cell 0).datagram.bytes) []).system.shared =
        ((Node.init .plain 1 (fun _ => none) .bare 0).system.shared.emmaServerHandler .plain
          (request.received n.requestState.blockNum)).1 := by
  obtain ⟨n, request, reached, way, uri, -⟩ := asking_way
  refine ⟨n, request, way.asked, ?_⟩
  rw [request_served reached way (carrying_carries _), if_pos]
  refine ⟨rfl, ?_⟩
  rw [uri]
  decide

/-- A request that the other node's handler does not drop is answered, and whenever the answer
comes while the request waits, the request learns of it. -/
theorem exchange {num num' : Nat} {P' : Platform} {m : Node} {i : Nat} {request : ClientRequest}
    {ok : Node → NodeEvent → Prop} (reached : ReachableBy P num (Kept P) n)
    (reached' : ReachableBy P' num' ok m) (calm : m.hung = false) (way : n.OnTheWay i request)
    (carries : d.Carries (n.transactions.cell i).datagram.bytes)
    (kept : (m.system.shared.emmaServerHandler P'
      (request.received n.requestState.blockNum)).2.dropped = false)
    (valid : (n.transactions.cell i).mid ≠ 0xFFFF) :
    ∃ y : Datagram, (m.coapReceive P' d buffer).sent = m.sent ++ [y] ∧ y.address = d.address ∧
      y.port = d.port ∧ ∀ (n' : Node) (j : Nat) (d' : Incoming) (buffer' : Text),
        ReachableBy P num (Kept P) n' → j ∈ n'.transactions.list →
        (n'.transactions.cell j).mid = (n.transactions.cell i).mid → d'.Carries y.bytes →
        (n'.coapReceive P d' buffer').requestState =
          { n'.requestState with response := true, polled := true } := by
  have fits := reached.sound.fits request way.asked
  obtain ⟨memory, p, parsed, code, type, mid, read⟩ := way.parsed reached.sound carries
  rw [coapReceive_request parsed code]
  obtain ⟨q, reply, -, mid', bytes, written, sent⟩ := @serve_answers P'
    (m.heard (p.map (·.text memory))) d (p.map (·.text memory)) request.method buffer type
    fits.method reached'.system_run.2.sound calm (by rw [read]; exact kept) (fun same => valid (mid.symm.trans same))
  refine ⟨⟨d.address, d.port, bytes⟩, sent, rfl, rfl, ?_⟩
  intro n' j d' buffer' waiting member same carries'
  refine waiting.sound.answered member reply ?_ written carries'
  rw [same, ← mid]
  exact mid'.symm

theorem exchange_asking : ∃ (n : Node) (y : Datagram), n.requestState.polled = false ∧
    ((Node.init .plain 1 (fun _ => none) .bare 0).coapReceive .plain
      (carrying (n.transactions.cell 0).datagram.bytes) []).sent = [y] ∧
    (n.coapReceive .plain (carrying y.bytes) []).requestState.polled = true := by
  obtain ⟨n, request, reached, way, -, silent, kept, valid⟩ := asking_way
  obtain ⟨y, sent, -, -, told⟩ :=
    @exchange _ n _ [] _ 1 _ (Node.init .plain 1 (fun _ => none) .bare 0) _ request (fun _ _ => True)
      reached ⟨_, _, _, .refl⟩ rfl way (carrying_carries _) kept valid
  refine ⟨n, y, silent, sent, ?_⟩
  rw [told n 0 _ [] reached way.open' rfl (carrying_carries _)]

end Node
end EmmaNode

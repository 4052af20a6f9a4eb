import EmmaNode.Rest
import EmmaNode.System
import EmmaNode.Transactions

/-! The engine of er-coap-07-engine.c: `coap_receive` with its patch, and the blocking request of
the client. Datagrams come as they are in the receive buffer; the events of the engine may be
taken in any order between two places where the client gives up control. -/

namespace EmmaNode

/-- A datagram in the receive buffer -/
structure Incoming where
  memory : Memory
  dataLen : UInt16
  address : List UInt16
  port : UInt16

/-- `request_state_t` and the static variables of `coap_blocking_request`; `active` while it
waits, `polled` while the process has a poll to take, `response` unless the pointer is null. -/
structure RequestState where
  active : Bool
  polled : Bool
  response : Bool
  transaction : Option Nat
  blockNum : UInt32
  more : Bool
  resBlock : UInt32
  blockError : Nat

def coapMaxAttempts : Nat := 4

namespace RequestState

def init : RequestState := ⟨false, false, false, none, 0, false, 0, 0⟩

variable (r : RequestState)

/-- What a response says of its block; without the option it says nothing. -/
def readBlock (message : CoapPacket Text) : RequestState :=
  if message.isOption .block2 then
    { r with resBlock := message.block2.num, more := message.block2.more }
  else r

/-- The block is the one that was asked for. -/
def right : Bool := r.resBlock = r.blockNum

def count : RequestState :=
  if r.right then { r with blockNum := r.blockNum + 1 } else { r with blockError := r.blockError + 1 }

/-- The condition of the loop -/
def goesOn : Bool := r.more && r.blockError < coapMaxAttempts

end RequestState

/-- The node with its engine. `message` and `transaction` are static in `coap_receive`: the
client reads the one, and the other keeps pointing to a transaction that is cleared. -/
structure Node where
  system : System
  transactions : Transactions
  transaction : Option Nat
  message : CoapPacket Text
  currentMid : UInt16
  requestState : RequestState
  sent : List Datagram

namespace Node
variable (P : Platform) (n : Node)

/-- The answer to a message that is not served -/
def errorMessage (status : CoapStatus) (mid : UInt16) : CoapPacket Text :=
  (CoapPacket.initMessage .ack status.code mid).setPayload status.message

/-- The end of `coap_receive` with an error -/
def refuse (d : Incoming) (status : CoapStatus) (mid : UInt16) : Node :=
  let message := errorMessage status mid
  { n with
    transactions := n.transactions.clearTransaction n.transaction
    message
    sent := n.sent ++ [⟨d.address, d.port, message.serialize.getD []⟩] }

/-- `coap_blocking_request_callback` -/
def callback (response : Bool) : Node :=
  { n with requestState := { n.requestState with response, polled := true } }

/-- A message that is no request -/
def answer (mid : UInt16) : Node :=
  match n.transactions.getTransactionByMid mid with
  | none => { n with transaction := none }
  | some i =>
    let called := (n.transactions.cell i).callback
    let n := { n with
      transactions := n.transactions.clearTransaction (some i), transaction := none }
    if called then n.callback true else n

/-- The message id of a response; one that is not an acknowledgement takes a new one. -/
def responseMid (message : CoapPacket Text) : UInt16 :=
  if message.type = .con then message.mid else n.currentMid + 1

/-- The response as the handler gets it -/
def prepare (message : CoapPacket Text) : CoapPacket Text :=
  let type := if message.type = .con then MessageType.ack else .non
  let response := CoapPacket.initMessage type Status.ok.code (n.responseMid message)
  if message.isOption .token then response.setHeaderToken message.token else response

/-- The service callback: the system behind it, the response and the offset -/
def serviceCbk (message : CoapPacket Text) (method : Method) (buffer : Text)
    (response : CoapPacket Text) : System × CoapPacket Text × UInt32 :=
  match restInvokeRestfulService restfulServices message.url method with
  | .handled .emmaServer =>
    let (shared, r) := n.system.shared.emmaServerHandler P (message.request method)
    ({ n.system with shared }, r.respond P buffer response, UInt32.ofInt r.offset)
  | .handled .emmaWellKnownCore =>
    let (shared, r) := n.system.shared.emmaWellKnownCoreHandler message.blockSize.toNat
      message.blockOffset.toInt32.toInt
    let response := r.respond P buffer response
    ({ n.system with shared },
      if r.status = some .ok then response.setHeaderContentType CoapPacket.applicationLinkFormat
      else response, UInt32.ofInt r.offset)
  | .methodNotAllowed =>
    (n.system, response.setStatusCode methodNotAllowedCode, message.blockOffset)
  | .notFound => (n.system, response.setStatusCode Status.notFound.code, message.blockOffset)

/-- The node's patch: a response with the message id -1 is not sent. An `unsigned int` of sixteen
bits is -1 when it is 65535, a wider one never. -/
def cancelled (response : CoapPacket Text) : Bool := P.intBits = 16 && response.mid = 0xFFFF

/-- `coap_send_transaction`, and the message is on its way -/
def send (i interval : Nat) : Node :=
  let n' := { n with
    transactions := n.transactions.sendTransaction i interval
    sent := n.sent ++ [(n.transactions.cell i).datagram] }
  if n.transactions.calledBack i then n'.callback false else n'

/-- The handler's buffer is behind the room for the header. -/
def scribble (i : Nat) (buffer : Text) : Node :=
  let written := fun t : Transaction => { t with packet := t.packet.take coapMaxHeaderSize ++ buffer }
  { n with transactions := n.transactions.modify i written }

/-- What becomes of a response -/
def conclude (d : Incoming) (message : CoapPacket Text) (i : Nat) (response : CoapPacket Text)
    (newOffset : UInt32) : Node :=
  if cancelled P response then
    let first := n.transactions.getTransactionByMid message.mid
    { n with transactions := n.transactions.clearTransaction first }
  else match message.blockwise response newOffset with
    | .error status => n.refuse d status message.mid
    | .ok response =>
      match response.serialize with
      | none => n.refuse d .packetSerializationError message.mid
      | some bytes => { n with transactions := n.transactions.modify i (·.fill bytes) }.send i 0

/-- A handler does not come back. -/
def hung : Bool := n.system.shared.hung

/-- A request for which there is a transaction. A handler that hangs has no response. -/
def serveWith (d : Incoming) (message : CoapPacket Text) (method : Method) (buffer : Text)
    (i : Nat) : Node :=
  let (system, response, newOffset) := n.serviceCbk P message method buffer (n.prepare message)
  let currentMid := if message.type = .con then n.currentMid else n.currentMid + 1
  let n := { n with system, currentMid }.scribble i buffer
  if n.hung then n else n.conclude P d message i response newOffset

/-- A request -/
def serve (d : Incoming) (message : CoapPacket Text) (method : Method) (buffer : Text) : Node :=
  match n.transactions.newTransaction message.mid d.address d.port with
  | none => { n with transaction := none }.refuse d .serviceUnavailable message.mid
  | some (i, transactions) =>
    { n with transactions, transaction := some i }.serveWith P d message method buffer i

/-- `coap_receive`. What is in a handler's buffer behind it is an input. -/
def coapReceive (d : Incoming) (buffer : Text) : Node :=
  match d.memory.parseMessage d.dataLen with
  | .error status => n.refuse d status d.memory.header.mid
  | .ok (m, p) =>
    let message := p.map (·.text m)
    let n := { n with message }
    match Method.ofCode message.code with
    | some method => n.serve P d message method buffer
    | none => n.answer message.mid

/-- The request for a block: from the second on it asks for the number. -/
def requestMessage (request : ClientRequest) (blockNum : UInt32) (mid : UInt16) :
    CoapPacket Text :=
  let settings : List Setting :=
    [.uriPath request.uri, .block1 request.block1.num request.block1.more request.block1.size,
      .payload request.payload]
  let more : List Setting :=
    if 0 < blockNum then [.block2 blockNum false restMaxChunkSize.toUInt16] else []
  CoapPacket.build .con request.method.code mid (settings ++ more)

/-- The end of `coap_blocking_request` -/
def leave (success : Option Bool) : Node :=
  { n with
    system := n.system.respond success true
    requestState := { n.requestState with active := false } }

/-- A turn of its loop up to the place where it waits. `interval` is the first one of the timer. -/
def issue (success : Option Bool) (interval : Nat) : Node :=
  match n.system.client.request with
  | none => n
  | some request =>
    let mid := n.currentMid + 1
    let n := { n with currentMid := mid }
    match n.transactions.newTransaction mid request.address request.port with
    | none => n.leave success
    | some (i, transactions) =>
      let bytes := (requestMessage request n.requestState.blockNum mid).serialize.getD []
      let filled := fun t : Transaction => { t with callback := true }.fill bytes
      let requestState := { n.requestState with active := true, transaction := some i }
      { n with
        system := n.system.respond success false
        transactions := transactions.modify i filled, requestState }.send i interval

/-- The start of `coap_blocking_request`. The first block of a target starts with a random
message id. -/
def begin (interval : Nat) : Node :=
  let currentMid := if n.system.client.postBlockNum = 0 then
    P.random n.system.shared.reader.seed 0 else n.currentMid
  let requestState := { RequestState.init with polled := n.requestState.polled }
  { n with currentMid, requestState }.issue none interval

/-- What the chunk handler learns of a message -/
def success (message : CoapPacket Text) : Bool := message.code >>> 5 &&& 0x0F = 2

/-- The process takes a poll. -/
def poll (interval : Nat) : Node :=
  let n := { n with requestState := { n.requestState with polled := false } }
  if ¬n.requestState.active then n
  else if ¬n.requestState.response then n.leave none
  else
    let r := n.requestState.readBlock n.message
    let success := if r.right then some (success n.message) else none
    let n := { n with requestState := r.count }
    if r.count.goesOn then n.issue success interval else n.leave success

/-- `coap_check_transactions` -/
def retransmit : Node :=
  let (transactions, sent, called) := n.transactions.checkTransactions
  let n := { n with transactions, sent := n.sent ++ sent }
  if called then n.callback false else n

/-- No process is in the middle of something: the client has given up control. -/
def ready : Bool :=
  n.system.client.pc.yields && (n.system.client.pc ≠ .blocked || n.requestState.active)

end Node

inductive NodeEvent where
  | datagram (d : Incoming) (buffer : Text)
  /-- the timer of a transaction runs out -/
  | expire (i : Nat)
  /-- the timer event of `coap_receiver` -/
  | retransmit
  /-- the client enters `COAP_BLOCKING_REQUEST` -/
  | begin (interval : Nat)
  | poll (interval : Nat)
  | client
  | watchdog
  | systemTimer
  | environment (env : Env)

namespace Node
variable (P : Platform)

/-- The processes of the node that the engine is no part of -/
def own (n : Node) (e : Event) : Option Node :=
  (n.system.step P e).map fun system => { n with system }

def init (num : Nat) (files : Nat → Option Text) (env : Env) (mid : UInt16) : Node where
  system := .init P files env
  transactions := .init num
  transaction := none
  message := .initMessage .con 0 0
  currentMid := mid
  requestState := .init
  sent := []

/-- A node that hangs comes to no other event, in a datagram's handler as in its own. -/
def step (n : Node) (e : NodeEvent) : Option Node :=
  if n.hung then none
  else match e with
    | .datagram d buffer =>
      let n' := n.coapReceive P d buffer
      if n.ready && !n'.hung then some n' else none
    | .expire i =>
      if n.ready && (n.transactions.cell i).running then
        some { n with transactions := n.transactions.expire i }
      else none
    | .retransmit => if n.ready then some n.retransmit else none
    | .begin interval =>
      if n.system.client.pc = .blocked ∧ ¬n.requestState.active then some (n.begin P interval)
      else none
    | .poll interval =>
      if n.ready && n.requestState.polled then some (n.poll interval) else none
    | .client => n.own P .client
    | .watchdog => if n.ready then n.own P .watchdog else none
    | .systemTimer => if n.ready then n.own P .systemTimer else none
    | .environment env => n.own P (.environment env)

/-- Reached from the start, with so many transactions and any first message id, by steps that
meet a condition -/
def ReachableBy (num : Nat) (ok : Node → NodeEvent → Prop) (n : Node) : Prop :=
  ∃ files env mid, Runs (step P) ok (init P num files env mid) n

end Node
end EmmaNode

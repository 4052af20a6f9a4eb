import EmmaNode.Preprocessor
import EmmaNode.Server
import EmmaNode.Target

/-! The client process of emma-client.c. Its loop is cut into steps at the heads of its
inner loops, so that none of them has to end for the next state to exist. The process
gives up control in two places only: at the end of a turn of the main loop and while it
waits for the answer to a request; `Pc.yields` holds there. -/

namespace EmmaNode

inductive ClientState where
  | waitingMutex
  | running
  | idle
  | start
  | release
  deriving DecidableEq

/-- Where the process stands. -/
inductive Pc where
  /-- before a turn of the main loop -/
  | main
  /-- before the test of the loop over the agents -/
  | agent
  /-- before the test of the loop over the targets of an agent -/
  | target
  /-- before the next block for a target -/
  | block
  /-- in the loop of the preprocessor -/
  | preprocess
  /-- with a block to be sent -/
  | send
  /-- in `COAP_BLOCKING_REQUEST` -/
  | blocked
  /-- behind it -/
  | answered
  deriving DecidableEq

def Pc.yields : Pc → Bool
  | .main => true
  | .blocked => true
  | _ => false

inductive SendMode where
  | unset
  | preEvaluated
  | raw
  deriving DecidableEq

/-- The method of the request for a target; GET is sent as PUT. -/
def ClientMethod.request : ClientMethod → Method
  | .post => .post
  | .delete => .delete
  | _ => .put

/-- A request as it is put together for a block, for the network or not. -/
structure ClientRequest where
  method : Method
  uri : Text
  block1 : Block1
  payload : Text
  address : List UInt16
  port : UInt16

/-- The static and global variables of the client. `name` is what the iterator returned
last, empty when it returned no byte; `resource` is the buffer with the agent's name. -/
structure Client where
  pc : Pc
  state : ClientState
  name : Text
  resource : Text
  err : EvalStatus
  stack : Stack
  pre : Int
  target : TargetReader
  code : Nat
  postJsonParser : JsonParser
  postJsonState : JsonState
  postBlockNum : UInt16
  postNbBytes : Nat
  postStartIndex : Int
  postStopIndex : Int
  postMode : SendMode
  postLastPacket : Bool
  postMore : Bool
  postLoOpened : UInt8
  preprocessor : Preprocessor
  previousFail : Bool
  request : Option ClientRequest
  sendOK : Bool

namespace Client

def init : Client :=
  { pc := .main, state := .idle, name := [], resource := [], err := .ready, stack := .init,
    pre := 0, target := .init, code := 0, postJsonParser := .clean,
    postJsonState := .error, postBlockNum := 0, postNbBytes := 0, postStartIndex := 0,
    postStopIndex := 0, postMode := .unset, postLastPacket := false, postMore := false,
    postLoOpened := 0, preprocessor := .init, previousFail := false, request := none, sendOK := false }

/-- What the watchdog asks of `emma_client_state`. -/
def quiet (c : Client) : Bool := c.state = .idle ∨ c.state = .waitingMutex

end Client

/-- The node: what all processes share, and the client. -/
structure System where
  shared : State
  client : Client

namespace System
variable (P : Platform) (s : System)

def setClient (f : Client → Client) : System := { s with client := f s.client }

def mapShared (f : State → State) : System := { s with shared := f s.shared }

/-- A loop of the client that never ends. -/
def hang : System := s.mapShared fun t =>
  { t with reader := { t.reader with iter := { t.reader.iter with stuck := true } } }

/-- `get_next_resource_name_by_root` into `resource` -/
def nextName (root : Option Root) : System :=
  let (shared, name) := s.shared.getNextResourceNameByRoot root emmaMaxUriSize
  ⟨shared, { s.client with name }⟩

/-- From a name on, lock the first resource that can be locked; stop at one that cannot
when it was not last modified by the client. -/
def acquireFrom : Nat → System → System
  | 0, s => s.hang
  | fuel + 1, s =>
    let name := s.client.name
    if name = [] then s
    else if emmaResourceIsRoot name then acquireFrom fuel (s.nextName none)
    else
      match s.shared.lock name with
      | (shared, true) => { s with shared := shared.setLastModified name .client }
      | (_, false) =>
        if s.shared.store.emmaResourceGetLastModified name ≠ .client then
          s.setClient fun c => { c with state := .waitingMutex }
        else acquireFrom fuel (s.nextName none)

/-- The turn in `EMMA_CLIENT_WAITING_MUTEX` -/
def acquire : System :=
  acquireFrom (maxNames + 1)
    ((s.setClient fun c => { c with state := .running }).nextName (some .agent))

def releaseFrom : Nat → System → System
  | 0, s => s.hang
  | fuel + 1, s =>
    if s.client.name = [] then s.setClient fun c => { c with state := .idle }
    else releaseFrom fuel ((s.mapShared (State.release · s.client.name)).nextName none)

/-- The turn in `EMMA_CLIENT_RELEASE` -/
def releaseAll : System := releaseFrom (maxNames + 1) (s.nextName (some .agent))

def clientSolver (st : Store) (env : Env) (reference : Text) (r : Reader) : Reader × Option Int :=
  let buffer := snprintf (min (reference.length + 1) emmaMaxUriSize) (cString reference)
  let uri := (buffer.map fun c => if c = '#'.toUInt8 then slash else c).takeWhile
    (· ≠ ' '.toUInt8)
  st.readNumber P env uri r

/-- `emma_resource_get_index_of_pattern`: only agents have patterns. -/
def getIndexOfPattern (uri : Text) (pattern : Pattern) : Option (Int × Int) :=
  match emmaGetRoot uri, s.shared.resolve uri with
  | some .agent, some i =>
    some ((s.shared.store.agents ((s.shared.store.tree.data i).getD 0)).regex P pattern)
  | _, _ => none

/-- The bytes of the agent at an index; agents are read without side effect. -/
def agentBytes (size : Nat) (index : Int) : Text :=
  (s.shared.store.emmaResourceRead P s.shared.env s.client.resource size index
    s.shared.reader).2.bytes

def calculator : Calculator Reader :=
  ⟨s.client.stack, s.shared.operandIndex, s.shared.reader⟩

def setCalculator (m : Calculator Reader) : System :=
  { shared := { s.shared with operandIndex := m.operandIndex, reader := m.env }
    client := { s.client with stack := m.stack } }

/-- The blocks of the condition, up to its quote, its end or an error. -/
def readPre (stop : Int) : Nat → Int → System → System
  | 0, _, s => s
  | fuel + 1, start, s =>
    if start < stop then
      let bytes := s.agentBytes P emmaClientBufferSize start
      let block := bytes.takeWhile (· ≠ quote)
      let solve := clientSolver P s.shared.store s.shared.env
      let (m, err) := s.calculator.evaluateBlock P solve block
      let s := (s.setCalculator m).setClient fun c => { c with err }
      if err ≠ .ready ∨ block.length < emmaClientBufferSize then s
      else readPre stop fuel (P.int (start + emmaClientBufferSize)) s
    else s

/-- Blocks in a list of 65536 bytes. -/
def maxClientBlocks : Nat := 65536 / emmaClientBufferSize

/-- Evaluate the condition of the agent into `pre`. `err` is left from the last agent
when there is no byte to evaluate. -/
def evaluatePre : System :=
  match s.getIndexOfPattern P s.client.resource .pre with
  | none => s
  | some (start, stop) =>
    let s := s.setClient fun c => { c with stack := c.stack.clean }
    let s := s.readPre P stop maxClientBlocks (P.int (start + 1))
    let s := if s.client.err = .ready then
        let solve := clientSolver P s.shared.store s.shared.env
        let (m, err, result) := s.calculator.evaluateResult P solve
        (s.setCalculator m).setClient fun c => { c with err, pre := result.getD c.pre }
      else s
    if s.client.err ≠ .complete then s.setClient fun c => { c with pre := 0 } else s

/-- `getNextTARGET`, with a range for the first target of an agent -/
def nextTarget (range : Option (Int × Int)) : System :=
  let read := s.agentBytes P targetBlockSize
  let target := { s.client.target with method := .unset }
  let result := match range with
    | some range => target.first P read range
    | none => target.next P read
  match result with
  | some (target, code) => s.setClient fun c => { c with target, code }
  | none => s.hang

/-- What the loop over the agents does with one of them before its targets. -/
def startAgent : System :=
  let s := s.evaluatePre P
  let s := match s.getIndexOfPattern P s.client.resource .target with
    | some range => s.nextTarget P (some range)
    | none => s.setClient fun c => { c with
        target := { c.target with method := .unset, startIndex := 0, stopIndex := 0 }, code := 0 }
  let post := if s.client.code = 0 then none
    else some (s.getIndexOfPattern P s.client.resource .post)
  s.setClient fun c => { c with
    pc := .target
    code := match post with
      | none => c.code
      | some range => if range.isSome then 1 else 0
    postStartIndex := P.int ((match post with
      | some (some (start, _)) => start
      | _ => c.postStartIndex) + 1)
    postStopIndex := match post with
      | some (some (_, stop)) => stop
      | _ => c.postStopIndex }

/-- The end of the pass, or of an agent; a failure stops the pass. -/
def nextAgent : System :=
  let s := if s.client.previousFail then s.setClient fun c => { c with name := [] }
    else s.nextName none
  s.setClient fun c => { c with pc := .agent }

/-- The test of the loop over the agents -/
def agentHead : System :=
  let name := s.client.name
  if name ≠ [] ∧ emmaGetRoot name = some .agent then
    let s := s.setClient fun c => { c with resource := name }
    if emmaResourceIsRoot name then s.nextAgent else s.startAgent P
  else
    { shared := s.shared.setLastModifier .client
      client := { s.client with pc := .main, state := .release } }

/-- Characters up to the start of a content or an error, and how many came before it. -/
def skipToContent : Text → Nat → JsonParser → JsonState → Nat × JsonParser × JsonState
  | [], cnt, parser, state => (cnt, parser, state)
  | c :: rest, cnt, parser, _ =>
    match parser.parse c 0 with
    | (parser, state) =>
      if state = .strStart ∨ state = .objStart ∨ state = .error then (cnt, parser, state)
      else skipToContent rest (cnt + 1) parser state

/-- Find where the next content starts. -/
def seekContent : Nat → System → System
  | 0, s => s
  | fuel + 1, s =>
    let c := s.client
    let bytes := s.agentBytes P emmaClientBufferSize c.postStartIndex
    let (cnt, postJsonParser, postJsonState) :=
      skipToContent bytes 0 c.postJsonParser c.postJsonState
    let postStartIndex := P.int (c.postStartIndex + cnt)
    let output := overwrite c.preprocessor.output 0 bytes
    let s := s.setClient fun c => { c with
      postJsonParser, postJsonState, postStartIndex, postNbBytes := bytes.length
      preprocessor := { c.preprocessor with output } }
    if bytes.length = emmaClientBufferSize ∧ postStartIndex < c.postStopIndex ∧
        postJsonState ≠ .strStart ∧ postJsonState ≠ .objStart ∧ postJsonState ≠ .error then
      seekContent fuel s
    else s

/-- The test of the loop over the targets -/
def targetHead : System :=
  if s.client.code ≠ 0 ∧ s.client.pre ≠ 0 then
    let s := (s.setClient fun c => { c with
      postJsonParser := .clean, postJsonState := .error, postNbBytes := 0 }).seekContent P
        maxClientBlocks
    s.setClient fun c => { c with
      pc := .block
      postBlockNum := 0
      postLastPacket := false
      postMode := if c.postJsonState = .strStart then .preEvaluated
        else if c.postJsonState = .objStart then .raw else c.postMode
      postJsonParser := .clean }
  else s.nextAgent

/-- Go on to the next target; a failure ends the agent. -/
def endTarget : System :=
  let s := if s.client.previousFail then
      s.setClient fun c => { c with target := { c.target with method := .unset }, code := 0 }
    else s.nextTarget P none
  s.setClient fun c => { c with pc := .target }

/-- Characters up to the end of an object, that one included; whether it is there. -/
def takeObject : Text → Nat → JsonParser → JsonState → Nat × JsonParser × JsonState × Bool
  | [], cnt, parser, state => (cnt, parser, state, false)
  | c :: rest, cnt, parser, _ =>
    match parser.parse c 0 with
    | (parser, .objEnd) => (cnt + 1, parser, .objEnd, true)
    | (parser, state) => takeObject rest (cnt + 1) parser state

/-- Prepare the payload of a block; an expression goes through the preprocessor. -/
def blockHead : System :=
  let c := s.client
  match c.postMode with
  | .preEvaluated =>
    let (name, start) := if c.postBlockNum = 0 then (some c.resource, P.int (c.postStartIndex + 1))
      else (none, c.postStartIndex)
    s.setClient fun c => { c with
      pc := .preprocess
      postStartIndex := start
      preprocessor := c.preprocessor.call name start }
  | .raw =>
    let bytes := s.agentBytes P emmaClientBufferSize c.postStartIndex
    let (cnt, postJsonParser, postJsonState, last) :=
      takeObject bytes 0 c.postJsonParser c.postJsonState
    s.setClient fun c => { c with
      pc := .send
      postJsonParser, postJsonState
      postLastPacket := c.postLastPacket || last
      postNbBytes := cnt
      postStartIndex := P.int (c.postStartIndex + cnt)
      preprocessor := { c.preprocessor with output := overwrite c.preprocessor.output 0 bytes } }
  | .unset => s.endTarget P

def preprocessStep : System :=
  let g : Getter := ⟨s.shared.store.emmaResourceExists,
    s.shared.store.emmaResourceRead P s.shared.env⟩
  let (reader, preprocessor) := s.client.preprocessor.step g s.shared.reader
  let s : System := ⟨{ s.shared with reader }, { s.client with preprocessor }⟩
  if preprocessor.outputCond then
    s.setClient fun c => { c with
      pc := .send, postStartIndex := preprocessor.block, postNbBytes := preprocessor.outputIndex }
  else s

def isLocalAddress (address : List UInt16) : Bool :=
  address = [0, 0, 0, 0, 0, 0, 0, 1] ∨ address ∈ s.shared.env.localAddresses

def payload : Text := (List.range s.client.postNbBytes).map s.client.preprocessor.output

/-- The first block makes the resource and opens it. -/
def openLocal (uri : Text) : System :=
  if s.client.postBlockNum = 0 then
    let (shared, done) := (s.shared.add P uri).emmaResourceOpen uri
    ⟨shared, { s.client with postLoOpened := (UInt16.ofInt done).toUInt8 }⟩
  else s

def writeLocal (uri : Text) : System :=
  if s.client.postLoOpened ≠ 0 then
    let index := P.int (s.client.postBlockNum.toNat * emmaClientBufferSize)
    let (shared, n) := s.shared.emmaResourceWrite P uri s.payload index
    ⟨shared, if (UInt16.ofInt n).toNat = s.client.postNbBytes then s.client
      else { s.client with previousFail := true }⟩
  else s.setClient fun c => { c with previousFail := true }

def closeLocal (uri : Text) : System :=
  if ¬s.client.postMore ∧ s.client.postLoOpened ≠ 0 then
    ⟨s.shared.emmaResourceClose P uri, { s.client with postLoOpened := 0 }⟩
  else s

/-- A block for a resource of the node itself: no lock is taken, nothing is marked. -/
def sendLocal : System :=
  let uri := s.client.target.uriText
  let c := s.client
  let s := s.setClient fun c => { c with previousFail := false }
  if s.shared.store.emmaResourceExists uri ∧ c.target.method = .post ∧ c.postBlockNum = 0 then s
  else if c.target.method = .delete then s.mapShared fun t => (t.del uri).1
  else if uri.isPrefixOf c.resource then s
  else ((s.openLocal P uri).writeLocal P uri).closeLocal P uri

/-- Behind a block that was sent -/
def afterBlock : System :=
  let s := s.setClient fun c => { c with postBlockNum := c.postBlockNum + 1 }
  if s.client.postMore then s.setClient fun c => { c with pc := .block } else s.endTarget P

/-- Send a block. A request starts with a new seed for message ids. -/
def sendBlock : System :=
  let c := s.client
  let postMore := decide (c.postNbBytes = emmaClientBufferSize) && !c.postLastPacket
  let address := (List.range maxIpChunks).map c.target.parser.address
  let request : ClientRequest :=
    { method := c.target.method.request, uri := c.target.uriText, address
      block1 := ⟨c.postBlockNum.toUInt32, postMore, emmaClientBufferSize.toUInt16⟩
      payload := s.payload.take emmaClientBufferSize, port := c.target.parser.port }
  let s := s.setClient fun c => { c with postMore, request := some request }
  if s.isLocalAddress address then (s.sendLocal P).afterBlock P
  else
    let s := if s.client.postBlockNum = 0 then s.mapShared fun t =>
        { t with reader := { t.reader with
            seed := t.env.now.toNat * P.nodeId.toNat, draws := 1 } }
      else s
    s.setClient fun c => { c with sendOK := false, pc := .blocked }

/-- Behind a request: without an answer of success the target is given up. -/
def answered : System :=
  if s.client.sendOK then s.afterBlock P
  else (s.setClient fun c => { c with pre := 1, previousFail := false }).endTarget P

def mainTurn : System :=
  match s.client.state with
  | .idle =>
    if s.shared.lastModifier ≠ .client ∨ s.client.previousFail then
      s.setClient fun c => { c with state := .start, previousFail := false }
    else s
  | .start => s.setClient fun c => { c with state := .waitingMutex }
  | .waitingMutex => s.acquire
  | .running => (s.nextName (some .agent)).setClient fun c => { c with pc := .agent }
  | .release => s.releaseAll

/-- A step of the client process; it takes none while it waits for an answer. -/
def clientStep : Option System :=
  match s.client.pc with
  | .main => some s.mainTurn
  | .agent => some (s.agentHead P)
  | .target => some (s.targetHead P)
  | .block => some (s.blockHead P)
  | .preprocess => some (s.preprocessStep P)
  | .send => some (s.sendBlock P)
  | .blocked => none
  | .answered => some (s.answered P)

end System
end EmmaNode

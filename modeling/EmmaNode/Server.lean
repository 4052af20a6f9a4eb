import EmmaNode.Access

/-! The request handler and the watchdog of emma-server.c. Of a request the handler sees
what REST gives it; a reply it marks with the message id -1 is not sent. -/

namespace EmmaNode

inductive Method where
  | get
  | put
  | post
  | delete
  deriving DecidableEq

inductive Status where
  | ok
  | created
  | deleted
  | badRequest
  | notFound
  | badOption
  | serviceUnavailable
  deriving DecidableEq

/-- The block1 option of a request. -/
structure Block1 where
  num : UInt32
  more : Bool
  size : UInt16
  deriving DecidableEq

theorem short_empty : ([] : Text).length ≤ 65523 := by decide

theorem short_one : (chars ['1']).length ≤ 65523 := by decide

/-- UDP and CoAP headers take at least twelve of the bytes of a datagram. -/
structure Request where
  url : Text
  method : Method
  block1 : Option Block1
  payload : Text
  preferredSize : Nat
  offset : Int
  payload_le : payload.length ≤ 65523

namespace Request
variable (rq : Request)

def blockNum : UInt32 := (rq.block1.map Block1.num).getD 0

def more : Bool := (rq.block1.map Block1.more).getD false

def blockSize : UInt16 := (rq.block1.map Block1.size).getD 0

/-- The URI, none when it is empty or too long. -/
def uri : Option Text :=
  if rq.url ≠ [] ∧ rq.url.length < emmaMaxUriSize then some (cString rq.url) else none

end Request

/-- Without status a reply keeps the one it is born with. -/
structure Reply where
  status : Option Status
  dropped : Bool
  block1 : Option UInt32
  payload : Option ReadResult
  offset : Int

namespace Reply

def init (rq : Request) : Reply := ⟨none, false, none, none, rq.offset⟩

/-- `coap_set_header_block1` takes block numbers of twenty bits. -/
def setBlock1 (r : Reply) (rq : Request) : Reply :=
  { r with block1 := (rq.block1.map Block1.num).filter (· ≤ 0x0FFFFF) }

/-- The message id -1 -/
def drop (r : Reply) : Reply := { r with dropped := true }

end Reply

def emmaServerTimeoutSecond : UInt32 := 8

namespace State
variable (P : Platform) (s : State)

/-- The common end of a request: the status is set and the block number kept. -/
def finish (r : Reply) (status : Status) (blockNum : UInt32) : State × Reply :=
  ({ s with count := blockNum.toUInt64 }, { r with status := some status })

/-- The names of a root, from the one the iterator has just left on. -/
def listFrom (root : Option Root) (preferredSize : Nat) (packet : Int) :
    Nat → Text → State → Int → Text → State × Text
  | 0, _, s, _, buffer => (s, buffer)
  | fuel + 1, buff, s, dCnt, buffer =>
    let buffer := if root = emmaGetRoot buff ∧ buff ≠ [] then
        let separator := if buffer.length = 1 then chars [' ', '"'] else chars [',', '"']
        snprintf preferredSize (buffer ++ separator ++ buff ++ chars ['"'])
      else buffer
    let (dCnt, buffer) := if buffer.length + 1 = preferredSize ∧ dCnt < packet then
        (dCnt + 1, []) else (dCnt, buffer)
    let (s, next) := s.getNextResourceNameByRoot none preferredSize
    let buffer := if buff = [] then snprintf preferredSize (buffer ++ chars [']']) else buffer
    if (dCnt ≤ packet ∧ buff ≠ []) ∧ buffer.length + 1 < preferredSize then
      listFrom root preferredSize packet fuel next s dCnt buffer
    else (s, buffer)

/-- GET of a root. An URI without root goes on with whatever the iterator was at. -/
def handleList (rq : Request) (uri : Text) (r : Reply) : State × Reply :=
  let root := emmaGetRoot uri
  let (s, buff) := s.getNextResourceNameByRoot root rq.preferredSize
  let packet := Int.tdiv rq.offset rq.preferredSize
  let (s, buffer) := listFrom root rq.preferredSize packet maxNames buff s 0 (chars ['['])
  let offset := if buffer.length + 1 < rq.preferredSize then -1 else rq.offset + buffer.length
  s.finish { r with payload := some ⟨buffer ++ [0], offset⟩, offset } .ok 0

/-- GET of a resource -/
def handleRead (rq : Request) (uri : Text) (r : Reply) : State × Reply :=
  match s.lock uri with
  | (s, true) =>
    match s.emmaResourceOpen uri with
    | (s, 0) => (s.release uri).finish r .serviceUnavailable 0
    | (s, _) =>
      let (s, result) := s.emmaResourceRead P uri rq.preferredSize rq.offset
      let nbBytes := (UInt16.ofInt result.returned).toNat
      let offset := if nbBytes < rq.preferredSize then -1 else rq.offset + rq.preferredSize
      ((s.emmaResourceClose P uri).release uri).finish
        { r with payload := some ⟨result.bytes, nbBytes⟩, offset } .ok 0
  | (s, false) => s.finish r .serviceUnavailable 0

def handleGet (rq : Request) (uri : Text) (r : Reply) : State × Reply :=
  if emmaResourceIsRoot uri then s.handleList rq uri r else s.handleRead P rq uri r

def lockUnlessLocked (uri : Text) : State :=
  if s.locked = 0 then { (s.lock uri).1 with locked := if (s.lock uri).2 then 1 else 0 } else s

def openUnlessOpened (uri : Text) : State :=
  if s.opened = 0 then
    { (s.emmaResourceOpen uri).1 with opened := (UInt16.ofInt (s.emmaResourceOpen uri).2).toUInt8 }
  else s

/-- The first block makes the resource, locks and opens it. -/
def startTransfer (uri : Text) : State :=
  ((({ s with count := -1 } : State).add P uri).lockUnlessLocked uri).openUnlessOpened uri

/-- The resource of a transfer that failed is deleted, or released when it cannot be. -/
def cancelTransfer (uri : Text) : State :=
  let s := match s.del uri with
    | (s, 0) => s.setLastModifier .server
    | (s, _) => s.release uri
  { s with opened := 0, locked := 0 }

/-- Whether a block has been lost since the last one. -/
def lost (blockNum : UInt32) : Prop := blockNum.toUInt64 - s.count > 1

instance (blockNum : UInt32) : Decidable (s.lost blockNum) :=
  inferInstanceAs (Decidable (_ > _))

/-- Where a block goes: the product is one of 32 bits and becomes an `int`. -/
def blockIndex (rq : Request) : Int :=
  P.int (rq.blockNum * rq.blockSize.toUInt32).toNat

/-- Write a block into the resource that is locked and opened. -/
def writeBlock (rq : Request) (uri : Text) : State × Status :=
  let (s, nbBytes) := s.emmaResourceWrite P uri rq.payload (blockIndex P rq)
  if (UInt16.ofInt nbBytes).toNat = rq.payload.length then (s, .ok)
  else (s.cancelTransfer uri, .badRequest)

/-- The last block ends the transfer; `opened` stays as it is. -/
def endTransfer (uri : Text) : State :=
  let s := s.setLastModified uri .server
  let s := s.emmaResourceClose P uri
  { s.release uri with locked := 0 }

/-- A block of a transfer in progress that is neither lost nor known. -/
def takeBlock (rq : Request) (uri : Text) (r : Reply) : State × Reply :=
  let (s, status) := s.writeBlock P rq uri
  let s := s.setClocktime uri
  if rq.more then s.finish r status rq.blockNum
  else (s.endTransfer P uri).finish r (if rq.method = .post then .created else status) rq.blockNum

/-- A block when no lock was had. -/
def refuseBlock (uri : Text) : State :=
  if s.opened ≠ 0 then { s.emmaResourceClose P uri with opened := 0 } else s

/-- A block with a payload, once a first block has started its transfer. -/
def handleBlock (rq : Request) (uri : Text) (r : Reply) : State × Reply :=
  if s.lost rq.blockNum then (s.cancelTransfer uri, r.drop)
  else if s.locked ≠ 0 then
    if s.opened ≠ 0 then
      if rq.blockNum.toUInt64 = s.count then (s, r) else s.takeBlock P rq uri r
    else ({ s.release uri with locked := 0 }, r.drop)
  else (s.refuseBlock P uri, r.drop)

def handleEmpty (rq : Request) (uri : Text) (r : Reply) : State × Reply :=
  let s := if rq.more then s
    else ((s.setLastModified uri .server).emmaResourceClose P uri).release uri
  s.finish r .badRequest rq.blockNum

def handlePut (rq : Request) (uri : Text) (r : Reply) : State × Reply :=
  let r := r.setBlock1 rq
  if rq.method = .post ∧ s.store.emmaResourceExists uri ∧ s.locked = 0 then (s, r.drop)
  else if rq.payload = [] then s.handleEmpty P rq uri r
  else if rq.blockNum = 0 then
    if s.locked ≠ 0 then (s, r.drop) else (s.startTransfer P uri).handleBlock P rq uri r
  else s.handleBlock P rq uri r

def handleDelete (uri : Text) (r : Reply) : State × Reply :=
  match s.lock uri with
  | (s, true) =>
    match s.del uri with
    | (s, 0) => (s.setLastModifier .server).finish r .deleted 0
    | (s, _) => (s.release uri).finish r .notFound 0
  | (s, false) => s.finish r .serviceUnavailable 0

/-- `emma_server_handler` -/
def emmaServerHandler (rq : Request) : State × Reply :=
  let r := Reply.init rq
  match rq.uri with
  | none => s.finish r .notFound 0
  | some uri =>
    match rq.method with
    | .get => s.handleGet P rq uri r
    | .put => s.handlePut P rq uri r
    | .post => s.handlePut P rq uri r
    | .delete => s.handleDelete uri r

/-- One resource of the watchdog's walk. `quiet` says that the client neither runs
agents nor releases locks. -/
def watchResource (quiet : Bool) (root : Option Root) : State × Text :=
  let (s, resource) := s.getNextResourceNameByRoot root emmaMaxUriSize
  if s.store.emmaResourceIsLocked resource ∧ quiet ∧
      s.env.now - s.store.emmaResourceGetClocktime resource > emmaServerTimeoutSecond then
    (s.cancelTransfer resource, resource)
  else (s, resource)

/-- The walk takes one step and twice the first name of a root; it is repeated as long
as the last of these is empty. -/
def watchdogFrom (quiet : Bool) : Nat → State → State
  | 0, s => { s with reader := { s.reader with iter := { s.reader.iter with stuck := true } } }
  | fuel + 1, s =>
    let (s, _) := s.watchResource quiet none
    let (s, _) := s.watchResource quiet (some .agent)
    let (s, done) := s.watchResource quiet (some .resource)
    if done = [] then watchdogFrom quiet fuel s else s

/-- The timer event of `emma_server_process` -/
def watchdog (quiet : Bool) : State := watchdogFrom quiet maxNames s

end State
end EmmaNode

import EmmaNode.RootList

/-! The packets of er-coap-07.c and the functions that set their header fields. A string of
a packet is a pointer with a length; what stands for the two is a parameter, since a packet
that was parsed points into its datagram and one that was put together into any memory. -/

namespace EmmaNode

inductive MessageType where
  | con
  | non
  | ack
  | rst
  deriving DecidableEq

namespace MessageType

def bits : MessageType → UInt8
  | con => 0
  | non => 1
  | ack => 2
  | rst => 3

def ofBits (b : UInt8) : MessageType :=
  if b = 0 then con else if b = 1 then non else if b = 2 then ack else rst

end MessageType

/-- `coap_option_t` -/
inductive CoapOption where
  | contentType
  | maxAge
  | proxyUri
  | etag
  | uriHost
  | locationPath
  | uriPort
  | locationQuery
  | uriPath
  | observe
  | token
  | accept
  | ifMatch
  | fencePost
  | uriQuery
  | block2
  | block1
  | ifNoneMatch
  deriving DecidableEq

namespace CoapOption

def number : CoapOption → Nat
  | contentType => 1
  | maxAge => 2
  | proxyUri => 3
  | etag => 4
  | uriHost => 5
  | locationPath => 6
  | uriPort => 7
  | locationQuery => 8
  | uriPath => 9
  | observe => 10
  | token => 11
  | accept => 12
  | ifMatch => 13
  | fencePost => 14
  | uriQuery => 15
  | block2 => 17
  | block1 => 19
  | ifNoneMatch => 21

def all : List CoapOption :=
  [contentType, maxAge, proxyUri, etag, uriHost, locationPath, uriPort, locationQuery, uriPath,
    observe, token, accept, ifMatch, fencePost, uriQuery, block2, block1, ifNoneMatch]

def ofNumber (n : Nat) : Option CoapOption := all.find? (·.number = n)

theorem ofNumber_number (o : CoapOption) : ofNumber o.number = some o := by
  cases o <;> rfl

theorem number_inj {o o' : CoapOption} (h : o.number = o'.number) : o = o' := by
  have := ofNumber_number o
  rw [h, ofNumber_number] at this
  exact (Option.some.inj this).symm

end CoapOption

/-- `COAP_ETAG_LEN` and `COAP_TOKEN_LEN` -/
def coapTokenLen : Nat := 8

def coapMaxAcceptNum : Nat := 2

structure BlockOption where
  num : UInt32
  more : Bool
  size : UInt16
  offset : UInt32
  deriving DecidableEq

def BlockOption.zero : BlockOption := ⟨0, false, 0, 0⟩

/-- `coap_packet_t`, without what only lives while a message is written or read: its place,
its version and its count of options. -/
structure CoapPacket (σ : Type) where
  type : MessageType
  code : UInt8
  mid : UInt16
  /-- the bitmap `options`; numbers without a name have no bit anyone asks for -/
  isOption : CoapOption → Bool
  contentType : UInt32
  maxAge : UInt32
  proxyUri : σ
  etag : Text
  uriHost : σ
  locationPath : σ
  uriPort : UInt16
  locationQuery : σ
  uriPath : σ
  observe : UInt16
  token : Text
  accept : List UInt16
  ifMatch : Text
  block2 : BlockOption
  block1 : BlockOption
  uriQuery : σ
  ifNoneMatch : Bool
  payload : σ

namespace CoapPacket
variable {σ τ : Type}

/-- The packet of zeros that `memset` leaves, but for its header -/
def blank (empty : σ) (type : MessageType) (code : UInt8) (mid : UInt16) : CoapPacket σ :=
  { type, code, mid, isOption := fun _ => false, contentType := 0, maxAge := 0
    proxyUri := empty, etag := [], uriHost := empty, locationPath := empty, uriPort := 0
    locationQuery := empty, uriPath := empty, observe := 0, token := [], accept := []
    ifMatch := [], block2 := .zero, block1 := .zero, uriQuery := empty, ifNoneMatch := false
    payload := empty }

/-- The same packet with other strings -/
def map (f : σ → τ) (p : CoapPacket σ) : CoapPacket τ :=
  { p with
    proxyUri := f p.proxyUri, uriHost := f p.uriHost, locationPath := f p.locationPath
    locationQuery := f p.locationQuery, uriPath := f p.uriPath, uriQuery := f p.uriQuery
    payload := f p.payload }

/-- `SET_OPTION` -/
def setOption (p : CoapPacket σ) (o : CoapOption) : CoapPacket σ :=
  { p with isOption := Function.update p.isOption o true }

variable (p : CoapPacket Text)

/-- `coap_init_message` -/
def initMessage (type : MessageType) (code : UInt8) (mid : UInt16) : CoapPacket Text :=
  blank [] type code mid

/-- `coap_set_status_code`; no code of the program is above a byte. -/
def setStatusCode (code : UInt8) : CoapPacket Text := { p with code }

/-- Leading characters a path or a query is set without -/
def strip (c : UInt8) (s : Text) : Text := s.dropWhile (· = c)

def setHeaderContentType (contentType : UInt32) : CoapPacket Text :=
  { p with contentType }.setOption .contentType

def setHeaderAccept (accept : UInt16) : CoapPacket Text :=
  if p.accept.length < coapMaxAcceptNum then
    { p with accept := p.accept ++ [accept] }.setOption .accept
  else p

def setHeaderMaxAge (maxAge : UInt32) : CoapPacket Text := { p with maxAge }.setOption .maxAge

def setHeaderEtag (etag : Text) : CoapPacket Text :=
  { p with etag := etag.take coapTokenLen }.setOption .etag

def setHeaderIfMatch (etag : Text) : CoapPacket Text :=
  { p with ifMatch := etag.take coapTokenLen }.setOption .ifMatch

def setHeaderIfNoneMatch : CoapPacket Text := p.setOption .ifNoneMatch

def setHeaderToken (token : Text) : CoapPacket Text :=
  { p with token := token.take coapTokenLen }.setOption .token

def setHeaderProxyUri (uri : Text) : CoapPacket Text := { p with proxyUri := uri }.setOption .proxyUri

def setHeaderUriHost (host : Text) : CoapPacket Text := { p with uriHost := host }.setOption .uriHost

def setHeaderUriPath (path : Text) : CoapPacket Text :=
  { p with uriPath := strip slash path }.setOption .uriPath

def setHeaderUriQuery (query : Text) : CoapPacket Text :=
  { p with uriQuery := strip '?'.toUInt8 query }.setOption .uriQuery

def setHeaderLocationQuery (query : Text) : CoapPacket Text :=
  { p with locationQuery := strip '?'.toUInt8 query }.setOption .locationQuery

/-- What follows the first question mark becomes the query. -/
def setHeaderLocationPath (path : Text) : CoapPacket Text :=
  let path := strip slash path
  let p := match path.dropWhile (· ≠ '?'.toUInt8) with
    | [] => p
    | _ :: query => p.setHeaderLocationQuery query
  { p with locationPath := path.takeWhile (· ≠ '?'.toUInt8) }.setOption .locationPath

def setHeaderObserve (observe : UInt32) : CoapPacket Text :=
  { p with observe := observe.toUInt16 }.setOption .observe

/-- The blocks `coap_set_header_block2` and `coap_set_header_block1` take -/
def takesBlock (num : UInt32) (size : UInt16) : Prop := 16 ≤ size ∧ size ≤ 2048 ∧ num ≤ 0x0FFFFF

instance (num : UInt32) (size : UInt16) : Decidable (takesBlock num size) :=
  inferInstanceAs (Decidable (_ ∧ _))

def setHeaderBlock2 (num : UInt32) (more : Bool) (size : UInt16) : CoapPacket Text :=
  if takesBlock num size then
    { p with block2 := { p.block2 with num, more, size } }.setOption .block2
  else p

def setHeaderBlock1 (num : UInt32) (more : Bool) (size : UInt16) : CoapPacket Text :=
  if takesBlock num size then
    { p with block1 := { p.block1 with num, more, size } }.setOption .block1
  else p

/-- `coap_set_payload` -/
def setPayload (payload : Text) : CoapPacket Text :=
  { p with payload := payload.take restMaxChunkSize }

end CoapPacket

/-- A call of one of the setters -/
inductive Setting where
  | statusCode (code : UInt8)
  | contentType (contentType : UInt32)
  | accept (accept : UInt16)
  | maxAge (maxAge : UInt32)
  | etag (etag : Text)
  | ifMatch (etag : Text)
  | ifNoneMatch
  | token (token : Text)
  | proxyUri (uri : Text)
  | uriHost (host : Text)
  | uriPath (path : Text)
  | uriQuery (query : Text)
  | locationPath (path : Text)
  | locationQuery (query : Text)
  | observe (observe : UInt32)
  | block2 (num : UInt32) (more : Bool) (size : UInt16)
  | block1 (num : UInt32) (more : Bool) (size : UInt16)
  | payload (payload : Text)

namespace CoapPacket

def apply (p : CoapPacket Text) : Setting → CoapPacket Text
  | .statusCode code => p.setStatusCode code
  | .contentType contentType => p.setHeaderContentType contentType
  | .accept accept => p.setHeaderAccept accept
  | .maxAge maxAge => p.setHeaderMaxAge maxAge
  | .etag etag => p.setHeaderEtag etag
  | .ifMatch etag => p.setHeaderIfMatch etag
  | .ifNoneMatch => p.setHeaderIfNoneMatch
  | .token token => p.setHeaderToken token
  | .proxyUri uri => p.setHeaderProxyUri uri
  | .uriHost host => p.setHeaderUriHost host
  | .uriPath path => p.setHeaderUriPath path
  | .uriQuery query => p.setHeaderUriQuery query
  | .locationPath path => p.setHeaderLocationPath path
  | .locationQuery query => p.setHeaderLocationQuery query
  | .observe observe => p.setHeaderObserve observe
  | .block2 num more size => p.setHeaderBlock2 num more size
  | .block1 num more size => p.setHeaderBlock1 num more size
  | .payload payload => p.setPayload payload

/-- A message put together by calls of the setters -/
def build (type : MessageType) (code : UInt8) (mid : UInt16) (settings : List Setting) :
    CoapPacket Text :=
  settings.foldl apply (initMessage type code mid)

end CoapPacket
end EmmaNode

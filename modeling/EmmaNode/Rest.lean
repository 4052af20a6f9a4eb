import EmmaNode.CoapParse
import EmmaNode.WellKnown

/-! How a CoAP message becomes a request of REST and what a handler says becomes the response:
`rest_invoke_restful_service` of erbium.c as the node's patch leaves it, and the part of
`coap_receive` around it that deals with blocks. -/

namespace EmmaNode

def Method.code : Method → UInt8
  | .get => 1
  | .post => 2
  | .put => 3
  | .delete => 4

/-- The requests among the codes of messages -/
def Method.ofCode (code : UInt8) : Option Method :=
  [Method.get, .post, .put, .delete].find? (·.code = code)

def Status.code : Status → UInt8
  | .ok => 69
  | .created => 65
  | .deleted => 66
  | .badRequest => 128
  | .notFound => 132
  | .badOption => 130
  | .serviceUnavailable => 163

def badRequestCode : UInt8 := 128

def methodNotAllowedCode : UInt8 := 133

namespace CoapStatus

/-- The error code as it is sent: those that stand for no message become 5.00. -/
def code : CoapStatus → UInt8
  | noError => 0
  | badRequest => 128
  | badOption => 130
  | internalServerError => 160
  | notImplemented => 161
  | serviceUnavailable => 163
  | proxyingNotSupported => 165
  | packetSerializationError => 160

/-- `coap_error_message` -/
def message : CoapStatus → Text
  | badRequest => chars "CoAP version must be 1".toList
  | badOption => chars "Unsupported critical option".toList
  | notImplemented => chars "NoBlock1Support".toList
  | serviceUnavailable => chars "NoFreeTraBuffer".toList
  | proxyingNotSupported => chars "This is a constrained server (Contiki)".toList
  | packetSerializationError => chars "Serialized header exceeds COAP_MAX_HEADER_SIZE".toList
  | noError => []
  | internalServerError => []

end CoapStatus

inductive Handler where
  | emmaServer
  | emmaWellKnownCore

/-- `resource_t`, with the methods of its flags -/
structure RestResource where
  url : Text
  flags : List Method
  handler : Handler

/-- What `rest_invoke_restful_service` decides -/
inductive Invoked where
  | handled (handler : Handler)
  | methodNotAllowed
  | notFound

/-- The resource found or the default one, if it takes the method -/
def RestResource.invoke (resource : RestResource) (method : Method) : Invoked :=
  if method ∈ resource.flags then .handled resource.handler else .methodNotAllowed

/-- `rest_invoke_restful_service`: the first resource with the URL of the request, else the last
one without any URL -/
def restInvokeRestfulService (services : List RestResource) (url : Text) (method : Method) :
    Invoked :=
  match services.find? (·.url = url) with
  | some resource => resource.invoke method
  | none =>
    match services.reverse.find? (·.url = []) with
    | some resource => resource.invoke method
    | none => .notFound

/-- `restful_services` behind `emma_server_init` -/
def restfulServices : List RestResource :=
  [⟨chars ".well-known/core".toList, [.get], .emmaWellKnownCore⟩,
    ⟨[], [.get, .put, .post, .delete], .emmaServer⟩]

namespace CoapPacket

/-- `coap_get_header_uri_path` -/
def url (p : CoapPacket Text) : Text := if p.isOption .uriPath then p.uriPath else []

/-- The size and the offset `coap_receive` takes for a block of the response -/
def blockSize (p : CoapPacket Text) : UInt16 :=
  if p.isOption .block2 then min p.block2.size restMaxChunkSize.toUInt16
  else restMaxChunkSize.toUInt16

def blockOffset (p : CoapPacket Text) : UInt32 := if p.isOption .block2 then p.block2.offset else 0

/-- `APPLICATION_LINK_FORMAT` -/
def applicationLinkFormat : UInt32 := 40

end CoapPacket

/-- What a message is for the handler of the server. The payload of a parsed message is not longer
than a chunk. -/
def CoapPacket.request (p : CoapPacket Text) (method : Method) : Request where
  url := p.url
  method := method
  block1 := if p.isOption .block1 then some ⟨p.block1.num, p.block1.more, p.block1.size⟩ else none
  payload := p.payload.take restMaxChunkSize
  preferredSize := p.blockSize.toNat
  offset := p.blockOffset.toInt32.toInt
  payload_le := Nat.le_trans (List.length_take_le ..) (by decide)

/-- What a handler makes of the response. Behind the bytes it has written stands what was in the
buffer before. -/
def Reply.respond (P : Platform) (r : Reply) (buffer : Text) (response : CoapPacket Text) :
    CoapPacket Text :=
  let response := match r.block1 with
    | none => response
    | some num => response.setHeaderBlock1 num false restMaxChunkSize.toUInt16
  let response := match r.payload with
    | none => response
    | some result =>
      let memory := result.bytes ++ buffer.drop result.bytes.length
      { response with payload := coapSetPayload P memory result.returned }
  let response := match r.status with
    | none => response
    | some status => response.setStatusCode status.code
  if r.dropped then { response with mid := 0xFFFF } else response

/-- The blocks of a response, or the error of a request in blocks the handler has not dealt with.
`newOffset` is what the handler left of the offset. -/
def CoapPacket.blockwise (message response : CoapPacket Text) (newOffset : UInt32) :
    Except CoapStatus (CoapPacket Text) :=
  let payload := response.payload
  let size := message.blockSize
  let offset := message.blockOffset
  if message.isOption .block1 ∧ response.code < badRequestCode ∧ ¬response.isOption .block1 then
    .error .notImplemented
  else if message.isOption .block2 then
    if newOffset = offset then
      -- the resource knows nothing of blocks
      if payload.length ≤ offset.toNat then
        .ok ((response.setStatusCode Status.badOption.code).setPayload
          (chars "BlockOutOfScope".toList))
      else
        .ok ((response.setHeaderBlock2 message.block2.num
          (size.toNat < payload.length - offset.toNat) size).setPayload
            ((payload.drop offset.toNat).take size.toNat))
    else
      let response := response.setHeaderBlock2 message.block2.num
        (newOffset ≠ 0xFFFFFFFF ∨ size.toNat < payload.length) size
      .ok (if size.toNat < payload.length then response.setPayload (payload.take size.toNat)
        else response)
  else if newOffset ≠ 0 then
    .ok ((response.setHeaderBlock2 0 (newOffset ≠ 0xFFFFFFFF) restMaxChunkSize.toUInt16).setPayload
      (payload.take restMaxChunkSize))
  else .ok response

end EmmaNode

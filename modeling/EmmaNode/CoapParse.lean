import EmmaNode.CoapSerialize

/-! `coap_parse_message`. It reads from the receive buffer, whatever the datagram fills of it,
and puts the parts of a path or a query together in that buffer. -/

namespace EmmaNode

/-- The receive buffer from the first byte of the datagram on -/
abbrev Memory := Nat → UInt8

namespace Memory

def read (m : Memory) (start length : Nat) : Text := (List.range length).map fun i => m (start + i)

def move (m : Memory) (dst src length : Nat) : Memory := fun i =>
  if dst ≤ i ∧ i < dst + length then m (src + (i - dst)) else m i

end Memory

/-- A pointer into the buffer with a length -/
structure Slice where
  start : Nat
  length : Nat
  deriving DecidableEq

namespace Slice

/-- The null pointer of a string that is not set; nobody reads it. -/
def null : Slice := ⟨0, 0⟩

def stop (s : Slice) : Nat := s.start + s.length

def text (s : Slice) (m : Memory) : Text := m.read s.start s.length

end Slice

/-- The value of the option whose header is at `i` -/
def Memory.optionAt (m : Memory) (i : Nat) : Slice :=
  if 0x0F &&& m i < 15 then ⟨i + 1, (0x0F &&& m i).toNat⟩
  else ⟨i + 2, (m (i + 1)).toNat + 15⟩

/-- `coap_status_t`, as far as the program sets it -/
inductive CoapStatus where
  | noError
  | badRequest
  | badOption
  | internalServerError
  | notImplemented
  | serviceUnavailable
  | proxyingNotSupported
  | packetSerializationError
  deriving DecidableEq

/-- `coap_parse_int_option` -/
def parseIntOption (bytes : Text) : UInt32 :=
  bytes.foldl (fun var byte => var <<< 8 ||| byte.toUInt32) 0

/-- A number as a block option -/
def BlockOption.ofValue (value : UInt32) : BlockOption where
  num := value >>> 4
  more := value &&& 0x08 ≠ 0
  size := 16 <<< (value &&& 0x07).toUInt16
  offset := (value &&& ~~~0x0000000F) <<< (value &&& 0x07)

/-- `coap_merge_multi_option` -/
def mergeMultiOption (m : Memory) (dst option : Slice) (separator : UInt8) : Memory × Slice :=
  if 0 < dst.length then
    let m := Function.update m (dst.start + dst.length) separator
    let length := dst.length + 1
    (Memory.move m (dst.start + length) option.start option.length, ⟨dst.start, length + option.length⟩)
  else (m, option)

/-- How the loop over the options stands -/
structure OptionReader where
  memory : Memory
  packet : CoapPacket Slice
  currentOption : Nat
  currentNumber : Nat

namespace OptionReader
variable (r : OptionReader)

/-- The `switch` over the number of an option whose bit is set -/
def take (number : Nat) (option : Slice) : Except CoapStatus (Memory × CoapPacket Slice) :=
  let m := r.memory
  let bytes := option.text m
  match CoapOption.ofNumber number with
  | none => if number % 2 = 1 then .error .badOption else .ok (m, r.packet)
  | some o =>
    let p := r.packet.setOption o
    match o with
    | .contentType => .ok (m, { p with contentType := parseIntOption bytes })
    | .maxAge => .ok (m, { p with maxAge := parseIntOption bytes })
    | .proxyUri => .error .proxyingNotSupported
    | .etag => .ok (m, { p with etag := bytes.take coapTokenLen })
    | .uriHost => .ok (m, { p with uriHost := option })
    | .locationPath =>
      let (m, locationPath) := mergeMultiOption m p.locationPath option slash
      .ok (m, { p with locationPath })
    | .uriPort => .ok (m, { p with uriPort := (parseIntOption bytes).toUInt16 })
    | .locationQuery =>
      let (m, locationQuery) := mergeMultiOption m p.locationQuery option '&'.toUInt8
      .ok (m, { p with locationQuery })
    | .uriPath =>
      let (m, uriPath) := mergeMultiOption m p.uriPath option slash
      .ok (m, { p with uriPath })
    | .observe => .ok (m, { p with observe := (parseIntOption bytes).toUInt16 })
    | .token => .ok (m, { p with token := bytes.take coapTokenLen })
    | .accept =>
      let accept := if p.accept.length < coapMaxAcceptNum then
          p.accept ++ [(parseIntOption bytes).toUInt16] else p.accept
      .ok (m, { p with accept })
    | .ifMatch => .ok (m, { p with ifMatch := bytes.take coapTokenLen })
    | .fencePost => .ok (m, p)
    | .uriQuery =>
      let (m, uriQuery) := mergeMultiOption m p.uriQuery option '&'.toUInt8
      .ok (m, { p with uriQuery })
    | .block2 => .ok (m, { p with block2 := .ofValue (parseIntOption bytes) })
    | .block1 => .ok (m, { p with block1 := .ofValue (parseIntOption bytes) })
    | .ifNoneMatch => .ok (m, { p with ifNoneMatch := true })

/-- One option; fifteen of them do not take the number out of its byte. -/
def step : Except CoapStatus OptionReader :=
  let number := r.currentNumber + (r.memory r.currentOption >>> 4).toNat
  let option := r.memory.optionAt r.currentOption
  (r.take number option).map fun (memory, packet) => ⟨memory, packet, option.stop, number⟩

def steps : Nat → OptionReader → Except CoapStatus OptionReader
  | 0, r => .ok r
  | count + 1, r => r.step.bind (steps count)

end OptionReader

namespace Memory

/-- The fields in front of the options. The count of options is the low half of the first byte. -/
def header (m : Memory) : CoapPacket Slice :=
  .blank .null (.ofBits ((0x30 &&& m 0) >>> 4)) (m 1) ((m 2).toUInt16 <<< 8 ||| (m 3).toUInt16)

/-- The end of `coap_parse_message`: the payload is what is left of the datagram, as a length of
sixteen bits, and gets a zero behind it. -/
def finish (r : OptionReader) (dataLen : UInt16) : Memory × CoapPacket Slice :=
  let length := min restMaxChunkSize (dataLen - UInt16.ofNat r.currentOption).toNat
  (Function.update r.memory (r.currentOption + length) 0,
    { r.packet with payload := ⟨r.currentOption, length⟩ })

/-- `coap_parse_message`. After an error the packet has what was read of it. -/
def parseMessage (m : Memory) (dataLen : UInt16) : Except CoapStatus (Memory × CoapPacket Slice) :=
  if (0xC0 &&& m 0) >>> 6 ≠ 1 then .error .badRequest
  else
    (OptionReader.steps (0x0F &&& m 0).toNat ⟨m, m.header, coapHeaderLen, 0⟩).map
      (finish · dataLen)

end Memory
end EmmaNode

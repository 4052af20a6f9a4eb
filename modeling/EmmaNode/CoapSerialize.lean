import EmmaNode.CoapPacket

/-! `coap_serialize_message`. An option is written as the distance of its number from the one
before; a distance that does not fit into four bits is bridged by fence-posts. -/

namespace EmmaNode

def coapHeaderLen : Nat := 4

def coapMaxHeaderSize : Nat := 50

/-- The turns of the loop of `coap_log_2` -/
def halvings : Nat → Nat → Nat
  | 0, _ => 0
  | fuel + 1, value => if value / 2 = 0 then 1 else halvings fuel (value / 2) + 1

/-- `coap_log_2` -/
def coapLog2 (value : UInt16) : Nat := halvings 16 value.toNat - 1

/-- `coap_set_option_header` -/
def optionHeader (delta length : Nat) : Text :=
  let high := (0xF0 : UInt8) &&& (UInt8.ofNat delta <<< (4 : UInt8))
  if length < 15 then [((0x0F : UInt8) &&& UInt8.ofNat length) ||| high]
  else [0x0F ||| high, UInt8.ofNat (length - 15)]

/-- `coap_insert_option_fence_posts`, with the number that is then current -/
def insertFencePosts (number : Nat) : Nat → Nat → Text × Nat
  | 0, current => ([], current)
  | fuel + 1, current =>
    if 15 < number - current then
      let delta := CoapOption.fencePost.number - current % CoapOption.fencePost.number
      let (posts, current) := insertFencePosts number fuel (current + delta)
      (optionHeader delta 0 ++ posts, current)
    else ([], current)

/-- The bytes of a number from its first that is not zero -/
def intBytes (value : UInt32) : Text :=
  (if 0xFF000000 &&& value ≠ 0 then [(value >>> 24).toUInt8] else []) ++
  (if 0xFFFF0000 &&& value ≠ 0 then [(value >>> 16).toUInt8] else []) ++
  (if 0xFFFFFF00 &&& value ≠ 0 then [(value >>> 8).toUInt8] else []) ++
  (if 0xFFFFFFFF &&& value ≠ 0 then [value.toUInt8] else [])

/-- The parts of a string that is split at a character. Slashes behind a split are skipped, and
the character behind them is not looked at again. -/
def splitParts (split : UInt8) : Nat → Text → Text → List Text
  | 0, part, _ => [part]
  | _ + 1, part, [] => [part]
  | fuel + 1, part, c :: rest =>
    if c = split then
      part :: match rest.dropWhile (· = slash) with
        | [] => []
        | first :: rest => splitParts split fuel [first] rest
    else splitParts split fuel (part ++ [c]) rest

/-- `split_option` of `coap_serialize_array_option` -/
def split (c : UInt8) (array : Text) : List Text := splitParts c (array.length + 1) [] array

/-- The pieces a Proxy-Uri is written in -/
def proxyPieces : Nat → Text → List Text
  | 0, _ => []
  | fuel + 1, uri => if uri = [] then [] else uri.take 270 :: proxyPieces fuel (uri.drop 270)

/-- The options that are written, the number of the last and how many are counted -/
structure OptionWriter where
  option : Text
  currentNumber : Nat
  optionCount : UInt8

namespace OptionWriter
variable (w : OptionWriter)

def start : OptionWriter := ⟨[], 0, 0⟩

/-- An option, or several of one number: the first has the distance, the others have none. -/
def write (o : CoapOption) (count : Nat) : List Text → OptionWriter
  | [] => w
  | value :: more =>
    let (posts, current) := insertFencePosts o.number o.number w.currentNumber
    { option := w.option ++ posts ++ optionHeader (o.number - current) value.length ++ value ++
        more.flatMap fun value => optionHeader 0 value.length ++ value
      currentNumber := o.number
      optionCount := w.optionCount + UInt8.ofNat count }

/-- `coap_serialize_int_option` -/
def int (o : CoapOption) (value : UInt32) (posts : Nat) : OptionWriter :=
  w.write o (1 + posts) [intBytes value]

/-- `coap_serialize_array_option` without a character to split at -/
def array (o : CoapOption) (value : Text) : OptionWriter := w.write o 1 [value]

/-- `coap_serialize_array_option` with one -/
def arraySplit (o : CoapOption) (c : UInt8) (value : Text) (posts : Nat) : OptionWriter :=
  w.write o ((split c value).length + posts) (split c value)

/-- The fence-posts the caller counts for an option -/
def posts (o : CoapOption) : Nat :=
  (o.number - w.currentNumber) / CoapOption.fencePost.number

/-- A turn of `coap_serialize_message` at an option: `IS_OPTION` guards it. -/
def ifOption (p : CoapPacket Text) (o : CoapOption)
    (turn : OptionWriter → OptionWriter) : OptionWriter :=
  if p.isOption o then turn w else w

end OptionWriter

/-- A block option as a number -/
def BlockOption.value (b : BlockOption) : UInt32 :=
  b.num <<< 4 ||| (if b.more then 8 else 0) ||| (0xF &&& UInt32.ofNat (coapLog2 (b.size / 16)))

namespace CoapPacket
variable (p : CoapPacket Text)

/-- The options, in the order of their numbers -/
def serializeOptions : OptionWriter :=
  OptionWriter.start
  |>.ifOption p .contentType (·.int .contentType p.contentType 0)
  |>.ifOption p .maxAge (·.int .maxAge p.maxAge 0)
  |>.ifOption p .proxyUri (fun w =>
    let pieces := proxyPieces p.proxyUri.length p.proxyUri
    w.write .proxyUri pieces.length pieces)
  |>.ifOption p .etag (·.array .etag p.etag)
  |>.ifOption p .uriHost (·.array .uriHost p.uriHost)
  |>.ifOption p .locationPath (·.arraySplit .locationPath slash p.locationPath 0)
  |>.ifOption p .uriPort (·.int .uriPort p.uriPort.toUInt32 0)
  |>.ifOption p .locationQuery (·.arraySplit .locationQuery '&'.toUInt8 p.locationQuery 0)
  |>.ifOption p .uriPath (·.arraySplit .uriPath slash p.uriPath 0)
  |>.ifOption p .observe (·.int .observe p.observe.toUInt32 0)
  |>.ifOption p .token (·.array .token p.token)
  |>.ifOption p .accept (fun w =>
    let accepts := p.accept.map fun accept => intBytes accept.toUInt32
    w.write .accept accepts.length accepts)
  |>.ifOption p .ifMatch (·.array .ifMatch p.ifMatch)
  |>.ifOption p .uriQuery (fun w =>
    w.arraySplit .uriQuery '&'.toUInt8 p.uriQuery (w.posts .uriQuery))
  |>.ifOption p .block2 (fun w => w.int .block2 p.block2.value (w.posts .block2))
  |>.ifOption p .block1 (fun w => w.int .block1 p.block1.value (w.posts .block1))
  |>.ifOption p .ifNoneMatch (fun w => w.int .ifNoneMatch 0 (w.posts .ifNoneMatch))

/-- The four bytes in front of the options -/
def header (optionCount : UInt8) : Text :=
  [((0xC0 : UInt8) &&& (1 <<< (6 : UInt8))) ||| ((0x30 : UInt8) &&& (p.type.bits <<< (4 : UInt8))) |||
      ((0x0F : UInt8) &&& optionCount),
    p.code, (p.mid >>> 8).toUInt8, p.mid.toUInt8]

/-- `coap_serialize_message`; none when it returns zero, with an error in `coap_error_message`. -/
def serialize : Option Text :=
  let w := p.serializeOptions
  if coapHeaderLen + w.option.length ≤ coapMaxHeaderSize then
    some (p.header w.optionCount ++ w.option ++ p.payload)
  else none

end CoapPacket
end EmmaNode

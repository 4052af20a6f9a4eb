import EmmaNode.Access

/-! Reading the targets of an agent: `getIPaddress` of emma-eval.c and `getNextTARGET`
of emma-client.c. -/

namespace EmmaNode

inductive AddressStatus where
  | more
  | done
  | invalid
  deriving DecidableEq

def maxIpChunks : Nat := 8

/-- The static variables of `getIPaddress` and what it fills: address and port. -/
structure AddressParser where
  digitBuf : Text
  addIndex : Nat
  addExtendIndex : Nat
  valid : Nat
  address : Nat → UInt16
  port : UInt16

/-- `axntoi`; at most six digits come in. -/
def axntoi (s : Text) : Nat :=
  let digit (res : Nat) (c : UInt8) : Nat :=
    if '0'.toUInt8 ≤ c ∧ c ≤ '9'.toUInt8 then 16 * res + (c.toNat - 48)
    else if 'a'.toUInt8 ≤ c ∧ c ≤ 'f'.toUInt8 then 16 * res + (c.toNat - 87)
    else 16 * res + (c.toNat - 55)
  s.foldl digit 0

namespace AddressParser

def init : AddressParser := ⟨[], 0, 0, 0, fun _ => 0, 0⟩

/-- Store the digits read as the next chunk. -/
def chunk (a : AddressParser) : AddressParser :=
  if a.addIndex < maxIpChunks then
    { a with
      addExtendIndex := if a.digitBuf = [] then a.addIndex else a.addExtendIndex
      address := Function.update a.address a.addIndex (axntoi a.digitBuf).toUInt16
      addIndex := a.addIndex + 1
      digitBuf := [] }
  else a

/-- Move the chunks from `addExtendIndex` to `top` up by one. -/
def shiftUp (a : AddressParser) (top : Nat) : AddressParser :=
  { a with address := fun i =>
      if a.addExtendIndex < i ∧ i ≤ top + 1 then a.address (i - 1) else a.address i }

/-- Fill the gap of an address with fewer chunks. -/
def expand (a : AddressParser) : AddressParser :=
  let a' := (List.range (maxIpChunks - a.addIndex)).foldl
    (fun b k => b.shiftUp (a.addIndex - 1 + k)) a
  { a' with addIndex := maxIpChunks }

def isHexDigit (c : UInt8) : Bool :=
  ('0'.toUInt8 ≤ c ∧ c ≤ '9'.toUInt8) ∨ ('a'.toUInt8 ≤ c ∧ c ≤ 'f'.toUInt8) ∨
    ('A'.toUInt8 ≤ c ∧ c ≤ 'F'.toUInt8)

/-- `getIPaddress`. None when it never returns: a gap at the first chunk sends the index
of the move below zero, and the loop over the memory in front of the address. -/
def parse (P : Platform) (a : AddressParser) (c : UInt8) : Option (AddressParser × AddressStatus) :=
  let invalid (a : AddressParser) := some ({ a with valid := 0 }, AddressStatus.invalid)
  if c = '['.toUInt8 then
    some ({ a with digitBuf := [], addIndex := 0, addExtendIndex := 0, port := 0
                   address := fun _ => 0, valid := 1 }, .more)
  else if c = ':'.toUInt8 then some (a.chunk, .more)
  else if isHexDigit c then
    if a.digitBuf.length < 6 then some ({ a with digitBuf := a.digitBuf ++ [c] }, .more)
    else invalid a
  else if c = ']'.toUInt8 then
    if a.valid = 0 then some (a, .invalid)
    else
      let a := { a with valid := 2 }.chunk
      if a.addIndex = maxIpChunks then some (a, .more)
      else if a.addExtendIndex = 0 then none
      else some (a.expand, .more)
  else if c = slash ∨ c = '"'.toUInt8 then
    let a := { a with port := UInt16.ofInt (antoi P a.digitBuf) }
    if a.valid = 2 then some ({ a with valid := 0 }, .done) else invalid a
  else invalid a

end AddressParser

/-- The methods a target can name; each is one more than its index in `patterns`. -/
inductive ClientMethod where
  | unset
  | get
  | put
  | post
  | delete
  deriving DecidableEq

namespace ClientMethod

def all : List ClientMethod := [get, put, post, delete]

def pattern : ClientMethod → Text
  | unset => []
  | get => chars ['G', 'E', 'T']
  | put => chars ['P', 'U', 'T']
  | post => chars ['P', 'O', 'S', 'T']
  | delete => chars ['D', 'E', 'L', 'E', 'T', 'E']

/-- Position behind the four agent patterns in `patternTail` -/
def index : ClientMethod → Nat
  | unset => 8
  | get => 4
  | put => 5
  | post => 6
  | delete => 7

def byte (P : Platform) (m : ClientMethod) (i : Nat) : UInt8 :=
  if i < m.pattern.length then m.pattern.getD i 0
  else if i = m.pattern.length then 0
  else P.patternTail m.index i

end ClientMethod

/-- The static variables of `getNextTARGET` and the ones it fills. `uri` is a buffer, of
which `uriIndex` bytes are written in this call. -/
structure TargetReader where
  startIndex : Int
  stopIndex : Int
  patternIndex : ClientMethod → UInt8
  parser : AddressParser
  method : ClientMethod
  uri : Nat → UInt8

/-- The local variables of one call. -/
structure TargetScan where
  reader : TargetReader
  found : Bool
  uriIndex : Nat
  methodSet : Bool

namespace TargetReader

def init : TargetReader := ⟨0, 0, fun _ => 0, .init, .unset, fun _ => 0⟩

/-- The URI as the string in its buffer, whose last byte is never written but with zero. -/
def uriText (t : TargetReader) : Text := cString ((List.range emmaMaxUriSize).map t.uri)

end TargetReader

namespace TargetScan
variable (P : Platform)

/-- A character against the method names, up to the first that is complete. -/
def matchMethod (c : UInt8) : List ClientMethod → TargetScan → TargetScan
  | [], s => s
  | m :: rest, s =>
    let i := s.reader.patternIndex m
    let i := if m.byte P i.toNat = c then i + 1 else 0
    let patternIndex := Function.update s.reader.patternIndex m i
    if m.byte P i.toNat = 0 then
      { s with methodSet := true, reader := { s.reader with patternIndex, method := m } }
    else matchMethod c rest { s with reader := { s.reader with patternIndex } }

/-- One character. The second component is the value of a `return`. -/
def feed (s : TargetScan) (c : UInt8) : Option (TargetScan × Option Nat) :=
  if s.found then
    if c = '"'.toUInt8 then
      let uri := Function.update s.reader.uri s.uriIndex 0
      some ({ s with reader := { s.reader with uri } }, some 1)
    else if s.uriIndex < emmaMaxUriSize then
      let uri := Function.update s.reader.uri s.uriIndex c
      some ({ s with reader := { s.reader with uri }, uriIndex := s.uriIndex + 1 }, none)
    else some (s, some 2)
  else
    let s := if s.methodSet then s
      else if c = '['.toUInt8 then { s with methodSet := true }
      else s.matchMethod P c ClientMethod.all
    if s.methodSet then
      (s.reader.parser.parse P c).map fun (parser, status) =>
        ({ s with reader := { s.reader with parser }, found := status = .done }, none)
    else some (s, none)

/-- The characters of a block; also how many were passed before the end or a `return`. -/
def feedBlock : Text → Nat → TargetScan → Option (TargetScan × Nat × Option Nat)
  | [], cnt, s => some (s, cnt, none)
  | c :: rest, cnt, s =>
    match s.feed P c with
    | none => none
    | some (s, some code) => some (s, cnt, some code)
    | some (s, none) => feedBlock rest (cnt + 1) s

end TargetScan

def targetBlockSize : Nat := 16

namespace TargetReader
variable (P : Platform)

/-- The blocks of the target list. `read` gives the bytes of the agent at an index. -/
def nextFrom (read : Int → Text) : Nat → TargetScan → Option (TargetReader × Nat)
  | 0, s => some (s.reader, 0)
  | fuel + 1, s =>
    if s.reader.startIndex < s.reader.stopIndex then
      let block := read s.reader.startIndex
      match s.feedBlock P block 0 with
      | none => none
      | some (s, cnt, code) =>
        let startIndex := P.int (s.reader.startIndex + cnt)
        let s := { s with reader := { s.reader with startIndex } }
        match code with
        | some code => some (s.reader, code)
        | none => if block.length < targetBlockSize then some (s.reader, 0) else nextFrom read fuel s
    else some (s.reader, 0)

/-- Blocks in a list of 65536 bytes. -/
def maxBlocks : Nat := 65536 / targetBlockSize

/-- `getNextTARGET` without resource: 1 for a target, 2 for one with too long an URI. -/
def next (read : Int → Text) (t : TargetReader) : Option (TargetReader × Nat) :=
  nextFrom P read maxBlocks ⟨t, false, 0, false⟩

/-- `getNextTARGET` with a resource whose target list is between the two indices -/
def first (read : Int → Text) (range : Int × Int) (t : TargetReader) :
    Option (TargetReader × Nat) :=
  next P read { t with startIndex := range.1 + 1, stopIndex := range.2, patternIndex := fun _ => 0 }

end TargetReader
end EmmaNode

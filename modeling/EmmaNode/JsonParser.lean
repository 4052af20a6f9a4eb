import EmmaNode.Platform

/-! The character scanner of emma-JSONnParse.c: depth counters and a state per character. -/

namespace EmmaNode

inductive JsonState where
  | objStart | objEnd | arrStart | arrEnd | strStart | strEnd
  | separator | pairSeparator | content | begin | error
  deriving DecidableEq

structure JsonParser where
  objDepth : UInt8
  arrDepth : UInt8
  strDepth : UInt8
  deriving DecidableEq

/-- `JSONnParse_clean` -/
def JsonParser.clean : JsonParser := ⟨0, 0, 0⟩

/-- The counters and the state of one character, before depth is looked at. -/
def JsonParser.classify (p : JsonParser) (c : UInt8) : JsonParser × JsonState :=
  if c = '"'.toUInt8 then
    let strDepth := if p.strDepth = 0 then 1 else 0
    ({ p with strDepth }, if strDepth ≠ 0 then .strStart else .strEnd)
  else if c = '['.toUInt8 then ({ p with arrDepth := p.arrDepth + 1 }, .arrStart)
  else if c = ']'.toUInt8 then
    if p.arrDepth ≠ 0 then ({ p with arrDepth := p.arrDepth - 1 }, .arrEnd) else (p, .error)
  else if c = '{'.toUInt8 then ({ p with objDepth := p.objDepth + 1 }, .objStart)
  else if c = '}'.toUInt8 then
    if p.objDepth ≠ 0 then ({ p with objDepth := p.objDepth - 1 }, .objEnd) else (p, .error)
  else if c = ':'.toUInt8 then (p, .pairSeparator)
  else if c = ','.toUInt8 ∨ c = ' '.toUInt8 then (p, .separator)
  else (p, .content)

/-- `JSONnParse` -/
def JsonParser.parse (p : JsonParser) (c : UInt8) (depth : Nat) : JsonParser × JsonState :=
  if p.strDepth ≠ 0 ∧ c ≠ '"'.toUInt8 then (p, .content)
  else
    let (p, ret) := p.classify c
    let total := p.objDepth.toNat + p.arrDepth.toNat
    let ret := if total > depth then .content else ret
    let ret := if total = depth + 1 ∧ c = '{'.toUInt8 then .objStart else ret
    let ret := if total = depth + 1 ∧ c = '['.toUInt8 then .arrStart else ret
    (p, ret)

end EmmaNode

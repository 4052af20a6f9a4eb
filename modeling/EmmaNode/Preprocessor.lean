import EmmaNode.Access

/-! The preprocessor of emma-client.c: a machine that copies an expression of an agent to
the output and puts the content of local resources in the place of their references. All
of its variables are static; `step` is one turn of its loop. -/

namespace EmmaNode

def replBuffer : Nat := 16
def emmaClientBufferSize : Nat := 64

inductive ReplState where
  | raz | shiftBuffer | fillBuffer | analyze | extractUri | copyBuffer | copyOperand | error | finish
  deriving DecidableEq

inductive RefFlag where
  | noRef | beginCurrent | beginNext | finish
  deriving DecidableEq

/-- `block` is the index of the caller; the output is the caller's `POSTblock`. -/
structure Preprocessor where
  nam : Text
  namIndex : Int
  block : Int
  ref : Nat → UInt8
  refIndex : Int
  currentState : ReplState
  buffer : Nat → UInt8
  buffer2 : Nat → UInt8
  bufferIndex : Nat
  copyIndex : Nat
  cntEndNext : Nat
  flag : RefFlag
  tempC : UInt8
  output : Nat → UInt8
  outputIndex : Nat
  outputCond : Bool

/-- Bytes written into a buffer from an index on. -/
def overwrite (buffer : Nat → UInt8) (start : Nat) (bytes : Text) : Nat → UInt8 := fun i =>
  if start ≤ i ∧ i < start + bytes.length then bytes.getD (i - start) 0 else buffer i

/-- Bytes from `start` to `stop` set to blanks. -/
def blank (buffer : Nat → UInt8) (start stop : Nat) : Nat → UInt8 := fun i =>
  if start ≤ i ∧ i < stop then ' '.toUInt8 else buffer i

/-- As `blank`, but zero bytes stay. -/
def blankText (buffer : Nat → UInt8) (start stop : Nat) : Nat → UInt8 := fun i =>
  if start ≤ i ∧ i < stop ∧ buffer i ≠ 0 then ' '.toUInt8 else buffer i

/-- The string in the first `size` bytes of a buffer. -/
def stringIn (buffer : Nat → UInt8) (size : Nat) : Text := cString ((List.range size).map buffer)

def quote : UInt8 := '"'.toUInt8

def isDelimiter (c : UInt8) : Bool :=
  c ∈ chars [':', '"', ' ', '\'', ',', '{', '}', '[', ']']

/-- `find_operator`: where the first operator starts, or the end of the text. -/
def findOperator (text : Text) : Nat :=
  ((List.range text.length).find? fun i =>
    Operator.all.any fun op => op.symbol.isPrefixOf (text.drop i)).getD text.length

/-- What the preprocessor sees of the node: `emma_resource_exists` and `emma_resource_read`. -/
structure Getter where
  solver : Text → Bool
  getter : Text → Nat → Int → Reader → Reader × ReadResult

namespace Preprocessor
variable (g : Getter)

def init : Preprocessor :=
  ⟨[], 0, 0, fun _ => 0, 0, .raz, fun _ => 0, fun _ => 0, 0, 0, 0, .noRef, 0, fun _ => 0, 0, false⟩

def refText (p : Preprocessor) : Text := stringIn p.ref (emmaMaxUriSize + 1)

def bufferText (p : Preprocessor) : Text := stringIn p.buffer (replBuffer + 1)

def raz (p : Preprocessor) : Preprocessor :=
  { p with
    currentState := .fillBuffer
    refIndex := 0
    bufferIndex := 0
    buffer := Function.update p.buffer replBuffer 0
    buffer2 := Function.update p.buffer2 replBuffer 0
    cntEndNext := 0
    copyIndex := 0
    ref := fun i => if i < emmaMaxUriSize then 0 else p.ref i }

def shiftBuffer (p : Preprocessor) : Preprocessor :=
  let full := replBuffer ≤ p.bufferText.length
  if ¬full ∧ p.buffer p.bufferIndex = 0 then
    if p.refText ≠ [] then { p with currentState := .analyze }
    else { p with currentState := .finish, outputCond := true }
  else
    let rest := cString ((List.range (replBuffer + 1 - p.bufferIndex)).map
      fun i => p.buffer (p.bufferIndex + i))
    { p with
      currentState := if full then .fillBuffer else .analyze
      buffer := Function.update (overwrite p.buffer 0 rest) rest.length 0
      bufferIndex := if full then rest.length else 0 }

def fillBuffer (p : Preprocessor) (r : Reader) : Reader × Preprocessor :=
  if p.bufferIndex < replBuffer then
    match g.getter p.nam (replBuffer - p.bufferIndex) p.namIndex r with
    | (r, result) =>
      let n := result.returned
      let namIndex := p.namIndex + n
      let buffer := overwrite p.buffer p.bufferIndex result.bytes
      let buffer := if p.bufferIndex + n < replBuffer - 1 then
          Function.update buffer (p.bufferIndex + n.toNat + 1) 0
        else buffer
      let cnt := ((List.range replBuffer).find? fun i => buffer i = quote).getD replBuffer
      let block := if buffer cnt = quote then namIndex - (n - cnt) + 1 else namIndex
      -- the end of a reference that began in the last buffer is wiped
      let buffer := blankText buffer 0 p.cntEndNext
      (r, { p with namIndex, block, buffer, cntEndNext := 0, bufferIndex := 0,
                   currentState := .analyze })
  else (r, { p with currentState := .error })

def analyze (p : Preprocessor) (r : Reader) : Reader × Preprocessor :=
  if p.refText ≠ [] then
    (r, { p with
      currentState := .copyOperand
      copyIndex := p.bufferIndex
      buffer := Function.update (blank p.buffer p.bufferText.length replBuffer) replBuffer 0 })
  else
    let bufferIndex := findOperator p.bufferText
    let tempC := p.buffer bufferIndex
    let cut := Function.update p.buffer bufferIndex 0
    match g.getter p.nam replBuffer p.namIndex r with
    | (r, result) =>
      let buffer2 := Function.update (overwrite p.buffer2 0 result.bytes) replBuffer 0
      let p := { p with bufferIndex, tempC, buffer2, flag := .noRef }
      -- a reference that begins in the next buffer has its mark before any delimiter
      let ahead := ((List.range replBuffer).map buffer2).takeWhile fun c => !isDelimiter c
      if '#'.toUInt8 ∈ stringIn cut (replBuffer + 1) then
        (r, { p with buffer := cut, currentState := .extractUri, flag := .beginCurrent })
      else if '#'.toUInt8 ∈ stringIn buffer2 (replBuffer + 1) ∧ '#'.toUInt8 ∈ ahead then
        (r, { p with buffer := cut, currentState := .extractUri, flag := .beginNext })
      else (r, { p with copyIndex := 0, currentState := .copyBuffer })

/-- The reference around the mark: where it begins in the buffer and where it ends. -/
def refBounds (buffer : Nat → UInt8) (pos bufferLength : Nat) : Nat × Nat :=
  let begin := match (List.range (pos + 1)).reverse.find? fun i => isDelimiter (buffer i) with
    | some i => i + 1
    | none => 0
  (begin, ((List.range bufferLength).find? fun i => begin ≤ i ∧ isDelimiter (buffer i)).getD
    (max begin bufferLength))

def extractUri (p : Preprocessor) (r : Reader) : Reader × Preprocessor :=
  let bufferLength := p.bufferText.length
  let next := p.flag = .beginNext
  let pos := if next then bufferLength
    else ((List.range replBuffer).find? fun i => p.buffer i = '#'.toUInt8).getD replBuffer
  let buffer := if next then Function.update p.buffer pos p.tempC else p.buffer
  let (cntBegin, cntEnd) := refBounds buffer pos bufferLength
  let size := cntEnd - cntBegin
  let flag := if cntEnd < bufferLength then .finish else p.flag
  let ref := Function.update (overwrite p.ref 0
    ((List.range size).map fun i => buffer (cntBegin + i))) size 0
  let p := { p with buffer, copyIndex := 0, currentState := .copyBuffer }
  -- the reference may go on in the next buffer
  let (r, p, ref, flag) :=
    if bufferLength < replBuffer then (r, p, ref, RefFlag.finish)
    else if flag ≠ .finish then
      match g.getter p.nam replBuffer p.namIndex r with
      | (r, result) =>
        let buffer2 := Function.update (overwrite p.buffer2 0 result.bytes) replBuffer 0
        let rest := ((List.range replBuffer).map buffer2).takeWhile fun c => !isDelimiter c
        let ref := Function.update (overwrite ref size rest) (size + rest.length) 0
        let flag := if rest.length < replBuffer then .finish else flag
        (r, { p with buffer2, cntEndNext := rest.length }, ref, flag)
    else (r, p, ref, flag)
  let text := stringIn ref (emmaMaxUriSize + 1)
  let p := { p with
    flag
    ref := overwrite ref 0 (text.map fun c => if c = '#'.toUInt8 then slash else c) }
  if flag = .finish then
    let buffer := if g.solver p.refText then blankText p.buffer cntBegin replBuffer
      else Function.update p.buffer p.bufferIndex p.tempC
    let stop := if p.tempC = 0 then bufferLength else replBuffer
    if cntEnd < replBuffer then
      -- what follows the reference is read again
      (r, { p with namIndex := p.namIndex - (stop - cntEnd), buffer := blank buffer cntEnd stop })
    else (r, { p with buffer })
  else (r, p)

/-- Copy up to `bufferIndex`, a zero byte, a quote or the end of the output. -/
def copyFrom : Nat → Preprocessor → Preprocessor
  | 0, p => p
  | fuel + 1, p =>
    let c := p.buffer p.copyIndex
    if p.copyIndex ≤ p.bufferIndex ∧ p.outputIndex < emmaClientBufferSize ∧ c ≠ 0 ∧ c ≠ quote then
      copyFrom fuel { p with
        output := Function.update p.output p.outputIndex (if c = '\''.toUInt8 then quote else c)
        copyIndex := p.copyIndex + 1
        outputIndex := p.outputIndex + 1 }
    else p

def copyBuffer (p : Preprocessor) : Preprocessor :=
  let p := copyFrom (p.bufferIndex + 1 - p.copyIndex) p
  let c := p.buffer p.copyIndex
  if emmaClientBufferSize ≤ p.outputIndex ∨ c = quote then
    { p with outputCond := true, currentState := if c = quote then .finish else p.currentState }
  else
    { p with bufferIndex := if c ≠ 0 then p.bufferIndex + 1 else p.bufferIndex
             currentState := .shiftBuffer }

def copyOperand (p : Preprocessor) (r : Reader) : Reader × Preprocessor :=
  let p := if 0 < p.outputIndex then
      let last := max p.outputIndex emmaClientBufferSize - 1
      { p with output := Function.update (blank p.output p.outputIndex emmaClientBufferSize) last 0
               outputIndex := last }
    else p
  let (r, result) := if g.solver p.refText then
      g.getter p.refText (emmaClientBufferSize - p.outputIndex) p.refIndex r
    else (r, .none)
  let p := { p with
    output := overwrite p.output p.outputIndex result.bytes
    refIndex := p.refIndex + result.returned
    outputIndex := ((p.outputIndex + result.returned) % 256).toNat }
  if p.outputIndex = emmaClientBufferSize then (r, { p with outputCond := true })
  else (r, { p with refIndex := 0, ref := Function.update p.ref 0 0, currentState := .copyBuffer })

/-- A block of blanks is not put out; the machine goes on. -/
def removeEmpty (p : Preprocessor) : Preprocessor :=
  if p.outputCond then
    if (List.range emmaClientBufferSize).all fun i => p.output i = ' '.toUInt8 then
      { p with outputCond := false, outputIndex := 0 }
    else p
  else p

/-- One turn; `outputCond` says that the call returns. -/
def step (p : Preprocessor) (r : Reader) : Reader × Preprocessor :=
  let (r, p) := match p.currentState with
    | .raz => (r, p.raz)
    | .shiftBuffer => (r, p.shiftBuffer)
    | .fillBuffer => p.fillBuffer g r
    | .analyze => p.analyze g r
    | .extractUri => p.extractUri g r
    | .copyBuffer => (r, p.copyBuffer)
    | .copyOperand => p.copyOperand g r
    | .error => (r, { p with outputIndex := 0, outputCond := true, currentState := .finish })
    | .finish => (r, { p with outputIndex := 0, outputCond := true })
  (r, p.removeEmpty)

/-- The start of a call; a name sets the machine up for it. -/
def call (p : Preprocessor) (name : Option Text) (block : Int) : Preprocessor :=
  let p := { p with block, outputIndex := 0, outputCond := false }
  match name with
  | some nam => { p with currentState := .raz, nam, namIndex := block }
  | none => p

end Preprocessor
end EmmaNode

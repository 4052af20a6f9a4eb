import EmmaNode.Evaluator
import EmmaNode.Resource

/-! The functions of the three roots: root-agent.c, root-resource.c and root-system.c.
A read may use up random numbers and move the iterator; both are in `Reader`. -/

namespace EmmaNode

/-- The rest of the node as the roots see it. An address is its eight words. -/
structure Env where
  now : UInt32
  neighbors : List (List UInt16)
  routes : List (List UInt16 × List UInt16)
  localAddresses : List (List UInt16)

/-- A node without network -/
def Env.bare : Env := ⟨0, [], [], []⟩

structure Reader where
  iter : Iter
  seed : Nat
  draws : Nat

/-- What a read stores and what it returns; `snprintf` can return more than is there. -/
structure ReadResult where
  bytes : Text
  returned : Int

def ReadResult.none : ReadResult := ⟨[], 0⟩

namespace Pattern

def all : List Pattern := [pre, post, target, name]

def index : Pattern → Nat
  | pre => 0
  | post => 1
  | target => 2
  | name => 3

/-- `agent_patterns` -/
def text : Pattern → Text
  | pre => chars ['"', 'P', 'R', 'E', '"', ':', '"']
  | post => chars ['"', 'P', 'O', 'S', 'T', '"', ':', '[']
  | target => chars ['"', 'T', 'A', 'R', 'G', 'E', 'T', '"', ':', '[']
  | name => chars ['"', 'N', 'A', 'M', 'E', '"', ':', '"']

/-- A byte of the pattern, its terminator, or what lies behind it. -/
def byte (P : Platform) (p : Pattern) (i : Nat) : UInt8 :=
  if i < p.text.length then p.text.getD i 0
  else if i = p.text.length then 0
  else P.patternTail p.index i

end Pattern

namespace Agent
variable (P : Platform)

/-- Advance one pattern by a character. -/
def feed (a : Agent) (p : Pattern) (c : UInt8) : Agent :=
  let i := a.patternIndex p
  { a with patternIndex :=
      Function.update a.patternIndex p (if c = p.byte P i.toNat then i + 1 else 0) }

/-- One character against the patterns; true when a pattern is met for a second time. -/
def watch (state : JsonState) (c : UInt8) (cnt : Nat) : List Pattern → Agent → Agent × Bool
  | [], a => (a, false)
  | p :: rest, a =>
    let a := a.feed P p c
    if p.byte P (a.patternIndex p).toNat = 0 ∧ state ≠ .content then
      if a.fileIndex p = 0 then
        let fileIndex := Function.update a.fileIndex p (P.int (a.size.toNat + cnt))
        watch state c cnt rest { a with fileIndex }
      else (a, true)
    else watch state c cnt rest a

def scan : Text → Nat → Agent → Agent × Bool
  | [], _, a => (a, false)
  | c :: rest, cnt, a =>
    let (parser, state) := a.parser.parse c 1
    match watch P state c cnt Pattern.all { a with parser } with
    | (a, true) => (a, true)
    | (a, false) => scan rest (cnt + 1) a

/-- `root_agent_analyze_block` -/
def analyzeBlock (a : Agent) (block : Text) (blockIndex : Int) : Agent × Bool :=
  let a := if blockIndex = 0 then a.reset else a
  a.scan P block 0

/-- `root_agent_regex`: where a pattern's value starts, and where it has to stop. -/
def regex (a : Agent) (pattern : Pattern) : Int × Int :=
  let start := a.fileIndex pattern
  let stop := Pattern.all.foldl (fun stop p =>
    let temp := P.int (a.fileIndex p - p.text.length)
    if temp > start ∧ temp < stop then temp else stop) (P.int a.size.toNat)
  (start, stop)

end Agent

namespace Store
variable (P : Platform) (st : Store)

/-- `root_agent_write` -/
def rootAgentWrite (slot : Nat) (block : Text) (blockIndex : Int) : Store × Int :=
  match (st.agents slot).analyzeBlock P block blockIndex with
  | (agent, true) => ({ st with agents := Function.update st.agents slot agent }, 0)
  | (agent, false) =>
    match P.cfsWrite (st.files agent.memoryIndex) blockIndex block with
    | .refused => ({ st with agents := Function.update st.agents slot agent }, 0)
    | .wrote n file =>
      let agents := Function.update st.agents slot { agent with size := agent.size + UInt16.ofInt n }
      let files := Function.update st.files agent.memoryIndex (some file)
      ({ st with agents, files }, n)

/-- `root_agent_read` -/
def rootAgentRead (slot blockSize : Nat) (blockIndex : Int) : ReadResult :=
  match st.files (st.agents slot).memoryIndex with
  | none => .none
  | some file =>
    if blockIndex < 0 then .none
    else
      let bytes := (file.drop blockIndex.toNat).take blockSize
      ⟨bytes, bytes.length⟩

/-- `root_resource_read`, through `intoa`, which stores a zero when no digit is left. -/
def rootResourceRead (slot blockSize : Nat) (blockIndex : Int) : ReadResult :=
  let digits := decimal (st.values slot).toNat
  let bytes := (digits.drop (P.unsigned blockIndex)).take blockSize
  ⟨if bytes = [] then chars ['0'] else bytes, bytes.length⟩

/-- A text that `snprintf` printed, terminator included; there is none in a block without bytes. -/
def printed (blockSize : Nat) (s : Text) : ReadResult :=
  ⟨if blockSize = 0 then [] else snprintf blockSize s ++ [0], s.length⟩

/-- `ipaddr_add`; the buffer holds any address. The second component counts the zero
words of the gap, or is negative once it is written. -/
def ipaddrAdd (address : List UInt16) : Text :=
  let word (acc : Text × Int) (iw : Nat × UInt16) : Text × Int :=
    let (buff, f) := acc
    let (i, w) := iw
    if w = 0 ∧ f ≥ 0 then (if f = 0 then buff ++ chars [':', ':'] else buff, f + 1)
    else
      let digits := hexadecimal w.toNat
      if f > 0 then (buff ++ digits, -1)
      else if i > 0 then (buff ++ chars [':'] ++ digits, f)
      else (buff ++ digits, f)
  (((List.range address.length).zip address).foldl word ([], 0)).1

/-- The string at `buff + i`, which may start in front of `buff`. -/
def fromIndex (buff : Text) (i : Int) : Text :=
  if 0 ≤ i then buff.drop i.toNat
  else cString ((List.range (-i).toNat).reverse.map (fun k => P.front (k + 1)) ++ buff)

/-- The quote or blank a listing puts after an address, by the room that is left. -/
def closing (offset : Int) : Text := if offset > 0 then chars ['"'] else chars [' ']

/-- The neighbor table from an entry on; `count` packets are already skipped. -/
def neighborFrom (blockSize : Nat) (packet : Int) :
    List (List UInt16) → Bool → Int → Text → ReadResult
  | [], _, count, data =>
    let data := if count < packet then [] else data
    let data := snprintf blockSize (data ++ chars [']'])
    ⟨data ++ [0], data.length + 1⟩
  | address :: rest, first, count, data =>
    let buff := ipaddrAdd address
    let offset : Int := blockSize - data.length - buff.length - 2
    let separator := if first then chars [' ', '"'] else chars [',', '"']
    let data := snprintf blockSize (data ++ separator ++ buff ++ closing offset)
    let offset := if offset > 0 then offset - 1 else offset
    if offset ≤ 0 ∧ count = packet then ⟨data ++ [0], data.length + 1⟩
    else if offset ≤ 0 ∧ count < packet then
      let data := snprintf blockSize (fromIndex P buff (buff.length + offset - 1) ++ chars ['"'])
      neighborFrom blockSize packet rest false (count + 1) data
    else neighborFrom blockSize packet rest false count data

/-- One side of a route: whether the packet is complete, whether the side is to be
written again at the start of the next packet, the packets skipped and the text. -/
def routeSide (blockSize : Nat) (packet : Int) (hop : Bool) (address : List UInt16)
    (first : Bool) (count : Int) (data : Text) : Bool × Bool × Int × Text :=
  let data := if first then snprintf blockSize (data ++ chars ['{']) else data
  let buff := ipaddrAdd address
  let offset : Int := blockSize - data.length - buff.length - 4
  let separator := if first then chars [' ', ' ', ' ']
    else if hop then chars [' ', ':', ' '] else chars ['}', ',', '{']
  let data := snprintf blockSize (data ++ separator ++ chars ['"'] ++ buff ++ closing offset)
  let offset := if offset > 0 then offset - 1 else offset
  if offset ≤ 0 ∧ count = packet then (true, false, count, data)
  else if offset ≤ 0 ∧ count < packet then
    let k := buff.length + offset - 1
    if k > 0 then
      (false, false, count + 1, snprintf blockSize (buff.drop k.toNat ++ chars ['"']))
    else
      let mark := if data.getLast? = some '"'.toUInt8 then chars [' '] else chars ['"']
      (false, true, count + 1, snprintf blockSize mark)
  else (false, false, count, data)

/-- The routing table side by side. A side is repeated only while packets are skipped. -/
def routesFrom (blockSize : Nat) (packet : Int) :
    Nat → List (Bool × List UInt16) → Bool → Int → Text → ReadResult
  | 0, _, _, _, _ => .none
  | _ + 1, [], _, count, data =>
    let data := if count < packet then []
      else if data = chars ['['] then snprintf blockSize (data ++ chars [']'])
      else snprintf blockSize (data ++ chars ['}', ']'])
    ⟨data ++ [0], data.length + 1⟩
  | fuel + 1, (hop, address) :: rest, first, count, data =>
    match routeSide blockSize packet hop address first count data with
    | (true, _, _, data) => ⟨data ++ [0], data.length + 1⟩
    | (false, true, count, data) =>
      routesFrom blockSize packet fuel ((hop, address) :: rest) false count data
    | (false, false, count, data) => routesFrom blockSize packet fuel rest false count data

/-- What `strlen` takes for the name the iterator left in a block. -/
def nameInBlock (blockSize : Nat) (name : Text) : Text :=
  if name.length = blockSize then name ++ P.behind blockSize else name

/-- The resource table from the name the iterator has just left on. -/
def resourcesFrom (blockSize : Nat) (packet : Int) :
    Nat → Text → Iter → Bool → Int → Text → Iter × ReadResult
  | 0, _, it, _, _, _ => (it, .none)
  | fuel + 1, name, it, first, count, data =>
    let buff := nameInBlock P blockSize name
    let offset : Int := blockSize - data.length - buff.length - 2
    let separator := if first then chars [' ', '"'] else chars [',', '"']
    let data := snprintf blockSize (data ++ separator ++ buff ++ closing offset)
    let offset := if offset > 0 then offset - 1 else offset
    if data.length + 1 = blockSize ∧ count = packet then (it, ⟨data ++ [0], data.length + 1⟩)
    else
      let (count, data) :=
        if offset ≤ 0 ∧ count < packet then
          let buff := snprintf blockSize (chars [',', '"'] ++ buff ++ chars ['"'])
          (count + 1, snprintf blockSize (fromIndex P buff (buff.length + offset - 2)))
        else (count, data)
      match it.getNext st.tree blockSize with
      | ([], it) =>
        let data := snprintf blockSize (data ++ chars [']'])
        (it, ⟨data ++ [0], data.length + 1⟩)
      | (name, it) => resourcesFrom blockSize packet fuel name it false count data

/-- `root_system_read` -/
def rootSystemRead (env : Env) (uri : Text) (blockSize : Nat) (blockIndex : Int) (r : Reader) :
    Reader × ReadResult :=
  let resource := emmaGetName uri
  let packet := Int.tdiv blockIndex blockSize
  let opening := snprintf blockSize (chars ['['])
  if resource.take 4 = chars ['t', 'i', 'm', 'e'] then
    (r, printed blockSize (formatInt (P.int env.now.toNat)))
  else if resource.take 4 = chars ['r', 'a', 'n', 'd'] then
    ({ r with draws := r.draws + 1 },
      printed blockSize (formatInt (P.int (P.random r.seed r.draws).toNat)))
  else if resource.take 4 = chars ['n', 's', '-', 'u'] then
    (r, printed blockSize (chars ['"', 'h', 't', 't', 'p', ':', '/', '/', 'l', 'o', 'c', 'a', 'l',
      'h', 'o', 's', 't', '/', 'e', 'm', 'm', 'a', '/', 'r', 'e', 'g', 'i', 's', 't', 'r', 'y', '/',
      'n', 's', '-', 'u', 'r', 'i', '1', '.', 'x', 'm', 'l', '"']))
  else if resource.take 8 = chars ['n', 'e', 'i', 'g', 'h', 'b', 'o', 'r'] then
    (r, neighborFrom P blockSize packet env.neighbors true 0 opening)
  else if resource = chars ['r', 'o', 'u', 't', 'e', 's'] then
    let sides := env.routes.flatMap fun (ip, hop) => [(false, ip), (true, hop)]
    (r, routesFrom blockSize packet (sides.length + packet.toNat + 1) sides true 0 opening)
  else if resource.take 8 = chars ['r', 'e', 's', 'o', 'u', 'r', 'c', 'e'] then
    let (name, iter) := (r.iter.reset st.tree).getNext st.tree blockSize
    let (iter, result) := st.resourcesFrom P blockSize packet maxNames name iter true 0 opening
    ({ r with iter }, result)
  else (r, .none)

/-- `emma_resource_read` -/
def emmaResourceRead (env : Env) (uri : Text) (blockSize : Nat) (blockIndex : Int) (r : Reader) :
    Reader × ReadResult :=
  match emmaGetRoot uri with
  | none => (r, .none)
  | some root =>
    match (st.tree.emmaGetResource (emmaGetName uri) root).resource with
    | none => (r, .none)
    | some i =>
      match root with
      | .agent => (r, st.rootAgentRead ((st.tree.data i).getD 0) blockSize blockIndex)
      | .resource => (r, st.rootResourceRead P ((st.tree.data i).getD 0) blockSize blockIndex)
      | .system => st.rootSystemRead P env uri blockSize blockIndex r

def emmaIntSize : Nat := 9

/-- The text of a reference as an URI: `#` stands for `/`, blanks do not count. -/
def referenceUri (reference : Text) : Text :=
  let buffer := snprintf (min (reference.length + 1) emmaMaxUriSize) (cString reference)
  (buffer.map fun c => if c = '#'.toUInt8 then slash else c).filter (· ≠ ' '.toUInt8)

/-- The value an URI reads as, none when the read returns nothing. -/
def readNumber (env : Env) (uri : Text) (r : Reader) : Reader × Option Int :=
  match st.emmaResourceRead P env uri emmaIntSize 0 r with
  | (r, result) => (r, if result.returned = 0 then none else some (antoi P result.bytes))

/-- `root_resource_solver`: what the sender calls remote is local here. -/
def rootResourceSolver (env : Env) (reference : Text) (r : Reader) : Reader × Option Int :=
  let uri := if reference.take 2 = chars ['R', '#'] then chars ['L', '#'] ++ reference.drop 2
    else reference
  st.readNumber P env (referenceUri uri) r

end Store
end EmmaNode

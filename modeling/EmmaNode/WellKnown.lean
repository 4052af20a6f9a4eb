import EmmaNode.Server

/-! The handler of `.well-known/core`: a machine that writes the links of all resources
and keeps the bytes from `offset` on. Its static variables are set anew by each call. -/

namespace EmmaNode

inductive WellKnownState where
  | start | ores | slsh | name | cres | seco | comma | attr | next | finish
  deriving DecidableEq

/-- `get_resources_root_description` -/
def Root.description : Root → Text
  | .agent => chars ['c', 't', '=', '"', 't', 'e', 'x', 't', '/', 'j', 's', 'o', 'n', '"', ';',
      'r', 't', '=', '"', 'A', 'g', 'e', 'n', 't', '"']
  | .resource => chars ['c', 't', '=', '"', 't', 'e', 'x', 't', '/', 'r', 'a', 'w', '"', ';',
      'r', 't', '=', '"', 'R', 'e', 's', 'o', 'u', 'r', 'c', 'e', '"']
  | .system => chars ['c', 't', '=', '"', 't', 'e', 'x', 't', '/', 'r', 'a', 'w', '"', ';',
      'r', 't', '=', '"', 's', 'y', 's', 't', 'e', 'm', '"']

/-- `out` is the buffer up to `outBufIndex`. -/
structure WellKnown where
  state : WellKnownState
  nameBuffer : Text
  resAttributes : Option Text
  out : Text
  inBufIndex : Nat
  globalIndex : Nat
  iter : Iter

namespace WellKnown

def init (iter : Iter) : WellKnown := ⟨.start, [], none, [], 0, 0, iter⟩

def write (w : WellKnown) (c : UInt8) (state : WellKnownState) : WellKnown :=
  { w with out := w.out ++ [c], globalIndex := w.globalIndex + 1, state }

/-- Copy `text` byte by byte and go on to `state` behind it. -/
def copy (w : WellKnown) (text : Text) (state : WellKnownState) : WellKnown :=
  match text[w.inBufIndex]? with
  | none => { w with inBufIndex := 0, state }
  | some c => { w.write c w.state with inBufIndex := w.inBufIndex + 1 }

def step (t : Tree) (w : WellKnown) : WellKnown :=
  match w.state with
  | .start =>
    let (nameBuffer, iter) := w.iter.get t (some .agent) emmaMaxUriSize
    { w with nameBuffer, iter, out := [], inBufIndex := 0, resAttributes := none
             state := if nameBuffer = [] then .finish else .ores }
  | .ores => w.write '<'.toUInt8 .slsh
  | .slsh => w.write '/'.toUInt8 .name
  | .name => w.copy w.nameBuffer .cres
  | .cres =>
    let resAttributes := (emmaGetRoot w.nameBuffer).map Root.description
    { w.write '>'.toUInt8 (if resAttributes.isSome then .seco else .next) with resAttributes }
  | .seco => w.write ';'.toUInt8 .attr
  | .comma => w.write ','.toUInt8 .ores
  | .attr => w.copy (w.resAttributes.getD []) .next
  | .next =>
    let (nameBuffer, iter) := w.iter.get t none emmaMaxUriSize
    { w with nameBuffer, iter, state := if nameBuffer = [] then .finish else .comma }
  | .finish => w

def run (t : Tree) (preferredSize : Nat) (offset : Int) : Nat → WellKnown → WellKnown
  | 0, w => w
  | fuel + 1, w =>
    if (w.out.length < preferredSize ∨ w.globalIndex ≤ offset) ∧ w.state ≠ .finish then
      run t preferredSize offset fuel
        ((if w.globalIndex ≤ offset then { w with out := [] } else w).step t)
    else w

/-- Turns for a name, its root's description and what stands between them. -/
def maxTurns : Nat := maxNames * (emmaMaxUriSize + 40)

end WellKnown

/-- `emma_well_known_core_handler` -/
def State.emmaWellKnownCoreHandler (s : State) (preferredSize : Nat) (offset : Int) :
    State × Reply :=
  let w := WellKnown.run s.store.tree preferredSize offset WellKnown.maxTurns (.init s.reader.iter)
  let s := { s with reader := { s.reader with iter := w.iter } }
  let offset := if w.state = .finish then -1 else offset + w.out.length
  if w.out = [] then
    let blockOutOfScope :=
      chars ['B', 'l', 'o', 'c', 'k', 'O', 'u', 't', 'O', 'f', 'S', 'c', 'o', 'p', 'e']
    (s, ⟨some .badOption, false, none, some ⟨blockOutOfScope, 15⟩, offset⟩)
  else (s, ⟨some .ok, false, none, some ⟨w.out, w.out.length⟩, offset⟩)

end EmmaNode

import EmmaNode.Roots

/-! The part of the node all processes share, and the functions of emma-resource.c that
open, write and close a resource through its root, delete it or mark it as modified. -/

namespace EmmaNode

structure State where
  store : Store
  reader : Reader
  /-- the static `lastModifier` -/
  lastModifier : Modifier
  opened : UInt8
  locked : UInt8
  /-- the static `count` of the request handler -/
  count : UInt64
  /-- `root_resource_stack` -/
  stack : Stack
  /-- the static `operandIndex` of `evaluate_block` -/
  operandIndex : Nat
  env : Env

namespace State
variable (P : Platform) (s : State)

/-- `get_next_resource_name_by_root` is in a loop that does not end. -/
def hung : Bool := s.reader.iter.stuck

def calculator : Calculator Reader := ⟨s.stack, s.operandIndex, s.reader⟩

def setCalculator (m : Calculator Reader) : State :=
  { s with stack := m.stack, operandIndex := m.operandIndex, reader := m.env }

def resolve (uri : Text) : Option Nat := s.store.tree.resolve uri

/-- `emma_resource_set_last_modified` without URI -/
def setLastModifier (key : Modifier) : State := { s with lastModifier := key }

/-- `emma_resource_set_last_modified` -/
def setLastModified (uri : Text) (key : Modifier) : State :=
  match s.resolve uri with
  | some i => { s with
      lastModifier := key
      store := { s.store with lastModified := Function.update s.store.lastModified i key } }
  | none => s

def release (uri : Text) : State := { s with store := s.store.emmaResourceRelease uri }

/-- `emma_resource_lock` -/
def lock (uri : Text) : State × Bool :=
  ({ s with store := (s.store.emmaResourceLock uri).1 }, (s.store.emmaResourceLock uri).2)

def setClocktime (uri : Text) : State :=
  { s with store := s.store.emmaResourceSetClocktime uri s.env.now }

def add (uri : Text) : State :=
  { s with store := (s.store.emmaResourceAdd P (emmaGetRoot uri) (emmaGetName uri)).1 }

/-- `emma_resource_del`, which always resets the iterator. -/
def del (uri : Text) : State × Nat :=
  let iter := s.reader.iter.reset s.store.tree
  ({ s with reader := { s.reader with iter }, store := (s.store.emmaResourceDel uri).1 },
    (s.store.emmaResourceDel uri).2)

/-- `emma_resource_open`: only the root of local resources has a function for it. -/
def emmaResourceOpen (uri : Text) : State × Int :=
  match emmaGetRoot uri with
  | none => (s, 0)
  | some root =>
    match s.resolve uri with
    | none => (s, -1)
    | some _ =>
      match root with
      | .resource => ({ s with stack := s.stack.clean }, 1)
      | _ => (s, 1)

/-- `root_resource_write`: the block size goes through a byte. -/
def rootResourceWrite (block : Text) : State × Int :=
  let solve := s.store.rootResourceSolver P s.env
  match s.calculator.evaluateBlock P solve (block.take (block.length % 256)) with
  | (m, .ready) => (s.setCalculator m, block.length)
  | (m, _) => (s.setCalculator m, 0)

/-- `emma_resource_write`: the system root has no function for it. -/
def emmaResourceWrite (uri block : Text) (blockIndex : Int) : State × Int :=
  match emmaGetRoot uri with
  | none => (s, 0)
  | some root =>
    match s.resolve uri with
    | none => (s, 0)
    | some i =>
      match root with
      | .agent =>
        let (store, n) := s.store.rootAgentWrite P ((s.store.tree.data i).getD 0) block blockIndex
        ({ s with store }, n)
      | .resource => s.rootResourceWrite P block
      | .system => (s, 0)

/-- `root_resource_close`: a complete evaluation becomes the value. -/
def rootResourceClose (slot : Nat) : State :=
  let solve := s.store.rootResourceSolver P s.env
  match s.calculator.evaluateResult P solve with
  | (m, _, some v) =>
    let values := Function.update s.store.values slot (UInt16.ofInt v)
    { s.setCalculator m with store := { s.store with values } }
  | (m, _, none) => s.setCalculator m

/-- `emma_resource_close`; nothing reads its result. -/
def emmaResourceClose (uri : Text) : State :=
  match emmaGetRoot uri with
  | some .resource =>
    match s.resolve uri with
    | some i => s.rootResourceClose P ((s.store.tree.data i).getD 0)
    | none => s
  | _ => s

/-- `emma_resource_read` -/
def emmaResourceRead (uri : Text) (blockSize : Nat) (blockIndex : Int) : State × ReadResult :=
  let (reader, result) := s.store.emmaResourceRead P s.env uri blockSize blockIndex s.reader
  ({ s with reader }, result)

/-- `get_next_resource_name_by_root` -/
def getNextResourceNameByRoot (root : Option Root) (blockSize : Nat) : State × Text :=
  let (name, iter) := s.reader.iter.get s.store.tree root blockSize
  ({ s with reader := { s.reader with iter } }, name)

end State
end EmmaNode

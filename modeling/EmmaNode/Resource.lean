import EmmaNode.Pool
import EmmaNode.ForestCursor
import EmmaNode.JsonParser

/-! The resource interface of emma-resource.c. A resource is a block of the pool of
`emma_resource_t`; the `Tree` holds the fields that say where it hangs and what it is
called, the `Store` the others together with the data of the three roots. Blocks keep
their content when they are freed, as the pool does. The attribute `nextOfResearch`,
which nothing reads, and the debug output are left out. -/

namespace EmmaNode

def emmaMaxResources : Nat := 18
def emmaMaxUriSize : Nat := 32
def emmaResourceNameSize : Nat := 16

inductive Mutex where
  | released
  | locked
  deriving DecidableEq

/-- The ids a resource can be modified under. -/
inductive Modifier where
  | nobody
  | server
  | client
  | system
  deriving DecidableEq

structure Tree where
  pool : Pool
  links : Nat → Links Nat
  name : Nat → Text
  data : Nat → Option Nat
  list : Root → Option Nat

/-- The patterns looked for in an agent, in the order of `agent_patterns`. -/
inductive Pattern where
  | pre
  | post
  | target
  | name
  deriving DecidableEq

/-- `root_agent_t` -/
structure Agent where
  memoryIndex : Nat
  patternIndex : Pattern → UInt8
  fileIndex : Pattern → Int
  size : UInt16
  parser : JsonParser

structure Store where
  tree : Tree
  mutex : Nat → Mutex
  lastModified : Nat → Modifier
  clocktime : Nat → UInt32
  /-- the pools of the roots' own data -/
  alloc : Root → Pool
  agents : Nat → Agent
  /-- the table `memory` of agent files in use, and the byte behind it -/
  memory : Nat → Bool
  values : Nat → UInt16
  /-- content of the file `ROOTAGENT<n>` -/
  files : Nat → Option Text

def slash : UInt8 := '/'.toUInt8

/-- `emma_get_name`: what follows the first slash. -/
def emmaGetName (uri : Text) : Text := (uri.dropWhile (· ≠ slash)).drop 1

/-- `emma_get_root` -/
def emmaGetRoot (uri : Text) : Option Root :=
  Root.all.find? fun r => r.name = uri.takeWhile (· ≠ slash)

/-- `emma_resource_name_is_basic` -/
def nameIsBasic (name : Text) : Bool := slash ∉ name

/-- `emma_get_resource_basename`: what follows the last slash. -/
def basename (name : Text) : Text := (name.reverse.takeWhile (· ≠ slash)).reverse

/-- `emma_resource_is_root` -/
def emmaResourceIsRoot (uri : Text) : Bool := emmaGetName uri = []

/-- The segments of a name, each with whether a slash follows it. A final slash ends
the search, it does not start a segment. -/
def pathSegments : Text → List (Text × Bool)
  | [] => [([], false)]
  | c :: rest =>
    if c = slash then ([], true) :: if rest = [] then [] else pathSegments rest
    else (pathSegments rest).modifyHead fun (segment, followed) => (c :: segment, followed)

structure Lookup where
  folder : Option Nat
  previous : Option Nat
  resource : Option Nat

namespace Tree
variable (t : Tree)

/-- Follow `next` links to the first resource called `segment`; also the resource in
front of it, or the first one again when it is the first. -/
def findSibling (segment : Text) : Nat → Option Nat → Option Nat → Option Nat × Option Nat
  | 0, previous, _ => (previous, none)
  | _ + 1, previous, none => (previous, none)
  | fuel + 1, previous, some i =>
    if t.name i = segment then (previous, some i)
    else findSibling segment fuel (some i) (t.links i).next

def descend : List (Text × Bool) → Option Nat → Option Nat → Lookup
  | [], folder, _ => ⟨folder, none, none⟩
  | (segment, followed) :: rest, folder, head =>
    match t.findSibling segment (emmaMaxResources + 1) head head with
    | (previous, none) => ⟨if followed then none else folder, previous, none⟩
    | (previous, some i) =>
      if rest = [] then ⟨folder, previous, some i⟩
      else descend rest (some i) (t.links i).subRoot

/-- `emma_get_resource` -/
def emmaGetResource (name : Text) (root : Root) : Lookup :=
  t.descend (pathSegments name) none (t.list root)

/-- The resource an URI leads to. -/
def resolve (uri : Text) : Option Nat :=
  (emmaGetRoot uri).bind fun root => (t.emmaGetResource (emmaGetName uri) root).resource

/-- `emma_clean_resource`, as far as the tree goes. -/
def clean (n : Nat) : Tree :=
  { t with
    links := Function.update t.links n ⟨none, none, none⟩
    name := Function.update t.name n []
    data := Function.update t.data n none }

/-- Folders and `i` itself, from the root down; read off the `prev` links. -/
def pathNames : Nat → Nat → List Text → List Text
  | 0, _, path => path
  | fuel + 1, i, path =>
    match (t.links i).prev with
    | none => path
    | some p => pathNames fuel p (if (t.links p).subRoot = some i then t.name p :: path else path)

/-- `print_full_path`; empty when the path does not fit into the block. -/
def printFullPath (root : Root) (resource : Option Nat) (blockSize : Nat) : Text :=
  let names := match resource with
    | none => []
    | some i => t.pathNames emmaMaxResources i [t.name i]
  let path := root.name ++ names.flatMap (slash :: ·)
  if path.length ≤ blockSize then path else []

end Tree

/-- The static variables of `get_next_resource_name_by_root`. `stuck` is set when its
loop does not end: the node then never does anything again. -/
structure Iter where
  rootTmp : Nat
  cursor : Cursor Nat
  stuck : Bool

namespace Iter

def init : Iter := ⟨0, .start none, false⟩

/-- `resources_roots[rootTmp]`, none behind the table. -/
def root (it : Iter) : Option Root := Root.all[it.rootTmp]?

def listAt (t : Tree) (rootTmp : Nat) : Option Nat := (Root.all[rootTmp]?).bind t.list

/-- `get_next_resource_name_by_root_reset`, and what a root given to the iterator does. -/
def begin (it : Iter) (t : Tree) (root : Root) : Iter :=
  { it with rootTmp := root.index, cursor := .start (t.list root) }

def reset (it : Iter) (t : Tree) : Iter := it.begin t .agent

/-- As many turns as there are pairs of a node to come from and one to stand on. -/
def maxTurns : Nat := (emmaMaxResources + 1) * (emmaMaxResources + 1) + 1

def getNext (it : Iter) (t : Tree) (blockSize : Nat) : Text × Iter :=
  match it.root with
  | none => ([], it)
  | some root =>
    match it.cursor.search t.links maxTurns with
    | none => ([], { it with stuck := true })
    | some c =>
      if c.found then
        (t.printFullPath root c.previous blockSize, { it with cursor := { c with found := false } })
      else
        (t.printFullPath root none blockSize,
          { it with rootTmp := it.rootTmp + 1, cursor := .start (listAt t (it.rootTmp + 1)) })

/-- `get_next_resource_name_by_root`; root 0 goes on, any other root starts anew. -/
def get (it : Iter) (t : Tree) (root : Option Root) (blockSize : Nat) : Text × Iter :=
  match root with
  | none => it.getNext t blockSize
  | some root => (it.begin t root).getNext t blockSize

end Iter

/-- All names the iterator yields: those of the resources, of the roots, and an end. -/
def maxNames : Nat := emmaMaxResources + Root.all.length + 1

def rootMaxAlloc : Root → Nat
  | .agent => 5
  | .resource => 5
  | .system => 6

/-- `root_agent_reset`, which leaves `memoryIndex` alone -/
def Agent.reset (a : Agent) : Agent :=
  { a with patternIndex := fun _ => 0, fileIndex := fun _ => 0, size := 0, parser := .clean }

namespace Store
variable (st : Store)

/-- `getMemoryIndex` -/
def getMemoryIndex : Nat := ((List.range (rootMaxAlloc .agent)).find? fun i => !st.memory i).getD
  (rootMaxAlloc .agent)

/-- `root_agent_alloc` -/
def rootAgentAlloc : Store × Option Nat :=
  match (st.alloc .agent).alloc with
  | none => (st, none)
  | some (slot, pool) =>
    let index := st.getMemoryIndex
    let agent := { st.agents slot with memoryIndex := index }
    let st := { st with
      memory := Function.update st.memory index true
      agents := Function.update st.agents slot agent }
    if rootMaxAlloc .agent ≤ index then (st, none)
    else ({ st with alloc := Function.update st.alloc .agent pool }, some slot)

/-- The allocators of the three roots. -/
def allocData (root : Root) : Store × Option Nat :=
  match root with
  | .agent => st.rootAgentAlloc
  | root =>
    match (st.alloc root).alloc with
    | none => (st, none)
    | some (slot, pool) => ({ st with alloc := Function.update st.alloc root pool }, some slot)

/-- The resetters of the three roots. -/
def resetData (root : Root) (slot : Nat) : Store :=
  match root with
  | .agent => { st with agents := Function.update st.agents slot (st.agents slot).reset }
  | .resource => { st with values := Function.update st.values slot 0 }
  | .system => st

/-- The deallocators of the three roots. -/
def freeData (root : Root) (slot : Nat) : Store :=
  let st := { st with alloc := Function.update st.alloc root ((st.alloc root).free slot) }
  match root with
  | .agent => { st with memory := Function.update st.memory (st.agents slot).memoryIndex false }
  | _ => st

/-- `emma_clean_resource`; the clock time stays. -/
def cleanResource (n : Nat) : Store :=
  { st with
    tree := st.tree.clean n
    mutex := Function.update st.mutex n .released
    lastModified := Function.update st.lastModified n .nobody }

/-- What `strlen` finds in the name field once `strncpy` has filled it. -/
def storedName (P : Platform) (root : Root) (slot : Nat) (base : Text) : Text :=
  if base.length < emmaResourceNameSize then base
  else base.take emmaResourceNameSize ++ P.pointerBytes root slot

/-- A block of the pool becomes the resource `base` of a root. -/
def fillResource (P : Platform) (root : Root) (n slot : Nat) (base : Text) : Store :=
  { st with tree := { st.tree with
      name := Function.update st.tree.name n (storedName P root slot base)
      data := Function.update st.tree.data n (some slot) } }

/-- Hang `n` below a folder, or at the top of its root when there is none. -/
def insert (root : Root) (folder : Option Nat) (n : Nat) : Store :=
  match folder with
  | some f => { st with tree := { st.tree with links := pushChild st.tree.links f n } }
  | none => { st with tree := { st.tree with
      links := pushTop st.tree.links (st.tree.list root) n
      list := Function.update st.tree.list root (some n) } }

/-- `emma_resource_add`. Without folder a name must be basic; when it is not, what was
allocated stays allocated. `emma_clean_resource` on an exhausted pool writes through a
null pointer; no reachable store exhausts it. -/
def emmaResourceAdd (P : Platform) (root : Option Root) (name : Text) : Store × Nat :=
  match root with
  | none => (st, 1)
  | some root =>
    if name = [] then (st, 6)
    else
      let place := st.tree.emmaGetResource name root
      if place.resource.isSome then (st, 2)
      else match st.tree.pool.alloc with
        | none => (st, 3)
        | some (n, pool) =>
          match (st.cleanResource n).allocData root with
          | (st, none) => (st, 4)
          | (st, some slot) =>
            let st := (st.fillResource P root n slot (basename name)).resetData root slot
            let st := { st with tree := { st.tree with pool } }
            if place.folder.isNone ∧ !nameIsBasic name then (st, 5)
            else (st.insert root place.folder n, 0)

/-- Take `i` out of its list, given the folder and the resource in front of it. -/
def extract (root : Root) (place : Lookup) (i : Nat) : Store :=
  let tree := st.tree
  match place.previous, place.folder with
  | some q, folder =>
    if q = i then
      match folder with
      | some f => { st with tree := { tree with links := dropChild tree.links f i } }
      | none => { st with tree := { tree with
          links := setPrev tree.links (tree.links i).next none
          list := Function.update tree.list root (tree.links i).next } }
    else { st with tree := { tree with links := dropNext tree.links q i } }
  | none, _ => st

/-- `emma_resource_del`, once it has reset the iterator. Every root frees its data. -/
def emmaResourceDel (uri : Text) : Store × Nat :=
  match emmaGetRoot uri with
  | none => (st, 1)
  | some root =>
    let place := st.tree.emmaGetResource (emmaGetName uri) root
    match place.resource with
    | none => (st, 2)
    | some i =>
      if (st.tree.links i).subRoot.isSome then (st, 3)
      else
        let st := match st.tree.data i with
          | some slot => st.freeData root slot
          | none => st
        let st := st.extract root place i
        ({ st with tree := { st.tree with pool := st.tree.pool.free i } }, 0)

/-- `emma_resource_exists` -/
def emmaResourceExists (uri : Text) : Bool := (st.tree.resolve uri).isSome

/-- `emma_resource_is_locked` -/
def emmaResourceIsLocked (uri : Text) : Bool :=
  match st.tree.resolve uri with
  | some i => st.mutex i = .locked
  | none => false

/-- `emma_resource_lock` -/
def emmaResourceLock (uri : Text) : Store × Bool :=
  match st.tree.resolve uri with
  | some i =>
    if st.mutex i = .locked then (st, false)
    else ({ st with mutex := Function.update st.mutex i .locked }, true)
  | none => (st, false)

/-- `emma_resource_release`; nothing reads its result. -/
def emmaResourceRelease (uri : Text) : Store :=
  match st.tree.resolve uri with
  | some i => { st with mutex := Function.update st.mutex i .released }
  | none => st

/-- `emma_resource_get_last_modified` of an URI -/
def emmaResourceGetLastModified (uri : Text) : Modifier :=
  match st.tree.resolve uri with
  | some i => st.lastModified i
  | none => .nobody

/-- `emma_resource_set_clocktime` -/
def emmaResourceSetClocktime (uri : Text) (clocktime : UInt32) : Store :=
  match st.tree.resolve uri with
  | some i => { st with clocktime := Function.update st.clocktime i clocktime }
  | none => st

/-- `emma_resource_get_clocktime` -/
def emmaResourceGetClocktime (uri : Text) : UInt32 :=
  match st.tree.resolve uri with
  | some i => st.clocktime i
  | none => 0

end Store
end EmmaNode

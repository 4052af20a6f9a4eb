import EmmaNode.Client
import EmmaNode.WellKnown
import EmmaNode.Transition

/-! The node as a whole: what it starts as and what can happen to it. Requests, timers
and the client share one thread. The client runs from one place where it yields to the
next; everything else that uses the store happens while it stands at such a place. -/

namespace EmmaNode

namespace Store

def empty (files : Nat → Option Text) : Store :=
  { tree :=
      { pool := .init emmaMaxResources, links := fun _ => ⟨none, none, none⟩, name := fun _ => []
        data := fun _ => none, list := fun _ => none }
    mutex := fun _ => .released
    lastModified := fun _ => .nobody
    clocktime := fun _ => 0
    alloc := fun root => .init (rootMaxAlloc root)
    agents := fun _ => ⟨0, fun _ => 0, fun _ => 0, 0, .clean⟩
    memory := fun _ => false
    values := fun _ => 0
    files }

/-- The resources `root_system_init` adds, in its order. -/
def systemNames : List Text :=
  [chars ['n', 's', '-', 'u', 'r', 'i'], chars ['r', 'a', 'n', 'd'], chars ['t', 'i', 'm', 'e'],
    chars ['n', 'e', 'i', 'g', 'h', 'b', 'o', 'r'], chars ['r', 'o', 'u', 't', 'e', 's'],
    chars ['r', 'e', 's', 'o', 'u', 'r', 'c', 'e', 's']]

/-- `emma_resource_init`; the agent files are what the flash holds. -/
def init (P : Platform) (files : Nat → Option Text) : Store :=
  systemNames.foldl (fun st name => (st.emmaResourceAdd P (some .system) name).1) (empty files)

end Store

def State.init (P : Platform) (files : Nat → Option Text) (env : Env) : State :=
  { store := .init P files, reader := ⟨.init, 0, 0⟩, lastModifier := .nobody, opened := 0
    locked := 0, count := 0, stack := .init, operandIndex := 0, env }

def systemTime : Text := chars ['S', '/', 't', 'i', 'm', 'e']

/-- The timer event of `emma_system_process` -/
def State.systemTimer (s : State) : State :=
  match s.lock systemTime with
  | (s, true) => (s.setLastModified systemTime .system).release systemTime
  | (s, false) => s

inductive Event where
  | request (rq : Request)
  | wellKnown (preferredSize : Nat) (offset : Int)
  | watchdog
  | systemTimer
  | client
  /-- what `COAP_BLOCKING_REQUEST` learns: the class of an answer, if any, and whether
  it is the last -/
  | response (success : Option Bool) (last : Bool)
  | environment (env : Env)

namespace System
variable (P : Platform)

def init (files : Nat → Option Text) (env : Env) : System := ⟨.init P files env, .init⟩

/-- `emma_client_chunk_callback`, and the return when the last answer is in. -/
def respond (s : System) (success : Option Bool) (last : Bool) : System :=
  s.setClient fun c => { c with
    sendOK := success.getD c.sendOK
    pc := if last then .answered else c.pc }

def step (s : System) (e : Event) : Option System :=
  if s.shared.reader.iter.stuck then none
  else match e with
    | .request rq =>
      if s.client.pc.yields then some { s with shared := (s.shared.emmaServerHandler P rq).1 }
      else none
    | .wellKnown preferredSize offset =>
      if s.client.pc.yields then
        some { s with shared := (s.shared.emmaWellKnownCoreHandler preferredSize offset).1 }
      else none
    | .watchdog =>
      if s.client.pc.yields then some (s.mapShared (State.watchdog · s.client.quiet)) else none
    | .systemTimer => if s.client.pc.yields then some (s.mapShared State.systemTimer) else none
    | .client => s.clientStep P
    | .response success last =>
      if s.client.pc = .blocked then some (s.respond success last) else none
    | .environment env => some (s.mapShared fun t => { t with env })

/-- Reached from the start by steps that meet a condition -/
def ReachableBy (ok : System → Event → Prop) (s : System) : Prop :=
  ∃ files env, Runs (step P) ok (init P files env) s

def Reachable (s : System) : Prop := ReachableBy P (fun _ _ => True) s

end System
end EmmaNode

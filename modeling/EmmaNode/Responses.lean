import EmmaNode.Transfer
import EmmaNode.Grammar

/-! What the answers to PUT and POST promise. An answer of success stands for a block that
is written in full into a resource that is still there. Two answers promise more than has
been done: that to the last block of a POST, which is CREATED whether or not the block could
be written, and that to the last block of a local resource, which does not depend on whether
the transferred text is an expression, nor on whether its value can be stored. -/

namespace EmmaNode

/-- The node and, beside it, what is being transferred: where to, its blocks so far, and the
reader in front of them. -/
structure Told where
  node : System
  sent : Option (Text × List Text × Reader)

namespace Told
variable (P : Platform) (t : Told) (rq : Request) (uri : Text)

def begin (files : Nat → Option Text) (env : Env) : Told := ⟨.init P files env, none⟩

def atWrite : State := t.node.shared.atWrite P rq uri

def solver : Text → Reader → Reader × Option Int :=
  (t.atWrite P rq uri).store.rootResourceSolver P (t.atWrite P rq uri).env

def earlier : Option (List Text × Reader) :=
  if rq.blockNum = 0 then some ([], (t.atWrite P rq uri).reader)
  else t.sent.bind fun (place, blocks, reader) =>
    if place = uri then some (blocks, reader) else none

def note : Option (Text × List Text × Reader) :=
  match rq.uri with
  | none => t.sent
  | some uri =>
    if (rq.method = .put ∨ rq.method = .post) ∧ t.node.shared.Taken P rq uri then
      (t.earlier P rq uri).map fun (blocks, reader) => (uri, blocks ++ [rq.payload], reader)
    else t.sent

def step (e : Event) : Option Told :=
  (t.node.step P e).map fun node => ⟨node, match e with
    | .request rq => t.note P rq
    | _ => t.sent⟩

/-- The text that ends with this block is an expression with that value. -/
def Comes (v : UInt16) : Prop :=
  ∃ blocks reader, t.earlier P rq uri = some (blocks, reader) ∧
    Means (t.solver P rq uri) reader (blocks ++ [rq.payload]).flatten v.toNat

end Told

namespace State
variable {P : Platform} {s : State} {rq : Request} {uri : Text}

theorem marked_same (s : State) (uri : Text) (key : Modifier) :
    s.store.Same ((s.setClocktime uri).setLastModified uri key).store ∧
    ((s.setClocktime uri).setLastModified uri key).calculator = s.calculator ∧
    ((s.setClocktime uri).setLastModified uri key).env = s.env := by
  obtain ⟨same, calculator, env⟩ := (s.setClocktime uri).setLastModified_same uri key
  exact ⟨(s.setClocktime_same uri).trans same, calculator, env⟩

end State

namespace Told
variable {P : Platform} {t : Told} {rq : Request}

def bare : Told := begin .plain (fun _ => none) .bare

end Told
end EmmaNode

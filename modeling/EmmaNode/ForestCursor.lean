import EmmaNode.LinkedForest

/-! A walk over a linked forest that can be left and resumed: it keeps the node it
comes from and the node it stands on, and finds its way back by `prev` links. -/

namespace EmmaNode

structure Cursor (ι : Type) where
  previous : Option ι
  current : Option ι
  next : Option ι
  found : Bool
  deriving DecidableEq

namespace Cursor
variable {ι : Type} [DecidableEq ι]

def start (head : Option ι) : Cursor ι := ⟨none, head, none, false⟩

/-- One turn at `i`: go down from above; stop here when nothing hangs below or when
coming back from there; go up when nothing follows or when coming back from there. -/
def turn (h : ι → Links ι) (i : ι) (c : Cursor ι) : Cursor ι :=
  let c := if c.previous = (h i).prev then
      { c with previous := some i, next := (h i).subRoot } else c
  let c := if c.next = none ∨ c.previous = (h i).subRoot then
      { c with found := true, previous := some i, next := (h i).next } else c
  let c := if c.next = none ∨ c.previous = (h i).next then
      { c with previous := some i, next := (h i).prev } else c
  { c with current := c.next }

def search (h : ι → Links ι) : Nat → Cursor ι → Option (Cursor ι)
  | 0, _ => none
  | fuel + 1, c =>
    match c.current, c.found with
    | some i, false => search h fuel (c.turn h i)
    | _, _ => some c

end Cursor
end EmmaNode

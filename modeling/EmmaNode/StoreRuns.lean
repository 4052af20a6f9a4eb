import EmmaNode.StoreInvariant
import EmmaNode.ForestWalk

/-! Stores as the resource interface brings them about, from an empty one on: every process
of the node works on the store through these calls only. In each of them the links of the
three lists form a forest, in which `prev` leads back along the one link that leads to a
resource, and every resource has data of its own. -/

namespace EmmaNode

/-- The calls of emma-resource.h that change a store; an agent is written block by block,
a local resource when it is closed. -/
inductive StoreOp where
  | add (root : Option Root) (name : Text)
  | del (uri : Text)
  | lock (uri : Text)
  | release (uri : Text)
  | setLastModified (uri : Text) (key : Modifier)
  | setClocktime (uri : Text) (clocktime : UInt32)
  | writeAgent (uri block : Text) (blockIndex : Int)
  | setValue (uri : Text) (value : UInt16)

namespace Store

def slotOf (st : Store) (uri : Text) : Option Nat := (st.tree.resolve uri).bind st.tree.data

def apply (P : Platform) (st : Store) : StoreOp → Store
  | .add root name => (st.emmaResourceAdd P root name).1
  | .del uri => (st.emmaResourceDel uri).1
  | .lock uri => (st.emmaResourceLock uri).1
  | .release uri => st.emmaResourceRelease uri
  | .setLastModified uri key =>
    match st.tree.resolve uri with
    | some i => { st with lastModified := Function.update st.lastModified i key }
    | none => st
  | .setClocktime uri clocktime => st.emmaResourceSetClocktime uri clocktime
  | .writeAgent uri block blockIndex =>
    match emmaGetRoot uri, st.slotOf uri with
    | some .agent, some slot => (st.rootAgentWrite P slot block blockIndex).1
    | _, _ => st
  | .setValue uri value =>
    match emmaGetRoot uri, st.slotOf uri with
    | some .resource, some slot => { st with values := Function.update st.values slot value }
    | _, _ => st

/-- Reached from the store of `emma_resource_init` by calls of the interface. -/
def Reached (P : Platform) (st : Store) : Prop :=
  ∃ files, Runs (fun st op => some (apply P st op)) (fun _ _ => True) (empty files) st

end Store

inductive Source where
  | list (root : Root)
  | folder (i : Nat)
  | sibling (i : Nat)
  deriving DecidableEq

namespace Source

def origin : Source → Option Nat
  | list _ => none
  | folder i => some i
  | sibling i => some i

def target (t : Tree) : Source → Option Nat
  | list root => t.list root
  | folder i => (t.links i).subRoot
  | sibling i => (t.links i).next

def Of (t : Tree) (r : Root) : Source → Prop
  | list root => root = r
  | folder i => t.Live r i
  | sibling i => t.Live r i

end Source

/-- The lists of the three roots form a doubly linked forest of blocks in use, each with a
block of data of its own. -/
structure Store.Linked (st : Store) : Prop where
  /-- `prev` is the way back. -/
  back : ∀ r s j, Source.Of st.tree r s → s.target st.tree = some j →
    (st.tree.links j).prev = s.origin
  /-- No resource is reached by two links. -/
  single : ∀ r r' s s' j, Source.Of st.tree r s → Source.Of st.tree r' s' →
    s.target st.tree = some j → s'.target st.tree = some j → s = s'
  /-- No links lead in a circle: they all lead down in some rank. -/
  acyclic : ∀ r, ∃ rank : Nat → Nat, ∀ i j, st.tree.Live r i →
    ((st.tree.links i).subRoot = some j ∨ (st.tree.links i).next = some j) → rank j < rank i
  used : ∀ r i, st.tree.Live r i → st.tree.pool.Used i
  data : ∀ r i, st.tree.Live r i →
    ∃ slot, st.tree.data i = some slot ∧ (st.alloc r).Used slot
  own : ∀ r i j, st.tree.Live r i → st.tree.Live r j → st.tree.data i = st.tree.data j → i = j

namespace Represents
open Forest

variable {ι : Type} {h : ι → Links ι} {p head : Option ι} {t : Forest ι}

theorem prev_of_link {i j : ι} (r : Represents h p head t) (hi : i ∈ t.walk)
    (link : (h i).subRoot = some j ∨ (h i).next = some j) : (h j).prev = some i := by
  induction t generalizing p head with
  | nil => simp [walk] at hi
  | node k sub next ihs ihn =>
    obtain ⟨-, -, rs, rn⟩ := r
    simp only [walk, List.mem_append, List.mem_cons] at hi
    rcases hi with hm | rfl | hm
    · exact ihs rs hm
    · rcases link with hj | hj
      · rw [hj] at rs
        cases sub with
        | nil => exact absurd rs (by simp [Represents])
        | node l s n => exact Option.some.inj rs.1 ▸ rs.2.1
      · rw [hj] at rn
        cases next with
        | nil => exact absurd rn (by simp [Represents])
        | node l s n => exact Option.some.inj rn.1 ▸ rn.2.1
    · exact ihn rn hm

theorem prev_of_head {i : ι} (r : Represents h p (some i) t) : (h i).prev = p := by
  cases t with
  | nil => exact absurd r (by simp [Represents])
  | node j sub next => exact Option.some.inj r.1 ▸ r.2.1

end Represents

namespace Store
variable {P : Platform} {st : Store} {f : Root → Forest Nat}

theorem Sound.back (so : st.Sound f) {r : Root} {s : Source} {j : Nat}
    (of : Source.Of st.tree r s) (target : s.target st.tree = some j) :
    (st.tree.links j).prev = s.origin := by
  cases s with
  | list root =>
    have rep := so.shape.rep root
    rw [show st.tree.list root = some j from target] at rep
    exact rep.prev_of_head
  | folder i => exact (so.shape.rep r).prev_of_link ((so.shape.live_iff r i).mp of) (.inl target)
  | sibling i => exact (so.shape.rep r).prev_of_link ((so.shape.live_iff r i).mp of) (.inr target)

theorem target_live {t : Tree} {r : Root} {s : Source} {j : Nat} (of : Source.Of t r s)
    (target : s.target t = some j) : t.Live r j := by
  cases s with
  | list root =>
    obtain rfl : root = r := of
    exact .top target
  | folder i => exact .sub of target
  | sibling i => exact .next of target

theorem Sound.single (so : st.Sound f) {r r' : Root} {s s' : Source} {j : Nat}
    (of : Source.Of st.tree r s) (of' : Source.Of st.tree r' s')
    (target : s.target st.tree = some j) (target' : s'.target st.tree = some j) : s = s' := by
  have origin : s.origin = s'.origin := (so.back of target).symm.trans (so.back of' target')
  have root : r = r' := so.shape.apart r r' j ((so.shape.live_iff r j).mp (target_live of target))
    ((so.shape.live_iff r' j).mp (target_live of' target'))
  have two (i : Nat) (live : st.tree.Live r i) (below : (st.tree.links i).subRoot = some j) :
      (st.tree.links i).next ≠ some j :=
    (so.shape.rep r).subRoot_ne_next (so.shape.nodup r) ((so.shape.live_iff r i).mp live) below
  subst root
  cases s with
  | list root =>
    cases s' with
    | list root' => rw [show root = r from of, show root' = r from of']
    | folder i => cases origin
    | sibling i => cases origin
  | folder i =>
    cases s' with
    | list root' => cases origin
    | folder i' => rw [Option.some.inj origin]
    | sibling i' =>
      cases origin
      exact absurd target' (two i of target)
  | sibling i =>
    cases s' with
    | list root' => cases origin
    | folder i' =>
      cases origin
      exact absurd target (two i of target')
    | sibling i' => rw [Option.some.inj origin]

theorem Sound.links (so : st.Sound f) : st.Linked where
  back _ _ _ := so.back
  single _ _ _ _ _ := so.single
  acyclic r := ⟨fun i => ((f r).part i).walk.length, fun i _ live =>
    (so.shape.rep r).part_length (so.shape.nodup r) ((so.shape.live_iff r i).mp live)⟩
  used r i live := so.shape.used r i ((so.shape.live_iff r i).mp live)
  data r i live := so.slot r i ((so.shape.live_iff r i).mp live)
  own r i j hi hj := so.slotInj r i j ((so.shape.live_iff r i).mp hi) ((so.shape.live_iff r j).mp hj)

theorem apply_same (op : StoreOp) (add : ∀ root name, op ≠ .add root name)
    (del : ∀ uri, op ≠ .del uri) :
    (st.apply P op).tree = st.tree ∧ (st.apply P op).alloc = st.alloc := by
  cases op with
  | add root name => exact absurd rfl (add root name)
  | del uri => exact absurd rfl (del uri)
  | lock uri =>
    simp only [apply, emmaResourceLock]
    split
    · split <;> exact ⟨rfl, rfl⟩
    · exact ⟨rfl, rfl⟩
  | release uri =>
    simp only [apply, emmaResourceRelease]
    split <;> exact ⟨rfl, rfl⟩
  | setLastModified uri key =>
    simp only [apply]
    split <;> exact ⟨rfl, rfl⟩
  | setClocktime uri clocktime =>
    simp only [apply, emmaResourceSetClocktime]
    split <;> exact ⟨rfl, rfl⟩
  | writeAgent uri block blockIndex =>
    simp only [apply]
    split
    · rename_i slot _ _
      obtain ⟨agents, files, h⟩ := State.Content.rootAgentWrite (P := P) st slot block blockIndex
      rw [h]
      exact ⟨rfl, rfl⟩
    · exact ⟨rfl, rfl⟩
  | setValue uri value =>
    simp only [apply]
    split <;> exact ⟨rfl, rfl⟩

theorem Sound.apply (so : st.Sound f) (op : StoreOp) : ∃ f', (st.apply P op).Sound f' := by
  by_cases add : ∃ root name, op = .add root name
  · obtain ⟨root, name, rfl⟩ := add
    exact so.add root name
  by_cases del : ∃ uri, op = .del uri
  · obtain ⟨uri, rfl⟩ := del
    exact so.del uri
  obtain ⟨tree, alloc⟩ := @apply_same P st op
    (fun root name e => add ⟨root, name, e⟩) (fun uri e => del ⟨uri, e⟩)
  exact ⟨f, so.content tree alloc⟩

theorem Reached.sound (h : st.Reached P) : ∃ f, st.Sound f := by
  obtain ⟨files, run⟩ := h
  refine run.keeps (I := fun st => ∃ f, st.Sound f) (fun t op u _ step ⟨f, so⟩ => ?_)
    ⟨_, sound_empty files⟩
  cases step
  exact so.apply op

/-- In every store the calls can bring about the links form a forest. -/
theorem Reached.linked (h : st.Reached P) : st.Linked :=
  h.sound.elim fun _ so => so.links

theorem reached_foldl (P : Platform) (files : Nat → Option Text) (ops : List StoreOp) :
    (ops.foldl (apply P) (empty files)).Reached P := by
  have further : ∀ st : Store, st.Reached P → (ops.foldl (apply P) st).Reached P := by
    induction ops with
    | nil => exact fun _ h => h
    | cons op ops ih => exact fun st ⟨files, run⟩ => ih _ ⟨files, run.tail trivial rfl⟩
  exact further _ ⟨files, .refl⟩

def folderStore : Store :=
  [StoreOp.add (some .resource) (chars "v".toList), .add (some .resource) (chars "x".toList),
    .add (some .resource) (chars "w".toList), .add (some .resource) (chars "x/y".toList),
    .add (some .resource) (chars "x/z".toList), .del (chars "L/x/z".toList)].foldl
      (apply .plain) (empty fun _ => none)

theorem linked_folder : folderStore.emmaResourceExists (chars "L/x/y".toList) = true ∧
    folderStore.emmaResourceExists (chars "L/x/z".toList) = false ∧ folderStore.Linked :=
  ⟨by decide +kernel, by decide +kernel, (reached_foldl .plain _ _).linked⟩

end Store
end EmmaNode

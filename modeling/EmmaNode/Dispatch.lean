import EmmaNode.Payloads
import Mathlib.Data.List.Induction

/-! What the targets of an agent get. The client walks the list of targets and the list of
payloads side by side and looks for the end of neither list in the other: a target behind
the last payload gets what the scanner finds there, and one behind a payload that was broken
off gets the rest of it. All others get their own payload, block by block. -/

namespace EmmaNode

structure IsBlock (o : Text) (j : Nat) (rq : ClientRequest) : Prop where
  inside : j * emmaClientBufferSize < o.length
  payload : rq.payload = (o.drop (j * emmaClientBufferSize)).take emmaClientBufferSize
  num : rq.block1.num.toNat = j
  more : rq.block1.more = decide ((j + 1) * emmaClientBufferSize < o.length)
  size : rq.block1.size.toNat = emmaClientBufferSize

/-- The first blocks of an object, in their order -/
def Blocks (o : Text) (requests : List ClientRequest) : Prop :=
  ∀ j rq, requests[j]? = some rq → IsBlock o j rq

/-- Where the request goes is what the client has read as its target. -/
structure ClientRequest.For (rq : ClientRequest) (t : TargetReader) : Prop where
  uri : rq.uri = t.uriText
  address : rq.address = (List.range maxIpChunks).map t.parser.address
  port : rq.port = t.parser.port

/-- The targets the loop has turned to, the requests with the number of their target, the
targets given up, and whether one was given up with more of its payload to come. -/
structure Ledger where
  targets : List TargetReader
  sent : List (Nat × ClientRequest)
  failed : List Nat
  broken : Bool

namespace Ledger

def empty : Ledger := ⟨[], [], [], false⟩

def turn (l : Ledger) (t : TargetReader) : Ledger := { l with targets := l.targets ++ [t] }

def send (l : Ledger) (rq : ClientRequest) : Ledger :=
  { l with sent := l.sent ++ [(l.targets.length, rq)] }

def fail (l : Ledger) (more : Bool) : Ledger :=
  { l with failed := l.failed ++ [l.targets.length], broken := l.broken || more }

def requestsTo (l : Ledger) (i : Nat) : List ClientRequest :=
  (l.sent.filter fun q => q.1 = i).map Prod.snd

end Ledger

structure Dispatch where
  system : System
  ledger : Ledger

namespace Dispatch
variable (P : Platform)

def begin (s : System) : Dispatch := ⟨s.agentHead P, .empty⟩

def record (d : Dispatch) (t : System) : Ledger :=
  match d.system.client.pc with
  | .target => if t.client.pc = .block then d.ledger.turn t.client.target else d.ledger
  | .send =>
    match t.client.request with
    | some rq => d.ledger.send rq
    | none => d.ledger
  | .answered =>
    if d.system.client.sendOK then d.ledger else d.ledger.fail d.system.client.postMore
  | _ => d.ledger

def step (d : Dispatch) (e : Event) : Option Dispatch :=
  if d.system.client.pc = .agent then none
  else (d.system.step P e).map fun t =>
    ⟨t, match e with
      | .client => d.record t
      | _ => d.ledger⟩

/-- The loop is through with the target. -/
def Served (d : Dispatch) (i : Nat) : Prop :=
  i < d.ledger.targets.length ∨ i = d.ledger.targets.length ∧
    (d.system.client.pc = .target ∨ d.system.client.pc = .agent)

/-- Each target gets the payload in its place and no other. -/
structure Proper (objects : List Text) (d : Dispatch) : Prop where
  only : ∀ q ∈ d.ledger.sent, 0 < q.1 ∧ q.1 ≤ objects.length
  addressed : ∀ q ∈ d.ledger.sent, ∃ t, d.ledger.targets[q.1 - 1]? = some t ∧ q.2.For t
  blocks : ∀ i o, objects[i]? = some o → Blocks o (d.ledger.requestsTo (i + 1))
  whole : ∀ i o, objects[i]? = some o → d.Served (i + 1) → i + 1 ∉ d.ledger.failed →
    (d.ledger.requestsTo (i + 1)).flatMap ClientRequest.payload = o

/-- The agent keeps its text, and a target the loop turns to has a payload that begins where
the loop stands. Without payloads there must be no type of payload left from another agent. -/
def Fair (text : Text) (objects : List Text) (d : Dispatch) (e : Event) : Prop :=
  match e with
  | .client =>
    (d.system.client.pc = .target ∨ d.system.client.pc = .block → d.system.HasText text) ∧
    (d.system.client.pc = .target → d.system.client.code ≠ 0 → d.system.client.pre ≠ 0 →
      d.ledger.broken = false ∧ (d.ledger.targets.length < objects.length ∨
        objects = [] ∧ d.system.client.postMode = .unset))
  | _ => True

instance (text : Text) (objects : List Text) (d : Dispatch) (e : Event) :
    Decidable (Fair text objects d e) :=
  match e with
  | .client => inferInstanceAs (Decidable (_ ∧ _))
  | .request _ | .wellKnown .. | .watchdog | .systemTimer | .response .. | .environment _ =>
    inferInstanceAs (Decidable True)

end Dispatch

/-- The client is about to run an agent with this text and these payloads. -/
structure System.Posts (P : Platform) (s : System) (text : Text) (stop : Nat)
    (objects : List Text) : Prop where
  pc : s.client.pc = .agent
  root : emmaGetRoot s.client.name = some .agent
  leaf : ¬emmaResourceIsRoot s.client.name
  list : ∃ start : Nat,
    s.getIndexOfPattern P s.client.name .post = some ((start : Int), (stop : Int)) ∧
    Holds text stop (start + 1) objects
  indexed : Indexed P text

/-! ### The ledger -/

theorem Blocks.joined {o : Text} {requests : List ClientRequest} (h : Blocks o requests) :
    requests.flatMap ClientRequest.payload = o.take (requests.length * emmaClientBufferSize) := by
  induction requests using List.reverseRecOn with
  | nil => simp
  | append_singleton requests rq ih =>
    have front : Blocks o requests := fun j r hr =>
      h j r (by rw [List.getElem?_append_left (List.getElem?_eq_some_iff.mp hr).1, hr])
    have last := h requests.length rq (by simp)
    rw [List.flatMap_append, ih front, List.flatMap_singleton, last.payload, List.length_append,
      List.length_singleton, Nat.succ_mul, List.take_add]

namespace Ledger
variable {objects : List Text} {l : Ledger}

def Complete (objects : List Text) (l : Ledger) (k : Nat) : Prop :=
  ∀ i o, objects[i]? = some o → i + 1 < k → i + 1 ∉ l.failed →
    o.length ≤ (l.requestsTo (i + 1)).length * emmaClientBufferSize

structure Sound (objects : List Text) (l : Ledger) : Prop where
  only : ∀ q ∈ l.sent, 0 < q.1 ∧ q.1 ≤ objects.length
  known : ∀ q ∈ l.sent, q.1 ≤ l.targets.length
  addressed : ∀ q ∈ l.sent, ∃ t, l.targets[q.1 - 1]? = some t ∧ q.2.For t
  blocks : ∀ i o, objects[i]? = some o → Blocks o (l.requestsTo (i + 1))
  complete : l.Complete objects l.targets.length

theorem sound_empty : empty.Sound objects where
  only q hq := absurd hq List.not_mem_nil
  known q hq := absurd hq List.not_mem_nil
  addressed q hq := absurd hq List.not_mem_nil
  blocks i o _ j rq h := by simp [requestsTo, empty] at h
  complete i o _ h := absurd h (Nat.not_lt_zero _)

theorem requestsTo_turn (t : TargetReader) (i : Nat) : (l.turn t).requestsTo i = l.requestsTo i := rfl

theorem requestsTo_send (rq : ClientRequest) (i : Nat) : (l.send rq).requestsTo i =
    l.requestsTo i ++ if i = l.targets.length then [rq] else [] := by
  unfold requestsTo send
  rw [List.filter_append, List.map_append]
  by_cases h : i = l.targets.length
  · simp [h]
  · simp [h, Ne.symm h]

theorem Sound.requestsTo_none (h : l.Sound objects) {i : Nat} (ahead : l.targets.length < i) :
    l.requestsTo i = [] := by
  rw [requestsTo, List.map_eq_nil_iff, List.filter_eq_nil_iff]
  intro q hq
  have := h.known q hq
  simp only [decide_eq_true_eq]
  omega

theorem Sound.turn (h : l.Sound objects) (done : l.Complete objects (l.targets.length + 1))
    (t : TargetReader) : (l.turn t).Sound objects where
  only := h.only
  known q hq := by
    have := h.known q hq
    rw [Ledger.turn, List.length_append]
    omega
  addressed q hq := by
    obtain ⟨r, hr, goes⟩ := h.addressed q hq
    refine ⟨r, ?_, goes⟩
    rw [Ledger.turn, List.getElem?_append_left (List.getElem?_eq_some_iff.mp hr).1, hr]
  blocks := h.blocks
  complete i o ho hi := done i o ho (by rwa [Ledger.turn, List.length_append] at hi)

theorem Sound.send (h : l.Sound objects) {o : Text} {rq : ClientRequest} {t : TargetReader}
    (object : objects[l.targets.length - 1]? = some o) (reader : l.targets.getLast? = some t)
    (goes : rq.For t) (block : IsBlock o (l.requestsTo l.targets.length).length rq) :
    (l.send rq).Sound objects := by
  have began : 0 < l.targets.length :=
    List.length_pos_iff.mpr fun e => by rw [e] at reader; cases reader
  have inside := (List.getElem?_eq_some_iff.mp object).1
  have new {motive : Nat × ClientRequest → Prop} (old : ∀ q ∈ l.sent, motive q)
      (last : motive (l.targets.length, rq)) : ∀ q ∈ (l.send rq).sent, motive q := by
    intro q hq
    rcases List.mem_append.mp hq with hq | hq
    · exact old q hq
    · rwa [List.mem_singleton.mp hq]
  refine ⟨new h.only ⟨began, by omega⟩, new h.known (Nat.le_refl _),
    new h.addressed ⟨t, List.getLast?_eq_getElem?.symm.trans reader, goes⟩, ?_, ?_⟩
  · intro i o' ho' j r hr
    rw [requestsTo_send] at hr
    split at hr
    · rename_i here
      have same : o' = o := by
        have : l.targets.length - 1 = i := by omega
        rw [this, ho'] at object
        exact Option.some.inj object
      subst same
      rcases Nat.lt_or_ge j (l.requestsTo (i + 1)).length with hj | hj
      · exact h.blocks i o' ho' j r (by rwa [List.getElem?_append_left hj] at hr)
      · rw [List.getElem?_append_right hj, List.getElem?_singleton] at hr
        split at hr
        · cases hr
          have : j = (l.requestsTo l.targets.length).length := by
            rw [← here]
            omega
          rwa [this]
        · cases hr
    · rw [List.append_nil] at hr
      exact h.blocks i o' ho' j r hr
  · intro i o' ho' hi hf
    have other : ¬i + 1 = l.targets.length := Nat.ne_of_lt hi
    rw [requestsTo_send, if_neg other, List.append_nil]
    exact h.complete i o' ho' hi hf

theorem Sound.fail (h : l.Sound objects) (more : Bool) : (l.fail more).Sound objects where
  only := h.only
  known := h.known
  addressed := h.addressed
  blocks := h.blocks
  complete i o ho hi hf := h.complete i o ho hi fun old => hf (List.mem_append_left _ old)

theorem Sound.complete_fail (h : l.Sound objects) (more : Bool) :
    (l.fail more).Complete objects (l.targets.length + 1) := by
  intro i o ho hi hf
  by_cases here : i + 1 = l.targets.length
  · exact absurd (List.mem_append_right _ (by simp [here])) hf
  · exact (h.fail more).complete i o ho (by simp only [Ledger.fail]; omega) hf

end Ledger

/-! ### What the client does between two reads -/

namespace System
variable {P : Platform} {s : System}

theorem endTarget_client (s : System) : ∃ target code,
    (s.endTarget P).client = { s.client with pc := .target, target, code } := by
  unfold endTarget
  split
  · exact ⟨_, _, rfl⟩
  · unfold nextTarget
    simp only
    split
    · exact ⟨_, _, rfl⟩
    · exact ⟨_, _, rfl⟩

theorem afterBlock_more (more : s.client.postMore = true) : (s.afterBlock P).client =
    { s.client with postBlockNum := s.client.postBlockNum + 1, pc := .block } := by
  simp only [afterBlock, setClient, more, if_true]

theorem afterBlock_last (last : s.client.postMore = false) : ∃ target code,
    (s.afterBlock P).client = { s.client with
      postBlockNum := s.client.postBlockNum + 1, pc := .target, target, code } := by
  simp only [afterBlock, setClient, last, Bool.false_eq_true, if_false]
  exact endTarget_client _

theorem sendLocal_client (s : System) : ∃ previousFail postLoOpened,
    (s.sendLocal P).client = { s.client with previousFail, postLoOpened } := by
  have opens (u : System) (uri : Text) : ∃ postLoOpened,
      (u.openLocal P uri).client = { u.client with postLoOpened } := by
    unfold openLocal
    split <;> exact ⟨_, rfl⟩
  have writes (u : System) (uri : Text) : ∃ previousFail,
      (u.writeLocal P uri).client = { u.client with previousFail } := by
    unfold writeLocal
    split
    · simp only
      split <;> exact ⟨_, rfl⟩
    · exact ⟨_, rfl⟩
  have closes (u : System) (uri : Text) : ∃ postLoOpened,
      (u.closeLocal P uri).client = { u.client with postLoOpened } := by
    unfold closeLocal
    split <;> exact ⟨_, rfl⟩
  unfold sendLocal
  simp only
  split_ifs
  · exact ⟨_, _, rfl⟩
  · exact ⟨_, _, rfl⟩
  · exact ⟨_, _, rfl⟩
  · obtain ⟨a, ha⟩ := opens (s.setClient fun c => { c with previousFail := false })
      s.client.target.uriText
    obtain ⟨b, hb⟩ := writes ((s.setClient fun c => { c with previousFail := false }).openLocal P
      s.client.target.uriText) s.client.target.uriText
    obtain ⟨c, hc⟩ := closes (((s.setClient fun c => { c with previousFail := false }).openLocal P
      s.client.target.uriText).writeLocal P s.client.target.uriText) s.client.target.uriText
    rw [ha] at hb
    rw [hb] at hc
    exact ⟨_, _, hc⟩

def more (s : System) : Bool :=
  decide (s.client.postNbBytes = emmaClientBufferSize) && !s.client.postLastPacket

def nextRequest (s : System) : ClientRequest :=
  { method := s.client.target.method.request, uri := s.client.target.uriText
    address := (List.range maxIpChunks).map s.client.target.parser.address
    block1 := ⟨s.client.postBlockNum.toUInt32, s.more, emmaClientBufferSize.toUInt16⟩
    payload := s.payload.take emmaClientBufferSize, port := s.client.target.parser.port }

theorem sendBlock_cases (s : System) :
    s.sendBlock P = ((s.setClient fun c => { c with
      postMore := s.more, request := some s.nextRequest }).sendLocal P).afterBlock P ∨
    (s.sendBlock P).client = { s.client with
      postMore := s.more, request := some s.nextRequest, sendOK := false, pc := .blocked } := by
  unfold sendBlock
  simp only
  split
  · exact .inl rfl
  · right
    split <;> rfl

theorem sendBlock_request (s : System) : (s.sendBlock P).client.request = some s.nextRequest := by
  rcases sendBlock_cases (P := P) s with local' | away
  · rw [local']
    obtain ⟨a, b, sent⟩ := sendLocal_client (P := P) (s.setClient fun c => { c with
      postMore := s.more, request := some s.nextRequest })
    cases last : ((s.setClient fun c => { c with
        postMore := s.more, request := some s.nextRequest }).sendLocal P).client.postMore with
    | true =>
      rw [afterBlock_more last, sent]
      rfl
    | false =>
      obtain ⟨t, c, done⟩ := afterBlock_last (P := P) last
      rw [done, sent]
      rfl
  · rw [away]

theorem nextRequest_for (s : System) : s.nextRequest.For s.client.target := ⟨rfl, rfl, rfl⟩

theorem nextAgent_pc (s : System) : s.nextAgent.client.pc = .agent := rfl

structure Peeks (s t : System) : Prop where
  store : t.shared.store = s.shared.store
  resource : t.client.resource = s.client.resource

theorem Peeks.trans {t u : System} (a : Peeks s t) (b : Peeks t u) : Peeks s u :=
  ⟨b.store.trans a.store, b.resource.trans a.resource⟩

theorem Peeks.getIndexOfPattern {t : System} (a : Peeks s t) (uri : Text) (pattern : Pattern) :
    t.getIndexOfPattern P uri pattern = s.getIndexOfPattern P uri pattern := by
  simp only [System.getIndexOfPattern, State.resolve, a.store]

theorem Peeks.readPre (stop : Int) (fuel : Nat) (start : Int) (s : System) :
    Peeks s (s.readPre P stop fuel start) := by
  induction fuel generalizing s start with
  | zero => exact ⟨rfl, rfl⟩
  | succ fuel ih =>
    simp only [System.readPre]
    split_ifs
    · exact ⟨rfl, rfl⟩
    · refine (?_ : Peeks s _).trans (ih _ _)
      exact ⟨rfl, rfl⟩
    · exact ⟨rfl, rfl⟩

theorem Peeks.evaluatePre (s : System) : Peeks s (s.evaluatePre P) := by
  unfold System.evaluatePre
  cases s.getIndexOfPattern P s.client.resource .pre with
  | none => exact ⟨rfl, rfl⟩
  | some range =>
    have read := Peeks.readPre (P := P) range.2 maxClientBlocks (P.int (range.1 + 1))
      (s.setClient fun c => { c with stack := c.stack.clean })
    simp only
    generalize (s.setClient fun c => { c with stack := c.stack.clean }).readPre P range.2
      maxClientBlocks (P.int (range.1 + 1)) = t at read
    have start : Peeks s t := ⟨read.store, read.resource⟩
    split_ifs
    · exact start.trans ⟨rfl, rfl⟩
    · exact start.trans ⟨rfl, rfl⟩
    · exact start.trans ⟨rfl, rfl⟩
    · exact start

theorem Peeks.nextTarget (range : Option (Int × Int)) (s : System) :
    Peeks s (s.nextTarget P range) := by
  unfold System.nextTarget
  simp only
  cases range <;> (simp only; split) <;> exact ⟨rfl, rfl⟩

theorem startAgent_post {start stop : Int}
    (list : s.getIndexOfPattern P s.client.resource .post = some (start, stop)) :
    (s.startAgent P).client.pc = .target ∧ ((s.startAgent P).client.code ≠ 0 →
      (s.startAgent P).client.postStartIndex = P.int (start + 1) ∧
      (s.startAgent P).client.postStopIndex = stop) := by
  unfold startAgent
  have evaluated := Peeks.evaluatePre (P := P) s
  simp only
  generalize s.evaluatePre P = t at evaluated
  have found {u : System} (h : Peeks s u) :
      u.getIndexOfPattern P u.client.resource .post = some (start, stop) := by
    rw [h.getIndexOfPattern, h.resource, list]
  split
  · rename_i range _
    rw [found (evaluated.trans (Peeks.nextTarget _ t))]
    refine ⟨rfl, fun code => ?_⟩
    by_cases none' : (t.nextTarget P (some range)).client.code = 0
    · simp [setClient, none'] at code
    · simp [setClient, none']
  · refine ⟨rfl, fun code => ?_⟩
    simp [setClient] at code

end System

/-! ### Where the client stands in the list of payloads -/

/-- In front of the payloads of the targets to come -/
def Between (text : Text) (stop : Nat) (objects : List Text) (c : Client) (l : Ledger) : Prop :=
  ∃ x : Nat, c.postStartIndex = x ∧ c.postStopIndex = stop ∧
    Holds text stop x (objects.drop l.targets.length)

structure Serving (text : Text) (stop : Nat) (objects : List Text) (c : Client) (l : Ledger)
    (o : Text) (y n : Nat) : Prop where
  object : objects[l.targets.length - 1]? = some o
  reader : l.targets.getLast? = some c.target
  scanned : Scanned o
  here : o <+: text.drop y
  next : Holds text stop (y + o.length) (objects.drop l.targets.length)
  inside : n * emmaClientBufferSize < o.length
  mode : c.postMode = .raw
  stops : c.postStopIndex = stop
  num : c.postBlockNum = n.toUInt16

structure Reading (text : Text) (stop : Nat) (objects : List Text) (c : Client) (l : Ledger)
    (o : Text) (y n : Nat) : Prop extends Serving text stop objects c l o y n where
  count : (l.requestsTo l.targets.length).length = n
  index : c.postStartIndex = (y + n * emmaClientBufferSize : Nat)
  notLast : c.postLastPacket = false
  parser : c.postJsonParser = JsonParser.clean.after (o.take (n * emmaClientBufferSize))

structure Filled (text : Text) (stop : Nat) (objects : List Text) (c : Client) (l : Ledger)
    (o : Text) (y n : Nat) : Prop extends Serving text stop objects c l o y n where
  count : (l.requestsTo l.targets.length).length = n
  size : c.postNbBytes = min emmaClientBufferSize (o.length - n * emmaClientBufferSize)
  bytes : (List.range c.postNbBytes).map c.preprocessor.output =
    (o.drop (n * emmaClientBufferSize)).take emmaClientBufferSize
  index : c.postStartIndex = (y + min ((n + 1) * emmaClientBufferSize) o.length : Nat)
  last : c.postLastPacket = decide (o.length ≤ (n + 1) * emmaClientBufferSize)
  parser : (n + 1) * emmaClientBufferSize < o.length →
    c.postJsonParser = JsonParser.clean.after (o.take ((n + 1) * emmaClientBufferSize))

structure Sent (text : Text) (stop : Nat) (objects : List Text) (c : Client) (l : Ledger)
    (o : Text) (y n : Nat) : Prop extends Serving text stop objects c l o y n where
  count : (l.requestsTo l.targets.length).length = n + 1
  index : c.postStartIndex = (y + min ((n + 1) * emmaClientBufferSize) o.length : Nat)
  more : c.postMore = decide ((n + 1) * emmaClientBufferSize < o.length)
  notLast : c.postMore = true → c.postLastPacket = false
  parser : c.postMore = true →
    c.postJsonParser = JsonParser.clean.after (o.take ((n + 1) * emmaClientBufferSize))

def Stands (text : Text) (stop : Nat) (objects : List Text) (c : Client) (l : Ledger) : Prop :=
  match c.pc with
  | .target => l.Complete objects (l.targets.length + 1) ∧
      (c.code ≠ 0 → l.broken = false → Between text stop objects c l)
  | .agent => l.Complete objects (l.targets.length + 1)
  | .block => (∃ o y n, Reading text stop objects c l o y n) ∨
      objects = [] ∧ c.postMode = .unset ∧ Between text stop objects c l
  | .send => ∃ o y n, Filled text stop objects c l o y n
  | .blocked => ∃ o y n, Sent text stop objects c l o y n
  | .answered => ∃ o y n, Sent text stop objects c l o y n
  | .main => False
  | .preprocess => False

section
variable {P : Platform} {text : Text} {stop : Nat} {objects : List Text} {s t : System} {l : Ledger}
  {c : Client} {o : Text} {y n : Nat}

theorem uint16_toNat {n : Nat} (h : n < 65536) : n.toUInt16.toNat = n :=
  Nat.mod_eq_of_lt h

theorem Filled.isBlock (h : Filled text stop objects s.client l o y n)
    (indexed : System.Indexed P text) :
    IsBlock o n s.nextRequest := by
  have short : o.length ≤ text.length := by
    have := h.here.length_le
    rw [List.length_drop] at this
    omega
  have small := indexed.short
  have inside := h.inside
  have next : (n + 1) * emmaClientBufferSize = n * emmaClientBufferSize + emmaClientBufferSize :=
    Nat.succ_mul _ _
  have few : n < 65536 := by
    have : n * 64 < o.length := inside
    omega
  refine ⟨inside, ?_, ?_, ?_, rfl⟩
  · rw [System.nextRequest, System.payload, h.bytes, List.take_take, Nat.min_self]
  · show (s.client.postBlockNum.toUInt32).toNat = n
    rw [h.num, UInt16.toNat_toUInt32, uint16_toNat few]
  · show s.more = _
    rw [System.more, h.size, h.last]
    by_cases last : o.length ≤ (n + 1) * emmaClientBufferSize
    · rw [decide_eq_true last, decide_eq_false (Nat.not_lt.mpr last), Bool.not_true, Bool.and_false]
    · have full : min emmaClientBufferSize (o.length - n * emmaClientBufferSize) =
          emmaClientBufferSize := by omega
      rw [decide_eq_false last, decide_eq_true full, decide_eq_true (Nat.lt_of_not_le last)]
      rfl

theorem Sent.complete (h : Sent text stop objects c l o y n) (sound : l.Sound objects)
    (last : c.postMore = false) : l.Complete objects (l.targets.length + 1) := by
  have whole : o.length ≤ (n + 1) * emmaClientBufferSize := by
    have := h.more
    rw [last] at this
    simpa using this.symm
  intro i o' ho' hi hf
  by_cases here : i + 1 = l.targets.length
  · have same : o' = o := by
      have object := h.object
      rw [← here, Nat.add_sub_cancel, ho'] at object
      exact Option.some.inj object
    rw [same, here, h.count]
    exact whole
  · exact sound.complete i o' ho' (by omega) hf

theorem Sent.between (h : Sent text stop objects c l o y n) (last : c.postMore = false) :
    Between text stop objects c l := by
  have whole : o.length ≤ (n + 1) * emmaClientBufferSize := by
    have := h.more
    rw [last] at this
    simpa using this.symm
  refine ⟨y + o.length, ?_, h.stops, h.next⟩
  rw [h.index, Nat.min_eq_right whole]

theorem Sent.afterBlock (h : Sent text stop objects s.client l o y n) (sound : l.Sound objects) :
    Stands text stop objects (s.afterBlock P).client l := by
  cases last : s.client.postMore with
  | true =>
    have ahead : (n + 1) * emmaClientBufferSize < o.length := by
      have := h.more
      rw [last] at this
      simpa using this.symm
    rw [System.afterBlock_more last]
    refine .inl ⟨o, y, n + 1, { h with
      inside := ahead, num := ?_, index := ?_, notLast := h.notLast last, parser := h.parser last }⟩
    · show s.client.postBlockNum + 1 = _
      rw [h.num]
      exact (UInt16.ofNat_add n 1).symm
    · rw [← Nat.min_eq_left (Nat.le_of_lt ahead)]
      exact h.index
  | false =>
    obtain ⟨target, code, done⟩ := System.afterBlock_last (P := P) last
    rw [done]
    exact ⟨h.complete sound last, fun _ _ => h.between last⟩

theorem Reading.blockHead (h : Reading text stop objects s.client l o y n)
    (reads : s.HasText text) (indexed : System.Indexed P text) :
    Stands text stop objects (s.blockHead P).client l := by
  obtain ⟨t, here⟩ := h.here
  obtain ⟨p, st, out, run, bytes, parser⟩ := System.blockHead_object reads indexed h.scanned
    here.symm h.mode h.inside h.index h.parser
  rw [run]
  refine ⟨o, y, n, { h with bytes, parser, size := rfl, index := rfl, last := ?_ }⟩
  show (s.client.postLastPacket || _) = _
  rw [h.notLast, Bool.false_or]

theorem Filled.sendBlock (h : Filled text stop objects s.client l o y n) (sound : l.Sound objects)
    (indexed : System.Indexed P text) : (l.send s.nextRequest).Sound objects ∧
      Stands text stop objects (s.sendBlock P).client (l.send s.nextRequest) := by
  have block := h.isBlock indexed
  have sent : (l.send s.nextRequest).Sound objects :=
    sound.send h.object h.reader s.nextRequest_for (by rwa [h.count])
  have count : ((l.send s.nextRequest).requestsTo l.targets.length).length = n + 1 := by
    rw [l.requestsTo_send, if_pos rfl, List.length_append, h.count]
    rfl
  have behind : Sent text stop objects { s.client with
      postMore := s.more, request := some s.nextRequest } (l.send s.nextRequest) o y n := by
    have more : s.more = true → (n + 1) * emmaClientBufferSize < o.length := fun e =>
      of_decide_eq_true (block.more.symm.trans e)
    refine { h with
      count, more := block.more, notLast := fun e => ?_, parser := fun e => h.parser (more e) }
    show s.client.postLastPacket = false
    rw [h.last]
    exact decide_eq_false (Nat.not_le.mpr (more e))
  refine ⟨sent, ?_⟩
  rcases System.sendBlock_cases (P := P) s with local' | away
  · rw [local']
    obtain ⟨a, b, done⟩ := System.sendLocal_client (P := P) (s.setClient fun c => { c with
      postMore := s.more, request := some s.nextRequest })
    refine Sent.afterBlock (o := o) (y := y) (n := n) ?_ sent
    rw [done]
    exact { behind with }
  · rw [away]
    exact ⟨o, y, n, { behind with }⟩

theorem Between.turn (h : Between text stop objects s.client l) (sound : l.Sound objects)
    (reads : s.HasText text) (indexed : System.Indexed P text)
    (going : s.client.code ≠ 0 ∧ s.client.pre ≠ 0)
    (ahead : l.targets.length < objects.length ∨ objects = [] ∧ s.client.postMode = .unset) :
    (s.targetHead P).client.pc = .block ∧
    Stands text stop objects (s.targetHead P).client (l.turn (s.targetHead P).client.target) := by
  obtain ⟨x, index, stops, holds⟩ := h
  have turned (t : TargetReader) : (l.turn t).targets.length = l.targets.length + 1 := by
    rw [Ledger.turn, List.length_append, List.length_singleton]
  rcases ahead with ahead | ⟨rfl, unset⟩
  · rw [List.drop_eq_getElem_cons ahead] at holds
    obtain ⟨gap, t, here, gaps, scanned, inside, next⟩ := holds.uncons
    obtain ⟨o', opens⟩ : ∃ o', objects[l.targets.length] = '{'.toUInt8 :: o' :=
      List.head?_eq_some_iff.mp scanned.1
    have parsed : JsonParser.clean.parse '{'.toUInt8 0 = (⟨1, 0, 0⟩, .objStart) := by decide
    have found : text.drop x = gap ++ '{'.toUInt8 :: (o' ++ t) := by rw [here, opens, List.cons_append]
    obtain ⟨nb, pre, run⟩ := System.targetHead_found reads indexed found gaps parsed
      (.inr (.inl rfl)) inside index stops going
    have object : text.drop (x + gap.length) = objects[l.targets.length] ++ t := by
      rw [← List.drop_drop, here, List.drop_left]
    have nothing : ((l.turn s.client.target).requestsTo (l.targets.length + 1)).length = 0 := by
      rw [l.requestsTo_turn, sound.requestsTo_none (Nat.lt_succ_self _), List.length_nil]
    rw [run]
    refine ⟨rfl, .inl ⟨objects[l.targets.length], x + gap.length, 0, {
      object := ?_, reader := List.getLast?_concat, scanned, here := ⟨t, object.symm⟩, next := ?_
      inside := ?_, mode := rfl, stops, num := rfl, count := ?_, index := ?_, notLast := rfl
      parser := ?_ }⟩⟩
    · rw [turned, Nat.add_sub_cancel, List.getElem?_eq_getElem ahead]
    · rwa [turned]
    · rw [opens, Nat.zero_mul]
      exact Nat.succ_pos _
    · rw [turned]
      exact nothing
    · rw [Nat.zero_mul]
      rfl
    · rw [Nat.zero_mul]
      rfl
  · rw [List.drop_nil] at holds
    obtain ⟨gap, rest, here, gaps, inside, behind⟩ := holds.of_nil
    have parsed : JsonParser.clean.parse ']'.toUInt8 0 = (.clean, .error) := by decide
    obtain ⟨nb, pre, run⟩ := System.targetHead_found reads indexed here gaps parsed
      (.inr (.inr rfl)) inside index stops going
    rw [run]
    exact ⟨rfl, .inr ⟨rfl, unset, x + gap.length, rfl, stops, by rwa [List.drop_nil]⟩⟩

theorem Between.skip (h : Between text stop [] s.client l) (unset : s.client.postMode = .unset) :
    Stands text stop [] (s.blockHead P).client l := by
  have run : s.blockHead P = s.endTarget P := by
    unfold System.blockHead
    simp only [unset]
  obtain ⟨target, code, ends⟩ := System.endTarget_client (P := P) s
  rw [run, ends]
  exact ⟨fun i o ho => by simp at ho, fun _ _ => h⟩

theorem Sent.giveUp (h : Sent text stop objects s.client l o y n) (sound : l.Sound objects)
    (refused : s.client.sendOK = false) :
    Stands text stop objects (s.answered P).client (l.fail s.client.postMore) := by
  unfold System.answered
  obtain ⟨target, code, ends⟩ := System.endTarget_client (P := P)
    (s.setClient fun c => { c with pre := 1, previousFail := false })
  rw [if_neg (by simp [refused]), ends]
  refine ⟨sound.complete_fail _, fun _ whole => ?_⟩
  have last : s.client.postMore = false := by
    simp only [Ledger.fail, Bool.or_eq_false_iff] at whole
    exact whole.2
  exact h.between last

end

namespace Dispatch
variable {P : Platform} {text : Text} {stop : Nat} {objects : List Text} {s : System}
  {d d' : Dispatch} {e : Event}

/-- The ledger is in order, and the client stands where it says. -/
structure Inv (text : Text) (stop : Nat) (objects : List Text) (d : Dispatch) : Prop where
  sound : d.ledger.Sound objects
  stands : Stands text stop objects d.system.client d.ledger

theorem inv_begin (posts : s.Posts P text stop objects) : (begin P s).Inv text stop objects := by
  obtain ⟨-, root, leaf, ⟨start, list, holds⟩, indexed⟩ := posts
  refine ⟨Ledger.sound_empty, ?_⟩
  have named : s.client.name ≠ [] := by
    intro e
    rw [e] at root
    revert root
    decide
  have run : s.agentHead P =
      (s.setClient fun c => { c with resource := s.client.name }).startAgent P := by
    unfold System.agentHead
    simp only
    rw [if_pos ⟨named, root⟩, if_neg leaf]
  obtain ⟨pc, post⟩ := System.startAgent_post
    (s := s.setClient fun c => { c with resource := s.client.name }) list
  rw [begin, run, Stands, pc]
  refine ⟨fun i o _ hi => absurd hi (by simp [Ledger.empty]), fun code _ => ?_⟩
  obtain ⟨index, stops⟩ := post code
  have inside : start + 1 ≤ text.length := by
    obtain ⟨list, gap, rest, here, -⟩ := holds
    have := congrArg List.length here
    simp only [List.length_drop, List.length_append, List.length_cons] at this
    omega
  refine ⟨start + 1, ?_, stops, holds⟩
  rw [index, ← indexed.fits _ inside]
  rfl

theorem inv_client {t : System} (inv : d.Inv text stop objects) (indexed : System.Indexed P text)
    (going : d.system.client.pc ≠ .agent) (fair : d.Fair text objects .client)
    (step : d.system.clientStep P = some t) : Inv text stop objects ⟨t, d.record t⟩ := by
  obtain ⟨sound, stands⟩ := inv
  obtain ⟨keeps, ahead⟩ := fair
  unfold System.clientStep at step
  unfold Stands at stands
  cases pc : d.system.client.pc <;> rw [pc] at step stands <;>
    simp only [Option.some.injEq, reduceCtorEq] at step <;> subst step
  case main => exact stands.elim
  case preprocess => exact stands.elim
  case agent => exact absurd pc going
  case target =>
    obtain ⟨done, between⟩ := stands
    by_cases next : d.system.client.code ≠ 0 ∧ d.system.client.pre ≠ 0
    · obtain ⟨whole, ahead⟩ := ahead pc next.1 next.2
      obtain ⟨block, turned⟩ :=
        (between next.1 whole).turn sound (keeps (.inl pc)) indexed next ahead
      have record : d.record (d.system.targetHead P) =
          d.ledger.turn (d.system.targetHead P).client.target := by
        simp only [Dispatch.record, pc, block, if_true]
      rw [record]
      exact ⟨sound.turn done _, turned⟩
    · have run : d.system.targetHead P = d.system.nextAgent := by
        rw [System.targetHead, if_neg next]
      have record : d.record (d.system.targetHead P) = d.ledger := by
        simp only [Dispatch.record, pc, run, System.nextAgent_pc, reduceCtorEq, if_false]
      rw [record, run]
      exact ⟨sound, done⟩
  case block =>
    have record : d.record (d.system.blockHead P) = d.ledger := by simp only [Dispatch.record, pc]
    rw [record]
    rcases stands with ⟨o, y, n, reading⟩ | ⟨rfl, unset, between⟩
    · exact ⟨sound, reading.blockHead (keeps (.inr pc)) indexed⟩
    · exact ⟨sound, between.skip unset⟩
  case send =>
    obtain ⟨o, y, n, filled⟩ := stands
    have record : d.record (d.system.sendBlock P) = d.ledger.send d.system.nextRequest := by
      simp only [Dispatch.record, pc, System.sendBlock_request]
    obtain ⟨sound', stands'⟩ := filled.sendBlock sound indexed
    rw [record]
    exact ⟨sound', stands'⟩
  case answered =>
    obtain ⟨o, y, n, sent⟩ := stands
    cases ok : d.system.client.sendOK with
    | true =>
      have record : d.record (d.system.answered P) = d.ledger := by
        simp only [Dispatch.record, pc, ok, if_true]
      have run : d.system.answered P = d.system.afterBlock P := by
        rw [System.answered, if_pos ok]
      rw [record, run]
      exact ⟨sound, sent.afterBlock sound⟩
    | false =>
      have record : d.record (d.system.answered P) = d.ledger.fail d.system.client.postMore := by
        simp only [Dispatch.record, pc, ok, Bool.false_eq_true, if_false]
      rw [record]
      exact ⟨sound.fail _, sent.giveUp sound ok⟩

theorem inv_other {t : System} (inv : d.Inv text stop objects) (other : e ≠ .client)
    (step : d.system.step P e = some t) : Inv text stop objects ⟨t, d.ledger⟩ := by
  unfold System.step at step
  split at step
  · cases step
  have same {t : System} (h : t.client = d.system.client) : Inv text stop objects ⟨t, d.ledger⟩ := by
    refine ⟨inv.sound, ?_⟩
    rw [h]
    exact inv.stands
  cases e with
  | client => exact absurd rfl other
  | request rq =>
    simp only [Option.ite_none_right_eq_some, Option.some.injEq] at step
    obtain ⟨-, rfl⟩ := step
    exact same rfl
  | wellKnown size offset =>
    simp only [Option.ite_none_right_eq_some, Option.some.injEq] at step
    obtain ⟨-, rfl⟩ := step
    exact same rfl
  | watchdog =>
    simp only [Option.ite_none_right_eq_some, Option.some.injEq] at step
    obtain ⟨-, rfl⟩ := step
    exact same rfl
  | systemTimer =>
    simp only [Option.ite_none_right_eq_some, Option.some.injEq] at step
    obtain ⟨-, rfl⟩ := step
    exact same rfl
  | environment env =>
    cases step
    exact same rfl
  | response success last =>
    simp only [Option.ite_none_right_eq_some, Option.some.injEq] at step
    obtain ⟨blocked, rfl⟩ := step
    refine ⟨inv.sound, ?_⟩
    have stands := inv.stands
    rw [Stands, blocked] at stands
    obtain ⟨o, y, n, sent⟩ := stands
    cases last with
    | true => exact ⟨o, y, n, { sent with }⟩
    | false =>
      rw [Stands, show (d.system.respond success false).client.pc = .blocked from blocked]
      exact ⟨o, y, n, { sent with }⟩

theorem inv_step (indexed : System.Indexed P text) (inv : d.Inv text stop objects)
    (fair : d.Fair text objects e) (step : d.step P e = some d') : d'.Inv text stop objects := by
  unfold Dispatch.step at step
  split at step
  · cases step
  rename_i going
  obtain ⟨t, run, rfl⟩ := Option.map_eq_some_iff.mp step
  cases e with
  | client =>
    have run : d.system.clientStep P = some t := by
      unfold System.step at run
      split at run
      · cases run
      · exact run
    exact inv_client inv indexed going fair run
  | request rq => exact inv_other inv (by simp) run
  | wellKnown size offset => exact inv_other inv (by simp) run
  | watchdog => exact inv_other inv (by simp) run
  | systemTimer => exact inv_other inv (by simp) run
  | environment env => exact inv_other inv (by simp) run
  | response success last => exact inv_other inv (by simp) run

theorem Inv.proper (inv : d.Inv text stop objects) : d.Proper objects where
  only := inv.sound.only
  addressed := inv.sound.addressed
  blocks := inv.sound.blocks
  whole i o ho served kept := by
    have all : o.length ≤ (d.ledger.requestsTo (i + 1)).length * emmaClientBufferSize := by
      rcases served with earlier | ⟨here, target | agent⟩
      · exact inv.sound.complete i o ho earlier kept
      · have stands := inv.stands
        rw [Stands, target] at stands
        exact stands.1 i o ho (by omega) kept
      · have stands := inv.stands
        rw [Stands, agent] at stands
        exact stands i o ho (by omega) kept
    rw [(inv.sound.blocks i o ho).joined, List.take_of_length_le all]

/-- As long as every target the loop turns to finds an object of its own where the loop
stands, each target gets the object in its place and no other. -/
theorem payloads_proper (posts : s.Posts P text stop objects)
    (run : Runs (Dispatch.step P) (Fair text objects) (begin P s) d) : d.Proper objects :=
  (run.keeps (fun _ _ _ fair step inv => inv_step posts.indexed inv fair step)
    (inv_begin posts)).proper

def agentWritten (text : Text) (size : text.length ≤ 65523) : List Event :=
  .request ⟨chars ['A', '/', 'x'], .put, none, text, 64, 0, size⟩ :: List.replicate 4 .client

def turnsTo (s : System) (start stop : Nat) : Bool :=
  s.client.pc = .agent ∧ emmaGetRoot s.client.name = some .agent ∧
    ¬emmaResourceIsRoot s.client.name ∧
    s.getIndexOfPattern .plain s.client.name .post = some ((start : Int), (stop : Int))

theorem plain_indexed {text : Text} (short : text.length < 65536) : System.Indexed .plain text where
  short
  fits n hn := by
    refine Int.bmod_eq_of_le ?_ ?_ <;>
      (simp only [Platform.plain]; omega)

theorem posts_of_turnsTo {start : Nat} (turns : turnsTo s start stop) (short : text.length < 65536)
    (list : Holds text stop (start + 1) objects) : s.Posts .plain text stop objects := by
  simp only [turnsTo, decide_eq_true_eq] at turns
  obtain ⟨pc, root, leaf, found⟩ := turns
  exact ⟨pc, root, leaf, ⟨start, found, list⟩, plain_indexed short⟩

def longObject : Text :=
  chars "\x7b\"a\":\"".toList ++ List.replicate 60 '0'.toUInt8 ++ chars "\"\x7d".toList

def shortObject : Text := chars "\x7b\"b\":0\x7d".toList

def bothObjects : Text := longObject ++ ','.toUInt8 :: shortObject

def twoTargets (list : Text) : Text :=
  chars "\x7b\"NAME\":\"x\",\"PRE\":\"1\",\"TARGET\":[\"PUT[a:0:0:0:0:0:0:1]:1/L/y\",".toList ++
    chars "\"PUT[a:0:0:0:0:0:0:1]:1/L/z\"],\"POST\":[".toList ++ list ++ chars [']', '\x7d']

/-- Two targets with an object each: the first gets two blocks, the second one. -/
theorem payloads_proper_two : ∃ (s : System) (d : Dispatch),
    s.Posts .plain (twoTargets bothObjects) 177 [longObject, shortObject] ∧
    d.ledger.sent.map (fun q => (q.1, q.2.payload.length)) = [(1, 64), (1, 4), (2, 7)] ∧
    d.Proper [longObject, shortObject] := by
  obtain ⟨s, -, hs⟩ := Runs.of_follow (System.step .plain) (fun _ _ => True)
    (fun s => turnsTo s 98 177 ∧ (follow (step .plain)
      (Fair (twoTargets bothObjects) [longObject, shortObject])
      [.client, .client, .client, .response (some true) true, .client, .client, .client,
        .response (some true) true, .client, .client, .client, .client, .response (some true) true,
        .client, .client] (begin .plain s)).any fun d =>
          d.ledger.sent.map (fun q => (q.1, q.2.payload.length)) = [(1, 64), (1, 4), (2, 7)])
    (agentWritten (twoTargets bothObjects) (by decide +kernel))
    (.init .plain (fun _ => none) .bare) (by decide +kernel)
  simp only [Bool.decide_and, Bool.and_eq_true, decide_eq_true_eq] at hs
  obtain ⟨turns, sent⟩ := hs
  obtain ⟨d, run, sent⟩ := Runs.of_follow _ _ _ _ _ sent
  have comma : ∀ c ∈ [','.toUInt8], isGap c := by simp [isGap, chars]
  have list : Holds (twoTargets bothObjects) 177 99 [longObject, shortObject] :=
    ⟨[] ++ (longObject ++ ([','.toUInt8] ++ (shortObject ++ []))), [], ['\x7d'.toUInt8],
      by decide +kernel,
      .cons (by simp) (by decide +kernel) (.cons comma (by decide +kernel) .nil), by simp,
      by decide +kernel⟩
  have posts := posts_of_turnsTo turns (by decide +kernel) list
  exact ⟨s, d, posts, of_decide_eq_true sent, payloads_proper posts run⟩

/-- With one object for two targets the second gets the text behind the list. -/
theorem payload_missing : ¬ ∀ (P : Platform) (s : System) (text : Text) (stop : Nat)
    (objects : List Text) (d : Dispatch), System.Reachable P s → s.Posts P text stop objects →
    Runs (step P) (fun d _ => d.system.HasText text) (begin P s) d → d.Proper objects := by
  intro h
  obtain ⟨s, reached, hs⟩ := Runs.of_follow (System.step .plain) (fun _ _ => True)
    (fun s => turnsTo s 98 108 ∧ (follow (step .plain)
      (fun d _ => d.system.HasText (twoTargets shortObject))
      [.client, .client, .client, .response (some true) true, .client, .client, .client, .client]
      (begin .plain s)).any fun d => d.ledger.sent.map Prod.fst = [1, 2])
    (agentWritten (twoTargets shortObject) (by decide +kernel)) (.init .plain (fun _ => none) .bare)
    (by decide +kernel)
  simp only [Bool.decide_and, Bool.and_eq_true, decide_eq_true_eq] at hs
  obtain ⟨turns, sent⟩ := hs
  obtain ⟨d, run, sent⟩ := Runs.of_follow (step .plain)
    (fun d _ => d.system.HasText (twoTargets shortObject)) _ _ _ sent
  have list : Holds (twoTargets shortObject) 108 99 [shortObject] :=
    ⟨[] ++ (shortObject ++ []), [], ['\x7d'.toUInt8], by decide +kernel,
      .cons (by simp) (by decide +kernel) .nil, by simp, by decide +kernel⟩
  have proper := h .plain s _ 108 _ d ⟨_, _, reached⟩
    (posts_of_turnsTo turns (by decide +kernel) list) run
  obtain ⟨q, hq, second⟩ : ∃ q ∈ d.ledger.sent, q.1 = 2 := by
    have : 2 ∈ d.ledger.sent.map Prod.fst := by
      rw [of_decide_eq_true sent]
      decide
    exact List.mem_map.mp this
  have := (proper.only q hq).2
  rw [second] at this
  exact absurd this (by decide)

end Dispatch
end EmmaNode

import EmmaNode.Statelessness

/-! The two ways a block of an agent's payload reaches a resource of the node itself. The client
writes a block for a local address without a request, and the request handler gets the same block
when the address is another one of the node. Both create the resource with the first block and
write the blocks one behind the other; they part where the client takes the target for the agent
itself, where a block is refused, and where a block has no byte. -/

namespace EmmaNode

/-- A payload as the client cuts it: only the last block may be short, or empty. The client
numbers blocks in sixteen bits. -/
structure Cut (payload : Text) (blocks : List Text) : Prop where
  filled : blocks ≠ []
  text : blocks.flatten = payload
  full : ∀ block ∈ blocks.dropLast, block.length = emmaClientBufferSize
  short : ∀ block ∈ blocks, block.length ≤ emmaClientBufferSize
  count : blocks.length ≤ 65536

namespace Client
variable (c : Client)

def prepared (num : Nat) (block : Text) (more : Bool) : Client :=
  { c with
    postBlockNum := UInt16.ofNat num
    postNbBytes := block.length
    postMore := more
    preprocessor := { c.preprocessor with output := overwrite c.preprocessor.output 0 block } }

def requestFor (num : Nat) (block : Text) (more : Bool) : Request where
  url := c.target.uriText
  method := c.target.method.request
  block1 := some ⟨(UInt16.ofNat num).toUInt32, more, emmaClientBufferSize.toUInt16⟩
  payload := block.take emmaClientBufferSize
  preferredSize := emmaClientBufferSize
  offset := 0
  payload_le := Nat.le_trans (List.length_take_le _ _) (by decide)

def requests : List Text → Nat → List Request
  | [], _ => []
  | block :: rest, num => c.requestFor num block (rest ≠ []) :: requests rest (num + 1)

end Client

namespace System
variable (P : Platform)

def deliver : List Text → Nat → System → System
  | [], _, s => s
  | block :: rest, num, s =>
    deliver rest (num + 1) (({ s with
      client := s.client.prepared num block (rest ≠ []) } : System).sendLocal P)

end System

namespace State
variable (P : Platform) (uri : Text)

/-- A resource is there in both nodes or in none, and reads the same. -/
def Agrees (s t : State) : Prop :=
  t.store.emmaResourceExists uri = s.store.emmaResourceExists uri ∧
    ∀ size index, (t.emmaResourceRead P uri size index).2 = (s.emmaResourceRead P uri size index).2

def writeNum (num : Nat) (block : Text) (s : State) : State × Int :=
  s.emmaResourceWrite P uri block (P.int (num * emmaClientBufferSize : Nat))

def writes : List Text → Nat → State → State
  | [], _, s => s
  | block :: rest, num, s => writes rest (num + 1) (s.writeNum P uri num block).1

def Accepts : List Text → Nat → State → Prop
  | [], _, _ => True
  | block :: rest, num, s =>
    (block ≠ [] → (UInt16.ofInt (s.writeNum P uri num block).2).toNat = block.length) ∧
      Accepts rest (num + 1) (s.writeNum P uri num block).1

def begun (s : State) : State := ((s.add P uri).emmaResourceOpen uri).1

theorem unmade_missing {P : Platform} {s : State} {uri : Text}
    (unmade : (s.add P uri).resolve uri = none) : s.resolve uri = none := by
  cases known : s.resolve uri with
  | none => rfl
  | some i =>
    rw [add_known known, known] at unmade
    cases unmade

end State

namespace System
variable {P : Platform} {s : System} {uri : Text}

@[simp] theorem prepared_payload (s : System) (num : Nat) (block : Text) (more : Bool) :
    ({ s with client := s.client.prepared num block more } : System).payload = block := by
  refine List.ext_getElem (by simp [payload, Client.prepared]) fun i hi hi' => ?_
  simp [payload, Client.prepared, overwrite, hi']

theorem sendBlock_local (s : System)
    (here : s.isLocalAddress ((List.range maxIpChunks).map s.client.target.parser.address)) :
    ∃ more request, s.sendBlock P = (({ s with client :=
      { s.client.prepared s.client.postBlockNum.toNat s.payload more with
        request } } : System).sendLocal P).afterBlock P := by
  have output : overwrite s.client.preprocessor.output 0 s.payload =
      s.client.preprocessor.output := by
    funext i
    simp only [overwrite, payload, Nat.zero_le, true_and, Nat.zero_add, Nat.sub_zero,
      List.length_map, List.length_range]
    split
    · rename_i inside
      simp [inside]
    · rfl
  have bytes : s.payload.length = s.client.postNbBytes := by simp [payload]
  simp only [Client.prepared, output, bytes, UInt16.ofNat_toNat]
  exact ⟨_, _, if_pos here⟩

theorem sendLocal_aim (s : System) :
    (s.sendLocal P).client.target = s.client.target ∧
      (s.sendLocal P).client.resource = s.client.resource := by
  have opening (u : System) (uri : Text) : (u.openLocal P uri).client.target = u.client.target ∧
      (u.openLocal P uri).client.resource = u.client.resource := by
    unfold openLocal
    split <;> exact ⟨rfl, rfl⟩
  have writing (u : System) (uri : Text) : (u.writeLocal P uri).client.target = u.client.target ∧
      (u.writeLocal P uri).client.resource = u.client.resource := by
    simp only [writeLocal]
    split
    · split <;> exact ⟨rfl, rfl⟩
    · exact ⟨rfl, rfl⟩
  have closing (u : System) (uri : Text) : (u.closeLocal P uri).client.target = u.client.target ∧
      (u.closeLocal P uri).client.resource = u.client.resource := by
    unfold closeLocal
    split <;> exact ⟨rfl, rfl⟩
  simp only [sendLocal]
  split
  · exact ⟨rfl, rfl⟩
  split
  · exact ⟨rfl, rfl⟩
  split
  · exact ⟨rfl, rfl⟩
  · simp only [closing, writing, opening]
    exact ⟨rfl, rfl⟩

theorem sendLocal_skip (kind : s.client.target.method ≠ .delete)
    (skip : s.shared.store.emmaResourceExists s.client.target.uriText ∧
        s.client.target.method = .post ∧ s.client.postBlockNum = 0 ∨
      s.client.target.uriText.isPrefixOf s.client.resource) :
    (s.sendLocal P).shared = s.shared ∧
      (s.sendLocal P).client.postLoOpened = s.client.postLoOpened := by
  simp only [sendLocal, setClient, kind, if_false]
  rcases skip with found | self
  · rw [if_pos found]
    exact ⟨rfl, rfl⟩
  · rw [if_pos self]
    split <;> exact ⟨rfl, rfl⟩

theorem write_close (opened : s.client.postLoOpened ≠ 0) :
    ((s.writeLocal P uri).closeLocal P uri).shared =
      (if s.client.postMore then (s.shared.writeNum P uri s.client.postBlockNum.toNat s.payload).1
        else (s.shared.writeNum P uri s.client.postBlockNum.toNat
          s.payload).1.emmaResourceClose P uri) ∧
    (s.client.postMore → ((s.writeLocal P uri).closeLocal P uri).client.postLoOpened ≠ 0) := by
  have written : (s.writeLocal P uri).shared =
      (s.shared.writeNum P uri s.client.postBlockNum.toNat s.payload).1 := by
    simp only [writeLocal, if_pos opened, State.writeNum, Int.natCast_mul]
  have client : (s.writeLocal P uri).client.postMore = s.client.postMore ∧
      (s.writeLocal P uri).client.postLoOpened = s.client.postLoOpened := by
    simp only [writeLocal, if_pos opened]
    split <;> exact ⟨rfl, rfl⟩
  simp only [closeLocal, client.1, client.2, written]
  cases s.client.postMore with
  | true => simpa [client.2, written] using opened
  | false => simp [opened]

theorem sendLocal_idle (kind : s.client.target.method ≠ .delete) (later : s.client.postBlockNum ≠ 0)
    (idle : s.client.postLoOpened = 0 ∨ s.shared.resolve s.client.target.uriText = none) :
    (s.sendLocal P).shared = s.shared ∧
      (s.client.postLoOpened = 0 → (s.sendLocal P).client.postLoOpened = 0) := by
  by_cases self : s.client.target.uriText.isPrefixOf s.client.resource
  · obtain ⟨shared, opened⟩ := sendLocal_skip (P := P) kind (.inr self)
    exact ⟨shared, fun closed => opened.trans closed⟩
  have inert (missing : s.shared.resolve s.client.target.uriText = none) (block : Text) (num : Nat) :
      (s.shared.writeNum P s.client.target.uriText num block).1 = s.shared ∧
        s.shared.emmaResourceClose P s.client.target.uriText = s.shared := by
    simp only [State.writeNum, State.emmaResourceWrite, State.emmaResourceClose, missing]
    constructor <;> split <;> rfl
  simp only [sendLocal, setClient, kind, later, and_false, if_false, self, openLocal,
    Bool.false_eq_true]
  generalize ht : ({ s with client := { s.client with previousFail := false } } : System) = t
  have shared : t.shared = s.shared := by rw [← ht]
  have opened : t.client.postLoOpened = s.client.postLoOpened := by rw [← ht]
  by_cases closed : s.client.postLoOpened = 0
  · have still : ¬t.client.postLoOpened ≠ 0 := not_not.mpr (opened.trans closed)
    simp only [writeLocal, closeLocal, setClient, still, and_false, if_false]
    exact ⟨shared, fun _ => opened.trans closed⟩
  · have there : t.client.postLoOpened ≠ 0 := fun e => closed (opened.symm.trans e)
    refine ⟨?_, fun e => absurd e closed⟩
    rw [(write_close there).1, shared]
    obtain ⟨written, ended⟩ := inert (idle.resolve_left closed) t.payload t.client.postBlockNum.toNat
    rw [written, ended, ite_self]

theorem postBlockNum_prepared {c : Client} {num : Nat} (block : Text) (more : Bool)
    (small : num < 65536) : (c.prepared num block more).postBlockNum.toNat = num :=
  UInt16.toNat_ofNat_of_lt' small

theorem deliver_self (kind : s.client.target.method ≠ .delete)
    (self : s.client.target.uriText.isPrefixOf s.client.resource) (blocks : List Text) (num : Nat) :
    (s.deliver P blocks num).shared = s.shared := by
  induction blocks generalizing s num with
  | nil => rfl
  | cons block rest ih =>
    have skip := @sendLocal_skip P { s with client := s.client.prepared num block (rest ≠ []) } kind
      (.inr self)
    obtain ⟨target, resource⟩ :=
      @sendLocal_aim P { s with client := s.client.prepared num block (rest ≠ []) }
    rw [deliver, ih (by rw [target]; exact kind) (by rw [target, resource]; exact self)]
    exact skip.1

theorem deliver_idle (kind : s.client.target.method ≠ .delete) {blocks : List Text} {num : Nat}
    (later : 0 < num) (small : num + blocks.length ≤ 65536)
    (idle : s.client.postLoOpened = 0 ∨ s.shared.resolve s.client.target.uriText = none) :
    (s.deliver P blocks num).shared = s.shared := by
  induction blocks generalizing s num with
  | nil => rfl
  | cons block rest ih =>
    rw [List.length_cons] at small
    have next : (s.client.prepared num block (rest ≠ [])).postBlockNum ≠ 0 := fun e => by
      have same := @postBlockNum_prepared s.client num block (rest ≠ []) (by omega)
      rw [e] at same
      exact absurd same.symm (Nat.pos_iff_ne_zero.mp later)
    obtain ⟨shared, closed⟩ :=
      @sendLocal_idle P { s with client := s.client.prepared num block (rest ≠ []) } kind next idle
    obtain ⟨target, -⟩ :=
      @sendLocal_aim P { s with client := s.client.prepared num block (rest ≠ []) }
    rw [deliver, ih (by rw [target]; exact kind) (Nat.succ_pos num) (by omega), shared]
    rw [target, shared]
    exact idle.imp closed id

theorem deliver_found (post : s.client.target.method = .post)
    (found : s.shared.store.emmaResourceExists s.client.target.uriText) {blocks : List Text}
    (count : blocks.length ≤ 65536)
    (closed : s.client.postLoOpened = 0 ∨ blocks.length = 1) :
    (s.deliver P blocks 0).shared = s.shared := by
  cases blocks with
  | nil => rfl
  | cons block rest =>
    have kind : s.client.target.method ≠ .delete := by simp [post]
    obtain ⟨shared, opened⟩ := @sendLocal_skip P
      { s with client := s.client.prepared 0 block (rest ≠ []) } kind (.inl ⟨found, post, rfl⟩)
    obtain ⟨target, -⟩ :=
      @sendLocal_aim P { s with client := s.client.prepared 0 block (rest ≠ []) }
    rcases closed with closed | single
    · rw [List.length_cons] at count
      rw [deliver, deliver_idle (by rw [target]; exact kind) Nat.one_pos (by omega)
        (.inl (opened.trans closed))]
      exact shared
    · obtain rfl : rest = [] := List.length_eq_zero_iff.mp (Nat.succ.inj single)
      exact shared

theorem sendLocal_open (kind : s.client.target.method ≠ .delete)
    (other : ¬s.client.target.uriText.isPrefixOf s.client.resource)
    (later : s.client.postBlockNum ≠ 0) (opened : s.client.postLoOpened ≠ 0) :
    (s.sendLocal P).shared =
      (if s.client.postMore then
        (s.shared.writeNum P s.client.target.uriText s.client.postBlockNum.toNat s.payload).1
      else (s.shared.writeNum P s.client.target.uriText s.client.postBlockNum.toNat
        s.payload).1.emmaResourceClose P s.client.target.uriText) ∧
    (s.client.postMore → (s.sendLocal P).client.postLoOpened ≠ 0) := by
  simp only [sendLocal, setClient, kind, later, and_false, if_false, other, openLocal]
  exact @write_close P { s with client := { s.client with previousFail := false } } _ opened

theorem deliver_open (kind : s.client.target.method ≠ .delete)
    (other : ¬s.client.target.uriText.isPrefixOf s.client.resource)
    (opened : s.client.postLoOpened ≠ 0) {blocks : List Text} (filled : blocks ≠ []) {num : Nat}
    (later : 0 < num) (small : num + blocks.length ≤ 65536) :
    (s.deliver P blocks num).shared = (s.shared.writes P s.client.target.uriText blocks
      num).emmaResourceClose P s.client.target.uriText := by
  induction blocks generalizing s num with
  | nil => exact absurd rfl filled
  | cons block rest ih =>
    rw [List.length_cons] at small
    have number := @postBlockNum_prepared s.client num block (rest ≠ []) (by omega)
    have next : (s.client.prepared num block (rest ≠ [])).postBlockNum ≠ 0 := fun e => by
      rw [e] at number
      exact absurd number.symm (Nat.pos_iff_ne_zero.mp later)
    obtain ⟨shared, still⟩ := @sendLocal_open P
      { s with client := s.client.prepared num block (rest ≠ []) } kind other next opened
    obtain ⟨target, resource⟩ :=
      @sendLocal_aim P { s with client := s.client.prepared num block (rest ≠ []) }
    simp only [prepared_payload, number] at shared
    rw [deliver, State.writes]
    by_cases last : rest = []
    · subst last
      exact shared
    · have more : (s.client.prepared num block (rest ≠ [])).postMore = true := by
        simp [Client.prepared, last]
      rw [ih (by rw [target]; exact kind) (by rw [target, resource]; exact other) (still more) last
        (Nat.succ_pos num) (by omega), target, shared, if_pos more]
      rfl

theorem sendLocal_made (kind : s.client.target.method ≠ .delete)
    (other : ¬s.client.target.uriText.isPrefixOf s.client.resource)
    (fresh : ¬(s.shared.store.emmaResourceExists s.client.target.uriText ∧
      s.client.target.method = .post)) (first : s.client.postBlockNum = 0) {i : Nat}
    (made : (s.shared.add P s.client.target.uriText).resolve s.client.target.uriText = some i) :
    (s.sendLocal P).shared =
      (if s.client.postMore then
        ((s.shared.begun P s.client.target.uriText).writeNum P s.client.target.uriText 0 s.payload).1
      else ((s.shared.begun P s.client.target.uriText).writeNum P s.client.target.uriText 0
        s.payload).1.emmaResourceClose P s.client.target.uriText) ∧
    (s.client.postMore → (s.sendLocal P).client.postLoOpened ≠ 0) := by
  have done : ((s.shared.add P s.client.target.uriText).emmaResourceOpen
      s.client.target.uriText).2 = 1 := by rw [State.emmaResourceOpen_there made]
  have unknown : ¬(s.shared.store.emmaResourceExists s.client.target.uriText ∧
      s.client.target.method = .post ∧ s.client.postBlockNum = 0) := fun h => fresh ⟨h.1, h.2.1⟩
  have opening : ({ s with client := { s.client with previousFail := false } } : System).openLocal P
      s.client.target.uriText = ⟨s.shared.begun P s.client.target.uriText,
        { s.client with previousFail := false, postLoOpened := 1 }⟩ := by
    simp only [openLocal, first, if_true, State.begun, done]
    rfl
  simp only [sendLocal, setClient, kind, if_false, other, opening, unknown]
  have wrote := @write_close P ⟨s.shared.begun P s.client.target.uriText,
    { s.client with previousFail := false, postLoOpened := 1 }⟩ s.client.target.uriText
    (show (1 : UInt8) ≠ 0 by decide)
  have number : s.client.postBlockNum.toNat = 0 := by rw [first]; rfl
  simp only [number] at wrote
  exact wrote

theorem deliver_made (kind : s.client.target.method ≠ .delete)
    (other : ¬s.client.target.uriText.isPrefixOf s.client.resource)
    (fresh : ¬(s.shared.store.emmaResourceExists s.client.target.uriText ∧
      s.client.target.method = .post)) {i : Nat}
    (made : (s.shared.add P s.client.target.uriText).resolve s.client.target.uriText = some i)
    {blocks : List Text} (filled : blocks ≠ []) (count : blocks.length ≤ 65536) :
    (s.deliver P blocks 0).shared =
      ((s.shared.begun P s.client.target.uriText).writes P s.client.target.uriText blocks
        0).emmaResourceClose P s.client.target.uriText := by
  cases blocks with
  | nil => exact absurd rfl filled
  | cons block rest =>
    rw [List.length_cons] at count
    obtain ⟨shared, opened⟩ := @sendLocal_made P
      { s with client := s.client.prepared 0 block (rest ≠ []) } kind other fresh rfl i made
    obtain ⟨target, resource⟩ :=
      @sendLocal_aim P { s with client := s.client.prepared 0 block (rest ≠ []) }
    rw [prepared_payload] at shared
    rw [deliver, State.writes]
    by_cases last : rest = []
    · subst last
      exact shared
    · have more : (s.client.prepared 0 block (rest ≠ [])).postMore = true := by
        simp [Client.prepared, last]
      rw [deliver_open (by rw [target]; exact kind) (by rw [target, resource]; exact other)
        (opened more) last Nat.one_pos (by omega), target, shared, if_pos more]
      rfl

theorem writeLocal_content (s : System) (uri : Text) :
    s.shared.Content (s.writeLocal P uri).shared := by
  simp only [writeLocal]
  split
  · exact .emmaResourceWrite _ _ _ _
  · exact .refl _

theorem closeLocal_content (s : System) (uri : Text) :
    s.shared.Content (s.closeLocal P uri).shared := by
  simp only [closeLocal]
  split
  · exact .emmaResourceClose _ _
  · exact .refl _

theorem sendLocal_unmade (kind : s.client.target.method ≠ .delete)
    (first : s.client.postBlockNum = 0)
    (unmade : (s.shared.add P s.client.target.uriText).resolve s.client.target.uriText = none) :
    (s.sendLocal P).shared.resolve s.client.target.uriText = none := by
  have missing := State.unmade_missing unmade
  by_cases self : s.client.target.uriText.isPrefixOf s.client.resource
  · rw [(sendLocal_skip kind (.inr self)).1]
    exact missing
  have unknown : s.shared.store.emmaResourceExists s.client.target.uriText = false :=
    congrArg Option.isSome missing
  simp only [sendLocal, setClient, kind, if_false, self, unknown, Bool.false_eq_true, false_and,
    openLocal, first, if_true]
  rw [((writeLocal_content _ _).trans (closeLocal_content _ _)).resolve_eq,
    (State.Content.emmaResourceOpen _ _).resolve_eq]
  exact unmade

theorem deliver_unmade (kind : s.client.target.method ≠ .delete)
    (unmade : (s.shared.add P s.client.target.uriText).resolve s.client.target.uriText = none)
    {blocks : List Text} (count : blocks.length ≤ 65536) :
    (s.deliver P blocks 0).shared.resolve s.client.target.uriText = none := by
  cases blocks with
  | nil => exact State.unmade_missing unmade
  | cons block rest =>
    rw [List.length_cons] at count
    have gone := @sendLocal_unmade P { s with client := s.client.prepared 0 block (rest ≠ []) }
      kind rfl unmade
    obtain ⟨target, -⟩ :=
      @sendLocal_aim P { s with client := s.client.prepared 0 block (rest ≠ []) }
    rw [deliver, deliver_idle (by rw [target]; exact kind) Nat.one_pos (by omega)
      (.inr (by rw [target]; exact gone))]
    exact gone

end System
end EmmaNode

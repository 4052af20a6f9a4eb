import EmmaNode.Intake
import EmmaNode.RoundTrip
import Mathlib.Data.List.TakeWhile

/-! The way of the request handler, and where it leads to the same as that of the client. While
the blocks are written the two nodes differ in locks, marks and the flags of the server only; a
block that is refused ends the transfer on one side and not on the other. -/

namespace EmmaNode

/-! ### What both leave behind -/

namespace State
variable {P : Platform} {s t : State} {uri : Text}

theorem Matched.agrees (h : s.Matched (Calculator.Level Reader.Same) t) :
    s.Agrees P uri t := by
  have reader : s.reader.Same t.reader := h.calculator.env
  refine ⟨congrArg Option.isSome (h.store.tree.resolve uri), fun size index => ?_⟩
  simp only [State.emmaResourceRead, h.env]
  exact (h.store.emmaResourceRead s.env uri size index reader).2

theorem Agrees.of_missing (hs : s.resolve uri = none) (ht : t.resolve uri = none) :
    s.Agrees P uri t := by
  have nothing {u : State} (h : u.resolve uri = none) (size : Nat) (index : Int) :
      (u.emmaResourceRead P uri size index).2 = .none := by
    simp only [State.emmaResourceRead, Store.emmaResourceRead]
    split
    · rfl
    · rename_i root hroot
      have missing : (u.store.tree.emmaGetResource (emmaGetName uri) root).resource = none := by
        simpa only [State.resolve, Tree.resolve, hroot, Option.bind_some] using h
      simp only [missing]
  refine ⟨(congrArg Option.isSome ht).trans (congrArg Option.isSome hs).symm, fun size index => ?_⟩
  rw [nothing hs, nothing ht]

theorem Agrees.missing (h : s.Agrees P uri t) : s.resolve uri = none ↔ t.resolve uri = none := by
  have same : (t.resolve uri).isSome = (s.resolve uri).isSome := h.1
  rw [← Option.not_isSome_iff_eq_none, ← Option.not_isSome_iff_eq_none, same]

/-! ### The steps of the handler -/

variable {rq : Request} {r : Reply}

theorem emmaServerHandler_writes (put : rq.method = .put ∨ rq.method = .post)
    (here : rq.uri = some uri) :
    s.emmaServerHandler P rq = s.handlePut P rq uri (.init rq) := by
  rcases put with put | put <;> simp [emmaServerHandler, here, put]

theorem Matched.marked {C : Calculator Reader → Calculator Reader → Prop} (h : s.Matched C t)
    (uri : Text) (key : Modifier) :
    s.Matched C (t.setClocktime uri) ∧ s.Matched C (t.setLastModified uri key) ∧
      s.Matched C (t.release uri) := by
  obtain ⟨store, env, calculator⟩ := h
  refine ⟨⟨?_, env, calculator⟩, ?_, ⟨?_, env, calculator⟩⟩
  · simp only [setClocktime, Store.emmaResourceSetClocktime]
    split
    · exact ⟨store.tree, store.agents, store.values, store.files⟩
    · exact store
  · simp only [setLastModified]
    split
    · exact ⟨⟨store.tree, store.agents, store.values, store.files⟩, env, calculator⟩
    · exact ⟨store, env, calculator⟩
  · simp only [release, Store.emmaResourceRelease]
    split
    · exact ⟨store.tree, store.agents, store.values, store.files⟩
    · exact store

theorem Matched.endTransfer {C : Calculator Reader → Calculator Reader → Prop}
    (c : Calculator.Congruent P C) (h : s.Matched C t) (uri : Text) :
    (s.emmaResourceClose P uri).Matched C (t.endTransfer P uri) := by
  have closed := ((h.marked uri .server).2.1.close c uri).marked uri .server
  exact { closed.2.2 with }

theorem Underway.taken (h : t.Underway rq.blockNum.toUInt64)
    (m : s.Matched (Calculator.Level Reader.Same) t)
    (full : (UInt16.ofInt (s.emmaResourceWrite P uri rq.payload (blockIndex P rq)).2).toNat =
      rq.payload.length) :
    if rq.more then
      (s.emmaResourceWrite P uri rq.payload (blockIndex P rq)).1.Matched
          (Calculator.Level Reader.Same) (t.handleBlock P rq uri r).1 ∧
        (t.handleBlock P rq uri r).1.Underway (rq.blockNum.toUInt64 + 1) ∧
        (t.handleBlock P rq uri r).1.store.tree = t.store.tree
    else ((s.emmaResourceWrite P uri rq.payload (blockIndex P rq)).1.emmaResourceClose P uri).Matched
        (Calculator.Level Reader.Same) (t.handleBlock P rq uri r).1 := by
  obtain ⟨written, length⟩ := m.write (Calculator.congruent_level P) uri rq.payload (blockIndex P rq)
  have whole : t.full P rq uri := by rw [State.full, length]; exact full
  have timed := (written.marked uri .server).1
  rw [h.handleBlock, takeBlock, writeBlock_eq, if_pos whole]
  simp only
  have content := written_content (P := P) t rq uri
  split
  · refine ⟨{ timed with }, ⟨?_, ?_, rfl⟩, ?_⟩
    · show (t.written P rq uri).locked ≠ 0
      rw [content.locked]
      exact h.locked
    · show (t.written P rq uri).opened ≠ 0
      rw [content.opened]
      exact h.opened
    · show ((t.written P rq uri).setClocktime uri).store.tree = t.store.tree
      rw [← content.tree]
      simp only [setClocktime, Store.emmaResourceSetClocktime]
      split <;> rfl
  · exact { timed.endTransfer (Calculator.congruent_level P) uri with }

theorem handleEmpty_resolve (s : State) :
    (s.handleEmpty P rq uri r).1.resolve uri = s.resolve uri := by
  unfold handleEmpty
  simp only
  split
  · rfl
  · show (State.release _ uri).resolve uri = _
    rw [release_resolve, (Content.emmaResourceClose _ _).resolve_eq, setLastModified_resolve]

theorem Absent.handlePut (h : s.Absent uri) (later : rq.blockNum ≠ 0) :
    (s.handlePut P rq uri r).1.Absent uri := by
  have unknown : s.store.emmaResourceExists uri = false := congrArg Option.isSome h.missing
  simp only [State.handlePut, unknown, Bool.false_eq_true, false_and, and_false, if_false, later]
  split
  · refine ⟨(handleEmpty_resolve s).trans h.missing, ?_⟩
    unfold handleEmpty
    simp only
    split
    · exact h.free
    · have marked : s.setLastModified uri .server = s := by
        simp only [setLastModified, h.missing]
      rw [marked]
      exact (Content.emmaResourceClose _ _).locked.trans h.free
  · exact (h.handleBlock (P := P) rq _).1

end State

/-! ### Requests for the blocks -/

namespace Client
variable {c : Client} {num : Nat} {block : Text} {more : Bool}

theorem cString_uriText (c : Client) : cString c.target.uriText = c.target.uriText := by
  simp only [TargetReader.uriText, cString, List.takeWhile_idem]

theorem requestFor_uri (named : c.target.uriText ≠ []) (short : c.target.uriText.length < 32) :
    (c.requestFor num block more).uri = some c.target.uriText := by
  simp only [Request.uri, requestFor, cString_uriText]
  exact if_pos ⟨named, short⟩

theorem requestFor_away (away : ¬(c.target.uriText ≠ [] ∧ c.target.uriText.length < 32)) :
    (c.requestFor num block more).uri = none := by
  simp only [Request.uri, requestFor]
  exact if_neg away

theorem requestFor_payload (short : block.length ≤ emmaClientBufferSize) :
    (c.requestFor num block more).payload = block := List.take_of_length_le short

theorem requestFor_num (small : num < 65536) :
    (c.requestFor num block more).blockNum.toNat = num := by
  simp [Request.blockNum, requestFor, Nat.mod_eq_of_lt small]

theorem blockIndex_requestFor (P : Platform) (small : num < 65536) :
    State.blockIndex P (c.requestFor num block more) = P.int (num * emmaClientBufferSize : Nat) := by
  have number := @requestFor_num c num block more small
  have size : (c.requestFor num block more).blockSize.toUInt32.toNat = 64 := by
    simp [Request.blockSize, requestFor, emmaClientBufferSize]
  rw [State.blockIndex, UInt32.toNat_mul, number, size, emmaClientBufferSize,
    Nat.mod_eq_of_lt (by omega)]

theorem requestFor_method (put : c.target.method = .put ∨ c.target.method = .post) :
    (c.requestFor num block more).method = .put ∨ (c.requestFor num block more).method = .post := by
  rcases put with put | put <;> simp [requestFor, put, ClientMethod.request]

theorem requestFor_next (small : num + 1 < 65536) (block' : Text) (more' : Bool) :
    (c.requestFor (num + 1) block' more').blockNum.toUInt64 =
      (c.requestFor num block more).blockNum.toUInt64 + 1 := by
  have now := @requestFor_num c num block more (by omega)
  have next := @requestFor_num c (num + 1) block' more' small
  refine UInt64.toNat_inj.mp ?_
  rw [UInt64.toNat_add, UInt32.toNat_toUInt64, UInt32.toNat_toUInt64, now, next, UInt64.toNat_one,
    Nat.mod_eq_of_lt (by omega)]

theorem requestFor_ne_zero (later : 0 < num) (small : num < 65536) :
    (c.requestFor num block more).blockNum ≠ 0 := fun e => by
  have number := @requestFor_num c num block more small
  rw [e] at number
  exact absurd number.symm (Nat.pos_iff_ne_zero.mp later)

end Client

/-! ### Runs of the handler -/

namespace State
variable {P : Platform} {s t u : State} {uri : Text} {c : Client}

theorem answers_cons (P : Platform) (s : State) (rq : Request) (rest : List Request) :
    (s.answers P (rq :: rest)).2 = ((s.emmaServerHandler P rq).1.answers P rest).2 := rfl

/-- Nothing left of earlier evaluations gets into the one of `uri`. -/
def Ready (s : State) (uri : Text) : Prop :=
  s.opened = 0 ∨ emmaGetRoot uri ≠ some .resource ∨ s.stack.clean = s.stack

theorem begun_matched (idle : s.locked = 0) {i : Nat} (made : (s.add P uri).resolve uri = some i)
    (released : (s.add P uri).store.mutex i = .released) (ready : s.Ready uri) :
    (s.begun P uri).Matched (Calculator.Level Reader.Same) (s.startTransfer P uri) ∧
      (s.startTransfer P uri).Underway 0 ∧
      (s.startTransfer P uri).store.tree = (s.add P uri).store.tree := by
  have here : ({ s.add P uri with count := -1 } : State).resolve uri = some i := made
  have started := begin_eq here released idle
  rw [startTransfer_eq]
  refine ⟨?_, begin_underway here released idle rfl, by rw [started]⟩
  rw [started, begun, emmaResourceOpen_there made]
  refine ⟨⟨.refl _, rfl, rfl, rfl⟩, rfl, Calculator.level_of ?_ rfl (.refl _)⟩
  show (if s.opened = 0 ∧ _ then s.stack.clean else s.stack) =
    if _ then s.stack.clean else s.stack
  rcases ready with closed | other | clean
  · simp only [closed, true_and]
  · simp only [other, and_false, if_false]
  · simp only [clean, ite_self]

theorem handler_short (s : State) (put : c.target.method = .put ∨ c.target.method = .post)
    (named : c.target.uriText ≠ []) (short : c.target.uriText.length < 32) (num : Nat) (block : Text)
    (more : Bool) :
    (s.emmaServerHandler P (c.requestFor num block more)).1 =
      (s.handlePut P (c.requestFor num block more) c.target.uriText
        (.init (c.requestFor num block more))).1 := by
  rw [emmaServerHandler_writes (Client.requestFor_method put) (Client.requestFor_uri named short)]

theorem handler_away (s : State) (away : ¬(c.target.uriText ≠ [] ∧ c.target.uriText.length < 32))
    (num : Nat) (block : Text) (more : Bool) :
    (s.emmaServerHandler P (c.requestFor num block more)).1 = { s with count := 0 } := by
  simp only [emmaServerHandler, Client.requestFor_away away, finish]
  rfl

theorem Absent.answers (h : s.Absent c.target.uriText) {blocks : List Text} {num : Nat}
    (put : c.target.method = .put ∨ c.target.method = .post) (named : c.target.uriText ≠ [])
    (short : c.target.uriText.length < 32) (later : 0 < num)
    (small : num + blocks.length ≤ 65536) :
    (s.answers P (c.requests blocks num)).2.Absent c.target.uriText := by
  induction blocks generalizing s num with
  | nil => exact h
  | cons block rest ih =>
    rw [List.length_cons] at small
    rw [Client.requests, answers_cons, handler_short s put named short]
    exact ih (h.handlePut (Client.requestFor_ne_zero later (by omega))) (Nat.succ_pos num) (by omega)

theorem answers_away (away : ¬(c.target.uriText ≠ [] ∧ c.target.uriText.length < 32))
    (blocks : List Text) (num : Nat) :
    s.Agrees P c.target.uriText (s.answers P (c.requests blocks num)).2 := by
  have kept : (s.answers P (c.requests blocks num)).2 =
      { s with count := (s.answers P (c.requests blocks num)).2.count } := by
    induction blocks generalizing s num with
    | nil => rfl
    | cons block rest ih =>
      rw [Client.requests, answers_cons, handler_away s away, ih]
  rw [kept]
  exact .refl s

theorem answers_found (post : c.target.method = .post) (named : c.target.uriText ≠ [])
    (short : c.target.uriText.length < 32) (found : s.store.emmaResourceExists c.target.uriText)
    (idle : s.locked = 0) (blocks : List Text) (num : Nat) :
    (s.answers P (c.requests blocks num)).2 = s := by
  induction blocks generalizing num with
  | nil => rfl
  | cons block rest ih =>
    have method : (c.requestFor num block (rest ≠ [])).method = .post := by
      simp [Client.requestFor, post, ClientMethod.request]
    rw [Client.requests, answers_cons, handler_short s (.inr post) named short, handlePut,
      if_pos ⟨method, found, idle⟩]
    exact ih (num + 1)

theorem Underway.handlePut {rq : Request} {n : UInt64} (h : s.Underway n) (later : rq.blockNum ≠ 0)
    (r : Reply) :
    s.handlePut P rq uri r = if rq.payload = [] then s.handleEmpty P rq uri (r.setBlock1 rq)
      else s.handleBlock P rq uri (r.setBlock1 rq) := by
  simp only [State.handlePut, h.locked, and_false, if_false, later]

theorem Matched.handleEmpty {rq : Request} (m : u.Matched (Calculator.Level Reader.Same) t)
    (last : ¬rq.more) (r : Reply) :
    (u.emmaResourceClose P uri).Matched (Calculator.Level Reader.Same)
      (t.handleEmpty P rq uri r).1 := by
  have ended := (((m.marked uri .server).2.1.close (Calculator.congruent_level P) uri).marked uri
    .server).2.2
  simp only [State.handleEmpty, if_neg last]
  exact { ended with }

theorem Matched.accepts (m : u.Matched (Calculator.Level Reader.Same) t) {num : Nat} {block : Text}
    {more : Bool} (fits : block.length ≤ emmaClientBufferSize) (small : num < 65536) :
    t.full P (c.requestFor num block more) uri ↔
      (UInt16.ofInt (u.writeNum P uri num block).2).toNat = block.length := by
  obtain ⟨-, length⟩ := m.write (Calculator.congruent_level P) uri block
    (P.int (num * emmaClientBufferSize : Nat))
  rw [State.full, Client.requestFor_payload fits, Client.blockIndex_requestFor P small, length]
  rfl

theorem Underway.accepted (m : u.Matched (Calculator.Level Reader.Same) t) {num : Nat} {block : Text}
    {more : Bool} (h : t.Underway (c.requestFor num block more).blockNum.toUInt64)
    (fits : block.length ≤ emmaClientBufferSize) (small : num < 65536)
    (full : (UInt16.ofInt (u.writeNum P uri num block).2).toNat = block.length) (r : Reply) :
    if more then
      (u.writeNum P uri num block).1.Matched (Calculator.Level Reader.Same)
          (t.handleBlock P (c.requestFor num block more) uri r).1 ∧
        (t.handleBlock P (c.requestFor num block more) uri r).1.Underway
          ((c.requestFor num block more).blockNum.toUInt64 + 1) ∧
        (t.handleBlock P (c.requestFor num block more) uri r).1.store.tree = t.store.tree
    else ((u.writeNum P uri num block).1.emmaResourceClose P uri).Matched
      (Calculator.Level Reader.Same) (t.handleBlock P (c.requestFor num block more) uri r).1 := by
  have step := @Underway.taken P u t uri (c.requestFor num block more) r h m
  rw [Client.requestFor_payload fits, Client.blockIndex_requestFor P small] at step
  exact step full

theorem answers_taken (put : c.target.method = .put ∨ c.target.method = .post)
    (named : c.target.uriText ≠ []) (short : c.target.uriText.length < 32) {block : Text}
    {rest : List Text} {num : Nat} (m : u.Matched (Calculator.Level Reader.Same) t)
    (h : t.Underway (c.requestFor num block (rest ≠ [])).blockNum.toUInt64) (filled : block ≠ [])
    (full : ∀ b ∈ (block :: rest).dropLast, b.length = emmaClientBufferSize)
    (fits : ∀ b ∈ block :: rest, b.length ≤ emmaClientBufferSize)
    (small : num + (block :: rest).length ≤ 65536)
    (accepts : u.Accepts P c.target.uriText (block :: rest) num) (r : Reply) :
    ((u.writes P c.target.uriText ((block :: rest).filter (· ≠ [])) num).emmaResourceClose P
      c.target.uriText).Matched (Calculator.Level Reader.Same)
      ((t.handleBlock P (c.requestFor num block (rest ≠ [])) c.target.uriText r).1.answers P
        (c.requests rest (num + 1))).2 := by
  induction rest generalizing block num u t r with
  | nil =>
    have step := h.accepted m (fits block List.mem_cons_self) (Nat.lt_of_succ_le small)
      (accepts.1 filled) r
    have whole : [block].filter (· ≠ []) = [block] := by simp [filled]
    rw [whole]
    exact step
  | cons next rest ih =>
    rw [List.length_cons, List.length_cons] at small
    obtain ⟨written, underway, -⟩ := h.accepted m (fits block List.mem_cons_self) (by omega)
      (accepts.1 filled) r
    have number := @Client.requestFor_next c num block (next :: rest ≠ []) (by omega) next (rest ≠ [])
    rw [← number] at underway
    have later := @Client.requestFor_ne_zero c (num + 1) next (rest ≠ []) (Nat.succ_pos num) (by omega)
    have first : (block :: next :: rest).filter (· ≠ []) =
        block :: (next :: rest).filter (· ≠ []) := List.filter_cons_of_pos (by simpa using filled)
    rw [first, writes, Client.requests, answers_cons, handler_short _ put named short,
      underway.handlePut later, Client.requestFor_payload (fits next (by simp))]
    by_cases empty : next = []
    · -- nothing comes behind an empty block
      obtain rfl : rest = [] := by
        cases rest with
        | nil => rfl
        | cons b rest =>
          have long := full next (by simp)
          rw [empty] at long
          cases long
      rw [if_pos empty, empty]
      simp only [Client.requests, answers]
      exact written.handleEmpty (by simp [Request.more, Client.requestFor]) _
    · rw [if_neg empty]
      exact ih written underway empty (fun b hb => full b (List.mem_cons_of_mem _ hb))
        (fun b hb => fits b (List.mem_cons_of_mem _ hb)) (by rw [List.length_cons]; omega)
        accepts.2 _

theorem answers_refused (put : c.target.method = .put ∨ c.target.method = .post)
    (named : c.target.uriText ≠ []) (short : c.target.uriText.length < 32) {block : Text}
    {rest : List Text} {num : Nat} (m : u.Matched (Calculator.Level Reader.Same) t)
    (h : t.Underway (c.requestFor num block (rest ≠ [])).blockNum.toUInt64) (filled : block ≠ [])
    (full : ∀ b ∈ (block :: rest).dropLast, b.length = emmaClientBufferSize)
    (fits : ∀ b ∈ block :: rest, b.length ≤ emmaClientBufferSize)
    (small : num + (block :: rest).length ≤ 65536)
    (refused : ¬u.Accepts P c.target.uriText (block :: rest) num)
    (sole : (t.store.emmaResourceDel c.target.uriText).1.tree.resolve c.target.uriText = none)
    (r : Reply) :
    ((t.handleBlock P (c.requestFor num block (rest ≠ [])) c.target.uriText r).1.answers P
      (c.requests rest (num + 1))).2.Absent c.target.uriText := by
  induction rest generalizing block num u t r with
  | nil =>
    have wrong : ¬t.full P (c.requestFor num block (([] : List Text) ≠ [])) c.target.uriText := by
      rw [m.accepts (fits block List.mem_cons_self) (Nat.lt_of_succ_le small)]
      exact fun good => refused ⟨fun _ => good, trivial⟩
    exact h.refused wrong sole
  | cons next rest ih =>
    rw [List.length_cons, List.length_cons] at small
    by_cases good : (UInt16.ofInt (u.writeNum P c.target.uriText num block).2).toNat = block.length
    · obtain ⟨written, underway, tree⟩ := h.accepted m (fits block List.mem_cons_self) (by omega)
        good r
      have number := @Client.requestFor_next c num block (next :: rest ≠ []) (by omega) next
        (rest ≠ [])
      rw [← number] at underway
      have later := @Client.requestFor_ne_zero c (num + 1) next (rest ≠ []) (Nat.succ_pos num)
        (by omega)
      have onward : ¬(u.writeNum P c.target.uriText num block).1.Accepts P c.target.uriText
          (next :: rest) (num + 1) := fun all => refused ⟨fun _ => good, all⟩
      rw [Client.requests, answers_cons, handler_short _ put named short,
        underway.handlePut later, Client.requestFor_payload (fits next (by simp))]
      by_cases empty : next = []
      · exfalso
        obtain rfl : rest = [] := by
          cases rest with
          | nil => rfl
          | cons b rest =>
            have long := full next (by simp)
            rw [empty] at long
            cases long
        exact onward ⟨fun filled => absurd empty filled, trivial⟩
      · rw [if_neg empty]
        exact ih written underway empty (fun b hb => full b (List.mem_cons_of_mem _ hb))
          (fun b hb => fits b (List.mem_cons_of_mem _ hb)) (by rw [List.length_cons]; omega)
          onward (by
            have same := (@Store.emmaResourceDel_tree t.store (t.handleBlock P
              (c.requestFor num block (next :: rest ≠ [])) c.target.uriText r).1.store
              (by rw [tree]; exact .refl _) c.target.uriText).1
            rw [same.resolve]
            exact sole) _
    · have wrong : ¬t.full P (c.requestFor num block (next :: rest ≠ [])) c.target.uriText := by
        rw [m.accepts (fits block List.mem_cons_self) (by omega)]
        exact good
      have absent : (t.handleBlock P (c.requestFor num block (next :: rest ≠ [])) c.target.uriText
          r).1.Absent c.target.uriText := h.refused wrong sole
      exact absent.answers put named short (Nat.succ_pos num) (by rw [List.length_cons]; omega)

end State

/-! ### A resource the first block has made -/

theorem Store.Reached.made_deleted {P : Platform} {st : Store} (h : st.Reached P) {uri : Text}
    {root : Root} (hroot : emmaGetRoot uri = some root) (missing : st.tree.resolve uri = none)
    {i : Nat}
    (made : (st.emmaResourceAdd P (some root) (emmaGetName uri)).1.tree.resolve uri = some i) :
    ((st.emmaResourceAdd P (some root) (emmaGetName uri)).1.emmaResourceDel uri).1.tree.resolve uri =
      none := by
  obtain ⟨f, so⟩ := h.sound
  obtain ⟨grown, ⟨-, sound⟩ | ⟨-, r, folder, n, hr, created⟩⟩ :=
    emmaResourceAdd_spec P so (some root) (emmaGetName uri)
  · rw [grown.resolve so sound, missing] at made
    cases made
  · obtain rfl : root = r := Option.some.inj hr
    obtain rfl := created.sole so grown hroot missing made
    exact created.gone so grown hroot missing made

namespace State
variable {P : Platform} {s : State} {uri : Text}

theorem resolve_named {i : Nat} (there : s.resolve uri = some i) : uri ≠ [] := by
  rintro rfl
  cases there

end State

/-! ### Deliveries -/

namespace Cut
variable {payload : Text} {blocks : List Text}

theorem head_filled (cut : Cut payload blocks) {block : Text} {rest : List Text}
    (split : blocks = block :: rest) (some : blocks ≠ [[]]) : block ≠ [] := by
  rintro rfl
  cases rest with
  | nil => exact some split
  | cons next rest =>
    have long := cut.full [] (by simp [split])
    cases long

end Cut

namespace State
variable {P : Platform} {s : State} {c : Client} {payload : Text} {blocks : List Text}

theorem answers_first (put : c.target.method = .put ∨ c.target.method = .post)
    (named : c.target.uriText ≠ []) (short : c.target.uriText.length < 32) (idle : s.locked = 0)
    (fresh : ¬(s.store.emmaResourceExists c.target.uriText ∧ c.target.method = .post))
    {block : Text} (rest : List Text) (filled : block ≠ [])
    (fits : block.length ≤ emmaClientBufferSize) :
    ∃ r, (s.answers P (c.requests (block :: rest) 0)).2 =
      (((s.startTransfer P c.target.uriText).handleBlock P (c.requestFor 0 block (rest ≠ []))
        c.target.uriText r).1.answers P (c.requests rest 1)).2 := by
  have unknown : ¬((c.requestFor 0 block (rest ≠ [])).method = .post ∧
      s.store.emmaResourceExists c.target.uriText ∧ s.locked = 0) := fun h => by
    refine fresh ⟨h.2.1, put.resolve_left fun e => ?_⟩
    have method := h.1
    simp [Client.requestFor, e, ClientMethod.request] at method
  have first : (c.requestFor 0 block (rest ≠ [])).blockNum = 0 := rfl
  rw [Client.requests, answers_cons, handler_short s put named short, handlePut, if_neg unknown,
    Client.requestFor_payload fits, if_neg filled, if_pos first, if_neg (not_not.mpr idle)]
  exact ⟨_, rfl⟩

theorem answers_empty (put : c.target.method = .put ∨ c.target.method = .post)
    (missing : s.resolve c.target.uriText = none) :
    (s.answers P (c.requests [[]] 0)).2.resolve c.target.uriText = none := by
  by_cases reached : c.target.uriText ≠ [] ∧ c.target.uriText.length < 32
  · have unknown : s.store.emmaResourceExists c.target.uriText = false :=
      congrArg Option.isSome missing
    have empty := @Client.requestFor_payload c 0 [] false (by decide)
    show (s.emmaServerHandler P (c.requestFor 0 [] false)).1.resolve c.target.uriText = none
    rw [handler_short s put reached.1 reached.2]
    simp only [handlePut, unknown, Bool.false_eq_true, false_and, and_false, if_false, empty, if_true]
    exact (handleEmpty_resolve s).trans missing
  · exact (answers_away reached [[]] 0).missing.mp missing

theorem answers_unmade (put : c.target.method = .put ∨ c.target.method = .post) (idle : s.locked = 0)
    (unmade : (s.add P c.target.uriText).resolve c.target.uriText = none)
    (cut : Cut payload blocks) :
    (s.answers P (c.requests blocks 0)).2.resolve c.target.uriText = none := by
  have missing := unmade_missing unmade
  by_cases reached : c.target.uriText ≠ [] ∧ c.target.uriText.length < 32
  · by_cases some : blocks = [[]]
    · rw [some]
      exact answers_empty put missing
    · obtain ⟨block, rest, split⟩ := List.exists_cons_of_ne_nil cut.filled
      have filled := cut.head_filled split some
      have unknown : s.store.emmaResourceExists c.target.uriText = false :=
        congrArg Option.isSome missing
      have count := cut.count
      rw [split, List.length_cons] at count
      obtain ⟨r, e⟩ := answers_first (P := P) put reached.1 reached.2 idle (by simp [unknown])
        rest filled (cut.short block (by simp [split]))
      have started : (s.startTransfer P c.target.uriText).Absent c.target.uriText :=
        begin_absent unmade idle
      rw [split, e]
      exact ((started.handleBlock _ r).1.answers put reached.1 reached.2 Nat.one_pos
        (by omega)).missing
  · exact (answers_away reached blocks 0).missing.mp missing

section
variable (h : s.store.Reached P) (put : c.target.method = .put ∨ c.target.method = .post)
  (named : c.target.uriText ≠ []) (short : c.target.uriText.length < 32) (idle : s.locked = 0)
  (unlocked : s.store.emmaResourceIsLocked c.target.uriText = false)
  {i : Nat} (made : (s.add P c.target.uriText).resolve c.target.uriText = some i)
  (ready : s.Ready c.target.uriText) (cut : Cut payload blocks) (some : blocks ≠ [[]])
include h put named short idle unlocked made ready cut some

theorem answers_made
    (fresh : ¬(s.store.emmaResourceExists c.target.uriText ∧ c.target.method = .post))
    (accepts : (s.begun P c.target.uriText).Accepts P c.target.uriText blocks 0) :
    (((s.begun P c.target.uriText).writes P c.target.uriText (blocks.filter (· ≠ []))
      0).emmaResourceClose P c.target.uriText).Matched (Calculator.Level Reader.Same)
      (s.answers P (c.requests blocks 0)).2 := by
  obtain ⟨block, rest, split⟩ := List.exists_cons_of_ne_nil cut.filled
  have filled := cut.head_filled split some
  obtain ⟨full, fits, count⟩ : _ ∧ _ ∧ _ := ⟨cut.full, cut.short, cut.count⟩
  subst split
  obtain ⟨r, e⟩ := answers_first (P := P) put named short idle fresh rest filled
    (fits block List.mem_cons_self)
  obtain ⟨m, underway, -⟩ := begun_matched idle made (made_released h.sound unlocked made) ready
  have zero : (c.requestFor 0 block (rest ≠ [])).blockNum.toUInt64 = 0 := rfl
  rw [← zero] at underway
  rw [e]
  exact answers_taken put named short m underway filled full fits (by omega) accepts r

theorem answers_lost
    (fresh : ¬(s.store.emmaResourceExists c.target.uriText ∧ c.target.method = .post))
    (sole : ((s.add P c.target.uriText).store.emmaResourceDel c.target.uriText).1.tree.resolve
      c.target.uriText = none)
    (refused : ¬(s.begun P c.target.uriText).Accepts P c.target.uriText blocks 0) :
    (s.answers P (c.requests blocks 0)).2.resolve c.target.uriText = none := by
  obtain ⟨block, rest, split⟩ := List.exists_cons_of_ne_nil cut.filled
  have filled := cut.head_filled split some
  obtain ⟨full, fits, count⟩ : _ ∧ _ ∧ _ := ⟨cut.full, cut.short, cut.count⟩
  subst split
  obtain ⟨r, e⟩ := answers_first (P := P) put named short idle fresh rest filled
    (fits block List.mem_cons_self)
  obtain ⟨m, underway, tree⟩ := begun_matched idle made (made_released h.sound unlocked made) ready
  have zero : (c.requestFor 0 block (rest ≠ [])).blockNum.toUInt64 = 0 := rfl
  rw [← zero] at underway
  have same : (s.add P c.target.uriText).store.tree.Same
      (s.startTransfer P c.target.uriText).store.tree := by
    rw [tree]
    exact .refl _
  rw [e]
  refine (answers_refused put named short m underway filled full fits (by omega) refused ?_ r).missing
  rw [(Store.emmaResourceDel_tree same c.target.uriText).1.resolve]
  exact sole

end

end State

namespace State
variable {P : Platform} {s t u : State} {uri : Text}

theorem writes_content (blocks : List Text) (num : Nat) (s : State) :
    s.Content (s.writes P uri blocks num) := by
  induction blocks generalizing num s with
  | nil => exact .refl s
  | cons block rest ih => exact (Content.emmaResourceWrite s uri block _).trans (ih _ _)

theorem closed_resolve {i : Nat} (made : (s.add P uri).resolve uri = some i) {blocks : List Text} :
    (((s.begun P uri).writes P uri blocks 0).emmaResourceClose P uri).resolve uri = some i := by
  rw [((writes_content blocks 0 _).trans (Content.emmaResourceClose _ uri)).resolve_eq, begun,
    (Content.emmaResourceOpen _ uri).resolve_eq]
  exact made

end State

namespace State
variable {P : Platform} {s : State} {c : Client} {payload : Text} {blocks : List Text}

theorem exists_false {uri : Text} (missing : s.resolve uri = none) :
    s.store.emmaResourceExists uri = false := congrArg Option.isSome missing

theorem made_gone {uri : Text} (h : s.store.Reached P) (missing : s.resolve uri = none) {i : Nat}
    (made : (s.add P uri).resolve uri = some i) :
    ((s.add P uri).store.emmaResourceDel uri).1.tree.resolve uri = none := by
  obtain ⟨root, hroot, -⟩ := Option.bind_eq_some_iff.mp made
  simp only [State.add, hroot] at made ⊢
  exact h.made_deleted hroot missing made

theorem answers_nil (put : c.target.method = .put) (named : c.target.uriText ≠ [])
    (short : c.target.uriText.length < 32) {i : Nat} (hi : s.resolve c.target.uriText = some i) :
    s.Agrees P c.target.uriText (s.answers P (c.requests [[]] 0)).2 ↔
      s.Spent P c.target.uriText := by
  have method : (c.requestFor 0 [] false).method = .put := by
    simp [Client.requestFor, put, ClientMethod.request]
  have same : s.Matched (Calculator.Level Reader.Same) s :=
    ⟨⟨.refl _, rfl, rfl, rfl⟩, rfl, Calculator.level_of rfl rfl (.refl _)⟩
  have closed : (s.emmaResourceClose P c.target.uriText).Agrees P c.target.uriText
      (s.answers P (c.requests [[]] 0)).2 := by
    show State.Agrees P _ _ (s.emmaServerHandler P (c.requestFor 0 [] false)).1
    rw [handler_short s (.inl put) named short, handlePut, if_neg (by simp [method]),
      Client.requestFor_payload (by decide), if_pos rfl]
    exact (same.handleEmpty (by simp [Request.more, Client.requestFor]) _).agrees
  refine Iff.trans ⟨fun a => a.trans closed.symm, fun a => a.trans closed⟩ ?_
  obtain ⟨root, hroot, -⟩ := Option.bind_eq_some_iff.mp hi
  cases root with
  | resource =>
    rw [close_agrees hroot hi]
    simp only [Spent, hroot, true_imp_iff]
  | agent | system =>
    simp only [emmaResourceClose, hroot, Spent, reduceCtorEq, Option.some.injEq, false_imp_iff,
      iff_true]
    exact .refl s

theorem answers_agrees (idle : P.IdleWrites) (h : s.store.Reached P)
    (put : c.target.method = .put ∨ c.target.method = .post) (free : s.locked = 0)
    (unlocked : s.store.emmaResourceIsLocked c.target.uriText = false) {i : Nat}
    (hi : s.resolve c.target.uriText = some i) (short : c.target.uriText.length < 32)
    (ready : s.Ready c.target.uriText) (cut : Cut payload blocks) (some : blocks ≠ [[]])
    (fresh : ¬(s.store.emmaResourceExists c.target.uriText ∧ c.target.method = .post))
    (takes : s.Takes P c.target.uriText blocks) :
    s.Agrees P c.target.uriText (s.answers P (c.requests blocks 0)).2 ↔
      s.Holds P c.target.uriText blocks := by
  have made : (s.add P c.target.uriText).resolve c.target.uriText = Option.some i := by
    rw [add_known hi]
    exact hi
  have same := answers_made h put (resolve_named made) short free unlocked made ready cut some fresh
    ((takes_iff h made cut.dense cut.short).mp takes)
  have all := (inert idle h made cut.dense).symm.trans same.agrees
  rw [← writes_holds idle h hi cut.dense cut.short takes]
  exact ⟨fun a => a.trans all.symm, fun a => a.trans all⟩

end State

namespace System
variable {P : Platform} {s : System} {payload : Text} {blocks : List Text}

/-- What the two ways lead to -/
def Delivered (P : Platform) (s : System) (blocks : List Text) : Prop :=
  (s.deliver P blocks 0).shared.Agrees P s.client.target.uriText
    (s.shared.answers P (s.client.requests blocks 0)).2

/-- The client takes the target for the agent. -/
def Self (s : System) : Prop := s.client.target.uriText.isPrefixOf s.client.resource

instance (s : System) : Decidable s.Self := inferInstanceAs (Decidable (_ = true))

inductive Coincides (P : Platform) (s : System) (blocks : List Text) : Prop
  /-- Both leave a resource alone that a POST finds; the client writes no later block either. -/
  | found (post : s.client.target.method = .post)
      (there : s.shared.store.emmaResourceExists s.client.target.uriText)
      (quiet : s.client.postLoOpened = 0 ∨ blocks.length = 1 ∨ s.Self)
  /-- Neither can make the resource. -/
  | unmade (gone : (s.shared.add P s.client.target.uriText).resolve s.client.target.uriText = none)
  /-- Both write it. -/
  | written (fresh : ¬(s.shared.store.emmaResourceExists s.client.target.uriText ∧
        s.client.target.method = .post))
      (other : ¬s.Self) (short : s.client.target.uriText.length < 32) (some : blocks ≠ [[]])
      (ready : s.shared.Ready s.client.target.uriText)
      (takes : s.shared.Takes P s.client.target.uriText blocks)
  /-- There is nothing to write into a resource that is there. -/
  | empty (put : s.client.target.method = .put)
      (there : s.shared.store.emmaResourceExists s.client.target.uriText) (blank : blocks = [[]])
      (spent : s.client.target.uriText.length < 32 → s.shared.Spent P s.client.target.uriText)
  /-- The client takes the target for the agent, and the handler does not keep it either. -/
  | neither (self : s.Self) (refused : 32 ≤ s.client.target.uriText.length ∨
      s.shared.store.emmaResourceExists s.client.target.uriText = false ∧ (blocks = [[]] ∨
        s.shared.Ready s.client.target.uriText ∧
          ¬s.shared.Takes P s.client.target.uriText blocks))
  /-- Only one of the two writes, and what is there already. -/
  | held (put : s.client.target.method = .put)
      (there : s.shared.store.emmaResourceExists s.client.target.uriText) (some : blocks ≠ [[]])
      (alone : s.Self ∧ s.client.target.uriText.length < 32 ∧
          s.shared.Ready s.client.target.uriText ∨
        ¬s.Self ∧ 32 ≤ s.client.target.uriText.length)
      (takes : s.shared.Takes P s.client.target.uriText blocks)
      (holds : s.shared.Holds P s.client.target.uriText blocks)

/-- Nothing is left of earlier writes that gets into this one, and a target that is there takes
the blocks or can be deleted. -/
structure Plain (P : Platform) (s : System) (blocks : List Text) : Prop where
  ready : s.shared.Ready s.client.target.uriText
  quiet : s.shared.store.emmaResourceExists s.client.target.uriText →
    s.client.target.method = .post → s.client.postLoOpened = 0 ∨ blocks.length = 1 ∨ s.Self
  taken : s.shared.store.emmaResourceExists s.client.target.uriText →
    s.client.target.method = .put → s.shared.Takes P s.client.target.uriText blocks ∨
      s.client.target.uriText.length < 32 ∧ (s.shared.store.emmaResourceDel
        s.client.target.uriText).1.emmaResourceExists s.client.target.uriText = false

theorem deliver_agrees (idle : P.IdleWrites) (h : s.shared.store.Reached P)
    (put : s.client.target.method = .put) {i : Nat}
    (hi : s.shared.resolve s.client.target.uriText = some i) (cut : Cut payload blocks)
    (takes : s.shared.Takes P s.client.target.uriText blocks) :
    s.shared.Agrees P s.client.target.uriText (s.deliver P blocks 0).shared ↔
      s.Self ∨ s.shared.Holds P s.client.target.uriText blocks := by
  have kind : s.client.target.method ≠ .delete := by simp [put]
  by_cases self : s.Self
  · rw [deliver_self kind self]
    exact iff_of_true (.refl _) (.inl self)
  · have made : (s.shared.add P s.client.target.uriText).resolve s.client.target.uriText = some i := by
      rw [State.add_known hi]
      exact hi
    rw [deliver_made kind self (by simp [put]) made cut.filled cut.count,
      State.writes_holds idle h hi cut.dense cut.short takes]
    exact (or_iff_right self).symm

/-- Where the client writes, the handler has the resource in the end too. -/
theorem Delivered.kept (same : s.Delivered P blocks)
    (kind : s.client.target.method ≠ .delete) (cut : Cut payload blocks) (other : ¬s.Self)
    (fresh : ¬(s.shared.store.emmaResourceExists s.client.target.uriText ∧
      s.client.target.method = .post)) {i : Nat}
    (made : (s.shared.add P s.client.target.uriText).resolve s.client.target.uriText = some i) :
    (s.shared.answers P (s.client.requests blocks 0)).2.resolve s.client.target.uriText ≠ none := by
  intro gone
  have lost := same.missing.mpr gone
  rw [deliver_made kind other fresh made cut.filled cut.count, State.closed_resolve made] at lost
  cases lost

section
variable (idle : P.IdleWrites) (h : s.shared.store.Reached P)
  (put : s.client.target.method = .put ∨ s.client.target.method = .post)
  (unlocked : s.shared.store.emmaResourceIsLocked s.client.target.uriText = false)
  (free : s.shared.locked = 0) (cut : Cut payload blocks)
include h put unlocked free cut

/-- The handler deletes a resource that does not take the blocks. -/
theorem Plain.lost (plain : s.Plain P blocks) (short : s.client.target.uriText.length < 32)
    (filled : blocks ≠ [[]]) (fresh : ¬(s.shared.store.emmaResourceExists s.client.target.uriText ∧
      s.client.target.method = .post)) {i : Nat}
    (made : (s.shared.add P s.client.target.uriText).resolve s.client.target.uriText = some i)
    (sole : ((s.shared.add P s.client.target.uriText).store.emmaResourceDel
      s.client.target.uriText).1.tree.resolve s.client.target.uriText = none)
    (wrong : ¬s.shared.Takes P s.client.target.uriText blocks) :
    (s.shared.answers P (s.client.requests blocks 0)).2.resolve s.client.target.uriText = none :=
  State.answers_lost h put (State.resolve_named made) short free unlocked made plain.ready cut filled
    fresh sole fun accepts => wrong ((State.takes_iff h made cut.dense cut.short).mpr accepts)

theorem Delivered.coincides_new (plain : s.Plain P blocks) (same : s.Delivered P blocks)
    (known : s.shared.resolve s.client.target.uriText = none) : s.Coincides P blocks := by
  have kind : s.client.target.method ≠ .delete := by rcases put with e | e <;> simp [e]
  have unknown := State.exists_false known
  have fresh : ¬(s.shared.store.emmaResourceExists s.client.target.uriText ∧
      s.client.target.method = .post) := by simp [unknown]
  cases made : (s.shared.add P s.client.target.uriText).resolve s.client.target.uriText with
  | none => exact .unmade made
  | some i =>
    by_cases self : s.Self
    · refine .neither self ?_
      by_contra refused
      simp only [not_or, not_and, not_not, Nat.not_le] at refused
      obtain ⟨short, refused⟩ := refused
      obtain ⟨some, takes⟩ := refused unknown
      have there := State.answers_made h put (State.resolve_named made) short free unlocked made
        plain.ready cut some fresh
        ((State.takes_iff h made cut.dense cut.short).mp (takes plain.ready))
      have none' := same.missing.mp (by rw [deliver_self kind self]; exact known)
      rw [← there.agrees.missing (P := P), State.closed_resolve made] at none'
      cases none'
    · have stays := same.kept kind cut self fresh made
      have short : s.client.target.uriText.length < 32 := by
        by_contra long
        exact stays ((State.answers_away (fun reached => long reached.2) blocks 0).missing.mp known)
      have some : blocks ≠ [[]] := fun e => by
        rw [e] at stays
        exact stays (State.answers_empty put known)
      refine .written fresh self short some plain.ready ?_
      by_contra wrong
      exact stays (plain.lost h put unlocked free cut short some fresh made
        (State.made_gone h known made) wrong)

include idle

theorem Coincides.delivered (why : s.Coincides P blocks) : s.Delivered P blocks := by
  have kind : s.client.target.method ≠ .delete := by rcases put with e | e <;> simp [e]
  have dense := cut.dense
  have unmade (gone : (s.shared.add P s.client.target.uriText).resolve
      s.client.target.uriText = none) : s.Delivered P blocks :=
    .of_missing (deliver_unmade kind gone cut.count) (State.answers_unmade put free gone cut)
  cases why with
  | found post there quiet =>
    have left : (s.deliver P blocks 0).shared = s.shared := by
      rcases quiet with closed | single | self
      · exact deliver_found post there cut.count (.inl closed)
      · exact deliver_found post there cut.count (.inr single)
      · exact deliver_self kind self blocks 0
    rw [Delivered, left]
    by_cases reached : s.client.target.uriText ≠ [] ∧ s.client.target.uriText.length < 32
    · rw [State.answers_found post reached.1 reached.2 there free]
      exact .refl _
    · exact State.answers_away reached blocks 0
  | unmade gone => exact unmade gone
  | written fresh other short some ready takes =>
    cases made : (s.shared.add P s.client.target.uriText).resolve s.client.target.uriText with
    | none => exact unmade made
    | some i =>
      have same := State.answers_made h put (State.resolve_named made) short free unlocked made ready
        cut some fresh ((State.takes_iff h made dense cut.short).mp takes)
      rw [Delivered, deliver_made kind other fresh made cut.filled cut.count]
      exact (State.inert idle h made dense).symm.trans same.agrees
  | empty put there blank spent =>
    obtain ⟨i, hi⟩ := Option.isSome_iff_exists.mp there
    subst blank
    have client := (deliver_agrees idle h put hi cut (s.shared.takes_nil _).1).mpr
      (.inr (s.shared.takes_nil _).2)
    refine client.symm.trans ?_
    by_cases short : s.client.target.uriText.length < 32
    · exact (State.answers_nil put (State.resolve_named hi) short hi).mpr (spent short)
    · exact State.answers_away (fun reached => short reached.2) _ 0
  | neither self refused =>
    rw [Delivered, deliver_self kind self]
    rcases refused with long | ⟨missing, refused⟩
    · exact State.answers_away (fun reached => Nat.not_lt.mpr long reached.2) blocks 0
    have missing : s.shared.resolve s.client.target.uriText = none := by
      simpa [Store.emmaResourceExists, State.resolve] using missing
    refine .of_missing missing ?_
    cases made : (s.shared.add P s.client.target.uriText).resolve s.client.target.uriText with
    | none => exact State.answers_unmade put free made cut
    | some i =>
      by_cases short : s.client.target.uriText.length < 32
      · by_cases some : blocks = [[]]
        · rw [some]
          exact State.answers_empty put missing
        · obtain ⟨ready, wrong⟩ := refused.resolve_left some
          exact State.answers_lost h put (State.resolve_named made) short free unlocked made ready cut
            some (by simp [State.exists_false missing]) (State.made_gone h missing made)
            (fun accepts => wrong ((State.takes_iff h made dense cut.short).mpr accepts))
      · exact (State.answers_away (fun reached => short reached.2) blocks 0).missing.mp missing
  | held put there some alone takes holds =>
    obtain ⟨i, hi⟩ := Option.isSome_iff_exists.mp there
    rcases alone with ⟨self, short, ready⟩ | ⟨other, long⟩
    · rw [Delivered, deliver_self kind self]
      exact (State.answers_agrees idle h (.inl put) free unlocked hi short ready cut some
        (by simp [put]) takes).mpr holds
    · refine ((deliver_agrees idle h put hi cut takes).mpr (.inr holds)).symm.trans ?_
      exact State.answers_away (fun reached => Nat.not_lt.mpr long reached.2) blocks 0

theorem Delivered.coincides_put (plain : s.Plain P blocks) (same : s.Delivered P blocks)
    (put' : s.client.target.method = .put) {i : Nat}
    (known : s.shared.resolve s.client.target.uriText = some i) : s.Coincides P blocks := by
  have kind : s.client.target.method ≠ .delete := by simp [put']
  have there : s.shared.store.emmaResourceExists s.client.target.uriText = true :=
    congrArg Option.isSome known
  have fresh : ¬(s.shared.store.emmaResourceExists s.client.target.uriText ∧
      s.client.target.method = .post) := by simp [put']
  have made : (s.shared.add P s.client.target.uriText).resolve s.client.target.uriText = some i := by
    rw [State.add_known known]
    exact known
  by_cases some : blocks = [[]]
  · subst some
    refine .empty put' there rfl fun short => ?_
    have client := (deliver_agrees idle h put' known cut (s.shared.takes_nil _).1).mpr
      (.inr (s.shared.takes_nil _).2)
    exact (State.answers_nil put' (State.resolve_named known) short known).mp (client.trans same)
  by_cases takes : s.shared.Takes P s.client.target.uriText blocks
  · have client := deliver_agrees idle h put' known cut takes
    by_cases short : s.client.target.uriText.length < 32
    · by_cases self : s.Self
      · refine .held put' there some (.inl ⟨self, short, plain.ready⟩) takes ?_
        exact (State.answers_agrees idle h (.inl put') free unlocked known short plain.ready cut some
          fresh takes).mp ((client.mpr (.inl self)).trans same)
      · exact .written fresh self short some plain.ready takes
    · have away := @State.answers_away P s.shared s.client (fun reached => short reached.2) blocks 0
      by_cases self : s.Self
      · exact .neither self (.inl (Nat.not_lt.mp short))
      · exact .held put' there some (.inr ⟨self, Nat.not_lt.mp short⟩) takes
          ((client.mp (away.trans same.symm)).resolve_left self)
  · obtain ⟨short, sole⟩ := (plain.taken there put').resolve_left takes
    have gone := plain.lost h put unlocked free cut short some fresh made (by
      rw [State.add_known known]
      simpa [Store.emmaResourceExists] using sole) takes
    by_cases self : s.Self
    · have none' := same.missing.mpr gone
      rw [deliver_self kind self, known] at none'
      cases none'
    · exact absurd gone (same.kept kind cut self fresh made)

theorem Delivered.coincides (plain : s.Plain P blocks) (same : s.Delivered P blocks) :
    s.Coincides P blocks := by
  cases known : s.shared.resolve s.client.target.uriText with
  | none => exact same.coincides_new h put unlocked free cut plain known
  | some i =>
    rcases put with put | post
    · exact same.coincides_put idle h (.inl put) unlocked free cut plain put known
    · exact .found post (congrArg Option.isSome known)
        (plain.quiet (congrArg Option.isSome known) post)

/-- The client and the handler leave the target the same when one of the reasons holds, and for
a plain target only then. -/
theorem delivered_iff : (s.Coincides P blocks → s.Delivered P blocks) ∧
    (s.Plain P blocks → (s.Delivered P blocks ↔ s.Coincides P blocks)) :=
  ⟨Coincides.delivered idle h put unlocked free cut, fun plain =>
    ⟨Delivered.coincides idle h put unlocked free cut plain,
      Coincides.delivered idle h put unlocked free cut⟩⟩

end

def namesake (target : Text) : System where
  shared := State.after [.add (some .agent) (chars ['x', 'y'])]
  client := { Client.init with
    resource := chars ['A', '/', 'x', 'y']
    target := { TargetReader.init with uri := fun i => target.getD i 0, method := .put } }

def longSum : List Text := [(List.replicate 32 (chars ['0', '+'])).flatten, chars ['5']]

theorem cut_longSum : Cut longSum.flatten longSum :=
  ⟨by decide, rfl, by decide, by decide, by decide⟩

theorem delivered_sum : (namesake (chars ['L', '/', 'x'])).Delivered .plain longSum := by
  refine (delivered_iff Platform.plain_idleWrites (State.after_reached _) (.inl rfl)
    (by decide +kernel) rfl cut_longSum).1 (.written ?_ ?_ ?_ ?_ (.inl rfl) ?_)
  · decide +kernel
  · decide +kernel
  · decide +kernel
  · decide
  · show (Calculator.evaluateBlocks _ _ _ _).2 = .ready
    decide +kernel

/-- The client takes `A/x` for `A/xy`, and the handler does not. -/
theorem delivered_apart : ¬ ∀ (P : Platform) (s : System) (payload : Text) (blocks : List Text),
    P.IdleWrites → s.shared.store.Reached P →
    s.shared.store.emmaResourceExists s.client.resource = true →
    s.client.target.uriText ≠ s.client.resource →
    (s.client.target.method = .put ∨ s.client.target.method = .post) →
    s.shared.store.emmaResourceIsLocked s.client.target.uriText = false →
    s.shared.store.emmaResourceIsLocked s.client.resource = false →
    s.shared.locked = 0 → s.shared.opened = 0 → s.client.postLoOpened = 0 → Cut payload blocks →
    s.Delivered P blocks := by
  intro h
  have cut : Cut (chars ['5']) [chars ['5']] :=
    ⟨by decide, by decide, by decide, by decide, by decide⟩
  have same := (h .plain (namesake (chars ['A', '/', 'x'])) _ _ Platform.plain_idleWrites
    (State.after_reached _) (by decide +kernel) (by decide +kernel) (.inl rfl) (by decide +kernel)
    (by decide +kernel) rfl rfl rfl cut).1
  revert same
  decide +kernel

end System
end EmmaNode

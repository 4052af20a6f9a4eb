import EmmaNode.AgentContent
import EmmaNode.Responses

/-! The transfer of an agent over a network that loses, repeats and reorders its blocks. The
blocks that are written are written in order from the first one on, so when the last one is
answered with success the file holds the text, and the scanner has read it once. -/

namespace EmmaNode

namespace Agent
variable {P : Platform} {a : Agent}

def resize (a : Agent) (size : UInt16) : Agent := { a with size }

theorem watch_resize {size : UInt16} {cnt cnt' : Nat} (state : JsonState) (c : UInt8)
    (patterns : List Pattern) (count : a.size.toNat + cnt = size.toNat + cnt') :
    Agent.watch P state c cnt' patterns (a.resize size) =
      ((a.watch P state c cnt patterns).1.resize size, (a.watch P state c cnt patterns).2) := by
  induction patterns generalizing a with
  | nil => rfl
  | cons p rest ih =>
    have fed : (a.resize size).feed P p c = (a.feed P p c).resize size := rfl
    have index : P.int (((a.resize size).feed P p c).size.toNat + cnt') =
        P.int ((a.feed P p c).size.toNat + cnt) := by
      congr 1
      exact_mod_cast count.symm
    simp only [watch, index]
    by_cases met : p.byte P ((a.feed P p c).patternIndex p).toNat = 0 ∧ state ≠ .content
    · have met' : p.byte P (((a.resize size).feed P p c).patternIndex p).toNat = 0 ∧
        state ≠ .content := met
      rw [if_pos met, if_pos met']
      by_cases first : (a.feed P p c).fileIndex p = 0
      · have first' : ((a.resize size).feed P p c).fileIndex p = 0 := first
        rw [if_pos first, if_pos first']
        exact @ih { a.feed P p c with
          fileIndex := Function.update (a.feed P p c).fileIndex p
            (P.int ((a.feed P p c).size.toNat + cnt)) } count
      · have first' : ¬((a.resize size).feed P p c).fileIndex p = 0 := first
        rw [if_neg first, if_neg first', fed]
    · have met' : ¬(p.byte P (((a.resize size).feed P p c).patternIndex p).toNat = 0 ∧
        state ≠ .content) := met
      rw [if_neg met, if_neg met']
      exact @ih (a.feed P p c) count

theorem scan_resize {size : UInt16} {t : Text} {cnt cnt' : Nat}
    (count : a.size.toNat + cnt = size.toNat + cnt') :
    Agent.scan P t cnt' (a.resize size) =
      ((a.scan P t cnt).1.resize size, (a.scan P t cnt).2) := by
  induction t generalizing a cnt cnt' with
  | nil => rfl
  | cons c t ih =>
    have parsed : (a.resize size).parser.parse c 1 = a.parser.parse c 1 := rfl
    simp only [scan, parsed]
    rcases a.parser.parse c 1 with ⟨parser, state⟩
    have frame := (watch_frame (P := P) state c cnt Pattern.all { a with parser }).2
    have same := @watch_resize P { a with parser } size cnt cnt' state c Pattern.all count
    have moved : ({ a.resize size with parser } : Agent) =
        ({ a with parser } : Agent).resize size := rfl
    simp only [moved, same]
    revert frame
    rcases Agent.watch P state c cnt Pattern.all { a with parser } with ⟨b, _ | _⟩
    · intro frame
      have frame : b.size = a.size := frame
      exact ih (by rw [frame, ← Nat.add_assoc, ← Nat.add_assoc, count])
    · exact fun _ => rfl

theorem scan_append (t u : Text) (cnt : Nat) (a : Agent) : a.scan P (t ++ u) cnt =
    match a.scan P t cnt with
    | (b, true) => (b, true)
    | (b, false) => b.scan P u (cnt + t.length) := by
  induction t generalizing a cnt with
  | nil => rfl
  | cons c t ih =>
    simp only [List.cons_append, scan]
    rcases a.parser.parse c 1 with ⟨parser, state⟩
    simp only
    rcases Agent.watch P state c cnt Pattern.all { a with parser } with ⟨b, _ | _⟩
    · simp only [ih]
      rw [List.length_cons, Nat.add_assoc, Nat.add_comm 1]
    · rfl

end Agent

/-- What `cfs_seek` and `cfs_write` promise: the number of bytes written or -1, and when that
is all of them, they are in the file from the offset on, behind what was there before. -/
structure Platform.Cfs (P : Platform) : Prop where
  returns : ∀ {file : Option Text} {offset : Int} {bytes : Text} {n : Int} {new : Text},
    P.cfsWrite file offset bytes = .wrote n new → -1 ≤ n ∧ n ≤ bytes.length
  stores : ∀ {file : Option Text} {offset : Int} {bytes new : Text},
    P.cfsWrite file offset bytes = .wrote bytes.length new → bytes ≠ [] → 0 ≤ offset ∧
      (offset.toNat ≤ (file.getD []).length →
        new.take (offset.toNat + bytes.length) = (file.getD []).take offset.toNat ++ bytes)

theorem Platform.plain_cfs : Platform.plain.Cfs where
  returns {file offset bytes n new} wrote := by
    simp only [plain, storeBytes] at wrote
    split at wrote
    · cases wrote
      omega
    · cases wrote
  stores {file offset bytes new} wrote _ := by
    simp only [plain, storeBytes] at wrote
    split at wrote
    · rename_i inside
      cases wrote
      refine ⟨inside.1, fun short => ?_⟩
      have front : ((file.getD []).take offset.toNat ++ bytes).length =
          offset.toNat + bytes.length := by
        rw [List.length_append, List.length_take, Nat.min_eq_left short]
      rw [← front, List.take_left']
      rfl
    · cases wrote

namespace State
variable {P : Platform} {s : State} {uri : Text} {rq : Request} {slot : Nat}

/-- The agent has been written from its start: the file begins with the text, and size and
scanner are as behind it. -/
structure Written (P : Platform) (s : State) (uri : Text) (slot : Nat) (text : Text) : Prop where
  agent : s.IsAgent uri slot
  bytes : (s.content uri).take text.length = text
  size : (s.store.agents slot).size = UInt16.ofNat text.length
  scanned : (s.store.agents slot).reset.scan P text 0 = ((s.store.agents slot).resize 0, false)

theorem ofInt_toNat {n : Int} {len : Nat} (low : -1 ≤ n) (high : n ≤ len) (small : len < 65535)
    (same : (UInt16.ofInt n).toNat = len) : n = len := by
  have value : (UInt16.ofInt n).toNat = (n % 2 ^ 16).toNat % 2 ^ 16 := UInt16.toNat_ofNat'
  omega

theorem Written.length_le {text : Text} (h : s.Written P uri slot text) :
    text.length ≤ (s.content uri).length := by
  have := congrArg List.length h.bytes
  rw [List.length_take] at this
  omega

theorem written_append (cfs : P.Cfs) (a : s.IsAgent uri slot) (full : s.full P rq uri)
    (filled : rq.payload ≠ []) {text : Text} (index : blockIndex P rq = P.int text.length)
    (front : text ≠ [] → s.Written P uri slot text)
    (short : text.length + rq.payload.length < 65536) :
    (s.written P rq uri).Written P uri slot (text ++ rq.payload) := by
  have long : rq.payload.length ≠ 0 := fun e => filled (List.length_eq_zero_iff.mp e)
  have inside : text.length ≤ (s.content uri).length ∧ (s.content uri).take text.length = text := by
    cases text with
    | nil => simp
    | cons c text => exact ⟨(front (by simp)).length_le, (front (by simp)).bytes⟩
  have old : s.content uri = (s.store.files (s.store.agents slot).memoryIndex).getD [] := by
    rw [content, a.slot]
  unfold State.full at full
  unfold State.written
  rw [a.write] at full ⊢
  simp only [Store.rootAgentWrite] at full ⊢
  have frame := (s.store.agents slot).analyzeBlock_memoryIndex (P := P) rq.payload (blockIndex P rq)
  rcases scan : (s.store.agents slot).analyzeBlock P rq.payload (blockIndex P rq) with ⟨b, _ | _⟩
  case true =>
    simp only [scan] at full
    exact absurd full.symm long
  rw [scan] at frame
  simp only [scan] at full ⊢
  rcases wrote : P.cfsWrite (s.store.files b.memoryIndex) (blockIndex P rq) rq.payload with
    _ | ⟨n, new⟩
  · simp only [wrote] at full
    exact absurd full.symm long
  simp only [wrote] at full ⊢
  obtain ⟨low, high⟩ := cfs.returns wrote
  have all : n = rq.payload.length := ofInt_toNat low high (by have := rq.payload_le; omega) full
  subst all
  obtain ⟨ahead, stored⟩ := cfs.stores wrote filled
  have place : blockIndex P rq = text.length := by
    rcases P.int_nat (n := text.length) (by omega) with e | e <;> omega
  have joined : new.take (text.length + rq.payload.length) = text ++ rq.payload := by
    have := stored (by rw [place, Int.toNat_natCast, frame, ← old]; exact inside.1)
    rwa [place, Int.toNat_natCast, frame, ← old, inside.2] at this
  -- the scanner, which starts anew with a block at the start of the file
  obtain ⟨size, scanned⟩ : b.size = UInt16.ofNat text.length ∧
      (s.store.agents slot).reset.scan P (text ++ rq.payload) 0 = (b.resize 0, false) := by
    unfold Agent.analyzeBlock at scan
    simp only at scan
    cases text with
    | nil =>
      have start : blockIndex P rq = 0 := place
      rw [if_pos start] at scan
      have sized := (Agent.scan_frame (P := P) rq.payload 0 (s.store.agents slot).reset).2
      rw [scan] at sized
      have empty : b.size = 0 := sized
      refine ⟨empty, ?_⟩
      rw [List.nil_append, scan, Agent.resize, ← empty]
    | cons c text =>
      obtain ⟨-, -, size, scanned⟩ := front (by simp)
      rw [if_neg (by rw [place, List.length_cons]; omega)] at scan
      have sized := (Agent.scan_frame (P := P) rq.payload 0 (s.store.agents slot)).2
      rw [scan] at sized
      refine ⟨sized.trans size, ?_⟩
      have count : (s.store.agents slot).size.toNat + 0 =
          (0 : UInt16).toNat + (0 + (c :: text).length) := by
        rw [size, UInt16.toNat_ofNat', Nat.mod_eq_of_lt (by omega)]
        simp
      rw [Agent.scan_append, scanned]
      simp only
      rw [Agent.scan_resize count, scan]
  have wide := ofInt_nat (n := rq.payload.length) (by omega)
  refine ⟨⟨a.root, a.slot⟩, ?_, ?_, ?_⟩
  · have there : ({ s.store with
        agents := Function.update s.store.agents slot { b with
          size := b.size + UInt16.ofInt rq.payload.length }
        files := Function.update s.store.files b.memoryIndex (some new) } : Store).slotOf uri =
        some slot := a.slot
    rw [content, there]
    simp only [Function.update_self, Option.getD_some, List.length_append]
    exact joined
  · simp only [Function.update_self]
    rw [size, wide, List.length_append, UInt16.ofNat_add]
  · simp only [Function.update_self]
    have reset : Agent.reset { b with size := b.size + UInt16.ofInt rq.payload.length } =
        (s.store.agents slot).reset := by
      have kept : b.memoryIndex = (s.store.agents slot).memoryIndex := frame
      simp only [Agent.reset, kept]
    rw [reset, scanned]
    rfl

theorem IsAgent.same {t : State} (a : s.IsAgent uri slot) (same : s.store.Same t.store) :
    t.IsAgent uri slot := by
  refine ⟨a.root, ?_⟩
  rw [Store.slotOf, same.tree.resolve, same.tree.data]
  exact a.slot

theorem Written.same {t : State} {text : Text} (h : s.Written P uri slot text)
    (same : s.store.Same t.store) : t.Written P uri slot text := by
  have a := h.agent.same same
  refine ⟨a, ?_, ?_, ?_⟩
  · have bytes := h.bytes
    rw [content, h.agent.slot] at bytes
    rw [content, a.slot, same.agents, same.files]
    exact bytes
  · rw [same.agents]
    exact h.size
  · rw [same.agents]
    exact h.scanned

/-- The resources and the transfer of the server are left as they are. -/
structure Spares (s t : State) : Prop where
  store : s.store.Same t.store
  locked : t.locked = s.locked
  count : t.count = s.count

theorem endTransfer_same (agent : emmaGetRoot uri = some .agent) (s : State) :
    s.store.Same ((s.setClocktime uri).endTransfer P uri).store := by
  obtain ⟨same, -⟩ := marked_same s uri .server
  have closed : ((s.setClocktime uri).setLastModified uri .server).emmaResourceClose P uri =
      (s.setClocktime uri).setLastModified uri .server := by
    simp only [emmaResourceClose, agent]
  refine same.trans ?_
  simp only [endTransfer, closed, release, Store.emmaResourceRelease]
  split <;> exact ⟨.refl _, rfl, rfl, rfl⟩

theorem handleBlock_untaken (u : State) (h : ¬(¬u.lost rq.blockNum ∧ u.locked ≠ 0 ∧ u.opened ≠ 0 ∧
    rq.blockNum.toUInt64 ≠ u.count)) (r : Reply) :
    (u.handleBlock P rq uri r).1.locked = 0 ∨
      (u.handleBlock P rq uri r).1 = u ∧ rq.blockNum.toUInt64 = u.count := by
  unfold handleBlock
  split_ifs with near locked opened known
  · exact .inl rfl
  · exact .inr ⟨rfl, known⟩
  · exact absurd ⟨near, locked, opened, known⟩ h
  · exact .inl rfl
  · left
    have closed := Content.emmaResourceClose (P := P) u uri
    have free : u.locked = 0 := not_not.mp locked
    unfold refuseBlock
    split
    · exact closed.locked.trans free
    · exact free

theorem handlePut_untaken (so : s.Sound) (put : rq.method = .put) (filled : rq.payload ≠ [])
    (taken : ¬s.Taken P rq uri) (r : Reply) :
    (s.handlePut P rq uri r).1.locked = 0 ∨ (s.handlePut P rq uri r).1 = s := by
  have fresh : ¬(rq.method = .post ∧ s.store.emmaResourceExists uri ∧ s.locked = 0) := by simp [put]
  simp only [handlePut, if_neg fresh, if_neg filled]
  simp only [Taken, fresh, filled, not_false_eq_true, true_and, ne_eq] at taken
  by_cases first : rq.blockNum = 0
  · simp only [if_pos first]
    by_cases free : s.locked = 0
    · rw [if_neg (not_not.mpr free)]
      refine (handleBlock_untaken (s.startTransfer P uri)
        (fun h => taken ⟨fun _ => free, ?_⟩) (r.setBlock1 rq)).imp id fun same => ?_
      · simpa [atWrite, first] using h
      · obtain ⟨-, known⟩ := same
        rw [first, (startTransfer_cases (P := P) so free uri).1] at known
        exact absurd known (by decide)
    · rw [if_pos free]
      exact .inr rfl
  · simp only [if_neg first]
    refine (handleBlock_untaken s
      (fun h => taken ⟨fun e => absurd e first, ?_⟩) (r.setBlock1 rq)).imp id And.left
    simpa [atWrite, first] using h

end State

structure Transfer where
  uri : Text
  text : Text
  size : Nat
  last : Nat
  agent : emmaGetRoot uri = some .agent
  short : text.length < 65536
  full : last * size ≤ text.length
  whole : text.length ≤ (last + 1) * size

/-- The request carries block `j` of the transfer. -/
structure Transfer.Block (t : Transfer) (j : Nat) (rq : Request) : Prop where
  uri : rq.uri = some t.uri
  put : rq.method = .put
  num : rq.blockNum.toNat = j
  more : rq.more = decide (j < t.last)
  size : j ≠ 0 → rq.blockSize.toNat = t.size
  payload : rq.payload = (t.text.drop (j * t.size)).take t.size

inductive Delivery where
  | block (rq : Request)
  | environment (env : Env)

namespace Transfer
variable (P : Platform) (t : Transfer)

def deliver (s : State) : Delivery → Option State
  | .block rq => some (s.emmaServerHandler P rq).1
  | .environment env => some { s with env }

def Any (_ : State) : Delivery → Prop
  | .block rq => ∃ j ≤ t.last, t.Block j rq
  | .environment _ => True

/-- The agent holds the text: the bytes of its file up to the length of the text, its size,
and its scanner, which is as after one scan of the text from the start. -/
def Stored (s : State) : Prop :=
  ∃ slot, s.IsAgent t.uri slot ∧ (s.content t.uri).take t.text.length = t.text ∧
    (s.store.agents slot).size.toNat = t.text.length ∧
    (s.store.agents slot).fileIndex =
      ((s.store.agents slot).reset.scan P t.text 0).1.fileIndex ∧
    (s.store.agents slot).patternIndex =
      ((s.store.agents slot).reset.scan P t.text 0).1.patternIndex ∧
    (s.store.agents slot).parser = ((s.store.agents slot).reset.scan P t.text 0).1.parser

/-- No transfer is in progress, the last block has been seen, or the agent holds the blocks
up to the one that was counted. -/
structure Inv (s : State) : Prop where
  sound : s.Sound
  progress : s.locked = 0 ∨ s.count.toNat = t.last ∨ ∃ j < t.last, s.count.toNat = j ∧
    ∃ slot, s.Written P t.uri slot (t.text.take ((j + 1) * t.size))

variable {P t} {s : State} {rq : Request} {j : Nat}

theorem Block.join (b : t.Block j rq) : t.text.take (j * t.size) ++ rq.payload =
    t.text.take ((j + 1) * t.size) := by
  rw [b.payload, Nat.succ_mul, List.take_add]

theorem length_front (hj : j ≤ t.last) : (t.text.take (j * t.size)).length = j * t.size := by
  rw [List.length_take]
  exact Nat.min_eq_left (Nat.le_trans (Nat.mul_le_mul_right _ hj) t.full)

theorem Block.index (b : t.Block j rq) (hj : j ≤ t.last) :
    State.blockIndex P rq = P.int (t.text.take (j * t.size)).length := by
  have fits : j * t.size < 4294967296 := by
    have := Nat.le_trans (Nat.mul_le_mul_right t.size hj) t.full
    have := t.short
    omega
  rw [length_front hj, State.blockIndex]
  congr 1
  by_cases first : j = 0
  · have zero : rq.blockNum = 0 := UInt32.toNat_inj.mp (b.num.trans first)
    rw [zero, first]
    simp
  · rw [UInt32.toNat_mul, UInt16.toNat_toUInt32, b.num, b.size first, Nat.mod_eq_of_lt fits]

theorem Block.num_ne_zero (b : t.Block j rq) (hj : j ≠ 0) : rq.blockNum ≠ 0 := by
  intro e
  have num := b.num
  rw [e] at num
  exact hj num.symm

theorem taken_next (b : t.Block j rq) (taken : s.Taken P rq t.uri) (hj : j ≠ 0) :
    s.count.toNat + 1 = j := by
  obtain ⟨-, -, -, near, -, -, unknown⟩ := taken
  rw [State.atWrite, if_neg (b.num_ne_zero hj)] at near unknown
  have num : rq.blockNum.toUInt64.toNat = j := by rw [UInt32.toNat_toUInt64, b.num]
  have apart : rq.blockNum.toUInt64.toNat ≠ s.count.toNat := fun e =>
    unknown (UInt64.toNat_inj.mp e)
  have close : (rq.blockNum.toUInt64 - s.count).toNat ≤ 1 := by
    have := UInt64.not_lt.mp near
    exact UInt64.le_iff_toNat_le.mp this
  have bound := s.count.toNat_lt
  have small := rq.blockNum.toNat_lt
  rw [UInt64.toNat_sub] at close
  rw [b.num] at small
  omega

theorem Inv.front (inv : t.Inv P s) (b : t.Block j rq) (hj : j ≤ t.last)
    (taken : s.Taken P rq t.uri) : ∃ slot, (s.atWrite P rq t.uri).IsAgent t.uri slot ∧
      (t.text.take (j * t.size) ≠ [] →
        (s.atWrite P rq t.uri).Written P t.uri slot (t.text.take (j * t.size))) := by
  by_cases first : j = 0
  · have zero : rq.blockNum = 0 := UInt32.toNat_inj.mp (b.num.trans first)
    have free : s.locked = 0 := taken.2.2.1 zero
    have locked := taken.2.2.2.2.1
    rw [State.atWrite, if_pos zero] at locked ⊢
    obtain ⟨-, ⟨none', -⟩ | ⟨-, -, i, hi, -⟩⟩ :=
      State.startTransfer_cases (P := P) inv.sound free t.uri
    · exact absurd none' locked
    obtain ⟨f, so⟩ := (State.Sound.kept P).startTransfer t.uri inv.sound
    obtain ⟨root, -, live⟩ := so.shape.resolve_mem hi
    obtain ⟨slot, hdata, -⟩ := so.slot root i live
    have hi : (s.startTransfer P t.uri).store.tree.resolve t.uri = some i := hi
    refine ⟨slot, ⟨t.agent, by rw [Store.slotOf, hi]; exact hdata⟩, fun filled => ?_⟩
    simp [first] at filled
  · have next := taken_next b taken first
    obtain ⟨-, -, -, -, locked, -, -⟩ := taken
    rw [State.atWrite, if_neg (b.num_ne_zero first)] at locked ⊢
    rcases inv.progress with free | seen | ⟨k, -, count, slot, written⟩
    · exact absurd free locked
    · omega
    · have here : k + 1 = j := by omega
      subst here
      exact ⟨slot, written.agent, fun _ => written⟩

theorem Inv.write (cfs : P.Cfs) (inv : t.Inv P s) (b : t.Block j rq) (hj : j ≤ t.last)
    (taken : s.Taken P rq t.uri) (full : (s.atWrite P rq t.uri).full P rq t.uri) :
    ∃ slot, ((s.atWrite P rq t.uri).written P rq t.uri).Written P t.uri slot
      (t.text.take ((j + 1) * t.size)) := by
  obtain ⟨slot, agent, front⟩ := inv.front b hj taken
  have short : (t.text.take (j * t.size)).length + rq.payload.length < 65536 := by
    rw [← List.length_append, b.join, List.length_take]
    have := t.short
    omega
  have written := State.written_append cfs agent full taken.2.1 (b.index hj) front short
  rw [b.join] at written
  exact ⟨slot, written⟩

theorem Block.handler (b : t.Block j rq) (s : State) :
    s.emmaServerHandler P rq = s.handlePut P rq t.uri (.init rq) := by
  unfold State.emmaServerHandler
  simp only [b.uri, b.put]

theorem Inv.spared {s' : State} (inv : t.Inv P s) (spares : s.Spares s') (so : s'.Sound) :
    t.Inv P s' := by
  refine ⟨so, ?_⟩
  rw [spares.locked, spares.count]
  refine inv.progress.imp id (Or.imp id ?_)
  rintro ⟨j, hj, count, slot, written⟩
  exact ⟨j, hj, count, slot, written.same spares.store⟩

theorem Block.eq_last (b : t.Block j rq) (hj : j ≤ t.last) (positive : 0 < t.size)
    (empty : rq.payload = []) : j = t.last := by
  by_contra other
  have inside : (j + 1) * t.size ≤ t.text.length :=
    Nat.le_trans (Nat.mul_le_mul_right _ (by omega)) t.full
  have length := congrArg List.length (b.payload.symm.trans empty)
  rw [Nat.succ_mul] at inside
  rw [List.length_take, List.length_drop, List.length_nil] at length
  omega

theorem Inv.deliver (cfs : P.Cfs) (inv : t.Inv P s) (b : t.Block j rq) (hj : j ≤ t.last)
    (positive : 0 < t.size) : t.Inv P (s.emmaServerHandler P rq).1 := by
  have sound := (State.Sound.kept P).emmaServerHandler trivial rq inv.sound
  refine ⟨sound, ?_⟩
  rw [b.handler]
  have num : rq.blockNum.toUInt64.toNat = j := by rw [UInt32.toNat_toUInt64, b.num]
  by_cases empty : rq.payload = []
  · have fresh : ¬(rq.method = .post ∧ s.store.emmaResourceExists t.uri ∧ s.locked = 0) := by
      simp [b.put]
    right; left
    simp only [State.handlePut, if_neg fresh, if_pos empty, State.handleEmpty, State.finish]
    rw [num, b.eq_last hj positive empty]
  by_cases taken : s.Taken P rq t.uri
  · rw [State.handlePut_taken taken]
    by_cases full : (s.atWrite P rq t.uri).full P rq t.uri
    · obtain ⟨slot, written⟩ := inv.write cfs b hj taken full
      by_cases more : rq.more = true
      · have before : j < t.last := of_decide_eq_true (b.more.symm.trans more)
        simp only [State.takeBlock, State.writeBlock_eq, if_pos full, if_pos more, State.finish]
        exact .inr (.inr ⟨j, before, num, slot,
          (written.same (State.setClocktime_same _ _)).same ⟨.refl _, rfl, rfl, rfl⟩⟩)
      · simp only [State.takeBlock, State.writeBlock_eq, if_pos full, if_neg more, State.finish]
        exact .inl rfl
    · by_cases more : rq.more = true
      · simp only [State.takeBlock, State.writeBlock_eq, if_neg full, if_pos more, State.finish]
        exact .inl rfl
      · simp only [State.takeBlock, State.writeBlock_eq, if_neg full, if_neg more, State.finish]
        exact .inl rfl
  · rcases State.handlePut_untaken inv.sound b.put empty taken (.init rq) with free | same
    · exact .inl free
    · rw [same]
      exact inv.progress

theorem Stored.of_written {slot : Nat} (h : s.Written P t.uri slot t.text) : t.Stored P s := by
  have scanned := h.scanned
  refine ⟨slot, h.agent, h.bytes, ?_, ?_, ?_, ?_⟩
  · rw [h.size, UInt16.toNat_ofNat', Nat.mod_eq_of_lt t.short]
  all_goals
    rw [scanned]
    rfl

theorem Block.taken (b : t.Block j rq) (success : (s.emmaServerHandler P rq).2.success) :
    s.Taken P rq t.uri := by
  rw [b.handler] at success
  by_contra untaken
  exact State.handlePut_not_taken untaken success

theorem Inv.stored (cfs : P.Cfs) (inv : t.Inv P s) (b : t.Block t.last rq)
    (success : (s.emmaServerHandler P rq).2.success) :
    t.Stored P (s.emmaServerHandler P rq).1 := by
  have taken := b.taken success
  rw [b.handler, State.handlePut_taken taken] at success ⊢
  have full : (s.atWrite P rq t.uri).full P rq t.uri := by
    by_contra part
    have put : ¬(rq.method = .post ∧ ¬rq.more = true) := by simp [b.put]
    rw [Reply.success, State.takeBlock_status, if_neg put, if_neg part] at success
    simp at success
  have last : ¬rq.more = true := by simp [b.more]
  obtain ⟨slot, written⟩ := inv.write cfs b (Nat.le_refl _) taken full
  rw [List.take_of_length_le t.whole] at written
  simp only [State.takeBlock, State.writeBlock_eq, if_pos full, if_neg last, State.finish]
  have ended := written.same (State.endTransfer_same (P := P) t.agent _)
  exact .of_written (ended.same ⟨.refl _, rfl, rfl, rfl⟩)

/-- Whatever blocks of the transfer are lost, repeated or delivered out of order, and however late:
when the last one is answered with success, the agent holds the text. -/
theorem no_torn_agent {sys : System} (cfs : P.Cfs) (reachable : System.Reachable P sys)
    (idle : sys.shared.locked = 0) (run : Runs (Transfer.deliver P) t.Any sys.shared s)
    (last : t.Block t.last rq) (success : (s.emmaServerHandler P rq).2.success) :
    t.Stored P (s.emmaServerHandler P rq).1 := by
  have positive : 0 < t.size := by
    refine Nat.pos_of_ne_zero fun e => (last.taken success).2.1 ?_
    rw [last.payload, e, List.take_zero]
  have inv : t.Inv P s := by
    refine run.keeps (fun s e u any step inv => ?_) ⟨reachable.sound, .inl idle⟩
    cases e with
    | block rq =>
      obtain ⟨j, hj, b⟩ := any
      cases step
      exact inv.deliver cfs b hj positive
    | environment env =>
      cases step
      exact inv.spared ⟨.refl _, rfl, rfl⟩ inv.sound
  exact inv.stored cfs last success

def twoBlocks : Transfer where
  uri := chars ['A', '/', 'x']
  text := chars ['1', '2', '3', '4', '5']
  size := 4
  last := 1
  agent := by decide
  short := by decide
  full := by decide
  whole := by decide

def firstBlock : Request :=
  ⟨chars ['A', '/', 'x'], .put, some ⟨0, true, 4⟩, chars ['1', '2', '3', '4'], 64, 0, by decide⟩

def lastBlock : Request :=
  ⟨chars ['A', '/', 'x'], .put, some ⟨1, false, 4⟩, chars ['5'], 64, 0, by decide⟩

theorem firstBlock_block : twoBlocks.Block 0 firstBlock :=
  ⟨by decide, rfl, by decide, by decide, by decide, by decide⟩

theorem lastBlock_block : twoBlocks.Block 1 lastBlock :=
  ⟨by decide, rfl, by decide, by decide, by decide, by decide⟩

def lateEnv : Env := { Env.bare with now := 5 }

/-- The last block comes too early, the first one twice, then five seconds later the last one
again. -/
theorem no_torn_agent_two : twoBlocks.Stored .plain
    (({ [lastBlock, firstBlock, firstBlock].foldl (fun s rq => (s.emmaServerHandler .plain rq).1)
      (System.init .plain (fun _ => none) .bare).shared with env := lateEnv } :
      State).emmaServerHandler .plain lastBlock).1 := by
  have reachable : System.Reachable .plain (.init .plain (fun _ => none) .bare) := ⟨_, _, .refl⟩
  have early : twoBlocks.Any (System.init .plain (fun _ => none) .bare).shared (.block lastBlock) :=
    ⟨1, by decide, lastBlock_block⟩
  have first : ∀ s, twoBlocks.Any s (.block firstBlock) := fun _ => ⟨0, by decide, firstBlock_block⟩
  refine no_torn_agent Platform.plain_cfs reachable rfl ?_ lastBlock_block (by decide +kernel)
  exact (((Runs.refl.tail early rfl).tail (first _) rfl).tail (first _) rfl).tail
    (e := .environment lateEnv) trivial rfl

end Transfer
end EmmaNode

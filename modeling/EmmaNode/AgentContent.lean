import EmmaNode.StoreBalance

/-! What an agent's file holds. A write goes to the place in the file it is told and leaves
the bytes behind it, so a transfer covers the start of the file only; a read knows nothing of
the agent's size and goes on to the end of the file. -/

namespace EmmaNode

/-- The file system of the configuration: within a file a write goes where it is told. -/
def Platform.InPlace (P : Platform) : Prop :=
  ∀ (file : Option Text) (offset : Nat) (bytes : Text), offset ≤ (file.getD []).length →
    P.cfsWrite file offset bytes = storeBytes file offset bytes

theorem Platform.plain_inPlace : Platform.plain.InPlace := fun _ _ _ _ => rfl

def overlay (old : Text) (offset : Nat) (bytes : Text) : Text :=
  old.take offset ++ bytes ++ old.drop (offset + bytes.length)

theorem length_overlay {old : Text} {offset : Nat} (h : offset ≤ old.length) (bytes : Text) :
    offset + bytes.length ≤ (overlay old offset bytes).length := by
  rw [overlay, List.length_append, List.length_append, List.length_take, Nat.min_eq_left h]
  omega

theorem overlay_overlay {old : Text} {offset : Nat} (h : offset ≤ old.length) (a b : Text) :
    overlay (overlay old offset a) (offset + a.length) b = overlay old offset (a ++ b) := by
  have front : (old.take offset ++ a).length = offset + a.length := by
    rw [List.length_append, List.length_take, Nat.min_eq_left h]
  have kept : (overlay old offset a).take (offset + a.length) = old.take offset ++ a := by
    rw [overlay, ← front, List.take_left']
    rfl
  have behind : (overlay old offset a).drop (offset + a.length + b.length) =
      old.drop (offset + (a ++ b).length) := by
    rw [overlay, ← List.drop_drop, ← front, List.drop_left', List.drop_drop, front,
      List.length_append, Nat.add_assoc]
    rfl
  rw [overlay, kept, behind, overlay]
  simp

namespace State
variable {P : Platform} {s s' : State} {uri : Text} {i : Nat}

def content (s : State) (uri : Text) : Text :=
  match s.store.slotOf uri with
  | some slot => (s.store.files (s.store.agents slot).memoryIndex).getD []
  | none => []

def transfer (P : Platform) (uri : Text) : List Text → Nat → State → Option State
  | [], _, s => some s
  | block :: rest, offset, s =>
    let (s, n) := s.emmaResourceWrite P uri block offset
    if n = block.length then transfer P uri rest (offset + block.length) s else none

def readAll (P : Platform) (uri : Text) (b : Nat) : Nat → Nat → State → Option Text
  | 0, _, _ => none
  | fuel + 1, k, s =>
    let (s, result) := s.emmaResourceRead P uri b (k * b : Nat)
    if result.returned < b then some result.bytes
    else (readAll P uri b fuel (k + 1) s).map (result.bytes ++ ·)

/-- An agent that can be opened, with its data -/
structure IsAgent (s : State) (uri : Text) (slot : Nat) : Prop where
  root : emmaGetRoot uri = some .agent
  slot : s.store.slotOf uri = some slot

theorem IsAgent.resolve {slot : Nat} (a : s.IsAgent uri slot) :
    ∃ i, s.store.tree.resolve uri = some i ∧ s.store.tree.data i = some slot :=
  Option.bind_eq_some_iff.mp a.slot

theorem IsAgent.write {slot : Nat} (a : s.IsAgent uri slot) (block : Text) (blockIndex : Int) :
    s.emmaResourceWrite P uri block blockIndex =
      ({ s with store := (s.store.rootAgentWrite P slot block blockIndex).1 },
        (s.store.rootAgentWrite P slot block blockIndex).2) := by
  obtain ⟨i, hi, hdata⟩ := a.resolve
  simp [emmaResourceWrite, a.root, State.resolve, hi, hdata]

theorem emmaResourceWrite_agent {slot : Nat} (fs : P.InPlace) (a : s.IsAgent uri slot)
    (block : Text) {offset : Nat} (inside : offset ≤ (s.content uri).length)
    (complete : (s.emmaResourceWrite P uri block offset).2 = block.length) :
    (s.emmaResourceWrite P uri block offset).1.IsAgent uri slot ∧
      (s.emmaResourceWrite P uri block offset).1.content uri =
        overlay (s.content uri) offset block := by
  have index := (s.store.agents slot).analyzeBlock_memoryIndex (P := P) block offset
  have old : s.content uri =
      (s.store.files (s.store.agents slot).memoryIndex).getD [] := by
    rw [content, a.slot]
  rw [a.write] at complete ⊢
  obtain ⟨agents, files, same⟩ := Content.rootAgentWrite (P := P) s.store slot block offset
  have kept : ({ s with store := (s.store.rootAgentWrite P slot block offset).1 } : State).IsAgent
      uri slot := by
    refine ⟨a.root, ?_⟩
    rw [same]
    exact a.slot
  refine ⟨kept, ?_⟩
  rw [content, kept.slot]
  simp only [Store.rootAgentWrite] at complete ⊢
  rcases h : (s.store.agents slot).analyzeBlock P block offset with ⟨agent, _ | _⟩
  · rw [h] at index
    have wrote : P.cfsWrite (s.store.files agent.memoryIndex) offset block =
        .wrote block.length (overlay (s.content uri) offset block) := by
      rw [index, fs _ offset block (by rw [← old]; exact inside), storeBytes, ← old,
        if_pos ⟨by omega, by omega⟩, overlay]
      rfl
    simp only [wrote, Function.update_self]
    rfl
  · -- refused: only an empty block, and those are never refused
    have empty : block = [] := by
      simpa [h] using complete.symm
    subst empty
    have fine : ((s.store.agents slot).analyzeBlock P [] offset).2 = false := by
      simp [Agent.analyzeBlock, Agent.scan]
    rw [h] at fine
    cases fine

theorem transfer_content {slot : Nat} (fs : P.InPlace) (a : s.IsAgent uri slot)
    {blocks : List Text} {offset : Nat} (inside : offset ≤ (s.content uri).length)
    (complete : s.transfer P uri blocks offset = some s') :
    s'.IsAgent uri slot ∧ s'.content uri = overlay (s.content uri) offset blocks.flatten := by
  induction blocks generalizing s offset with
  | nil =>
    cases complete
    exact ⟨a, by simp [overlay]⟩
  | cons block rest ih =>
    simp only [transfer] at complete
    split at complete
    case isFalse => cases complete
    rename_i whole
    obtain ⟨a', written⟩ := emmaResourceWrite_agent fs a block inside whole
    have longer := length_overlay inside block
    obtain ⟨a'', rest'⟩ := ih a' (by rw [written]; exact longer) complete
    refine ⟨a'', ?_⟩
    rw [rest', written, overlay_overlay inside, List.flatten_cons]

theorem emmaResourceRead_agent {slot : Nat} (a : s.IsAgent uri slot) (b offset : Nat) :
    (s.emmaResourceRead P uri b offset).1 = s ∧
      (s.emmaResourceRead P uri b offset).2.bytes = ((s.content uri).drop offset).take b ∧
      (s.emmaResourceRead P uri b offset).2.returned =
        (((s.content uri).drop offset).take b).length := by
  obtain ⟨i, hi, hdata⟩ := a.resolve
  have there : (s.store.tree.emmaGetResource (emmaGetName uri) .agent).resource = some i := by
    rw [Tree.resolve, a.root] at hi
    exact hi
  have old : s.content uri =
      (s.store.files (s.store.agents slot).memoryIndex).getD [] := by
    rw [content, a.slot]
  simp only [emmaResourceRead, Store.emmaResourceRead, a.root, there, hdata, Option.getD_some,
    Store.rootAgentRead, old]
  cases s.store.files (s.store.agents slot).memoryIndex with
  | none => exact ⟨trivial, by simp [ReadResult.none]⟩
  | some file =>
    have ahead : ¬((offset : Int) < 0) := by omega
    simp [ahead]

theorem readAll_eq {slot b : Nat} (a : s.IsAgent uri slot) (hb : 0 < b) (fuel k : Nat) :
    s.readAll P uri b fuel k = if 0 < fuel ∧ (s.content uri).length < (k + fuel) * b
      then some ((s.content uri).drop (k * b)) else none := by
  induction fuel generalizing k with
  | zero => simp [readAll]
  | succ fuel ih =>
    obtain ⟨same, bytes, returned⟩ := emmaResourceRead_agent (P := P) a b (k * b)
    have size : (((s.content uri).drop (k * b)).take b).length =
        min b ((s.content uri).length - k * b) := by simp
    have next : (k + 1) * b = k * b + b := Nat.succ_mul k b
    have all : (k + (fuel + 1)) * b = k * b + b + fuel * b := by
      rw [Nat.add_comm fuel, ← Nat.add_assoc, Nat.add_mul, next]
    have later : (k + 1 + fuel) * b = k * b + b + fuel * b := by rw [Nat.add_mul, next]
    rw [readAll]
    simp only [same, bytes, returned, size, ih, all, later]
    by_cases short : (s.content uri).length - k * b < b
    · rw [if_pos (by omega), if_pos ⟨by omega, by omega⟩, List.take_of_length_le (by simp; omega)]
    · rw [if_neg (by omega)]
      cases fuel with
      | zero =>
        rw [if_neg (by omega), if_neg (by omega)]
        rfl
      | succ fuel =>
        by_cases enough : (s.content uri).length < k * b + b + (fuel + 1) * b
        · rw [if_pos ⟨by omega, enough⟩, if_pos ⟨by omega, enough⟩, Option.map_some, next,
            ← List.drop_drop, List.take_append_drop]
        · rw [if_neg fun h => enough h.2, if_neg fun h => enough h.2]
          rfl

theorem readAll_iff {slot b : Nat} (a : s.IsAgent uri slot) (hb : 0 < b) (text : Text) :
    (∃ fuel, s.readAll P uri b fuel 0 = some text) ↔ s.content uri = text := by
  simp only [readAll_eq a hb, Nat.zero_add, Nat.zero_mul, List.drop_zero]
  constructor
  · rintro ⟨fuel, run⟩
    split at run
    · exact Option.some.inj run
    · cases run
  · rintro rfl
    refine ⟨(s.content uri).length + 1, if_pos ⟨by omega, ?_⟩⟩
    exact Nat.lt_of_lt_of_le (Nat.lt_succ_self _) (Nat.le_mul_of_pos_right _ hb)

/-- After a transfer an agent reads as what was transferred if its file was not longer. -/
theorem readBack_iff {blocks : List Text} {b : Nat} (fs : P.InPlace) (h : s.store.Reached P)
    (agent : emmaGetRoot uri = some .agent) (there : s.store.emmaResourceExists uri = true)
    (complete : s.transfer P uri blocks 0 = some s') (hb : 0 < b) :
    (∃ fuel, s'.readAll P uri b fuel 0 = some blocks.flatten) ↔
      (s.content uri).length ≤ blocks.flatten.length := by
  obtain ⟨i, hi⟩ := Option.isSome_iff_exists.mp there
  obtain ⟨f, so⟩ := h.sound
  obtain ⟨root, -, live⟩ := so.shape.resolve_mem hi
  obtain ⟨slot, hdata, -⟩ := so.slot root i live
  have a : s.IsAgent uri slot := ⟨agent, by rw [Store.slotOf, hi]; exact hdata⟩
  obtain ⟨a', written⟩ := transfer_content fs a (Nat.zero_le _) complete
  rw [readAll_iff a' hb, written, overlay, List.take_zero, List.nil_append, Nat.zero_add]
  constructor
  · intro e
    have := congrArg List.length e
    rw [List.length_append, List.length_drop] at this
    omega
  · intro short
    rw [List.drop_eq_nil_of_le short, List.append_nil]

def after (ops : List StoreOp) : State :=
  { State.init .plain (fun _ => none) .bare with
    store := ops.foldl (Store.apply .plain) (Store.empty fun _ => none) }

theorem after_reached (ops : List StoreOp) : (after ops).store.Reached .plain := by
  have extend (ops : List StoreOp) (st : Store) (h : st.Reached .plain) :
      (ops.foldl (Store.apply .plain) st).Reached .plain := by
    induction ops generalizing st with
    | nil => exact h
    | cons op rest ih =>
      obtain ⟨files, run⟩ := h
      exact ih _ ⟨files, run.tail trivial rfl⟩
  exact extend ops _ ⟨_, .refl⟩

def newAgent : Text := chars ['A', '/', 'y']

def firstAgent : List StoreOp := [.add (some .agent) (chars ['y'])]

def secondAgent : List StoreOp :=
  [.add (some .agent) (chars ['x']), .writeAgent (chars ['A', '/', 'x']) (chars ['1', '2', '3']) 0,
    .del (chars ['A', '/', 'x']), .add (some .agent) (chars ['y'])]

theorem readBack_first : ∃ s', (after firstAgent).transfer .plain newAgent [chars ['4'], chars ['5']] 0 =
    some s' ∧ ∃ fuel, s'.readAll .plain newAgent 1 fuel 0 = some (chars ['4', '5']) := by
  have complete : ((after firstAgent).transfer .plain newAgent [chars ['4'], chars ['5']] 0).isSome :=
    by decide +kernel
  obtain ⟨s', hs⟩ := Option.isSome_iff_exists.mp complete
  refine ⟨s', hs, ?_⟩
  exact (readBack_iff Platform.plain_inPlace (after_reached firstAgent) (by decide)
    (by decide +kernel) hs (by decide)).mpr (by decide +kernel)

/-- The content of the deleted agent shows behind that of the new one. -/
theorem readBack_second : ¬ ∀ (P : Platform) (s s' : State) (uri : Text) (blocks : List Text) (b : Nat),
    P.InPlace → s.store.Reached P → emmaGetRoot uri = some .agent →
    s.store.emmaResourceExists uri = true → s.transfer P uri blocks 0 = some s' → 0 < b →
    ∃ fuel, s'.readAll P uri b fuel 0 = some blocks.flatten := by
  intro h
  have complete : ((after secondAgent).transfer .plain newAgent [chars ['4']] 0).isSome := by
    decide +kernel
  obtain ⟨s', hs⟩ := Option.isSome_iff_exists.mp complete
  have read := h .plain _ s' newAgent _ 1 Platform.plain_inPlace (after_reached secondAgent)
    (by decide) (by decide +kernel) hs (by decide)
  have a : (after secondAgent).IsAgent newAgent 0 := ⟨by decide, by decide +kernel⟩
  obtain ⟨a', written⟩ := transfer_content Platform.plain_inPlace a (Nat.zero_le _) hs
  have old : (after secondAgent).content newAgent = chars ['1', '2', '3'] := by decide +kernel
  have same := (readAll_iff a' (by decide) _).mp read
  rw [written, old] at same
  exact absurd same (by decide)

end State
end EmmaNode

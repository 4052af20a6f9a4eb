import EmmaNode.Tokens

/-! The window of the calculator. A block is read through fifteen bytes, window by window;
what follows the last operator of a window moves to the front of the next one. This is
reading the text, as long as no window is taken for an operand too early and the last
operand is still where the end of the evaluation looks for it. -/

namespace EmmaNode

/-! ### Windows of a text -/

def cleaned (block : Text) : Text :=
  (block.filter (· ≠ ' '.toUInt8)).map fun c => if c = 0 then '0'.toUInt8 else c

def fill : Text → Text → Text × Text
  | w, [] => (w, [])
  | w, c :: rest =>
    if w.length < evalBufferSize then
      if c = 0 then fill (w ++ ['0'.toUInt8]) rest
      else if c = ' '.toUInt8 then fill w rest
      else fill (w ++ [c]) rest
    else (w, c :: rest)

theorem cleaned_append (a b : Text) : cleaned (a ++ b) = cleaned a ++ cleaned b := by
  simp [cleaned]

theorem cleaned_nonzero {c : UInt8} {block : Text} (h : c ∈ cleaned block) : c ≠ 0 := by
  obtain ⟨b, -, rfl⟩ := List.mem_map.mp h
  split
  · decide
  · assumption

theorem cleaned_cons (c : UInt8) (rest : Text) : cleaned (c :: rest) =
    if c = 0 then '0'.toUInt8 :: cleaned rest
    else if c = ' '.toUInt8 then cleaned rest else c :: cleaned rest := by
  by_cases zero : c = 0
  · subst zero
    rfl
  by_cases blank : c = ' '.toUInt8
  · subst blank
    rfl
  · simp [cleaned, zero, blank]

theorem fill_spec (w block : Text) (short : w.length ≤ evalBufferSize) :
    (fill w block).1 ++ cleaned (fill w block).2 = w ++ cleaned block ∧
      (fill w block).1.length ≤ evalBufferSize ∧
      ((fill w block).2 ≠ [] → (fill w block).1.length = evalBufferSize) ∧
      (fill w block).2.length ≤ block.length ∧
      (w.length < evalBufferSize → block ≠ [] → (fill w block).2.length < block.length) ∧
      ∃ more, (fill w block).1 = w ++ more ∧ ∀ c ∈ more, c ≠ 0 := by
  induction block generalizing w with
  | nil => exact ⟨rfl, short, fun h => absurd rfl h, Nat.le_refl _, fun _ h => absurd rfl h,
      [], by simp [fill], by simp⟩
  | cons c rest ih =>
    rw [fill, cleaned_cons]
    by_cases room : w.length < evalBufferSize
    case neg =>
      rw [if_neg room]
      exact ⟨by rw [cleaned_cons], short, fun _ => Nat.le_antisymm short (Nat.le_of_not_lt room),
        Nat.le_refl _, fun h => absurd h room,
        [], by simp, by simp⟩
    rw [if_pos room]
    have one (b : UInt8) (hb : b ≠ 0) :
        (fill (w ++ [b]) rest).1 ++ cleaned (fill (w ++ [b]) rest).2 = w ++ b :: cleaned rest ∧
          (fill (w ++ [b]) rest).1.length ≤ evalBufferSize ∧
          ((fill (w ++ [b]) rest).2 ≠ [] → (fill (w ++ [b]) rest).1.length = evalBufferSize) ∧
          (fill (w ++ [b]) rest).2.length ≤ (c :: rest).length ∧
          (w.length < evalBufferSize → c :: rest ≠ [] →
            (fill (w ++ [b]) rest).2.length < (c :: rest).length) ∧
          ∃ more, (fill (w ++ [b]) rest).1 = w ++ more ∧ ∀ c ∈ more, c ≠ 0 := by
      obtain ⟨whole, small, full, less, -, more, added, nonzero⟩ :=
        ih (w ++ [b]) (by rw [List.length_append]; exact room)
      refine ⟨by rw [whole]; simp, small, full, Nat.le_succ_of_le less,
        fun _ _ => Nat.lt_succ_of_le less, b :: more, by rw [added]; simp, ?_⟩
      simpa using ⟨hb, nonzero⟩
    by_cases zero : c = 0
    · rw [if_pos zero, if_pos zero]
      exact one _ (by decide)
    by_cases blank : c = ' '.toUInt8
    · rw [if_neg zero, if_pos blank, if_neg zero, if_pos blank]
      obtain ⟨whole, small, full, less, -, more, added, nonzero⟩ := ih w short
      exact ⟨whole, small, full, Nat.le_succ_of_le less, fun _ _ => Nat.lt_succ_of_le less, more,
        added, nonzero⟩
    · rw [if_neg zero, if_neg blank, if_neg zero, if_neg blank]
      exact one c zero

/-- Where a block leaves the calculator: what waits, and how much of the last window is in
front of it. None when a window without operator is taken for an operand that is not over;
`after` is what follows the block. -/
def track (after : Text) : Nat → Text × Nat → Text → Option (Text × Nat)
  | 0, v, _ => some v
  | _ + 1, v, [] => some v
  | n + 1, (p, _), block =>
    let (w, rest) := fill p block
    if firstOperator w = none ∧ evalBufferSize - 1 ≤ w.length then
      if w.length = evalBufferSize - 1 ∧ Complete w (cleaned (rest ++ after)) then
        track after n ([], w.length) rest
      else none
    else track after n (left w, w.length - (left w).length) rest

def trackAll : Text × Nat → List Text → Option (Text × Nat)
  | v, [] => some v
  | v, block :: later =>
    if block.length < 256 then
      (track later.flatten (block.length + 1) v block).bind fun v => trackAll v later
    else none

/-- A text cut into blocks is read as it stands: no operand is taken before it is over, and
the last one is where it is looked for. -/
def Legible (blocks : List Text) : Prop :=
  ∃ v, trackAll ([], 0) blocks = some v ∧ (v.2 = 0 ∨ v.1.length ≤ v.2)

section
variable {σ : Type} (P : Platform) (solve : Text → σ → σ × Option Int)

/-- How far an evaluation by windows has read its text: up to `p`, with `k` bytes in front of
it in the last window; or to an error; or to a window whose bytes it mistakes. -/
inductive Progress (σ : Type) where
  | read (a : Accum σ) (p : Text) (k : Nat)
  | failed
  | damaged

def Progress.Whole : Progress σ → Prop
  | .read _ p k => k = 0 ∨ p.length ≤ k
  | .failed => True
  | .damaged => False

namespace Accum

def windows (after : Text) : Nat → Accum σ → Text × Nat → Text → Progress σ
  | 0, a, (p, k), _ => .read a p k
  | _ + 1, a, (p, k), [] => .read a p k
  | n + 1, a, (p, _), block =>
    let (w, rest) := fill p block
    if firstOperator w = none ∧ evalBufferSize - 1 ≤ w.length then
      if w.length = evalBufferSize - 1 ∧ Complete w (cleaned (rest ++ after)) then
        match a.addOperand P solve w with
        | (a, .ready) => windows after n a ([], w.length) rest
        | _ => .failed
      else .damaged
    else match a.read P solve w with
      | some (a, p) => windows after n a (p, w.length - p.length) rest
      | none => .failed

def windowsAll : Accum σ → Text × Nat → List Text → Progress σ
  | a, (p, k), [] => .read a p k
  | a, v, block :: later =>
    if block.length < 256 then
      match a.windows P solve later.flatten (block.length + 1) v block with
      | .read a p k => windowsAll a (p, k) later
      | other => other
    else .damaged

/-- Up to its first error a text cut into blocks is read as it stands. -/
def Intact (a : Accum σ) (blocks : List Text) : Prop := (a.windowsAll P solve ([], 0) blocks).Whole

variable {P : Platform} {solve : Text → σ → σ × Option Int}

theorem windows_track {after : Text} {n : Nat} {a : Accum σ} {v v' : Text × Nat} {block : Text}
    (h : track after n v block = some v') :
    a.windows P solve after n v block = .failed ∨
      ∃ a', a.windows P solve after n v block = .read a' v'.1 v'.2 := by
  induction n generalizing a v block with
  | zero =>
    cases h
    exact .inr ⟨a, rfl⟩
  | succ n ih =>
    obtain ⟨p, k⟩ := v
    cases block with
    | nil =>
      cases h
      exact .inr ⟨a, rfl⟩
    | cons c block =>
      simp only [track, windows] at h ⊢
      generalize fill p (c :: block) = filled at *
      obtain ⟨w, rest⟩ := filled
      simp only at h ⊢
      by_cases stuck : firstOperator w = none ∧ evalBufferSize - 1 ≤ w.length
      · rw [if_pos stuck] at h ⊢
        split at h
        case isFalse => cases h
        rename_i over'
        rw [if_pos over']
        generalize a.addOperand P solve w = added
        obtain ⟨a, status⟩ := added
        cases status
        case ready => exact ih h
        all_goals exact .inl rfl
      · rw [if_neg stuck] at h ⊢
        cases read : a.read P solve w with
        | none => exact .inl rfl
        | some found =>
          obtain ⟨a', p⟩ := found
          rw [← (read_left read).1] at h
          exact ih h

theorem windowsAll_track {a : Accum σ} {v v' : Text × Nat} {blocks : List Text}
    (h : trackAll v blocks = some v') :
    a.windowsAll P solve v blocks = .failed ∨
      ∃ a', a.windowsAll P solve v blocks = .read a' v'.1 v'.2 := by
  induction blocks generalizing a v with
  | nil =>
    cases h
    exact .inr ⟨a, rfl⟩
  | cons block later ih =>
    rw [trackAll] at h
    rw [windowsAll]
    split at h
    case isFalse => cases h
    rename_i short
    rw [if_pos short]
    obtain ⟨v₁, first, others⟩ := Option.bind_eq_some_iff.mp h
    rcases @windows_track σ P solve _ _ a _ _ _ first with failed | ⟨a₁, read⟩
    · rw [failed]
      exact .inl rfl
    · rw [read]
      exact ih others

theorem intact_legible (a : Accum σ) {blocks : List Text} (h : Legible blocks) :
    a.Intact P solve blocks := by
  obtain ⟨v, tracked, far⟩ := h
  unfold Intact
  rcases @windowsAll_track σ P solve a _ _ _ tracked with failed | ⟨a', read⟩
  · rw [failed]
    trivial
  · rw [read]
    exact far

end Accum
end

/-! ### One window -/

section
variable {P : Platform} {σ : Type} {solve : Text → σ → σ × Option Int}

theorem Calculator.evalAddOperand_put (m : Calculator σ) (p : Text) :
    m.evalAddOperand P solve p =
      (m.put (m.accum.addOperand P solve p).1, (m.accum.addOperand P solve p).2) := by
  unfold Accum.addOperand evalAddOperand
  simp only [Accum.calculator, accum]
  by_cases room : m.stack.operands.length < evalMaxOperands
  all_goals
    simp only [room, if_true, if_false]
    cases p with
    | nil => rfl
    | cons c rest =>
      simp only
      split_ifs
      · rfl
      · rcases solve (c :: rest) m.env with ⟨env, _ | v⟩ <;> rfl
      · rfl

theorem Calculator.evalAddOperator_put (m : Calculator σ) (op : Option Operator) :
    evalAddOperator P m.stack op =
      ((m.put (m.accum.addOperator P op).1).stack, (m.accum.addOperator P op).2) := by
  obtain ⟨own, other⟩ := evalAddOperator_congr P (s := m.accum.calculator.stack) (t := m.stack)
    rfl rfl op
  rw [other]
  rfl

structure Calculator.Shows (m : Calculator σ) (w : Text) : Prop where
  bytes : ∀ i < w.length, w[i]? = some (m.stack.buffer i)
  short : w.length ≤ evalBufferSize
  stop : w.length < evalBufferSize → m.stack.buffer w.length = 0
  nonzero : ∀ c ∈ w, c ≠ 0

namespace Calculator

theorem Shows.byte {m : Calculator σ} {w : Text} (h : m.Shows w) {i : Nat} (hi : i < w.length) :
    w.drop i = m.stack.buffer i :: w.drop (i + 1) := by
  have := h.bytes i hi
  rw [List.getElem?_eq_getElem hi] at this
  rw [List.drop_eq_getElem_cons hi, Option.some.inj this]

theorem Shows.slice {m : Calculator σ} {w : Text} (h : m.Shows w) {start size : Nat}
    (inside : start + size ≤ w.length) :
    m.stack.slice start size = (w.drop start).take size := by
  refine List.ext_getElem? fun i => ?_
  rw [List.getElem?_take]
  by_cases hi : i < size
  · have within : start + i < evalBufferSize := by have := h.short; omega
    rw [if_pos hi, List.getElem?_drop, h.bytes (start + i) (by omega), Stack.slice,
      List.getElem?_map, List.getElem?_range hi, Option.map_some, Stack.byte, if_pos within]
  · rw [if_neg hi, List.getElem?_eq_none]
    simp [Stack.slice]
    omega

theorem Shows.operatorHere {m : Calculator σ} {w : Text} (h : m.Shows w)
    (inside : m.stack.bufferIndex < w.length) :
    m.stack.operatorHere = symbolAt (w.drop m.stack.bufferIndex) := by
  unfold Stack.operatorHere symbolAt
  congr 1
  funext op
  generalize hi : m.stack.bufferIndex = i at inside
  by_cases fits : i + op.symbol.length ≤ w.length
  · rw [h.slice fits]
  · -- the byte behind the text is no byte of a symbol
    have pos := op.length_symbol_pos
    have two := op.length_symbol_le
    have last : i + 1 = w.length := by omega
    have other : (w.drop i).take op.symbol.length ≠ op.symbol := by
      intro e
      have := congrArg List.length e
      simp only [List.length_take, List.length_drop] at this
      omega
    have behind : m.stack.slice i op.symbol.length ≠ op.symbol := by
      intro e
      have large := op.symbol_large (m.stack.byte (i + 1)) (by
        rw [← e, Stack.slice]
        exact List.mem_map.mpr ⟨1, List.mem_range.mpr (by omega), rfl⟩)
      unfold Stack.byte at large
      split at large
      · rename_i room
        rw [last] at large room
        rw [h.stop room] at large
        exact absurd large (by decide)
      · rw [hi] at large
        have := h.short
        have small := Nat.mod_le i (2 ^ 8)
        simp only [Nat.toUInt8, UInt8.toNat_ofNat'] at large
        omega
    simp [other, behind]

theorem Shows.congr {m m' : Calculator σ} {w : Text} (h : m.Shows w)
    (buffer : m'.stack.buffer = m.stack.buffer) : m'.Shows w :=
  ⟨by rw [buffer]; exact h.bytes, h.short, by rw [buffer]; exact h.stop, h.nonzero⟩

def reached (m : Calculator σ) (a : Accum σ) (w p : Text) : Calculator σ :=
  { (m.put a) with
    stack := { (m.put a).stack with bufferIndex := w.length }
    operandIndex := w.length - p.length }

theorem Shows.ended {m : Calculator σ} {w : Text} (h : m.Shows w) {p₀ : Text}
    (clear : firstOperator (w.drop m.operandIndex) =
      (firstOperator (w.drop m.stack.bufferIndex)).map fun (p, op, rest) => (p₀ ++ p, op, rest))
    (order : m.operandIndex ≤ m.stack.bufferIndex) (stop : m.stack.bufferIndex = w.length) (n : Nat) :
    m.scanWindow P solve n = (m, .ready) ∧
      m.accum.read P solve (w.drop m.operandIndex) = some (m.accum, w.drop m.operandIndex) ∧
      m.reached m.accum w (w.drop m.operandIndex) = m ∧
      w.drop m.operandIndex = w.drop (w.length - (w.drop m.operandIndex).length) := by
  have nothing : firstOperator (w.drop m.operandIndex) = none := by
    rw [clear, stop, List.drop_length]
    rfl
  have size : w.length - (w.drop m.operandIndex).length = m.operandIndex := by
    rw [List.length_drop]
    omega
  refine ⟨?_, Accum.read_none nothing, ?_, by rw [size]⟩
  · cases n with
    | zero => rfl
    | succ n =>
      have past : ¬(m.stack.bufferIndex < evalBufferSize ∧
          m.stack.buffer m.stack.bufferIndex ≠ 0) := by
        rintro ⟨room, byte⟩
        rw [stop] at room byte
        exact byte (h.stop room)
      rw [scanWindow]
      simp only [if_neg past]
  · unfold reached
    rw [size, ← stop]
    rfl

theorem scanStep_token (P : Platform) (solve : Text → σ → σ × Option Int) (m : Calculator σ)
    (op : Operator) {p₀ : Text} (here : m.stack.operatorHere = some op)
    (operand : m.stack.slice m.operandIndex (m.stack.bufferIndex - m.operandIndex) = p₀) :
    match m.accum.token P solve p₀ op with
    | some a => m.scanStep P solve = ({ m.put a with
        stack := { (m.put a).stack with bufferIndex := m.stack.bufferIndex + op.symbol.length }
        operandIndex := m.stack.bufferIndex + op.symbol.length }, .ready)
    | none => (m.scanStep P solve).2 ≠ .ready := by
  rw [scanStep, here, Accum.token]
  simp only [operand, evalAddOperand_put]
  generalize m.accum.addOperand P solve p₀ = added
  obtain ⟨a, status⟩ := added
  cases status
  case ready | emptyOperand =>
    have env : (a.addOperator P (some op)).1.env = a.env := rfl
    simp only [addScanned]
    rw [evalAddOperator_put, put_accum]
    generalize a.addOperator P (some op) = pushed at env
    obtain ⟨a', status⟩ := pushed
    cases status
    case ready =>
      cases a'
      cases env
      rfl
    all_goals
      intro e
      cases e
  all_goals
    intro e
    cases e

theorem scanWindow_read {w : Text} (n : Nat) (m : Calculator σ) (h : m.Shows w) (p₀ : Text)
    (front : w.drop m.operandIndex = p₀ ++ w.drop m.stack.bufferIndex)
    (order : m.operandIndex ≤ m.stack.bufferIndex) (inside : m.stack.bufferIndex ≤ w.length)
    (clear : firstOperator (w.drop m.operandIndex) =
      (firstOperator (w.drop m.stack.bufferIndex)).map fun (p, op, rest) => (p₀ ++ p, op, rest))
    (enough : w.length ≤ m.stack.bufferIndex + n) :
    match m.accum.read P solve (w.drop m.operandIndex) with
    | some (a, p) => m.scanWindow P solve n = (m.reached a w p, .ready) ∧
        p = w.drop (w.length - p.length)
    | none => (m.scanWindow P solve n).2 ≠ .ready := by
  induction n generalizing m p₀ with
  | zero =>
    obtain ⟨run, read, same, front⟩ := @Shows.ended P σ solve m w h p₀ clear order (by omega) 0
    rw [read, run]
    exact ⟨by rw [same], front⟩
  | succ n ih =>
    by_cases stop : m.stack.bufferIndex = w.length
    · obtain ⟨run, read, same, front⟩ := @Shows.ended P σ solve m w h p₀ clear order stop (n + 1)
      rw [read, run]
      exact ⟨by rw [same], front⟩
    have more : m.stack.bufferIndex < w.length := by omega
    have short := h.short
    have here := h.byte more
    have going : m.stack.bufferIndex < evalBufferSize ∧ m.stack.buffer m.stack.bufferIndex ≠ 0 := by
      refine ⟨by omega, h.nonzero _ ?_⟩
      have : m.stack.buffer m.stack.bufferIndex ∈ w.drop m.stack.bufferIndex := by
        rw [here]
        exact List.mem_cons_self
      exact List.mem_of_mem_drop this
    have scanning : Scanning m.stack := going
    rw [scanWindow_succ, if_pos scanning]
    cases hs : symbolAt (w.drop m.stack.bufferIndex) with
    | none =>
      -- a byte of an operand
      have step : m.scanStep P solve =
          ({ m with stack := { m.stack with bufferIndex := m.stack.bufferIndex + 1 } }, .ready) := by
        rw [scanStep, h.operatorHere more, hs]
      rw [step]
      rw [here] at hs
      refine ih { m with stack := { m.stack with bufferIndex := m.stack.bufferIndex + 1 } }
        (h.congr rfl) (p₀ ++ [m.stack.buffer m.stack.bufferIndex]) ?_ ?_ more ?_ ?_
      · simp only [front, here, List.append_assoc, List.singleton_append]
      · exact Nat.le_succ_of_le order
      · simp only [clear, here, firstOperator, hs, Option.map_map]
        congr 1
        funext found
        rcases found with ⟨p, op, rest⟩
        simp
      · simp only
        omega
    | some op =>
      have first : firstOperator (w.drop m.operandIndex) =
          some (p₀, op, w.drop (m.stack.bufferIndex + op.symbol.length)) := by
        have found : firstOperator (w.drop m.stack.bufferIndex) =
            some ([], op, (w.drop m.stack.bufferIndex).drop op.symbol.length) := by
          rw [here] at hs ⊢
          rw [firstOperator, hs]
        rw [clear, found, List.drop_drop]
        simp
      have spelled := congrArg List.length (symbolAt_spelled hs)
      rw [List.length_append, List.length_drop, List.length_drop, List.length_drop] at spelled
      have positive := op.length_symbol_pos
      have size : p₀.length = m.stack.bufferIndex - m.operandIndex := by
        have := congrArg List.length front
        rw [List.length_append, List.length_drop, List.length_drop] at this
        omega
      have operand : m.stack.slice m.operandIndex (m.stack.bufferIndex - m.operandIndex) = p₀ := by
        rw [h.slice (by omega), front, ← size, List.take_left']
        rfl
      have token := scanStep_token P solve m op (by rw [h.operatorHere more, hs]) operand
      rw [Accum.read_some first]
      generalize m.accum.token P solve p₀ op = next at token ⊢
      cases next with
      | none =>
        simp only at token
        revert token
        rcases m.scanStep P solve with ⟨m', status⟩
        intro token
        cases status
        case ready => exact absurd rfl token
        all_goals exact token
      | some a =>
        simp only at token
        rw [token]
        have inside' : m.stack.bufferIndex + op.symbol.length ≤ w.length := by omega
        have enough' : w.length ≤ m.stack.bufferIndex + op.symbol.length + n := by omega
        let m' : Calculator σ := { m.put a with
          stack := { (m.put a).stack with bufferIndex := m.stack.bufferIndex + op.symbol.length }
          operandIndex := m.stack.bufferIndex + op.symbol.length }
        exact ih m' (h.congr rfl) [] rfl (Nat.le_refl _) inside' (by simp [m']) enough'

/-! ### From window to window -/

/-- Between two blocks: `p` waits at the front of the window. Where the last window had it, it
still is if there was as much in front of it, or nothing. -/
structure Pending (m : Calculator σ) (p : Text) : Prop where
  size : m.stack.bufferIndex = m.operandIndex + p.length
  inside : m.stack.bufferIndex ≤ evalBufferSize
  short : p.length < evalBufferSize
  bytes : ∀ i < p.length, p[i]? = some (m.stack.buffer i)
  last : m.operandIndex = 0 ∨ p.length ≤ m.operandIndex →
    ∀ i < p.length, p[i]? = some (m.stack.buffer (m.operandIndex + i))
  nonzero : ∀ c ∈ p, c ≠ 0
  bare : firstOperator p = none

theorem bytes_append {w : Text} {buffer : Nat → UInt8}
    (bytes : ∀ i < w.length, w[i]? = some (buffer i)) (c : UInt8) :
    ∀ i < (w ++ [c]).length, (w ++ [c])[i]? = some (Function.update buffer w.length c i) := by
  intro i hi
  rw [List.length_append, List.length_singleton] at hi
  by_cases e : i = w.length
  · subst e
    simp
  · rw [List.getElem?_append_left (by omega), bytes i (by omega), Function.update_of_ne e]

theorem copyBlock_fill (block w : Text) (buffer : Nat → UInt8)
    (bytes : ∀ i < w.length, w[i]? = some (buffer i)) :
    ∃ buffer', copyBlock block w.length buffer = ((fill w block).2, (fill w block).1.length, buffer') ∧
      ∀ i < (fill w block).1.length, (fill w block).1[i]? = some (buffer' i) := by
  induction block generalizing w buffer with
  | nil => exact ⟨buffer, rfl, bytes⟩
  | cons c rest ih =>
    have next (b : UInt8) := ih (w ++ [b]) _ (bytes_append bytes b)
    simp only [List.length_append, List.length_singleton] at next
    rw [copyBlock, fill]
    split_ifs
    · exact next _
    · exact ih w buffer bytes
    · exact next _
    · exact ⟨buffer, rfl, bytes⟩

theorem fillWindow_shows {m : Calculator σ} {p : Text} (h : m.Pending p) (block : Text) :
    (m.fillWindow block).2 = (fill p block).2 ∧ (m.fillWindow block).1.Shows (fill p block).1 ∧
      (m.fillWindow block).1.accum = m.accum ∧ (m.fillWindow block).1.operandIndex = 0 ∧
      (m.fillWindow block).1.stack.bufferIndex = 0 := by
  have index : (m.stack.bufferIndex + 256 - m.operandIndex) % 256 = p.length := by
    have := h.size
    have := h.short
    simp only [evalBufferSize] at this
    omega
  obtain ⟨buffer', run, bytes⟩ := copyBlock_fill block p m.stack.buffer h.bytes
  obtain ⟨-, small, full, -, -, more, added, nonzero⟩ := fill_spec p block (Nat.le_of_lt h.short)
  unfold fillWindow
  simp only [index, run]
  refine ⟨trivial, ⟨fun i hi => ?_, small, fun room => ?_, ?_⟩, rfl, trivial, trivial⟩
  · rw [bytes i hi]
    simp only
    split
    · rw [Function.update_of_ne (Nat.ne_of_lt hi)]
    · rfl
  · have past : (fill p block).2 = [] := by
      by_contra rest
      have := full rest
      omega
    simp only
    rw [if_pos ⟨past, room⟩, Function.update_self]
  · intro c hc
    rw [added, List.mem_append] at hc
    rcases hc with hc | hc
    · exact h.nonzero c hc
    · exact nonzero c hc

theorem moveTrailing_pending {m m' : Calculator σ} {w p : Text} (h : m.Shows w)
    (a : Accum σ) (suffix : p = w.drop (w.length - p.length)) (less : p.length < evalBufferSize)
    (bare : firstOperator p = none)
    (moved : m' = { m.reached a w p with
      stack := (m.reached a w p).stack.moveTrailing (w.length - p.length) }) :
    m'.Pending p ∧ m'.accum = a ∧ m'.operandIndex = w.length - p.length := by
  have front (j : Nat) : m'.stack.buffer j =
      if j + (w.length - p.length) < w.length then m.stack.buffer (j + (w.length - p.length))
      else m.stack.buffer j := by
    subst moved
    rfl
  have index : m'.operandIndex = w.length - p.length := by
    subst moved
    rfl
  have fits : p.length ≤ w.length := by
    have := congrArg List.length suffix
    rw [List.length_drop] at this
    omega
  have byte (i : Nat) (hi : i < p.length) :
      p[i]? = some (m.stack.buffer (w.length - p.length + i)) := by
    rw [← h.bytes _ (by omega)]
    conv_lhs => rw [suffix]
    rw [List.getElem?_drop]
  refine ⟨⟨?_, ?_, less, fun i hi => ?_, fun far i hi => ?_, fun c hc => ?_, bare⟩, ?_, index⟩
  · rw [index]
    subst moved
    change w.length = w.length - p.length + p.length
    omega
  · subst moved
    exact h.short
  · rw [byte i hi, front, if_pos (by omega), Nat.add_comm]
  · rw [index] at far ⊢
    rw [byte i hi, front]
    rcases far with none' | far
    · rw [none', Nat.add_zero, if_pos (by omega)]
    · rw [if_neg (by omega)]
  · rw [suffix] at hc
    exact h.nonzero c (List.mem_of_mem_drop hc)
  · subst moved
    rfl

theorem fullWindow_other {m : Calculator σ}
    (other : ¬(m.operandIndex = 0 ∧ evalBufferSize - 1 ≤ m.stack.bufferIndex)) :
    m.fullWindow P solve = (m, .ready) := if_neg other

theorem Shows.fullWindow {m : Calculator σ} {w : Text} (h : m.Shows w) (a : Accum σ)
    (size : w.length = evalBufferSize - 1) :
    (m.reached a w w).fullWindow P solve =
      match a.addOperand P solve w with
      | (b, .ready) => ({ (m.reached a w w).put b with operandIndex := w.length }, .ready)
      | (b, _) => ((m.reached a w w).put b).fail .bufferOvf := by
  have full : (m.reached a w w).operandIndex = 0 ∧
      evalBufferSize - 1 ≤ (m.reached a w w).stack.bufferIndex :=
    ⟨Nat.sub_self _, Nat.le_of_eq size.symm⟩
  have shown : (m.reached a w w).Shows w := h.congr rfl
  have operand : (m.reached a w w).stack.slice 0 (evalBufferSize - 1) = w := by
    rw [shown.slice (by omega), ← size, List.drop_zero, List.take_length]
  have waiting : (m.reached a w w).accum = a := rfl
  simp only [Calculator.fullWindow, if_pos full, operand, evalAddOperand_put, waiting]
  generalize a.addOperand P solve w = added
  obtain ⟨b, status⟩ := added
  cases status <;> rfl

theorem reached_open (m : Calculator σ) (a : Accum σ) {w p : Text} (small : w.length ≤ evalBufferSize)
    (suffix : p = w.drop (w.length - p.length)) (bare : firstOperator p = none)
    (open' : ¬(firstOperator w = none ∧ evalBufferSize - 1 ≤ w.length)) :
    p.length < evalBufferSize ∧ (m.reached a w p).fullWindow P solve = (m.reached a w p, .ready) := by
  have fits : p.length ≤ w.length := by
    have := congrArg List.length suffix
    rw [List.length_drop] at this
    omega
  have all (zero : w.length - p.length = 0) : p = w := by
    rw [suffix, zero, List.drop_zero]
  constructor
  · by_contra large
    have same := all (by omega)
    exact open' ⟨same ▸ bare, by omega⟩
  · refine fullWindow_other ?_
    rintro ⟨zero, full⟩
    exact open' ⟨all zero ▸ bare, full⟩

theorem evaluateTurns_windows (after : Text) (n : Nat) (m : Calculator σ) {p : Text} {k : Nat}
    (block : Text) (h : m.Pending p) (index : m.operandIndex = k) (enough : block.length ≤ n) :
    match m.accum.windows P solve after n (p, k) block with
    | .read a' p' k' => ∃ m', m.evaluateTurns P solve n block = (m', .ready) ∧ m'.Pending p' ∧
        m'.operandIndex = k' ∧ m'.accum = a' ∧
        m.accum.outcome P solve (p ++ cleaned (block ++ after)) =
          a'.outcome P solve (p' ++ cleaned after)
    | .failed => (m.evaluateTurns P solve n block).2 ≠ .ready ∧
        m.accum.outcome P solve (p ++ cleaned (block ++ after)) = none
    | .damaged => True := by
  induction n generalizing m p k block with
  | zero =>
    obtain rfl : block = [] := List.length_eq_zero_iff.mp (by omega)
    exact ⟨m, rfl, h, index, rfl, rfl⟩
  | succ n ih =>
    cases block with
    | nil => exact ⟨m, rfl, h, index, rfl, rfl⟩
    | cons c block =>
    obtain ⟨whole, -, -, -, less, -⟩ := fill_spec p (c :: block) (Nat.le_of_lt h.short)
    have shorter := less h.short (by simp)
    obtain ⟨rest', shows, accum, start, top⟩ := fillWindow_shows h (c :: block)
    have text : p ++ cleaned (c :: block ++ after) =
        (fill p (c :: block)).1 ++ cleaned ((fill p (c :: block)).2 ++ after) := by
      rw [cleaned_append, ← List.append_assoc, ← whole, List.append_assoc, ← cleaned_append]
    rw [text]
    simp only [Accum.windows, evaluateTurns]
    clear text whole less
    generalize m.fillWindow (c :: block) = filled at *
    generalize fill p (c :: block) = taken at *
    obtain ⟨m₁, rest₁⟩ := filled
    obtain ⟨w, rest⟩ := taken
    simp only at rest' shows accum start top shorter ⊢
    subst rest'
    have scan := @scanWindow_read P σ solve w evalBufferSize m₁ shows []
      (by rw [start, top]; rfl) (by omega) (by omega) (by rw [start, top]; simp)
      (by have := shows.short; omega)
    rw [accum, start, List.drop_zero] at scan
    by_cases stuck : firstOperator w = none ∧ evalBufferSize - 1 ≤ w.length
    · -- the window is taken for an operand
      rw [if_pos stuck]
      by_cases over' : w.length = evalBufferSize - 1 ∧ Complete w (cleaned (rest₁ ++ after))
      case neg => simp only [if_neg over']
      rw [if_pos over']
      obtain ⟨size, complete⟩ := over'
      rw [Accum.read_none stuck.1] at scan
      have filled : w ≠ [] := List.ne_nil_of_length_pos (by rw [size]; decide)
      obtain ⟨c, w', rfl⟩ := List.exists_cons_of_ne_nil filled
      simp only [scan.1, shows.fullWindow m.accum size]
      rw [Accum.outcome_complete (shows.nonzero c List.mem_cons_self) stuck.1 complete]
      generalize m.accum.addOperand P solve (c :: w') = added
      obtain ⟨a, status⟩ := added
      cases status
      case ready =>
        have moved := moveTrailing_pending (p := []) shows a (by simp) (by decide) rfl rfl
        have step := ih _ rest₁ moved.1 moved.2.2 (by omega)
        rw [moved.2.1] at step
        exact step
      all_goals exact ⟨fun error => (by cases error), rfl⟩
    rw [if_neg stuck, Accum.outcome_append]
    cases read : m.accum.read P solve w with
    | none =>
      rw [read] at scan
      refine ⟨?_, rfl⟩
      revert scan
      generalize m₁.scanWindow P solve evalBufferSize = scanned
      obtain ⟨m₂, status⟩ := scanned
      cases status <;> simp
    | some found =>
      obtain ⟨a, p₁⟩ := found
      rw [read] at scan
      obtain ⟨run, suffix⟩ := scan
      have bare := (Accum.read_left read).2
      obtain ⟨less, going⟩ := @reached_open P σ solve m₁ a w p₁ shows.short suffix bare stuck
      have moved := moveTrailing_pending shows a suffix less bare rfl
      have step := ih _ rest₁ moved.1 moved.2.2 (by omega)
      rw [moved.2.1] at step
      simp only [run, Option.bind_some, going]
      exact step

/-! ### All of a text -/

/-- What an evaluation answers when its text has the value `v`, or none -/
def Answers (r : EvalStatus × Option Int) (v : Option Int) : Prop :=
  r.2 = v ∧ (r.1 = .complete ↔ v.isSome)

theorem evaluateResult_none {m : Calculator σ} (none' : ¬m.operandIndex < m.stack.bufferIndex) :
    Answers (m.evaluateResult P solve).2 (m.accum.finish P solve []) := by
  unfold evaluateResult Accum.finish
  have operator : evalAddOperator P ({ m with operandIndex := 0 } : Calculator σ).stack none =
      ((m.put (m.accum.addOperator P none).1).stack, (m.accum.addOperator P none).2) :=
    m.evalAddOperator_put none
  have going := m.accum.addOperator_status (P := P) none
  simp only [if_neg none', if_true, operator]
  generalize m.accum.addOperator P none = pushed at *
  obtain ⟨a, status⟩ := pushed
  cases status
  case ready =>
    simp only [put]
    rcases a.operands with _ | ⟨v, _ | ⟨w, rest⟩⟩ <;> simp [Answers]
  case complete => exact absurd rfl going
  all_goals simp [Answers]

theorem evaluateResult_finish {m : Calculator σ} {p : Text} (h : m.Pending p)
    (far : m.operandIndex = 0 ∨ p.length ≤ m.operandIndex) :
    Answers (m.evaluateResult P solve).2 (m.accum.outcome P solve p) := by
  rw [Accum.outcome_none h.bare]
  have size := h.size
  have slice : m.stack.slice m.operandIndex (m.stack.bufferIndex - m.operandIndex) = p := by
    refine List.ext_getElem? fun i => ?_
    by_cases hi : i < p.length
    · have inside := h.inside
      rw [h.last far i hi, Stack.slice, List.getElem?_map, List.getElem?_range (by omega),
        Option.map_some, Stack.byte, if_pos (by omega)]
    · have long : (m.stack.slice m.operandIndex (m.stack.bufferIndex - m.operandIndex)).length =
          m.stack.bufferIndex - m.operandIndex := by
        rw [Stack.slice, List.length_map, List.length_range]
      rw [List.getElem?_eq_none (by omega), List.getElem?_eq_none (by omega)]
  by_cases empty : p = []
  · subst empty
    exact evaluateResult_none (by simp at size; omega)
  · have positive := List.length_pos_iff.mpr empty
    have waits : m.operandIndex < m.stack.bufferIndex := by omega
    have taken (a : Accum σ) : Answers
        (evaluateResult P solve { m.put a with operandIndex := m.stack.bufferIndex }).2
        (a.finish P solve []) := evaluateResult_none (Nat.lt_irrefl _)
    unfold evaluateResult Accum.finish at taken ⊢
    simp only [slice, if_pos waits, if_neg empty, evalAddOperand_put]
    have going := @Accum.addOperand_status σ P solve m.accum p
    generalize m.accum.addOperand P solve p = added at *
    obtain ⟨a, status⟩ := added
    cases status
    case ready => simpa using taken a
    case complete => exact absurd rfl going
    all_goals simp [Answers]

variable (P solve)

def evaluateBlocks : List Text → Calculator σ → Calculator σ × EvalStatus
  | [], m => (m, .ready)
  | block :: later, m =>
    match m.evaluateBlock P solve (block.take (block.length % 256)) with
    | (m, .ready) => evaluateBlocks later m
    | (m, error) => (m, error)

def evaluateText (m : Calculator σ) (blocks : List Text) : EvalStatus × Option Int :=
  match m.evaluateBlocks P solve blocks with
  | (m, .ready) => (m.evaluateResult P solve).2
  | (_, error) => (error, none)

variable {P solve}

theorem scanStep_status (P : Platform) (solve : Text → σ → σ × Option Int) (m : Calculator σ) :
    (m.scanStep P solve).2 ≠ .complete := by
  rw [scanStep]
  cases m.stack.operatorHere with
  | none => simp
  | some op =>
    have operand := @Accum.addOperand_status σ P solve m.accum
      (m.stack.slice m.operandIndex (m.stack.bufferIndex - m.operandIndex))
    simp only [evalAddOperand_put]
    generalize m.accum.addOperand P solve _ = added at *
    obtain ⟨a, status⟩ := added
    have going := a.addOperator_status (P := P) (some op)
    cases status
    case ready | emptyOperand =>
      simp only [addScanned]
      rw [evalAddOperator_put, put_accum]
      generalize a.addOperator P (some op) = pushed at going ⊢
      obtain ⟨a', status⟩ := pushed
      cases status
      case complete => exact absurd rfl going
      all_goals simp [fail]
    case complete => exact absurd rfl operand
    all_goals simp [fail]

theorem scanWindow_status (n : Nat) (m : Calculator σ) :
    (m.scanWindow P solve n).2 ≠ .complete := by
  induction n generalizing m with
  | zero => simp [scanWindow]
  | succ n ih =>
    rw [scanWindow_succ]
    split
    · have step := scanStep_status P solve m
      revert step
      rcases m.scanStep P solve with ⟨m', status⟩
      intro step
      cases status
      case ready => exact ih m'
      all_goals exact step
    · simp

theorem evaluatePass_status (m : Calculator σ) (block : Text) :
    (m.evaluatePass P solve block).2.1 ≠ .complete := by
  rw [evaluatePass]
  rcases m.fillWindow block with ⟨m₁, rest⟩
  have scan := @scanWindow_status P σ solve evalBufferSize m₁
  simp only
  generalize m₁.scanWindow P solve evalBufferSize = scanned at scan ⊢
  obtain ⟨m₂, status⟩ := scanned
  cases status
  case ready =>
    simp only [fullWindow]
    split_ifs
    · rcases evalAddOperand P solve m₂ _ with ⟨m₃, status⟩
      cases status <;> simp [fail]
    · simp
  case complete => exact absurd rfl scan
  all_goals simp

theorem evaluateTurns_status (n : Nat) (m : Calculator σ) (block : Text) :
    (m.evaluateTurns P solve n block).2 ≠ .complete := by
  induction n generalizing m block with
  | zero => simp [evaluateTurns]
  | succ n ih =>
    cases block with
    | nil => simp [evaluateTurns]
    | cons c block =>
      have pass := @evaluatePass_status P σ solve m (c :: block)
      rw [evaluateTurns_succ]
      generalize m.evaluatePass P solve (c :: block) = passed at pass ⊢
      obtain ⟨m₁, status, rest⟩ := passed
      cases status
      case ready => exact ih m₁ rest
      all_goals exact pass

theorem evaluateBlocks_windows (blocks : List Text) (m : Calculator σ) {p : Text} {k : Nat}
    (h : m.Pending p) (index : m.operandIndex = k) :
    match m.accum.windowsAll P solve (p, k) blocks with
    | .read a' p' k' => ∃ m', m.evaluateBlocks P solve blocks = (m', .ready) ∧ m'.Pending p' ∧
        m'.operandIndex = k' ∧ m'.accum = a' ∧
        m.accum.outcome P solve (p ++ cleaned blocks.flatten) = a'.outcome P solve p'
    | .failed => (m.evaluateBlocks P solve blocks).2 ≠ .ready ∧
        (m.evaluateBlocks P solve blocks).2 ≠ .complete ∧
        m.accum.outcome P solve (p ++ cleaned blocks.flatten) = none
    | .damaged => True := by
  induction blocks generalizing m p k with
  | nil => exact ⟨m, rfl, h, index, rfl, by simp [cleaned]⟩
  | cons block later ih =>
    rw [Accum.windowsAll]
    by_cases short : block.length < 256
    case neg => simp only [if_neg short]
    rw [if_pos short]
    have whole : block.take (block.length % 256) = block := by
      rw [Nat.mod_eq_of_lt short, List.take_length]
    have turns := @evaluateTurns_windows P σ solve later.flatten (block.length + 1) m _ _
      block h index (by omega)
    have status := @evaluateTurns_status P σ solve (block.length + 1) m block
    rw [List.flatten_cons, evaluateBlocks, whole, evaluateBlock]
    generalize m.accum.windows P solve later.flatten (block.length + 1) (p, k) block = progress at *
    cases progress with
    | read a₁ p₁ k₁ =>
      obtain ⟨m₁, run, pending, index₁, rfl, same⟩ := turns
      simp only [run, same]
      exact ih m₁ pending index₁
    | failed =>
      obtain ⟨error, none'⟩ := turns
      rw [none']
      generalize m.evaluateTurns P solve (block.length + 1) block = result at *
      obtain ⟨m₁, e⟩ := result
      cases e
      case ready => exact absurd rfl error
      case complete => exact absurd rfl status
      all_goals simp
    | damaged => trivial

theorem evaluateText_outcome {m : Calculator σ} (fresh : m.operandIndex = 0)
    (clean : m.stack.bufferIndex = 0) {blocks : List Text} (intact : m.accum.Intact P solve blocks) :
    Answers (m.evaluateText P solve blocks) (m.accum.outcome P solve (cleaned blocks.flatten)) := by
  have start : m.Pending [] := ⟨by rw [fresh, clean]; rfl, by omega, by decide, by simp, by simp,
    by simp, rfl⟩
  have run := @evaluateBlocks_windows P σ solve blocks m _ _ start fresh
  unfold Accum.Intact at intact
  generalize m.accum.windowsAll P solve ([], 0) blocks = progress at *
  cases progress with
  | read a p k =>
    obtain ⟨m', run, pending, index, rfl, same⟩ := run
    rw [List.nil_append] at same
    rw [evaluateText, run, same]
    exact evaluateResult_finish pending (by rw [index]; exact intact)
  | failed =>
    obtain ⟨error, over', none'⟩ := run
    rw [List.nil_append] at none'
    rw [evaluateText, none']
    generalize m.evaluateBlocks P solve blocks = result at *
    obtain ⟨m', e⟩ := result
    cases e
    case ready => exact absurd rfl error
    case complete => exact absurd rfl over'
    all_goals simp [Answers]
  | damaged => exact absurd intact not_false

end Calculator
end
end EmmaNode

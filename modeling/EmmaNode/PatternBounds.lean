import EmmaNode.PatternIndex
import EmmaNode.System

/-! How far the indices of the patterns get. A met pattern leaves its index on the terminator,
and the next byte is compared with that terminator: a zero goes on behind it. -/

namespace EmmaNode
namespace Agent

/-- Each index stands in its pattern or on the terminator. -/
def InRange (a : Agent) : Prop := ∀ p, (a.patternIndex p).toNat ≤ p.text.length

structure Scanned where
  before : Agent
  byte : UInt8
  after : Agent

/-- A zero that is fed while an index stands on a terminator -/
def Scanned.Overruns (x : Scanned) : Prop :=
  x.byte = 0 ∧ ∃ p, (x.before.patternIndex p).toNat = p.text.length

variable (P : Platform)

def turn (a : Agent) (c : UInt8) (cnt : Nat) : Agent × Bool :=
  let (parser, state) := a.parser.parse c 1
  watch P state c cnt Pattern.all { a with parser }

def scanned : Text → Nat → Agent → List Scanned
  | [], _, _ => []
  | c :: rest, cnt, a =>
    let (b, second) := a.turn P c cnt
    ⟨a, c, b⟩ :: if second then [] else scanned rest (cnt + 1) b

end Agent

def Store.scanned (P : Platform) (slot : Nat) : List (Text × Int) → Store → List Agent.Scanned
  | [], _ => []
  | (block, blockIndex) :: rest, st =>
    let a := if blockIndex = 0 then (st.agents slot).reset else st.agents slot
    a.scanned P block 0 ++ scanned P slot rest (st.rootAgentWrite P slot block blockIndex).1

namespace Pattern
variable {P : Platform} {p : Pattern} {i c : UInt8}

theorem byte_start (p : Pattern) : p.byte P 0 ≠ 0 := by
  have inside : 0 < p.text.length := by cases p <;> decide
  rw [byte, if_pos inside]
  exact getD_ne_zero inside

theorem advance_zero (inside : i.toNat < p.text.length) : p.advance P i 0 = 0 := by
  rw [advance, if_neg]
  rw [byte_inside inside]
  exact (getD_ne_zero inside).symm

theorem advance_overrun (full : i.toNat = p.text.length) :
    (p.advance P i 0).toNat = p.text.length + 1 := by
  have short := p.length_text_le
  rw [advance, if_pos (byte_end full).symm, UInt8.toNat_add, full, Nat.mod_eq_of_lt]
  · rfl
  · have one : (1 : UInt8).toNat = 1 := rfl
    omega

end Pattern

namespace Agent
variable {P : Platform} {a : Agent} {p : Pattern} {c : UInt8}

theorem feed_self (a : Agent) (p : Pattern) (c : UInt8) :
    (a.feed P p c).patternIndex p = p.advance P (a.patternIndex p) c := Function.update_self ..

theorem feed_other {q : Pattern} (h : q ≠ p) :
    (a.feed P p c).patternIndex q = a.patternIndex q := Function.update_of_ne h _ _

theorem InRange.feed (inside : a.InRange) (p : Pattern)
    (h : c = 0 → (a.patternIndex p).toNat ≠ p.text.length) : (a.feed P p c).InRange := fun q => by
  by_cases same : q = p
  · subst same
    rw [feed_self]
    by_cases zero : c = 0
    · rw [zero, Pattern.advance_zero (Nat.lt_of_le_of_ne (inside q) (h zero))]
      exact Nat.zero_le _
    · exact Pattern.advance_le (inside q) zero
  · rw [feed_other same]
    exact inside q

theorem watch_other (state : JsonState) (c : UInt8) (cnt : Nat) {patterns : List Pattern}
    (h : p ∉ patterns) :
    (a.watch P state c cnt patterns).1.patternIndex p = a.patternIndex p := by
  induction patterns generalizing a with
  | nil => rfl
  | cons q rest ih =>
    have other : p ≠ q := fun e => h (by rw [e]; exact List.mem_cons_self)
    have later : p ∉ rest := fun hm => h (.tail _ hm)
    rw [watch]
    split_ifs
    · rw [ih later]
      exact feed_other other
    · exact feed_other other
    · rw [ih later]
      exact feed_other other

theorem InRange.watch (inside : a.InRange) (state : JsonState) (cnt : Nat)
    (patterns : List Pattern)
    (h : c = 0 → ∀ p, (a.patternIndex p).toNat ≠ p.text.length) :
    (a.watch P state c cnt patterns).1.InRange := by
  induction patterns generalizing a with
  | nil => exact inside
  | cons q rest ih =>
    have fed : (a.feed P q c).InRange := inside.feed q fun zero => h zero q
    have again : c = 0 → ∀ p, ((a.feed P q c).patternIndex p).toNat ≠ p.text.length := by
      intro zero p
      by_cases same : p = q
      · subst same
        have text : p.text.length ≠ 0 := by cases p <;> decide
        rw [feed_self, zero, Pattern.advance_zero (Nat.lt_of_le_of_ne (inside p) (h zero p))]
        exact text.symm
      · rw [feed_other same]
        exact h zero p
    rw [Agent.watch]
    split_ifs
    · exact ih (a := { a.feed P q c with fileIndex := _ }) fed again
    · exact fed
    · exact ih fed again

theorem watch_overrun (inside : a.InRange) (state : JsonState) (cnt : Nat)
    {patterns : List Pattern} (distinct : patterns.Nodup)
    (h : ∃ p ∈ patterns, (a.patternIndex p).toNat = p.text.length) :
    ¬(a.watch P state 0 cnt patterns).1.InRange := by
  induction patterns generalizing a with
  | nil => obtain ⟨p, hp, -⟩ := h; cases hp
  | cons q rest ih =>
    obtain ⟨other, distinct⟩ := List.nodup_cons.mp distinct
    by_cases full : (a.patternIndex q).toNat = q.text.length
    · -- what is fed later does not move this index
      have left : ((a.watch P state 0 cnt (q :: rest)).1.patternIndex q).toNat =
          q.text.length + 1 := by
        rw [watch]
        split_ifs
        · rw [watch_other state 0 cnt other]
          exact (congrArg UInt8.toNat (feed_self a q 0)).trans (Pattern.advance_overrun full)
        · exact (congrArg UInt8.toNat (feed_self a q 0)).trans (Pattern.advance_overrun full)
        · rw [watch_other state 0 cnt other]
          exact (congrArg UInt8.toNat (feed_self a q 0)).trans (Pattern.advance_overrun full)
      intro range
      have := range q
      omega
    · have less : (a.patternIndex q).toNat < q.text.length := Nat.lt_of_le_of_ne (inside q) full
      have anew : (a.feed P q 0).patternIndex q = 0 := by
        rw [feed_self, Pattern.advance_zero less]
      have unmet : q.byte P ((a.feed P q 0).patternIndex q).toNat ≠ 0 := by
        rw [anew]
        exact q.byte_start
      obtain ⟨p, hp, ends⟩ := h
      have ne : p ≠ q := by
        rintro rfl
        exact full ends
      have later : p ∈ rest := (List.mem_cons.mp hp).resolve_left ne
      rw [watch]
      simp only [unmet, false_and, if_false]
      exact ih (inside.feed q fun _ => full) distinct ⟨p, later, by rw [feed_other ne]; exact ends⟩

theorem turn_inRange_iff (inside : a.InRange) (c : UInt8) (cnt : Nat) :
    (a.turn P c cnt).1.InRange ↔ ¬Scanned.Overruns ⟨a, c, (a.turn P c cnt).1⟩ := by
  have inside' : Agent.InRange { a with parser := (a.parser.parse c 1).1 } := inside
  constructor
  · rintro range ⟨zero, p, ends⟩
    cases zero
    have all : p ∈ Pattern.all := by cases p <;> decide
    exact watch_overrun inside' _ cnt (by decide) ⟨p, all, ends⟩ range
  · intro h
    exact inside'.watch _ cnt _ fun zero p ends => h ⟨zero, p, ends⟩

theorem scan_cons (a : Agent) (c : UInt8) (rest : Text) (cnt : Nat) :
    a.scan P (c :: rest) cnt = if (a.turn P c cnt).2 then a.turn P c cnt
      else (a.turn P c cnt).1.scan P rest (cnt + 1) := by
  rw [scan, turn]
  simp only
  rcases watch P _ c cnt Pattern.all _ with ⟨b, _ | _⟩ <;> rfl

theorem InRange.scan (inside : a.InRange) (block : Text) (cnt : Nat)
    (h : ∀ x ∈ a.scanned P block cnt, x.after.InRange) : (a.scan P block cnt).1.InRange := by
  induction block generalizing a cnt with
  | nil => exact inside
  | cons c rest ih =>
    rw [scanned, List.forall_mem_cons] at h
    obtain ⟨first, later⟩ := h
    rw [scan_cons]
    split_ifs with second
    · exact first
    · rw [if_neg second] at later
      exact ih first (cnt + 1) later

theorem scanned_inRange_iff (inside : a.InRange) (block : Text) (cnt : Nat) :
    (∀ x ∈ a.scanned P block cnt, x.after.InRange) ↔
      ∀ x ∈ a.scanned P block cnt, ¬x.Overruns := by
  induction block generalizing a cnt with
  | nil => exact iff_of_true (List.forall_mem_nil _) (List.forall_mem_nil _)
  | cons c rest ih =>
    rw [scanned, List.forall_mem_cons, List.forall_mem_cons]
    have step := turn_inRange_iff (P := P) inside c cnt
    constructor
    · rintro ⟨first, later⟩
      refine ⟨step.mp first, ?_⟩
      split_ifs at later ⊢ with second
      · exact List.forall_mem_nil _
      · exact (ih first (cnt + 1)).mp later
    · rintro ⟨first, later⟩
      have range := step.mpr first
      refine ⟨range, ?_⟩
      split_ifs at later ⊢ with second
      · exact List.forall_mem_nil _
      · exact (ih range (cnt + 1)).mpr later

end Agent

namespace Store
variable {P : Platform}

theorem rootAgentWrite_patternIndex (st : Store) (slot : Nat) (block : Text) (blockIndex : Int) :
    ((st.rootAgentWrite P slot block blockIndex).1.agents slot).patternIndex =
      ((st.agents slot).analyzeBlock P block blockIndex).1.patternIndex := by
  rw [rootAgentWrite]
  rcases (st.agents slot).analyzeBlock P block blockIndex with ⟨agent, _ | _⟩
  · simp only
    cases P.cfsWrite (st.files agent.memoryIndex) blockIndex block with
    | refused => simp only [Function.update_self]
    | wrote n file => simp only [Function.update_self]
  · simp only [Function.update_self]

theorem scanned_inRange_iff (slot : Nat) (writes : List (Text × Int)) (st : Store)
    (inside : (st.agents slot).InRange) :
    (∀ x ∈ st.scanned P slot writes, x.after.InRange) ↔
      ∀ x ∈ st.scanned P slot writes, ¬x.Overruns := by
  induction writes generalizing st with
  | nil => exact iff_of_true (List.forall_mem_nil _) (List.forall_mem_nil _)
  | cons w rest ih =>
    obtain ⟨block, blockIndex⟩ := w
    have start : (if blockIndex = 0 then (st.agents slot).reset
        else st.agents slot).InRange := by
      split
      · exact fun p => Nat.zero_le _
      · exact inside
    have here := Agent.scanned_inRange_iff (P := P) start block 0
    have next (h : ∀ x ∈ (if blockIndex = 0 then (st.agents slot).reset
          else st.agents slot).scanned P block 0, x.after.InRange) :
        ((st.rootAgentWrite P slot block blockIndex).1.agents slot).InRange := by
      intro p
      rw [rootAgentWrite_patternIndex]
      exact start.scan block 0 h p
    rw [scanned]
    simp only [List.forall_mem_append]
    constructor
    · rintro ⟨first, later⟩
      exact ⟨here.mp first, (ih _ (next first)).mp later⟩
    · rintro ⟨first, later⟩
      have range := here.mpr first
      exact ⟨range, (ih _ (next range)).mpr later⟩

/-- From the reset of a new agent on, all indices are in range behind every byte of every
block if and only if no zero is fed while a pattern has just been met. -/
theorem patterns_inRange_iff (P : Platform) (st : Store) (slot : Nat)
    (writes : List (Text × Int)) :
    (∀ x ∈ (st.resetData .agent slot).scanned P slot writes, x.after.InRange) ↔
      ∀ x ∈ (st.resetData .agent slot).scanned P slot writes, ¬x.Overruns := by
  refine scanned_inRange_iff slot writes _ fun p => ?_
  have new : ((st.resetData .agent slot).agents slot) = (st.agents slot).reset :=
    Function.update_self ..
  rw [new]
  exact Nat.zero_le _

/-- Behind `"PRE":"` a zero is taken for a byte of the pattern. -/
theorem patterns_overrun : ¬∀ (P : Platform) (st : Store) (slot : Nat)
    (writes : List (Text × Int)), ∀ x ∈ (st.resetData .agent slot).scanned P slot writes,
      x.after.InRange := by
  intro h
  have last := h .plain (.empty fun _ => none) 0
    [(chars ['"', 'P', 'R', 'E', '"', ':', '"'] ++ [0], 0)] _ (List.getLast_mem (by decide +kernel))
  exact absurd (last .pre) (by decide +kernel)

end Store
end EmmaNode

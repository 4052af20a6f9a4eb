import EmmaNode.Payloads
import EmmaNode.Addresses

/-! The calls of `getNextTARGET` as scans over a text. A call reads whole blocks, past the end
of the list if need be, and its result is that of one scan over all of them. -/

namespace EmmaNode

namespace TargetScan
variable {P : Platform} {s s' : TargetScan} {c : UInt8} {t u : Text} {cnt : Nat}

theorem feedBlock_append (t u : Text) (cnt : Nat) (s : TargetScan) :
    s.feedBlock P (t ++ u) cnt = match s.feedBlock P t cnt with
      | none => none
      | some (s, cnt, some code) => some (s, cnt, some code)
      | some (s, cnt, none) => s.feedBlock P u cnt := by
  induction t generalizing cnt s with
  | nil => rfl
  | cons c t ih =>
    rw [List.cons_append, feedBlock, feedBlock]
    cases s.feed P c with
    | none => rfl
    | some result =>
      obtain ⟨s, _ | code⟩ := result
      · exact ih (cnt + 1) s
      · rfl

theorem feedBlock_next (h : s.feedBlock P t cnt = some (s', cnt + t.length, none)) (u : Text) :
    s.feedBlock P (t ++ u) cnt = s'.feedBlock P u (cnt + t.length) := by
  rw [feedBlock_append, h]

theorem feedBlock_count (t : Text) (cnt k : Nat) (s : TargetScan) :
    s.feedBlock P t (cnt + k) =
      (s.feedBlock P t cnt).map fun (s, n, code) => (s, n + k, code) := by
  induction t generalizing cnt s with
  | nil => rfl
  | cons c t ih =>
    rw [feedBlock, feedBlock]
    cases s.feed P c with
    | none => rfl
    | some result =>
      obtain ⟨s, _ | code⟩ := result
      · rw [← ih, Nat.add_right_comm]
      · rfl

theorem feedBlock_all {n : Nat} (h : s.feedBlock P t cnt = some (s', n, none)) :
    n = cnt + t.length := by
  induction t generalizing cnt s with
  | nil =>
    cases h
    rfl
  | cons c t ih =>
    rw [feedBlock] at h
    cases hf : s.feed P c with
    | none => simp [hf] at h
    | some result =>
      rw [hf] at h
      obtain ⟨s₁, _ | code⟩ := result
      · rw [ih h, List.length_cons]
        omega
      · cases h

def moved (s : TargetScan) (x y : Int) : TargetScan :=
  { s with reader := { s.reader with startIndex := x, stopIndex := y } }

theorem matchMethod_moved (c : UInt8) (x y : Int) (methods : List ClientMethod) (s : TargetScan) :
    (s.moved x y).matchMethod P c methods = (s.matchMethod P c methods).moved x y := by
  induction methods generalizing s with
  | nil => rfl
  | cons m rest ih =>
    simp only [matchMethod, show (s.moved x y).reader.patternIndex = s.reader.patternIndex from rfl]
    generalize (if m.byte P (s.reader.patternIndex m).toNat = c then _ else (0 : UInt8)) = i
    split
    · rfl
    · exact ih { s with reader := { s.reader with
        patternIndex := Function.update s.reader.patternIndex m i } }

def arm (P : Platform) (s : TargetScan) (c : UInt8) : TargetScan :=
  if s.methodSet then s
  else if c = '['.toUInt8 then { s with methodSet := true }
  else s.matchMethod P c ClientMethod.all

theorem arm_moved (s : TargetScan) (x y : Int) (c : UInt8) :
    (s.moved x y).arm P c = (s.arm P c).moved x y := by
  unfold arm
  rw [show (s.moved x y).methodSet = s.methodSet from rfl, matchMethod_moved]
  split
  · rfl
  · split <;> rfl

theorem feed_eq (s : TargetScan) (c : UInt8) : s.feed P c =
    if s.found then
      if c = quote then
        some ({ s with reader := { s.reader with
          uri := Function.update s.reader.uri s.uriIndex 0 } }, some 1)
      else if s.uriIndex < emmaMaxUriSize then
        some ({ s with reader := { s.reader with
          uri := Function.update s.reader.uri s.uriIndex c }, uriIndex := s.uriIndex + 1 }, none)
      else some (s, some 2)
    else if (s.arm P c).methodSet then
      ((s.arm P c).reader.parser.parse P c).map fun (parser, status) =>
        ({ s.arm P c with
          reader := { (s.arm P c).reader with parser }, found := status = .done }, none)
    else some (s.arm P c, none) := rfl

theorem arm_set (set : s.methodSet = true) (c : UInt8) : s.arm P c = s := by
  rw [arm, if_pos set]

theorem arm_other (unset : s.methodSet = false) (other : c ≠ '['.toUInt8) :
    s.arm P c = s.matchMethod P c ClientMethod.all := by
  rw [arm, if_neg (by simp [unset]), if_neg other]

theorem feed_free (free : s.found = false) (c : UInt8) : s.feed P c =
    if (s.arm P c).methodSet then
      ((s.arm P c).reader.parser.parse P c).map fun (parser, status) =>
        ({ s.arm P c with
          reader := { (s.arm P c).reader with parser }, found := status = .done }, none)
    else some (s.arm P c, none) := by
  rw [feed_eq, if_neg (by simp [free])]

theorem feed_address (set : s.methodSet = true) (free : s.found = false) (c : UInt8) :
    s.feed P c = (s.reader.parser.parse P c).map fun (parser, status) =>
      ({ s with reader := { s.reader with parser }, found := status = .done }, none) := by
  rw [feed_free free, arm_set set, if_pos set]

theorem feed_moved (s : TargetScan) (x y : Int) (c : UInt8) :
    (s.moved x y).feed P c = (s.feed P c).map fun (s, code) => (s.moved x y, code) := by
  rw [feed_eq, feed_eq, arm_moved]
  generalize s.arm P c = u
  by_cases found : s.found
  · rw [if_pos found, if_pos (by exact found)]
    split
    · rfl
    · rw [show (s.moved x y).uriIndex = s.uriIndex from rfl]
      split <;> rfl
  · rw [if_neg found, if_neg (by exact found), show (u.moved x y).methodSet = u.methodSet from rfl,
      show (u.moved x y).reader.parser = u.reader.parser from rfl]
    split
    · rw [Option.map_map]
      rfl
    · rfl

theorem feedBlock_moved (x y : Int) (t : Text) (cnt : Nat) (s : TargetScan) :
    (s.moved x y).feedBlock P t cnt =
      (s.feedBlock P t cnt).map fun (s, n, code) => (s.moved x y, n, code) := by
  induction t generalizing cnt s with
  | nil => rfl
  | cons c t ih =>
    rw [feedBlock, feedBlock, feed_moved]
    cases s.feed P c with
    | none => rfl
    | some result =>
      obtain ⟨s₁, _ | code⟩ := result
      · exact ih (cnt + 1) s₁
      · rfl

theorem feedBlock_indices {n : Nat} {code : Option Nat}
    (h : s.feedBlock P t cnt = some (s', n, code)) :
    s'.reader.startIndex = s.reader.startIndex ∧ s'.reader.stopIndex = s.reader.stopIndex := by
  have same := feedBlock_moved (P := P) s.reader.startIndex s.reader.stopIndex t cnt s
  rw [show s.moved s.reader.startIndex s.reader.stopIndex = s from rfl, h, Option.map_some,
    Option.some.injEq, Prod.mk.injEq] at same
  rw [same.1]
  exact ⟨rfl, rfl⟩

end TargetScan

namespace TargetReader
variable {P : Platform} {text : Text} {s s' : TargetScan} {stop x : Nat}

def window (text : Text) (stop x : Nat) : Text :=
  (text.drop x).take (targetBlockSize * ((stop - x + (targetBlockSize - 1)) / targetBlockSize))

theorem window_nil (h : stop ≤ x) : window text stop x = [] := by
  rw [window, Nat.sub_eq_zero_of_le h]
  rfl

theorem window_cons (h : x < stop) : window text stop x =
    (text.drop x).take targetBlockSize ++ window text stop (x + targetBlockSize) := by
  have split : targetBlockSize * ((stop - x + (targetBlockSize - 1)) / targetBlockSize) =
      targetBlockSize + targetBlockSize *
        ((stop - (x + targetBlockSize) + (targetBlockSize - 1)) / targetBlockSize) := by
    simp only [targetBlockSize]
    omega
  rw [window, window, split, List.take_add, List.drop_drop]

/-- What a call of `getNextTARGET` reads: a text, and nothing in front of it. -/
structure Reads (read : Int → Text) (text : Text) : Prop where
  inside : ∀ x : Nat, read x = (text.drop x).take targetBlockSize
  outside : ∀ x : Int, x < 0 → read x = []

theorem nextFrom_end {read : Int → Text} (reads : Reads read text) (fuel : Nat)
    (ended : s.reader.stopIndex ≤ s.reader.startIndex ∨ s.reader.startIndex < 0) :
    ∃ t, nextFrom P read fuel s = some (t, 0) := by
  cases fuel with
  | zero => exact ⟨_, rfl⟩
  | succ fuel =>
    rw [nextFrom]
    by_cases more : s.reader.startIndex < s.reader.stopIndex
    · rw [if_pos more, reads.outside _ (ended.resolve_left (by omega))]
      exact ⟨_, rfl⟩
    · rw [if_neg more]
      exact ⟨_, rfl⟩

theorem nextFrom_block {read : Int → Text} (reads : Reads read text) {fuel : Nat}
    (start : s.reader.startIndex = x) (end' : s.reader.stopIndex = stop) (more : x < stop) :
    nextFrom P read (fuel + 1) s =
      match s.feedBlock P ((text.drop x).take targetBlockSize) 0 with
      | none => none
      | some (s', cnt, some code) => some ((s'.moved (P.int (x + cnt : Nat)) stop).reader, code)
      | some (s', cnt, none) =>
        if ((text.drop x).take targetBlockSize).length < targetBlockSize then
          some ((s'.moved (P.int (x + cnt : Nat)) stop).reader, 0)
        else nextFrom P read fuel (s'.moved (P.int (x + cnt : Nat)) stop) := by
  rw [nextFrom, if_pos (by omega)]
  simp only [start, reads.inside]
  cases first : s.feedBlock P ((text.drop x).take targetBlockSize) 0 with
  | none => rfl
  | some result =>
    obtain ⟨s', cnt, code⟩ := result
    obtain ⟨start', stop'⟩ := TargetScan.feedBlock_indices first
    have moved : { s' with reader := { s'.reader with
        startIndex := P.int (s'.reader.startIndex + cnt) } } =
        s'.moved (P.int (x + cnt : Nat)) stop := by
      rw [start', start, TargetScan.moved, ← end', ← stop', Int.natCast_add]
    cases code <;> simp only [← moved]

theorem nextFrom_window {read : Int → Text} (reads : Reads read text)
    (fits : stop < 2 ^ (P.intBits - 1)) {fuel : Nat} (start : s.reader.startIndex = x)
    (end' : s.reader.stopIndex = stop) (enough : stop ≤ x + targetBlockSize * fuel) :
    match s.feedBlock P (window text stop x) 0 with
    | none => nextFrom P read fuel s = none
    | some (s', cnt, some code) =>
      nextFrom P read fuel s = some ((s'.moved (P.int (x + cnt : Nat)) stop).reader, code)
    | some (_, _, none) => ∃ t, nextFrom P read fuel s = some (t, 0) := by
  induction fuel generalizing x s with
  | zero =>
    rw [window_nil (by omega)]
    exact ⟨_, rfl⟩
  | succ fuel ih =>
    by_cases more : x < stop
    swap
    · rw [window_nil (by omega)]
      exact nextFrom_end reads _ (.inl (by omega))
    rw [window_cons more, TargetScan.feedBlock_append, nextFrom_block reads start end' more]
    cases first : s.feedBlock P ((text.drop x).take targetBlockSize) 0 with
    | none => rfl
    | some result =>
      obtain ⟨s₁, cnt, _ | code⟩ := result
      swap
      · rfl
      have all := TargetScan.feedBlock_all first
      rw [Nat.zero_add] at all
      subst all
      simp only
      by_cases short : ((text.drop x).take targetBlockSize).length < targetBlockSize
      · have behind : window text stop (x + targetBlockSize) = [] := by
          rw [List.length_take, List.length_drop] at short
          rw [window, List.drop_eq_nil_of_le (by omega), List.take_nil]
        rw [behind, if_pos short]
        exact ⟨_, rfl⟩
      have full : ((text.drop x).take targetBlockSize).length = targetBlockSize :=
        Nat.le_antisymm (List.length_take_le _ _) (Nat.not_lt.mp short)
      rw [if_neg short, full]
      have large : targetBlockSize < 2 ^ 15 := by decide
      have bits := P.pow_intBits
      by_cases last : stop ≤ x + targetBlockSize
      · rw [window_nil last]
        refine nextFrom_end reads fuel ?_
        show (stop : Int) ≤ P.int (x + targetBlockSize : Nat) ∨
          P.int (x + targetBlockSize : Nat) < 0
        rcases P.int_or_negative (n := x + targetBlockSize) (by omega) with same | negative
        · exact .inl (by omega)
        · exact .inr negative
      · have inside : P.int (x + targetBlockSize : Nat) = (x + targetBlockSize : Nat) :=
          P.int_index (by omega)
        rw [Nat.mul_succ] at enough
        rw [inside]
        have rest := @ih (s₁.moved (x + targetBlockSize : Nat) stop) (x + targetBlockSize) rfl rfl
          (by omega)
        rw [TargetScan.feedBlock_moved] at rest
        have count := TargetScan.feedBlock_count (P := P)
          (window text stop (x + targetBlockSize)) 0 targetBlockSize s₁
        rw [Nat.zero_add] at count
        rw [count]
        cases scanned : s₁.feedBlock P (window text stop (x + targetBlockSize)) 0 with
        | none =>
          rw [scanned] at rest
          exact rest
        | some result =>
          obtain ⟨s₂, n, _ | code⟩ := result
          · rw [scanned] at rest
            exact rest
          · rw [scanned] at rest
            simp only [Option.map_some] at rest ⊢
            rw [rest, Nat.add_assoc x, Nat.add_comm n]
            rfl

end TargetReader
end EmmaNode

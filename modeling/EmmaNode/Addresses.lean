import EmmaNode.Target
import EmmaNode.Digits
import Mathlib.Data.List.GetD

/-! Addresses as they are printed and read back: groups of hexadecimal digits between
colons. The printer leaves out the first run of zero words; the parser stores the groups
in their order and fills the place of the last empty one. -/

namespace EmmaNode

/-! ### Hexadecimal numbers -/

theorem hexadecimal_last (n : Nat) : hexadecimal n =
    (if n < 16 then [] else hexadecimal (n / 16)) ++ [(Nat.digitChar (n % 16)).toUInt8] := by
  unfold hexadecimal chars
  split
  · rename_i small
    rw [Nat.toDigits_of_lt_base small, Nat.mod_eq_of_lt small]
    rfl
  · rename_i large
    rw [Nat.toDigits_of_base_le (by decide) (Nat.not_lt.mp large), List.map_append]
    rfl

theorem hexadecimal_ne_nil (n : Nat) : hexadecimal n ≠ [] := by
  rw [hexadecimal_last]
  simp

theorem length_hexadecimal_le {k n : Nat} (positive : 0 < k) (h : n < 16 ^ k) :
    (hexadecimal n).length ≤ k := by
  rw [hexadecimal, chars, List.length_map]
  exact (Nat.length_toDigits_le_iff (by decide) positive).mpr h

theorem axntoi_append (t : Text) (c : UInt8) :
    axntoi (t ++ [c]) = 16 * axntoi t + axntoi [c] := by
  unfold axntoi
  rw [List.foldl_append]
  simp only [List.foldl_cons, List.foldl_nil, Nat.mul_zero, Nat.zero_add]
  split_ifs <;> rfl

theorem axntoi_hexadecimal (n : Nat) : axntoi (hexadecimal n) = n := by
  have last (d : Nat) (h : d < 16) : axntoi [(Nat.digitChar d).toUInt8] = d := by
    revert d
    decide
  induction n using Nat.strongRecOn with
  | _ n ih =>
    rw [hexadecimal_last, axntoi_append, last (n % 16) (Nat.mod_lt n (by decide))]
    split
    · rename_i small
      rw [Nat.mod_eq_of_lt small]
      exact Nat.zero_add n
    · rename_i large
      rw [ih (n / 16) (Nat.div_lt_self (by omega) (by decide))]
      exact Nat.div_add_mod n 16

/-- What can stand in a group: digits that the buffer has room for -/
def HexDigits (g : Text) : Prop := g.length ≤ 6 ∧ ∀ c ∈ g, AddressParser.isHexDigit c

instance (g : Text) : Decidable (HexDigits g) :=
  @instDecidableAnd _ _ inferInstance (List.decidableBAll _ g)

theorem hexadecimal_digits (n : Nat) : ∀ c ∈ hexadecimal n, AddressParser.isHexDigit c := by
  have last (d : Nat) (h : d < 16) :
      AddressParser.isHexDigit (Nat.digitChar d).toUInt8 := by
    revert d
    decide
  induction n using Nat.strongRecOn with
  | _ n ih =>
    intro c hc
    rw [hexadecimal_last] at hc
    rcases List.mem_append.mp hc with front | back
    · split at front
      · cases front
      · exact ih (n / 16) (Nat.div_lt_self (by omega) (by decide)) c front
    · rw [List.mem_singleton.mp back]
      exact last (n % 16) (Nat.mod_lt n (by decide))

theorem hexDigits_word (w : UInt16) : HexDigits (hexadecimal w.toNat) :=
  ⟨Nat.le_trans (length_hexadecimal_le (k := 4) (by decide) w.toNat_lt) (by decide),
    hexadecimal_digits _⟩

theorem hexDigits_decimal {n : Nat} (h : n < 65536) : HexDigits (decimal n) := by
  refine ⟨length_decimal_le (by decide) (by omega), fun c hc => ?_⟩
  have digit := (decimal_literal n).2 c hc
  simp only [isDigit, decide_eq_true_eq] at digit
  simp [AddressParser.isHexDigit, digit.1, digit.2]

/-! ### Characters -/

namespace AddressParser
variable {P : Platform} {a b d : AddressParser} {c : UInt8} {g t u : Text}

def opened (a : AddressParser) : AddressParser :=
  { a with digitBuf := [], addIndex := 0, addExtendIndex := 0, port := 0
           address := fun _ => 0, valid := 1 }

theorem parse_open : a.parse P '['.toUInt8 = some (a.opened, .more) := by
  rw [parse, if_pos rfl]
  rfl

theorem parse_colon : a.parse P ':'.toUInt8 = some (a.chunk, .more) := by
  rw [parse, if_neg (by decide), if_pos rfl]

theorem digit_other (h : isHexDigit c) : c ≠ '['.toUInt8 ∧ c ≠ ':'.toUInt8 := by
  constructor <;> rintro rfl <;> revert h <;> decide

theorem parse_digit (h : isHexDigit c) : a.parse P c =
    if a.digitBuf.length < 6 then some ({ a with digitBuf := a.digitBuf ++ [c] }, .more)
    else some ({ a with valid := 0 }, .invalid) := by
  rw [parse, if_neg (digit_other h).1, if_neg (digit_other h).2, if_pos h]

theorem parse_close (open' : a.valid ≠ 0) : a.parse P ']'.toUInt8 =
    let a := { a with valid := 2 }.chunk
    if a.addIndex = maxIpChunks then some (a, .more)
    else if a.addExtendIndex = 0 then none
    else some (a.expand, .more) := by
  rw [parse, if_neg (by decide), if_neg (by decide), if_neg (by decide), if_pos rfl, if_neg open']

theorem parse_slash : a.parse P slash =
    let a := { a with port := UInt16.ofInt (antoi P a.digitBuf) }
    if a.valid = 2 then some ({ a with valid := 0 }, .done)
    else some ({ a with valid := 0 }, .invalid) := by
  rw [parse, if_neg (by decide), if_neg (by decide), if_neg (by decide), if_neg (by decide),
    if_pos (.inl rfl)]

def feed (P : Platform) : Text → AddressParser → Option (AddressParser × List AddressStatus)
  | [], a => some (a, [])
  | c :: rest, a => (a.parse P c).bind fun (a, status) =>
      (feed P rest a).map fun (a, later) => (a, status :: later)

def Reads (P : Platform) (a : AddressParser) (t : Text) (b : AddressParser) : Prop :=
  feed P t a = some (b, List.replicate t.length .more)

theorem feed_append (t u : Text) (a : AddressParser) : feed P (t ++ u) a =
    (feed P t a).bind fun (a, first) => (feed P u a).map fun (a, later) => (a, first ++ later) := by
  induction t generalizing a with
  | nil => simp [feed]
  | cons c t ih =>
    rw [List.cons_append, feed, feed]
    cases a.parse P c with
    | none => rfl
    | some result =>
      obtain ⟨b, status⟩ := result
      simp only [Option.bind_some, ih]
      cases feed P t b with
      | none => rfl
      | some result =>
        simp only [Option.bind_some, Option.map_some, Option.map_map]
        rfl

theorem Reads.nil : Reads P a [] a := rfl

theorem Reads.append (h : Reads P a t b) (h' : Reads P b u d) : Reads P a (t ++ u) d := by
  unfold Reads at *
  simp only [feed_append, h, h', Option.bind_some, Option.map_some, List.length_append,
    List.replicate_append_replicate]

theorem Reads.single (h : a.parse P c = some (b, .more)) : Reads P a [c] b := by
  unfold Reads
  rw [feed, h]
  rfl

theorem Reads.digits (h : ∀ c ∈ g, isHexDigit c) (room : a.digitBuf.length + g.length ≤ 6) :
    Reads P a g { a with digitBuf := a.digitBuf ++ g } := by
  induction g generalizing a with
  | nil => simpa using Reads.nil
  | cons c g ih =>
    rw [List.length_cons] at room
    have first : Reads P a [c] { a with digitBuf := a.digitBuf ++ [c] } :=
      .single (by rw [parse_digit (h c List.mem_cons_self), if_pos (by omega)])
    have rest := @ih { a with digitBuf := a.digitBuf ++ [c] }
      (fun c' hc => h c' (List.mem_cons_of_mem _ hc)) (by simp; omega)
    simpa using first.append rest

end AddressParser

/-! ### Groups -/

def groupsText : List Text → Text
  | [] => []
  | [g] => g
  | g :: h :: rest => g ++ ':'.toUInt8 :: groupsText (h :: rest)

theorem groupsText_cons (g h : Text) (rest : List Text) :
    groupsText (g :: h :: rest) = g ++ ':'.toUInt8 :: groupsText (h :: rest) := rfl

theorem groupsText_append (front : List Text) (g : Text) (back : List Text) :
    groupsText (front ++ g :: back) =
      front.flatMap (· ++ [':'.toUInt8]) ++ groupsText (g :: back) := by
  induction front with
  | nil => rfl
  | cons h front ih =>
    cases front with
    | nil => simp [groupsText]
    | cons h' front => simp_all [groupsText]

def lastEmpty (gs : List Text) : Nat := go gs.reverse
where
  go : List Text → Nat
    | [] => 0
    | g :: front => if g = [] then front.length else go front

theorem lastEmpty_append (front : List Text) (g : Text) :
    lastEmpty (front ++ [g]) = if g = [] then front.length else lastEmpty front := by
  simp [lastEmpty, lastEmpty.go]

theorem lastEmpty_filled (front back : List Text) (filled : ∀ g ∈ back, g ≠ []) :
    lastEmpty (front ++ back) = lastEmpty front := by
  induction back using List.reverseRecOn with
  | nil => rw [List.append_nil]
  | append_singleton back g ih =>
    rw [← List.append_assoc, lastEmpty_append, if_neg (filled g (by simp)),
      ih fun h hh => filled h (List.mem_append_left _ hh)]

theorem lastEmpty_at (front back : List Text) (filled : ∀ g ∈ back, g ≠ []) :
    lastEmpty (front ++ [] :: back) = front.length := by
  rw [List.append_cons, lastEmpty_filled _ _ filled, lastEmpty_append, if_pos rfl]

namespace AddressParser
variable {P : Platform} {a b d : AddressParser} {c : UInt8} {g t u : Text} {gs : List Text}

def stored (a : AddressParser) (gs : List Text) : AddressParser :=
  { a with digitBuf := [], addIndex := gs.length, addExtendIndex := lastEmpty gs
           address := fun i => (axntoi (gs.getD i [])).toUInt16 }

theorem chunk_stored (a : AddressParser) (g : Text) (room : gs.length < maxIpChunks) :
    chunk { a.stored gs with digitBuf := g } = a.stored (gs ++ [g]) := by
  have words : Function.update (a.stored gs).address gs.length (axntoi g).toUInt16 =
      (a.stored (gs ++ [g])).address := by
    funext i
    simp only [stored, Function.update_apply, List.getD_eq_getElem?_getD]
    split
    · rename_i last
      rw [last, List.getElem?_concat_length]
      rfl
    · rename_i other
      rcases Nat.lt_or_gt_of_ne other with before | behind
      · rw [List.getElem?_append_left before]
      · rw [List.getElem?_eq_none (Nat.le_of_lt behind),
          List.getElem?_eq_none (by rw [List.length_append]; exact behind)]
  have index : (a.stored gs).addIndex = gs.length := rfl
  unfold chunk
  rw [if_pos (by exact room)]
  simp only [index, words]
  simp [stored, lastEmpty_append]

theorem Reads.groups (digits : ∀ g ∈ gs, HexDigits g) (room : gs.length ≤ maxIpChunks) :
    Reads P (a.stored []) (gs.flatMap (· ++ [':'.toUInt8])) (a.stored gs) := by
  induction gs using List.reverseRecOn with
  | nil => exact .nil
  | append_singleton gs g ih =>
    rw [List.length_append, List.length_singleton] at room
    obtain ⟨short, hex⟩ := digits g (by simp)
    have front := ih (fun h hh => digits h (List.mem_append_left _ hh)) (by omega)
    have group : Reads P (a.stored gs) g { a.stored gs with digitBuf := g } := by
      have := Reads.digits (P := P) (a := a.stored gs) hex (by simpa [stored] using short)
      simpa [stored] using this
    have colon : Reads P { a.stored gs with digitBuf := g } [':'.toUInt8] (a.stored (gs ++ [g])) :=
      .single (by rw [parse_colon, chunk_stored a g (by omega)])
    rw [List.flatMap_append]
    simpa using front.append (group.append colon)

theorem shiftUp_frame (a : AddressParser) (k m : Nat) :
    ∃ address, (List.range m).foldl (fun b j => b.shiftUp (k + j)) a = { a with address } := by
  induction m with
  | zero => exact ⟨a.address, rfl⟩
  | succ m ih =>
    obtain ⟨address, e⟩ := ih
    rw [List.range_succ, List.foldl_append, e]
    exact ⟨_, rfl⟩

theorem shiftUp_turns (a : AddressParser) {k m : Nat} (gap : a.addExtendIndex ≤ k) {i : Nat}
    (inside : i ≤ k + m) :
    ((List.range m).foldl (fun b j => b.shiftUp (k + j)) a).address i =
      if i < a.addExtendIndex then a.address i
      else if i ≤ a.addExtendIndex + m then a.address a.addExtendIndex
      else a.address (i - m) := by
  induction m generalizing i with
  | zero =>
    simp only [List.range_zero, List.foldl_nil, Nat.add_zero, Nat.sub_zero]
    split
    · rfl
    · split
      · rw [show i = a.addExtendIndex by omega]
      · rfl
  | succ m ih =>
    obtain ⟨address, e⟩ := shiftUp_frame a k m
    rw [List.range_succ, List.foldl_append, List.foldl_cons, List.foldl_nil, shiftUp]
    have frame : ((List.range m).foldl (fun b j => b.shiftUp (k + j)) a).addExtendIndex =
        a.addExtendIndex := by rw [e]
    simp only [frame]
    by_cases moved : a.addExtendIndex < i ∧ i ≤ k + m + 1
    · rw [if_pos moved, ih (by omega), if_neg (by omega : ¬i < a.addExtendIndex)]
      by_cases first : i ≤ a.addExtendIndex + (m + 1)
      · rw [if_pos first]
        split
        · rw [show a.addExtendIndex = i - 1 by omega]
        · rw [if_pos (by omega)]
      · rw [if_neg (by omega), if_neg (by omega), if_neg first, Nat.sub_sub, Nat.add_comm 1]
    · rw [if_neg moved, ih (by omega)]
      split
      · rfl
      · rw [if_pos (by omega), if_pos (by omega)]

theorem lastEmpty_lt (filled : gs ≠ []) : lastEmpty gs < gs.length := by
  have bound (front : List Text) (some' : front ≠ []) : lastEmpty.go front < front.length := by
    induction front with
    | nil => exact absurd rfl some'
    | cons g front ih =>
      rw [lastEmpty.go, List.length_cons]
      split
      · exact Nat.lt_succ_self _
      · cases front with
        | nil => exact Nat.succ_pos _
        | cons h front => exact Nat.lt_succ_of_lt (ih (List.cons_ne_nil _ _))
  rw [← List.length_reverse]
  exact bound gs.reverse (by simpa using filled)

def groupIndex (gs : List Text) (i : Nat) : Nat :=
  if i < lastEmpty gs then i
  else if i ≤ lastEmpty gs + (maxIpChunks - gs.length) then lastEmpty gs
  else i - (maxIpChunks - gs.length)

theorem groupIndex_cases (gs : List Text) (i : Nat) :
    i < lastEmpty gs ∧ groupIndex gs i = i ∨
      lastEmpty gs ≤ i ∧ i ≤ lastEmpty gs + (maxIpChunks - gs.length) ∧
        groupIndex gs i = lastEmpty gs ∨
      lastEmpty gs + (maxIpChunks - gs.length) < i ∧
        groupIndex gs i = i - (maxIpChunks - gs.length) := by
  rw [groupIndex]
  split_ifs <;> omega

structure Closed (a : AddressParser) (words : Fin maxIpChunks → UInt16) : Prop where
  valid : a.valid = 2
  addIndex : a.addIndex = maxIpChunks
  address : ∀ i : Fin maxIpChunks, a.address i = words i

theorem Closed.congr {words words' : Fin maxIpChunks → UInt16} (h : a.Closed words)
    (same : ∀ i, words i = words' i) : a.Closed words' :=
  ⟨h.valid, h.addIndex, fun i => (h.address i).trans (same i)⟩

theorem close_stored (open' : a.valid = 1) (g : Text) (room : gs.length < maxIpChunks)
    (full : (gs ++ [g]).length = maxIpChunks ∨ lastEmpty (gs ++ [g]) ≠ 0) :
    ∃ b, parse P { a.stored gs with digitBuf := g } ']'.toUInt8 = some (b, .more) ∧
      b.digitBuf = [] ∧ b.Closed fun i =>
        (axntoi ((gs ++ [g]).getD (groupIndex (gs ++ [g]) i) [])).toUInt16 := by
  have length : (gs ++ [g]).length = gs.length + 1 := by simp
  have chunked : chunk { a.stored gs with digitBuf := g, valid := 2 } =
      stored { a with valid := 2 } (gs ++ [g]) :=
    chunk_stored { a with valid := 2 } g room
  rw [parse_close (by simp [stored, open'])]
  simp only [chunked]
  have count : (stored { a with valid := 2 } (gs ++ [g])).addIndex = gs.length + 1 := length
  have gap : (stored { a with valid := 2 } (gs ++ [g])).addExtendIndex =
      lastEmpty (gs ++ [g]) := rfl
  rw [count, gap]
  by_cases eight : gs.length + 1 = maxIpChunks
  · rw [if_pos eight]
    refine ⟨_, rfl, rfl, rfl, eight ▸ count, fun i => ?_⟩
    have place : groupIndex (gs ++ [g]) i = i := by
      rw [groupIndex, length, eight]
      split_ifs <;> omega
    simp only [place]
    rfl
  · have empty := full.resolve_left (by rw [length]; exact eight)
    rw [if_neg eight, if_neg empty]
    have below : lastEmpty (gs ++ [g]) ≤ gs.length := by
      have := lastEmpty_lt (List.append_ne_nil_of_right_ne_nil gs (List.cons_ne_nil g []))
      omega
    obtain ⟨address, e⟩ := shiftUp_frame (stored { a with valid := 2 } (gs ++ [g])) gs.length
      (maxIpChunks - (gs.length + 1))
    have moved := fun i => @shiftUp_turns (stored { a with valid := 2 } (gs ++ [g])) gs.length
      (maxIpChunks - (gs.length + 1)) below i
    refine ⟨_, rfl, ?_, ?_, rfl, fun i => ?_⟩ <;>
      simp only [expand, count, Nat.add_sub_cancel]
    · rw [e]
      rfl
    · rw [e]
      rfl
    · have inside : (i : Nat) ≤ gs.length + (maxIpChunks - (gs.length + 1)) := by omega
      rw [moved i inside, groupIndex, length, gap]
      split_ifs <;> rfl

theorem Reads.bracketed (filled : gs ≠ []) (digits : ∀ g ∈ gs, HexDigits g)
    (room : gs.length ≤ maxIpChunks) (full : gs.length = maxIpChunks ∨ lastEmpty gs ≠ 0) :
    ∃ b, Reads P a ('['.toUInt8 :: (groupsText gs ++ [']'.toUInt8])) b ∧ b.digitBuf = [] ∧
      b.Closed fun i => (axntoi (gs.getD (groupIndex gs i) [])).toUInt16 := by
  obtain ⟨front, g, rfl⟩ : ∃ front g, gs = front ++ [g] :=
    ⟨gs.dropLast, gs.getLast filled, (List.dropLast_append_getLast filled).symm⟩
  rw [List.length_append, List.length_singleton] at room
  obtain ⟨short, hex⟩ := digits g (by simp)
  obtain ⟨b, closes, empty, closed⟩ := close_stored (P := P) (a := a.opened) rfl g
    (by omega) full
  have opens : Reads P a ['['.toUInt8] (a.opened.stored []) := .single parse_open
  have groups := Reads.groups (P := P) (a := a.opened)
    (fun h hh => digits h (List.mem_append_left _ hh)) (by omega)
  have last : Reads P (a.opened.stored front) g { a.opened.stored front with digitBuf := g } := by
    have := Reads.digits (P := P) (a := a.opened.stored front) hex (by simpa [stored] using short)
    simpa [stored] using this
  refine ⟨b, ?_, empty, closed⟩
  have all := opens.append (groups.append (last.append (.single closes)))
  rw [groupsText_append]
  simpa [groupsText] using all

theorem chunk_full (full : b.addIndex = maxIpChunks) : b.chunk = b := by
  rw [chunk, if_neg (by omega)]

theorem Reads.overfull (g : Text) (digits : ∀ h ∈ gs ++ [g], HexDigits h)
    (eight : gs.length = maxIpChunks) :
    ∃ b, Reads P a ('['.toUInt8 :: (groupsText (gs ++ [g]) ++ [']'.toUInt8])) b ∧
      b.digitBuf = g ∧ b.Closed fun i => (axntoi (gs.getD i [])).toUInt16 := by
  obtain ⟨short, hex⟩ := digits g (by simp)
  have opens : Reads P a ['['.toUInt8] (a.opened.stored []) := .single parse_open
  have groups := Reads.groups (P := P) (a := a.opened)
    (fun h hh => digits h (List.mem_append_left _ hh)) (Nat.le_of_eq eight)
  have last : Reads P (a.opened.stored gs) g { a.opened.stored gs with digitBuf := g } := by
    have := Reads.digits (P := P) (a := a.opened.stored gs) hex (by simpa [stored] using short)
    simpa [stored] using this
  have full : ({ a.opened.stored gs with digitBuf := g, valid := 2 } : AddressParser).addIndex =
      maxIpChunks := eight
  have closes : parse P { a.opened.stored gs with digitBuf := g } ']'.toUInt8 =
      some ({ a.opened.stored gs with digitBuf := g, valid := 2 }, .more) := by
    rw [parse_close (by exact Nat.one_ne_zero)]
    simp only [chunk_full full, full, if_true]
  refine ⟨{ a.opened.stored gs with digitBuf := g, valid := 2 }, ?_, rfl, rfl, eight, fun i => rfl⟩
  have all := opens.append (groups.append (last.append (.single closes)))
  rw [groupsText_append]
  simpa [groupsText] using all

theorem Closed.feed_port {words : Fin maxIpChunks → UInt16} {port : Text} (closed : b.Closed words)
    (empty : b.digitBuf = []) (digits : HexDigits port) :
    feed P (':'.toUInt8 :: (port ++ [slash])) b =
      some ({ b with digitBuf := port, port := UInt16.ofInt (antoi P port), valid := 0 },
        List.replicate (port.length + 1) .more ++ [.done]) := by
  have colon : Reads P b [':'.toUInt8] b :=
    .single (by rw [parse_colon, chunk_full closed.addIndex])
  have read := colon.append (Reads.digits (P := P) digits.2 (by simpa [empty] using digits.1))
  rw [empty, List.nil_append] at read
  have last : feed P [slash] { b with digitBuf := port } =
      some ({ b with digitBuf := port, port := UInt16.ofInt (antoi P port), valid := 0 },
        [.done]) := by
    rw [feed, parse_slash]
    simp only [closed.valid, if_true]
    rfl
  have split : ':'.toUInt8 :: (port ++ [slash]) = ([':'.toUInt8] ++ port) ++ [slash] := by simp
  unfold Reads at read
  rw [split, feed_append]
  simp only [read, last, Option.bind_some, Option.map_some]
  simp

end AddressParser
/-! ### The printer -/

def wordText (w : UInt16) : Text := hexadecimal w.toNat

/-- One word for `ipaddr_add` -/
def printWord (acc : Text × Int) (iw : Nat × UInt16) : Text × Int :=
  let (buff, f) := acc
  let (i, w) := iw
  if w = 0 ∧ f ≥ 0 then (if f = 0 then buff ++ chars [':', ':'] else buff, f + 1)
  else
    let digits := hexadecimal w.toNat
    if f > 0 then (buff ++ digits, -1)
    else if i > 0 then (buff ++ chars [':'] ++ digits, f)
    else (buff ++ digits, f)

def printFrom : Nat → List UInt16 → Text × Int → Text
  | _, [], acc => acc.1
  | i, w :: rest, acc => printFrom (i + 1) rest (printWord acc (i, w))

theorem ipaddrAdd_eq (words : List UInt16) :
    Store.ipaddrAdd words = printFrom 0 words ([], 0) := by
  have turns (words : List UInt16) (i : Nat) (acc : Text × Int) :
      (((List.range' i words.length).zip words).foldl printWord acc).1 = printFrom i words acc := by
    induction words generalizing i acc with
    | nil => rfl
    | cons w words ih => exact ih (i + 1) (printWord acc (i, w))
  rw [← turns, ← List.range_eq_range']
  rfl

theorem groupsText_flatMap (g : Text) (gs : List Text) :
    groupsText (g :: gs) = g ++ gs.flatMap (':'.toUInt8 :: ·) := by
  induction gs generalizing g with
  | nil => simp [groupsText]
  | cons h gs ih => rw [groupsText_cons, ih]; simp

theorem colons (g : Text) (gs : List Text) : (g :: gs).flatMap (· ++ [':'.toUInt8]) =
    g ++ gs.flatMap (':'.toUInt8 :: ·) ++ [':'.toUInt8] := by
  induction gs generalizing g with
  | nil => simp
  | cons h gs ih => rw [List.flatMap_cons, ih]; simp

theorem printFrom_back (words : List UInt16) {i : Nat} (inside : 0 < i) (buff : Text) :
    printFrom i words (buff, -1) =
      buff ++ (words.map wordText).flatMap (':'.toUInt8 :: ·) := by
  induction words generalizing i buff with
  | nil => simp [printFrom]
  | cons w words ih =>
    have word : printWord (buff, -1) (i, w) = (buff ++ chars [':'] ++ wordText w, -1) := by
      simp [printWord, inside, wordText]
    rw [printFrom, word, ih (Nat.succ_pos i)]
    simp [chars]

theorem printFrom_gap (words : List UInt16) (i : Nat) (buff : Text) {f : Int} (gap : 0 < f) :
    printFrom i words (buff, f) =
      buff ++ groupsText ((words.dropWhile (· = 0)).map wordText) := by
  induction words generalizing i f with
  | nil => simp [printFrom, groupsText]
  | cons w words ih =>
    rw [printFrom]
    by_cases zero : w = 0
    · have word : printWord (buff, f) (i, w) = (buff, f + 1) := by
        rw [printWord]
        simp only
        rw [if_pos ⟨zero, Int.le_of_lt gap⟩, if_neg (Int.ne_of_gt gap)]
      rw [word, ih (i + 1) (by omega), List.dropWhile_cons_of_pos (by simpa using zero)]
    · have word : printWord (buff, f) (i, w) = (buff ++ wordText w, -1) := by
        rw [printWord]
        simp only
        rw [if_neg fun h => zero h.1, if_pos gap]
        rfl
      rw [word, printFrom_back words (Nat.succ_pos i),
        List.dropWhile_cons_of_neg (by simpa using zero),
        List.map_cons, groupsText_flatMap, List.append_assoc]

def gapText (words : List UInt16) : Text :=
  if words = [] then []
  else chars [':', ':'] ++ groupsText ((words.dropWhile (· = 0)).map wordText)

theorem printFrom_front (words : List UInt16) {i : Nat} (inside : 0 < i) (buff : Text) :
    printFrom i words (buff, 0) =
      buff ++ ((words.takeWhile (· ≠ 0)).map wordText).flatMap (':'.toUInt8 :: ·) ++
        gapText (words.dropWhile (· ≠ 0)) := by
  induction words generalizing i buff with
  | nil => simp [printFrom, gapText]
  | cons w words ih =>
    rw [printFrom]
    by_cases zero : w = 0
    · subst zero
      have word : printWord (buff, 0) (i, 0) = (buff ++ chars [':', ':'], 1) := by simp [printWord]
      rw [word, printFrom_gap words _ _ (by decide)]
      simp [gapText]
    · have word : printWord (buff, 0) (i, w) = (buff ++ chars [':'] ++ wordText w, 0) := by
        simp [printWord, zero, inside, wordText]
      rw [word, ih (Nat.succ_pos i)]
      simp [zero, chars]

def orEmpty (gs : List Text) : List Text := if gs = [] then [[]] else gs

def printedGroups (words : List UInt16) : List Text :=
  let front := (words.takeWhile (· ≠ 0)).map wordText
  let gap := words.dropWhile (· ≠ 0)
  if gap = [] then front
  else orEmpty front ++ [] :: orEmpty ((gap.dropWhile (· = 0)).map wordText)

theorem groupsText_orEmpty (gs : List Text) : groupsText (orEmpty gs) = groupsText gs := by
  unfold orEmpty
  split
  · rename_i none'
    rw [none']
    rfl
  · rfl

theorem orEmpty_ne_nil (gs : List Text) : orEmpty gs ≠ [] := by
  unfold orEmpty
  split
  · exact List.cons_ne_nil _ _
  · assumption

theorem ipaddrAdd_groups (words : List UInt16) :
    Store.ipaddrAdd words = groupsText (printedGroups words) := by
  have shifted (gs : List Text) (some' : gs ≠ []) :
      groupsText ([] :: gs) = ':'.toUInt8 :: groupsText gs := by
    obtain ⟨g, rest, rfl⟩ := List.exists_cons_of_ne_nil some'
    rfl
  have behind (gs : List Text) : groupsText ([] :: orEmpty gs) = ':'.toUInt8 :: groupsText gs := by
    rw [shifted _ (orEmpty_ne_nil gs), groupsText_orEmpty]
  rw [ipaddrAdd_eq]
  cases words with
  | nil => rfl
  | cons w words =>
    rw [printFrom]
    by_cases zero : w = 0
    · subst zero
      have word : printWord ([], 0) (0, 0) = (chars [':', ':'], 1) := by simp [printWord]
      rw [word, printFrom_gap words _ _ (by decide)]
      simp only [printedGroups]
      rw [List.takeWhile_cons_of_neg (by simp), List.dropWhile_cons_of_neg (by simp),
        if_neg (List.cons_ne_nil _ _), List.dropWhile_cons_of_pos (by simp)]
      rw [show orEmpty (List.map wordText []) = [[]] from rfl, List.singleton_append,
        shifted _ (List.cons_ne_nil _ _), behind]
      rfl
    · have word : printWord ([], 0) (0, w) = (wordText w, 0) := by
        simp [printWord, zero, wordText]
      rw [word, printFrom_front words (by decide)]
      simp only [printedGroups]
      rw [List.takeWhile_cons_of_pos (by simpa using zero),
        List.dropWhile_cons_of_pos (by simpa using zero), List.map_cons]
      split
      · rename_i none'
        rw [groupsText_flatMap, none']
        simp [gapText]
      · rename_i some'
        rw [orEmpty, if_neg (List.cons_ne_nil _ _), gapText, if_neg some', groupsText_append,
          colons, behind]
        simp [chars]

def groupWord (gs : List Text) (j : Nat) : UInt16 := (axntoi (gs.getD j [])).toUInt16

theorem groupWord_map (words : List UInt16) (j : Nat) :
    groupWord (words.map wordText) j = words.getD j 0 := by
  rw [groupWord, List.getD_eq_getElem?_getD, List.getElem?_map, List.getD_eq_getElem?_getD]
  cases words[j]? with
  | none => rfl
  | some w => simp [wordText, axntoi_hexadecimal]

theorem groupWord_orEmpty (gs : List Text) (j : Nat) :
    groupWord (orEmpty gs) j = groupWord gs j := by
  unfold orEmpty
  split
  · rename_i none'
    rw [none', groupWord, groupWord]
    cases j <;> rfl
  · rfl

theorem groupWord_append (front back : List Text) (j : Nat) :
    groupWord (front ++ [] :: back) j =
      if j < front.length then groupWord front j
      else if j = front.length then 0 else groupWord back (j - front.length - 1) := by
  unfold groupWord
  split
  · rename_i inside
    rw [List.getD_append _ _ _ _ inside]
  · rename_i outside
    rw [List.getD_append_right _ _ _ _ (Nat.not_lt.mp outside)]
    split
    · rename_i last
      rw [last, Nat.sub_self]
      rfl
    · rename_i behind
      obtain ⟨k, hk⟩ : ∃ k, j - front.length = k + 1 := ⟨j - front.length - 1, by omega⟩
      rw [hk]
      rfl

theorem printed_digits (words : List UInt16) : ∀ g ∈ printedGroups words, HexDigits g := by
  have plain (ws : List UInt16) : ∀ g ∈ ws.map wordText, HexDigits g := by
    intro g hg
    obtain ⟨w, -, rfl⟩ := List.mem_map.mp hg
    exact hexDigits_word w
  have orPlain (ws : List UInt16) : ∀ g ∈ orEmpty (ws.map wordText), HexDigits g := by
    unfold orEmpty
    split
    · intro g hg
      rw [List.mem_singleton.mp hg]
      exact ⟨Nat.zero_le _, nofun⟩
    · exact plain ws
  intro g hg
  simp only [printedGroups] at hg
  split at hg
  · exact plain _ g hg
  · rcases List.mem_append.mp hg with front | back
    · exact orPlain _ g front
    · rcases List.mem_cons.mp back with rfl | back
      · exact ⟨Nat.zero_le _, nofun⟩
      · exact orPlain _ g back

theorem split_gap (words : List UInt16) :
    (words.dropWhile (· ≠ 0) = [] ∧ words.takeWhile (· ≠ 0) = words) ∨
      ∃ front n back, words = front ++ (0 :: List.replicate n 0) ++ back ∧ 0 ∉ front ∧
        0 ∉ back.head? ∧
        printedGroups words =
          orEmpty (front.map wordText) ++ [] :: orEmpty (back.map wordText) := by
  by_cases none' : words.dropWhile (· ≠ 0) = []
  · refine .inl ⟨none', ?_⟩
    have := List.takeWhile_append_dropWhile (p := (· ≠ (0 : UInt16))) (l := words)
    rwa [none', List.append_nil] at this
  · have front := List.takeWhile_append_dropWhile (p := (· ≠ (0 : UInt16))) (l := words)
    obtain ⟨w, rest, e⟩ := List.exists_cons_of_ne_nil none'
    have zero : w = 0 := by
      have first := List.head_dropWhile_not (· ≠ (0 : UInt16)) none'
      simp only [e, List.head_cons] at first
      simpa using first
    subst zero
    have run : (rest.takeWhile (· = 0)) = List.replicate (rest.takeWhile (· = 0)).length 0 :=
      List.eq_replicate_iff.mpr ⟨rfl, fun w hw => by simpa using List.mem_takeWhile_imp hw⟩
    refine .inr ⟨words.takeWhile (· ≠ 0), (rest.takeWhile (· = 0)).length,
      rest.dropWhile (· = 0), ?_, fun h => ?_, fun h => ?_, ?_⟩
    · rw [← run, List.append_assoc, List.cons_append, List.takeWhile_append_dropWhile, ← e, front]
    · simpa using List.mem_takeWhile_imp h
    · have := List.head?_dropWhile_not (· = (0 : UInt16)) rest
      rw [show (rest.dropWhile (· = 0)).head? = some 0 from h] at this
      simp at this
    · simp only [printedGroups]
      rw [if_neg none', e, List.dropWhile_cons_of_pos (by simp)]

theorem length_orEmpty (gs : List Text) : (orEmpty gs).length = max gs.length 1 := by
  unfold orEmpty
  split
  · rename_i none'
    rw [none']
    rfl
  · rename_i some'
    have := List.length_pos_iff.mpr some'
    omega

theorem wordText_filled (words : List UInt16) : ∀ g ∈ words.map wordText, g ≠ [] := by
  intro g hg
  obtain ⟨w, -, rfl⟩ := List.mem_map.mp hg
  exact hexadecimal_ne_nil _

theorem lastEmpty_printed (front back : List UInt16) :
    lastEmpty (orEmpty (front.map wordText) ++ [] :: orEmpty (back.map wordText)) =
      max front.length 1 + if back = [] then 1 else 0 := by
  have size : (orEmpty (front.map wordText)).length = max front.length 1 := by
    rw [length_orEmpty, List.length_map]
  split
  · rename_i none'
    subst none'
    rw [show orEmpty (List.map wordText []) = [[]] from rfl, List.append_cons, lastEmpty_append,
      if_pos rfl, List.length_append, size]
    rfl
  · rename_i some'
    have filled : orEmpty (back.map wordText) = back.map wordText :=
      if_neg (by simpa using some')
    rw [filled, lastEmpty_at _ _ (wordText_filled back), size]
    rfl

theorem getD_gap (front back : List UInt16) (n i : Nat) :
    (front ++ (0 :: List.replicate n 0) ++ back).getD i 0 =
      if i < front.length then front.getD i 0
      else if i < front.length + (n + 1) then 0
      else back.getD (i - (front.length + (n + 1))) 0 := by
  have length : (front ++ (0 :: List.replicate n 0)).length = front.length + (n + 1) := by simp
  by_cases before : i < front.length + (n + 1)
  · rw [List.getD_append _ _ _ _ (by rw [length]; exact before)]
    split
    · rename_i inside
      rw [List.getD_append _ _ _ _ inside]
    · rename_i outside
      rw [List.getD_append_right _ _ _ _ (Nat.not_lt.mp outside), ← List.replicate_succ,
        List.getD_eq_getElem?_getD, List.getElem?_replicate]
      split <;> rfl
  · rw [List.getD_append_right _ _ _ _ (by rw [length]; omega), length, if_neg (by omega),
      if_neg before]

theorem printed_words {front back : List UInt16} {n : Nat}
    (eight : front.length + (n + 1) + back.length = maxIpChunks)
    (room : max front.length 1 + (max back.length 1 + 1) ≤ maxIpChunks) {i : Nat}
    (inside : i < maxIpChunks) :
    groupWord (orEmpty (front.map wordText) ++ [] :: orEmpty (back.map wordText))
        (AddressParser.groupIndex
          (orEmpty (front.map wordText) ++ [] :: orEmpty (back.map wordText)) i) =
      (front ++ (0 :: List.replicate n 0) ++ back).getD i 0 := by
  have size (ws : List UInt16) : (orEmpty (ws.map wordText)).length = max ws.length 1 := by
    rw [length_orEmpty, List.length_map]
  have count : (orEmpty (front.map wordText) ++ [] :: orEmpty (back.map wordText)).length =
      max front.length 1 + (max back.length 1 + 1) := by
    rw [List.length_append, List.length_cons, size, size]
  have front_out {j : Nat} (h : front.length ≤ j) : front.getD j 0 = 0 :=
    List.getD_eq_default _ _ h
  have back_out {j : Nat} (h : back.length ≤ j) : back.getD j 0 = 0 :=
    List.getD_eq_default _ _ h
  have empty : (if back = [] then 1 else 0) = 1 - min back.length 1 := by
    cases back <;> simp
  have eight' : maxIpChunks = 8 := rfl
  have first : max front.length 1 = front.length ∨ front.length = 0 ∧ max front.length 1 = 1 := by
    omega
  have last : max back.length 1 = back.length ∧ 1 - min back.length 1 = 0 ∨
      back.length = 0 ∧ max back.length 1 = 1 ∧ 1 - min back.length 1 = 1 := by
    omega
  have cases := AddressParser.groupIndex_cases
    (orEmpty (front.map wordText) ++ [] :: orEmpty (back.map wordText)) i
  rw [count, lastEmpty_printed, empty] at cases
  rw [getD_gap, groupWord_append, size, groupWord_orEmpty, groupWord_orEmpty, groupWord_map,
    groupWord_map]
  generalize AddressParser.groupIndex
    (orEmpty (front.map wordText) ++ [] :: orEmpty (back.map wordText)) i = j at cases ⊢
  generalize max front.length 1 = b at *
  generalize max back.length 1 = e at *
  generalize 1 - min back.length 1 = d at *
  rcases cases with ⟨h, rfl⟩ | ⟨h, h', rfl⟩ | ⟨h, rfl⟩
  · by_cases front' : j < b
    · rw [if_pos front']
      by_cases word : j < front.length
      · rw [if_pos word]
      · rw [if_neg word, if_pos (by omega), front_out (Nat.not_lt.mp word)]
    · rw [if_neg front', if_pos (by omega), if_neg (by omega), if_pos (by omega)]
  · rw [if_neg (by omega), if_neg (by omega : ¬i < front.length),
      if_pos (by omega : i < front.length + (n + 1))]
    split
    · rfl
    · exact back_out (by omega)
  · rw [if_neg (by omega), if_neg (by omega), if_neg (by omega), if_neg (by omega)]
    congr 1
    omega

/-! ### Round trip -/

namespace AddressParser
variable {P : Platform} {a b : AddressParser} {t : Text}

theorem parse_full {c : UInt8} {status : AddressStatus} (full : a.addIndex = maxIpChunks)
    (other : c ≠ '['.toUInt8) (h : a.parse P c = some (b, status)) :
    b.addIndex = maxIpChunks ∧ b.address = a.address := by
  rw [parse, if_neg other] at h
  split_ifs at h
  · cases h
    rw [chunk_full full]
    exact ⟨full, rfl⟩
  · cases h
    exact ⟨full, rfl⟩
  · cases h
    exact ⟨full, rfl⟩
  · cases h
    exact ⟨full, rfl⟩
  · have same : chunk { a with valid := 2 } = { a with valid := 2 } := chunk_full full
    simp only [same] at h
    rw [if_pos full] at h
    cases h
    exact ⟨full, rfl⟩
  · simp only at h
    split_ifs at h
    · cases h
      exact ⟨full, rfl⟩
    · cases h
      exact ⟨full, rfl⟩
  · cases h
    exact ⟨full, rfl⟩

theorem feed_full {results : List AddressStatus} (full : a.addIndex = maxIpChunks)
    (other : '['.toUInt8 ∉ t) (h : feed P t a = some (b, results)) : b.address = a.address := by
  induction t generalizing a results with
  | nil =>
    cases h
    rfl
  | cons c t ih =>
    obtain ⟨⟨d, status⟩, parsed, rest⟩ := Option.bind_eq_some_iff.mp h
    obtain ⟨⟨b', later⟩, fed, e⟩ := Option.map_eq_some_iff.mp rest
    cases e
    have step := parse_full full (fun e => other (e ▸ List.mem_cons_self)) parsed
    rw [ih step.1 (fun hm => other (List.mem_cons_of_mem _ hm)) fed, step.2]

end AddressParser

instance : NeZero maxIpChunks := ⟨by decide⟩

def addressText (words : Fin maxIpChunks → UInt16) (port : UInt16) : Text :=
  '['.toUInt8 :: (Store.ipaddrAdd (List.ofFn words) ++ ']'.toUInt8 :: ':'.toUInt8 ::
    (decimal port.toNat ++ [slash]))

/-- An address that is printed is read back, from one state of the parser on. -/
def RoundTrips (P : Platform) (a : AddressParser) (words : Fin maxIpChunks → UInt16)
    (port : UInt16) : Prop :=
  ∃ b, AddressParser.feed P (addressText words port) a =
      some (b, List.replicate ((addressText words port).length - 1) .more ++ [.done]) ∧
    (∀ i : Fin maxIpChunks, b.address i = words i) ∧ b.port = port

theorem length_printed (front back : List UInt16) :
    (orEmpty (front.map wordText) ++ [] :: orEmpty (back.map wordText)).length =
      max front.length 1 + (max back.length 1 + 1) := by
  rw [List.length_append, List.length_cons, length_orEmpty, length_orEmpty, List.length_map,
    List.length_map]

theorem roundTrips_closed {P : Platform} {a b : AddressParser} {words : Fin maxIpChunks → UInt16}
    {port : UInt16}
    (read : AddressParser.Reads P a ('['.toUInt8 :: (Store.ipaddrAdd (List.ofFn words) ++
      [']'.toUInt8])) b)
    (empty : b.digitBuf = []) (closed : b.Closed words) : RoundTrips P a words port := by
  have digits := hexDigits_decimal port.toNat_lt
  have behind := closed.feed_port (P := P) empty digits
  have value : UInt16.ofInt (antoi P (decimal port.toNat)) = port := by
    rw [antoi_literal P (decimal_literal _), decimalValue_decimal, P.ofInt_int,
      ofInt_nat port.toNat_lt, UInt16.ofNat_toNat]
  have split : addressText words port = ('['.toUInt8 :: (Store.ipaddrAdd (List.ofFn words) ++
      [']'.toUInt8])) ++ (':'.toUInt8 :: (decimal port.toNat ++ [slash])) := by
    simp [addressText]
  refine ⟨{ b with
    digitBuf := decimal port.toNat, port := UInt16.ofInt (antoi P (decimal port.toNat)),
    valid := 0 }, ?_, closed.address, value⟩
  unfold AddressParser.Reads at read
  rw [split, AddressParser.feed_append]
  simp only [read, behind, Option.bind_some, Option.map_some]
  rw [← List.append_assoc, List.replicate_append_replicate]
  congr 4
  simp
  omega

theorem RoundTrips.words_eq {P : Platform} {a b : AddressParser}
    {words words' : Fin maxIpChunks → UInt16} {port : UInt16} (h : RoundTrips P a words port)
    (read : AddressParser.Reads P a ('['.toUInt8 :: (Store.ipaddrAdd (List.ofFn words) ++
      [']'.toUInt8])) b)
    (closed : b.Closed words') : words = words' := by
  obtain ⟨d, fed, address, -⟩ := h
  have split : addressText words port = ('['.toUInt8 :: (Store.ipaddrAdd (List.ofFn words) ++
      [']'.toUInt8])) ++ (':'.toUInt8 :: (decimal port.toNat ++ [slash])) := by
    simp [addressText]
  have other : '['.toUInt8 ∉ ':'.toUInt8 :: (decimal port.toNat ++ [slash]) := by
    simp only [List.mem_cons, List.mem_append, List.not_mem_nil, or_false, not_or]
    refine ⟨by decide, fun digit => ?_, by decide⟩
    have := (decimal_literal port.toNat).2 _ digit
    revert this
    decide
  unfold AddressParser.Reads at read
  rw [split, AddressParser.feed_append, read, Option.bind_some] at fed
  obtain ⟨⟨d', later⟩, rest, e⟩ := Option.map_eq_some_iff.mp fed
  obtain rfl : d' = d := congrArg Prod.fst e
  funext i
  rw [← address i, AddressParser.feed_full closed.addIndex other rest, closed.address i]

theorem getD_ofFn (words : Fin maxIpChunks → UInt16) (i : Fin maxIpChunks) :
    (List.ofFn words).getD i 0 = words i := by
  rw [List.getD_eq_getElem _ _ (by rw [List.length_ofFn]; exact i.isLt), List.getElem_ofFn]

theorem roundTrips_whole (P : Platform) (a : AddressParser) {words : Fin maxIpChunks → UInt16}
    (port : UInt16) (none' : (List.ofFn words).dropWhile (· ≠ 0) = [])
    (whole : (List.ofFn words).takeWhile (· ≠ 0) = List.ofFn words) :
    RoundTrips P a words port ∧ words 0 ≠ 0 := by
  have printed := printed_digits (List.ofFn words)
  have text := ipaddrAdd_groups (List.ofFn words)
  have groups : printedGroups (List.ofFn words) = (List.ofFn words).map wordText := by
    simp only [printedGroups]
    rw [if_pos none', whole]
  rw [groups] at printed text
  have eight : ((List.ofFn words).map wordText).length = maxIpChunks := by
    rw [List.length_map, List.length_ofFn]
  obtain ⟨b, read, empty, closed⟩ := AddressParser.Reads.bracketed (P := P) (a := a)
    (by rw [← List.length_pos_iff, eight]; decide) printed (Nat.le_of_eq eight) (.inl eight)
  have same (i : Fin maxIpChunks) : groupWord ((List.ofFn words).map wordText)
      (AddressParser.groupIndex ((List.ofFn words).map wordText) i) = words i := by
    rw [groupWord_map, ← getD_ofFn words i]
    congr 1
    have := AddressParser.groupIndex_cases ((List.ofFn words).map wordText) i
    omega
  refine ⟨roundTrips_closed (text ▸ read) empty (closed.congr same), fun zero => ?_⟩
  have member : (0 : UInt16) ∈ List.ofFn words := List.mem_ofFn.mpr ⟨0, zero⟩
  rw [← whole] at member
  simpa using List.mem_takeWhile_imp member

structure Gap (words : Fin maxIpChunks → UInt16) (front : List UInt16) (n : Nat)
    (back : List UInt16) : Prop where
  split : List.ofFn words = front ++ (0 :: List.replicate n 0) ++ back
  clear : 0 ∉ front
  head : 0 ∉ back.head?
  groups : printedGroups (List.ofFn words) =
    orEmpty (front.map wordText) ++ [] :: orEmpty (back.map wordText)

namespace Gap
variable {words : Fin maxIpChunks → UInt16} {front back : List UInt16} {n : Nat} {w : UInt16}

theorem size (h : Gap words front n back) : front.length + (n + 1) + back.length = maxIpChunks := by
  rw [← List.length_ofFn (f := words), h.split]
  simp
  omega

theorem word (h : Gap words front n back) (i : Fin maxIpChunks) :
    words i = (front ++ (0 :: List.replicate n 0) ++ back).getD i 0 := by
  rw [← getD_ofFn words i, h.split]

theorem first_ne (h : Gap words (w :: front) n back) : words 0 ≠ 0 := by
  intro zero
  rw [h.word 0] at zero
  exact absurd (by rw [← zero]; exact List.mem_cons_self) h.clear

theorem roundTrips_room (h : Gap words front n back) (P : Platform) (a : AddressParser)
    (port : UInt16) (room : max front.length 1 + (max back.length 1 + 1) ≤ maxIpChunks) :
    RoundTrips P a words port ∧ (words 0 = 0 → words 1 = 0) := by
  have size := h.size
  have printed := printed_digits (List.ofFn words)
  have text := ipaddrAdd_groups (List.ofFn words)
  rw [h.groups] at printed text
  have filled : orEmpty (front.map wordText) ++ [] :: orEmpty (back.map wordText) ≠ [] := by simp
  have full :
      lastEmpty (orEmpty (front.map wordText) ++ [] :: orEmpty (back.map wordText)) ≠ 0 := by
    rw [lastEmpty_printed]
    omega
  have eight : maxIpChunks = 8 := rfl
  obtain ⟨b, read, empty, closed⟩ :=
    AddressParser.Reads.bracketed (P := P) (a := a) filled printed
    (by rw [length_printed]; exact room) (.inr full)
  refine ⟨roundTrips_closed (text ▸ read) empty
    (closed.congr fun i => (printed_words size room i.isLt).trans (h.word i).symm), fun zero => ?_⟩
  cases front with
  | nil =>
    obtain ⟨m, rfl⟩ : ∃ m, n = m + 1 := ⟨n - 1, by simp at size room; omega⟩
    rw [h.word 1]
    rfl
  | cons w front => exact absurd zero h.first_ne

theorem roundTrips_behind (h : Gap words [] n back) (P : Platform) (a : AddressParser)
    (port : UInt16) (seven : back.length = 7) :
    RoundTrips P a words port ↔ (words 0 = 0 → words 1 = 0) := by
  have size := h.size
  have eight : maxIpChunks = 8 := rfl
  have printed := printed_digits (List.ofFn words)
  have text := ipaddrAdd_groups (List.ofFn words)
  rw [h.groups] at printed text
  obtain ⟨init, w, rfl⟩ : ∃ init w, back = init ++ [w] :=
    ⟨back.dropLast, back.getLast (by rintro rfl; cases seven),
      (List.dropLast_append_getLast _).symm⟩
  have shape : orEmpty (List.map wordText []) ++ [] :: orEmpty ((init ++ [w]).map wordText) =
      ([] :: [] :: init.map wordText) ++ [wordText w] := by
    simp [orEmpty]
  rw [shape] at printed text
  obtain ⟨b, read, -, closed⟩ := AddressParser.Reads.overfull (P := P) (a := a) _ printed
    (by simp at seven ⊢; omega)
  refine ⟨fun trips _ => congrFun (trips.words_eq (text ▸ read) closed) 1, fun zeros => ?_⟩
  have second := zeros (by rw [h.word 0]; rfl)
  obtain ⟨rfl⟩ : n = 0 := by simp at size seven; omega
  rw [h.word 1] at second
  have head := h.head
  cases init with
  | nil => cases seven
  | cons v init => exact absurd (by rw [← second]; rfl) head

theorem roundTrips_front (h : Gap words (w :: front) 0 []) (P : Platform) (a : AddressParser)
    (port : UInt16) (six : front.length = 6) : RoundTrips P a words port := by
  have size : (w :: front).length = 7 := by simp [six]
  have eight : maxIpChunks = 8 := rfl
  have printed := printed_digits (List.ofFn words)
  have text := ipaddrAdd_groups (List.ofFn words)
  rw [h.groups] at printed text
  have shape : orEmpty ((w :: front).map wordText) ++ [] :: orEmpty (List.map wordText []) =
      ((w :: front).map wordText ++ [[]]) ++ [[]] := by
    simp [orEmpty]
  rw [shape] at printed text
  obtain ⟨b, read, empty, closed⟩ := AddressParser.Reads.overfull (P := P) (a := a) _ printed
    (by simp [six]; rfl)
  have same (i : Fin maxIpChunks) :
      groupWord ((w :: front).map wordText ++ [[]]) i = words i := by
    rw [h.word i, getD_gap, groupWord_append, groupWord_map, List.length_map]
    have := i.isLt
    split
    · rfl
    · rw [if_pos (by simp [six]; omega), if_pos (by simp [six]; omega)]
  exact roundTrips_closed (text ▸ read) empty (closed.congr same)

end Gap

/-- An address is read back unless its first word is zero and its second is not. -/
theorem roundTrips_iff (P : Platform) (a : AddressParser) (words : Fin maxIpChunks → UInt16)
    (port : UInt16) : RoundTrips P a words port ↔ (words 0 = 0 → words 1 = 0) := by
  rcases split_gap (List.ofFn words) with
    ⟨none', whole⟩ | ⟨front, n, back, split, clear, head, groups⟩
  · obtain ⟨trips, nonzero⟩ := roundTrips_whole P a port none' whole
    exact iff_of_true trips fun zero => absurd zero nonzero
  have gap : Gap words front n back := ⟨split, clear, head, groups⟩
  have size := gap.size
  have eight : maxIpChunks = 8 := rfl
  by_cases room : max front.length 1 + (max back.length 1 + 1) ≤ maxIpChunks
  · obtain ⟨trips, zeros⟩ := gap.roundTrips_room P a port room
    exact iff_of_true trips zeros
  cases front with
  | nil => exact gap.roundTrips_behind P a port (by simp at size room; omega)
  | cons w front =>
    obtain ⟨six, none', rfl⟩ : front.length = 6 ∧ back.length = 0 ∧ n = 0 := by
      simp at size room
      omega
    obtain rfl : back = [] := List.length_eq_zero_iff.mp none'
    exact iff_of_true (gap.roundTrips_front P a port six) fun zero => absurd zero gap.first_ne

/-- The address `0:1:1:1:1:1:1:1` is read as another one, with another port. -/
theorem roundTrips_lost : ¬ ∀ (P : Platform) (a : AddressParser)
    (words : Fin maxIpChunks → UInt16) (port : UInt16), RoundTrips P a words port := by
  intro h
  obtain ⟨b, fed, address, -⟩ := h .plain .init (fun i => if i = 0 then 0 else 1) 80
  have second : (AddressParser.feed .plain (addressText (fun i => if i = 0 then 0 else 1) 80)
      .init).map (fun r => r.1.address 1) = some 0 := by
    decide +kernel
  rw [fed] at second
  have zero : b.address 1 = 0 := Option.some.inj second
  exact absurd ((address 1).symm.trans zero) (by decide)

end EmmaNode

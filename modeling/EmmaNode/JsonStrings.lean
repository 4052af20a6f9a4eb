import EmmaNode.Platform

/-! Arrays of strings in JSON: the values a text stands for, none when it is malformed. White
space may stand around each part; a string may escape any character, and must escape quotes,
backslashes and control characters. -/

namespace EmmaNode
namespace JsonStrings

def quote : UInt8 := '"'.toUInt8

def backslash : UInt8 := '\\'.toUInt8

def comma : UInt8 := ','.toUInt8

def opening : UInt8 := '['.toUInt8

def closing : UInt8 := ']'.toUInt8

/-- A byte that stands for itself in a string -/
def Plain (c : UInt8) : Prop := 0x20 ≤ c ∧ c ≠ quote ∧ c ≠ backslash

instance (c : UInt8) : Decidable (Plain c) := inferInstanceAs (Decidable (_ ∧ _ ∧ _))

def escapes : List (UInt8 × UInt8) :=
  [(quote, quote), (backslash, backslash), ('/'.toUInt8, '/'.toUInt8), ('b'.toUInt8, 8),
    ('f'.toUInt8, 12), ('n'.toUInt8, 10), ('r'.toUInt8, 13), ('t'.toUInt8, 9)]

def hexDigit (c : UInt8) : Option Nat :=
  if '0'.toUInt8 ≤ c ∧ c ≤ '9'.toUInt8 then some (c.toNat - 48)
  else if 'a'.toUInt8 ≤ c ∧ c ≤ 'f'.toUInt8 then some (c.toNat - 87)
  else if 'A'.toUInt8 ≤ c ∧ c ≤ 'F'.toUInt8 then some (c.toNat - 55)
  else none

def utf8 (n : Nat) : Text :=
  if n < 0x80 then [.ofNat n]
  else if n < 0x800 then [.ofNat (0xC0 + n / 64), .ofNat (0x80 + n % 64)]
  else [.ofNat (0xE0 + n / 4096), .ofNat (0x80 + n / 64 % 64), .ofNat (0x80 + n % 64)]

def codeUnit (a b c d : UInt8) : Option Text :=
  match hexDigit a, hexDigit b, hexDigit c, hexDigit d with
  | some a, some b, some c, some d => some (utf8 (((a * 16 + b) * 16 + c) * 16 + d))
  | _, _, _, _ => none

def escaped : Text → Option (Text × Text)
  | [] => none
  | e :: rest =>
    if e = 'u'.toUInt8 then
      match rest with
      | a :: b :: c :: d :: rest => (codeUnit a b c d).map fun bytes => (bytes, rest)
      | _ => none
    else (escapes.lookup e).map fun c => ([c], rest)

def character (c : UInt8) (rest : Text) : Option (Text × Text) :=
  if c < 0x20 then none
  else if c = backslash then escaped rest
  else some ([c], rest)

def string : Nat → Text → Option (Text × Text)
  | 0, _ => none
  | _ + 1, [] => none
  | fuel + 1, c :: rest =>
    if c = quote then some ([], rest)
    else
      match character c rest with
      | none => none
      | some (bytes, rest) =>
        match string fuel rest with
        | none => none
        | some (value, rest) => some (bytes ++ value, rest)

def blank (c : UInt8) : Bool := c = 0x20 || c = 9 || c = 10 || c = 13

def skip (text : Text) : Text := text.dropWhile blank

def elements : Nat → Text → Option (List Text × Text)
  | 0, _ => none
  | fuel + 1, text =>
    match skip text with
    | [] => none
    | c :: rest =>
      if c = quote then
        match string rest.length rest with
        | none => none
        | some (value, rest) =>
          match skip rest with
          | [] => none
          | c :: rest =>
            if c = closing then some ([value], rest)
            else if c = comma then
              match elements fuel rest with
              | some (values, rest) => some (value :: values, rest)
              | none => none
            else none
      else none

def read (text : Text) : Option (List Text) :=
  match skip text with
  | [] => none
  | c :: rest =>
    if c = opening then
      match skip rest with
      | [] => none
      | c :: last =>
        if c = closing then if skip last = [] then some [] else none
        else
          match elements text.length (c :: last) with
          | some (values, last) => if skip last = [] then some values else none
          | none => none
    else none

def quoted (s : Text) : Text := quote :: (s ++ [quote])

theorem string_plain {s : Text} (plain : ∀ c ∈ s, Plain c) (rest : Text) {fuel : Nat}
    (enough : s.length < fuel) : string fuel (s ++ quote :: rest) = some (s, rest) := by
  induction s generalizing fuel with
  | nil =>
    obtain ⟨fuel, rfl⟩ : ∃ m, fuel = m + 1 := ⟨fuel - 1, by omega⟩
    rfl
  | cons c s ih =>
    obtain ⟨fuel, rfl⟩ : ∃ m, fuel = m + 1 := ⟨fuel - 1, by omega⟩
    rw [List.length_cons] at enough
    obtain ⟨⟨high, noQuote, noBackslash⟩, others⟩ := List.forall_mem_cons.mp plain
    have here : character c (s ++ quote :: rest) = some ([c], s ++ quote :: rest) := by
      rw [character, if_neg (UInt8.not_lt.mpr high), if_neg noBackslash]
    rw [List.cons_append, string, if_neg noQuote]
    simp only [here, ih others (by omega : s.length < fuel)]
    rfl

theorem skip_blank {c : UInt8} (h : blank c = true) (rest : Text) : skip (c :: rest) = skip rest :=
  List.dropWhile_cons_of_pos h

theorem skip_other {c : UInt8} (h : blank c = false) (rest : Text) :
    skip (c :: rest) = c :: rest := List.dropWhile_cons_of_neg (by simp [h])

theorem elements_quoted {s : Text} {names : List Text} (plain : ∀ n ∈ s :: names, ∀ c ∈ n, Plain c)
    (rest : Text) {fuel : Nat} (enough : names.length < fuel) :
    elements fuel (quoted s ++ names.flatMap (fun n => comma :: quoted n) ++ closing :: rest) =
      some (s :: names, rest) := by
  induction names generalizing s fuel with
  | nil =>
    obtain ⟨fuel, rfl⟩ : ∃ m, fuel = m + 1 := ⟨fuel - 1, by omega⟩
    have here := string_plain (plain s (.head _)) (closing :: rest)
      (by simp : s.length < (s ++ quote :: closing :: rest).length)
    have text : quoted s ++ ([] : List Text).flatMap (fun n => comma :: quoted n) ++
        closing :: rest = quote :: (s ++ quote :: closing :: rest) := by
      simp [quoted]
    rw [text, elements, skip_other rfl]
    simp only [here, skip_other (c := closing) rfl, if_true]
  | cons n names ih =>
    obtain ⟨fuel, rfl⟩ : ∃ m, fuel = m + 1 := ⟨fuel - 1, by omega⟩
    rw [List.length_cons] at enough
    obtain ⟨first, others⟩ := List.forall_mem_cons.mp plain
    have further := ih others (by omega : names.length < fuel)
    have text : quoted s ++ (n :: names).flatMap (fun n => comma :: quoted n) ++ closing :: rest =
        quote :: (s ++ quote :: comma :: (quoted n ++
          names.flatMap (fun n => comma :: quoted n) ++ closing :: rest)) := by
      simp [quoted]
    have other : comma ≠ closing := by decide
    rw [text, elements, skip_other rfl]
    have here := string_plain first (comma :: (quoted n ++
      names.flatMap (fun n => comma :: quoted n) ++ closing :: rest))
      (by simp : s.length < (s ++ quote :: comma :: (quoted n ++
        names.flatMap (fun n => comma :: quoted n) ++ closing :: rest)).length)
    simp only [here, skip_other (c := comma) rfl, if_true, if_neg other, further]

theorem read_quoted {s : Text} {names : List Text}
    (plain : ∀ n ∈ s :: names, ∀ c ∈ n, Plain c) :
    read (opening :: 0x20 :: (quoted s ++ names.flatMap (fun n => comma :: quoted n) ++
      [closing])) = some (s :: names) := by
  have enough : names.length < (opening :: 0x20 :: (quoted s ++
      names.flatMap (fun n => comma :: quoted n) ++ [closing])).length := by
    have each : names.length ≤ (names.flatMap fun n => comma :: quoted n).length := by
      clear plain
      induction names with
      | nil => exact Nat.le_refl 0
      | cons n names ih =>
        rw [List.length_cons, List.flatMap_cons, List.length_append, List.length_cons]
        omega
    simp only [List.length_cons, List.length_append]
    omega
  have parsed := elements_quoted plain [] enough
  rw [read, skip_other rfl]
  simp only [if_true, skip_blank (c := 0x20) rfl]
  have first : skip (quoted s ++ names.flatMap (fun n => comma :: quoted n) ++ [closing]) =
      quote :: (s ++ [quote] ++ names.flatMap (fun n => comma :: quoted n) ++ [closing]) := by
    rw [quoted, List.cons_append, List.cons_append, skip_other rfl]
  have other : quote ≠ closing := by decide
  rw [first]
  simp only [if_neg other]
  have again : quote :: (s ++ [quote] ++ names.flatMap (fun n => comma :: quoted n) ++ [closing]) =
      quoted s ++ names.flatMap (fun n => comma :: quoted n) ++ closing :: [] := by
    simp [quoted]
  rw [again, parsed]
  rfl

theorem mem_skip {c : UInt8} {text : Text} (other : blank c = false) (h : c ∈ text) :
    c ∈ skip text := by
  induction text with
  | nil => cases h
  | cons d rest ih =>
    cases hd : blank d with
    | true =>
      rw [skip_blank hd]
      refine ih ((List.mem_cons.mp h).resolve_left ?_)
      rintro rfl
      rw [other] at hd
      cases hd
    | false => rwa [skip_other hd]

theorem zero_mem_escaped {text bytes rest : Text} (parsed : escaped text = some (bytes, rest))
    (h : 0 ∈ text) : 0 ∈ rest := by
  cases text with
  | nil => cases h
  | cons e tail =>
    have behind : 0 ∈ tail ∨ e = 0 := (List.mem_cons.mp h).symm.imp id Eq.symm
    simp only [escaped] at parsed
    split at parsed
    · rename_i isU
      have inside : 0 ∈ tail := behind.resolve_right (by rw [isU]; decide)
      split at parsed
      · rename_i a b c d last
        obtain ⟨_, unit, e'⟩ := Option.map_eq_some_iff.mp parsed
        cases e'
        have noDigit : hexDigit 0 = none := by decide
        simp only [List.mem_cons] at inside
        rcases inside with rfl | rfl | rfl | rfl | inside
        · simp [codeUnit, noDigit] at unit
        · simp [codeUnit, noDigit] at unit
        · simp [codeUnit, noDigit] at unit
        · simp [codeUnit, noDigit] at unit
        · exact inside
      · cases parsed
    · obtain ⟨_, found, e'⟩ := Option.map_eq_some_iff.mp parsed
      cases e'
      refine behind.resolve_right ?_
      rintro rfl
      have noEscape : escapes.lookup 0 = none := by decide
      rw [noEscape] at found
      cases found

theorem zero_mem_string {fuel : Nat} {text value rest : Text}
    (parsed : string fuel text = some (value, rest)) (h : 0 ∈ text) : 0 ∈ rest := by
  induction fuel generalizing text value with
  | zero => cases parsed
  | succ fuel ih =>
    cases text with
    | nil => cases h
    | cons c tail =>
      have behind : 0 ∈ tail ∨ c = 0 := (List.mem_cons.mp h).symm.imp id Eq.symm
      rw [string] at parsed
      split at parsed
      · rename_i closed
        cases parsed
        exact behind.resolve_right (by rw [closed]; decide)
      · split at parsed
        · cases parsed
        · rename_i bytes further one
          split at parsed
          · cases parsed
          · rename_i value' last rest'
            cases parsed
            refine ih rest' ?_
            rw [character] at one
            split_ifs at one with control isEscape
            · exact zero_mem_escaped one (behind.resolve_right (by rw [isEscape]; decide))
            · cases one
              refine behind.resolve_right ?_
              rintro rfl
              exact control (by decide)

theorem zero_mem_elements {fuel : Nat} {text rest : Text} {values : List Text}
    (parsed : elements fuel text = some (values, rest)) (h : 0 ∈ text) : 0 ∈ rest := by
  induction fuel generalizing text values with
  | zero => cases parsed
  | succ fuel ih =>
    have inside := mem_skip (c := 0) rfl h
    rw [elements] at parsed
    generalize skip text = started at parsed inside
    cases started with
    | nil => cases inside
    | cons c tail =>
      simp only at parsed
      split at parsed
      · rename_i isQuote
        have behind : 0 ∈ tail := (List.mem_cons.mp inside).resolve_left (by rw [isQuote]; decide)
        split at parsed
        · cases parsed
        · rename_i value further one
          have after := mem_skip (c := 0) rfl (zero_mem_string one behind)
          generalize skip further = next at parsed after
          cases next with
          | nil => cases after
          | cons d last =>
            simp only at parsed
            split_ifs at parsed with closed more
            · cases parsed
              exact (List.mem_cons.mp after).resolve_left (by rw [closed]; decide)
            · have left : 0 ∈ last :=
                (List.mem_cons.mp after).resolve_left (by rw [more]; decide)
              split at parsed
              · rename_i values' last' rest'
                cases parsed
                exact ih rest' left
              · cases parsed
      · cases parsed

theorem read_zero {text : Text} (h : 0 ∈ text) : read text = none := by
  have inside := mem_skip (c := 0) rfl h
  rw [read]
  generalize skip text = started at inside
  cases started with
  | nil => cases inside
  | cons c tail =>
    simp only
    split
    · rename_i isOpening
      have behind := mem_skip (c := 0) rfl
        ((List.mem_cons.mp inside).resolve_left (by rw [isOpening]; decide))
      generalize skip tail = next at behind
      cases next with
      | nil => rfl
      | cons d last =>
        simp only
        split
        · rename_i closed
          have left := mem_skip (c := 0) rfl
            ((List.mem_cons.mp behind).resolve_left (by rw [closed]; decide))
          rw [if_neg (List.ne_nil_of_mem left)]
        · split
          · rename_i values rest parsed
            have left := mem_skip (c := 0) rfl (zero_mem_elements parsed behind)
            rw [if_neg (List.ne_nil_of_mem left)]
          · rfl
    · rfl

end JsonStrings
end EmmaNode

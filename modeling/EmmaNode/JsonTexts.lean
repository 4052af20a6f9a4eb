import EmmaNode.JsonStrings

/-! Texts in JSON without white space: values, and the parts of arrays and objects between
their brackets. What stands in strings is a parameter; the indices bound how deep objects and
arrays are nested. -/

namespace EmmaNode
namespace JsonText

/-- White space between the parts of a text -/
def Blanks (w : Text) : Prop := ∀ c ∈ w, c = ' '.toUInt8 ∨ c = 9 ∨ c = 10 ∨ c = 13

def colon : UInt8 := ':'.toUInt8

def openBrace : UInt8 := '{'.toUInt8

def closeBrace : UInt8 := '}'.toUInt8

open JsonStrings (comma opening closing quoted)

def content (s : Text) : Option Text :=
  match JsonStrings.string (s.length + 1) (s ++ [JsonStrings.quote]) with
  | some (value, []) => some value
  | _ => none

def isDigit (c : UInt8) : Bool := '0'.toUInt8 ≤ c && c ≤ '9'.toUInt8

def Digits (t : Text) : Prop := t ≠ [] ∧ ∀ c ∈ t, isDigit c

structure Number (sign integer fraction exponent : Text) : Prop where
  sign : sign = [] ∨ sign = chars ['-']
  integer : Digits integer ∧ (integer.head? = some '0'.toUInt8 → integer.length = 1)
  fraction : fraction = [] ∨ ∃ t, Digits t ∧ fraction = '.'.toUInt8 :: t
  exponent : exponent = [] ∨ ∃ e s t, (e = 'e'.toUInt8 ∨ e = 'E'.toUInt8) ∧
    (s = [] ∨ s = chars ['+'] ∨ s = chars ['-']) ∧ Digits t ∧ exponent = e :: (s ++ t)

inductive Scalar : Text → Prop
  | true' : Scalar (chars ['t', 'r', 'u', 'e'])
  | false' : Scalar (chars ['f', 'a', 'l', 's', 'e'])
  | null : Scalar (chars ['n', 'u', 'l', 'l'])
  | number {sign integer fraction exponent : Text} : Number sign integer fraction exponent →
      Scalar (sign ++ integer ++ fraction ++ exponent)

inductive Part where
  | value
  | elements
  | members

end JsonText

open JsonText in
open JsonStrings (comma opening closing quoted) in
/-- A part of a text in at most `o` objects and `a` arrays more, with strings of `C` -/
inductive JsonText (C : Text → Prop) : Part → Nat → Nat → Text → Prop
  | scalar {o a : Nat} {t : Text} : Scalar t → JsonText C .value o a t
  | string {o a : Nat} {s : Text} : C s → JsonText C .value o a (quoted s)
  | noElements {o a : Nat} : JsonText C .value o (a + 1) [opening, closing]
  | array {o a : Nat} {t : Text} : JsonText C .elements o a t →
      JsonText C .value o (a + 1) (opening :: (t ++ [closing]))
  | noMembers {o a : Nat} : JsonText C .value (o + 1) a [openBrace, closeBrace]
  | object {o a : Nat} {t : Text} : JsonText C .members o a t →
      JsonText C .value (o + 1) a (openBrace :: (t ++ [closeBrace]))
  | element {o a : Nat} {t : Text} : JsonText C .value o a t → JsonText C .elements o a t
  | elements {o a : Nat} {t u : Text} : JsonText C .value o a t → JsonText C .elements o a u →
      JsonText C .elements o a (t ++ comma :: u)
  | member {o a : Nat} {k v : Text} : C k → JsonText C .value o a v →
      JsonText C .members o a (quoted k ++ colon :: v)
  | members {o a : Nat} {k v u : Text} : C k → JsonText C .value o a v →
      JsonText C .members o a u → JsonText C .members o a (quoted k ++ colon :: (v ++ comma :: u))

namespace JsonText
open JsonStrings (comma opening closing quoted)

def structural : Text :=
  [0, JsonStrings.quote, opening, closing, openBrace, closeBrace, colon, comma]

theorem digit_plain {c : UInt8} (h : isDigit c) : c ∉ structural := by
  simp only [isDigit, Bool.and_eq_true, decide_eq_true_eq] at h
  obtain ⟨low, high⟩ := h
  have low : 48 ≤ c.toNat := low
  have high : c.toNat ≤ 57 := high
  intro member
  simp only [structural, List.mem_cons, List.not_mem_nil, or_false] at member
  rcases member with rfl | rfl | rfl | rfl | rfl | rfl | rfl | rfl <;> revert low high <;> decide

theorem Scalar.plain {t : Text} (h : Scalar t) : t ≠ [] ∧ ∀ c ∈ t, c ∉ structural := by
  have digits : ∀ {t : Text}, Digits t → ∀ c ∈ t, c ∉ structural :=
    fun h c hc => digit_plain (h.2 c hc)
  cases h with
  | true' => decide +kernel
  | false' => decide +kernel
  | null => decide +kernel
  | @number sign integer fraction exponent n =>
    obtain ⟨hs, hi, hf, he⟩ := n
    refine ⟨by simp [hi.1.1], fun c hc => ?_⟩
    simp only [List.mem_append] at hc
    rcases hc with ((hc | hc) | hc) | hc
    · rcases hs with rfl | rfl
      · cases hc
      · rw [List.mem_singleton.mp hc]
        decide
    · exact digits hi.1 c hc
    · rcases hf with rfl | ⟨t, ht, rfl⟩
      · cases hc
      · rcases List.mem_cons.mp hc with rfl | hc
        · decide
        · exact digits ht c hc
    · rcases he with rfl | ⟨e, s, t, hl, hs, ht, rfl⟩
      · cases hc
      · rcases List.mem_cons.mp hc with rfl | hc
        · rcases hl with rfl | rfl <;> decide
        · rcases List.mem_append.mp hc with hc | hc
          · rcases hs with rfl | rfl | rfl
            · cases hc
            · rw [List.mem_singleton.mp hc]
              decide
            · rw [List.mem_singleton.mp hc]
              decide
          · exact digits ht c hc

theorem content_nonzero {s value : Text} (h : content s = some value) : 0 ∉ s := by
  intro zero
  rw [content] at h
  split at h
  · rename_i parsed
    cases JsonStrings.zero_mem_string parsed (List.mem_append_left _ zero)
  · cases h

/-- The contents of a string in which no quote is escaped -/
structure Unquoted (s : Text) : Prop where
  valid : (content s).isSome
  clear : JsonStrings.quote ∉ s

theorem Unquoted.nonzero {s : Text} (h : Unquoted s) : 0 ∉ s := by
  obtain ⟨value, spelled⟩ := Option.isSome_iff_exists.mp h.valid
  exact content_nonzero spelled

theorem nonzero {C : Text → Prop} (clear : ∀ s, C s → 0 ∉ s) {part : Part} {o a : Nat} {t : Text}
    (h : JsonText C part o a t) : 0 ∉ t := by
  have string {s : Text} (hs : C s) : 0 ∉ quoted s := by
    simp [quoted, JsonStrings.quote, clear s hs]
    decide
  have bracket :
      ∀ c ∈ [opening, closing, openBrace, closeBrace, comma, colon], (0 : UInt8) ≠ c := by
    decide +kernel
  induction h with
  | scalar h => exact fun hm => h.plain.2 0 hm (by decide)
  | string h => exact string h
  | noElements => decide
  | array _ ih => simp [ih, bracket]
  | noMembers => decide
  | object _ ih => simp [ih, bracket]
  | element _ ih => exact ih
  | elements _ _ ih ih' => simp [ih, ih', bracket]
  | member hk _ ih => simp [ih, string hk, bracket]
  | members hk _ _ ih ih' => simp [ih, ih', string hk, bracket]

structure Member where
  key : Text
  value : Text

def Member.text (m : Member) : Text := quoted m.key ++ colon :: m.value

def membersFrom : List Member → Text
  | [] => [closeBrace]
  | [m] => m.text ++ [closeBrace]
  | m :: more => m.text ++ comma :: membersFrom more

def objectText (members : List Member) : Text := openBrace :: membersFrom members

def span (members : List Member) : Nat := (members.map (·.text.length + 1)).sum

def place (front : List Member) : Nat := 1 + span front

theorem length_membersFrom (m : Member) (more : List Member) :
    (membersFrom (m :: more)).length = span (m :: more) := by
  induction more generalizing m with
  | nil => simp [membersFrom, span]
  | cons next more ih =>
    rw [membersFrom, List.length_append, List.length_cons, ih]
    · simp [span]
      omega
    · exact nofun

theorem span_append (front back : List Member) :
    span (front ++ back) = span front + span back := by
  rw [span, List.map_append, List.sum_append]
  rfl

theorem place_le (front : List Member) (m : Member) (back : List Member) :
    place front + m.text.length + 1 ≤ (objectText (front ++ m :: back)).length := by
  obtain ⟨first, more, split⟩ : ∃ first more, front ++ m :: back = first :: more := by
    cases front
    · exact ⟨_, _, rfl⟩
    · exact ⟨_, _, rfl⟩
  have size := length_membersFrom first more
  rw [← split, span_append] at size
  rw [objectText, List.length_cons, size, place]
  simp only [span, List.map_cons, List.sum_cons]
  omega

theorem place_apart {members front back front' back' : List Member} {m m' : Member}
    (h : members = front ++ m :: back) (h' : members = front' ++ m' :: back') (other : m ≠ m') :
    place front + m.text.length + 1 ≤ place front' ∨
      place front' + m'.text.length + 1 ≤ place front := by
  have between (f : List Member) (x y : Member) (g : List Member) :
      place f + x.text.length + 1 ≤ place (f ++ x :: g) := by
    rw [place, place, span_append]
    simp only [span, List.map_cons, List.sum_cons]
    omega
  rcases List.append_eq_append_iff.mp (h.symm.trans h') with ⟨x, hx, hy⟩ | ⟨x, hx, hy⟩
  · cases x with
    | nil => exact absurd (List.cons.inj hy).1 other
    | cons y x =>
      obtain ⟨rfl, -⟩ := List.cons.inj hy
      rw [hx]
      exact .inl (between front m m' x)
  · cases x with
    | nil => exact absurd (List.cons.inj hy).1.symm other
    | cons y x =>
      obtain ⟨rfl, -⟩ := List.cons.inj hy
      rw [hx]
      exact .inr (between front' m' m x)

end JsonText
end EmmaNode

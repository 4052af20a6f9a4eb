import EmmaNode.JsonObjects
import EmmaNode.JsonTexts

/-! Where the scanner sees the end of an object. Objects and arrays are counted apart, in a byte
each, and a bracket that closes nothing is passed over: too many arrays come right again at the
end of the outermost, too many objects never do. -/

namespace EmmaNode

namespace JsonParser
open JsonText (openBrace closeBrace)
open JsonStrings (opening closing quoted)

/-- `JSONnParse_check` -/
def check (p : JsonParser) : Bool := p.objDepth = 0 ∧ p.arrDepth = 0 ∧ p.strDepth = 0

def path (p : JsonParser) : Text → List JsonParser
  | [] => []
  | c :: t => (p.parse c 0).1 :: (p.parse c 0).1.path t

/-- The counters behind a text in at most `n` objects more: arrays and objects come out as deep
as before or less deep. They come out less deep when the objects of the text are too many. -/
structure Passes (p : JsonParser) (n : Nat) (t : Text) : Prop where
  free : (p.after t).strDepth = 0
  arrays : (p.after t).arrDepth.toNat ≤ p.arrDepth.toNat
  objects : (p.after t).objDepth.toNat ≤ p.objDepth.toNat
  fits : 0 < p.objDepth.toNat → p.objDepth.toNat + n < 256 →
    (p.after t).objDepth = p.objDepth ∧ ∀ q ∈ p.path t, 0 < q.objDepth.toNat
  wraps : 0 < p.objDepth.toNat → 256 ≤ p.objDepth.toNat + n →
    (p.after t).objDepth.toNat < p.objDepth.toNat

def Steady (n : Nat) (t : Text) : Prop := ∀ p : JsonParser, p.strDepth = 0 → p.Passes n t

variable {n m : Nat} {t u : Text}

theorem path_append (p : JsonParser) (t u : Text) :
    p.path (t ++ u) = p.path t ++ (p.after t).path u := by
  induction t generalizing p with
  | nil => rfl
  | cons c t ih => exact congrArg _ (ih _)

theorem Steady.nil : Steady 0 [] := fun p free =>
  ⟨free, Nat.le_refl _, Nat.le_refl _, fun _ _ => ⟨rfl, nofun⟩, fun _ h => by
    have := p.objDepth.toNat_lt
    omega⟩

theorem Steady.append (ht : Steady n t) (hu : Steady m u) : Steady (max n m) (t ++ u) := by
  intro p free
  have first := ht p free
  have second := hu (p.after t) first.free
  have whole := after_append p t u
  refine ⟨whole ▸ second.free, ?_, ?_, fun inside shallow => ?_, fun inside deep => ?_⟩
  · rw [whole]
    exact Nat.le_trans second.arrays first.arrays
  · rw [whole]
    exact Nat.le_trans second.objects first.objects
  · obtain ⟨same, path⟩ := first.fits inside (by omega)
    obtain ⟨same', path'⟩ := second.fits (same ▸ inside) (by rw [same]; omega)
    refine ⟨by rw [whole, same', same], fun q hq => ?_⟩
    rw [path_append, List.mem_append] at hq
    exact hq.elim (path q) (path' q)
  · rw [whole]
    have less := first.objects
    have less' := second.objects
    by_cases shallow : p.objDepth.toNat + n < 256
    · have same := (first.fits inside shallow).1
      have := second.wraps (same ▸ inside) (by rw [same]; omega)
      omega
    · have := first.wraps inside (by omega)
      omega

theorem Passes.level {p : JsonParser} (free : p.strDepth = 0) (same : p.after t = p)
    (level : ∀ q ∈ p.path t, q.objDepth = p.objDepth) : p.Passes 0 t := by
  refine ⟨by rw [same, free], ?_, ?_,
    fun inside _ => ⟨by rw [same], fun q hq => level q hq ▸ inside⟩,
    fun _ deep => ?_⟩
  · exact Nat.le_of_eq (by rw [same])
  · exact Nat.le_of_eq (by rw [same])
  · have := p.objDepth.toNat_lt
    omega

theorem Steady.plain {c : UInt8} (h : isPlain c) : Steady 0 [c] := fun p free => by
  refine .level free (parse_plain h) fun q hq => ?_
  rw [path, path, parse_plain h, List.mem_singleton] at hq
  rw [hq]

theorem Steady.plains (h : ∀ c ∈ t, isPlain c) : Steady 0 t := by
  induction t with
  | nil => exact .nil
  | cons c t ih =>
    exact (Steady.plain (h c List.mem_cons_self)).append
      (ih fun d hd => h d (List.mem_cons_of_mem _ hd))

theorem toNat_down (a : UInt8) : (UInt8.ofNat (a.toNat - 1)).toNat = a.toNat - 1 := by
  have := a.toNat_lt
  exact Nat.mod_eq_of_lt (by omega)

theorem countDown (a : UInt8) : (if a ≠ 0 then a - 1 else a) = .ofNat (a.toNat - 1) := by
  apply UInt8.toNat_inj.mp
  rw [toNat_down]
  split_ifs with h
  · have positive : a.toNat ≠ 0 := fun e => h (UInt8.toNat_inj.mp e)
    exact UInt8.toNat_sub_of_le _ _
      (UInt8.le_iff_toNat_le.mpr (Nat.one_le_iff_ne_zero.mpr positive))
  · obtain rfl : a = 0 := not_not.mp h
    rfl

theorem parse_shutObject {p : JsonParser} (free : p.strDepth = 0) :
    (p.parse closeBrace 0).1 = { p with objDepth := .ofNat (p.objDepth.toNat - 1) } := by
  rw [← countDown, show closeBrace = '}'.toUInt8 from rfl]
  unfold parse
  rw [if_neg fun e => e.1 free, classify, if_neg (by decide), if_neg (by decide),
    if_neg (by decide), if_neg (by decide), if_pos rfl]
  split_ifs <;> rfl

theorem parse_shutArray {p : JsonParser} (free : p.strDepth = 0) :
    (p.parse closing 0).1 = { p with arrDepth := .ofNat (p.arrDepth.toNat - 1) } := by
  rw [← countDown, show closing = ']'.toUInt8 from rfl]
  unfold parse
  rw [if_neg fun e => e.1 free, classify, if_neg (by decide), if_neg (by decide), if_pos rfl]
  split_ifs <;> rfl

theorem Steady.array (h : Steady n t) : Steady n (opening :: (t ++ [closing])) := by
  intro p free
  have opens : (p.parse opening 0).1 = { p with arrDepth := p.arrDepth + 1 } := parse_openArray free
  have inner := h { p with arrDepth := p.arrDepth + 1 } free
  generalize hq : JsonParser.after { p with arrDepth := p.arrDepth + 1 } t = q at inner
  have whole : p.after (opening :: (t ++ [closing])) =
      { q with arrDepth := .ofNat (q.arrDepth.toNat - 1) } := by
    rw [← parse_shutArray (hq ▸ inner.free), ← hq]
    show (p.parse opening 0).1.after (t ++ [closing]) = _
    rw [opens, after_append]
    rfl
  have path : p.path (opening :: (t ++ [closing])) =
      { p with arrDepth := p.arrDepth + 1 } ::
        (JsonParser.path { p with arrDepth := p.arrDepth + 1 } t ++
          [{ q with arrDepth := .ofNat (q.arrDepth.toNat - 1) }]) := by
    rw [JsonParser.path, opens, path_append, hq, JsonParser.path, JsonParser.path,
      parse_shutArray (hq ▸ inner.free)]
  obtain ⟨free', arrays, objects, fits, wraps⟩ := inner
  rw [hq] at free' arrays objects fits wraps
  refine ⟨whole ▸ free', ?_, whole ▸ objects, fun inside shallow => ?_, fun inside deep => ?_⟩
  · rw [whole]
    have up : (p.arrDepth + 1).toNat ≤ p.arrDepth.toNat + 1 := by
      rw [UInt8.toNat_add]
      exact Nat.mod_le _ _
    show (UInt8.ofNat (q.arrDepth.toNat - 1)).toNat ≤ _
    rw [toNat_down]
    simp only at arrays
    omega
  · obtain ⟨same, states⟩ := fits inside shallow
    refine ⟨by rw [whole]; exact same, fun r hr => ?_⟩
    rw [path, List.mem_cons, List.mem_append, List.mem_singleton] at hr
    rcases hr with rfl | hr | rfl
    · exact inside
    · exact states r hr
    · exact same ▸ inside
  · rw [whole]
    exact wraps inside deep

theorem Steady.object (h : Steady n t) : Steady (n + 1) (openBrace :: (t ++ [closeBrace])) := by
  intro p free
  have opens : (p.parse openBrace 0).1 = { p with objDepth := p.objDepth + 1 } :=
    parse_openObject free
  have inner := h { p with objDepth := p.objDepth + 1 } free
  generalize hq : JsonParser.after { p with objDepth := p.objDepth + 1 } t = q at inner
  have whole : p.after (openBrace :: (t ++ [closeBrace])) =
      { q with objDepth := .ofNat (q.objDepth.toNat - 1) } := by
    rw [← parse_shutObject (hq ▸ inner.free), ← hq]
    show (p.parse openBrace 0).1.after (t ++ [closeBrace]) = _
    rw [opens, after_append]
    rfl
  have path : p.path (openBrace :: (t ++ [closeBrace])) =
      { p with objDepth := p.objDepth + 1 } ::
        (JsonParser.path { p with objDepth := p.objDepth + 1 } t ++
          [{ q with objDepth := .ofNat (q.objDepth.toNat - 1) }]) := by
    rw [JsonParser.path, opens, path_append, hq, JsonParser.path, JsonParser.path,
      parse_shutObject (hq ▸ inner.free)]
  obtain ⟨free', arrays, objects, fits, wraps⟩ := inner
  rw [hq] at free' arrays objects fits wraps
  simp only at objects fits wraps
  have small := p.objDepth.toNat_lt
  have down := toNat_down q.objDepth
  have up : (p.objDepth + 1).toNat = (p.objDepth.toNat + 1) % 256 := UInt8.toNat_add _ _
  refine ⟨whole ▸ free', whole ▸ arrays, ?_, fun inside shallow => ?_, fun inside deep => ?_⟩
  · rw [whole]
    show (UInt8.ofNat (q.objDepth.toNat - 1)).toNat ≤ _
    have := Nat.mod_le (p.objDepth.toNat + 1) 256
    omega
  · rw [Nat.mod_eq_of_lt (by omega)] at up
    obtain ⟨same, states⟩ := fits (by omega) (by omega)
    have back : UInt8.ofNat (q.objDepth.toNat - 1) = p.objDepth := by
      apply UInt8.toNat_inj.mp
      rw [down, same, up, Nat.add_sub_cancel]
    refine ⟨by rw [whole]; exact back, fun r hr => ?_⟩
    rw [path, List.mem_cons, List.mem_append, List.mem_singleton] at hr
    rcases hr with rfl | hr | rfl
    · show 0 < (p.objDepth + 1).toNat
      omega
    · exact states r hr
    · show 0 < (UInt8.ofNat (q.objDepth.toNat - 1)).toNat
      rw [back]
      exact inside
  · rw [whole]
    show (UInt8.ofNat (q.objDepth.toNat - 1)).toNat < _
    by_cases full : p.objDepth.toNat = 255
    · rw [full] at up
      omega
    · rw [Nat.mod_eq_of_lt (by omega)] at up
      have := wraps (by omega) (by omega)
      omega

/-- What the scanner makes of the contents of a string from one byte on, within the string or
not: it takes an escaped quote for the end of the string, and the next for the start of another.
No bracket stands outside, and at the end the scanner is within. -/
def Paired : Text → Bool → Bool
  | [], within => within
  | c :: s, within =>
    if c = quote then Paired s (!within) else (within || isPlain c) && Paired s within

theorem parse_quote (p : JsonParser) :
    (p.parse quote 0).1 = { p with strDepth := if p.strDepth = 0 then 1 else 0 } := by
  rw [show quote = '"'.toUInt8 from rfl]
  unfold parse
  rw [if_neg fun e => e.2 rfl, classify, if_pos rfl]

theorem after_paired {s : Text} {within : Bool} (h : Paired s within) (p : JsonParser) :
    JsonParser.after { p with strDepth := if within then 1 else 0 } s = { p with strDepth := 1 } ∧
      ∀ q ∈ JsonParser.path { p with strDepth := if within then 1 else 0 } s,
        q.objDepth = p.objDepth := by
  induction s generalizing within with
  | nil =>
    obtain rfl : within = true := h
    exact ⟨rfl, nofun⟩
  | cons c s ih =>
    obtain ⟨next, kept, rest⟩ : ∃ next, Paired s next ∧
        (JsonParser.parse { p with strDepth := if within then 1 else 0 } c 0).1 =
          { p with strDepth := if next then 1 else 0 } := by
      rw [Paired] at h
      split_ifs at h with hc
      · refine ⟨!within, h, ?_⟩
        rw [hc, parse_quote]
        cases within <;> rfl
      · rw [Bool.and_eq_true, Bool.or_eq_true] at h
        refine ⟨within, h.2, ?_⟩
        rcases h.1 with inside | plain
        · rw [inside]
          unfold parse
          rw [if_pos ⟨by simp, hc⟩]
        · exact parse_plain plain
    obtain ⟨last, level⟩ := ih kept
    refine ⟨?_, fun q hq => ?_⟩
    · show ((JsonParser.parse _ c 0).1).after s = _
      rw [rest, last]
    · rw [path, rest, List.mem_cons] at hq
      rcases hq with rfl | hq
      · rfl
      · exact level q hq

theorem Steady.string {s : Text} (h : Paired s true) : Steady 0 (quoted s) := fun p free => by
  obtain ⟨last, level⟩ := after_paired h p
  rw [if_pos rfl] at last level
  have opens : (p.parse quote 0).1 = { p with strDepth := 1 } := by
    rw [parse_quote, if_pos free]
  have closes : (JsonParser.parse { p with strDepth := 1 } quote 0).1 = p := by
    rw [parse_quote, if_neg (by simp)]
    obtain ⟨objects, arrays, strings⟩ := p
    cases free
    rfl
  have split : quoted s = quote :: (s ++ [quote]) := rfl
  refine .level free ?_ fun q hq => ?_
  · rw [split]
    show ((p.parse quote 0).1).after (s ++ [quote]) = _
    rw [opens, after_append, last]
    exact closes
  · rw [split, path, opens, path_append, last, path, path, closes, List.mem_cons, List.mem_append,
      List.mem_singleton] at hq
    rcases hq with rfl | hq | rfl
    · rfl
    · exact level q hq
    · rfl

def states (p : JsonParser) : Text → List JsonState
  | [] => []
  | c :: t => (p.parse c 0).2 :: (p.parse c 0).1.states t

/-- The scanner finds where an object ends that another text follows: the end is returned for
its last byte first, and only there the counters are down. -/
structure FindsEnd (o following : Text) : Prop where
  start : (clean.states (o ++ following)).head? = some .objStart
  finish : ∀ i < o.length,
    (clean.states (o ++ following))[i]? = some .objEnd ↔ i + 1 = o.length
  down : ∀ i < o.length,
    ((clean.path (o ++ following))[i]?.map check) = some true ↔ i + 1 = o.length

theorem length_states (p : JsonParser) (t : Text) : (p.states t).length = t.length := by
  induction t generalizing p with
  | nil => rfl
  | cons c t ih => exact congrArg (· + 1) (ih _)

theorem length_path (p : JsonParser) (t : Text) : (p.path t).length = t.length := by
  induction t generalizing p with
  | nil => rfl
  | cons c t ih => exact congrArg (· + 1) (ih _)

theorem states_append (p : JsonParser) (t u : Text) :
    p.states (t ++ u) = p.states t ++ (p.after t).states u := by
  induction t generalizing p with
  | nil => rfl
  | cons c t ih => exact congrArg _ (ih _)

theorem states_inside {p : JsonParser} (inside : ∀ q ∈ p.path t, 0 < q.objDepth.toNat) :
    .objEnd ∉ p.states t := by
  induction t generalizing p with
  | nil => exact nofun
  | cons c t ih =>
    rw [path, List.forall_mem_cons] at inside
    rw [states, List.mem_cons, not_or]
    refine ⟨(parse_inside ?_).symm, ih inside.2⟩
    exact Nat.lt_of_lt_of_le inside.1 (Nat.le_add_right _ _)

theorem first_at {α : Type} {l : List α} {x : α} (fresh : x ∉ l) (rest : List α) {i : Nat}
    (h : i < l.length + 1) : (l ++ x :: rest)[i]? = some x ↔ i + 1 = l.length + 1 := by
  by_cases inside : i < l.length
  · rw [List.getElem?_append_left inside]
    refine ⟨fun e => absurd (List.mem_of_getElem? e) fresh, fun e => by omega⟩
  · obtain rfl : i = l.length := by omega
    simp

end JsonParser

open JsonText in
open JsonStrings (comma opening closing quoted) in
/-- A part of a text in JSON, objects nested `n` deep in it, with strings of `C` -/
inductive SpacedText (C : Text → Prop) : Part → Nat → Text → Prop
  | scalar {t : Text} : Scalar t → SpacedText C .value 0 t
  | string {s : Text} : C s → SpacedText C .value 0 (quoted s)
  | noElements {w : Text} : Blanks w → SpacedText C .value 0 (opening :: (w ++ [closing]))
  | array {n : Nat} {t : Text} : SpacedText C .elements n t →
      SpacedText C .value n (opening :: (t ++ [closing]))
  | noMembers {w : Text} : Blanks w → SpacedText C .value 1 (openBrace :: (w ++ [closeBrace]))
  | object {n : Nat} {t : Text} : SpacedText C .members n t →
      SpacedText C .value (n + 1) (openBrace :: (t ++ [closeBrace]))
  | element {n : Nat} {w t x : Text} : Blanks w → SpacedText C .value n t → Blanks x →
      SpacedText C .elements n (w ++ t ++ x)
  | elements {n m : Nat} {w t x u : Text} : Blanks w → SpacedText C .value n t → Blanks x →
      SpacedText C .elements m u → SpacedText C .elements (max n m) (w ++ t ++ x ++ [comma] ++ u)
  | member {n : Nat} {w k x y v z : Text} : Blanks w → C k → Blanks x → Blanks y →
      SpacedText C .value n v → Blanks z →
      SpacedText C .members n (w ++ quoted k ++ x ++ [colon] ++ y ++ v ++ z)
  | members {n m : Nat} {w k x y v z u : Text} : Blanks w → C k → Blanks x → Blanks y →
      SpacedText C .value n v → Blanks z → SpacedText C .members m u →
      SpacedText C .members (max n m) (w ++ quoted k ++ x ++ [colon] ++ y ++ v ++ z ++ [comma] ++ u)

namespace SpacedText
open JsonText JsonParser
variable {C : Text → Prop} {part : Part} {n : Nat} {t o : Text}

theorem steady_blanks (h : Blanks t) : Steady 0 t := .plains fun c hc => by
  rcases h c hc with rfl | rfl | rfl | rfl <;> decide

theorem steady_scalar (h : Scalar t) : Steady 0 t := .plains fun c hc => by
  have other := h.plain.2 c hc
  simp only [structural, List.mem_cons, List.not_mem_nil, or_false, not_or] at other
  obtain ⟨-, a, b, c, d, e, -⟩ := other
  simp only [isPlain, chars, List.map_cons, List.map_nil, List.mem_cons, List.not_mem_nil,
    or_false, not_or, decide_eq_true_eq]
  exact ⟨a, b, c, d, e⟩

theorem steady (paired : ∀ s, C s → Paired s true) (h : SpacedText C part n t) : Steady n t := by
  have level {n : Nat} {t u : Text} (ht : Steady n t) (hu : Steady 0 u) : Steady n (t ++ u) := by
    simpa using ht.append hu
  have front {n : Nat} {t u : Text} (ht : Steady 0 t) (hu : Steady n u) : Steady n (t ++ u) := by
    simpa using ht.append hu
  have separator : Steady 0 [JsonStrings.comma] ∧ Steady 0 [colon] :=
    ⟨.plain (by decide), .plain (by decide)⟩
  induction h with
  | scalar h => exact steady_scalar h
  | string h => exact .string (paired _ h)
  | noElements h => exact (steady_blanks h).array
  | array _ ih => exact ih.array
  | noMembers h => exact (steady_blanks h).object
  | object _ ih => exact ih.object
  | element hw _ hx ih => exact level (front (steady_blanks hw) ih) (steady_blanks hx)
  | elements hw _ hx _ ih ih' =>
    exact (level (level (front (steady_blanks hw) ih) (steady_blanks hx)) separator.1).append ih'
  | member hw hk hx hy _ hz ih =>
    have key := level (level (level (steady_blanks hw) (.string (paired _ hk))) (steady_blanks hx))
      separator.2
    exact level (front (level key (steady_blanks hy)) ih) (steady_blanks hz)
  | members hw hk hx hy _ hz _ ih ih' =>
    have key := level (level (level (steady_blanks hw) (.string (paired _ hk))) (steady_blanks hx))
      separator.2
    exact (level (level (front (level key (steady_blanks hy)) ih) (steady_blanks hz))
      separator.1).append ih'

theorem between_braces (paired : ∀ s, C s → Paired s true) (h : SpacedText C .value n o)
    (object : o.head? = some openBrace) :
    ∃ m t, n = m + 1 ∧ o = openBrace :: (t ++ [closeBrace]) ∧ Steady m t := by
  cases h with
  | scalar h =>
    have other := h.plain.2 openBrace (List.mem_of_mem_head? object)
    exact absurd (by decide) other
  | string => exact absurd object (by simp [JsonStrings.quoted]; decide)
  | noElements => exact absurd object (by simp; decide)
  | array => exact absurd object (by simp; decide)
  | noMembers h => exact ⟨0, _, rfl, rfl, steady_blanks h⟩
  | object h => exact ⟨_, _, rfl, rfl, h.steady paired⟩

/-- The end of an object is found when its strings are paired, and then if and only if no more
than 255 objects are nested, itself included. -/
theorem findsEnd_iff (paired : ∀ s, C s → Paired s true) (h : SpacedText C .value n o)
    (object : o.head? = some openBrace) (following : Text) :
    FindsEnd o following ↔ n ≤ 255 := by
  obtain ⟨m, t, rfl, rfl, steady⟩ := h.between_braces paired object
  have inner := steady ⟨1, 0, 0⟩ rfl
  generalize hq : JsonParser.after ⟨1, 0, 0⟩ t = q at inner
  have arrays : q.arrDepth = 0 := by
    have low := inner.arrays
    rw [hq] at low
    exact UInt8.toNat_inj.mp (Nat.le_zero.mp low)
  have strings : q.strDepth = 0 := hq ▸ inner.free
  have size : (openBrace :: (t ++ [closeBrace])).length = (t.length + 1) + 1 := by simp
  have states : JsonParser.clean.states (openBrace :: (t ++ [closeBrace]) ++ following) =
      (.objStart :: JsonParser.states ⟨1, 0, 0⟩ t) ++ (q.parse closeBrace 0).2 ::
        (q.parse closeBrace 0).1.states following := by
    rw [List.cons_append, JsonParser.states, List.append_assoc, states_append]
    rw [← hq]
    rfl
  have path : JsonParser.clean.path (openBrace :: (t ++ [closeBrace]) ++ following) =
      (⟨1, 0, 0⟩ :: JsonParser.path ⟨1, 0, 0⟩ t) ++ (q.parse closeBrace 0).1 ::
        (q.parse closeBrace 0).1.path following := by
    rw [List.cons_append, JsonParser.path, List.append_assoc, path_append]
    rw [← hq]
    rfl
  by_cases shallow : m + 1 ≤ 255
  · refine iff_of_true ?_ shallow
    obtain ⟨same, inside⟩ := inner.fits (by decide) (by show 1 + m < 256; omega)
    rw [hq] at same
    have last : q = ⟨1, 0, 0⟩ := by
      obtain ⟨objects, arr, str⟩ := q
      simp only at same arrays strings
      rw [same, arrays, strings]
    have closed : JsonParser.parse ⟨1, 0, 0⟩ closeBrace 0 = (⟨0, 0, 0⟩, .objEnd) := by decide
    rw [last, closed] at states path
    refine ⟨by rw [states]; rfl, fun i hi => ?_, fun i hi => ?_⟩
    · rw [states, size]
      rw [size] at hi
      have fresh : JsonState.objEnd ∉ .objStart :: JsonParser.states ⟨1, 0, 0⟩ t := by
        rw [List.mem_cons, not_or]
        exact ⟨nofun, states_inside inside⟩
      have length : (JsonState.objStart :: JsonParser.states ⟨1, 0, 0⟩ t).length = t.length + 1 :=
        congrArg (· + 1) (length_states _ t)
      rw [← length] at hi ⊢
      exact first_at fresh _ hi
    · rw [path, size, ← List.getElem?_map, List.map_append, List.map_cons]
      rw [size] at hi
      have fresh : true ∉ (⟨1, 0, 0⟩ :: JsonParser.path ⟨1, 0, 0⟩ t).map check := by
        rw [List.mem_map]
        rintro ⟨r, hr, down⟩
        have up : 0 < r.objDepth.toNat := by
          rcases List.mem_cons.mp hr with rfl | hr
          · decide
          · exact inside r hr
        simp only [check, decide_eq_true_eq] at down
        rw [down.1] at up
        exact absurd up (by decide)
      have length : ((⟨1, 0, 0⟩ :: JsonParser.path ⟨1, 0, 0⟩ t).map check).length =
          t.length + 1 := by
        rw [List.length_map, List.length_cons, length_path]
      rw [← length] at hi ⊢
      exact first_at fresh _ hi
  · refine iff_of_false (fun finds => ?_) shallow
    have lost := inner.wraps (by decide) (by show 256 ≤ 1 + m; omega)
    rw [hq] at lost
    have last : q = ⟨0, 0, 0⟩ := by
      obtain ⟨objects, arr, str⟩ := q
      simp only at arrays strings lost
      have objects : objects = 0 := UInt8.toNat_inj.mp (Nat.lt_one_iff.mp lost)
      rw [arrays, strings, objects]
    have missed : JsonParser.parse ⟨0, 0, 0⟩ closeBrace 0 = (⟨0, 0, 0⟩, .error) := by decide
    have ends := (finds.finish (t.length + 1) (by rw [size]; omega)).mpr size.symm
    rw [states, last, missed, List.getElem?_append_right (by simp [length_states])] at ends
    simp [length_states] at ends

def Unmisleading (s : Text) : Prop := (content s).isSome ∧ Paired s true

instance (s : Text) : Decidable (Unmisleading s) := inferInstanceAs (Decidable (_ ∧ _))

/-- Three objects nested, with blanks, brackets in strings and two escaped quotes in one -/
theorem findsEnd_blanks : FindsEnd
    (chars "\x7b \"a]\" : \x7b\"\\\"b\\\"\":[\x7b\x7d , \"[\"]\x7d \x7d".toList) (chars ['1']) := by
  have valid : Unmisleading (chars ['a', ']']) ∧ Unmisleading (chars ['\\', '"', 'b', '\\', '"']) ∧
      Unmisleading (chars ['[']) := by decide +kernel
  have none' : Blanks [] := nofun
  have one : Blanks (chars [' ']) := by
    intro c hc
    exact .inl (List.mem_singleton.mp hc)
  have inner := SpacedText.object (.member none' valid.2.1 none' none'
    (.array (.elements none' (.noMembers none') one
      (.element one (.string valid.2.2) none'))) none')
  have outer := SpacedText.object (.member one valid.1 one one inner one)
  have ends := (findsEnd_iff (fun _ h => h.2) outer rfl (chars ['1'])).mpr (by decide)
  convert ends using 1
  decide +kernel

/-- A quote is escaped in the only string. -/
theorem end_missed : ¬ ∀ (n : Nat) (o following : Text),
    SpacedText (fun s => (content s).isSome) .value n o → o.head? = some openBrace →
    FindsEnd o following := by
  intro h
  have key : (content (chars ['a'])).isSome := by decide +kernel
  have value : (content (chars ['\\', '"'])).isSome := by decide +kernel
  have none' : Blanks [] := nofun
  have object := SpacedText.object (C := fun s => (content s).isSome)
    (.member none' key none' none' (.string value) none')
  have := (h _ _ [] object rfl).finish 9
  revert this
  decide +kernel

end SpacedText
end EmmaNode

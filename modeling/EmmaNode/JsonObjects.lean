import EmmaNode.Preprocessor

/-! Objects as the scanner sees them: up to the first byte behind which its counters are
down again. That is the end of the object unless a quote is escaped in it or its brackets
are deeper than the counters count. -/

namespace EmmaNode

namespace JsonParser

def after (p : JsonParser) (t : Text) : JsonParser := t.foldl (fun p c => (p.parse c 0).1) p

def objectEnd (p : JsonParser) : Text → Option Nat
  | [] => none
  | c :: t =>
    if (p.parse c 0).2 = .objEnd then some 1
    else ((p.parse c 0).1.objectEnd t).map (· + 1)

theorem after_append (p : JsonParser) (t u : Text) : p.after (t ++ u) = (p.after t).after u :=
  List.foldl_append

theorem objectEnd_append (p : JsonParser) (t u : Text) :
    p.objectEnd (t ++ u) = match p.objectEnd t with
      | some n => some n
      | none => ((p.after t).objectEnd u).map (· + t.length) := by
  induction t generalizing p with
  | nil => simp [objectEnd, after]
  | cons c t ih =>
    rw [List.cons_append, objectEnd, objectEnd, ih]
    split
    · rfl
    · cases (p.parse c 0).1.objectEnd t with
      | some n => rfl
      | none =>
        simp only [Option.map_none, Option.map_map]
        rfl

end JsonParser

/-- An object whose last byte is the first end of an object in it -/
def Scanned (o : Text) : Prop :=
  o.head? = some '{'.toUInt8 ∧ JsonParser.clean.objectEnd o = some o.length

instance (o : Text) : Decidable (Scanned o) := by unfold Scanned; infer_instance

theorem JsonParser.objectEnd_le {t : Text} {p : JsonParser} {k : Nat} (h : p.objectEnd t = some k) :
    k ≤ t.length := by
  induction t generalizing p k with
  | nil => cases h
  | cons c t ih =>
    rw [objectEnd] at h
    split at h
    · cases h
      exact Nat.succ_le_succ (Nat.zero_le _)
    · obtain ⟨m, hm, rfl⟩ := Option.map_eq_some_iff.mp h
      exact Nat.succ_le_succ (ih hm)

theorem Scanned.cut {a b : Text} (h : Scanned (a ++ b)) (more : b ≠ []) :
    (JsonParser.clean.after a).objectEnd b = some b.length := by
  have whole := h.2
  rw [JsonParser.objectEnd_append, List.length_append] at whole
  have positive := List.length_pos_iff.mpr more
  cases first : JsonParser.clean.objectEnd a with
  | some k =>
    rw [first] at whole
    cases whole
    have := JsonParser.objectEnd_le first
    omega
  | none =>
    rw [first] at whole
    obtain ⟨m, hm, e⟩ := Option.map_eq_some_iff.mp whole
    rw [hm]
    congr 1
    omega

theorem Scanned.take_ends {o : Text} (h : Scanned o) {k size : Nat} (inside : k < o.length)
    (fits : o.length ≤ k + size) (t : Text) :
    (JsonParser.clean.after (o.take k)).objectEnd ((o.drop k ++ t).take size) =
      some (o.length - k) := by
  have left : (o.drop k).length = o.length - k := List.length_drop
  have filled : o.drop k ≠ [] := List.ne_nil_of_length_pos (by omega)
  have ends := Scanned.cut (a := o.take k) (by rwa [List.take_append_drop]) filled
  have whole : (o.drop k ++ t).take size = o.drop k ++ t.take (size - (o.drop k).length) := by
    rw [List.take_append, List.take_of_length_le (by omega)]
  rw [whole, JsonParser.objectEnd_append, ends, left]

theorem Scanned.take_open {o : Text} (h : Scanned o) {k size : Nat} (more : k + size < o.length) :
    (JsonParser.clean.after (o.take k)).objectEnd ((o.drop k).take size) = none := by
  have left : (o.drop k).length = o.length - k := List.length_drop
  have filled : o.drop k ≠ [] := List.ne_nil_of_length_pos (by omega)
  have ends := Scanned.cut (a := o.take k) (by rwa [List.take_append_drop]) filled
  cases early : (JsonParser.clean.after (o.take k)).objectEnd ((o.drop k).take size) with
  | none => rfl
  | some n =>
    have short := JsonParser.objectEnd_le early
    rw [← List.take_append_drop size (o.drop k), JsonParser.objectEnd_append, early,
      List.take_append_drop, left] at ends
    cases ends
    rw [List.length_take] at short
    omega

def isPlain (c : UInt8) : Bool := c ∉ chars ['"', '[', ']', '{', '}']

/-- What can stand in an object: names, values and blanks, in at most `d` more pairs of
brackets and without an escaped quote -/
inductive Nested : Nat → Text → Prop
  | nil {d : Nat} : Nested d []
  | plain {d : Nat} {c : UInt8} {t : Text} : isPlain c → Nested d t → Nested d (c :: t)
  | string {d : Nat} {s t : Text} : quote ∉ s → Nested d t →
      Nested d (quote :: (s ++ quote :: t))
  | array {d : Nat} {a t : Text} : Nested d a → Nested (d + 1) t →
      Nested (d + 1) ('['.toUInt8 :: (a ++ ']'.toUInt8 :: t))
  | object {d : Nat} {a t : Text} : Nested d a → Nested (d + 1) t →
      Nested (d + 1) ('{'.toUInt8 :: (a ++ '}'.toUInt8 :: t))

namespace JsonParser
variable {p : JsonParser} {t : Text} {c : UInt8}

def depth (p : JsonParser) : Nat := p.objDepth.toNat + p.arrDepth.toNat

theorem parse_inside (open_ : 0 < (p.parse c 0).1.depth) : (p.parse c 0).2 ≠ .objEnd := by
  unfold depth at open_
  revert open_
  unfold parse
  split
  · simp
  · simp only
    split_ifs <;> simp
    omega

theorem objectEnd_inside {q : JsonParser} (parsed : (p.parse c 0).1 = q) (open_ : 0 < q.depth) :
    p.objectEnd (c :: t) = (q.objectEnd t).map (· + 1) := by
  subst parsed
  rw [objectEnd, if_neg (parse_inside open_)]

theorem parse_plain (h : isPlain c) : (p.parse c 0).1 = p := by
  simp only [isPlain, chars, List.map_cons, List.map_nil, List.mem_cons, List.not_mem_nil, or_false,
    not_or, decide_eq_true_eq] at h
  obtain ⟨a, b, c', d, e⟩ := h
  unfold parse classify
  split
  · rfl
  · simp only
    split_ifs <;> rfl

theorem objectEnd_string {s u : Text} (h : quote ∉ s) (outer : 0 < p.depth) (free : p.strDepth = 0) :
    p.objectEnd (quote :: (s ++ quote :: u)) = (p.objectEnd u).map (· + (s.length + 2)) := by
  have opens : (p.parse quote 0).1 = { p with strDepth := 1 } := by
    simp [parse, classify, quote, free]
  have closes : (JsonParser.parse { p with strDepth := 1 } quote 0).1 = p := by
    obtain ⟨a, b, c⟩ := p
    cases free
    simp [parse, classify, quote]
  have within (s : Text) (h : quote ∉ s) :
      JsonParser.objectEnd { p with strDepth := 1 } (s ++ quote :: u) =
        (p.objectEnd u).map (· + (s.length + 1)) := by
    induction s with
    | nil => exact objectEnd_inside closes outer
    | cons c s ih =>
      have other : c ≠ '"'.toUInt8 := fun e => h (by rw [e]; exact List.mem_cons_self)
      have stays : (JsonParser.parse { p with strDepth := 1 } c 0).1 = { p with strDepth := 1 } := by
        unfold parse
        rw [if_pos ⟨by simp, other⟩]
      rw [List.cons_append, objectEnd_inside stays outer, ih fun e => h (List.mem_cons_of_mem _ e),
        Option.map_map]
      congr 1
  rw [objectEnd_inside opens outer, within s h, Option.map_map]
  congr 1

theorem succ_toNat {a : UInt8} (h : a.toNat < 255) : (a + 1).toNat = a.toNat + 1 := by
  rw [UInt8.toNat_add]
  exact Nat.mod_eq_of_lt (by simp; omega)

theorem parse_openArray (free : p.strDepth = 0) :
    (p.parse '['.toUInt8 0).1 = { p with arrDepth := p.arrDepth + 1 } := by
  obtain ⟨obj, arr, str⟩ := p
  cases free
  rfl

theorem parse_openObject (free : p.strDepth = 0) :
    (p.parse '{'.toUInt8 0).1 = { p with objDepth := p.objDepth + 1 } := by
  obtain ⟨obj, arr, str⟩ := p
  cases free
  rfl

theorem parse_closeArray (free : p.strDepth = 0) (h : p.arrDepth.toNat < 255) :
    (JsonParser.parse { p with arrDepth := p.arrDepth + 1 } ']'.toUInt8 0).1 = p := by
  have up : p.arrDepth + 1 ≠ 0 := fun e => by simpa [e] using succ_toNat h
  have down : p.arrDepth + 1 - 1 = p.arrDepth := by simp
  unfold parse
  rw [if_neg fun e => e.1 free, classify, if_neg (by decide), if_neg (by decide), if_pos rfl,
    if_pos up]
  simp only [down]

theorem parse_closeObject (free : p.strDepth = 0) (h : p.objDepth.toNat < 255) :
    (JsonParser.parse { p with objDepth := p.objDepth + 1 } '}'.toUInt8 0).1 = p := by
  have up : p.objDepth + 1 ≠ 0 := fun e => by simpa [e] using succ_toNat h
  have down : p.objDepth + 1 - 1 = p.objDepth := by simp
  unfold parse
  rw [if_neg fun e => e.1 free, classify, if_neg (by decide), if_neg (by decide), if_neg (by decide),
    if_neg (by decide), if_pos rfl, if_pos up]
  simp only [down]

theorem objectEnd_pair {q : JsonParser} {c' : UInt8} {a u : Text} (opens : (p.parse c 0).1 = q)
    (closes : (q.parse c' 0).1 = p) (outer : 0 < p.depth) (deeper : 0 < q.depth)
    (inner : ∀ u, q.objectEnd (a ++ u) = (q.objectEnd u).map (· + a.length)) :
    p.objectEnd (c :: (a ++ c' :: u)) = (p.objectEnd u).map (· + (a.length + 2)) := by
  rw [objectEnd_inside opens deeper, inner, objectEnd_inside closes outer, Option.map_map,
    Option.map_map]
  congr 1
  funext n
  simp only [Function.comp]
  omega

theorem objectEnd_nested {d : Nat} (h : Nested d t) (u : Text) (outer : 0 < p.depth)
    (free : p.strDepth = 0) (shallow : p.depth + d < 256) :
    p.objectEnd (t ++ u) = (p.objectEnd u).map (· + t.length) := by
  have wrap {n m : Nat} : (fun k => k + (n + 2)) ∘ (fun k => k + m) =
      fun k : Nat => k + (n + (m + 1) + 1) := by
    funext k
    simp only [Function.comp]
    omega
  induction h generalizing p u with
  | nil => simp
  | @plain d c t plain _ ih =>
    rw [List.cons_append, objectEnd_inside (parse_plain plain) outer, ih u outer free shallow,
      Option.map_map]
    rfl
  | @string d s t closed _ ih =>
    rw [List.cons_append, List.append_assoc, List.cons_append, objectEnd_string closed outer free,
      ih u outer free shallow, Option.map_map, List.length_cons, List.length_append,
      List.length_cons, wrap]
  | @array d a t _ _ inner rest =>
    have low : p.arrDepth.toNat < 255 := by
      unfold depth at shallow
      omega
    have deep : JsonParser.depth { p with arrDepth := p.arrDepth + 1 } = p.depth + 1 := by
      simp only [depth, succ_toNat low, Nat.add_assoc]
    rw [List.cons_append, List.append_assoc, List.cons_append,
      objectEnd_pair (parse_openArray free) (parse_closeArray free low) outer (by omega)
        (fun u => inner u (by omega) free (by omega)),
      rest u outer free shallow, Option.map_map, List.length_cons, List.length_append,
      List.length_cons, wrap]
  | @object d a t _ _ inner rest =>
    have low : p.objDepth.toNat < 255 := by
      unfold depth at shallow
      omega
    have deep : JsonParser.depth { p with objDepth := p.objDepth + 1 } = p.depth + 1 := by
      simp only [depth, succ_toNat low]
      omega
    rw [List.cons_append, List.append_assoc, List.cons_append,
      objectEnd_pair (parse_openObject free) (parse_closeObject free low) outer (by omega)
        (fun u => inner u (by omega) free (by omega)),
      rest u outer free shallow, Option.map_map, List.length_cons, List.length_append,
      List.length_cons, wrap]

end JsonParser

theorem Nested.scanned {d : Nat} {t : Text} (h : Nested d t) (shallow : d < 255) :
    Scanned ('{'.toUInt8 :: (t ++ ['}'.toUInt8])) := by
  refine ⟨rfl, ?_⟩
  have opens : (JsonParser.clean.parse '{'.toUInt8 0).1 = ⟨1, 0, 0⟩ := by decide
  have closes : JsonParser.objectEnd ⟨1, 0, 0⟩ ['}'.toUInt8] = some 1 := by decide
  rw [JsonParser.objectEnd_inside opens (by decide),
    JsonParser.objectEnd_nested h _ (by decide) rfl (by simp [JsonParser.depth]; omega), closes]
  simp [Nat.add_comm]

end EmmaNode

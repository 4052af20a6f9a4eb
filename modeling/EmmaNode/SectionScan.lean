import EmmaNode.JsonObjects
import EmmaNode.PatternIndex
import EmmaNode.TornAgents

/-! An agent's scanner over JSON. Deeper than the members of the object itself every state is
content, and a pattern is met at the bracket or quote that opens the value of its member. -/

namespace EmmaNode

theorem JsonText.isPlain_of_not_structural {c : UInt8} (h : c ∉ JsonText.structural) :
    isPlain c := by
  rw [isPlain, decide_eq_true_iff]
  intro hm
  refine h ((List.subset_def.mp ?_) hm)
  decide

namespace JsonParser
variable {q q' q'' : JsonParser} {c : UInt8} {t u : Text}

theorem parse_fst (q : JsonParser) (c : UInt8) (depth : Nat) :
    (q.parse c depth).1 = (q.parse c 0).1 := by
  unfold parse
  split <;> rfl

inductive Quiet : JsonParser → Text → JsonParser → Prop
  | nil {q : JsonParser} : Quiet q [] q
  | cons {q q' : JsonParser} {c : UInt8} {t : Text} : (q.parse c 1).2 = .content →
      Quiet (q.parse c 0).1 t q' → Quiet q (c :: t) q'

theorem Quiet.append (h : Quiet q t q') (h' : Quiet q' u q'') : Quiet q (t ++ u) q'' := by
  induction h with
  | nil => exact h'
  | cons state _ ih => exact .cons state (ih h')

theorem parse_content (deep : 2 ≤ (q.parse c 0).1.depth)
    (deeper : c = '{'.toUInt8 ∨ c = '['.toUInt8 → 3 ≤ (q.parse c 0).1.depth) :
    (q.parse c 1).2 = .content := by
  rw [← parse_fst q c 1] at deep deeper
  unfold parse depth at *
  split at deep
  · rw [if_pos ‹_›]
  · rw [if_neg ‹_›] at deeper ⊢
    simp only at deep deeper ⊢
    generalize q.classify c = classified at *
    split_ifs with arr obj
    · have := deeper (.inr arr.2)
      omega
    · have := deeper (.inl obj.2)
      omega
    · rfl
    · omega

theorem Quiet.plain (deep : 2 ≤ q.depth) (h : ∀ c ∈ t, isPlain c) : Quiet q t q := by
  induction t with
  | nil => exact .nil
  | cons c t ih =>
    have here := h c List.mem_cons_self
    have same := parse_plain (p := q) here
    refine .cons (parse_content (by rw [same]; exact deep) ?_) ?_
    · rintro (rfl | rfl) <;> cases here
    · rw [same]
      exact ih fun c hc => h c (.tail _ hc)

theorem Quiet.inside (open' : q.strDepth ≠ 0) (h : JsonStrings.quote ∉ t) : Quiet q t q := by
  induction t with
  | nil => exact .nil
  | cons c t ih =>
    have other : c ≠ '"'.toUInt8 := fun e => h (by rw [e]; exact List.mem_cons_self)
    have state : q.parse c 1 = (q, .content) := by
      unfold parse
      rw [if_pos ⟨open', other⟩]
    refine .cons (by rw [state]) ?_
    rw [← parse_fst q c 1, state]
    exact ih fun hm => h (.tail _ hm)

theorem Quiet.quoted (deep : 2 ≤ q.depth) (free : q.strDepth = 0) (h : JsonStrings.quote ∉ t) :
    Quiet q (JsonStrings.quoted t) q := by
  have opens : (q.parse JsonStrings.quote 0).1 = { q with strDepth := 1 } := by
    simp [parse, classify, JsonStrings.quote, free]
  have closes : (JsonParser.parse { q with strDepth := 1 } JsonStrings.quote 0).1 = q := by
    obtain ⟨a, b, c⟩ := q
    cases free
    simp [parse, classify, JsonStrings.quote]
  have other : ¬(JsonStrings.quote = '{'.toUInt8 ∨ JsonStrings.quote = '['.toUInt8) := by decide
  refine .cons (parse_content (by rw [opens]; exact deep) fun e => absurd e other) ?_
  rw [opens]
  refine (Quiet.inside (by simp) h).append (.cons (parse_content ?_ fun e => absurd e other) ?_)
  · rw [closes]
    exact deep
  · rw [closes]
    exact .nil

theorem Quiet.brackets {c' : UInt8} (deep : 2 ≤ q.depth) (opens : (q.parse c 0).1 = q')
    (deeper : q'.depth = q.depth + 1) (closes : (q'.parse c' 0).1 = q)
    (other : ¬(c' = '{'.toUInt8 ∨ c' = '['.toUInt8)) (inner : Quiet q' t q') :
    Quiet q (c :: (t ++ [c'])) q := by
  refine .cons (parse_content ?_ fun _ => ?_) ?_
  · rw [opens]
    omega
  · rw [opens]
    omega
  · rw [opens]
    refine inner.append (.cons (parse_content ?_ fun e => absurd e other) ?_)
    · rw [closes]
      exact deep
    · rw [closes]
      exact .nil

theorem depth_array {q : JsonParser} (h : q.arrDepth.toNat < 255) :
    JsonParser.depth { q with arrDepth := q.arrDepth + 1 } = q.depth + 1 := by
  simp only [depth, succ_toNat h, Nat.add_assoc]

theorem depth_object {q : JsonParser} (h : q.objDepth.toNat < 255) :
    JsonParser.depth { q with objDepth := q.objDepth + 1 } = q.depth + 1 := by
  simp only [depth, succ_toNat h]
  omega

theorem Quiet.deep {C : Text → Prop} (clear : ∀ s, C s → JsonStrings.quote ∉ s)
    {part : JsonText.Part} {o a : Nat} (h : JsonText C part o a t) (deep : 2 ≤ q.depth)
    (free : q.strDepth = 0) (objects : q.objDepth.toNat + o ≤ 255)
    (arrays : q.arrDepth.toNat + a ≤ 255) : Quiet q t q := by
  have mark {q : JsonParser} (deep : 2 ≤ q.depth) {c : UInt8} (h : isPlain c) : Quiet q [c] q :=
    Quiet.plain deep fun b hb => by rwa [List.mem_singleton.mp hb]
  induction h generalizing q with
  | scalar h =>
    exact Quiet.plain deep fun c hc => JsonText.isPlain_of_not_structural (h.plain.2 c hc)
  | string h => exact Quiet.quoted deep free (clear _ h)
  | noElements =>
    have low : q.arrDepth.toNat < 255 := by omega
    exact Quiet.brackets deep (parse_openArray free) (depth_array low) (parse_closeArray free low)
      (by decide) .nil
  | array _ ih =>
    have low : q.arrDepth.toNat < 255 := by omega
    have deeper := depth_array low
    refine Quiet.brackets deep (parse_openArray free) deeper (parse_closeArray free low)
      (by decide) (ih (by omega) free objects ?_)
    simp only [succ_toNat low]
    omega
  | noMembers =>
    have low : q.objDepth.toNat < 255 := by omega
    exact Quiet.brackets deep (parse_openObject free) (depth_object low)
      (parse_closeObject free low) (by decide) .nil
  | object _ ih =>
    have low : q.objDepth.toNat < 255 := by omega
    have deeper := depth_object low
    refine Quiet.brackets deep (parse_openObject free) deeper (parse_closeObject free low)
      (by decide) (ih (by omega) free ?_ arrays)
    simp only [succ_toNat low]
    omega
  | element _ ih => exact ih deep free objects arrays
  | elements _ _ ih ih' =>
    exact (ih deep free objects arrays).append
      ((mark deep (by decide)).append (ih' deep free objects arrays))
  | member hk _ ih =>
    exact (Quiet.quoted deep free (clear _ hk)).append
      ((mark deep (by decide)).append (ih deep free objects arrays))
  | members hk _ _ ih ih' =>
    exact (Quiet.quoted deep free (clear _ hk)).append ((mark deep (by decide)).append
      ((ih deep free objects arrays).append
        ((mark deep (by decide)).append (ih' deep free objects arrays))))

end JsonParser

structure Scanner where
  parser : JsonParser
  index : Pattern → UInt8

namespace Scanner
variable (P : Platform)

def turn (sc : Scanner) (c : UInt8) : Scanner :=
  ⟨(sc.parser.parse c 1).1, fun p => p.advance P (sc.index p) c⟩

def turns (sc : Scanner) (t : Text) : Scanner := t.foldl (turn P) sc

/-- A pattern ends with the character, and not inside a value. -/
def Meets (sc : Scanner) (c : UInt8) (p : Pattern) : Prop :=
  p.byte P (p.advance P (sc.index p) c).toNat = 0 ∧ (sc.parser.parse c 1).2 ≠ .content

instance (sc : Scanner) (c : UInt8) (p : Pattern) : Decidable (sc.Meets P c p) :=
  inferInstanceAs (Decidable (_ ∧ _))

def Calm : Scanner → Text → Prop
  | _, [] => True
  | sc, c :: t => (∀ p, ¬sc.Meets P c p) ∧ Calm (sc.turn P c) t

variable {P : Platform}

theorem turns_append (sc : Scanner) (t u : Text) :
    sc.turns P (t ++ u) = (sc.turns P t).turns P u := List.foldl_append

theorem Calm.append {sc : Scanner} {t u : Text} (h : Calm P sc t)
    (h' : Calm P (sc.turns P t) u) : Calm P sc (t ++ u) := by
  induction t generalizing sc with
  | nil => exact h'
  | cons c t ih => exact ⟨h.1, ih h.2 h'⟩

theorem index_turns (sc : Scanner) (t : Text) (p : Pattern) :
    (sc.turns P t).index p = p.track P (sc.index p) t := by
  induction t generalizing sc with
  | nil => rfl
  | cons c t ih => exact ih (sc.turn P c)

end Scanner

namespace Agent
variable {P : Platform}

def scanner (a : Agent) : Scanner := ⟨a.parser, a.patternIndex⟩

def move (a : Agent) (sc : Scanner) : Agent :=
  { a with parser := sc.parser, patternIndex := sc.index }

def note (P : Platform) (a : Agent) (c : UInt8) (cnt : Nat) : Pattern → Int := fun p =>
  if a.scanner.Meets P c p then P.int (a.size.toNat + cnt) else a.fileIndex p

theorem watch_first {state : JsonState} {c : UInt8} {cnt : Nat} {patterns : List Pattern}
    (once : patterns.Nodup) {a : Agent}
    (fresh : ∀ p ∈ patterns, p.byte P (p.advance P (a.patternIndex p) c).toNat = 0 ∧
      state ≠ .content → a.fileIndex p = 0) :
    a.watch P state c cnt patterns = ({ a with
      patternIndex := fun p =>
        if p ∈ patterns then p.advance P (a.patternIndex p) c else a.patternIndex p
      fileIndex := fun p =>
        if p ∈ patterns ∧ p.byte P (p.advance P (a.patternIndex p) c).toNat = 0 ∧
          state ≠ .content then P.int (a.size.toNat + cnt) else a.fileIndex p }, false) := by
  induction patterns generalizing a with
  | nil => simp [watch]
  | cons p rest ih =>
    obtain ⟨apart, once⟩ := List.nodup_cons.mp once
    have here : (a.feed P p c).patternIndex p = p.advance P (a.patternIndex p) c := by
      simp [feed, Pattern.advance]
    have elsewhere (q : Pattern) (other : q ≠ p) :
        (a.feed P p c).patternIndex q = a.patternIndex q := by
      simp [feed, other]
    have same (q : Pattern) (hq : q ∈ rest) :
        (a.feed P p c).patternIndex q = a.patternIndex q :=
      elsewhere q fun e => apart (e ▸ hq)
    have files : (a.feed P p c).fileIndex = a.fileIndex := rfl
    have size : (a.feed P p c).size = a.size := rfl
    rw [watch]
    simp only [here, files, size]
    have indices (q : Pattern) :
        (if q ∈ rest then q.advance P ((a.feed P p c).patternIndex q) c
          else (a.feed P p c).patternIndex q) =
        if q ∈ p :: rest then q.advance P (a.patternIndex q) c else a.patternIndex q := by
      by_cases hq : q = p
      · subst hq
        simp [apart, here]
      · simp [hq, elsewhere q hq]
    by_cases met : p.byte P (p.advance P (a.patternIndex p) c).toNat = 0 ∧ state ≠ .content
    · rw [if_pos met, if_pos (fresh p List.mem_cons_self met), ih once fun q hq hm => ?_]
      · simp only [Prod.mk.injEq, and_true, mk.injEq]
        refine ⟨rfl, funext indices, funext fun q => ?_, trivial, rfl⟩
        by_cases hq : q = p
        · subst hq
          simp [apart, met]
        · simp [hq, elsewhere q hq]
      · simp only [same q hq] at hm
        have other : q ≠ p := fun e => apart (e ▸ hq)
        simp only [Function.update_of_ne other]
        exact fresh q (.tail _ hq) hm
    · rw [if_neg met, ih once fun q hq hm => ?_]
      · simp only [Prod.mk.injEq, and_true, mk.injEq]
        refine ⟨rfl, funext indices, funext fun q => ?_, rfl, rfl⟩
        by_cases hq : q = p
        · subst hq
          have not' : ¬(q.byte P (q.advance P (a.patternIndex q) c).toNat = 0 ∧
            ¬state = .content) := met
          simp [apart, not', files]
        · simp [hq, elsewhere q hq, files, size]
      · simp only [same q hq] at hm
        exact fresh q (.tail _ hq) hm

theorem scan_meet {a : Agent} {c : UInt8} (fresh : ∀ p, a.scanner.Meets P c p → a.fileIndex p = 0)
    (t : Text) (cnt : Nat) : a.scan P (c :: t) cnt =
      Agent.scan P t (cnt + 1)
        { a.move (a.scanner.turn P c) with fileIndex := a.note P c cnt } := by
  have all (p : Pattern) : p ∈ Pattern.all := by cases p <;> decide
  have once : Pattern.all.Nodup := by decide
  have watched : Agent.watch P (a.parser.parse c 1).2 c cnt Pattern.all
      { a with parser := (a.parser.parse c 1).1 } = _ := watch_first once fun p _ hm => fresh p hm
  rw [scan]
  simp only [watched, all, if_true, true_and]
  rfl

theorem scan_calm {a : Agent} {t : Text} (h : Scanner.Calm P a.scanner t) (u : Text) (cnt : Nat) :
    a.scan P (t ++ u) cnt = Agent.scan P u (cnt + t.length) (a.move (a.scanner.turns P t)) := by
  induction t generalizing a cnt with
  | nil => rfl
  | cons c t ih =>
    have note : a.note P c cnt = a.fileIndex := funext fun p => if_neg (h.1 p)
    rw [List.cons_append, scan_meet fun p hm => absurd hm (h.1 p), note]
    have later := @ih (a.move (a.scanner.turn P c)) h.2 (cnt + 1)
    rw [Nat.add_assoc, Nat.add_comm 1] at later
    exact later

end Agent

namespace Scanner
variable {P : Platform} {sc : Scanner} {c : UInt8} {t : Text} {p : Pattern}

open JsonStrings (opening closing comma quoted)
open JsonText (colon openBrace closeBrace structural)

/-- No index is behind the end of its pattern. -/
def Within (sc : Scanner) : Prop := ∀ p, (sc.index p).toNat ≤ p.text.length

theorem Within.turn (h : sc.Within) (nonzero : c ≠ 0) : (sc.turn P c).Within :=
  fun p => Pattern.advance_le (h p) nonzero

theorem Within.turns (h : sc.Within) (nonzero : 0 ∉ t) : (sc.turns P t).Within := fun p => by
  rw [index_turns]
  exact Pattern.track_le (h p) nonzero

theorem meets_iff (h : sc.Within) (nonzero : c ≠ 0) : sc.Meets P c p ↔
    ((sc.index p).toNat = p.key.length + 3 ∧ c = p.opener) ∧
      (sc.parser.parse c 1).2 ≠ .content := by
  rw [Meets, Pattern.advance_full (h p) nonzero]

theorem opener_structural (p : Pattern) : p.opener = JsonStrings.quote ∨ p.opener = opening := by
  cases p
  · exact .inl rfl
  · exact .inr rfl
  · exact .inr rfl
  · exact .inl rfl

theorem calm_other (h : sc.Within) (nonzero : c ≠ 0) (other : c ≠ JsonStrings.quote ∧ c ≠ opening) :
    Calm P sc [c] := by
  refine ⟨fun p hm => ?_, trivial⟩
  obtain ⟨⟨-, same⟩, -⟩ := (meets_iff h nonzero).mp hm
  rcases opener_structural p with e | e
  · exact other.1 (same.trans e)
  · exact other.2 (same.trans e)

theorem calm_early (h : sc.Within) (nonzero : c ≠ 0)
    (early : ∀ p, (sc.index p).toNat ≠ p.key.length + 3) : Calm P sc [c] :=
  ⟨fun p hm => early p ((meets_iff h nonzero).mp hm).1.1, trivial⟩

theorem parser_turns (sc : Scanner) (t : Text) :
    (sc.turns P t).parser = sc.parser.after t := by
  induction t generalizing sc with
  | nil => rfl
  | cons c t ih =>
    have first : (sc.turn P c).parser = (sc.parser.parse c 0).1 := JsonParser.parse_fst _ _ _
    rw [turns, List.foldl_cons, JsonParser.after, List.foldl_cons, ← first]
    exact ih (sc.turn P c)

end Scanner

theorem JsonParser.Quiet.calm {P : Platform} {sc : Scanner} {t : Text} {q : JsonParser}
    (h : Quiet sc.parser t q) : Scanner.Calm P sc t ∧ (sc.turns P t).parser = q := by
  generalize hq : sc.parser = start at h
  induction h generalizing sc with
  | nil => exact ⟨trivial, hq⟩
  | @cons start q c t state _ ih =>
    subst hq
    have next := @ih (sc.turn P c) (parse_fst _ _ _)
    exact ⟨⟨fun p hm => hm.2 state, next.1⟩, next.2⟩

namespace Scanner
variable {P : Platform} {sc : Scanner} {c : UInt8} {t : Text} {p : Pattern}

open JsonStrings (opening closing comma quoted)
open JsonText (colon openBrace closeBrace structural)

def top : JsonParser := ⟨1, 0, 0⟩

structure AtMember (sc : Scanner) : Prop where
  parser : sc.parser = top
  index : ∀ p, sc.index p = 0

theorem AtMember.within (h : sc.AtMember) : sc.Within := fun p => by
  rw [h.index p]
  exact Nat.zero_le _

theorem AtMember.key (h : sc.AtMember) {k : Text} (clear : JsonStrings.quote ∉ k)
    (nonzero : 0 ∉ k) : Calm P sc (quoted k ++ [colon]) ∧ (sc.turns P (quoted k ++ [colon])).parser = top ∧
      ∀ p, ((sc.turns P (quoted k ++ [colon])).index p).toNat =
        if k = p.key then p.key.length + 3 else 0 := by
  have split : quoted k ++ [colon] =
      (JsonStrings.quote :: k) ++ [JsonStrings.quote] ++ [colon] := by simp [quoted]
  have within : (sc.turn P JsonStrings.quote).Within := h.within.turn (by decide)
  have inside : JsonParser.Quiet (sc.turn P JsonStrings.quote).parser k ⟨1, 0, 1⟩ := by
    have opened : (sc.turn P JsonStrings.quote).parser = ⟨1, 0, 1⟩ := by
      rw [turn, h.parser]
      change (top.parse JsonStrings.quote 1).1 = _
      decide
    rw [opened]
    exact JsonParser.Quiet.inside (by decide) clear
  have named : Calm P sc (JsonStrings.quote :: k) := by
    refine ⟨fun p hm => ?_, (inside.calm (P := P)).1⟩
    have := ((meets_iff h.within (by decide)).mp hm).1.1
    rw [h.index p] at this
    cases this
  have low : ∀ p, ((sc.turns P (JsonStrings.quote :: k)).index p).toNat ≠ p.key.length + 3 := by
    intro p
    rw [index_turns, h.index p, Pattern.track_open clear]
    split
    · rename_i pre
      have := pre.length_le
      omega
    · exact Nat.noConfusion
  have closes : Calm P (sc.turns P (JsonStrings.quote :: k)) [JsonStrings.quote] :=
    calm_early (within.turns nonzero) (by decide) low
  have closed : (sc.turns P ((JsonStrings.quote :: k) ++ [JsonStrings.quote])).parser = top := by
    rw [turns_append, parser_turns]
    have behind : (sc.turns P (JsonStrings.quote :: k)).parser = ⟨1, 0, 1⟩ :=
      (inside.calm (P := P)).2
    rw [behind]
    decide
  refine ⟨?_, ?_, fun p => ?_⟩
  · rw [split]
    refine (named.append closes).append (calm_other ?_ (by decide) (by decide))
    rw [turns_append]
    exact (within.turns nonzero).turns (by decide)
  · rw [split, turns_append, parser_turns, closed]
    decide
  · rw [index_turns, h.index p]
    exact Pattern.track_quoted clear

/-- Ready for the value of a member: an index is at the last byte of its pattern, or at the
first. -/
structure AtValue (sc : Scanner) : Prop where
  parser : sc.parser = top
  index : ∀ p, sc.index p = 0 ∨ (sc.index p).toNat = p.key.length + 3

theorem AtValue.within (h : sc.AtValue) : sc.Within := fun p => by
  have := p.length_text
  rcases h.index p with e | e
  · rw [e]
    exact Nat.zero_le _
  · omega

theorem calm_plain (h : sc.Within) (plain : ∀ c ∈ t, c ∉ structural) :
    Calm P sc t ∧ (sc.turns P t).parser = sc.parser := by
  induction t generalizing sc with
  | nil => exact ⟨trivial, rfl⟩
  | cons c t ih =>
    have here := plain c List.mem_cons_self
    have nonzero : c ≠ 0 := fun e => here (by rw [e]; decide)
    have other : c ≠ JsonStrings.quote ∧ c ≠ opening :=
      ⟨fun e => here (by rw [e]; decide), fun e => here (by rw [e]; decide)⟩
    obtain ⟨calm, same⟩ := @ih (sc.turn P c) (h.turn nonzero) fun c hc => plain c (.tail _ hc)
    have kept : (sc.turn P c).parser = sc.parser := by
      rw [turn]
      exact (JsonParser.parse_fst _ _ _).trans
        (JsonParser.parse_plain (JsonText.isPlain_of_not_structural here))
    exact ⟨⟨(calm_other h nonzero other).1, calm⟩, same.trans kept⟩

theorem AtValue.rest {C : Text → Prop} (clear : ∀ s, C s → JsonStrings.quote ∉ s)
    (nonzero : ∀ s, C s → 0 ∉ s) {v : Text} (hv : JsonText C .value 254 255 v) (h : sc.AtValue) :
    ∃ c t, v = c :: t ∧ Calm P (sc.turn P c) t ∧ ((sc.turn P c).turns P t).parser = top := by
  have opened {c : UInt8} {q : JsonParser} (parsed : (top.parse c 1).1 = q) :
      (sc.turn P c).parser = q := by
    rw [turn, h.parser]
    exact parsed
  -- brackets around what is quiet
  have nested {c c' : UInt8} {q : JsonParser} {t : Text} (start : c ≠ 0) (clean : 0 ∉ t)
      (parsed : (top.parse c 1).1 = q) (quiet : JsonParser.Quiet q t q)
      (close : c' ≠ 0 ∧ c' ≠ JsonStrings.quote ∧ c' ≠ opening) (closes : (q.parse c' 0).1 = top) :
      Calm P (sc.turn P c) (t ++ [c']) ∧ ((sc.turn P c).turns P (t ++ [c'])).parser = top := by
    rw [← opened parsed] at quiet
    obtain ⟨calm, behind⟩ := quiet.calm (P := P)
    have within := (h.within.turn (P := P) start).turns (P := P) clean
    refine ⟨calm.append (calm_other within close.1 close.2), ?_⟩
    rw [turns_append, parser_turns, behind, opened parsed]
    exact closes
  cases hv with
  | scalar hv =>
    obtain ⟨some', plain⟩ := hv.plain
    obtain ⟨c, t, rfl⟩ := List.exists_cons_of_ne_nil some'
    obtain ⟨⟨-, calm⟩, behind⟩ := calm_plain (P := P) h.within plain
    exact ⟨c, t, rfl, calm, behind.trans h.parser⟩
  | @string _ _ s hs =>
    refine ⟨JsonStrings.quote, s ++ [JsonStrings.quote], rfl, ?_⟩
    have parsed := opened (c := JsonStrings.quote) (q := ⟨1, 0, 1⟩) (by decide)
    have quiet : JsonParser.Quiet (sc.turn P JsonStrings.quote).parser s ⟨1, 0, 1⟩ := by
      rw [parsed]
      exact JsonParser.Quiet.inside (by decide) (clear s hs)
    obtain ⟨calm, behind⟩ := quiet.calm (P := P)
    have low (p : Pattern) : p.Low (((sc.turn P JsonStrings.quote).turns P s).index p) := by
      rw [index_turns]
      exact (Pattern.low_quote (h.index p)).track (nonzero s hs) (clear s hs)
    have last : Calm P ((sc.turn P JsonStrings.quote).turns P s) [JsonStrings.quote] :=
      calm_early (fun p => (low p).le) (by decide) fun p e => by
        have := p.length_text
        rcases low p with l | l <;> omega
    refine ⟨calm.append last, ?_⟩
    rw [turns_append, parser_turns, behind]
    decide
  | noElements =>
    exact ⟨opening, [closing], rfl, nested (q := ⟨1, 1, 0⟩) (t := []) (by decide) (by simp)
      (by decide) .nil (by decide) (by decide)⟩
  | @array _ _ t ht =>
    have quiet : JsonParser.Quiet ⟨1, 1, 0⟩ t ⟨1, 1, 0⟩ :=
      .deep clear ht (by decide) rfl (by decide) (by decide)
    exact ⟨opening, t ++ [closing], rfl, nested (by decide) (JsonText.nonzero nonzero ht)
      (by decide) quiet (by decide) (by decide)⟩
  | noMembers =>
    exact ⟨openBrace, [closeBrace], rfl, nested (q := ⟨2, 0, 0⟩) (t := []) (by decide) (by simp)
      (by decide) .nil (by decide) (by decide)⟩
  | @object _ _ t ht =>
    have quiet : JsonParser.Quiet ⟨2, 0, 0⟩ t ⟨2, 0, 0⟩ :=
      .deep clear ht (by decide) rfl (by decide) (by decide)
    exact ⟨openBrace, t ++ [closeBrace], rfl, nested (by decide) (JsonText.nonzero nonzero ht)
      (by decide) quiet (by decide) (by decide)⟩

end Scanner
end EmmaNode

import EmmaNode.Tokens
import Mathlib.Data.List.Basic

/-! The language of the evaluator. A text is a list of tokens, operands between operators; an
expression is a tree whose tokens stand in the order of the text, grouped by the precedences of
the operator table, from the left among equals. Its value may be taken in the integers or as
the machine keeps them. -/

namespace EmmaNode

inductive Token where
  | operand (w : Text)
  | operator (op : Operator)
  deriving DecidableEq

def word (p : Text) : List Token := if p = [] then [] else [.operand p]

def tokensFrom : Nat → Text → List Token
  | 0, q => word q
  | n + 1, q =>
    match firstOperator q with
    | none => word q
    | some (p, op, rest) => word p ++ .operator op :: tokensFrom n rest

def tokens (q : Text) : List Token := tokensFrom q.length q

theorem tokensFrom_enough (n m : Nat) (q : Text) (hn : q.length ≤ n) (hm : q.length ≤ m) :
    tokensFrom n q = tokensFrom m q := by
  induction n generalizing m q with
  | zero =>
    obtain rfl : q = [] := List.length_eq_zero_iff.mp (by omega)
    cases m <;> rfl
  | succ n ih =>
    cases m with
    | zero =>
      obtain rfl : q = [] := List.length_eq_zero_iff.mp (by omega)
      rfl
    | succ m =>
      simp only [tokensFrom]
      cases hq : firstOperator q with
      | none => rfl
      | some found =>
        obtain ⟨p, op, rest⟩ := found
        have shorter := firstOperator_length hq
        simp only
        rw [ih m rest (by omega) (by omega)]

theorem tokens_none {q : Text} (h : firstOperator q = none) : tokens q = word q := by
  rw [tokens]
  cases q with
  | nil => rfl
  | cons c q => rw [List.length_cons, tokensFrom, h]

theorem tokens_some {q p rest : Text} {op : Operator}
    (h : firstOperator q = some (p, op, rest)) :
    tokens q = word p ++ .operator op :: tokens rest := by
  have shorter := firstOperator_length h
  obtain ⟨n, hn⟩ : ∃ n, q.length = n + 1 := ⟨q.length - 1, by omega⟩
  rw [tokens, hn, tokensFrom, h]
  simp only
  rw [tokensFrom_enough n rest.length rest (by omega) (Nat.le_refl _), tokens]

def Token.text : Token → Text
  | .operand w => w
  | .operator op => op.symbol

theorem word_text (p : Text) : (word p).flatMap Token.text = p := by
  unfold word
  split
  · simp [*]
  · simp [Token.text]

theorem tokens_text (q : Text) : (tokens q).flatMap Token.text = q := by
  induction hn : q.length using Nat.strongRecOn generalizing q with
  | ind n ih =>
    cases hq : firstOperator q with
    | none => rw [tokens_none hq, word_text]
    | some found =>
      obtain ⟨p, op, rest⟩ := found
      have shorter := firstOperator_length hq
      rw [tokens_some hq, List.flatMap_append, word_text, List.flatMap_cons,
        ih rest.length (by omega) rest rfl, firstOperator_eq hq, Token.text, List.append_assoc]

def halves : Text := chars ['|', '&', '=']

def Separate (w : Text) : Prop :=
  w ≠ [] ∧ firstOperator w = none ∧ ∀ c ∈ w.getLast?, c ∉ halves

theorem symbolAt_half {c : UInt8} {rest : Text} (alone : symbolAt [c] = none) (h : c ∉ halves) :
    symbolAt (c :: rest) = none := by
  cases hs : symbolAt (c :: rest) with
  | none => rfl
  | some op =>
    have spelled := symbolAt_spelled hs
    have first : c = op.symbol.headD 0 := by
      cases op <;> exact (List.cons.inj spelled).1
    have single : symbolAt [op.symbol.headD 0] ≠ none ∨ op.symbol.headD 0 ∈ halves := by
      cases op <;> decide
    rw [← first] at single
    rcases single with other | half
    · exact absurd alone other
    · exact absurd half h

theorem firstOperator_separate {w : Text} (bare : firstOperator w = none)
    (clear : ∀ c ∈ w.getLast?, c ∉ halves) (op : Operator) (rest : Text) :
    firstOperator (w ++ op.symbol ++ rest) = some (w, op, rest) := by
  induction w with
  | nil => exact firstOperator_symbol op rest
  | cons c w ih =>
    rw [firstOperator] at bare
    cases here : symbolAt (c :: w) with
    | some op' => rw [here] at bare; cases bare
    | none =>
      rw [here] at bare
      have bare : firstOperator w = none := Option.map_eq_none_iff.mp bare
      have none' : symbolAt (c :: (w ++ op.symbol ++ rest)) = none := by
        cases w with
        | nil => exact symbolAt_half here (clear c rfl)
        | cons d w =>
          have := symbolAt_none here (by simp) (op.symbol ++ rest)
          simpa using this
      rw [List.cons_append, List.cons_append, firstOperator, none']
      rw [ih bare fun b hb => clear b (by cases w <;> simp_all)]
      rfl

section
variable {σ : Type}

namespace Accum
variable (P : Platform) (solve : Text → σ → σ × Option Int)

def step (a : Accum σ) : Token → Option (Accum σ)
  | .operand w =>
    match a.addOperand P solve w with
    | (a, .ready) => some a
    | _ => none
  | .operator op =>
    match a.addOperator P (some op) with
    | (a, .ready) => some a
    | _ => none

def run : List Token → Accum σ → Option (Accum σ)
  | [], a => some a
  | t :: rest, a => (a.step P solve t).bind (run rest)

def conclude (a : Accum σ) : Option Int :=
  match a.addOperator P none with
  | (a, .ready) =>
    match a.operands with
    | [v] => some v
    | _ => none
  | _ => none

variable {P : Platform} {solve : Text → σ → σ × Option Int}

theorem run_append (ts us : List Token) (a : Accum σ) :
    a.run P solve (ts ++ us) = (a.run P solve ts).bind fun a => a.run P solve us := by
  induction ts generalizing a with
  | nil => rfl
  | cons t ts ih =>
    rw [List.cons_append, run, run, Option.bind_assoc]
    congr 1
    funext a
    exact ih a

theorem outcome_tokens (a : Accum σ) (q : Text) (nonzero : ∀ c ∈ q, c ≠ 0) :
    a.outcome P solve q = (a.run P solve (tokens q)).bind fun a => a.conclude P := by
  induction hn : q.length using Nat.strongRecOn generalizing a q with
  | ind n ih =>
    cases hq : firstOperator q with
    | none =>
      rw [outcome_none hq, tokens_none hq, finish]
      cases q with
      | nil => rfl
      | cons c q =>
        rw [if_neg (by simp), word, if_neg (by simp), run, step]
        generalize a.addOperand P solve (c :: q) = added
        obtain ⟨a, status⟩ := added
        cases status <;> rfl
    | some found =>
      obtain ⟨p, op, rest⟩ := found
      have shorter := firstOperator_length hq
      have text := firstOperator_eq hq
      have later (a : Accum σ) := ih rest.length (by omega) a rest
        (fun c hc => nonzero c (by rw [text]; exact List.mem_append_right _ hc)) rfl
      have operator (a : Accum σ) : (match a.addOperator P (some op) with
          | (a, .ready) => some a
          | _ => none).bind (fun a => a.outcome P solve rest) =
            (a.run P solve (.operator op :: tokens rest)).bind fun a => a.conclude P := by
        rw [run, step, Option.bind_assoc]
        congr 1
        funext a
        exact later a
      rw [outcome_some hq, tokens_some hq, token, run_append]
      cases p with
      | nil =>
        rw [addOperand_nil]
        exact operator a
      | cons c p =>
        have filled := @addOperand_filled σ P solve a c p
          (nonzero c (by rw [text]; simp))
        rw [word, if_neg (by simp), run, step]
        revert filled
        generalize a.addOperand P solve (c :: p) = added
        obtain ⟨a, status⟩ := added
        intro filled
        cases status
        case ready => exact operator a
        case emptyOperand => exact absurd rfl filled
        all_goals rfl

end Accum
end

def isDigit (c : UInt8) : Bool := '0'.toUInt8 ≤ c ∧ c ≤ '9'.toUInt8

/-- Digits only -/
def Literal (w : Text) : Prop := w ≠ [] ∧ ∀ c ∈ w, isDigit c

/-- A name that is not taken for a number -/
def Reference (w : Text) : Prop := 0 ∉ w ∧ ∃ c ∈ w.head?, isDigit c = false ∧ c ≠ '-'.toUInt8

instance (w : Text) : Decidable (Literal w) :=
  @instDecidableAnd _ _ inferInstance (List.decidableBAll _ w)

instance (w : Text) : Decidable (Reference w) := by unfold Reference; infer_instance

def Operator.isBinary (op : Operator) : Bool := Operator.not.precedence < op.precedence

inductive Expr where
  | operand (w : Text)
  | paren (e : Expr)
  | not (e : Expr)
  | binary (op : Operator) (a b : Expr)
  deriving DecidableEq

namespace Expr

def tokens : Expr → List Token
  | .operand w => [.operand w]
  | .paren e => .operator .oSeparator :: (e.tokens ++ [.operator .fSeparator])
  | .not e => .operator .not :: e.tokens
  | .binary op a b => a.tokens ++ .operator op :: b.tokens

def text (e : Expr) : Text := e.tokens.flatMap Token.text

theorem tokens_text {e : Expr} (separate : ∀ w, .operand w ∈ e.tokens → Separate w) :
    EmmaNode.tokens e.text = e.tokens := by
  have follows (e : Expr) (separate : ∀ w, .operand w ∈ e.tokens → Separate w) (q : Text)
      (next : q = [] ∨ ∃ (op : Operator) (rest : Text), q = op.symbol ++ rest) :
      EmmaNode.tokens (e.text ++ q) = e.tokens ++ EmmaNode.tokens q := by
    have symbol (op : Operator) (rest : Text) :
        EmmaNode.tokens (op.symbol ++ rest) = .operator op :: EmmaNode.tokens rest := by
      rw [tokens_some (firstOperator_symbol op rest)]
      rfl
    induction e generalizing q with
    | operand w =>
      obtain ⟨filled, bare, clear⟩ := separate w (by simp [tokens])
      have text : (Expr.operand w).text = w := by simp [text, tokens, Token.text]
      rw [text, tokens]
      rcases next with rfl | ⟨op, rest, rfl⟩
      · rw [List.append_nil, tokens_none bare, word, if_neg filled]
        rfl
      · rw [← List.append_assoc, tokens_some (firstOperator_separate bare clear op rest), symbol,
          word, if_neg filled]
    | paren e ih =>
      have text : e.paren.text ++ q =
          Operator.oSeparator.symbol ++ (e.text ++ (Operator.fSeparator.symbol ++ q)) := by
        simp [text, tokens, Token.text]
      rw [text, symbol, ih (fun w hw => separate w (by simp [tokens, hw])) _ (.inr ⟨_, _, rfl⟩),
        symbol, tokens]
      simp
    | not e ih =>
      have text : e.not.text ++ q = Operator.not.symbol ++ (e.text ++ q) := by
        simp [text, tokens, Token.text]
      rw [text, symbol, ih (fun w hw => separate w (by simp [tokens, hw])) q next, tokens]
      rfl
    | binary op a b iha ihb =>
      have text : (Expr.binary op a b).text ++ q = a.text ++ (op.symbol ++ (b.text ++ q)) := by
        simp [text, tokens, Token.text]
      rw [text, iha (fun w hw => separate w (by simp [tokens, hw])) _ (.inr ⟨_, _, rfl⟩), symbol,
        ihb (fun w hw => separate w (by simp [tokens, hw])) q next, tokens]
      simp
  simpa [EmmaNode.tokens, tokensFrom, word] using follows e separate [] (.inl rfl)

def level : Expr → Nat
  | .operand _ => 0
  | .paren _ => 0
  | .not _ => Operator.not.precedence
  | .binary op _ _ => op.precedence

def WellFormed : Expr → Prop
  | .operand w => Literal w ∨ Reference w
  | .paren e => e.WellFormed
  | .not e => e.WellFormed ∧ e.level ≤ Operator.not.precedence
  | .binary op a b =>
    op.isBinary ∧ a.WellFormed ∧ b.WellFormed ∧ a.level ≤ op.precedence ∧ b.level < op.precedence

instance instDecidableWellFormed : (e : Expr) → Decidable e.WellFormed
  | .operand _ => by unfold WellFormed; infer_instance
  | .paren e => by have := instDecidableWellFormed e; unfold WellFormed; infer_instance
  | .not e => by have := instDecidableWellFormed e; unfold WellFormed; infer_instance
  | .binary _ a b => by
    have := instDecidableWellFormed a
    have := instDecidableWellFormed b
    unfold WellFormed
    infer_instance

end Expr

structure Arithmetic where
  keep : Int → Option Int
  moduloByZero : Int → Option Int

def Platform.machine (P : Platform) : Arithmetic :=
  ⟨fun x => some (P.int x), fun a => some (P.moduloByZero a)⟩

/-- The numbers of `operand_t` -/
def Platform.Fits (P : Platform) (x : Int) : Prop :=
  -(2 ^ (P.intBits - 1)) ≤ x ∧ x < 2 ^ (P.intBits - 1)

instance (P : Platform) (x : Int) : Decidable (P.Fits x) := by unfold Platform.Fits; infer_instance

def Platform.integers (P : Platform) : Arithmetic :=
  ⟨fun x => if P.Fits x then some x else none, fun _ => none⟩

def Arithmetic.unbounded : Arithmetic := ⟨some, fun _ => none⟩

def Operator.apply (A : Arithmetic) : Operator → Int → Int → Option Int
  | .logicalOr, a, b => some (truth (a ≠ 0 ∨ b ≠ 0))
  | .logicalAnd, a, b => some (truth (a ≠ 0 ∧ b ≠ 0))
  | .equals, a, b => some (truth (a = b))
  | .higherThan, a, b => some (truth (a > b))
  | .lowerThan, a, b => some (truth (a < b))
  | .plus, a, b => some (a + b)
  | .minus, a, b => some (a - b)
  | .time, a, b => some (a * b)
  | .divide, a, b => if b = 0 then none else some (Int.tdiv a b)
  | .modulo, a, b => if b = 0 then A.moduloByZero a else some (Int.tmod a b)
  | .not, _, _ | .reference, _, _ | .fSeparator, _, _ | .oSeparator, _, _ => none

def decimalValue (w : Text) : Nat := w.foldl (fun n c => 10 * n + (c.toNat - 48)) 0

section
variable {σ : Type} (A : Arithmetic) (solve : Text → σ → σ × Option Int)

def Expr.value : Expr → σ → Option (Int × σ)
  | .operand w, env =>
    if Literal w then (A.keep (decimalValue w)).map (·, env)
    else match solve w env with
      | (env, some v) => some (v, env)
      | (_, none) => none
  | .paren e, env => e.value env
  | .not e, env => (e.value env).map fun (v, env) => (truth (v = 0), env)
  | .binary op a b, env =>
    (a.value env).bind fun (x, env) =>
      (b.value env).bind fun (y, env) =>
        ((op.apply A x y).bind A.keep).map (·, env)

end

theorem Platform.int_fits (P : Platform) {x : Int} (h : P.Fits x) : P.int x = x := by
  obtain ⟨n, hn⟩ : ∃ n, P.intBits = n + 1 := ⟨P.intBits - 1, by have := P.intBits_ge; omega⟩
  unfold Fits at h
  rw [hn, Nat.add_sub_cancel] at h
  have twice : ((2 ^ (n + 1) : Nat) : Int) = 2 * 2 ^ n := by
    push_cast
    rw [Int.pow_succ, Int.mul_comm]
  rw [Platform.int, hn]
  refine Int.bmod_eq_of_le ?_ ?_ <;> omega

/-- One arithmetic agrees with another as far as it goes. -/
structure Arithmetic.Within (A B : Arithmetic) : Prop where
  keep : ∀ {x y : Int}, A.keep x = some y → B.keep x = some y
  moduloByZero : ∀ {x y : Int}, A.moduloByZero x = some y → B.moduloByZero x = some y

theorem Platform.integers_within_machine (P : Platform) : P.integers.Within P.machine where
  keep h := by
    obtain ⟨fits, e⟩ := Option.ite_none_right_eq_some.mp h
    exact (congrArg some (P.int_fits fits)).trans e
  moduloByZero h := by cases h

theorem Expr.value_within {σ : Type} {A B : Arithmetic} (within : A.Within B)
    {solve : Text → σ → σ × Option Int} {e : Expr} {env env' : σ} {v : Int}
    (h : e.value A solve env = some (v, env')) : e.value B solve env = some (v, env') := by
  have applied {op : Operator} {x y z : Int} (h : op.apply A x y = some z) :
      op.apply B x y = some z := by
    cases op
    case modulo =>
      simp only [Operator.apply] at h ⊢
      split_ifs at h ⊢
      · exact within.moduloByZero h
      · exact h
    all_goals exact h
  induction e generalizing env env' v with
  | operand w =>
    simp only [value] at h ⊢
    split at h
    · rename_i literal
      obtain ⟨x, hx, e⟩ := Option.map_eq_some_iff.mp h
      rw [if_pos literal, within.keep hx]
      exact congrArg some e
    · rename_i other
      rw [if_neg other]
      exact h
  | paren e ih => exact ih h
  | not e ih =>
    simp only [value] at h ⊢
    obtain ⟨⟨x, env₁⟩, hx, e⟩ := Option.map_eq_some_iff.mp h
    rw [ih hx]
    exact congrArg some e
  | binary op a b iha ihb =>
    simp only [value] at h ⊢
    obtain ⟨⟨x, env₁⟩, hx, h⟩ := Option.bind_eq_some_iff.mp h
    obtain ⟨⟨y, env₂⟩, hy, h⟩ := Option.bind_eq_some_iff.mp h
    obtain ⟨z, hz, e⟩ := Option.map_eq_some_iff.mp h
    obtain ⟨w, hw, hk⟩ := Option.bind_eq_some_iff.mp hz
    rw [iha hx, Option.bind_some, ihb hy, Option.bind_some, applied hw, Option.bind_some,
      within.keep hk]
    exact congrArg some e

theorem Expr.value_machine {σ : Type} {P : Platform} {solve : Text → σ → σ × Option Int} {e : Expr}
    {env env' : σ} {v : Int} (h : e.value P.integers solve env = some (v, env')) :
    e.value P.machine solve env = some (v, env') := value_within P.integers_within_machine h

end EmmaNode

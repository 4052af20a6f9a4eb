import Mathlib.Data.List.Basic

/-! Values under numbers that never fall, each written behind its distance from the number
before it. When the words for a distance and a value can be told apart from whatever follows
them, so can the sequences of any one length. -/

namespace EmmaNode

variable {α β : Type}

structure DistanceCode (α β : Type) where
  word : Nat → α → List β
  Fits : Nat → α → Prop
  unique : ∀ {d d' : Nat} {v v' : α} {rest rest' : List β}, Fits d v → Fits d' v' →
    word d v ++ rest = word d' v' ++ rest' → d = d' ∧ v = v' ∧ rest = rest'

namespace DistanceCode
variable (code : DistanceCode α β)

def encode (current : Nat) : List (Nat × α) → List β
  | [] => []
  | (n, v) :: more => code.word (n - current) v ++ encode n more

def Encodes (current : Nat) : List (Nat × α) → Prop
  | [] => True
  | (n, v) :: more => (current ≤ n ∧ code.Fits (n - current) v) ∧ Encodes n more

def last (current : Nat) : List (Nat × α) → Nat
  | [] => current
  | (n, _) :: more => last n more

variable {code} {current : Nat}

@[simp] theorem encode_nil : code.encode current [] = [] := rfl

@[simp] theorem last_nil : last current ([] : List (Nat × α)) = current := rfl

theorem last_append (xs ys : List (Nat × α)) :
    last current (xs ++ ys) = last (last current xs) ys := by
  induction xs generalizing current with
  | nil => rfl
  | cons x xs ih => exact ih

theorem encode_append (xs ys : List (Nat × α)) :
    code.encode current (xs ++ ys) = code.encode current xs ++ code.encode (last current xs) ys := by
  induction xs generalizing current with
  | nil => rfl
  | cons x xs ih => rw [List.cons_append, encode, ih, encode, List.append_assoc, last]

theorem encodes_append (xs ys : List (Nat × α)) :
    code.Encodes current (xs ++ ys) ↔
      code.Encodes current xs ∧ code.Encodes (last current xs) ys := by
  induction xs generalizing current with
  | nil => simp [Encodes]
  | cons x xs ih => simp only [List.cons_append, Encodes, last, ih, and_assoc]

theorem encode_unique {xs ys : List (Nat × α)} {rest rest' : List β}
    (hx : code.Encodes current xs) (hy : code.Encodes current ys) (length : xs.length = ys.length)
    (same : code.encode current xs ++ rest = code.encode current ys ++ rest') :
    xs = ys ∧ rest = rest' := by
  induction xs generalizing current ys with
  | nil =>
    obtain rfl := List.length_eq_zero_iff.mp length.symm
    exact ⟨rfl, same⟩
  | cons x xs ih =>
    cases ys with
    | nil => cases length
    | cons y ys =>
      obtain ⟨n, v⟩ := x
      obtain ⟨n', v'⟩ := y
      rw [encode, encode, List.append_assoc, List.append_assoc] at same
      obtain ⟨distance, rfl, behind⟩ := code.unique hx.1.2 hy.1.2 same
      have number : n = n' := by
        have := hx.1.1
        have := hy.1.1
        omega
      subst number
      obtain ⟨rfl, rest⟩ := ih hx.2 hy.2 (Nat.succ.inj length) behind
      exact ⟨rfl, rest⟩

end DistanceCode
end EmmaNode

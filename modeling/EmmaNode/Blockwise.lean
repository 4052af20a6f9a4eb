import Mathlib.Data.List.Basic

/-! Reading in blocks of `b` elements. A reader is asked at one offset after the other until
it gives a block that is not full. A reader that gives the slices of some content gives, block
by block, that content. -/

namespace EmmaNode

variable {α : Type} {read : Nat → Option (List α)} {b i : Nat} {content : List α}

inductive BlockReads (read : Nat → Option (List α)) (b : Nat) : Nat → List (List α) → Prop
  | last {i : Nat} {block : List α} : read i = some block → block.length < b →
      BlockReads read b i [block]
  | full {i : Nat} {block : List α} {rest : List (List α)} : read i = some block →
      block.length = b → BlockReads read b (i + b) rest → BlockReads read b i (block :: rest)

namespace BlockReads

theorem unique {blocks blocks' : List (List α)} (h : BlockReads read b i blocks)
    (h' : BlockReads read b i blocks') : blocks = blocks' := by
  induction h generalizing blocks' with
  | last hr short =>
    cases h' with
    | last hr' _ => rw [Option.some.inj (hr.symm.trans hr')]
    | full hr' size _ =>
      obtain rfl := Option.some.inj (hr.symm.trans hr')
      omega
  | full hr size _ ih =>
    cases h' with
    | last hr' short =>
      obtain rfl := Option.some.inj (hr.symm.trans hr')
      omega
    | full hr' _ rest => rw [Option.some.inj (hr.symm.trans hr'), ih rest]

theorem slice (slices : ∀ i ≤ content.length, read i = some ((content.drop i).take b))
    (hi : i ≤ content.length) {blocks : List (List α)} (h : BlockReads read b i blocks) {k : Nat}
    {block : List α} (hk : blocks[k]? = some block) :
    block = (content.drop (i + k * b)).take b := by
  induction h generalizing k with
  | @last i first hr short =>
    obtain ⟨inside, rfl⟩ := List.getElem?_eq_some_iff.mp hk
    obtain rfl : k = 0 := by simpa using inside
    simpa using Option.some.inj (hr.symm.trans (slices i hi))
  | @full i first rest hr size _ ih =>
    have here := Option.some.inj (hr.symm.trans (slices i hi))
    cases k with
    | zero =>
      obtain rfl : first = block := by simpa using hk
      simpa using here
    | succ k =>
      have inside : i + b ≤ content.length := by
        have := congrArg List.length here
        rw [size, List.length_take, List.length_drop] at this
        omega
      rw [ih inside (by simpa using hk), Nat.add_assoc, Nat.succ_mul, Nat.add_comm b]

theorem of_slices (positive : 0 < b)
    (slices : ∀ i ≤ content.length, read i = some ((content.drop i).take b))
    (hi : i ≤ content.length) :
    ∃ blocks, BlockReads read b i blocks ∧ blocks.flatten = content.drop i := by
  generalize left : content.length - i = n
  induction n using Nat.strongRecOn generalizing i with
  | _ n ih =>
    have here := slices i hi
    by_cases short : content.length - i < b
    · refine ⟨[(content.drop i).take b], .last here ?_, ?_⟩
      · simp only [List.length_take, List.length_drop]
        omega
      · rw [List.flatten_singleton, List.take_of_length_le]
        rw [List.length_drop]
        omega
    · obtain ⟨rest, blocks, joined⟩ := ih (content.length - (i + b)) (by omega) (by omega) rfl
      refine ⟨(content.drop i).take b :: rest, .full here ?_ blocks, ?_⟩
      · simp only [List.length_take, List.length_drop]
        omega
      · rw [List.flatten_cons, joined, ← List.drop_drop, List.take_append_drop]

theorem endless {k : Nat} (full : ∀ k block, read (k * b) = some block → block.length = b)
    {blocks : List (List α)} : ¬BlockReads read b (k * b) blocks := by
  generalize hi : k * b = i
  intro h
  induction h generalizing k with
  | last hr short =>
    subst hi
    have := full k _ hr
    omega
  | full _ _ _ ih =>
    subst hi
    exact @ih (k + 1) (Nat.succ_mul k b)

theorem of_pieces {n cuts : Nat} {z : α}
    (pieces : ∀ k, read (k * (n + 1)) = some ((content.drop (min k cuts * n)).take n ++ [z]))
    (inside : cuts * n ≤ content.length) (short : content.length < cuts * n + n) :
    ∃ blocks, BlockReads read (n + 1) 0 blocks ∧ (blocks.map List.dropLast).flatten = content := by
  have run : ∀ left k, k + left = cuts → ∃ blocks, BlockReads read (n + 1) (k * (n + 1)) blocks ∧
      (blocks.map List.dropLast).flatten = content.drop (k * n) := by
    intro left
    induction left with
    | zero =>
      intro k hk
      obtain rfl : k = cuts := hk
      have all : (content.drop (k * n)).take n = content.drop (k * n) :=
        List.take_of_length_le (by rw [List.length_drop]; omega)
      have here := pieces k
      rw [Nat.min_self, all] at here
      refine ⟨_, .last here ?_, by simp⟩
      rw [List.length_append, List.length_drop, List.length_singleton]
      omega
    | succ left ih =>
      intro k hk
      obtain ⟨rest, further, joined⟩ := ih (k + 1) (by omega)
      have here := pieces k
      rw [Nat.min_eq_left (by omega)] at here
      have behind : k * n + n ≤ content.length := by
        have : (k + 1) * n ≤ cuts * n := Nat.mul_le_mul_right n (by omega)
        rw [Nat.succ_mul] at this
        omega
      refine ⟨_, .full here ?_ (Nat.succ_mul k (n + 1) ▸ further), ?_⟩
      · rw [List.length_append, List.length_take, List.length_drop, List.length_singleton]
        omega
      · rw [List.map_cons, List.flatten_cons, joined, List.dropLast_concat, Nat.succ_mul,
          ← List.drop_drop, List.take_append_drop]
  have all := run cuts 0 (Nat.zero_add cuts)
  rwa [Nat.zero_mul, Nat.zero_mul, List.drop_zero] at all

end BlockReads
/-- The consecutive pieces of `b` elements of some content, the last one maybe shorter -/
structure Pieces (b : Nat) (content : List α) (blocks : List (List α)) : Prop where
  joined : blocks.flatten = content
  full : ∀ block ∈ blocks.dropLast, block.length = b
  proper : ∀ block ∈ blocks, block ≠ [] ∧ block.length ≤ b

namespace Pieces

theorem single (some' : content ≠ []) (short : content.length ≤ b) :
    Pieces b content [content] where
  joined := List.flatten_singleton
  full := by simp
  proper := by simpa using ⟨some', short⟩

theorem cons {block : List α} {blocks : List (List α)} (positive : 0 < b)
    (size : block.length = b) (some' : blocks ≠ []) (h : Pieces b content blocks) :
    Pieces b (block ++ content) (block :: blocks) where
  joined := by rw [List.flatten_cons, h.joined]
  full := by
    rw [List.dropLast_cons_of_ne_nil some']
    simpa using ⟨size, h.full⟩
  proper := by
    have first : block ≠ [] := List.ne_nil_of_length_pos (size ▸ positive)
    simpa using ⟨⟨first, Nat.le_of_eq size⟩, h.proper⟩

end Pieces

end EmmaNode

import Mathlib.Data.List.GetD
import EmmaNode.JsonTexts
import EmmaNode.Roots

/-! The index of one pattern over a text. Behind a key and its colon only the pattern of that key
has an index, and the byte that opens the value decides whether it is met. -/

namespace EmmaNode
namespace Pattern

def key : Pattern → Text
  | pre => chars ['P', 'R', 'E']
  | post => chars ['P', 'O', 'S', 'T']
  | target => chars ['T', 'A', 'R', 'G', 'E', 'T']
  | name => chars ['N', 'A', 'M', 'E']

def opener : Pattern → UInt8
  | pre => JsonStrings.quote
  | post => JsonStrings.opening
  | target => JsonStrings.opening
  | name => JsonStrings.quote

theorem length_text (p : Pattern) : p.text.length = p.key.length + 4 := by
  cases p <;> rfl

def advance (P : Platform) (p : Pattern) (i : UInt8) (c : UInt8) : UInt8 :=
  if c = p.byte P i.toNat then i + 1 else 0

def track (P : Platform) (p : Pattern) (i : UInt8) (t : Text) : UInt8 := t.foldl (p.advance P) i

variable {P : Platform} {p : Pattern} {i c : UInt8} {t : Text}

theorem byte_inside (h : i.toNat < p.text.length) : p.byte P i.toNat = p.text.getD i.toNat 0 := by
  rw [byte, if_pos h]

theorem byte_end (h : i.toNat = p.text.length) : p.byte P i.toNat = 0 := by
  rw [byte, if_neg (by omega), if_pos h]

theorem length_text_le (p : Pattern) : p.text.length ≤ 10 := by
  cases p <;> decide

theorem succ_index (h : i.toNat < p.text.length) : (i + 1).toNat = i.toNat + 1 := by
  have := p.length_text_le
  rw [UInt8.toNat_add, Nat.mod_eq_of_lt]
  · rfl
  · have : (1 : UInt8).toNat = 1 := rfl
    omega

theorem getD_ne_zero {n : Nat} (h : n < p.text.length) : p.text.getD n 0 ≠ 0 := by
  have all : ∀ b ∈ p.text, b ≠ 0 := by cases p <;> decide +kernel
  rw [List.getD_eq_getElem _ _ h]
  exact all _ (List.getElem_mem h)

theorem advance_le (inside : i.toNat ≤ p.text.length) (nonzero : c ≠ 0) :
    (p.advance P i c).toNat ≤ p.text.length := by
  rw [advance]
  split
  · rename_i same
    rcases Nat.lt_or_eq_of_le inside with less | full
    · rw [succ_index less]
      exact less
    · rw [byte_end full] at same
      exact absurd same nonzero
  · exact Nat.zero_le _

theorem advance_full (inside : i.toNat ≤ p.text.length) (nonzero : c ≠ 0) :
    p.byte P (p.advance P i c).toNat = 0 ↔ i.toNat = p.key.length + 3 ∧ c = p.opener := by
  have len := p.length_text
  have last : p.text.getD (p.key.length + 3) 0 = p.opener := by cases p <;> rfl
  have zero : p.byte P 0 ≠ 0 := by cases p <;> simp [byte, text, chars] <;> decide
  rw [advance]
  rcases Nat.lt_or_eq_of_le inside with less | full
  · rw [byte_inside less]
    by_cases same : c = p.text.getD i.toNat 0
    · rw [if_pos same]
      rcases Nat.lt_or_eq_of_le (Nat.succ_le_of_lt less) with more | met
      · rw [byte_inside (by rw [succ_index less]; exact more), succ_index less]
        exact iff_of_false (getD_ne_zero more) fun h => by omega
      · rw [byte_end (by rw [succ_index less]; exact met)]
        have place : i.toNat = p.key.length + 3 := by omega
        exact iff_of_true rfl ⟨place, by rw [same, place, last]⟩
    · rw [if_neg same]
      refine iff_of_false zero ?_
      rintro ⟨place, rfl⟩
      rw [place, last] at same
      exact same rfl
  · rw [byte_end full, if_neg nonzero]
    exact iff_of_false zero fun h => by omega

theorem advance_other (inside : i.toNat ≤ p.text.length) (nonzero : c ≠ 0) (other : c ∉ p.text) :
    p.advance P i c = 0 := by
  rw [advance, if_neg]
  rcases Nat.lt_or_eq_of_le inside with less | full
  · rw [byte_inside less, List.getD_eq_getElem _ _ less]
    rintro rfl
    exact other (List.getElem_mem less)
  · rwa [byte_end full]

theorem track_append (t u : Text) : p.track P i (t ++ u) = p.track P (p.track P i t) u :=
  List.foldl_append

theorem track_zero (h : JsonStrings.quote ∉ t) : p.track P 0 t = 0 := by
  induction t with
  | nil => rfl
  | cons c t ih =>
    have first : p.byte P 0 = JsonStrings.quote := by cases p <;> rfl
    have other : c ≠ p.byte P 0 := by
      rw [first]
      rintro rfl
      exact h List.mem_cons_self
    rw [track, List.foldl_cons]
    have step : p.advance P 0 c = 0 := by rw [advance, UInt8.toNat_zero, if_neg other]
    rw [step]
    exact ih fun hm => h (.tail _ hm)

theorem getD_key (p : Pattern) {j : Nat} (h : j < p.key.length) :
    p.text.getD (j + 1) 0 = p.key[j] := by
  have text : p.text = JsonStrings.quote :: (p.key ++ [JsonStrings.quote, JsonText.colon,
      p.opener]) := by cases p <;> rfl
  rw [text, List.getD_cons_succ, List.getD_append _ _ _ _ h, List.getD_eq_getElem]

theorem getD_closing (p : Pattern) : p.text.getD (p.key.length + 1) 0 = JsonStrings.quote := by
  cases p <;> rfl

theorem getD_colon (p : Pattern) : p.text.getD (p.key.length + 2) 0 = JsonText.colon := by
  cases p <;> rfl

theorem track_key {j : Nat} (index : i.toNat = j + 1) (le : j ≤ p.key.length)
    (h : JsonStrings.quote ∉ t) :
    (p.track P i t).toNat = if t <+: p.key.drop j then j + 1 + t.length else 0 := by
  have len := p.length_text
  induction t generalizing i j with
  | nil =>
    rw [if_pos List.nil_prefix]
    exact index
  | cons c t ih =>
    have clear : JsonStrings.quote ∉ t := fun hm => h (.tail _ hm)
    have inside : i.toNat < p.text.length := by omega
    rw [track, List.foldl_cons]
    rcases Nat.lt_or_eq_of_le le with less | all
    · have drop : p.key.drop j = p.key[j] :: p.key.drop (j + 1) :=
        List.drop_eq_getElem_cons less
      have byte : p.byte P i.toNat = p.key[j] := by
        rw [byte_inside inside, index, getD_key p less]
      by_cases same : c = p.key[j]
      · have step : p.advance P i c = i + 1 := by rw [advance, if_pos (same.trans byte.symm)]
        have later := ih (i := i + 1) (j := j + 1) (by rw [succ_index inside, index]) less clear
        rw [track] at later
        rw [step, drop, same, later, List.length_cons]
        simp only [List.cons_prefix_cons, true_and]
        congr 1
        omega
      · have step : p.advance P i c = 0 := by
          rw [advance, if_neg fun e => same (e.trans byte)]
        have no : ¬c :: t <+: p.key.drop j := by
          rw [drop, List.cons_prefix_cons]
          exact fun hp => same hp.1
        rw [step, if_neg no]
        exact congrArg UInt8.toNat (track_zero clear)
    · have byte : p.byte P i.toNat = JsonStrings.quote := by
        rw [byte_inside inside, index, all, getD_closing p]
      have step : p.advance P i c = 0 := by
        rw [advance, if_neg]
        rw [byte]
        rintro rfl
        exact h List.mem_cons_self
      have no : ¬c :: t <+: p.key.drop j := by
        rw [all, List.drop_length, List.prefix_nil]
        exact List.cons_ne_nil _ _
      rw [step, if_neg no]
      exact congrArg UInt8.toNat (track_zero clear)

theorem advance_quote (p : Pattern) : p.advance P 0 JsonStrings.quote = 1 := by
  cases p <;> rfl

theorem track_open {k : Text} (h : JsonStrings.quote ∉ k) :
    (p.track P 0 (JsonStrings.quote :: k)).toNat =
      if k <+: p.key then k.length + 1 else 0 := by
  have key := track_key (P := P) (p := p) (i := 1) (j := 0) rfl (Nat.zero_le _) h
  rw [track, List.foldl_cons, advance_quote]
  rw [track, List.drop_zero] at key
  rw [key]
  congr 1
  omega

theorem track_quoted {k : Text} (h : JsonStrings.quote ∉ k) :
    (p.track P 0 (JsonStrings.quoted k ++ [JsonText.colon])).toNat =
      if k = p.key then p.key.length + 3 else 0 := by
  have len := p.length_text
  have split : JsonStrings.quoted k ++ [JsonText.colon] =
      (JsonStrings.quote :: k) ++ [JsonStrings.quote, JsonText.colon] := by
    simp [JsonStrings.quoted]
  have start := track_open (P := P) (p := p) h
  rw [split, track_append]
  generalize p.track P 0 (JsonStrings.quote :: k) = i at start ⊢
  rw [track, List.foldl_cons, List.foldl_cons, List.foldl_nil]
  have again : p.advance P (p.advance P 0 JsonStrings.quote) JsonText.colon = 0 := by
    cases p <;> rfl
  by_cases pre : k <+: p.key
  · rw [if_pos pre] at start
    have short := pre.length_le
    rcases Nat.lt_or_eq_of_le short with less | all
    · -- the key goes on where the quote closes the name
      have other : k ≠ p.key := fun e => by rw [e] at less; exact Nat.lt_irrefl _ less
      have byte : p.byte P i.toNat = p.key[k.length] := by
        rw [byte_inside (by omega), start, getD_key p less]
      have clear : ∀ b ∈ p.key, JsonStrings.quote ≠ b := by cases p <;> decide +kernel
      have stop : p.advance P i JsonStrings.quote = 0 := by
        rw [advance, byte, if_neg (clear _ (List.getElem_mem less))]
      have zero : p.advance P 0 JsonText.colon = 0 := by cases p <;> rfl
      rw [stop, zero, if_neg other]
      rfl
    · have same : k = p.key := pre.eq_of_length all
      have byte : p.byte P i.toNat = JsonStrings.quote := by
        rw [byte_inside (by omega), start, all, getD_closing p]
      have closed : p.advance P i JsonStrings.quote = i + 1 := by
        rw [advance, byte, if_pos rfl]
      have inside : i.toNat < p.text.length := by omega
      have index : (i + 1).toNat = p.key.length + 2 := by
        rw [succ_index inside, start, all]
      have inside' : (i + 1).toNat < p.text.length := by omega
      have byte' : p.byte P (i + 1).toNat = JsonText.colon := by
        rw [byte_inside (by omega), index, getD_colon p]
      rw [closed, advance, byte', if_pos rfl, if_pos same, succ_index inside', index]
  · rw [if_neg pre] at start
    have zero : i = 0 := UInt8.toNat_inj.mp start
    have other : k ≠ p.key := fun e => pre (e ▸ List.prefix_refl _)
    rw [zero, again, if_neg other]
    rfl

def Low (p : Pattern) (i : UInt8) : Prop := i.toNat ≤ p.key.length + 1 ∨ i.toNat = p.text.length

theorem Low.le (h : p.Low i) : i.toNat ≤ p.text.length := by
  have len := p.length_text
  rcases h with h | h <;> omega

theorem Low.advance (h : p.Low i) (nonzero : c ≠ 0) (other : c ≠ JsonStrings.quote) :
    p.Low (p.advance P i c) := by
  have len := p.length_text
  rw [Pattern.advance]
  split
  · rename_i same
    rcases h with h | h
    · rcases Nat.lt_or_eq_of_le h with less | all
      · left
        rw [succ_index (p := p) (by omega)]
        exact less
      · rw [byte_inside (by omega), all, getD_closing p] at same
        exact absurd same other
    · rw [byte_end h] at same
      exact absurd same nonzero
  · exact .inl (Nat.zero_le _)

theorem Low.track (h : p.Low i) (nonzero : 0 ∉ t) (other : JsonStrings.quote ∉ t) :
    p.Low (p.track P i t) := by
  induction t generalizing i with
  | nil => exact h
  | cons c t ih =>
    have step : p.Low (p.advance P i c) := h.advance (fun e => nonzero (by simp [e]))
      (fun e => other (by simp [e]))
    exact ih step (fun hm => nonzero (.tail _ hm)) (fun hm => other (.tail _ hm))

theorem low_quote (start : i = 0 ∨ i.toNat = p.key.length + 3) :
    p.Low (p.advance P i JsonStrings.quote) := by
  have len := p.length_text
  rcases start with rfl | start
  · rw [advance_quote]
    exact .inl (Nat.succ_le_succ (Nat.zero_le _))
  · rw [advance]
    split
    · right
      rw [succ_index (p := p) (by omega)]
      omega
    · exact .inl (Nat.zero_le _)

theorem track_le (h : i.toNat ≤ p.text.length) (nonzero : 0 ∉ t) :
    (p.track P i t).toNat ≤ p.text.length := by
  induction t generalizing i with
  | nil => exact h
  | cons c t ih =>
    exact ih (advance_le h fun e => nonzero (by simp [e])) fun hm => nonzero (.tail _ hm)

end Pattern
end EmmaNode

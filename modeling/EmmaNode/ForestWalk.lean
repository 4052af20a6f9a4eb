import EmmaNode.ForestCursor

/-! The order of a walk over a linked forest. A cursor that starts in front of a list and is
resumed after each node it stops at yields the nodes of the forest, each child before its
folder and siblings in list order, and ends where it came from. -/

namespace EmmaNode

namespace Forest
variable {ι : Type} [DecidableEq ι]

def part (i : ι) : Forest ι → Forest ι
  | nil => nil
  | node j sub next =>
      if j = i then node j sub next
      else if i ∈ sub.walk then sub.part i else next.part i

theorem part_top {t : Forest ι} {i : ι} (h : t.top = some i) : t.part i = t := by
  cases t with
  | nil => rfl
  | node j sub next =>
    have hj : j = i := Option.some.inj h
    rw [part, if_pos hj]

end Forest

namespace Represents
open Forest

variable {ι : Type} [DecidableEq ι]
variable {h : ι → Links ι} {p head : Option ι} {t : Forest ι}

theorem part_spec {i : ι} (r : Represents h p head t) (nd : t.walk.Nodup) (hi : i ∈ t.walk) :
    ∃ sub next, t.part i = node i sub next ∧ Represents h (some i) (h i).subRoot sub ∧
      Represents h (some i) (h i).next next ∧ (sub.walk ++ i :: next.walk).Sublist t.walk ∧
      (∀ j, sub.top = some j → t.part j = sub) ∧ ∀ j, next.top = some j → t.part j = next := by
  induction t generalizing p head with
  | nil => simp [walk] at hi
  | node k s n ihs ihn =>
    obtain ⟨-, -, rs, rn⟩ := r
    simp only [walk, List.nodup_append, List.nodup_cons, List.mem_cons] at nd
    obtain ⟨nds, ⟨hkn, ndn⟩, apart⟩ := nd
    have inSub (j : ι) (hj : j ∈ s.walk) : (node k s n).part j = s.part j := by
      have hkj : k ≠ j := fun e => apart j hj k (.inl rfl) e.symm
      rw [part, if_neg hkj, if_pos hj]
    have inNext (j : ι) (hj : j ∈ n.walk) : (node k s n).part j = n.part j := by
      have hkj : k ≠ j := fun e => hkn (e ▸ hj)
      have hjs : j ∉ s.walk := fun hs => apart j hs j (.inr hj) rfl
      rw [part, if_neg hkj, if_neg hjs]
    simp only [walk, List.mem_append, List.mem_cons] at hi
    rcases hi with hm | rfl | hm
    · obtain ⟨sub, next, e, hs, hn, sl, tops, topn⟩ := ihs rs nds hm
      have within (j : ι) (hj : j ∈ sub.walk ++ i :: next.walk) : j ∈ s.walk := sl.subset hj
      refine ⟨sub, next, (inSub i hm).trans e, hs, hn, sl.trans ?_, fun j hj => ?_, fun j hj => ?_⟩
      · exact List.sublist_append_left _ _
      · exact (inSub j (within j (by simp [top_mem hj]))).trans (tops j hj)
      · exact (inSub j (within j (by simp [top_mem hj]))).trans (topn j hj)
    · refine ⟨s, n, by rw [part, if_pos rfl], rs, rn, List.Sublist.refl _, fun j hj => ?_,
        fun j hj => ?_⟩
      · exact (inSub j (top_mem hj)).trans (part_top hj)
      · exact (inNext j (top_mem hj)).trans (part_top hj)
    · obtain ⟨sub, next, e, hs, hn, sl, tops, topn⟩ := ihn rn ndn hm
      have within (j : ι) (hj : j ∈ sub.walk ++ i :: next.walk) : j ∈ n.walk := sl.subset hj
      refine ⟨sub, next, (inNext i hm).trans e, hs, hn, sl.trans ?_, fun j hj => ?_, fun j hj => ?_⟩
      · exact (List.sublist_cons_self k n.walk).trans (List.sublist_append_right _ _)
      · exact (inNext j (within j (by simp [top_mem hj]))).trans (tops j hj)
      · exact (inNext j (within j (by simp [top_mem hj]))).trans (topn j hj)

theorem part_length {i j : ι} (r : Represents h p head t) (nd : t.walk.Nodup) (hi : i ∈ t.walk)
    (link : (h i).subRoot = some j ∨ (h i).next = some j) :
    (t.part j).walk.length < (t.part i).walk.length := by
  obtain ⟨sub, next, e, hs, hn, -, tops, topn⟩ := r.part_spec nd hi
  rw [e, walk, List.length_append, List.length_cons]
  rcases link with hj | hj
  · rw [tops j (hs.top_eq.symm.trans hj)]
    omega
  · rw [topn j (hn.top_eq.symm.trans hj)]
    omega

theorem subRoot_ne_next {i j : ι} (r : Represents h p head t) (nd : t.walk.Nodup)
    (hi : i ∈ t.walk) (hj : (h i).subRoot = some j) : (h i).next ≠ some j := by
  obtain ⟨sub, next, -, hs, hn, sl, -, -⟩ := r.part_spec nd hi
  intro e
  have apart := (List.nodup_append.mp (nd.sublist sl)).2.2
  exact apart j (top_mem (hs.top_eq.symm.trans hj)) j
    (List.mem_cons_of_mem i (top_mem (hn.top_eq.symm.trans e))) rfl

end Represents

inductive Child {ι : Type} (h : ι → Links ι) (f : ι) : ι → Prop
  | first {j : ι} : (h f).subRoot = some j → Child h f j
  | next {j k : ι} : Child h f j → (h j).next = some k → Child h f k

namespace Represents
open Forest

variable {ι : Type} [DecidableEq ι]
variable {h : ι → Links ι} {p head : Option ι} {t : Forest ι}

theorem next_after {i j : ι} (r : Represents h p head t) (nd : t.walk.Nodup) (hi : i ∈ t.walk)
    (hj : (h i).next = some j) : [i, j].Sublist t.walk := by
  obtain ⟨sub, next, -, -, hn, sl, -, -⟩ := r.part_spec nd hi
  refine List.Sublist.trans ?_ sl
  refine List.Sublist.trans ?_ (List.sublist_append_right _ _)
  exact List.Sublist.cons_cons i (List.singleton_sublist.mpr (top_mem (hn.top_eq.symm.trans hj)))

theorem child_before {f j : ι} (r : Represents h p head t) (nd : t.walk.Nodup) (hf : f ∈ t.walk)
    (child : Child h f j) : [j, f].Sublist t.walk := by
  obtain ⟨sub, next, -, hs, -, sl, -, -⟩ := r.part_spec nd hf
  have below : j ∈ sub.walk := by
    induction child with
    | first hj => exact top_mem (hs.top_eq.symm.trans hj)
    | next _ hk ih => exact hs.next_mem ih hk
  refine List.Sublist.trans ?_ sl
  exact (List.singleton_sublist.mpr below).append (List.singleton_sublist.mpr (by simp))

end Represents

namespace Cursor
variable {ι : Type} [DecidableEq ι]

inductive Yields (h : ι → Links ι) : Nat → Cursor ι → List ι → Cursor ι → Prop
  | done (c : Cursor ι) : Yields h 0 c [] c
  | turn {n : Nat} {c c' : Cursor ι} {i : ι} {l : List ι} : c.current = some i → c.found = false →
      Yields h n (c.turn h i) l c' → Yields h (n + 1) c l c'
  | found {n : Nat} {c c' : Cursor ι} {i : ι} {l : List ι} : c.found = true → c.previous = some i →
      Yields h n { c with found := false } l c' → Yields h n c (i :: l) c'

namespace Yields
variable {h : ι → Links ι} {n m : Nat} {c c' c'' : Cursor ι} {l l' : List ι}

theorem trans (y : Yields h n c l c') (y' : Yields h m c' l' c'') :
    Yields h (n + m) c (l ++ l') c'' := by
  induction y with
  | done c => simpa using y'
  | turn current found _ ih =>
    rw [Nat.add_right_comm]
    exact .turn current found (ih y')
  | found found previous _ ih => exact .found found previous (ih y')

theorem search {i : ι} (y : Yields h n c (i :: l) c') {fuel : Nat} (enough : n < fuel) :
    ∃ c₁, c.search h fuel = some c₁ ∧ c₁.found = true ∧ c₁.previous = some i ∧
      ∃ m ≤ n, Yields h m { c₁ with found := false } l c' := by
  generalize hl : i :: l = all at y
  induction y generalizing fuel with
  | done c => cases hl
  | @turn n c c' j _ current found _ ih =>
    obtain ⟨fuel, rfl⟩ : ∃ k, fuel = k + 1 := ⟨fuel - 1, by omega⟩
    obtain ⟨c₁, run, stop, previous, m, hm, rest⟩ := ih (Nat.lt_of_succ_lt_succ enough) hl
    refine ⟨c₁, ?_, stop, previous, m, Nat.le_succ_of_le hm, rest⟩
    rw [Cursor.search, current, found]
    exact run
  | @found n c c' j _ found previous rest ih =>
    cases hl
    obtain ⟨fuel, rfl⟩ : ∃ k, fuel = k + 1 := ⟨fuel - 1, by omega⟩
    refine ⟨c, ?_, found, previous, n, Nat.le_refl n, rest⟩
    rw [Cursor.search, found]
    cases c.current <;> rfl

theorem search_end (y : Yields h n c [] c') (ended : c'.current = none) {fuel : Nat}
    (enough : n < fuel) : c.search h fuel = some c' := by
  generalize hl : ([] : List ι) = all at y
  induction y generalizing fuel with
  | done c =>
    obtain ⟨fuel, rfl⟩ : ∃ k, fuel = k + 1 := ⟨fuel - 1, by omega⟩
    rw [Cursor.search, ended]
  | turn current found _ ih =>
    obtain ⟨fuel, rfl⟩ : ∃ k, fuel = k + 1 := ⟨fuel - 1, by omega⟩
    rw [Cursor.search, current, found]
    exact ih ended (Nat.lt_of_succ_lt_succ enough) hl
  | found => cases hl

end Yields

/-! What a turn at `i` does, by where the cursor comes from. -/

variable {h : ι → Links ι} {i j : ι} {x : Option ι}

def onward (h : ι → Links ι) (i : ι) : Option ι :=
  if (h i).next = none then (h i).prev else (h i).next

theorem turn_leaf (leaf : (h i).subRoot = none) (other : (h i).next ≠ some i) :
    (⟨(h i).prev, some i, x, false⟩ : Cursor ι).turn h i =
      ⟨some i, onward h i, onward h i, true⟩ := by
  cases hn : (h i).next with
  | none => simp [turn, leaf, onward, hn]
  | some k =>
    have hk : i ≠ k := fun e => other (e ▸ hn)
    simp [turn, leaf, onward, hn, hk]

theorem turn_down (below : (h i).subRoot = some j) (other : j ≠ i)
    (behind : (h i).next ≠ some i) :
    (⟨(h i).prev, some i, x, false⟩ : Cursor ι).turn h i = ⟨some i, some j, some j, false⟩ := by
  have hij : ¬some i = some j := fun e => other (Option.some.inj e).symm
  have hin : ¬some i = (h i).next := fun e => behind e.symm
  simp [turn, below, hij, hin]

theorem turn_up (below : (h i).subRoot = some j) (fresh : (h i).prev ≠ some j)
    (other : (h i).next ≠ some i) :
    (⟨some j, some i, some i, false⟩ : Cursor ι).turn h i =
      ⟨some i, onward h i, onward h i, true⟩ := by
  have hj : ¬some j = (h i).prev := fun e => fresh e.symm
  cases hn : (h i).next with
  | none => simp [turn, below, onward, hn, hj]
  | some k =>
    have hk : i ≠ k := fun e => other (e ▸ hn)
    simp [turn, below, onward, hn, hj, hk]

theorem turn_back (behind : (h i).next = some j) (fresh : (h i).prev ≠ some j)
    (below : (h i).subRoot ≠ some j) :
    (⟨some j, some i, some i, false⟩ : Cursor ι).turn h i =
      ⟨some i, (h i).prev, (h i).prev, false⟩ := by
  have hj : ¬some j = (h i).prev := fun e => fresh e.symm
  have hs : ¬some j = (h i).subRoot := fun e => below e.symm
  simp [turn, behind, hj, hs]

end Cursor

namespace Represents
open Forest Cursor

variable {ι : Type} [DecidableEq ι] {h : ι → Links ι}

theorem yields {t : Forest ι} {p : Option ι} {i : ι} (r : Represents h p (some i) t)
    (nd : t.walk.Nodup) (outside : ∀ q, p = some q → q ∉ t.walk) (x : Option ι) :
    ∃ n ≤ 3 * t.walk.length, Yields h n ⟨p, some i, x, false⟩ t.walk ⟨some i, p, p, false⟩ := by
  induction t generalizing p i x with
  | nil => cases r
  | node k sub next ihs ihn =>
    obtain ⟨hk, hp, rs, rn⟩ := r
    obtain rfl : i = k := Option.some.inj hk
    simp only [walk, List.nodup_append, List.nodup_cons, List.mem_cons] at nd
    obtain ⟨nds, ⟨hin, ndn⟩, apart⟩ := nd
    have self : (h i).next ≠ some i := fun e => hin (top_mem (rn.top_eq.symm.trans e))
    have fresh (j : ι) (hj : j ∈ (node i sub next).walk) : (h i).prev ≠ some j :=
      fun e => outside j (hp.symm.trans e) hj
    -- behind `i` the walk goes through the siblings that follow and back to `i`
    have leave : ∃ n ≤ 3 * next.walk.length + 1,
        Yields h n ⟨some i, onward h i, onward h i, true⟩ (i :: next.walk) ⟨some i, p, p, false⟩ := by
      cases hn : (h i).next with
      | none =>
        have nothing : next.walk = [] := by
          cases next with
          | nil => rfl
          | node j s n => exact absurd (hn.symm.trans rn.1) (by simp)
        have up : onward h i = p := by rw [onward, if_pos hn, hp]
        rw [nothing, up]
        exact ⟨0, by omega, .found rfl rfl (.done _)⟩
      | some j =>
        have hj : j ∈ next.walk := top_mem (rn.top_eq.symm.trans hn)
        have ahead : onward h i = some j := by rw [onward, if_neg (by simp [hn]), hn]
        rw [hn] at rn
        obtain ⟨n, hle, walked⟩ := ihn rn ndn (fun q hq => by cases hq; exact hin) (some j)
        have back : Yields h 1 ⟨some j, some i, some i, false⟩ [] ⟨some i, p, p, false⟩ := by
          refine .turn rfl rfl ?_
          rw [turn_back hn (fresh j (by simp [walk, hj])), hp]
          · exact .done _
          · intro e
            exact apart j (top_mem (rs.top_eq.symm.trans e)) j (.inr hj) rfl
        rw [ahead]
        refine ⟨n + 1, by omega, .found rfl rfl ?_⟩
        simpa using walked.trans back
    obtain ⟨m, hm, left⟩ := leave
    have size : (node i sub next).walk.length = sub.walk.length + next.walk.length + 1 := by
      simp [walk]
      omega
    rw [size]
    subst hp
    cases hs : (h i).subRoot with
    | none =>
      have nothing : sub.walk = [] := by
        cases sub with
        | nil => rfl
        | node j s n => exact absurd (hs.symm.trans rs.1) (by simp)
      refine ⟨m + 1, by omega, .turn rfl rfl ?_⟩
      rw [turn_leaf hs self, walk, nothing]
      exact left
    | some j =>
      have hj : j ∈ sub.walk := top_mem (rs.top_eq.symm.trans hs)
      have hji : j ≠ i := fun e => apart j hj i (.inl rfl) e
      rw [hs] at rs
      have his : i ∉ sub.walk := fun hm => apart i hm i (.inl rfl) rfl
      obtain ⟨n, hn, walked⟩ := ihs rs nds (fun q hq => by cases hq; exact his) (some j)
      have up : Yields h (m + 1) ⟨some j, some i, some i, false⟩ (i :: next.walk)
          ⟨some i, (h i).prev, (h i).prev, false⟩ := by
        refine .turn rfl rfl ?_
        rw [turn_up hs (fresh j (by simp [walk, hj])) self]
        exact left
      refine ⟨n + (m + 1) + 1, by omega, .turn rfl rfl ?_⟩
      rw [turn_down hs hji self]
      exact walked.trans up

end Represents
end EmmaNode

import EmmaNode.Enumeration

/-! Where the iterator reads the table of the roots. Behind the last resource of a root it goes
to the list of the next one, and behind the last root there is none. -/

namespace EmmaNode

inductive IterCall where
  | reset
  | next (root : Option Root) (blockSize : Nat)

namespace Iter
variable (t : Tree)

/-- The entry of the table `print_full_path` reads once the names above it fit into the block -/
def pathReads (rootTmp : Nat) (resource : Option Nat) (blockSize : Nat) : List Nat :=
  let names := match resource with
    | none => []
    | some i => t.pathNames emmaMaxResources i [t.name i]
  if (names.flatMap (slash :: ·)).length ≤ blockSize then [rootTmp] else []

def nextReads (it : Iter) (blockSize : Nat) : List Nat :=
  match it.root with
  | none => []
  | some _ =>
    match it.cursor.search t.links maxTurns with
    | none => []
    | some c =>
      if c.found then pathReads t it.rootTmp c.previous blockSize
      else pathReads t it.rootTmp none blockSize ++ [it.rootTmp + 1]

def call (it : Iter) : IterCall → Iter
  | .reset => it.reset t
  | .next root blockSize => (it.get t root blockSize).2

def callReads (it : Iter) : IterCall → List Nat
  | .reset => [Root.agent.index]
  | .next root blockSize => (root.map Root.index).toList ++ (it.given t root).nextReads t blockSize

def reads : List (Tree × IterCall) → Iter → List Nat
  | [], _ => []
  | (t, c) :: rest, it => it.callReads t c ++ reads rest (it.call t c)

/-- The iterator stands in the last root, and the walk from there ends without a resource. -/
def AtEnd (it : Iter) : Prop :=
  it.rootTmp + 1 = Root.all.length ∧ ∃ n < maxTurns, ∃ c', Cursor.Yields t.links n it.cursor [] c' ∧
    c'.current = none ∧ c'.found = false

def Clear : List (Tree × IterCall) → Iter → Prop
  | [], _ => True
  | (t, .reset) :: rest, it => Clear rest (it.reset t)
  | (t, .next root blockSize) :: rest, it =>
    ¬(it.given t root).AtEnd t ∧ Clear rest (it.get t root blockSize).2

end Iter

def IterCall.Spare (names : Root → Nat) : List IterCall → Nat → Prop
  | [], _ => True
  | .reset :: rest, _ => Spare names rest (names .agent)
  | .next root _ :: rest, left =>
    1 < (root.map names).getD left ∧ Spare names rest ((root.map names).getD left - 1)

namespace Cursor.Yields
variable {h : Nat → Links Nat} {c c' : Cursor Nat}

theorem of_search {fuel : Nat} (run : c.search h fuel = some c') (missed : c'.found = false) :
    (∃ n < fuel, Yields h n c [] c') ∧ c'.current = none := by
  induction fuel generalizing c with
  | zero => cases run
  | succ fuel ih =>
    rw [Cursor.search] at run
    cases current : c.current with
    | none =>
      simp only [current] at run
      cases run
      exact ⟨⟨0, Nat.succ_pos _, .done _⟩, current⟩
    | some i =>
      cases found : c.found with
      | true =>
        simp only [current, found] at run
        cases run
        exact absurd (found.symm.trans missed) (by simp)
      | false =>
        simp only [current, found] at run
        obtain ⟨⟨n, less, y⟩, ended⟩ := ih run
        exact ⟨⟨n + 1, Nat.succ_lt_succ less, .turn current found y⟩, ended⟩

end Cursor.Yields

namespace Iter
variable {t : Tree} {it : Iter} {blockSize : Nat}

theorem root_lt {root : Root} (h : it.root = some root) : it.rootTmp < Root.all.length := by
  obtain ⟨less, -⟩ := List.getElem?_eq_some_iff.mp h
  exact less

theorem pathReads_le {rootTmp : Nat} {resource : Option Nat} :
    ∀ k ∈ pathReads t rootTmp resource blockSize, k = rootTmp := by
  intro k hk
  unfold pathReads at hk
  simp only at hk
  split_ifs at hk
  · exact List.mem_singleton.mp hk
  · cases hk

theorem nextReads_lt_iff :
    (∀ k ∈ it.nextReads t blockSize, k < Root.all.length) ↔ ¬it.AtEnd t := by
  rw [nextReads]
  cases hr : it.root with
  | none =>
    refine iff_of_true (List.forall_mem_nil _) fun ⟨last, _⟩ => ?_
    have less : it.rootTmp < Root.all.length := by omega
    have some' : it.root = some Root.all[it.rootTmp] := List.getElem?_eq_getElem less
    rw [hr] at some'
    cases some'
  | some root =>
    have less := root_lt hr
    cases run : it.cursor.search t.links maxTurns with
    | none =>
      refine iff_of_true (List.forall_mem_nil _) fun ⟨_, n, enough, c', y, ended, _⟩ => ?_
      have := y.search_end ended enough
      rw [run] at this
      cases this
    | some c =>
      simp only
      cases found : c.found with
      | true =>
        rw [if_pos rfl]
        refine iff_of_true (fun k hk => ?_) fun ⟨_, n, enough, c', y, ended, missed⟩ => ?_
        · rw [pathReads_le k hk]
          exact less
        · have := y.search_end ended enough
          rw [run] at this
          cases this
          rw [found] at missed
          cases missed
      | false =>
        obtain ⟨⟨n, enough, y⟩, ended⟩ := Cursor.Yields.of_search run found
        rw [if_neg (by simp), List.forall_mem_append, List.forall_mem_singleton]
        constructor
        · rintro ⟨-, next⟩ ⟨last, -⟩
          omega
        · intro inside
          refine ⟨fun k hk => ?_, ?_⟩
          · rw [pathReads_le k hk]
            exact less
          · have other : it.rootTmp + 1 ≠ Root.all.length := fun last =>
              inside ⟨last, n, enough, c, y, ended, found⟩
            omega

theorem reads_lt_iff (calls : List (Tree × IterCall)) (it : Iter) :
    (∀ k ∈ reads calls it, k < Root.all.length) ↔ Clear calls it := by
  induction calls generalizing it with
  | nil => exact iff_of_true (List.forall_mem_nil _) trivial
  | cons call rest ih =>
    obtain ⟨t, c⟩ := call
    have index (root : Root) : root.index < Root.all.length := by cases root <;> decide
    rw [reads, List.forall_mem_append, ih]
    cases c with
    | reset =>
      rw [callReads, List.forall_mem_singleton]
      exact and_iff_right (index .agent)
    | next root blockSize =>
      have given : ∀ k ∈ (root.map Root.index).toList, k < Root.all.length := by
        cases root with
        | none => exact List.forall_mem_nil _
        | some root => exact (List.forall_mem_singleton (a := root.index)).mpr (index root)
      rw [callReads, List.forall_mem_append, nextReads_lt_iff]
      exact and_congr_left' (and_iff_right given)

/-- The iterator has `left` names to give: the resources it still finds in its root, that root
alone, and all of the roots behind. -/
inductive Left (t : Tree) (f : Root → Forest Nat) : Iter → Nat → Prop
  | walk {it : Iter} {l : List Nat} {n : Nat} {c' : Cursor Nat} : it.rootTmp < Root.all.length →
      n < maxTurns → Cursor.Yields t.links n it.cursor l c' → c'.current = none →
      c'.found = false → Left t f it (l.length + 1 +
        (Root.visits (fun r => (f r).walk) (Root.all.drop (it.rootTmp + 1))).length)

def names (f : Root → Forest Nat) (r : Root) : Nat :=
  (Root.visits (fun r => (f r).walk) (Root.all.drop r.index)).length

variable {f : Root → Forest Nat}

theorem left_begin (sh : t.Shape f) (it : Iter) (root : Root) :
    Left t f (it.begin t root) (names f root) := by
  obtain ⟨n, enough, c', y, ended, missed⟩ := yields_root sh root
  have inside : root.index < Root.all.length := by cases root <;> decide
  have size : names f root = (f root).walk.length + 1 +
      (Root.visits (fun r => (f r).walk) (Root.all.drop (root.index + 1))).length := by
    cases root <;> simp [names, Root.visits, Root.all, Root.index] <;> omega
  rw [size]
  exact .walk inside enough y ended missed

theorem visits_pos (order : Root → List Nat) (roots : List Root) :
    0 < (Root.visits order roots).length ↔ roots ≠ [] := by
  cases roots with
  | nil => simp [Root.visits]
  | cons r roots =>
    have last : (r, none) ∈ Root.visits order (r :: roots) := by simp [Root.visits]
    exact iff_of_true (List.length_pos_of_mem last) (List.cons_ne_nil _ _)

theorem Left.atEnd_iff {left : Nat} (h : Left t f it left) : it.AtEnd t ↔ ¬1 < left := by
  obtain ⟨inside, enough, y, ended, missed⟩ := h
  rename_i l n c'
  have behind := visits_pos (fun r => (f r).walk) (Root.all.drop (it.rootTmp + 1))
  rw [Ne, List.drop_eq_nil_iff] at behind
  cases l with
  | nil =>
    constructor
    · rintro ⟨last, -⟩
      have none' := behind.not.mpr (by omega)
      rw [List.length_nil]
      omega
    · intro single
      have last : ¬0 < (Root.visits (fun r => (f r).walk)
          (Root.all.drop (it.rootTmp + 1))).length := by
        rw [List.length_nil] at single
        omega
      have := behind.not.mp last
      exact ⟨by omega, n, enough, c', y, ended, missed⟩
  | cons i l =>
    refine iff_of_false ?_ (by rw [List.length_cons]; omega)
    rintro ⟨-, m, less, c₂, y', ended', missed'⟩
    obtain ⟨c₁, run, found, -⟩ := y.search enough
    rw [y'.search_end ended' less] at run
    cases run
    rw [found] at missed'
    cases missed'

theorem Left.next (sh : t.Shape f) {left : Nat} (h : Left t f it left) (more : 1 < left)
    (blockSize : Nat) : Left t f (it.getNext t blockSize).2 (left - 1) := by
  obtain ⟨inside, enough, y, ended, missed⟩ := h
  rename_i l n c'
  have root : it.root = some Root.all[it.rootTmp] := List.getElem?_eq_getElem inside
  cases l with
  | nil =>
    have run := y.search_end ended enough
    have behind := visits_pos (fun r => (f r).walk) (Root.all.drop (it.rootTmp + 1))
    rw [Ne, List.drop_eq_nil_iff] at behind
    have inside' : it.rootTmp + 1 < Root.all.length := by
      have some' := behind.mp (by rw [List.length_nil] at more; omega)
      omega
    have index : (Root.all[it.rootTmp + 1]).index = it.rootTmp + 1 := by
      have all : ∀ k (hk : k < Root.all.length), (Root.all[k]).index = k := by decide
      exact all _ inside'
    have moved : (it.getNext t blockSize).2 = it.begin t Root.all[it.rootTmp + 1] := by
      rw [begin, index]
      simp only [getNext, root, run, missed]
      rw [listAt, List.getElem?_eq_getElem inside']
      rfl
    have size : ([] : List Nat).length + 1 +
        (Root.visits (fun r => (f r).walk) (Root.all.drop (it.rootTmp + 1))).length - 1 =
        names f Root.all[it.rootTmp + 1] := by
      rw [names, index, List.length_nil]
      omega
    rw [moved, size]
    exact left_begin sh it _
  | cons i l =>
    obtain ⟨c₁, run, found, previous, m, le, rest⟩ := y.search enough
    have moved : (it.getNext t blockSize).2 =
        { it with cursor := { c₁ with found := false } } := by
      simp [getNext, root, run, found]
    have size : (i :: l).length + 1 +
        (Root.visits (fun r => (f r).walk) (Root.all.drop (it.rootTmp + 1))).length - 1 =
        l.length + 1 +
        (Root.visits (fun r => (f r).walk) (Root.all.drop (it.rootTmp + 1))).length := by
      rw [List.length_cons]
      omega
    rw [moved, size]
    have fewer := Nat.lt_of_le_of_lt le enough
    refine .walk ?_ fewer rest ended missed
    exact inside

theorem Left.clear_iff (sh : t.Shape f) (calls : List IterCall) {left : Nat}
    (h : Left t f it left) :
    Clear (calls.map (t, ·)) it ↔ IterCall.Spare (names f) calls left := by
  induction calls generalizing it left with
  | nil => exact Iff.rfl
  | cons call rest ih =>
    cases call with
    | reset => exact ih (left_begin sh it .agent)
    | next root blockSize =>
      have given : Left t f (it.given t root) ((root.map (names f)).getD left) := by
        cases root with
        | none => exact h
        | some root => exact left_begin sh it root
      rw [List.map_cons, Clear, IterCall.Spare, given.atEnd_iff, not_not, get_given]
      exact and_congr_right fun more => ih (given.next sh more blockSize)

end Iter

namespace Store
variable {P : Platform} {st : Store}

theorem left_init {t : Tree} {f : Root → Forest Nat} :
    Iter.Left t f .init (1 + Iter.names f .resource) := by
  have inside : Iter.init.rootTmp < Root.all.length := by decide
  have enough : 0 < Iter.maxTurns := by decide
  exact .walk inside enough (.done (.start none)) rfl rfl

/-- The calls stay in the table of the roots if and only if none goes on from the end of the
last root; on a store that stays as it is, if and only if each finds more than one name left of
those that are counted from the root it starts at. -/
theorem roots_indexed_iff (P : Platform) :
    (∀ (calls : List (Tree × IterCall)),
      (∀ k ∈ Iter.reads calls .init, k < Root.all.length) ↔ Iter.Clear calls .init) ∧
    ∀ st : Store, st.Reached P → ∃ order : Root → List Nat,
      (∀ r, st.tree.Postorder r (order r)) ∧ ∀ calls : List IterCall,
        (∀ k ∈ Iter.reads (calls.map (st.tree, ·)) .init, k < Root.all.length) ↔
          IterCall.Spare (fun r => (Root.visits order (Root.all.drop r.index)).length) calls
            (1 + (Root.visits order [.resource, .system]).length) := by
  refine ⟨fun calls => Iter.reads_lt_iff calls .init, fun st h => ?_⟩
  obtain ⟨f, so⟩ := h.sound
  refine ⟨fun r => (f r).walk, so.postorder, fun calls => ?_⟩
  rw [Iter.reads_lt_iff]
  exact left_init.clear_iff so.shape calls

theorem roots_indexed_nested :
    ∀ k ∈ Iter.reads ([.reset, .next none 32, .next (some .resource) 32].map (nested.tree, ·))
      .init, k < Root.all.length := by
  have reached : nested.Reached .plain := ⟨_, Runs.tail (Runs.tail .refl trivial rfl) trivial rfl⟩
  obtain ⟨order, -, run⟩ := (roots_indexed_iff .plain).2 nested reached
  refine (run _).mpr ⟨?_, ?_, trivial⟩
  all_goals simp [Root.visits, Root.all, Root.index]
  all_goals omega

/-- Behind the last root the iterator goes on to an entry that is not there. -/
theorem roots_overrun : ¬∀ (P : Platform) (st : Store), st.Reached P →
    ∀ calls : List IterCall, ∀ k ∈ Iter.reads (calls.map (st.tree, ·)) .init,
      k < Root.all.length := by
  intro h
  have inside := h .plain (empty fun _ => none) ⟨_, .refl⟩ [.next (some .system) 32] 3
    (by decide +kernel)
  exact absurd inside (by decide)

end Store
end EmmaNode

import Mathlib.Data.List.Permutation
import EmmaNode.StoreRuns
import EmmaNode.Paths

/-! The enumeration of a store by `get_next_resource_name_by_root`: one call starts at a
root, each further call goes on. On a store that stays as it is the calls hand the resources
of the root to `print_full_path`, then the root alone, then those of the following roots. -/

namespace EmmaNode

namespace Iter

/-- What a call that goes on hands to `print_full_path`; nothing behind the last root. -/
def handed (it : Iter) (t : Tree) : Option (Root × Option Nat) :=
  it.root.bind fun root => (it.cursor.search t.links maxTurns).map fun c =>
    (root, if c.found then c.previous else none)

def given (it : Iter) (t : Tree) : Option Root → Iter
  | none => it
  | some root => it.begin t root

/-- The calls with the given roots: what each hands to `print_full_path` and what it returns. -/
def session (t : Tree) (blockSize : Nat) :
    List (Option Root) → Iter → List (Option (Root × Option Nat) × Text) × Iter
  | [], it => ([], it)
  | root :: rest, it =>
    let visit := (it.given t root).handed t
    let (text, it) := it.get t root blockSize
    let (visits, it) := session t blockSize rest it
    ((visit, text) :: visits, it)

end Iter

/-- Every resource of a root once, each child before its folder and siblings in list order. -/
structure Tree.Postorder (t : Tree) (r : Root) (order : List Nat) : Prop where
  once : order.Nodup
  all : ∀ i, i ∈ order ↔ t.Live r i
  child : ∀ f j, t.Live r f → Child t.links f j → [j, f].Sublist order
  sibling : ∀ i j, t.Live r i → (t.links i).next = some j → [i, j].Sublist order

def Root.visits (order : Root → List Nat) (roots : List Root) : List (Root × Option Nat) :=
  roots.flatMap fun r => (order r).map (fun i => (r, some i)) ++ [(r, none)]

/-- What `print_full_path` would print into a block of any size -/
def Tree.fullPath (t : Tree) (v : Root × Option Nat) : Text :=
  v.1.text (match v.2 with
    | none => []
    | some i => t.pathNames emmaMaxResources i [t.name i])

namespace Iter
variable {t : Tree} {blockSize : Nat}

theorem get_given (it : Iter) (root : Option Root) :
    it.get t root blockSize = (it.given t root).getNext t blockSize := by
  cases root <;> rfl

/-- A call returns the path of what it hands to `print_full_path`. -/
theorem getNext_handed {it : Iter} {root : Root} {resource : Option Nat}
    (h : it.handed t = some (root, resource)) :
    (it.getNext t blockSize).1 = t.printFullPath root resource blockSize ∧
      (it.getNext t blockSize).2.stuck = it.stuck := by
  simp only [handed, Option.bind_eq_some_iff, Option.map_eq_some_iff] at h
  obtain ⟨r, hr, c, hc, e⟩ := h
  cases e
  simp only [getNext, hr, hc]
  cases c.found <;> exact ⟨rfl, rfl⟩

theorem session_cons (root : Option Root) (rest : List (Option Root)) (it : Iter) :
    session t blockSize (root :: rest) it =
      let next := ((it.given t root).getNext t blockSize)
      (((it.given t root).handed t, next.1) :: (session t blockSize rest next.2).1,
        (session t blockSize rest next.2).2) := by
  rw [session, get_given]

theorem session_append (calls calls' : List (Option Root)) (it : Iter) :
    session t blockSize (calls ++ calls') it =
      ((session t blockSize calls it).1 ++
          (session t blockSize calls' (session t blockSize calls it).2).1,
        (session t blockSize calls' (session t blockSize calls it).2).2) := by
  induction calls generalizing it with
  | nil => rfl
  | cons root rest ih =>
    rw [List.cons_append, session_cons, session_cons]
    simp only [ih]
    rfl

def printed (t : Tree) (blockSize : Nat) (v : Root × Option Nat) :
    Option (Root × Option Nat) × Text :=
  (some v, t.printFullPath v.1 v.2 blockSize)

theorem session_root {k n : Nat} {root : Root} {c c' : Cursor Nat} {l : List Nat} (stuck : Bool)
    (hk : Root.all[k]? = some root) (y : Cursor.Yields t.links n c l c') (enough : n < maxTurns)
    (ended : c'.current = none) (back : c'.found = false) :
    session t blockSize (List.replicate (l.length + 1) none) ⟨k, c, stuck⟩ =
      ((l.map (fun i => (root, some i)) ++ [(root, none)]).map (printed t blockSize),
        ⟨k + 1, .start (listAt t (k + 1)), stuck⟩) := by
  have atRoot (c : Cursor Nat) : (⟨k, c, stuck⟩ : Iter).root = some root := hk
  induction l generalizing n c with
  | nil =>
    have run := y.search_end ended enough
    have next : (⟨k, c, stuck⟩ : Iter).getNext t blockSize =
        (t.printFullPath root none blockSize, ⟨k + 1, .start (listAt t (k + 1)), stuck⟩) := by
      simp [getNext, atRoot, run, back]
    have visit : (⟨k, c, stuck⟩ : Iter).handed t = some (root, none) := by
      simp [handed, atRoot, run, back]
    rw [List.length_nil, Nat.zero_add, List.replicate_one, session_cons]
    simp only [given, next, visit]
    rfl
  | cons i l ih =>
    obtain ⟨c₁, run, stop, previous, m, hm, rest⟩ := y.search enough
    have next : (⟨k, c, stuck⟩ : Iter).getNext t blockSize =
        (t.printFullPath root (some i) blockSize, ⟨k, { c₁ with found := false }, stuck⟩) := by
      simp [getNext, atRoot, run, stop, previous]
    have visit : (⟨k, c, stuck⟩ : Iter).handed t = some (root, some i) := by
      simp [handed, atRoot, run, stop, previous]
    rw [List.length_cons, List.replicate_succ, session_cons]
    simp only [given, next, visit, ih rest (Nat.lt_of_le_of_lt hm enough)]
    rfl

theorem yields_root {f : Root → Forest Nat} (sh : t.Shape f) (root : Root) :
    ∃ n < maxTurns, ∃ c', Cursor.Yields t.links n (.start (t.list root)) (f root).walk c' ∧
      c'.current = none ∧ c'.found = false := by
  have rep := sh.rep root
  have short := sh.length_le root
  cases hl : t.list root with
  | none =>
    have nothing : (f root).walk = [] := by
      rw [hl] at rep
      cases hf : f root with
      | nil => rfl
      | node i sub next => exact absurd (hf ▸ rep) (by simp [Represents])
    rw [nothing]
    exact ⟨0, by decide, _, .done _, rfl, rfl⟩
  | some i =>
    rw [hl] at rep
    obtain ⟨n, hn, walked⟩ := rep.yields (sh.nodup root) (by simp) none
    refine ⟨n, ?_, _, walked, rfl, rfl⟩
    simp only [emmaMaxResources] at short
    simp only [maxTurns, emmaMaxResources]
    omega

theorem session_roots {f : Root → Forest Nat} (sh : t.Shape f) (stuck : Bool) (roots : List Root)
    (k : Nat) (hk : Root.all.drop k = roots) :
    session t blockSize
        (List.replicate (Root.visits (fun r => (f r).walk) roots).length none)
        ⟨k, .start (listAt t k), stuck⟩ =
      ((Root.visits (fun r => (f r).walk) roots).map (printed t blockSize),
        ⟨k + roots.length, .start (listAt t (k + roots.length)), stuck⟩) := by
  induction roots generalizing k with
  | nil => rfl
  | cons root roots ih =>
    have here : Root.all[k]? = some root := by
      have first : (Root.all.drop k)[0]? = Root.all[k]? := List.getElem?_drop
      rw [hk] at first
      exact first.symm
    have later : Root.all.drop (k + 1) = roots := by
      rw [← List.drop_drop, hk]
      rfl
    have list : listAt t k = t.list root := by rw [listAt, here]; rfl
    obtain ⟨n, hn, c', walked, ended, back⟩ := yields_root sh root
    have split : Root.visits (fun r => (f r).walk) (root :: roots) =
        ((f root).walk.map (fun i => (root, some i)) ++ [(root, none)]) ++
          Root.visits (fun r => (f r).walk) roots := rfl
    have size : (Root.visits (fun r => (f r).walk) (root :: roots)).length =
        ((f root).walk.length + 1) + (Root.visits (fun r => (f r).walk) roots).length := by
      simp only [split, List.length_append, List.length_map, List.length_cons, List.length_nil]
    rw [size, List.replicate_add, session_append, list,
      session_root stuck here walked hn ended back, ih (k + 1) later, split, List.map_append]
    simp only [List.length_cons, Nat.add_assoc, Nat.add_comm 1, List.map_append]

inductive Hands (t : Tree) (blockSize : Nat) : Iter → List Text → Prop
  | stop {it : Iter} : (it.getNext t blockSize).1 = [] → Hands t blockSize it []
  | name {it : Iter} {rest : List Text} : (it.getNext t blockSize).1 ≠ [] →
      Hands t blockSize (it.getNext t blockSize).2 rest →
      Hands t blockSize it ((it.getNext t blockSize).1 :: rest)

theorem printed_eq (v : Root × Option Nat) : (printed t blockSize v).2 =
    if (t.fullPath v).length ≤ blockSize then t.fullPath v else [] := rfl

theorem fullPath_ne (v : Root × Option Nat) : t.fullPath v ≠ [] := by
  rw [Tree.fullPath, Root.text]
  cases v.1 <;> exact List.cons_ne_nil _ _

theorem hands_session {visits : List (Root × Option Nat)} {it it' : Iter}
    (run : session t blockSize (List.replicate visits.length none) it =
      (visits.map (printed t blockSize), it'))
    (done : (it'.getNext t blockSize).1 = []) :
    Hands t blockSize it ((visits.map t.fullPath).takeWhile (·.length ≤ blockSize)) := by
  induction visits generalizing it with
  | nil =>
    obtain rfl : it = it' := congrArg Prod.snd run
    exact .stop done
  | cons v visits ih =>
    rw [List.length_cons, List.replicate_succ, session_cons] at run
    simp only [given, List.map_cons, Prod.mk.injEq, List.cons.injEq] at run
    obtain ⟨⟨visit, rest⟩, last⟩ := run
    have text : (it.getNext t blockSize).1 =
        if (t.fullPath v).length ≤ blockSize then t.fullPath v else [] := by
      rw [← printed_eq, ← visit]
    rw [List.map_cons, List.takeWhile_cons]
    by_cases fits : (t.fullPath v).length ≤ blockSize
    · rw [if_pos fits] at text
      rw [if_pos (decide_eq_true fits), ← text]
      exact .name (text ▸ fullPath_ne v) (ih (Prod.ext rest last))
    · rw [if_neg fits] at text
      rw [if_neg (by simpa using fits)]
      exact .stop text

def texts (t : Tree) (blockSize : Nat) : Nat → Iter → List Text
  | 0, _ => []
  | fuel + 1, it =>
    if (it.getNext t blockSize).1 = [] then []
    else (it.getNext t blockSize).1 :: texts t blockSize fuel (it.getNext t blockSize).2

theorem Hands.texts_eq {it : Iter} {names : List Text} (h : Hands t blockSize it names)
    {fuel : Nat} (enough : names.length < fuel) : it.texts t blockSize fuel = names := by
  induction h generalizing fuel with
  | stop none' =>
    obtain ⟨fuel, rfl⟩ : ∃ m, fuel = m + 1 := ⟨fuel - 1, by omega⟩
    rw [texts, if_pos none']
  | name some' _ ih =>
    obtain ⟨fuel, rfl⟩ : ∃ m, fuel = m + 1 := ⟨fuel - 1, by omega⟩
    rw [List.length_cons] at enough
    rw [texts, if_neg some', ih (by omega)]

end Iter

theorem Tree.Shape.visits_le {t : Tree} {f : Root → Forest Nat} (sh : t.Shape f)
    (root : Root) : (Root.visits (fun r => (f r).walk) (Root.all.drop root.index)).length
      < maxNames := by
  have apart (r r' : Root) (other : r ≠ r') : List.Disjoint (f r).walk (f r').walk :=
    fun i hi hi' => other (sh.apart r r' i hi hi')
  have nodup : ((f .agent).walk ++ ((f .resource).walk ++ (f .system).walk)).Nodup :=
    (sh.nodup _).append ((sh.nodup _).append (sh.nodup _) (apart _ _ (by simp)))
      (List.disjoint_append_right.mpr ⟨apart _ _ (by simp), apart _ _ (by simp)⟩)
  have inside : (f .agent).walk ++ ((f .resource).walk ++ (f .system).walk) ⊆
      List.range emmaMaxResources := fun i hi => by
    have used : t.pool.Used i := by
      simp only [List.mem_append] at hi
      rcases hi with hi | hi | hi <;> exact sh.used _ i hi
    have := Pool.used_lt used
    rw [sh.size] at this
    exact List.mem_range.mpr this
  have total := (List.subperm_of_subset nodup inside).length_le
  simp only [List.length_append, List.length_range] at total
  cases root <;> simp [Root.visits, Root.all, Root.index, maxNames] <;> omega

namespace Store
variable {P : Platform} {st : Store} {f : Root → Forest Nat}

theorem Sound.postorder (so : st.Sound f) (r : Root) : st.tree.Postorder r (f r).walk where
  once := so.shape.nodup r
  all i := (so.shape.live_iff r i).symm
  child _ _ live :=
    (so.shape.rep r).child_before (so.shape.nodup r) ((so.shape.live_iff r _).mp live)
  sibling _ _ live :=
    (so.shape.rep r).next_after (so.shape.nodup r) ((so.shape.live_iff r _).mp live)

theorem Sound.session_all (so : st.Sound f) (it : Iter) (root : Root) (blockSize : Nat) :
    let visits := Root.visits (fun r => (f r).walk) (Root.all.drop root.index)
    it.session st.tree blockSize (some root :: List.replicate (visits.length - 1) none) =
      (visits.map (Iter.printed st.tree blockSize), ⟨3, .start none, it.stuck⟩) := by
  intro visits
  have some' : visits.length = (visits.length - 1) + 1 := by
    have last : (Root.system, none) ∈ visits := by
      cases root <;> simp [visits, Root.visits, Root.all, Root.index]
    have := List.length_pos_of_mem last
    omega
  have started : it.begin st.tree root = ⟨root.index, .start (Iter.listAt st.tree root.index),
      it.stuck⟩ := by cases root <;> rfl
  have run := @Iter.session_roots _ blockSize _ so.shape it.stuck _ root.index rfl
  rw [show (Root.visits (fun r => (f r).walk) (Root.all.drop root.index)).length =
    (visits.length - 1) + 1 from some', List.replicate_succ, Iter.session_cons] at run
  rw [Iter.session_cons]
  simp only [Iter.given, started] at run ⊢
  rw [run]
  cases root <;> rfl

theorem Sound.hands (so : st.Sound f) (it : Iter) (root : Root) (blockSize : Nat) :
    Iter.Hands st.tree blockSize (it.begin st.tree root)
      (((Root.visits (fun r => (f r).walk) (Root.all.drop root.index)).map
        st.tree.fullPath).takeWhile (·.length ≤ blockSize)) := by
  have started : it.begin st.tree root =
      ⟨root.index, .start (Iter.listAt st.tree root.index), it.stuck⟩ := by
    cases root <;> rfl
  rw [started]
  refine Iter.hands_session (Iter.session_roots so.shape it.stuck _ root.index rfl) ?_
  cases root <;> rfl

theorem Sound.hands_next (so : st.Sound f) (it : Iter) (root : Root) (blockSize : Nat) :
    ∃ v visits, Root.visits (fun r => (f r).walk) (Root.all.drop root.index) = v :: visits ∧
      ((it.begin st.tree root).getNext st.tree blockSize).1 =
        (if (st.tree.fullPath v).length ≤ blockSize then st.tree.fullPath v else []) ∧
      Iter.Hands st.tree blockSize ((it.begin st.tree root).getNext st.tree blockSize).2
        ((visits.map st.tree.fullPath).takeWhile (·.length ≤ blockSize)) := by
  have started : it.begin st.tree root =
      ⟨root.index, .start (Iter.listAt st.tree root.index), it.stuck⟩ := by
    cases root <;> rfl
  have run := @Iter.session_roots _ blockSize _ so.shape it.stuck _ root.index rfl
  rw [← started] at run
  cases hv : Root.visits (fun r => (f r).walk) (Root.all.drop root.index) with
  | nil =>
    have last : (Root.system, none) ∈ Root.visits (fun r => (f r).walk)
        (Root.all.drop root.index) := by
      cases root <;> simp [Root.visits, Root.all, Root.index]
    rw [hv] at last
    cases last
  | cons v visits =>
    rw [hv, List.length_cons, List.replicate_succ, Iter.session_cons] at run
    simp only [Iter.given, List.map_cons, Prod.mk.injEq, List.cons.injEq] at run
    refine ⟨v, visits, rfl, ?_, Iter.hands_session (Prod.ext run.1.2 run.2) ?_⟩
    · exact (congrArg Prod.snd run.1.1).trans (Iter.printed_eq v)
    · cases root <;> rfl

theorem Reached.enumerated (h : st.Reached P) : ∃ order : Root → List Nat,
    (∀ r, st.tree.Postorder r (order r)) ∧ ∀ (it : Iter) (root : Root) (blockSize : Nat),
      let visits := Root.visits order (Root.all.drop root.index)
      it.session st.tree blockSize (some root :: List.replicate (visits.length - 1) none) =
        (visits.map (Iter.printed st.tree blockSize), ⟨3, .start none, it.stuck⟩) := by
  obtain ⟨f, so⟩ := h.sound
  exact ⟨fun r => (f r).walk, so.postorder, so.session_all⟩

def nested : Store :=
  ((empty fun _ => none).apply .plain (.add (some .resource) (chars ['x']))).apply .plain
    (.add (some .resource) (chars ['x', '/', 'y']))

theorem nested_rep : Represents nested.tree.links none (nested.tree.list .resource)
    (.node 0 (.node 1 .nil .nil) .nil) := by
  have bare : (nested.tree.links 1).subRoot = none ∧ (nested.tree.links 1).next = none ∧
      (nested.tree.links 0).next = none := by decide +kernel
  exact ⟨by decide +kernel, by decide +kernel, ⟨by decide +kernel, by decide +kernel,
    bare.1, bare.2.1⟩, bare.2.2⟩

theorem enumerated_nested : ∃ order : Root → List Nat,
    (∀ r, nested.tree.Postorder r (order r)) ∧
      (Iter.init.session nested.tree emmaMaxUriSize
        (some .resource :: List.replicate ((order .resource).length + (order .system).length + 1)
          none)).1 =
      (Root.visits order [.resource, .system]).map (Iter.printed nested.tree emmaMaxUriSize) := by
  have reached : nested.Reached .plain := ⟨_, Runs.tail (Runs.tail .refl trivial rfl) trivial rfl⟩
  obtain ⟨order, post, run⟩ := reached.enumerated
  refine ⟨order, post, ?_⟩
  have calls : (Root.visits order [.resource, .system]).length - 1 =
      (order .resource).length + (order .system).length + 1 := by
    simp [Root.visits]
    omega
  rw [← calls]
  exact congrArg Prod.fst (run Iter.init .resource emmaMaxUriSize)

def grove : Store :=
  [StoreOp.add (some .resource) (chars ['w']), .add (some .resource) (chars ['x']),
    .add (some .resource) (chars ['x', '/', 'y']), .add (some .agent) (chars ['a'])].foldl
      (apply .plain) (empty fun _ => none)

def groveOrder : Root → List Nat
  | .agent => [3]
  | .resource => [2, 1, 0]
  | .system => []

theorem grove_reached : grove.Reached .plain := reached_foldl .plain _ _

theorem grove_live (r : Root) (i : Nat) : grove.tree.Live r i ↔ i ∈ groveOrder r := by
  have first : ∀ r ∈ Root.all, ∀ i ∈ grove.tree.list r, i ∈ groveOrder r := by decide +kernel
  have below : ∀ r ∈ Root.all, ∀ i ∈ groveOrder r,
      (∀ j ∈ (grove.tree.links i).subRoot, j ∈ groveOrder r) ∧
      ∀ j ∈ (grove.tree.links i).next, j ∈ groveOrder r := by decide +kernel
  have known : r ∈ Root.all := by cases r <;> decide
  constructor
  · intro live
    induction live with
    | top h => exact first r known _ h
    | sub _ h ih => exact (below r known _ ih).1 _ h
    | next _ h ih => exact (below r known _ ih).2 _ h
  · have agent : grove.tree.Live .agent 3 := .top (by decide +kernel)
    have folder : grove.tree.Live .resource 1 := .top (by decide +kernel)
    have inside : grove.tree.Live .resource 2 := .sub folder (by decide +kernel)
    have behind : grove.tree.Live .resource 0 := .next folder (by decide +kernel)
    intro member
    cases r <;> simp only [groveOrder, List.mem_cons, List.not_mem_nil, or_false] at member
    · exact member ▸ agent
    · rcases member with rfl | rfl | rfl
      · exact inside
      · exact folder
      · exact behind

theorem grove_order {order : Root → List Nat}
    (post : ∀ r, grove.tree.Postorder r (order r)) : order = groveOrder := by
  have perm (r : Root) : (order r).Perm (groveOrder r) := by
    have nodup : (groveOrder r).Nodup := by cases r <;> decide
    exact (List.perm_ext_iff_of_nodup (post r).once nodup).mpr fun i =>
      ((post r).all i).trans (grove_live r i)
  have live : grove.tree.Live .resource 1 := (grove_live .resource 1).mpr (by decide)
  have child := (post .resource).child 1 2 live (.first (by decide +kernel))
  have sibling := (post .resource).sibling 1 0 live (by decide +kernel)
  have only : ∀ l ∈ List.permutations' [2, 1, 0], [2, 1].Sublist l → [1, 0].Sublist l →
      l = [2, 1, 0] := by decide
  funext r
  cases r with
  | agent => exact List.perm_singleton.mp (perm .agent)
  | resource => exact only _ (List.mem_permutations'.mpr (perm .resource)) child sibling
  | system => exact List.perm_nil.mp (perm .system)

end Store
end EmmaNode

import EmmaNode.Locking
import EmmaNode.Enumeration

/-! The watchdog. A round looks at three resources only: the one the iterator comes to next,
the first agent and the first local resource. It is repeated only while the path of the last
one does not fit its buffer, and then for ever. -/

namespace EmmaNode

namespace Forest
variable {ι κ : Type} [DecidableEq ι]

theorem mem_erase {i j : ι} {t : Forest ι} (leaf : t.Leaf i) (nd : t.walk.Nodup) (h : j ∈ t.walk)
    (ne : j ≠ i) : j ∈ (t.erase i).walk := by
  by_cases hi : i ∈ t.walk
  · have := (erase_perm hi nd leaf).mem_iff.mp h
    exact (List.mem_cons.mp this).resolve_left ne
  · rwa [erase_of_not_mem hi]

theorem head_erase {i l : ι} {t : Forest ι} (leaf : t.Leaf i) (first : t.walk.head? = some l)
    (ne : l ≠ i) : (t.erase i).walk.head? = some l := by
  induction t with
  | nil => cases first
  | node j sub next ihs _ =>
    obtain ⟨here, ls, -⟩ := leaf
    rw [walk, List.head?_append] at first
    by_cases hj : j = i
    · rw [here hj] at first
      cases first
      exact absurd hj ne
    · rw [erase, if_neg hj, walk, List.head?_append]
      cases hs : sub.walk.head? with
      | none =>
        have empty : sub = nil := by
          cases sub with
          | nil => rfl
          | node => simp [walk] at hs
        rw [hs] at first
        rw [empty]
        exact first
      | some k =>
        rw [hs] at first
        rw [ihs ls (hs.trans first)]
        rfl

theorem way_erase {name : ι → κ} {i j : ι} {t : Forest ι} (leaf : t.Leaf i) (nd : t.walk.Nodup)
    (hj : j ≠ i) : (t.erase i).way name j = t.way name j := by
  induction t with
  | nil => rfl
  | node k sub next ihs ihn =>
    obtain ⟨here, ls, ln⟩ := leaf
    simp only [walk, List.nodup_append, List.nodup_cons] at nd
    obtain ⟨nds, ⟨-, ndn⟩, -⟩ := nd
    by_cases hk : k = i
    · rw [erase, if_pos hk, way, if_neg fun e => hj (e.symm.trans hk), here hk]
      exact (if_neg List.not_mem_nil).symm
    · have inside : j ∈ (sub.erase i).walk ↔ j ∈ sub.walk :=
        ⟨mem_of_mem_erase, fun h => mem_erase ls nds h hj⟩
      rw [erase, if_neg hk, way, way, ihs ls nds, ihn ln ndn]
      simp only [inside]

end Forest

namespace Store
variable {st : Store} {f : Root → Forest Nat}

theorem Sound.first_name (so : st.Sound f) (it : Iter) (root : Root) (blockSize : Nat) :
    (it.get st.tree (some root) blockSize).1 =
        st.tree.printFullPath root (f root).walk.head? blockSize ∧
      (it.get st.tree (some root) blockSize).2.stuck = it.stuck := by
  have run := so.session_all it root blockSize
  have first : (Root.visits (fun r => (f r).walk) (Root.all.drop root.index)).head? =
      some (root, (f root).walk.head?) := by
    cases root <;>
      simp only [Root.visits, Root.all, Root.index, List.drop_zero, List.drop_succ_cons,
        List.flatMap_cons, List.append_assoc] <;> cases (f _).walk <;> rfl
  obtain ⟨visits, hv⟩ := List.head?_eq_some_iff.mp first
  simp only [hv, Iter.session_cons, List.map_cons] at run
  have handed := congrArg (fun r => (r.1.map Prod.fst).head?) run
  simp only [List.map_cons, List.head?_cons, Option.some.injEq] at handed
  rw [Iter.get_given]
  exact (Iter.getNext_handed handed).imp_right fun kept => kept.trans (by cases root <;> rfl)

theorem Sound.way_short (so : st.Sound f) {uri : Text} {i : Nat}
    (h : st.tree.resolve uri = some i) : ∃ root, i ∈ (f root).walk ∧
      (root.text ((f root).way st.tree.name i)).length ≤ max 2 uri.length := by
  rw [so.shape.resolve_eq, Option.bind_eq_some_iff] at h
  obtain ⟨root, hroot, found⟩ := h
  refine ⟨root, Forest.find_mem found, ?_⟩
  rw [Forest.way_find (so.shape.nodup root) found, Root.text, Tree.path]
  obtain ⟨pre, s, last, segments, -, join⟩ := pathSegments_eq (emmaGetName uri)
  have named : root.name = uri.takeWhile (· ≠ slash) := by
    simpa using List.find?_some hroot
  have split := congrArg List.length (List.takeWhile_append_dropWhile (p := (· ≠ slash)) (l := uri))
  have whole := congrArg List.length join
  have one : root.name.length = 1 := by cases root <;> rfl
  have paths : ((pathSegments (emmaGetName uri)).map Prod.fst).flatMap (slash :: ·) =
      (pre ++ [s]).flatMap (slash :: ·) := by
    rw [segments, List.map_append, List.map_map, show Prod.fst ∘ (fun a : Text => (a, true)) = id
      from rfl, List.map_id, List.map_singleton]
  have behind : (emmaGetName uri).length = (uri.dropWhile (· ≠ slash)).length - 1 := by
    simp [emmaGetName]
  rw [paths, List.length_append, one]
  rw [List.length_append, ← named, one] at split
  rw [List.length_append, List.length_cons, behind] at whole
  omega

end Store

namespace State
variable {P : Platform} {s t : State}

def found (s : State) (root : Option Root) : Option Nat :=
  s.resolve (s.getNextResourceNameByRoot root emmaMaxUriSize).2

def visit (roots : List (Option Root)) (s : State) : State :=
  roots.foldl (fun s root => (s.watchResource true root).1) s

def Visited (i : Nat) : List (Option Root) → State → Prop
  | [], _ => False
  | root :: rest, s => s.found root = some i ∨ Visited i rest (s.watchResource true root).1

instance decidableVisited (i : Nat) : (roots : List (Option Root)) → (s : State) →
    Decidable (s.Visited i roots)
  | [], _ => inferInstanceAs (Decidable False)
  | root :: rest, s =>
    have := decidableVisited i rest (s.watchResource true root).1
    inferInstanceAs (Decidable (_ ∨ _))

theorem watchResource_locked (so : s.Sound) (root : Option Root) (i : Nat) :
    (s.watchResource true root).1.Locked i ↔
      s.Locked i ∧ ¬(s.TimedOut true i ∧ s.found root = some i) := by
  have named := Content.getNextResourceNameByRoot s root emmaMaxUriSize
  have sound := (Sound.kept .plain).content named so
  unfold watchResource found
  simp only
  rw [← named.locked_iff, ← named.resolve_eq, show s.TimedOut true i ↔
    (s.getNextResourceNameByRoot root emmaMaxUriSize).1.TimedOut true i from Iff.rfl]
  generalize (s.getNextResourceNameByRoot root emmaMaxUriSize).2 = name
  generalize (s.getNextResourceNameByRoot root emmaMaxUriSize).1 = t at sound ⊢
  have cancelled := cancelTransfer_locked sound name i
  split_ifs with out
  · obtain ⟨held, -, late⟩ := out
    unfold Store.emmaResourceIsLocked at held
    unfold Store.emmaResourceGetClocktime at late
    refine cancelled.trans (and_congr_right fun _ => not_congr ?_)
    refine ⟨fun hi => ⟨⟨rfl, ?_⟩, hi⟩, fun h => h.2⟩
    have hi : t.store.tree.resolve name = some i := hi
    simpa only [hi] using late
  · refine ⟨fun held => ⟨held, ?_⟩, fun h => h.1⟩
    rintro ⟨⟨-, late⟩, hi⟩
    have hi : t.store.tree.resolve name = some i := hi
    refine out ⟨?_, trivial, ?_⟩
    · simp only [Store.emmaResourceIsLocked, hi]
      exact decide_eq_true held.2
    · simpa only [Store.emmaResourceGetClocktime, hi] using late

theorem visit_locked (so : s.Sound) (roots : List (Option Root)) (i : Nat) :
    (s.visit roots).Sound ∧ ((s.visit roots).Locked i ↔
      s.Locked i ∧ ¬(s.TimedOut true i ∧ s.Visited i roots)) := by
  induction roots generalizing s with
  | nil => exact ⟨so, by simp [visit, Visited]⟩
  | cons root rest ih =>
    have watched := watchResource_watched so true root
    obtain ⟨sound, later⟩ := ih ((Sound.kept .plain).watchResource trivial true root so)
    have clock : (s.watchResource true root).1.TimedOut true i ↔ s.TimedOut true i := by
      simp only [TimedOut, watched.clock]
    refine ⟨sound, ?_⟩
    rw [show s.visit (root :: rest) = (s.watchResource true root).1.visit rest from rfl, later,
      watchResource_locked so, clock, Visited]
    tauto

theorem watchResource_stuck (s : State) (root : Option Root) :
    (s.watchResource true root).1.reader.iter.stuck =
      (s.reader.iter.get s.store.tree root emmaMaxUriSize).2.stuck := by
  unfold watchResource
  simp only
  split
  · unfold cancelTransfer
    split <;> rename_i deleted <;> exact congrArg (·.1.reader.iter.stuck) deleted |>.symm
  · rfl

theorem watchResource_name (s : State) (root : Option Root) :
    (s.watchResource true root).2 = (s.getNextResourceNameByRoot root emmaMaxUriSize).2 := by
  unfold watchResource
  simp only
  split <;> rfl

def Overlong (s : State) : Prop := ∃ f, s.store.Sound f ∧ ∃ l, (f .resource).walk.head? = some l ∧
  emmaMaxUriSize < (Root.text .resource ((f .resource).way s.store.tree.name l)).length

theorem overlong_iff (so : s.Sound) : s.Overlong ↔
    (s.getNextResourceNameByRoot (some .resource) emmaMaxUriSize).2 = [] := by
  have named {f : Root → Forest Nat} (so : s.store.Sound f) :=
    (so.first_name s.reader.iter .resource emmaMaxUriSize).1
  constructor
  · rintro ⟨f, so, l, first, long⟩
    refine (named so).trans ?_
    rw [first, so.shape.printFullPath_eq (List.mem_of_mem_head? first), if_neg (by omega)]
  · obtain ⟨f, so⟩ := so
    intro none'
    have none' := (named so).symm.trans none'
    cases first : (f .resource).walk.head? with
    | none =>
      rw [first] at none'
      exact nomatch (show Root.name .resource = [] from none')
    | some l =>
      refine ⟨f, so, l, first, ?_⟩
      rw [first, so.shape.printFullPath_eq (List.mem_of_mem_head? first)] at none'
      by_contra short
      rw [if_pos (by omega)] at none'
      exact absurd none' (List.append_ne_nil_of_left_ne_nil (List.cons_ne_nil _ _) _)

theorem name_short (s : State) (root : Option Root) :
    (s.getNextResourceNameByRoot root emmaMaxUriSize).2.length ≤ emmaMaxUriSize := by
  have short (root : Root) (resource : Option Nat) :
      (s.store.tree.printFullPath root resource emmaMaxUriSize).length ≤ emmaMaxUriSize := by
    unfold Tree.printFullPath
    simp only
    split_ifs with fits
    · exact fits
    · exact Nat.zero_le _
  show (s.reader.iter.get s.store.tree root emmaMaxUriSize).1.length ≤ emmaMaxUriSize
  rw [Iter.get_given]
  unfold Iter.getNext
  split
  · exact Nat.zero_le _
  split
  · exact Nat.zero_le _
  split
  · exact short _ _
  · exact short _ none

theorem Overlong.cancelTransfer (h : s.Overlong) {uri : Text}
    (short : uri.length ≤ emmaMaxUriSize) :
    (s.cancelTransfer uri).Overlong := by
  obtain ⟨f, so, l, first, long⟩ := h
  rcases cancelTransfer_cases ⟨f, so⟩ uri with ⟨i, found, done, cancelled, -⟩ | ⟨same, cancelled⟩
  · rcases Store.emmaResourceDel_spec so uri with ⟨root, j, -, hj, -, d⟩ | ⟨failed, -⟩
    swap
    · exact absurd done failed
    obtain ⟨r, hr, path⟩ := so.way_short hj
    obtain rfl : r = root := so.shape.apart r root j hr d.mem
    have name : (s.del uri).1.store.tree.name = s.store.tree.name := d.same.name
    rw [cancelled]
    refine ⟨_, d.sound, l, ?_⟩
    show _ ∧ _ < (Root.text .resource (Forest.way (s.del uri).1.store.tree.name l _)).length
    rw [name]
    by_cases here : r = .resource
    · subst here
      have leaf := (so.shape.rep .resource).leaf d.leaf
      have other : l ≠ j := by
        rintro rfl
        simp only [emmaMaxUriSize] at long short
        omega
      rw [setForest, Function.update_self]
      exact ⟨Forest.head_erase leaf first other,
        by rwa [Forest.way_erase leaf (so.shape.nodup .resource) other]⟩
    · rw [setForest, Function.update_of_ne (Ne.symm here)]
      exact ⟨first, long⟩
  · have tree : (s.cancelTransfer uri).store.tree = s.store.tree := by
      rw [cancelled]
      simp only [release, Store.emmaResourceRelease, same]
      split <;> rfl
    have alloc : (s.cancelTransfer uri).store.alloc = s.store.alloc := by
      rw [cancelled]
      simp only [release, Store.emmaResourceRelease, same]
      split <;> rfl
    exact ⟨f, so.content tree alloc, l, first, by rwa [tree]⟩

theorem Overlong.watchResource (h : s.Overlong) (root : Option Root) :
    (s.watchResource true root).1.Overlong := by
  have short := s.name_short root
  unfold State.watchResource
  simp only
  split
  · exact Overlong.cancelTransfer (s := (s.getNextResourceNameByRoot root emmaMaxUriSize).1) h short
  · exact h

theorem Overlong.endless (h : s.Overlong) (fuel : Nat) :
    (s.watchdogFrom true fuel).reader.iter.stuck = true := by
  induction fuel generalizing s with
  | zero => rfl
  | succ fuel ih =>
    have third := (h.watchResource none).watchResource (some .agent)
    have nameless : (((s.watchResource true none).1.watchResource true
        (some .agent)).1.watchResource true (some .resource)).2 = [] := by
      obtain ⟨f, so, -⟩ := id third
      exact (watchResource_name _ _).trans ((overlong_iff ⟨f, so⟩).mp third)
    simp only [watchdogFrom, if_pos nameless]
    exact ih (third.watchResource (some .resource))

/-- The scan comes to its end, and frees what had timed out. -/
structure Freed (s t : State) : Prop where
  ends : t.reader.iter.stuck = false
  free : ∀ i, s.Locked i → s.TimedOut true i → ¬t.Locked i

def round : List (Option Root) := [none, some .agent, some .resource]

/-- The first round sees all that has timed out and is the last: the iterator can go on from
where it was left, and the first local resource has a name. -/
structure Covered (s : State) : Prop where
  returns : (s.getNextResourceNameByRoot none emmaMaxUriSize).1.reader.iter.stuck = false
  named : ((s.visit [none, some .agent]).getNextResourceNameByRoot (some .resource)
    emmaMaxUriSize).2 ≠ []
  seen : ∀ i, s.Locked i → s.TimedOut true i → s.Visited i round

theorem visit_stuck (so : s.Sound) : (s.visit round).reader.iter.stuck =
    (s.getNextResourceNameByRoot none emmaMaxUriSize).1.reader.iter.stuck := by
  have begun {u : State} (so : u.Sound) (root : Root) :
      (u.watchResource true (some root)).1.reader.iter.stuck = u.reader.iter.stuck := by
    obtain ⟨f, so⟩ := so
    exact (watchResource_stuck u _).trans (so.first_name u.reader.iter root emmaMaxUriSize).2
  have first := (Sound.kept .plain).watchResource trivial true none so
  have second := (Sound.kept .plain).watchResource trivial true (some .agent) first
  exact (begun second .resource).trans ((begun first .agent).trans (watchResource_stuck s none))

theorem freed_iff (so : s.Sound) : s.Freed (s.watchdog true) ↔ s.Covered := by
  have before := (visit_locked so [none, some .agent] 0).1
  have nameless := overlong_iff before
  have third := watchResource_name (s.visit [none, some .agent]) (some .resource)
  have rounds (fuel : Nat) : s.watchdogFrom true (fuel + 1) =
      if ((s.visit [none, some .agent]).getNextResourceNameByRoot (some .resource)
        emmaMaxUriSize).2 = [] then (s.visit round).watchdogFrom true fuel
      else s.visit round := by
    rw [← third]
    rfl
  obtain ⟨fuel, positive⟩ : ∃ fuel, maxNames = fuel + 1 := ⟨_, rfl⟩
  rw [watchdog, positive]
  by_cases overlong : (s.visit [none, some .agent]).Overlong
  · have endless := (overlong.watchResource (some .resource)).endless fuel
    rw [rounds, if_pos (nameless.mp overlong)]
    refine ⟨fun h => ?_, fun h => absurd (nameless.mp overlong) h.named⟩
    exact absurd (endless.symm.trans h.ends) nofun
  · have named := mt nameless.mpr overlong
    rw [rounds, if_neg named]
    constructor
    · intro h
      refine ⟨(visit_stuck so).symm.trans h.ends, named, fun i held late => ?_⟩
      by_contra missed
      exact h.free i held late (((visit_locked so round i).2).mpr ⟨held, fun h => missed h.2⟩)
    · intro h
      refine ⟨(visit_stuck so).trans h.returns, fun i held late kept => ?_⟩
      exact (((visit_locked so round i).2).mp kept).2 ⟨late, h.seen i held late⟩

end State

namespace System
variable {P : Platform} {s t : System}

/-- A tick of the watchdog frees all that has timed out, or does not: that depends on what its
first round comes to. -/
theorem watchdog_frees_iff (h : Reachable P s) (quiet : s.client.quiet)
    (tick : s.step P .watchdog = some t) : s.shared.Freed t.shared ↔ s.shared.Covered := by
  unfold step at tick
  split_ifs at tick
  all_goals
    obtain rfl := Option.some.inj tick
    simp only [mapShared, quiet]
    exact State.freed_iff (ReachableBy.sound h)

def agentPart (name : Char) (more : Bool) : Event :=
  .request ⟨chars ['A', '/', name], .put, some ⟨0, more, 1⟩, chars ['1'], 64, 0, short_one⟩

/-- The first agent waits for its second block. -/
theorem watchdog_frees_first : ∃ s t, Reachable .plain s ∧ s.step .plain .watchdog = some t ∧
    s.shared.Locked 7 ∧ s.shared.TimedOut true 7 ∧ s.shared.Freed t.shared := by
  obtain ⟨s, run, hs⟩ := Runs.of_follow (step .plain) (fun _ _ => True)
    (fun s => (s.client.quiet ∧ s.shared.reader.iter.stuck = false ∧ s.client.pc = .main) ∧
      (s.shared.Locked 7 ∧ s.shared.TimedOut true 7) ∧
      (s.shared.getNextResourceNameByRoot none emmaMaxUriSize).1.reader.iter.stuck = false ∧
      ((s.shared.visit [none, some .agent]).getNextResourceNameByRoot (some .resource)
        emmaMaxUriSize).2 ≠ [] ∧
      s.shared.store.tree.pool.used.length = emmaMaxResources ∧
      ∀ i ∈ List.range emmaMaxResources, s.shared.Locked i → s.shared.TimedOut true i →
        s.shared.Visited i State.round)
    [agentPart 'b' false, agentPart 'a' true, .environment { Env.bare with now := 9 }]
    (init .plain (fun _ => none) .bare) (by decide +kernel)
  simp only [decide_eq_true_eq] at hs
  obtain ⟨⟨quiet, free, main⟩, ⟨held, late⟩, returns, named, size, seen⟩ := hs
  have tick : s.step .plain .watchdog =
      some (s.mapShared (State.watchdog · s.client.quiet)) := by
    simp [step, free, main, Pc.yields]
  have reached : Reachable .plain s := ⟨_, _, run⟩
  refine ⟨s, _, reached, tick, held, late, (watchdog_frees_iff reached quiet tick).mpr
    ⟨returns, named, fun i locked => seen i (List.mem_range.mpr ?_) locked⟩⟩
  exact size ▸ Pool.used_lt locked.1

/-- The second agent waits for its second block: no round comes to it. -/
theorem watchdog_misses : ¬ ∀ (P : Platform) (s t : System), Reachable P s → s.client.quiet →
    s.step P .watchdog = some t → s.shared.Freed t.shared := by
  intro h
  obtain ⟨s, run, hs⟩ := Runs.of_follow (step .plain) (fun _ _ => True)
    (fun s => s.client.quiet ∧ (s.step .plain .watchdog).any fun t =>
      s.shared.Locked 6 ∧ s.shared.TimedOut true 6 ∧ t.shared.Locked 6)
    [agentPart 'a' false, agentPart 'b' false, agentPart 'a' true,
      .environment { Env.bare with now := 9 }]
    (init .plain (fun _ => none) .bare) (by decide +kernel)
  simp only [Bool.decide_and, Bool.and_eq_true, decide_eq_true_eq, Option.any_eq_true] at hs
  obtain ⟨quiet, t, tick, held, late, kept⟩ := hs
  exact (h .plain s t ⟨_, _, run⟩ quiet tick).free 6 held late kept

end System

end EmmaNode

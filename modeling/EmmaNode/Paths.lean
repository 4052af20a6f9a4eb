import EmmaNode.StoreRuns

/-! Names as texts and as paths. A name is searched segment by segment from the top of a
forest, a path is printed from the resource upwards; both meet in the way the forest leads
to a resource. -/

namespace EmmaNode

namespace Forest
variable {ι κ : Type} [DecidableEq ι]

def way (name : ι → κ) (i : ι) : Forest ι → List κ
  | nil => []
  | node j sub next =>
    if j = i then [name j]
    else if i ∈ sub.walk then name j :: sub.way name i else next.way name i

theorem way_scan {name : ι → κ} [DecidableEq κ] {s : κ} {t sub : Forest ι} {i k : ι}
    (nd : t.walk.Nodup) (h : t.scan name s = some (k, sub)) (hi : i ∈ sub.walk) :
    t.way name i = s :: sub.way name i := by
  induction t with
  | nil => simp [scan] at h
  | node j u next _ ihn =>
    simp only [walk, List.nodup_append, List.nodup_cons, List.mem_cons] at nd
    obtain ⟨-, ⟨hjn, ndn⟩, apart⟩ := nd
    rw [scan] at h
    split at h
    · rename_i e
      cases h
      have hki : k ≠ i := fun e => apart i hi k (.inl rfl) e.symm
      rw [way, if_neg hki, if_pos hi, e]
    · have inNext : i ∈ next.walk := (scan_mem h).2 i hi
      have hji : j ≠ i := fun e => hjn (e ▸ inNext)
      have his : i ∉ u.walk := fun hm => apart i hm i (.inr inNext) rfl
      rw [way, if_neg hji, if_neg his]
      exact ihn ndn h

theorem way_top {name : ι → κ} [DecidableEq κ] {s : κ} {t sub : Forest ι} {i : ι}
    (nd : t.walk.Nodup) (h : t.scan name s = some (i, sub)) : t.way name i = [s] := by
  induction t with
  | nil => simp [scan] at h
  | node j u next _ ihn =>
    simp only [walk, List.nodup_append, List.nodup_cons, List.mem_cons] at nd
    obtain ⟨-, ⟨hjn, ndn⟩, apart⟩ := nd
    rw [scan] at h
    split at h
    · rename_i e
      cases h
      rw [way, if_pos rfl, e]
    · have inNext : i ∈ next.walk := (scan_mem h).1
      have hji : j ≠ i := fun e => hjn (e ▸ inNext)
      have his : i ∉ u.walk := fun hm => apart i hm i (.inr inNext) rfl
      rw [way, if_neg hji, if_neg his]
      exact ihn ndn h

theorem way_find {name : ι → κ} [DecidableEq κ] {path : List κ} {t : Forest ι} {i : ι}
    (nd : t.walk.Nodup) (h : t.find name path = some i) : t.way name i = path := by
  induction path generalizing t with
  | nil => simp [find] at h
  | cons s rest ih =>
    cases rest with
    | nil =>
      simp only [find, Option.map_eq_some_iff] at h
      obtain ⟨⟨j, sub⟩, hs, rfl⟩ := h
      exact way_top nd hs
    | cons s' rest' =>
      simp only [find, Option.bind_eq_some_iff] at h
      obtain ⟨⟨j, sub⟩, hs, hf⟩ := h
      rw [way_scan nd hs (find_mem hf), ih (scan_sub nd hs).1 hf]

theorem way_eq_nil {name : ι → κ} {i : ι} {t : Forest ι} (h : t.way name i = []) :
    i ∉ t.walk := by
  induction t with
  | nil => simp [walk]
  | node j sub next ihs ihn =>
    rw [way] at h
    split at h
    · cases h
    split at h
    · cases h
    · rename_i hj hs
      simp only [walk, List.mem_append, List.mem_cons, not_or]
      exact ⟨hs, Ne.symm hj, ihn h⟩

theorem way_mem {name : ι → κ} {i : ι} {t : Forest ι} {s : κ} (h : s ∈ t.way name i) :
    ∃ j ∈ t.walk, name j = s := by
  induction t with
  | nil => simp [way] at h
  | node j sub next ihs ihn =>
    rw [way] at h
    split at h
    · exact ⟨j, by simp [walk], (List.mem_singleton.mp h).symm⟩
    split at h
    · rcases List.mem_cons.mp h with rfl | hm
      · exact ⟨j, by simp [walk], rfl⟩
      · obtain ⟨k, hk, e⟩ := ihs hm
        exact ⟨k, by simp [walk, hk], e⟩
    · obtain ⟨k, hk, e⟩ := ihn h
      exact ⟨k, by simp [walk, hk], e⟩

theorem way_dropLast {name : ι → κ} {i : ι} {t : Forest ι} (hi : i ∈ t.walk) :
    (t.way name i).dropLast ++ [name i] = t.way name i := by
  induction t with
  | nil => simp [walk] at hi
  | node j sub next ihs ihn =>
    simp only [walk, List.mem_append, List.mem_cons] at hi
    rw [way]
    split
    · rename_i e
      simp [e]
    · rename_i hj
      split
      · rename_i hs
        rw [List.dropLast_cons_of_ne_nil (fun e => way_eq_nil e hs), List.cons_append, ihs hs]
      · rename_i hs
        exact ihn (by tauto)

theorem way_insertUnder {name : ι → κ} {f n i : ι} {t : Forest ι} (nd : t.walk.Nodup)
    (hn : n ∉ t.walk) (hi : i ≠ n) : (t.insertUnder f n).way name i = t.way name i := by
  induction t with
  | nil => rfl
  | node j sub next ihs ihn =>
    have nd' := nd
    simp only [walk, List.nodup_append, List.nodup_cons] at nd'
    obtain ⟨nds, ⟨-, ndn⟩, -⟩ := nd'
    simp only [walk, List.mem_append, List.mem_cons, not_or] at hn
    obtain ⟨hns, -, hnn⟩ := hn
    rw [insertUnder]
    split
    · simp [way, walk, hi, Ne.symm hi]
    · have within : i ∈ (sub.insertUnder f n).walk ↔ i ∈ sub.walk := by
        by_cases hf : f ∈ sub.walk
        · rw [(insertUnder_perm hf nds).mem_iff, List.mem_cons, or_iff_right hi]
        · rw [insertUnder_of_not_mem hf]
      simp only [way, within, ihs nds hns, ihn ndn hnn]

theorem erase_insertUnder {f n : ι} {t : Forest ι} (hn : n ∉ t.walk) :
    (t.insertUnder f n).erase n = t := by
  induction t with
  | nil => rfl
  | node j sub next ihs ihn =>
    simp only [walk, List.mem_append, List.mem_cons, not_or] at hn
    obtain ⟨hns, hnj, hnn⟩ := hn
    rw [insertUnder]
    split
    · rw [erase, if_neg (Ne.symm hnj), erase, if_pos rfl, erase_of_not_mem hnn]
    · rw [erase, if_neg (Ne.symm hnj), ihs hns, ihn hnn]

omit [DecidableEq ι] in
theorem leaf_of_not_mem {n : ι} {t : Forest ι} (hn : n ∉ t.walk) : t.Leaf n := by
  induction t with
  | nil => trivial
  | node j sub next ihs ihn =>
    simp only [walk, List.mem_append, List.mem_cons, not_or] at hn
    obtain ⟨hns, hnj, hnn⟩ := hn
    exact ⟨fun e => absurd e.symm hnj, ihs hns, ihn hnn⟩

theorem leaf_insertUnder {f n : ι} {t : Forest ι} (hn : n ∉ t.walk) :
    (t.insertUnder f n).Leaf n := by
  induction t with
  | nil => trivial
  | node j sub next ihs ihn =>
    simp only [walk, List.mem_append, List.mem_cons, not_or] at hn
    obtain ⟨hns, hnj, hnn⟩ := hn
    have other : j ≠ n := Ne.symm hnj
    rw [insertUnder]
    split
    · refine ⟨fun e => absurd e other, ⟨fun _ => rfl, trivial, ?_⟩, leaf_of_not_mem hnn⟩
      exact leaf_of_not_mem hns
    · exact ⟨fun e => absurd e other, ihs hns, ihn hnn⟩

theorem scan_insertUnder {name : ι → κ} [DecidableEq κ] {s : κ} {f n : ι} {t : Forest ι}
    (nd : t.walk.Nodup) : (t.insertUnder f n).scan name s =
      (t.scan name s).map fun (i, sub) =>
        (i, if i = f then node n nil sub else sub.insertUnder f n) := by
  induction t with
  | nil => rfl
  | node j sub next ihs ihn =>
    simp only [walk, List.nodup_append, List.nodup_cons, List.mem_cons] at nd
    obtain ⟨-, ⟨hjn, ndn⟩, -⟩ := nd
    rw [insertUnder]
    by_cases hj : j = f
    · rw [if_pos hj]
      subst hj
      have rest : next.scan name s = (next.scan name s).map fun (i, sub) =>
          (i, if i = j then node n nil sub else sub.insertUnder j n) := by
        rw [← ihn ndn, insertUnder_of_not_mem hjn]
      simp only [scan]
      split
      · simp
      · exact rest
    · rw [if_neg hj]
      simp only [scan]
      split
      · simp [hj]
      · exact ihn ndn

omit [DecidableEq ι] in
theorem scan_apart {name : ι → κ} [DecidableEq κ] {s : κ} {t sub : Forest ι} {i : ι}
    (nd : t.walk.Nodup) (h : t.scan name s = some (i, sub)) : i ∉ sub.walk := by
  induction t with
  | nil => simp [scan] at h
  | node j u next _ ihn =>
    simp only [walk, List.nodup_append, List.nodup_cons, List.mem_cons] at nd
    obtain ⟨-, ⟨-, ndn⟩, apart⟩ := nd
    rw [scan] at h
    split at h
    · cases h
      exact fun hi => apart i hi i (.inl rfl) rfl
    · exact ihn ndn h

omit [DecidableEq ι] in
theorem find_cons {name : ι → κ} [DecidableEq κ] {s : κ} {rest : List κ} (h : rest ≠ [])
    (t : Forest ι) :
    t.find name (s :: rest) = (t.scan name s).bind fun found => found.2.find name rest := by
  cases rest with
  | nil => exact absurd rfl h
  | cons s' rest => rfl

theorem scan_erase_none {name : ι → κ} [DecidableEq κ] {s : κ} {t : Forest ι} {z : ι}
    (h : t.scan name s = none) : (t.erase z).scan name s = none := by
  induction t with
  | nil => rfl
  | node j sub next _ ihn =>
    rw [scan] at h
    split at h
    · cases h
    · rename_i other
      rw [erase]
      split
      · exact h
      · rw [scan, if_neg other, ihn h]

theorem find_of_erase (name : ι → κ) [DecidableEq κ] (path : List κ) {t : Forest ι} {z : ι}
    (nd : t.walk.Nodup) (leaf : t.Leaf z) :
    t.find name path = (t.erase z).find name path ∨ t.find name path = some z ∨
      ∃ m, (t.erase z).find name (t.way name z) = some m := by
  induction path generalizing t with
  | nil => exact .inl rfl
  | cons s rest ih =>
    cases hs : t.scan name s with
    | none =>
      have gone : (t.erase z).scan name s = none := scan_erase_none hs
      refine .inl ?_
      cases rest <;> simp [find, hs, gone]
    | some pair =>
      obtain ⟨k, sub⟩ := pair
      obtain ⟨nds, below⟩ := scan_sub nd hs
      by_cases hk : k = z
      · subst hk
        have bare : sub = nil := (below k leaf).2 rfl
        cases rest with
        | nil => exact .inr (.inl (by simp [find, hs]))
        | cons s' rest' =>
          have nowhere : t.find name (s :: s' :: rest') = none := by
            cases rest' <;> simp [find, hs, bare, scan]
          rw [nowhere, way_top nd hs]
          cases other : (t.erase k).scan name s with
          | none => exact .inl (by simp [find, other])
          | some found => exact .inr (.inr ⟨found.1, by simp [find, other]⟩)
      · have kept : (t.erase z).scan name s = some (k, sub.erase z) := scan_erase nd hs hk
        cases rest with
        | nil => exact .inl (by simp [find, hs, kept])
        | cons s' rest' =>
          simp only [find, hs, kept, Option.bind_some]
          by_cases inside : z ∈ sub.walk
          · rcases ih nds (below z leaf).1 with same | here | ⟨m, hm⟩
            · exact .inl same
            · exact .inr (.inl here)
            · refine .inr (.inr ⟨m, ?_⟩)
              have deep : sub.way name z ≠ [] := fun e => way_eq_nil e inside
              rw [way_scan nd hs inside, find_cons deep, kept, Option.bind_some]
              exact hm
          · rw [erase_of_not_mem inside]
            exact .inl rfl

theorem find_insertUnder {name : ι → κ} [DecidableEq κ] {path : List κ} {s : κ} {f n : ι}
    {t : Forest ι} (nd : t.walk.Nodup) (h : t.find name path = some f) :
    (t.insertUnder f n).find name (path ++ [s]) =
      if name n = s then some n else t.find name (path ++ [s]) := by
  induction path generalizing t with
  | nil => simp [find] at h
  | cons a rest ih =>
    rw [List.cons_append, find_cons (by simp), find_cons (by simp), scan_insertUnder nd]
    cases rest with
    | nil =>
      simp only [find, Option.map_eq_some_iff] at h
      obtain ⟨⟨j, sub⟩, hs, rfl⟩ := h
      simp only [hs, Option.map_some, Option.bind_some, if_true, List.nil_append, find, scan]
      split <;> rfl
    | cons a' rest =>
      rw [find_cons (by simp), Option.bind_eq_some_iff] at h
      obtain ⟨⟨j, sub⟩, hs, hf⟩ := h
      obtain ⟨nds, -⟩ := scan_sub nd hs
      have below : j ≠ f := by
        rintro rfl
        exact absurd (find_mem hf) (scan_apart nd hs)
      simp only [hs, Option.map_some, Option.bind_some, if_neg below]
      exact ih nds hf

end Forest

namespace Forest
variable {ι κ : Type} [DecidableEq ι] {name name' : ι → κ} {t : Forest ι}

theorem way_congr {i : ι} (same : ∀ j ∈ t.walk, name' j = name j) :
    t.way name' i = t.way name i := by
  induction t with
  | nil => rfl
  | node j sub next ihs ihn =>
    simp only [walk, List.mem_append, List.mem_cons] at same
    have hs := ihs fun k hk => same k (.inl hk)
    have hn := ihn fun k hk => same k (.inr (.inr hk))
    simp only [way, hs, hn, same j (.inr (.inl rfl))]

omit [DecidableEq ι] in
theorem scan_congr [DecidableEq κ] {s : κ} (same : ∀ j ∈ t.walk, name' j = name j) :
    t.scan name' s = t.scan name s := by
  induction t with
  | nil => rfl
  | node j sub next _ ihn =>
    simp only [walk, List.mem_append, List.mem_cons] at same
    have hn := ihn fun k hk => same k (.inr (.inr hk))
    simp only [scan, hn, same j (.inr (.inl rfl))]

omit [DecidableEq ι] in
theorem find_congr [DecidableEq κ] {path : List κ} (same : ∀ j ∈ t.walk, name' j = name j) :
    t.find name' path = t.find name path := by
  induction path generalizing t with
  | nil => rfl
  | cons s rest ih =>
    by_cases h : rest = []
    · subst h
      simp only [find, scan_congr same]
    rw [find_cons h, find_cons h, scan_congr same]
    cases hs : t.scan name s with
    | none => rfl
    | some found => exact ih fun k hk => same k ((scan_mem hs).2 k hk)

end Forest

theorem Represents.subRoot_of_leaf {ι : Type} {h : ι → Links ι} {p head : Option ι} {t : Forest ι}
    {i : ι} (r : Represents h p head t) (hi : i ∈ t.walk) (leaf : t.Leaf i) :
    (h i).subRoot = none := by
  induction t generalizing p head with
  | nil => simp [Forest.walk] at hi
  | node j sub next ihs ihn =>
    obtain ⟨-, -, rs, rn⟩ := r
    obtain ⟨here, ls, ln⟩ := leaf
    simp only [Forest.walk, List.mem_append, List.mem_cons] at hi
    rcases hi with hm | rfl | hm
    · exact ihs rs hm ls
    · rw [here rfl] at rs
      exact rs
    · exact ihn rn hm ln

def Root.text (root : Root) (names : List Text) : Text :=
  root.name ++ names.flatMap (slash :: ·)

namespace Tree
variable {t : Tree} {f : Root → Forest Nat}

/-- By `k` of the `prev` links from `i` to `j`, past the folders with these names, the
innermost first -/
inductive Climbs (t : Tree) : Nat → Nat → List Text → Nat → Prop
  | stay (i : Nat) : Climbs t 0 i [] i
  | folder {k i p j : Nat} {names : List Text} : (t.links i).prev = some p →
      (t.links p).subRoot = some i → Climbs t k p names j → Climbs t (k + 1) i (t.name p :: names) j
  | sibling {k i p j : Nat} {names : List Text} : (t.links i).prev = some p →
      (t.links p).subRoot ≠ some i → Climbs t k p names j → Climbs t (k + 1) i names j

theorem Climbs.trans {k k' i j l : Nat} {names names' : List Text} (c : Climbs t k i names j)
    (c' : Climbs t k' j names' l) : Climbs t (k + k') i (names ++ names') l := by
  induction c with
  | stay i => rwa [Nat.zero_add]
  | folder back below _ ih =>
    rw [Nat.add_right_comm]
    exact .folder back below (ih c')
  | sibling back beside _ ih =>
    rw [Nat.add_right_comm]
    exact .sibling back beside (ih c')

theorem climbs_top {u : Forest Nat} {p : Option Nat} {head i : Nat}
    (rep : Represents t.links p (some head) u) (nd : u.walk.Nodup) (hi : i ∈ u.walk) :
    ∃ k < u.walk.length, Climbs t k i (u.way t.name i).dropLast.reverse head := by
  induction u generalizing p head with
  | nil => simp [Forest.walk] at hi
  | node j sub next ihs ihn =>
    obtain ⟨hh, -, rs, rn⟩ := rep
    obtain rfl : head = j := Option.some.inj hh
    have nd' := nd
    simp only [Forest.walk, List.nodup_append, List.nodup_cons, List.mem_cons] at nd'
    obtain ⟨nds, ⟨hjn, ndn⟩, apart⟩ := nd'
    have size : (Forest.node head sub next).walk.length =
        sub.walk.length + next.walk.length + 1 := by
      simp only [Forest.walk, List.length_append, List.length_cons]
      omega
    rw [size]
    simp only [Forest.walk, List.mem_append, List.mem_cons] at hi
    rcases hi with hm | rfl | hm
    · -- below `head`: one more step leads from the first child to it
      cases hs : (t.links head).subRoot with
      | none =>
        rw [hs] at rs
        cases sub with
        | nil => simp [Forest.walk] at hm
        | node => exact absurd rs.1 (by simp)
      | some c =>
        rw [hs] at rs
        have hji : head ≠ i := fun e => apart i hm head (.inl rfl) e.symm
        obtain ⟨k, hk, climb⟩ := ihs rs nds hm
        have up : Climbs t 1 c [t.name head] head := .folder rs.prev_of_head hs (.stay head)
        have some' : sub.way t.name i ≠ [] := fun e => Forest.way_eq_nil e hm
        refine ⟨k + 1, by omega, ?_⟩
        rw [Forest.way, if_neg hji, if_pos hm, List.dropLast_cons_of_ne_nil some',
          List.reverse_cons]
        exact climb.trans up
    · refine ⟨0, by omega, ?_⟩
      rw [Forest.way, if_pos rfl]
      exact .stay i
    · -- behind `head`: one more step leads from the next sibling to it
      cases hn : (t.links head).next with
      | none =>
        rw [hn] at rn
        cases next with
        | nil => simp [Forest.walk] at hm
        | node => exact absurd rn.1 (by simp)
      | some c =>
        have hc : c ∈ next.walk := Forest.top_mem (rn.top_eq.symm.trans hn)
        have other : (t.links head).subRoot ≠ some c := fun e =>
          apart c (Forest.top_mem (rs.top_eq.symm.trans e)) c (.inr hc) rfl
        rw [hn] at rn
        have hji : head ≠ i := fun e => hjn (e ▸ hm)
        have his : i ∉ sub.walk := fun hs => apart i hs i (.inr hm) rfl
        obtain ⟨k, hk, climb⟩ := ihn rn ndn hm
        have up : Climbs t 1 c [] head := .sibling rn.prev_of_head other (.stay head)
        refine ⟨k + 1, by omega, ?_⟩
        rw [Forest.way, if_neg hji, if_neg his, ← List.append_nil (List.reverse _)]
        exact climb.trans up

theorem Climbs.pathNames {k i j : Nat} {names : List Text} (c : Climbs t k i names j)
    (fuel : Nat) (path : List Text) :
    t.pathNames (k + fuel) i path = t.pathNames fuel j (names.reverse ++ path) := by
  induction c generalizing path with
  | stay i => rw [Nat.zero_add, List.reverse_nil, List.nil_append]
  | folder back below _ ih =>
    rw [Nat.add_right_comm, Tree.pathNames]
    simp only [back, below, if_true, ih, List.reverse_cons, List.append_assoc, List.singleton_append]
  | sibling back beside _ ih =>
    rw [Nat.add_right_comm, Tree.pathNames]
    simp only [back, if_neg beside, ih]

theorem Shape.printFullPath_eq (sh : t.Shape f) {root : Root} {i : Nat}
    (hi : i ∈ (f root).walk) (blockSize : Nat) :
    t.printFullPath root (some i) blockSize =
      if (root.text ((f root).way t.name i)).length ≤ blockSize
      then root.text ((f root).way t.name i) else [] := by
  cases hl : t.list root with
  | none =>
    have rep := sh.rep root
    rw [hl] at rep
    cases hf : f root with
    | nil => simp [hf, Forest.walk] at hi
    | node j sub next => exact absurd (hf ▸ rep) (by simp [Represents])
  | some head =>
    have rep := sh.rep root
    rw [hl] at rep
    obtain ⟨k, hk, climb⟩ := climbs_top rep (sh.nodup root) hi
    have short := sh.length_le root
    have names : t.pathNames emmaMaxResources i [t.name i] = (f root).way t.name i := by
      obtain ⟨fuel, e⟩ : ∃ fuel, emmaMaxResources = k + fuel :=
        ⟨emmaMaxResources - k, by omega⟩
      have top : (t.links head).prev = none := rep.prev_of_head
      have stay (path : List Text) : t.pathNames fuel head path = path := by
        cases fuel <;> simp [pathNames, top]
      rw [e, climb.pathNames, stay, List.reverse_reverse]
      exact Forest.way_dropLast hi
    simp only [printFullPath, names]
    rfl

end Tree

theorem path_slash (rest : Text) :
    Tree.path (slash :: rest) = [] :: if rest = [] then [] else Tree.path rest := by
  simp only [Tree.path, pathSegments, if_true]
  split <;> rfl

theorem path_cons {c : UInt8} (hc : c ≠ slash) (rest : Text) :
    Tree.path (c :: rest) = (Tree.path rest).modifyHead (c :: ·) := by
  simp only [Tree.path, pathSegments, if_neg hc]
  cases pathSegments rest <;> rfl

theorem pathSegments_eq (name : Text) : ∃ pre s last,
    pathSegments name = pre.map (fun a => (a, true)) ++ [(s, last)] ∧ slash ∉ s ∧
      (pre ++ [s]).flatMap (slash :: ·) ++ (if last then [slash] else []) = slash :: name := by
  induction name with
  | nil => exact ⟨[], [], false, rfl, by simp, rfl⟩
  | cons c rest ih =>
    obtain ⟨pre, s, last, split, clear, join⟩ := ih
    by_cases hc : c = slash
    · subst hc
      by_cases hr : rest = []
      · subst hr
        exact ⟨[], [], true, by simp [pathSegments], by simp, rfl⟩
      · refine ⟨[] :: pre, s, last, by simp [pathSegments, hr, split], clear, ?_⟩
        rw [← join]
        simp
    · cases pre with
      | nil =>
        refine ⟨[], c :: s, last, by simp [pathSegments, hc, split], ?_, ?_⟩
        · simpa using ⟨Ne.symm hc, clear⟩
        · have : s ++ (if last then [slash] else []) = rest := by simpa using join
          simp [this]
      | cons a pre =>
        refine ⟨(c :: a) :: pre, s, last, by simp [pathSegments, hc, split], clear, ?_⟩
        have : a ++ ((pre ++ [s]).flatMap (slash :: ·) ++ (if last then [slash] else [])) = rest := by
          simpa using join
        rw [← this]
        simp

/-- A name that does not end with a slash, so that its path is all of it -/
def Whole (name : Text) : Prop := (Tree.path name).flatMap (slash :: ·) = slash :: name

theorem basename_append {s : Text} (clear : slash ∉ s) (before : Text) :
    basename (before ++ slash :: s) = s := by
  have all : ∀ c ∈ s.reverse, (decide (c ≠ slash)) = true := by
    intro c hc
    have : c ∈ s := List.mem_reverse.mp hc
    simpa using fun e : c = slash => clear (e ▸ this)
  rw [basename, List.reverse_append, List.reverse_cons, List.append_assoc,
    List.takeWhile_append_of_pos all]
  simp

theorem basename_clear {s : Text} (clear : slash ∉ s) : basename s = s := by
  have all : ∀ c ∈ s.reverse, (decide (c ≠ slash)) = true := by
    intro c hc
    have : c ∈ s := List.mem_reverse.mp hc
    simpa using fun e : c = slash => clear (e ▸ this)
  have whole : (s.reverse ++ []).takeWhile (fun c => decide (c ≠ slash)) = s.reverse ++ [] :=
    List.takeWhile_append_of_pos all
  rw [List.append_nil] at whole
  rw [basename, whole, List.reverse_reverse]

theorem Whole.basename_eq {name s : Text} {pre : List Text} (w : Whole name)
    (split : Tree.path name = pre ++ [s]) (clear : slash ∉ s) : basename name = s := by
  rw [Whole, split, List.flatMap_append] at w
  cases pre with
  | nil =>
    obtain rfl : s = name := by simpa using w
    exact basename_clear clear
  | cons a pre =>
    obtain rfl : a ++ (pre.flatMap (slash :: ·) ++ slash :: s) = name := by simpa using w
    rw [← List.append_assoc]
    exact basename_append clear _

theorem Whole.path_append {name : Text} (w : Whole name) :
    Tree.path (name ++ [slash]) = Tree.path name := by
  induction name with
  | nil => rfl
  | cons c rest ih =>
    by_cases hc : c = slash
    · subst hc
      by_cases hr : rest = []
      · subst hr
        simp [Whole, path_slash] at w
      · have w' : Whole rest := by
          simpa [Whole, path_slash, hr] using w
        rw [List.cons_append, path_slash, path_slash, if_neg hr, if_neg (by simp), ih w']
    · have w' : Whole rest := by
        obtain ⟨pre, s, last, split, -⟩ := pathSegments_eq rest
        rw [Whole, path_cons hc] at w
        rw [Whole]
        rw [Tree.path, split] at w ⊢
        cases pre <;> simpa using w
      rw [List.cons_append, path_cons hc, path_cons hc, ih w']

theorem Whole.eq_or_append {name other : Text} (w : Whole name)
    (same : Tree.path other = Tree.path name) : other = name ∨ other = name ++ [slash] := by
  obtain ⟨pre, s, last, split, -, join⟩ := pathSegments_eq other
  have path : Tree.path other = pre ++ [s] := by
    rw [Tree.path, split, List.map_append, List.map_map]
    simp [Function.comp_def]
  rw [← path, same, w] at join
  cases last with
  | false => exact .inl (by simpa using join.symm)
  | true => exact .inr (by simpa using join.symm)

namespace Tree
variable {t : Tree} {f : Root → Forest Nat}

theorem descend_folder {p head folder : Option Nat} {u : Forest Nat} {pre : List Text} {s : Text}
    {last : Bool} {q : Nat} (rep : Represents t.links p head u) (nd : u.walk.Nodup)
    (small : u.walk.length ≤ emmaMaxResources)
    (missing : (t.descend (pre.map (fun a => (a, true)) ++ [(s, last)]) folder head).resource = none)
    (found : (t.descend (pre.map (fun a => (a, true)) ++ [(s, last)]) folder head).folder = some q) :
    last = false ∧ (pre = [] ∧ folder = some q ∨ u.find t.name pre = some q) := by
  induction pre generalizing p head folder u with
  | nil =>
    simp only [List.map_nil, List.nil_append, descend] at missing found
    split at found
    · cases last with
      | true => cases found
      | false => exact ⟨rfl, .inl ⟨rfl, found⟩⟩
    · rename_i h
      rw [h] at missing
      simp at missing
  | cons a pre ih =>
    obtain ⟨same, sub⟩ := findSibling_spec rep nd a (emmaMaxResources + 1) (by omega) head
    simp only [List.map_cons, List.cons_append, descend] at missing found
    cases hs : u.scan t.name a with
    | none =>
      rw [hs] at same
      revert same missing found
      generalize t.findSibling a (emmaMaxResources + 1) head head = result
      obtain ⟨previous, current⟩ := result
      rintro rfl missing found
      cases found
    | some pair =>
      obtain ⟨i, below⟩ := pair
      rw [hs] at same
      obtain ⟨rsub, -⟩ := sub i below hs
      have short : below.walk.length ≤ emmaMaxResources :=
        Nat.le_trans
          (List.subperm_of_subset (Forest.scan_sub nd hs).1 (Forest.scan_mem hs).2).length_le
          small
      revert same missing found
      generalize t.findSibling a (emmaMaxResources + 1) head head = result
      obtain ⟨previous, current⟩ := result
      rintro missing found rfl
      simp only [List.append_eq_nil_iff, List.map_eq_nil_iff, List.cons_ne_self, and_false,
        if_false] at missing found
      obtain ⟨bare, ⟨rfl, e⟩ | e⟩ := ih rsub (Forest.scan_sub nd hs).1 short missing found
      · refine ⟨bare, .inr ?_⟩
        rw [Forest.find, hs]
        exact e
      · refine ⟨bare, .inr ?_⟩
        rw [Forest.find_cons (by rintro rfl; simp [Forest.find] at e), hs]
        exact e

end Tree
end EmmaNode

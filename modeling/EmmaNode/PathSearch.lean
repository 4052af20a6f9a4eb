import EmmaNode.Enumeration

/-! `emma_get_resource` character by character. One loop walks the name and the links; it ends
where a search along the segments of the name in the forest ends. -/

namespace EmmaNode

namespace Forest
variable {ι κ : Type} [DecidableEq ι] [DecidableEq κ]

def parent (i : ι) : Option ι → Forest ι → Option ι
  | _, nil => none
  | p, node j sub next =>
    if j = i then p else if i ∈ sub.walk then sub.parent i (some j) else next.parent i p

def before (i : ι) : Option ι → Forest ι → Option ι
  | _, nil => none
  | q, node j sub next =>
    if j = i then q else if i ∈ sub.walk then sub.before i none else next.before i (some j)

/-- The first of the top siblings called `s` with what hangs below it, and what stands in front
of it or of the end; `q` is what stands in front of the first. -/
def seek (name : ι → κ) (s : κ) : Option ι → Forest ι → Option ι × Option (ι × Forest ι)
  | q, nil => (q, none)
  | q, node i sub next => if name i = s then (q, some (i, sub)) else next.seek name s (some i)

omit [DecidableEq ι] in
theorem seek_scan (name : ι → κ) (s : κ) (q : Option ι) (t : Forest ι) :
    (t.seek name s q).2 = t.scan name s := by
  induction t generalizing q with
  | nil => rfl
  | node i sub next _ ihn =>
    rw [seek, scan]
    split
    · rfl
    · exact ihn (some i)

theorem seek_place {name : ι → κ} {s : κ} {t sub : Forest ι} {i : ι} (nd : t.walk.Nodup)
    (h : t.scan name s = some (i, sub)) (p q : Option ι) :
    t.parent i p = p ∧ (t.seek name s (q.or t.top)).1 = some ((t.before i q).getD i) := by
  induction t generalizing q with
  | nil => cases h
  | node j u next _ ihn =>
    simp only [walk, List.nodup_append, List.nodup_cons, List.mem_cons] at nd
    obtain ⟨-, ⟨hjn, ndn⟩, apart⟩ := nd
    rw [scan] at h
    split at h
    · rename_i e
      cases h
      rw [parent, before, seek, if_pos rfl, if_pos rfl, if_pos e, top]
      refine ⟨rfl, ?_⟩
      cases q <;> rfl
    · rename_i e
      have inNext : i ∈ next.walk := (scan_mem h).1
      have hji : j ≠ i := fun e => hjn (e ▸ inNext)
      have his : i ∉ u.walk := fun hm => apart i hm i (.inr inNext) rfl
      rw [parent, before, seek, if_neg hji, if_neg his, if_neg hji, if_neg his, if_neg e]
      exact ihn ndn h (some j)

theorem scan_place {name : ι → κ} {s : κ} {t sub : Forest ι} {i k : ι} (nd : t.walk.Nodup)
    (h : t.scan name s = some (k, sub)) (hi : i ∈ sub.walk) (p q : Option ι) :
    t.parent i p = sub.parent i (some k) ∧ t.before i q = sub.before i none := by
  induction t generalizing q with
  | nil => cases h
  | node j u next _ ihn =>
    simp only [walk, List.nodup_append, List.nodup_cons, List.mem_cons] at nd
    obtain ⟨-, ⟨hjn, ndn⟩, apart⟩ := nd
    rw [scan] at h
    split at h
    · cases h
      have hki : k ≠ i := fun e => apart i hi k (.inl rfl) e.symm
      rw [parent, before, if_neg hki, if_pos hi, if_neg hki, if_pos hi]
      exact ⟨rfl, rfl⟩
    · have inNext : i ∈ next.walk := (scan_mem h).2 i hi
      have hji : j ≠ i := fun e => hjn (e ▸ inNext)
      have his : i ∉ u.walk := fun hm => apart i hm i (.inr inNext) rfl
      rw [parent, before, if_neg hji, if_neg his, if_neg hji, if_neg his]
      exact ihn ndn h (some j)

end Forest

namespace Tree

def lookup (name : Nat → Text) : List (Text × Bool) → Option Nat → Forest Nat → Lookup
  | [], folder, _ => ⟨folder, none, none⟩
  | (segment, followed) :: rest, folder, u =>
    match u.seek name segment u.top with
    | (previous, none) => ⟨if followed then none else folder, previous, none⟩
    | (previous, some (i, sub)) =>
      if rest = [] then ⟨folder, previous, some i⟩ else lookup name rest (some i) sub

theorem lookup_cons (name : Nat → Text) (segment : Text) (followed : Bool)
    (rest : List (Text × Bool)) (folder : Option Nat) (u : Forest Nat) :
    lookup name ((segment, followed) :: rest) folder u =
      match u.scan name segment with
      | none => ⟨if followed then none else folder, (u.seek name segment u.top).1, none⟩
      | some (i, sub) => if rest = [] then ⟨folder, (u.seek name segment u.top).1, some i⟩
        else lookup name rest (some i) sub := by
  have same := u.seek_scan name segment u.top
  rw [lookup]
  rw [← same]
  generalize u.seek name segment u.top = found
  obtain ⟨previous, _ | ⟨i, sub⟩⟩ := found <;> rfl

theorem lookup_spec {name : Nat → Text} {u : Forest Nat} (nd : u.walk.Nodup)
    (folder : Option Nat) (pre : List Text) (s : Text) (last : Bool) :
    let place := lookup name (pre.map (fun a => (a, true)) ++ [(s, last)]) folder u
    place.resource = u.find name (pre ++ [s]) ∧
      (∀ i, place.resource = some i →
        place.folder = u.parent i folder ∧ place.previous = some ((u.before i none).getD i)) ∧
      (place.resource = none → place.folder = if last then none
        else if pre = [] then folder else u.find name pre) := by
  induction pre generalizing folder u with
  | nil =>
    simp only [List.map_nil, List.nil_append, lookup_cons, if_true, Forest.find]
    cases hs : u.scan name s with
    | none => exact ⟨rfl, fun i h => (by cases h), fun _ => rfl⟩
    | some found =>
      obtain ⟨i, sub⟩ := found
      obtain ⟨above, front⟩ := Forest.seek_place nd hs folder none
      refine ⟨rfl, fun j h => ?_, fun h => (by cases h)⟩
      cases h
      rw [Option.none_or] at front
      exact ⟨above.symm, front⟩
  | cons a pre ih =>
    have more : pre ++ [s] ≠ [] := by simp
    simp only [List.map_cons, List.cons_append, lookup_cons, Forest.find_cons more]
    cases hs : u.scan name a with
    | none =>
      refine ⟨rfl, fun i h => (by cases h), fun _ => ?_⟩
      cases pre <;> simp [Forest.find, hs]
    | some found =>
      obtain ⟨i, sub⟩ := found
      have rest : ¬(pre.map (fun a => (a, true)) ++ [(s, last)]) = [] := by simp
      obtain ⟨resource, place, missing⟩ := ih (Forest.scan_sub nd hs).1 (some i)
      simp only [if_neg rest, Option.bind_some]
      refine ⟨resource, fun j h => ?_, fun h => ?_⟩
      · have inside : j ∈ sub.walk := Forest.find_mem (resource.symm.trans h)
        obtain ⟨above, front⟩ := Forest.scan_place nd hs inside folder none
        rw [above, front]
        exact place j h
      · rw [missing h, if_neg (List.cons_ne_nil a pre)]
        by_cases first : pre = []
        · subst first
          simp [Forest.find, hs]
        · rw [if_neg first, Forest.find_cons first, hs, Option.bind_some]

end Tree

def segments (name : Text) : List Text :=
  if name.getLast? = some slash then (name.splitOn slash).dropLast else name.splitOn slash

theorem pathSegments_clear {s : Text} (clear : slash ∉ s) : pathSegments s = [(s, false)] := by
  induction s with
  | nil => rfl
  | cons c s ih =>
    have other : c ≠ slash := fun e => clear (by simp [e])
    rw [pathSegments, if_neg other, ih fun hm => clear (.tail _ hm)]
    rfl

theorem pathSegments_slash {s : Text} (clear : slash ∉ s) (rest : Text) :
    pathSegments (s ++ slash :: rest) =
      (s, true) :: if rest = [] then [] else pathSegments rest := by
  induction s with
  | nil => rw [List.nil_append, pathSegments, if_pos rfl]
  | cons c s ih =>
    have other : c ≠ slash := fun e => clear (by simp [e])
    rw [List.cons_append, pathSegments, if_neg other, ih fun hm => clear (.tail _ hm)]
    rfl

theorem segment_cases (name : Text) :
    slash ∉ name ∨ ∃ s rest, slash ∉ s ∧ name = s ++ slash :: rest := by
  by_cases h : slash ∈ name
  · obtain ⟨s, rest, split, clear⟩ := List.eq_append_cons_of_mem h
    exact .inr ⟨s, rest, clear, split⟩
  · exact .inl h

theorem getLast?_slash (s : Text) {rest : Text} (h : rest ≠ []) :
    (s ++ slash :: rest).getLast? = rest.getLast? := by
  rw [List.getLast?_append_of_ne_nil _ (List.cons_ne_nil _ _), List.getLast?_cons_of_ne_nil h]

theorem pathSegments_segments (name : Text) : ∃ pre s,
    pathSegments name = pre.map (fun a => (a, true)) ++ [(s, decide (name.getLast? = some slash))] ∧
      segments name = pre ++ [s] := by
  generalize hn : name.length = n
  induction n using Nat.strongRecOn generalizing name with
  | ind n ih =>
    rcases segment_cases name with clear | ⟨s, rest, clear, rfl⟩
    · have other : name.getLast? ≠ some slash := fun e => clear (List.mem_of_getLast? e)
      refine ⟨[], name, ?_, ?_⟩
      · rw [pathSegments_clear clear, decide_eq_false other]
        rfl
      · rw [segments, if_neg other, List.splitOn_eq_singleton clear]
        rfl
    · have split := List.splitOn_append_cons_self_of_not_mem clear rest
      rw [pathSegments_slash clear, segments, split]
      by_cases ends : rest = []
      · subst ends
        have last : (s ++ [slash]).getLast? = some slash := List.getLast?_concat
        rw [if_pos rfl, decide_eq_true last, if_pos last, List.splitOn_nil]
        exact ⟨[], s, rfl, rfl⟩
      · rw [if_neg ends, getLast?_slash s ends]
        obtain ⟨pre, s', found, all⟩ := ih rest.length
          (by rw [← hn, List.length_append, List.length_cons]; omega) rest rfl
        refine ⟨s :: pre, s', by rw [found]; rfl, ?_⟩
        rw [segments] at all
        split_ifs at all ⊢
        · rw [List.dropLast_cons_of_ne_nil (List.splitOn_ne_nil slash rest), all]
          rfl
        · rw [all]
          rfl

def byteAt (uri : Text) (i : Nat) : Option UInt8 := (uri ++ [0])[i]?

def stopOf (uri : Text) : Nat → Nat → Option Nat
  | 0, _ => none
  | fuel + 1, cnt => (byteAt uri cnt).bind fun c =>
    if c = 0 ∨ c = slash then some cnt else stopOf uri fuel (cnt + 1)

namespace Tree
variable (t : Tree)

/-- Follow `next` links to a resource with the name between two indices of `uri`; also what is in
`previousResource` then. -/
def searchSiblings (uri : Text) (startIndex stopIndex : Nat) :
    Nat → Option Nat → Option Nat → Option (Option Nat × Option Nat)
  | 0, _, _ => none
  | _ + 1, previous, none => some (previous, none)
  | fuel + 1, previous, some i =>
    if (t.name i).length = stopIndex - startIndex ∧
        (uri.drop startIndex).take (stopIndex - startIndex) = t.name i then some (previous, some i)
    else searchSiblings uri startIndex stopIndex fuel (some i) (t.links i).next

def enter (startIndex : Nat) (folder current : Option Nat) : Option (Option Nat × Option Nat) :=
  if startIndex = 0 then some (folder, current)
  else current.map fun i => (some i, (t.links i).subRoot)

/-- The turns of `emma_get_resource` from `startIndex` on, where `cnt` stands as well. None when a
byte or a link is read that is not there, or when one of the loops takes more than `fuel` turns. -/
def searchFrom (uri : Text) (turns : Nat) :
    Nat → Nat → Option Nat → Option Nat → Option Lookup
  | 0, _, _, _ => none
  | fuel + 1, startIndex, folder, current =>
    (stopOf uri turns startIndex).bind fun stopIndex =>
    (t.enter startIndex folder current).bind fun (folder, current) =>
    (t.searchSiblings uri startIndex stopIndex turns current current).bind
      fun (previous, current) =>
    (byteAt uri stopIndex).bind fun last =>
      match current with
      | none => some ⟨if last ≠ 0 then none else folder, previous, none⟩
      | some i =>
        let startIndex := if last ≠ 0 then stopIndex + 1 else stopIndex
        (byteAt uri startIndex).bind fun c =>
          if c ≠ 0 then searchFrom uri turns fuel startIndex folder (some i)
          else some ⟨folder, previous, some i⟩

/-- `emma_get_resource` with all that it sets; root 0 is no root. -/
def searchResource (fuel : Nat) (uri : Text) (root : Option Root) : Option Lookup :=
  match root with
  | none => some ⟨none, none, none⟩
  | some root => t.searchFrom uri fuel fuel 0 none (t.list root)

end Tree

section
variable {pre s e : Text}

theorem byteAt_append (pre r : Text) : byteAt (pre ++ r) pre.length = some (r.headD 0) := by
  rw [byteAt, List.append_assoc, List.getElem?_append_right (Nat.le_refl _), Nat.sub_self]
  cases r <;> rfl

theorem stopOf_segment (pre : Text) (zero : 0 ∉ s) (clear : slash ∉ s)
    (stop : e.headD 0 = 0 ∨ e.headD 0 = slash) {fuel : Nat} (enough : s.length < fuel) :
    stopOf (pre ++ (s ++ e)) fuel pre.length = some (pre.length + s.length) := by
  induction s generalizing pre fuel with
  | nil =>
    obtain ⟨fuel, rfl⟩ : ∃ m, fuel = m + 1 := ⟨fuel - 1, by omega⟩
    rw [stopOf, byteAt_append, Option.bind_some, List.nil_append, if_pos stop]
    rfl
  | cons c s ih =>
    obtain ⟨fuel, rfl⟩ : ∃ m, fuel = m + 1 := ⟨fuel - 1, by omega⟩
    rw [List.mem_cons, not_or] at zero clear
    have more : ¬(c = 0 ∨ c = slash) := fun h =>
      h.elim (fun e => zero.1 e.symm) (fun e => clear.1 e.symm)
    have shift : pre ++ ((c :: s) ++ e) = (pre ++ [c]) ++ (s ++ e) := by simp
    have here : byteAt (pre ++ ((c :: s) ++ e)) pre.length = some c := byteAt_append pre _
    have next := ih (pre ++ [c]) zero.2 clear.2 (Nat.lt_of_succ_lt_succ enough)
    rw [stopOf, here, Option.bind_some, if_neg more, shift]
    rw [List.length_append, List.length_singleton] at next
    rw [next, List.length_cons]
    congr 1
    omega

end

theorem Forest.scan_length {ι κ : Type} [DecidableEq κ] {name : ι → κ} {s : κ}
    {t sub : Forest ι} {i : ι} (h : t.scan name s = some (i, sub)) :
    sub.walk.length < t.walk.length := by
  induction t with
  | nil => cases h
  | node j u next _ ihn =>
    rw [scan] at h
    simp only [walk, List.length_append, List.length_cons]
    split at h
    · cases h
      omega
    · have := ihn h
      omega

namespace Tree
variable {t : Tree}

theorem searchSiblings_seek {uri s : Text} {startIndex stopIndex : Nat}
    (size : stopIndex - startIndex = s.length)
    (slice : (uri.drop startIndex).take (stopIndex - startIndex) = s) {u : Forest Nat}
    {p head : Option Nat} (rep : Represents t.links p head u) {fuel : Nat}
    (enough : u.walk.length < fuel) (previous : Option Nat) :
    t.searchSiblings uri startIndex stopIndex fuel previous head =
      some ((u.seek t.name s previous).1, (u.scan t.name s).map Prod.fst) := by
  induction u generalizing p head fuel previous with
  | nil =>
    obtain ⟨fuel, rfl⟩ : ∃ m, fuel = m + 1 := ⟨fuel - 1, by omega⟩
    cases rep
    rfl
  | node j sub next _ ihn =>
    obtain ⟨fuel, rfl⟩ : ∃ m, fuel = m + 1 := ⟨fuel - 1, by omega⟩
    obtain ⟨rfl, -, -, rn⟩ := rep
    simp only [Forest.walk, List.length_append, List.length_cons] at enough
    rw [searchSiblings, slice, size, Forest.seek, Forest.scan]
    by_cases same : t.name j = s
    · rw [if_pos ⟨by rw [same], same.symm⟩, if_pos same, if_pos same]
      rfl
    · rw [if_neg fun h => same h.2.symm, if_neg same, if_neg same]
      exact ihn rn (by omega) (some j)

theorem rep_scan {u sub : Forest Nat} {p head : Option Nat} {s : Text} {i : Nat}
    (rep : Represents t.links p head u) (h : u.scan t.name s = some (i, sub)) :
    Represents t.links (some i) (t.links i).subRoot sub := by
  induction u generalizing p head with
  | nil => cases h
  | node j u next _ ihn =>
    obtain ⟨-, -, rs, rn⟩ := rep
    rw [Forest.scan] at h
    split at h
    · cases h
      exact rs
    · exact ihn rn h

theorem searchFrom_turn {turns : Nat} (fuel : Nat) (pre s e : Text) (zero : 0 ∉ s)
    (clear : slash ∉ s) (stop : e.headD 0 = 0 ∨ e.headD 0 = slash) (long : s.length < turns)
    {u : Forest Nat} {p head : Option Nat} (rep : Represents t.links p head u)
    (small : u.walk.length < turns) {folder folder' current : Option Nat}
    (entry : t.enter pre.length folder current = some (folder', head)) :
    t.searchFrom (pre ++ (s ++ e)) turns (fuel + 1) pre.length folder current =
      match u.scan t.name s with
      | none => some ⟨if e.headD 0 ≠ 0 then none else folder', (u.seek t.name s u.top).1, none⟩
      | some (i, _) =>
        let startIndex := if e.headD 0 ≠ 0 then (pre ++ s).length + 1 else (pre ++ s).length
        (byteAt (pre ++ (s ++ e)) startIndex).bind fun c =>
          if c ≠ 0 then t.searchFrom (pre ++ (s ++ e)) turns fuel startIndex folder' (some i)
          else some ⟨folder', (u.seek t.name s u.top).1, some i⟩ := by
  have size : pre.length + s.length - pre.length = s.length := Nat.add_sub_cancel_left ..
  have slice : ((pre ++ (s ++ e)).drop pre.length).take (pre.length + s.length - pre.length) =
      s := by
    rw [List.drop_left, size, List.take_left]
  have last : byteAt (pre ++ (s ++ e)) (pre.length + s.length) = some (e.headD 0) := by
    rw [← List.length_append, ← List.append_assoc]
    exact byteAt_append (pre ++ s) e
  obtain rfl : head = u.top := rep.top_eq
  have found := searchSiblings_seek size slice rep small u.top
  rw [searchFrom, stopOf_segment pre zero clear stop long, Option.bind_some, entry,
    Option.bind_some]
  simp only [found, last, Option.bind_some, List.length_append]
  cases u.scan t.name s <;> rfl

theorem searchFrom_lookup {turns : Nat} {r : Text} (zero : 0 ∉ r) (long : r.length < turns)
    (pre : Text) {fuel : Nat} (enough : r.length < fuel) {u : Forest Nat} {p head : Option Nat}
    (rep : Represents t.links p head u) (small : u.walk.length < turns)
    {folder folder' current : Option Nat}
    (entry : t.enter pre.length folder current = some (folder', head)) :
    t.searchFrom (pre ++ r) turns fuel pre.length folder current =
      some (lookup t.name (pathSegments r) folder' u) := by
  induction fuel generalizing r pre u p head folder folder' current with
  | zero => omega
  | succ fuel ih =>
    rcases segment_cases r with clear | ⟨s, rest, clear, rfl⟩
    · have turn := searchFrom_turn fuel pre r [] zero clear (.inl rfl) long rep small entry
      have last : byteAt (pre ++ r) (pre ++ r).length = some 0 := by
        simpa using byteAt_append (pre ++ r) []
      rw [List.append_nil] at turn
      rw [turn, pathSegments_clear clear, lookup_cons]
      cases u.scan t.name r with
      | none => rfl
      | some found =>
        simp only [List.headD_nil, ne_eq, not_true_eq_false, if_false, last, Option.bind_some,
          if_true]
    · rw [List.mem_append, not_or, List.mem_cons, not_or] at zero
      obtain ⟨zero, -, zero'⟩ := zero
      rw [List.length_append, List.length_cons] at long enough
      have ends : ¬(slash :: rest).headD 0 = 0 := by
        have other : slash ≠ 0 := by decide
        exact other
      have turn := searchFrom_turn fuel pre s (slash :: rest) zero clear (.inr rfl)
        (Nat.lt_of_le_of_lt (Nat.le_add_right ..) long) rep small entry
      have shift : pre ++ (s ++ slash :: rest) = (pre ++ s ++ [slash]) ++ rest := by simp
      have index : (pre ++ s).length + 1 = (pre ++ s ++ [slash]).length := by
        simp only [List.length_append, List.length_singleton]
      have next : byteAt (pre ++ (s ++ slash :: rest)) ((pre ++ s).length + 1) =
          some (rest.headD 0) := by
        rw [shift, index]
        exact byteAt_append _ rest
      simp only [ne_eq, ends, not_false_eq_true, if_true, next, Option.bind_some] at turn
      rw [turn, pathSegments_slash clear, lookup_cons]
      cases hs : u.scan t.name s with
      | none => rfl
      | some found =>
        obtain ⟨i, sub⟩ := found
        simp only
        cases rest with
        | nil => rfl
        | cons c rest =>
          have more : ¬(c :: rest).headD 0 = 0 := fun e => zero' (List.mem_cons.mpr (.inl e.symm))
          have below : t.enter (pre ++ s ++ [slash]).length folder' (some i) =
              some (some i, (t.links i).subRoot) := by
            rw [enter, if_neg (by simp)]
            rfl
          have smaller := Forest.scan_length hs
          obtain ⟨pre', s', split, -⟩ := pathSegments_segments (c :: rest)
          have some' : pathSegments (c :: rest) ≠ [] := by
            rw [split]
            simp
          rw [if_pos more, if_neg (List.cons_ne_nil c rest), if_neg some', shift, index]
          exact ih zero' (by omega) _ (by omega) (rep_scan rep hs) (by omega) below

/-- `emma_get_resource` returns in every well-formed forest. It finds the node that the segments
lead to, with its parent and the sibling in front of it or the node itself; without such a node it
finds the folder of the last segment if that is all that is missing and no slash follows it. -/
theorem searchResource_spec (t : Tree) (root : Root) (u : Forest Nat)
    (rep : Represents t.links none (t.list root) u) (nd : u.walk.Nodup) (name : Text)
    (string : 0 ∉ name) (fuel : Nat) (enough : name.length < fuel ∧ u.walk.length < fuel) :
    ∃ place, t.searchResource fuel name (some root) = some place ∧
      place.resource = u.find t.name (segments name) ∧
      (∀ i, place.resource = some i →
        place.folder = u.parent i none ∧ place.previous = some ((u.before i none).getD i)) ∧
      (place.resource = none → place.folder = if name.getLast? = some slash then none
        else u.find t.name (segments name).dropLast) := by
  have entry : t.enter 0 none (t.list root) = some (none, t.list root) := rfl
  have run := searchFrom_lookup string enough.1 [] enough.1 rep enough.2 entry
  obtain ⟨pre, s, split, all⟩ := pathSegments_segments name
  refine ⟨_, run, ?_⟩
  rw [split, all, List.dropLast_concat]
  obtain ⟨resource, place, missing⟩ := lookup_spec nd none pre s
    (decide (name.getLast? = some slash))
  refine ⟨resource, place, fun h => ?_⟩
  rw [missing h]
  by_cases first : pre = []
  · subst first
    simp [Forest.find]
  · simp only [decide_eq_true_eq, if_neg first]

/-- In the folder `x` of the root `L` there is no `z`, and `x` has no sibling in front of it. -/
theorem searchResource_nested :
    (∃ place, Store.nested.tree.searchResource 8 (chars ['x', '/', 'z']) (some .resource) =
      some place ∧ place.resource = none ∧ place.folder = some 0) ∧
    ∃ place, Store.nested.tree.searchResource 8 (chars ['x', '/']) (some .resource) =
      some place ∧ place.resource = some 0 ∧ place.folder = none ∧ place.previous = some 0 := by
  have rep : Represents Store.nested.tree.links none (Store.nested.tree.list .resource)
      (.node 0 (.node 1 .nil .nil) .nil) := Store.nested_rep
  constructor
  · obtain ⟨place, run, resource, -, missing⟩ := searchResource_spec Store.nested.tree .resource _
      rep (by decide) (chars ['x', '/', 'z']) (by decide +kernel) 8 (by decide)
    have none' : place.resource = none := resource.trans (by decide +kernel)
    exact ⟨place, run, none', (missing none').trans (by decide +kernel)⟩
  · obtain ⟨place, run, resource, found, -⟩ := searchResource_spec Store.nested.tree .resource _
      rep (by decide) (chars ['x', '/']) (by decide +kernel) 8 (by decide)
    have some' : place.resource = some 0 := resource.trans (by decide +kernel)
    obtain ⟨folder, previous⟩ := found 0 some'
    exact ⟨place, run, some', folder.trans (by decide), previous.trans (by decide)⟩

theorem findSibling_seek {u : Forest Nat} {p head : Option Nat}
    (rep : Represents t.links p head u) (s : Text) {fuel : Nat} (enough : u.walk.length < fuel)
    (previous : Option Nat) : t.findSibling s fuel previous head =
      ((u.seek t.name s previous).1, (u.scan t.name s).map Prod.fst) := by
  induction u generalizing p head fuel previous with
  | nil =>
    obtain ⟨fuel, rfl⟩ : ∃ m, fuel = m + 1 := ⟨fuel - 1, by omega⟩
    cases rep
    rfl
  | node j sub next _ ihn =>
    obtain ⟨fuel, rfl⟩ : ∃ m, fuel = m + 1 := ⟨fuel - 1, by omega⟩
    obtain ⟨rfl, -, -, rn⟩ := rep
    simp only [Forest.walk, List.length_append, List.length_cons] at enough
    rw [findSibling, Forest.seek, Forest.scan]
    split
    · rfl
    · exact ihn rn (by omega) (some j)

theorem descend_lookup {u : Forest Nat} {p head : Option Nat}
    (rep : Represents t.links p head u) (small : u.walk.length ≤ emmaMaxResources)
    (segments : List (Text × Bool)) (folder : Option Nat) :
    t.descend segments folder head = lookup t.name segments folder u := by
  induction segments generalizing u p head folder with
  | nil => rfl
  | cons segment rest ih =>
    obtain ⟨s, followed⟩ := segment
    obtain rfl : head = u.top := rep.top_eq
    rw [descend, lookup_cons, findSibling_seek rep s (Nat.lt_succ_of_le small)]
    cases hs : u.scan t.name s with
    | none => rfl
    | some found =>
      obtain ⟨i, sub⟩ := found
      have smaller := Forest.scan_length hs
      simp only [Option.map_some, ih (rep_scan rep hs) (by omega) (some i)]

theorem Shape.searchResource_eq {f : Root → Forest Nat} (sh : t.Shape f) {name : Text}
    (string : 0 ∉ name) (root : Root) {fuel : Nat}
    (enough : name.length < fuel ∧ emmaMaxResources < fuel) :
    t.searchResource fuel name (some root) = some (t.emmaGetResource name root) := by
  have small := sh.length_le root
  have entry : t.enter 0 none (t.list root) = some (none, t.list root) := rfl
  have run := searchFrom_lookup string enough.1 [] enough.1 (sh.rep root)
    (Nat.lt_of_le_of_lt small enough.2) entry
  rw [← descend_lookup (sh.rep root) small] at run
  exact run

end Tree
end EmmaNode

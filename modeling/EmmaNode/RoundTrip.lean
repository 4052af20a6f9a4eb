import EmmaNode.Paths
import EmmaNode.FailedAdd
import EmmaNode.Enumeration

/-! A resource from its creation to its deletion: it is found under the URI it was created
under, enumerated under it, and deleted through it. All of this rests on the name field: a
last segment that does not fit into it is not the name of the resource. -/

namespace EmmaNode

/-! ### The paths of a root -/

def Iter.paths (t : Tree) (blockSize : Nat) : Nat → Iter → List Text
  | 0, _ => []
  | n + 1, it =>
    match it.handed t with
    | some (_, some _) => (it.getNext t blockSize).1 :: paths t blockSize n (it.getNext t blockSize).2
    | _ => []

def Tree.enumerate (t : Tree) (root : Root) (blockSize : Nat) : List Text :=
  (Iter.init.begin t root).paths t blockSize maxNames

namespace Iter
variable {t : Tree} {blockSize : Nat}

theorem paths_yields {k n : Nat} {root : Root} {c c' : Cursor Nat} {l : List Nat} (stuck : Bool)
    (hk : Root.all[k]? = some root) (y : Cursor.Yields t.links n c l c') (enough : n < maxTurns)
    (ended : c'.current = none) (back : c'.found = false) {fuel : Nat} (long : l.length < fuel) :
    paths t blockSize fuel ⟨k, c, stuck⟩ =
      l.map fun i => t.printFullPath root (some i) blockSize := by
  have atRoot (c : Cursor Nat) : (⟨k, c, stuck⟩ : Iter).root = some root := hk
  induction l generalizing n c fuel with
  | nil =>
    obtain ⟨fuel, rfl⟩ : ∃ m, fuel = m + 1 := ⟨fuel - 1, by simp at long; omega⟩
    have run := y.search_end ended enough
    have visit : (⟨k, c, stuck⟩ : Iter).handed t = some (root, none) := by
      simp [handed, atRoot, run, back]
    simp [paths, visit]
  | cons i l ih =>
    obtain ⟨fuel, rfl⟩ : ∃ m, fuel = m + 1 := ⟨fuel - 1, by simp at long; omega⟩
    obtain ⟨c₁, run, stop, previous, m, hm, rest⟩ := y.search enough
    have next : (⟨k, c, stuck⟩ : Iter).getNext t blockSize =
        (t.printFullPath root (some i) blockSize, ⟨k, { c₁ with found := false }, stuck⟩) := by
      simp [getNext, atRoot, run, stop, previous]
    have visit : (⟨k, c, stuck⟩ : Iter).handed t = some (root, some i) := by
      simp [handed, atRoot, run, stop, previous]
    have shorter : l.length < fuel := by
      rw [List.length_cons] at long
      omega
    rw [paths, visit]
    simp only [next, ih rest (Nat.lt_of_le_of_lt hm enough) shorter, List.map_cons]

end Iter

theorem Tree.Shape.enumerate_eq {t : Tree} {f : Root → Forest Nat} (sh : t.Shape f) (root : Root)
    (blockSize : Nat) : t.enumerate root blockSize =
      (f root).walk.map fun i => t.printFullPath root (some i) blockSize := by
  obtain ⟨n, hn, c', walked, ended, back⟩ := Iter.yields_root sh root
  have here : Root.all[root.index]? = some root := by cases root <;> rfl
  have short : (f root).walk.length < maxNames := by
    have := sh.length_le root
    simp only [maxNames]
    omega
  exact Iter.paths_yields false here walked hn ended back short

/-! ### URIs -/

theorem uri_eq {uri : Text} {root : Root} (hroot : emmaGetRoot uri = some root)
    (named : emmaGetName uri ≠ []) : uri = root.name ++ slash :: emmaGetName uri := by
  have first : root.name = uri.takeWhile (· ≠ slash) := by
    have := List.find?_some hroot
    simpa using this
  have split := List.takeWhile_append_dropWhile (p := fun c => decide (c ≠ slash)) (l := uri)
  rw [emmaGetName] at named ⊢
  cases hd : uri.dropWhile (· ≠ slash) with
  | nil => rw [hd] at named; exact absurd rfl named
  | cons c rest =>
    have hc : c = slash := by
      have := List.head?_dropWhile_not (fun c => decide (c ≠ slash)) uri
      rw [hd] at this
      simpa using this
    subst hc
    rw [first, List.drop_one, List.tail_cons, ← hd]
    exact split.symm

theorem emmaGetRoot_text (root : Root) (name : Text) :
    emmaGetRoot (root.name ++ slash :: name) = some root ∧
      emmaGetName (root.name ++ slash :: name) = name := by
  have all : root.name.all (fun c => decide (c ≠ slash)) = true := by cases root <;> rfl
  have clear : ∀ c ∈ root.name, (decide (c ≠ slash)) = true := List.all_eq_true.mp all
  have front : (root.name ++ slash :: name).takeWhile (fun c => decide (c ≠ slash)) = root.name := by
    rw [List.takeWhile_append_of_pos clear]
    simp
  have behind : (root.name ++ slash :: name).dropWhile (fun c => decide (c ≠ slash)) =
      slash :: name := by
    rw [List.dropWhile_append_of_pos clear]
    simp
  refine ⟨?_, ?_⟩
  · rw [emmaGetRoot, front]
    cases root <;> decide
  · rw [emmaGetName, behind]
    rfl


/-! ### A new resource -/

namespace Store
variable {P : Platform} {st : Store} {f : Root → Forest Nat}

/-- The last segment is what `strlen` finds in the name field of the next resource. -/
def Fits (P : Platform) (st : Store) (root : Root) (name : Text) : Prop :=
  ∀ slot data, (st.alloc root).alloc = some (slot, data) →
    storedName P root slot (basename name) = basename name

/-- No resource is enumerated under the URI, or under the URI and a slash. -/
def Unshadowed (st : Store) (root : Root) (uri : Text) (blockSize : Nat) : Prop :=
  ∀ path ∈ st.tree.enumerate root blockSize, path ≠ uri ∧ path ≠ uri ++ [slash]

structure PoolsAdded (st st' : Store) (root : Root) (n slot : Nat) : Prop where
  pool : st.tree.pool.alloc = some (n, st'.tree.pool)
  room : ∃ data, (st.alloc root).alloc = some (slot, data) ∧
    st'.alloc = Function.update st.alloc root data
  data : st'.tree.data n = some slot
  memory : st'.memory = st.memory ∧ root ≠ .agent ∨
    root = .agent ∧ st.memory (st'.agents slot).memoryIndex = false ∧
      st'.memory = Function.update st.memory (st'.agents slot).memoryIndex true

structure Added (P : Platform) (st : Store) (f : Root → Forest Nat) (root : Root) (name : Text)
    (n : Nat) (f' : Root → Forest Nat) : Prop where
  sound : (st.emmaResourceAdd P (some root) name).1.Sound f'
  fresh : ∀ r, n ∉ (f r).walk
  mem : ∀ r j, j ∈ (f' r).walk ↔ (r = root ∧ j = n) ∨ j ∈ (f r).walk
  erased : setForest f' root ((f' root).erase n) = f
  leaf : (f' root).Leaf n
  named : name ≠ []
  whole : Whole name
  missing : (st.tree.emmaGetResource name root).resource = none
  grown : Grown st (st.emmaResourceAdd P (some root) name).1 f
  pools : ∃ slot, PoolsAdded st (st.emmaResourceAdd P (some root) name).1 root n slot ∧
    (st.emmaResourceAdd P (some root) name).1.tree.name n = storedName P root slot (basename name)
  found : (f' root).find (st.emmaResourceAdd P (some root) name).1.tree.name (Tree.path name) =
    if (st.emmaResourceAdd P (some root) name).1.tree.name n = basename name then some n else none
  way : ∀ j ∈ (f root).walk, (f' root).way (st.emmaResourceAdd P (some root) name).1.tree.name j =
    (f root).way st.tree.name j

theorem Sound.place (so : st.Sound f) {root : Root} {name : Text}
    (missing : (st.tree.emmaGetResource name root).resource = none)
    (placed : ¬((st.tree.emmaGetResource name root).folder.isNone ∧ !nameIsBasic name)) :
    ∃ pre s, Tree.path name = pre ++ [s] ∧ slash ∉ s ∧ Whole name ∧
      match (st.tree.emmaGetResource name root).folder with
      | some q => (f root).find st.tree.name pre = some q
      | none => pre = [] := by
  obtain ⟨pre, s, last, split, clear, join⟩ := pathSegments_eq name
  have path : Tree.path name = pre ++ [s] := by
    rw [Tree.path, split, List.map_append, List.map_map]
    simp [Function.comp_def]
  refine ⟨pre, s, path, clear, ?_⟩
  have sh := so.shape
  cases hf : (st.tree.emmaGetResource name root).folder with
  | some q =>
    rw [Tree.emmaGetResource, split] at hf missing
    obtain ⟨rfl, ⟨-, e⟩ | found⟩ :=
      Tree.descend_folder (sh.rep root) (sh.nodup root) (sh.length_le root) missing hf
    · cases e
    · exact ⟨by simpa [Whole, path] using join, found⟩
  | none =>
    have basic : slash ∉ name := by
      by_contra deep
      exact placed ⟨by rw [hf]; rfl, by simpa [nameIsBasic] using deep⟩
    cases pre with
    | cons a pre =>
      have : a ++ ((pre ++ [s]).flatMap (slash :: ·) ++ if last then [slash] else []) = name := by
        simpa using join
      refine absurd ?_ basic
      rw [← this]
      cases pre <;> simp
    | nil =>
      cases last with
      | true =>
        refine absurd ?_ basic
        have : s ++ [slash] = name := by simpa using join
        rw [← this]
        simp
      | false => exact ⟨by simpa [Whole, path] using join, rfl⟩

/-! ### A forest with one more node -/

theorem grow_erase {root : Root} {n : Nat} (out : n ∉ (f root).walk) (folder : Option Nat) :
    setForest (grow f root folder n) root ((grow f root folder n root).erase n) = f := by
  cases folder with
  | none => simp [grow, setForest, Forest.erase]
  | some q => simp [grow, setForest, Forest.erase_insertUnder out]

theorem grow_leaf {root : Root} {n : Nat} (out : n ∉ (f root).walk) (folder : Option Nat) :
    (grow f root folder n root).Leaf n := by
  simp only [grow, setForest, Function.update_self]
  cases folder with
  | none => exact ⟨fun _ => rfl, trivial, Forest.leaf_of_not_mem out⟩
  | some q => exact Forest.leaf_insertUnder out

theorem Grown.resolve {st st' : Store} {f : Root → Forest Nat} (so : st.Sound f)
    (grown : Grown st st' f) (sound : st'.Sound f) (uri : Text) :
    st'.tree.resolve uri = st.tree.resolve uri := by
  rw [sound.shape.resolve_eq, so.shape.resolve_eq]
  cases emmaGetRoot uri with
  | none => rfl
  | some root => exact Forest.find_congr (grown.name root)

section
variable {st st' : Store} {f : Root → Forest Nat} {uri : Text} {root : Root} {folder : Option Nat}
variable {n i : Nat}

theorem Created.sole (so : st.Sound f) (grown : Grown st st' f) (c : Created st' f root folder n)
    (hroot : emmaGetRoot uri = some root) (missing : st.tree.resolve uri = none)
    (found : st'.tree.resolve uri = some i) : i = n := by
  by_contra new
  -- the resources there have been have kept their names
  have before (path : List Text) :
      (f root).find st'.tree.name path = (f root).find st.tree.name path :=
    Forest.find_congr fun j hj => grown.name root j hj
  rw [so.shape.resolve_eq, hroot, Option.bind_some, ← before] at missing
  have there := c.sound.shape.nodup root
  have leaf := grow_leaf (c.fresh root) folder
  have erased := congrFun (grow_erase (c.fresh root) folder) root
  rw [setForest, Function.update_self] at erased
  rw [c.sound.shape.resolve_eq, hroot, Option.bind_some] at found
  have kept := Forest.find_erase there leaf found new
  rw [erased, missing] at kept
  cases kept

theorem Created.gone (so : st.Sound f) (grown : Grown st st' f) (c : Created st' f root folder n)
    (hroot : emmaGetRoot uri = some root) (missing : st.tree.resolve uri = none)
    (found : st'.tree.resolve uri = some n) :
    (st'.emmaResourceDel uri).1.tree.resolve uri = none := by
  have live : n ∈ (grow f root folder n root).walk :=
    (grow_mem so.shape c.mem root n).mpr (.inl ⟨rfl, rfl⟩)
  have bare := (c.sound.shape.rep root).subRoot_of_leaf live (grow_leaf (c.fresh root) folder)
  obtain ⟨root', j, hr, hj, -, d⟩ | ⟨-, -, below⟩ := emmaResourceDel_spec c.sound uri
  · obtain rfl : root = root' := Option.some.inj (hroot.symm.trans hr)
    obtain rfl : n = j := Option.some.inj (found.symm.trans hj)
    have again := d.sound
    rw [grow_erase (c.fresh root)] at again
    rw [so.shape.resolve_eq, hroot, Option.bind_some] at missing
    rw [again.shape.resolve_eq, hroot, Option.bind_some, ← missing]
    exact Forest.find_congr fun k hk =>
      (congrFun d.same.name k).trans (grown.name root k hk)
  · have child := below n found
    rw [bare] at child
    cases child

end

theorem grow_way {root : Root} {n : Nat} {name name' : Nat → Text} (nd : (f root).walk.Nodup)
    (out : n ∉ (f root).walk) (folder : Option Nat)
    (same : ∀ j ∈ (f root).walk, name' j = name j) {j : Nat} (hj : j ∈ (f root).walk) :
    (grow f root folder n root).way name' j = (f root).way name j := by
  have hjn : j ≠ n := fun h => out (h ▸ hj)
  simp only [grow, setForest, Function.update_self]
  cases folder with
  | none =>
    simp only [Forest.way, if_neg (Ne.symm hjn), Forest.walk, List.not_mem_nil, if_false]
    exact Forest.way_congr same
  | some q =>
    rw [Forest.way_insertUnder nd out hjn]
    exact Forest.way_congr same

theorem grow_find {root : Root} {n : Nat} {name : Nat → Text} {pre : List Text} {s : Text}
    (nd : (f root).walk.Nodup) {folder : Option Nat}
    (placed : match folder with
      | some q => (f root).find name pre = some q
      | none => pre = [])
    (missing : (f root).find name (pre ++ [s]) = none) :
    (grow f root folder n root).find name (pre ++ [s]) = if name n = s then some n else none := by
  simp only [grow, setForest, Function.update_self]
  cases folder with
  | none =>
    obtain rfl : pre = [] := placed
    have alone : ((f root).scan name s).map Prod.fst = none := missing
    simp only [List.nil_append, Forest.find, Forest.scan]
    split
    · rfl
    · exact alone
  | some q => rw [Forest.find_insertUnder nd placed, missing]

/-- What is looked for under the name of the resource added: the resource, unless its own name
has been cut. -/
theorem Sound.found_grow (so : st.Sound f) {root : Root} {name : Text} {n : Nat}
    (missing : (st.tree.emmaGetResource name root).resource = none)
    (placed : ¬((st.tree.emmaGetResource name root).folder.isNone ∧ !nameIsBasic name))
    {names : Nat → Text} (same : ∀ j ∈ (f root).walk, names j = st.tree.name j) :
    (grow f root (st.tree.emmaGetResource name root).folder n root).find names (Tree.path name) =
      if names n = basename name then some n else none := by
  obtain ⟨pre, s, path, clear, whole, folder⟩ := so.place missing placed
  obtain ⟨found, -, -⟩ := so.shape.emmaGetResource_spec name root
  rw [missing, path] at found
  rw [path, whole.basename_eq path clear]
  refine grow_find (so.shape.nodup root) ?_ ?_
  · cases hf : (st.tree.emmaGetResource name root).folder with
    | none => rwa [hf] at folder
    | some q =>
      rw [hf] at folder
      rw [Forest.find_congr same]
      exact folder
  · rw [Forest.find_congr same]
    exact found.symm

theorem added_spec (so : st.Sound f) (b : st.Balanced) {root : Root} {name : Text}
    (added : (st.emmaResourceAdd P (some root) name).2 = 0) :
    ∃ n f', Added P st f root name n f' := by
  by_cases hne : name = []
  · simp [emmaResourceAdd, if_pos hne] at added
  cases missing : (st.tree.emmaGetResource name root).resource with
  | some i => simp [emmaResourceAdd, if_neg hne, missing] at added
  | none =>
    obtain ⟨n, pool, hpool, ⟨-, e⟩ | ⟨slot, data, st₁, hslot, hdata, -, alloc, e⟩⟩ :=
      emmaResourceAdd_cases P b so.shape.size root hne missing
    · simp [e] at added
    have cleaned : (st.cleanResource n).Balanced := b.congr rfl rfl rfl fun _ => rfl
    have files := cleaned.allocData root
    rw [hdata] at files
    obtain ⟨-, bad⟩ | ⟨slot', data', -, hslot', -, -, files⟩ := files
    · cases bad
    obtain rfl : slot = slot' := Option.some.inj hslot'
    obtain ⟨memory, index⟩ := prepare_balance st₁ P root n slot pool (basename name)
    have slotted : (st₁.prepare P root n slot pool (basename name)).tree.data n = some slot := by
      rw [(prepare_spec st₁ P root n slot pool (basename name)).1]
      exact Function.update_self ..
    have pooled : (st₁.prepare P root n slot pool (basename name)).tree.pool = pool := by
      rw [(prepare_spec st₁ P root n slot pool (basename name)).1]
    by_cases placed : (st.tree.emmaGetResource name root).folder.isNone ∧ !nameIsBasic name
    · rw [e, if_pos placed] at added
      cases added
    rw [if_neg placed] at e
    obtain ⟨-, -, -, -, whole, -⟩ := so.place missing placed
    obtain ⟨-, -, hfolder⟩ := so.shape.emmaGetResource_spec name root
    have prep := prepared P so hpool hdata (basename name)
    have found := @Sound.found_grow _ _ so root name n missing placed
      (st₁.prepare P root n slot pool (basename name)).tree.name (prep.grown.name root)
    have named : (st₁.prepare P root n slot pool (basename name)).tree.name n =
        storedName P root slot (basename name) := by
      rw [(prepare_spec st₁ P root n slot pool (basename name)).1]
      exact Function.update_self ..
    generalize st₁.prepare P root n slot pool (basename name) = st₂ at *
    generalize (st.tree.emmaGetResource name root).folder = place at *
    obtain ⟨grown, created⟩ := insert_spec so prep hfolder
    have names : (st₂.insert root place n).tree.name = st₂.tree.name := by
      cases place <;> rfl
    have nd := so.shape.nodup root
    have out := created.fresh root
    have same : ∀ j ∈ (f root).walk, st₂.tree.name j = st.tree.name j :=
      fun j hj => prep.grown.name root j hj
    refine ⟨n, grow f root place n, ?_⟩
    constructor
    case sound => rw [e]; exact created.sound
    case fresh => exact created.fresh
    case mem => exact grow_mem so.shape hfolder
    case named => exact hne
    case whole => exact whole
    case grown => rw [e]; exact grown
    case missing => exact missing
    case pools =>
      obtain ⟨alloc', memory', agents'⟩ := insert_balance st₂ root place n
      have data' : (st₂.insert root place n).tree.data = st₂.tree.data := by cases place <;> rfl
      refine ⟨slot, ⟨?_, ⟨data, hslot, ?_⟩, ?_, ?_⟩, ?_⟩
      · rw [e, (insert_same st₂ root place n).2, pooled, hpool]
      · rw [e, alloc', alloc]
      · rw [e, data', slotted]
      · rw [e, memory', agents', memory, index]
        rcases files with ⟨same, -, other⟩ | ⟨agent, i, -, free, marked, agents⟩
        · exact .inl ⟨same, other⟩
        · have here : (st₁.agents slot).memoryIndex = i := by rw [agents, Function.update_self]
          rw [here]
          exact .inr ⟨agent, free, marked⟩
      · rw [e, names, named]
    case erased => exact grow_erase out place
    case leaf => exact grow_leaf out place
    case found => rw [e, names, found]
    case way =>
      intro j hj
      rw [e, names]
      exact grow_way nd out place same hj

end Store

/-! ### Deletion undoes creation -/

namespace Represents
variable {ι : Type} {h h' : ι → Links ι} {p head head' : Option ι} {t : Forest ι}

theorem links_eq (r : Represents h p head t) (r' : Represents h' p head' t) :
    head = head' ∧ ∀ i ∈ t.walk, h i = h' i := by
  induction t generalizing p head head' with
  | nil => exact ⟨r.trans r'.symm, by simp [Forest.walk]⟩
  | node j sub next ihs ihn =>
    obtain ⟨hh, hp, rs, rn⟩ := r
    obtain ⟨hh', hp', rs', rn'⟩ := r'
    obtain ⟨top, below⟩ := ihs rs rs'
    obtain ⟨next', behind⟩ := ihn rn rn'
    have here : h j = h' j := by
      cases hj : h j
      cases hj' : h' j
      simp only [hj, hj'] at hp hp' top next'
      simp [hp, hp', top, next']
    refine ⟨hh.trans hh'.symm, fun i hi => ?_⟩
    simp only [Forest.walk, List.mem_append, List.mem_cons] at hi
    rcases hi with hm | rfl | hm
    · exact below i hm
    · exact here
    · exact behind i hm

end Represents

namespace Store
variable {P : Platform} {st : Store} {f f' : Root → Forest Nat} {root : Root} {n : Nat} {uri : Text}

theorem Added.deleted (so : st.Sound f) (hroot : emmaGetRoot uri = some root)
    (a : Added P st f root (emmaGetName uri) n f')
    (found : (st.emmaResourceAdd P (some root) (emmaGetName uri)).1.tree.resolve uri = some n) :
    ((st.emmaResourceAdd P (some root) (emmaGetName uri)).1.emmaResourceDel uri).2 = 0 ∧
      st.Unchanged
        ((st.emmaResourceAdd P (some root) (emmaGetName uri)).1.emmaResourceDel uri).1 := by
  obtain ⟨sound, -, mem, erased, leaf, -, -, -, grown, ⟨slot, pools, -⟩, -, -⟩ := a
  generalize (st.emmaResourceAdd P (some root) (emmaGetName uri)).1 = st' at *
  have live : n ∈ (f' root).walk := (mem root n).mpr (.inl ⟨rfl, rfl⟩)
  have bare : (st'.tree.links n).subRoot = none := (sound.shape.rep root).subRoot_of_leaf live leaf
  have place : (st'.tree.emmaGetResource (emmaGetName uri) root).resource = some n := by
    rw [Tree.resolve, hroot] at found
    exact found
  obtain ⟨zero, pool, alloc, memory, -⟩ := emmaResourceDel_pools hroot place bare pools.data
  refine ⟨zero, ?_⟩
  obtain ⟨root', i, hr, hi, -, d⟩ | ⟨failed, -⟩ := emmaResourceDel_spec sound uri
  · obtain rfl : root = root' := Option.some.inj (hroot.symm.trans hr)
    obtain rfl : n = i := Option.some.inj (found.symm.trans hi)
    have again := d.sound
    rw [erased] at again
    have same := d.same
    generalize (st'.emmaResourceDel uri).1 = st'' at *
    have agree (r : Root) := (again.shape.rep r).links_eq (so.shape.rep r)
    have node (r : Root) (j : Nat) (hj : st.tree.Live r j) : j ∈ (f r).walk :=
      (so.shape.live_iff r j).mp hj
    obtain ⟨data, room, taken⟩ := pools.room
    constructor
    case list => exact funext fun r => (agree r).1
    case links => exact fun r j hj => (agree r).2 j (node r j hj)
    case name => exact fun r j hj => (congrFun same.name j).trans (grown.name r j (node r j hj))
    case data => exact fun r j hj => (congrFun same.data j).trans (grown.data r j (node r j hj))
    case pool => rw [pool, Pool.free_alloc pools.pool]
    case alloc =>
      rw [alloc, taken, Function.update_self, Function.update_idem, Pool.free_alloc room,
        Function.update_eq_self]
    case memory =>
      rw [memory]
      rcases pools.memory with ⟨kept, other⟩ | ⟨rfl, free, marked⟩
      · cases root with
        | agent => exact absurd rfl other
        | resource => exact kept
        | system => exact kept
      · simp only [freeData, marked, Function.update_idem, ← free, Function.update_eq_self]
  · exact absurd zero failed

/-! ### The round trip -/

theorem filter_map_alone {l : List Nat} {g : Nat → Text} {p : Text → Bool} (nd : l.Nodup)
    (hn : n ∈ l) (own : p (g n) = true) (others : ∀ j ∈ l, j ≠ n → p (g j) = false) :
    (l.map g).filter p = [g n] := by
  have only : l.filter (p ∘ g) = l.filter (· = n) := by
    refine List.filter_congr fun j hj => ?_
    by_cases e : j = n
    · simp [e, own]
    · simp [e, others j hj e]
  rw [List.filter_map, only, List.filter_eq, List.count_eq_one_of_mem nd hn]
  rfl

theorem filter_map_single {l : List Nat} {g : Nat → Text} {p : Text → Bool} {x : Text}
    (single : (l.map g).filter p = [x]) {i j : Nat} (hi : i ∈ l) (pi : p (g i) = true) (hj : j ∈ l)
    (pj : p (g j) = true) : i = j := by
  rw [List.filter_map] at single
  have size := congrArg List.length single
  rw [List.length_map] at size
  obtain ⟨k, hk⟩ := List.length_eq_one_iff.mp size
  have member {i : Nat} (hi : i ∈ l) (pi : p (g i) = true) : i = k := by
    have : i ∈ l.filter (p ∘ g) := List.mem_filter.mpr ⟨hi, pi⟩
    rw [hk] at this
    exact List.mem_singleton.mp this
  rw [member hi pi, member hj pj]

/-- What follows a creation that succeeds: the resource exists, cannot be created again, is
enumerated once and under its URI, and can be deleted as if it had never been created. -/
structure RoundTrip (P : Platform) (st : Store) (root : Root) (uri : Text) (blockSize : Nat) :
    Prop where
  found : (st.emmaResourceAdd P (some root) (emmaGetName uri)).1.emmaResourceExists uri = true
  again : ((st.emmaResourceAdd P (some root) (emmaGetName uri)).1.emmaResourceAdd P (some root)
    (emmaGetName uri)).2 = 2
  enumerated : ∃ n, (∀ r, ¬st.tree.Live r n) ∧
    ((st.emmaResourceAdd P (some root) (emmaGetName uri)).1.tree.enumerate root blockSize).filter
      (fun path => (st.emmaResourceAdd P (some root) (emmaGetName uri)).1.tree.resolve path =
        some n) = [uri]
  deleted : ((st.emmaResourceAdd P (some root) (emmaGetName uri)).1.emmaResourceDel uri).2 = 0
  undone : st.Unchanged
    ((st.emmaResourceAdd P (some root) (emmaGetName uri)).1.emmaResourceDel uri).1

theorem Added.resolve_eq (hroot : emmaGetRoot uri = some root)
    (a : Added P st f root (emmaGetName uri) n f') :
    (st.emmaResourceAdd P (some root) (emmaGetName uri)).1.tree.resolve uri =
      if (st.emmaResourceAdd P (some root) (emmaGetName uri)).1.tree.name n =
        basename (emmaGetName uri) then some n else none := by
  rw [a.sound.shape.resolve_eq, hroot]
  exact a.found

theorem Added.resolve_iff (hroot : emmaGetRoot uri = some root)
    (a : Added P st f root (emmaGetName uri) n f')
    (named : (st.emmaResourceAdd P (some root) (emmaGetName uri)).1.tree.name n =
      basename (emmaGetName uri)) (path : Text) :
    (st.emmaResourceAdd P (some root) (emmaGetName uri)).1.tree.resolve path = some n ↔
      path = uri ∨ path = uri ++ [slash] := by
  have text := uri_eq hroot a.named
  have found := a.found
  rw [if_pos named] at found
  have sh := a.sound.shape
  have live : n ∈ (f' root).walk := (a.mem root n).mpr (.inl ⟨rfl, rfl⟩)
  constructor
  · intro h
    rw [sh.resolve_eq, Option.bind_eq_some_iff] at h
    obtain ⟨r, hr, hn⟩ := h
    obtain rfl : r = root := sh.apart r root n (Forest.find_mem hn) live
    have same : Tree.path (emmaGetName path) = Tree.path (emmaGetName uri) :=
      (Forest.way_find (sh.nodup r) hn).symm.trans (Forest.way_find (sh.nodup r) found)
    have named' : emmaGetName path ≠ [] := by
      intro e
      rcases a.whole.eq_or_append same with h | h
      · exact a.named (h.symm.trans e)
      · rw [e] at h
        exact absurd h (by simp)
    rw [uri_eq hr named', text]
    rcases a.whole.eq_or_append same with h | h
    · exact .inl (by rw [h])
    · exact .inr (by rw [h]; simp)
  · rintro (rfl | rfl)
    · rw [a.resolve_eq hroot, if_pos named]
    · have slashed : uri ++ [slash] = root.name ++ slash :: (emmaGetName uri ++ [slash]) := by
        conv_lhs => rw [text]
        simp
      obtain ⟨hr, hn⟩ := emmaGetRoot_text root (emmaGetName uri ++ [slash])
      rw [sh.resolve_eq, slashed, hr, hn, a.whole.path_append]
      exact found

theorem Added.printed (hroot : emmaGetRoot uri = some root)
    (a : Added P st f root (emmaGetName uri) n f')
    (named : (st.emmaResourceAdd P (some root) (emmaGetName uri)).1.tree.name n =
      basename (emmaGetName uri)) {blockSize : Nat} (large : uri.length ≤ blockSize) :
    (st.emmaResourceAdd P (some root) (emmaGetName uri)).1.tree.printFullPath root (some n)
      blockSize = uri := by
  have found := a.found
  rw [if_pos named] at found
  have sh := a.sound.shape
  have way := Forest.way_find (sh.nodup root) found
  have text : root.text (Tree.path (emmaGetName uri)) = uri := by
    rw [Root.text, a.whole]
    exact (uri_eq hroot a.named).symm
  rw [sh.printFullPath_eq (Forest.find_mem found), way, text, if_pos large]

theorem Added.printed_other (so : st.Sound f) (a : Added P st f root (emmaGetName uri) n f')
    (blockSize : Nat) (j : Nat) (hj : j ∈ (f root).walk) :
    (st.emmaResourceAdd P (some root) (emmaGetName uri)).1.tree.printFullPath root (some j)
      blockSize = st.tree.printFullPath root (some j) blockSize := by
  have live : j ∈ (f' root).walk := (a.mem root j).mpr (.inr hj)
  rw [a.sound.shape.printFullPath_eq live, so.shape.printFullPath_eq hj, a.way j hj]

/-- A creation that succeeds can be taken back through its URI when the name fits into the
field and the URI is nobody else's path. -/
theorem roundTrip_iff (h : st.Reached P) (hroot : emmaGetRoot uri = some root)
    (added : (st.emmaResourceAdd P (some root) (emmaGetName uri)).2 = 0) {blockSize : Nat}
    (large : uri.length ≤ blockSize) :
    st.RoundTrip P root uri blockSize ↔
      st.Fits P root (emmaGetName uri) ∧ st.Unshadowed root uri blockSize := by
  obtain ⟨f, so⟩ := h.sound
  obtain ⟨n, f', a⟩ := added_spec so h.balanced added
  obtain ⟨slot, pools, stored⟩ := a.pools
  obtain ⟨data, room, -⟩ := pools.room
  have fits : st.Fits P root (emmaGetName uri) ↔
      (st.emmaResourceAdd P (some root) (emmaGetName uri)).1.tree.name n =
        basename (emmaGetName uri) := by
    rw [stored]
    constructor
    · exact fun h => h slot data room
    · intro h slot' data' room'
      obtain ⟨rfl, -⟩ := Prod.mk.inj (Option.some.inj (room.symm.trans room'))
      exact h
  have live : n ∈ (f' root).walk := (a.mem root n).mpr (.inl ⟨rfl, rfl⟩)
  have paths := a.sound.shape.enumerate_eq root blockSize
  have before := so.shape.enumerate_eq root blockSize
  have others := a.printed_other so blockSize
  have led := a.resolve_iff hroot
  have printed := fun named => a.printed hroot named large
  have resolved := a.resolve_eq hroot
  have deleted := a.deleted so hroot
  have absent (r : Root) (e : st.tree.Live r n) : False :=
    a.fresh r ((so.shape.live_iff r n).mp e)
  have mem := a.mem root
  have nd := a.sound.shape.nodup root
  have refused : ((st.emmaResourceAdd P (some root) (emmaGetName uri)).1.tree.resolve uri = some n) →
      ((st.emmaResourceAdd P (some root) (emmaGetName uri)).1.emmaResourceAdd P (some root)
        (emmaGetName uri)).2 = 2 := by
    intro found
    rw [Tree.resolve, hroot] at found
    have there : ((st.emmaResourceAdd P (some root) (emmaGetName uri)).1.tree.emmaGetResource
      (emmaGetName uri) root).resource = some n := found
    rw [emmaResourceAdd, if_neg a.named]
    simp only [there, Option.isSome_some, if_true]
  rw [fits]
  generalize hst : (st.emmaResourceAdd P (some root) (emmaGetName uri)).1 = st' at *
  constructor
  · rintro ⟨found, -, enumerated, -, -⟩
    have named : st'.tree.name n = basename (emmaGetName uri) := by
      by_contra other
      rw [hst] at found
      rw [emmaResourceExists, resolved, if_neg other] at found
      cases found
    have found := resolved.trans (if_pos named)
    refine ⟨named, ?_⟩
    rw [hst] at enumerated
    obtain ⟨n', -, alone⟩ := enumerated
    have here : uri ∈ (st'.tree.enumerate root blockSize).filter
        (fun path => st'.tree.resolve path = some n') := by
      rw [alone]
      exact List.mem_singleton_self uri
    have same : st'.tree.resolve uri = some n' := by simpa using (List.mem_filter.mp here).2
    obtain rfl : n = n' := Option.some.inj (found.symm.trans same)
    intro path hpath
    rw [before] at hpath
    obtain ⟨j, hj, rfl⟩ := List.mem_map.mp hpath
    rw [paths] at alone
    rw [← others j hj, ← not_or, ← led named]
    intro leads
    have clash := filter_map_single alone ((mem j).mpr (.inr hj)) (by simpa using leads) live
      (by rw [printed named]; simpa using found)
    exact a.fresh root (clash ▸ hj)
  · rintro ⟨named, unshadowed⟩
    have found := resolved.trans (if_pos named)
    obtain ⟨zero, undone⟩ := deleted found
    refine ⟨?_, ?_, ⟨n, absent, ?_⟩, ?_, ?_⟩
    · rw [hst, emmaResourceExists, found]
      rfl
    · rw [hst]
      exact refused found
    · rw [hst, paths, ← printed named]
      refine filter_map_alone nd live (by rw [printed named]; simpa using found) fun j hj other => ?_
      have old : j ∈ (f root).walk := ((mem j).mp hj).resolve_left fun h => other h.2
      have apart := unshadowed _ (by rw [before]; exact List.mem_map_of_mem old)
      rw [← others j old, ← not_or, ← led named] at apart
      simpa using apart
    · rw [hst]
      exact zero
    · rw [hst]
      exact undone

def shortUri : Text := chars ['L', '/', 'x']

theorem roundTrip_short :
    (empty fun _ => none).RoundTrip .plain .resource shortUri emmaMaxUriSize := by
  have reached : (empty fun _ => none).Reached .plain := ⟨_, .refl⟩
  refine (roundTrip_iff reached (by decide) (by decide +kernel) (by decide)).mpr ⟨?_, ?_⟩
  · intro slot data _
    rfl
  · have nothing : (empty fun _ => none).tree.enumerate .resource emmaMaxUriSize = [] := by
      decide +kernel
    intro path hpath
    rw [nothing] at hpath
    cases hpath

def longUri : Text := chars ['L', '/'] ++ List.replicate (emmaResourceNameSize + 1) 'a'.toUInt8

/-- A resource whose name does not fit into the field is not found under its URI. -/
theorem roundTrip_long : ¬ ∀ (P : Platform) (st : Store) (root : Root) (uri : Text) (blockSize : Nat),
    st.Reached P → uri.length < emmaMaxUriSize → uri.length ≤ blockSize →
    emmaGetRoot uri = some root → (st.emmaResourceAdd P (some root) (emmaGetName uri)).2 = 0 →
    st.RoundTrip P root uri blockSize := by
  intro h
  have reached : (empty fun _ => none).Reached .plain := ⟨_, .refl⟩
  have found := (h .plain _ .resource longUri emmaMaxUriSize reached (by decide) (by decide)
    (by decide) (by decide +kernel)).found
  revert found
  decide +kernel

end Store
end EmmaNode

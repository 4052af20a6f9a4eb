import EmmaNode.System
import Mathlib.Data.List.Perm.Subperm

/-! What every reachable store looks like: the list of each root is a forest of blocks in
use, no two forests share a block, and every resource has a block of data of its own. The
search of a name is then a search in the forest. -/

namespace EmmaNode

inductive Tree.Live (t : Tree) (root : Root) : Nat → Prop
  | top {i : Nat} : t.list root = some i → t.Live root i
  | sub {i j : Nat} : t.Live root i → (t.links i).subRoot = some j → t.Live root j
  | next {i j : Nat} : t.Live root i → (t.links i).next = some j → t.Live root j

structure Tree.Shape (t : Tree) (f : Root → Forest Nat) : Prop where
  rep : ∀ r, Represents t.links none (t.list r) (f r)
  nodup : ∀ r, (f r).walk.Nodup
  apart : ∀ r r' i, i ∈ (f r).walk → i ∈ (f r').walk → r = r'
  used : ∀ r i, i ∈ (f r).walk → t.pool.Used i
  size : t.pool.used.length = emmaMaxResources

namespace Tree.Shape
variable {t : Tree} {f : Root → Forest Nat}

theorem live_iff (sh : t.Shape f) (r : Root) (i : Nat) : t.Live r i ↔ i ∈ (f r).walk := by
  constructor
  · intro h
    induction h with
    | top h => exact Forest.top_mem ((sh.rep r).top_eq.symm.trans h)
    | sub _ h ih => exact (sh.rep r).subRoot_mem ih h
    | next _ h ih => exact (sh.rep r).next_mem ih h
  · have reach : ∀ (u : Forest Nat) (p head : Option Nat), Represents t.links p head u →
        (∀ j, head = some j → t.Live r j) → ∀ j ∈ u.walk, t.Live r j := by
      intro u
      induction u with
      | nil => intro p head _ _ j hj; simp [Forest.walk] at hj
      | node k sub next ihs ihn =>
        rintro p head ⟨hh, -, rs, rn⟩ hlive j hj
        have hk : t.Live r k := hlive k hh
        simp only [Forest.walk, List.mem_append, List.mem_cons] at hj
        rcases hj with hm | rfl | hm
        · exact ihs _ _ rs (fun c hc => hk.sub hc) j hm
        · exact hk
        · exact ihn _ _ rn (fun c hc => hk.next hc) j hm
    exact reach (f r) _ _ (sh.rep r) (fun j hj => .top hj) i

theorem length_le (sh : t.Shape f) (r : Root) : (f r).walk.length ≤ emmaMaxResources := by
  have hsub : (f r).walk ⊆ List.range emmaMaxResources := fun i hi => by
    have := Pool.used_lt (sh.used r i hi)
    rw [sh.size] at this
    exact List.mem_range.mpr this
  simpa using (List.subperm_of_subset (sh.nodup r) hsub).length_le

end Tree.Shape

/-! ### Search -/

inductive Tree.At (t : Tree) (root : Root) (walk : List Nat) : Lookup → Nat → Prop
  | top {i : Nat} {r : Option Nat} : t.list root = some i → t.At root walk ⟨none, some i, r⟩ i
  | child {i p : Nat} {r : Option Nat} :
      (t.links p).subRoot = some i → t.At root walk ⟨some p, some i, r⟩ i
  | behind {i q : Nat} {folder r : Option Nat} : q ∈ walk → q ≠ i → (t.links q).next = some i →
      t.At root walk ⟨folder, some q, r⟩ i

theorem Tree.At.mono {t : Tree} {root : Root} {w w' : List Nat} {place : Lookup} {i : Nat}
    (h : t.At root w place i) (sub : ∀ q ∈ w, q ∈ w') : t.At root w' place i := by
  cases h with
  | top h => exact .top h
  | child h => exact .child h
  | behind hq hne h => exact .behind (sub _ hq) hne h

namespace Tree
variable {t : Tree}

theorem findSibling_spec {p head : Option Nat} {u : Forest Nat}
    (rep : Represents t.links p head u) (nd : u.walk.Nodup) (segment : Text)
    (fuel : Nat) (hf : u.walk.length < fuel) (previous : Option Nat) :
    (t.findSibling segment fuel previous head).2 = (u.scan t.name segment).map Prod.fst ∧
      ∀ i sub, u.scan t.name segment = some (i, sub) →
        Represents t.links (some i) (t.links i).subRoot sub ∧
        (head = some i ∧ (t.findSibling segment fuel previous head).1 = previous ∨
          ∃ q, q ∈ u.walk ∧ q ≠ i ∧ (t.findSibling segment fuel previous head).1 = some q ∧
            (t.links q).next = some i) := by
  induction u generalizing p head fuel previous with
  | nil =>
    cases rep
    cases fuel <;> simp [findSibling, Forest.scan]
  | node k sub next ihs ihn =>
    obtain ⟨rfl, -, rs, rn⟩ := rep
    obtain ⟨n, rfl⟩ : ∃ n, fuel = n + 1 := ⟨fuel - 1, by omega⟩
    simp only [Forest.walk, List.length_append, List.length_cons] at hf
    simp only [Forest.walk, List.nodup_append, List.nodup_cons] at nd
    obtain ⟨-, ⟨hkn, ndn⟩, -⟩ := nd
    simp only [findSibling, Forest.scan]
    by_cases hk : t.name k = segment
    · rw [if_pos hk, if_pos hk]
      refine ⟨rfl, fun i sub' h => ?_⟩
      cases h
      exact ⟨rs, .inl ⟨rfl, rfl⟩⟩
    · rw [if_neg hk, if_neg hk]
      obtain ⟨same, found⟩ := ihn rn ndn n (by omega) (some k)
      refine ⟨same, fun i sub' h => ?_⟩
      obtain ⟨rsub, hq⟩ := found i sub' h
      refine ⟨rsub, .inr ?_⟩
      rcases hq with ⟨hhead, hprev⟩ | ⟨q, hq, hne, hprev, hnext⟩
      · exact ⟨k, by simp [Forest.walk], fun e => hkn (e ▸ (Forest.scan_mem h).1), hprev, hhead⟩
      · exact ⟨q, by simp [Forest.walk, hq], hne, hprev, hnext⟩

theorem descend_spec (root : Root) {p head : Option Nat} (folder : Option Nat) {u : Forest Nat}
    (rep : Represents t.links p head u) (nd : u.walk.Nodup)
    (small : u.walk.length ≤ emmaMaxResources) (segments : List (Text × Bool))
    (entry : match folder with
      | some q => (t.links q).subRoot = head
      | none => t.list root = head) :
    (t.descend segments folder head).resource = u.find t.name (segments.map Prod.fst) ∧
    (∀ i, (t.descend segments folder head).resource = some i →
      t.At root u.walk (t.descend segments folder head) i) ∧
    ∀ q, (t.descend segments folder head).folder = some q → folder = some q ∨ q ∈ u.walk := by
  induction segments generalizing p head folder u with
  | nil => exact ⟨by simp [descend, Forest.find], by simp [descend], fun q h => .inl h⟩
  | cons s rest ih =>
    obtain ⟨segment, followed⟩ := s
    obtain ⟨same, found⟩ := findSibling_spec rep nd segment (emmaMaxResources + 1) (by omega) head
    rw [descend]
    cases hs : u.scan t.name segment with
    | none =>
      rw [hs] at same
      have hfind : u.find t.name (((segment, followed) :: rest).map Prod.fst) = none := by
        cases rest <;> simp [Forest.find, hs]
      rw [hfind]
      revert same
      generalize t.findSibling segment (emmaMaxResources + 1) head head = result
      obtain ⟨previous, current⟩ := result
      rintro rfl
      refine ⟨rfl, by simp, fun q h => ?_⟩
      cases followed with
      | true => exact absurd h (by simp)
      | false => exact .inl h
    | some pair =>
      obtain ⟨i, sub⟩ := pair
      rw [hs] at same
      obtain ⟨rsub, hq⟩ := found i sub hs
      revert same hq
      generalize t.findSibling segment (emmaMaxResources + 1) head head = result
      obtain ⟨previous, current⟩ := result
      rintro rfl hq
      obtain ⟨himem, hsubmem⟩ := Forest.scan_mem hs
      cases rest with
      | nil =>
        refine ⟨by simp [Forest.find, hs], fun j h => ?_, fun q h => .inl h⟩
        cases h
        rcases hq with ⟨rfl, rfl⟩ | ⟨q, hq, hne, rfl, hnext⟩
        · cases folder with
          | none => exact .top entry
          | some p => exact .child entry
        · exact .behind hq hne hnext
      | cons s' rest' =>
        obtain ⟨nds, -⟩ := Forest.scan_sub nd hs
        have hlen : sub.walk.length ≤ emmaMaxResources :=
          Nat.le_trans (List.subperm_of_subset nds hsubmem).length_le small
        obtain ⟨h1, h2, h3⟩ := ih (some i) rsub nds hlen rfl
        refine ⟨by simpa [Forest.find, hs] using h1, fun j h => (h2 j h).mono hsubmem, fun q h => ?_⟩
        rcases h3 q h with e | hm
        · exact .inr (Option.some.inj e ▸ himem)
        · exact .inr (hsubmem q hm)

def path (uri : Text) : List Text := (pathSegments uri).map Prod.fst

variable {f : Root → Forest Nat}

theorem Shape.emmaGetResource_spec (sh : t.Shape f) (name : Text) (root : Root) :
    (t.emmaGetResource name root).resource = (f root).find t.name (path name) ∧
    (∀ i, (t.emmaGetResource name root).resource = some i →
      t.At root (f root).walk (t.emmaGetResource name root) i) ∧
    ∀ q, (t.emmaGetResource name root).folder = some q → q ∈ (f root).walk := by
  obtain ⟨h1, h2, h3⟩ := descend_spec root none (sh.rep root) (sh.nodup root)
    (sh.length_le root) (pathSegments name) rfl
  exact ⟨h1, h2, fun q h => (h3 q h).resolve_left (by simp)⟩

theorem Shape.resolve_eq (sh : t.Shape f) (uri : Text) :
    t.resolve uri = (emmaGetRoot uri).bind fun root =>
      (f root).find t.name (path (emmaGetName uri)) := by
  simp only [resolve]
  congr 1
  funext root
  exact (sh.emmaGetResource_spec _ _).1

theorem Shape.resolve_mem (sh : t.Shape f) {uri : Text} {i : Nat} (h : t.resolve uri = some i) :
    ∃ root, emmaGetRoot uri = some root ∧ i ∈ (f root).walk := by
  rw [sh.resolve_eq, Option.bind_eq_some_iff] at h
  obtain ⟨root, hr, hi⟩ := h
  exact ⟨root, hr, Forest.find_mem hi⟩

end Tree

/-! ### Deletion and creation -/

abbrev setForest (f : Root → Forest Nat) (root : Root) (u : Forest Nat) : Root → Forest Nat :=
  Function.update f root u

theorem Tree.Shape.elsewhere {t : Tree} {f : Root → Forest Nat} (sh : t.Shape f) {root r : Root}
    (hr : r ≠ root) {links : Nat → Links Nat}
    (same : ∀ j, j ∉ (f root).walk → links j = t.links j) :
    Represents links none (t.list r) (f r) :=
  (sh.rep r).congr fun j hj => same j fun hm => hr (sh.apart r root j hj hm)

namespace Store
variable {st : Store} {f : Root → Forest Nat}

theorem extract_rep (sh : st.tree.Shape f) {root : Root} {place : Lookup} {i : Nat}
    (hi : i ∈ (f root).walk) (at_ : st.tree.At root (f root).walk place i)
    (folder : ∀ q, place.folder = some q → q ∈ (f root).walk)
    (leaf : (st.tree.links i).subRoot = none) (r : Root) :
    Represents (st.extract root place i).tree.links none ((st.extract root place i).tree.list r)
      (setForest f root ((f root).erase i) r) := by
  have rep := sh.rep root
  have nd := sh.nodup root
  have hnext : ∀ c, (st.tree.links i).next = some c → c ∈ (f root).walk :=
    fun c hc => rep.next_mem hi hc
  cases at_ with
  | top h =>
    simp only [extract, if_true]
    by_cases hr : r = root
    · subst hr
      simp only [setForest, Function.update_self]
      rw [h] at rep
      exact rep.dropTop nd none
    · simp only [setForest, Function.update_of_ne hr]
      exact sh.elsewhere hr fun j hj => Represents.setPrev_frame fun e => hj (hnext j e)
  | @child _ p _ h =>
    have hp : p ∈ (f root).walk := folder p rfl
    have b := Represents.dropChild_bypass h leaf (rep.next_ne_parent nd hp (.inl h))
    simp only [extract, if_true]
    by_cases hr : r = root
    · subst hr
      simp only [setForest, Function.update_self]
      exact rep.bypass b nd hp
    · simp only [setForest, Function.update_of_ne hr]
      exact sh.elsewhere hr fun j hj => by
        rw [b.other j fun e => hj (e ▸ hp), Represents.setPrev_frame fun e => hj (hnext j e)]
  | @behind _ q _ _ hq hne h =>
    have b := Represents.dropNext_bypass h leaf (rep.next_ne_parent nd hq (.inr h))
    simp only [extract, if_neg hne]
    by_cases hr : r = root
    · subst hr
      simp only [setForest, Function.update_self]
      exact rep.bypass b nd hq
    · simp only [setForest, Function.update_of_ne hr]
      exact sh.elsewhere hr fun j hj => by
        rw [b.other j fun e => hj (e ▸ hq), Represents.setPrev_frame fun e => hj (hnext j e)]

/-- A sound store: besides the shape of its tree, every resource owns a block of data. -/
structure Sound (st : Store) (f : Root → Forest Nat) : Prop where
  shape : st.tree.Shape f
  slot : ∀ r i, i ∈ (f r).walk → ∃ slot, st.tree.data i = some slot ∧ (st.alloc r).Used slot
  slotInj : ∀ r i j, i ∈ (f r).walk → j ∈ (f r).walk → st.tree.data i = st.tree.data j → i = j

/-- Only the parts a step can reach: everything but the tree, the pools of data and the
table of agent files. -/
structure SameContent (st st' : Store) : Prop where
  mutex : st'.mutex = st.mutex
  lastModified : st'.lastModified = st.lastModified
  clocktime : st'.clocktime = st.clocktime
  agents : st'.agents = st.agents
  values : st'.values = st.values
  files : st'.files = st.files
  name : st'.tree.name = st.tree.name
  data : st'.tree.data = st.tree.data

theorem freeData_same (root : Root) (slot : Nat) : SameContent st (st.freeData root slot) := by
  cases root <;> exact ⟨rfl, rfl, rfl, rfl, rfl, rfl, rfl, rfl⟩

theorem freeData_tree (root : Root) (slot : Nat) : (st.freeData root slot).tree = st.tree := by
  cases root <;> rfl

theorem freeData_alloc (root : Root) (slot : Nat) : (st.freeData root slot).alloc =
    Function.update st.alloc root ((st.alloc root).free slot) := by
  cases root <;> rfl

theorem extract_same (root : Root) (place : Lookup) (i : Nat) :
    SameContent st (st.extract root place i) ∧ (st.extract root place i).alloc = st.alloc ∧
      (st.extract root place i).tree.pool = st.tree.pool := by
  obtain ⟨folder, previous, resource⟩ := place
  cases previous with
  | none => exact ⟨⟨rfl, rfl, rfl, rfl, rfl, rfl, rfl, rfl⟩, rfl, rfl⟩
  | some q =>
    by_cases hq : q = i
    · cases folder <;>
        refine ⟨⟨?_, ?_, ?_, ?_, ?_, ?_, ?_, ?_⟩, ?_, ?_⟩ <;> simp [extract, hq]
    · refine ⟨⟨?_, ?_, ?_, ?_, ?_, ?_, ?_, ?_⟩, ?_, ?_⟩ <;> simp [extract, hq]

structure Deleted (st st' : Store) (f : Root → Forest Nat) (root : Root) (i : Nat) : Prop where
  mem : i ∈ (f root).walk
  leaf : (st.tree.links i).subRoot = none
  sound : st'.Sound (setForest f root ((f root).erase i))
  same : SameContent st st'
  pool : st'.tree.pool = st.tree.pool.free i

theorem emmaResourceDel_spec (so : st.Sound f) (uri : Text) :
    (∃ root i, emmaGetRoot uri = some root ∧ st.tree.resolve uri = some i ∧
      (st.emmaResourceDel uri).2 = 0 ∧ Deleted st (st.emmaResourceDel uri).1 f root i) ∨
    (st.emmaResourceDel uri).2 ≠ 0 ∧ (st.emmaResourceDel uri).1 = st ∧
      ∀ i, st.tree.resolve uri = some i → (st.tree.links i).subRoot.isSome := by
  have sh := so.shape
  simp only [emmaResourceDel, Tree.resolve]
  cases hroot : emmaGetRoot uri with
  | none => exact .inr ⟨by simp, rfl, by simp⟩
  | some root =>
    simp only [Option.bind_some]
    obtain ⟨hfind, hat, hfolder⟩ := sh.emmaGetResource_spec (emmaGetName uri) root
    generalize hp : st.tree.emmaGetResource (emmaGetName uri) root = place at hfind hat hfolder
    cases hres : place.resource with
    | none => exact .inr ⟨by simp, rfl, by simp⟩
    | some i =>
      simp only
      have hi : i ∈ (f root).walk := Forest.find_mem (hfind.symm.trans hres)
      cases hleaf : (st.tree.links i).subRoot with
      | some c => exact .inr ⟨by simp, by simp, fun j hj => by simp [← Option.some.inj hj, hleaf]⟩
      | none =>
        obtain ⟨slot, hdata, hused⟩ := so.slot root i hi
        simp only [hdata, Option.isSome_none, Bool.false_eq_true, if_false]
        refine .inl ⟨root, i, rfl, rfl, trivial, ?_⟩
        have htree := @freeData_tree st root slot
        obtain ⟨same, halloc, hpool⟩ := @extract_same (st.freeData root slot) root place i
        have same' := @freeData_same st root slot
        have freed : (st.freeData root slot).tree.Shape f := by rw [htree]; exact sh
        have rep := extract_rep freed hi (by rw [htree]; exact hat i hres) hfolder
          (by rw [htree]; exact hleaf)
        generalize (st.freeData root slot).extract root place i = st' at same halloc hpool rep
        have perm := Forest.erase_perm hi (sh.nodup root) ((sh.rep root).leaf hleaf)
        have nd : (i :: ((f root).erase i).walk).Nodup := perm.nodup_iff.mp (sh.nodup root)
        have keep : ∀ r j, j ∈ (setForest f root ((f root).erase i) r).walk →
            j ∈ (f r).walk ∧ j ≠ i := by
          intro r j hj
          by_cases hr : r = root
          · subst hr
            simp only [setForest, Function.update_self] at hj
            exact ⟨perm.mem_iff.mpr (.tail _ hj), fun e => (List.nodup_cons.mp nd).1 (e ▸ hj)⟩
          · simp only [setForest, Function.update_of_ne hr] at hj
            exact ⟨hj, fun e => hr (sh.apart r root j hj (e ▸ hi))⟩
        refine ⟨hi, hleaf, ⟨⟨rep, fun r => ?_, fun r r' j hj hj' => ?_, fun r j hj => ?_, ?_⟩,
          fun r j hj => ?_, fun r j k hj hk e => ?_⟩, ⟨?_, ?_, ?_, ?_, ?_, ?_, ?_, ?_⟩, ?_⟩
        · by_cases hr : r = root
          · subst hr
            simp only [setForest, Function.update_self]
            exact (List.nodup_cons.mp nd).2
          · simp only [setForest, Function.update_of_ne hr]
            exact sh.nodup r
        · exact sh.apart r r' j (keep r j hj).1 (keep r' j hj').1
        · rw [hpool, htree]
          exact (Pool.used_free _ _ _).mpr ⟨(keep r j hj).2, sh.used r j (keep r j hj).1⟩
        · simp only [hpool, htree, Pool.length_free]
          exact sh.size
        · obtain ⟨hmem, hne⟩ := keep r j hj
          obtain ⟨s, hs, hu⟩ := so.slot r j hmem
          refine ⟨s, by rw [show st'.tree.data = st.tree.data from same.data.trans same'.data, hs], ?_⟩
          rw [halloc, freeData_alloc]
          by_cases hr : r = root
          · subst hr
            rw [Function.update_self, Pool.used_free]
            exact ⟨fun e => hne (so.slotInj r j i hmem hi (by rw [hs, hdata, e])), hu⟩
          · rw [Function.update_of_ne hr]
            exact hu
        · rw [show st'.tree.data = st.tree.data from same.data.trans same'.data] at e
          exact so.slotInj r j k (keep r j hj).1 (keep r k hk).1 e
        · exact same.mutex.trans same'.mutex
        · exact same.lastModified.trans same'.lastModified
        · exact same.clocktime.trans same'.clocktime
        · exact same.agents.trans same'.agents
        · exact same.values.trans same'.values
        · exact same.files.trans same'.files
        · exact same.name.trans same'.name
        · exact same.data.trans same'.data
        · simp only [hpool, htree]

structure SameResources (st st' : Store) : Prop where
  tree : st'.tree = st.tree
  mutex : st'.mutex = st.mutex
  lastModified : st'.lastModified = st.lastModified
  clocktime : st'.clocktime = st.clocktime
  files : st'.files = st.files

theorem allocData_spec (st : Store) (root : Root) :
    SameResources st (st.allocData root).1 ∧
    (∀ r s, (st.alloc r).Used s → r = .agent → (st.allocData root).1.agents s = st.agents s) ∧
    (st.allocData root).1.values = st.values ∧
    ((st.allocData root).2 = none ∧ (st.allocData root).1.alloc = st.alloc ∨
      ∃ slot pool, (st.allocData root).2 = some slot ∧
        (st.alloc root).alloc = some (slot, pool) ∧
        (st.allocData root).1.alloc = Function.update st.alloc root pool) := by
  cases root with
  | agent =>
    simp only [allocData, rootAgentAlloc]
    cases h : (st.alloc .agent).alloc with
    | none => exact ⟨⟨rfl, rfl, rfl, rfl, rfl⟩, fun _ _ _ _ => rfl, rfl, .inl ⟨rfl, rfl⟩⟩
    | some pair =>
      obtain ⟨slot, pool⟩ := pair
      have fresh := Pool.alloc_fresh h
      have agents : ∀ r s, (st.alloc r).Used s → r = .agent →
          Function.update st.agents slot { st.agents slot with memoryIndex := st.getMemoryIndex } s =
            st.agents s := by
        rintro r s hs rfl
        exact Function.update_of_ne (fun e : s = slot => fresh (e ▸ hs)) _ _
      simp only
      split
      · exact ⟨⟨rfl, rfl, rfl, rfl, rfl⟩, agents, rfl, .inl ⟨rfl, rfl⟩⟩
      · exact ⟨⟨rfl, rfl, rfl, rfl, rfl⟩, agents, rfl, .inr ⟨slot, pool, rfl, rfl, rfl⟩⟩
  | resource =>
    simp only [allocData]
    cases h : (st.alloc .resource).alloc with
    | none => exact ⟨⟨rfl, rfl, rfl, rfl, rfl⟩, fun _ _ _ _ => rfl, rfl, .inl ⟨rfl, rfl⟩⟩
    | some pair => exact ⟨⟨rfl, rfl, rfl, rfl, rfl⟩, fun _ _ _ _ => rfl, rfl,
        .inr ⟨_, _, rfl, rfl, rfl⟩⟩
  | system =>
    simp only [allocData]
    cases h : (st.alloc .system).alloc with
    | none => exact ⟨⟨rfl, rfl, rfl, rfl, rfl⟩, fun _ _ _ _ => rfl, rfl, .inl ⟨rfl, rfl⟩⟩
    | some pair => exact ⟨⟨rfl, rfl, rfl, rfl, rfl⟩, fun _ _ _ _ => rfl, rfl,
        .inr ⟨_, _, rfl, rfl, rfl⟩⟩

structure Grown (st st' : Store) (f : Root → Forest Nat) : Prop where
  mutex : ∀ r j, j ∈ (f r).walk → st'.mutex j = st.mutex j
  lastModified : ∀ r j, j ∈ (f r).walk → st'.lastModified j = st.lastModified j
  clocktime : st'.clocktime = st.clocktime
  name : ∀ r j, j ∈ (f r).walk → st'.tree.name j = st.tree.name j
  data : ∀ r j, j ∈ (f r).walk → st'.tree.data j = st.tree.data j
  agents : ∀ s, (st.alloc .agent).Used s → st'.agents s = st.agents s
  values : ∀ s, (st.alloc .resource).Used s → st'.values s = st.values s
  files : st'.files = st.files

def grow (f : Root → Forest Nat) (root : Root) (folder : Option Nat) (n : Nat) :
    Root → Forest Nat :=
  setForest f root (match folder with
    | some p => (f root).insertUnder p n
    | none => .node n .nil (f root))

theorem grow_mem {t : Tree} {f : Root → Forest Nat} (sh : t.Shape f) {root : Root}
    {folder : Option Nat} {n : Nat} (hp : ∀ p, folder = some p → p ∈ (f root).walk) (r : Root)
    (j : Nat) : j ∈ (grow f root folder n r).walk ↔ (r = root ∧ j = n) ∨ j ∈ (f r).walk := by
  by_cases hr : r = root
  · subst hr
    simp only [grow, setForest, Function.update_self, true_and]
    cases folder with
    | none => simp [Forest.walk]
    | some p =>
      rw [(Forest.insertUnder_perm (hp p rfl) (sh.nodup r)).mem_iff]
      simp
  · simp [grow, setForest, hr]

theorem insert_same (st : Store) (root : Root) (folder : Option Nat) (n : Nat) :
    (st.insert root folder n).mutex = st.mutex ∧
      (st.insert root folder n).tree.pool = st.tree.pool := by
  cases folder <;> exact ⟨rfl, rfl⟩

theorem insert_shape {st : Store} {f : Root → Forest Nat} {n : Nat}
    {root : Root} {folder : Option Nat} (sh : st.tree.Shape f)
    (hn : ∀ r, n ∉ (f r).walk) (hp : ∀ p, folder = some p → p ∈ (f root).walk)
    (clean : st.tree.links n = ⟨none, none, none⟩) (hused : st.tree.pool.Used n) :
    (st.insert root folder n).tree.Shape (grow f root folder n) := by
  have rep := sh.rep root
  have nd := sh.nodup root
  have mem := fun r j => grow_mem sh hp (n := n) r j
  refine ⟨fun r => ?_, fun r => ?_, fun r r' j hj hj' => ?_, fun r j hj => ?_, ?_⟩
  · cases folder with
    | none =>
      by_cases hr : r = root
      · subst hr
        simp only [grow, setForest, Function.update_self, insert]
        exact rep.pushTop nd (hn r) (by rw [clean]) (by rw [clean])
      · simp only [grow, setForest, Function.update_of_ne hr, insert]
        refine (sh.rep r).congr fun j hj => ?_
        have hjn : j ≠ n := fun e => hn r (e ▸ hj)
        have hjh : st.tree.list root ≠ some j := fun e =>
          hr (sh.apart r root j hj (Forest.top_mem (rep.top_eq.symm.trans e)))
        simp only [EmmaNode.pushTop, setNext, Function.update_self]
        rw [Represents.setPrev_frame hjh, Function.update_of_ne hjn]
    | some p =>
      have hpm := hp p rfl
      by_cases hr : r = root
      · subst hr
        simp only [grow, setForest, Function.update_self, insert]
        exact rep.pushChild nd hpm (hn r) (by rw [clean])
      · simp only [grow, setForest, Function.update_of_ne hr, insert]
        refine (sh.rep r).congr fun j hj => Represents.pushChild_frame ?_ ?_ ?_ ?_
        · exact fun e => hn root (e ▸ hpm)
        · exact fun e => hn r (e ▸ hj)
        · exact fun e => hr (sh.apart r root j hj (e ▸ hpm))
        · exact fun e => hr (sh.apart r root j hj (rep.subRoot_mem hpm e))
  · by_cases hr : r = root
    · subst hr
      simp only [grow, setForest, Function.update_self]
      cases folder with
      | none => exact List.nodup_cons.mpr ⟨hn r, nd⟩
      | some p =>
        exact (Forest.insertUnder_perm (hp p rfl) nd).nodup_iff.mpr (List.nodup_cons.mpr ⟨hn r, nd⟩)
    · simp only [grow, setForest, Function.update_of_ne hr]
      exact sh.nodup r
  · rcases (mem r j).mp hj with ⟨hr, hjn⟩ | hm
    · rcases (mem r' j).mp hj' with ⟨hr', -⟩ | hm'
      · rw [hr, hr']
      · exact absurd (hjn ▸ hm') (hn r')
    · rcases (mem r' j).mp hj' with ⟨-, hjn⟩ | hm'
      · exact absurd (hjn ▸ hm) (hn r)
      · exact sh.apart r r' j hm hm'
  · rw [(insert_same st root folder n).2]
    rcases (mem r j).mp hj with ⟨-, hjn⟩ | hm
    · exact hjn ▸ hused
    · exact sh.used r j hm
  · rw [(insert_same st root folder n).2]
    exact sh.size

def prepare (st : Store) (P : Platform) (root : Root) (n slot : Nat) (pool : Pool)
    (base : Text) : Store :=
  let st := (st.fillResource P root n slot base).resetData root slot
  { st with tree := { st.tree with pool } }

theorem prepare_spec (st : Store) (P : Platform) (root : Root) (n slot : Nat) (pool : Pool)
    (base : Text) :
    (st.prepare P root n slot pool base).tree = { st.tree with
      pool
      name := Function.update st.tree.name n (storedName P root slot base)
      data := Function.update st.tree.data n (some slot) } ∧
    (st.prepare P root n slot pool base).alloc = st.alloc ∧
    (st.prepare P root n slot pool base).mutex = st.mutex ∧
    (st.prepare P root n slot pool base).lastModified = st.lastModified ∧
    (st.prepare P root n slot pool base).clocktime = st.clocktime ∧
    (st.prepare P root n slot pool base).files = st.files ∧
    (∀ s, root = .agent ∧ s = slot ∨ (st.prepare P root n slot pool base).agents s = st.agents s) ∧
    ∀ s, root = .resource ∧ s = slot ∨
      (st.prepare P root n slot pool base).values s = st.values s := by
  cases root with
  | agent =>
    refine ⟨rfl, rfl, rfl, rfl, rfl, rfl, fun s => ?_, fun _ => .inr rfl⟩
    exact or_iff_not_imp_left.mpr fun h => Function.update_of_ne (fun e => h ⟨rfl, e⟩) _ _
  | resource =>
    refine ⟨rfl, rfl, rfl, rfl, rfl, rfl, fun _ => .inr rfl, fun s => ?_⟩
    exact or_iff_not_imp_left.mpr fun h => Function.update_of_ne (fun e => h ⟨rfl, e⟩) _ _
  | system => exact ⟨rfl, rfl, rfl, rfl, rfl, rfl, fun _ => .inr rfl, fun _ => .inr rfl⟩

theorem emmaResourceAdd_eq (P : Platform) (st : Store) (root : Root) {name : Text} (hne : name ≠ [])
    (hnone : (st.tree.emmaGetResource name root).resource = none) :
    st.emmaResourceAdd P (some root) name =
      match st.tree.pool.alloc with
      | none => (st, 3)
      | some (n, pool) =>
        match (st.cleanResource n).allocData root with
        | (st, none) => (st, 4)
        | (st', some slot) =>
          let place := st.tree.emmaGetResource name root
          let st' := st'.prepare P root n slot pool (basename name)
          if place.folder.isNone ∧ !nameIsBasic name then (st', 5)
          else (st'.insert root place.folder n, 0) := by
  unfold emmaResourceAdd
  simp only [if_neg hne, hnone]
  rfl

theorem Sound.transport {st st' : Store} {f : Root → Forest Nat} (so : st.Sound f)
    (g : Grown st st' f)
    (links : ∀ r j, j ∈ (f r).walk → st'.tree.links j = st.tree.links j)
    (list : st'.tree.list = st.tree.list)
    (pool : ∀ j, st.tree.pool.Used j → st'.tree.pool.Used j)
    (size : st'.tree.pool.used.length = st.tree.pool.used.length)
    (alloc : ∀ r s, (st.alloc r).Used s → (st'.alloc r).Used s) : st'.Sound f := by
  refine ⟨⟨fun r => ?_, so.shape.nodup, so.shape.apart, fun r j hj => ?_, ?_⟩,
    fun r j hj => ?_, fun r i j hi hj e => ?_⟩
  · rw [list]
    exact (so.shape.rep r).congr (links r)
  · exact pool j (so.shape.used r j hj)
  · rw [size, so.shape.size]
  · obtain ⟨slot, hs, hu⟩ := so.slot r j hj
    exact ⟨slot, by rw [g.data r j hj, hs], alloc r slot hu⟩
  · rw [g.data r i hi, g.data r j hj] at e
    exact so.slotInj r i j hi hj e

structure Prepared (st st' : Store) (f : Root → Forest Nat) (root : Root) (n : Nat) : Prop where
  fresh : ∀ r, n ∉ (f r).walk
  clean : st'.tree.links n = ⟨none, none, none⟩
  used : st'.tree.pool.Used n
  grown : Grown st st' f
  sound : st'.Sound f
  data : ∃ slot, st'.tree.data n = some slot ∧ (st'.alloc root).Used slot ∧
    ¬ (st.alloc root).Used slot
  mutex : st'.mutex n = .released
  lastModified : st'.lastModified n = .nobody

theorem prepared (P : Platform) {st st₁ : Store} {f : Root → Forest Nat} (so : st.Sound f)
    {root : Root} {n slot : Nat} {pool : Pool} (hpool : st.tree.pool.alloc = some (n, pool))
    (hdata : (st.cleanResource n).allocData root = (st₁, some slot)) (base : Text) :
    Prepared st (st₁.prepare P root n slot pool base) f root n := by
  have fresh : ∀ r, n ∉ (f r).walk := fun r hm => Pool.alloc_fresh hpool (so.shape.used r n hm)
  have off : ∀ r j, j ∈ (f r).walk → j ≠ n := fun r j hj e => fresh r (e ▸ hj)
  obtain ⟨same, hagents, hvalues, halloc⟩ := allocData_spec (st.cleanResource n) root
  rw [hdata] at same hagents hvalues halloc
  rcases halloc with ⟨h, -⟩ | ⟨slot', dataPool, hslot', hslot, halloc⟩
  · exact absurd h (by simp)
  cases hslot'
  have freshSlot : ¬ (st.alloc root).Used slot := Pool.alloc_fresh hslot
  have htree : st₁.tree = st.tree.clean n := same.tree
  obtain ⟨tree₂, alloc₂, mutex₂, last₂, clock₂, files₂, agents₂, values₂⟩ :=
    prepare_spec st₁ P root n slot pool base
  generalize st₁.prepare P root n slot pool base = st₂ at *
  have g : Grown st st₂ f := by
    refine ⟨fun r j hj => ?_, fun r j hj => ?_, clock₂.trans same.clocktime, fun r j hj => ?_,
      fun r j hj => ?_, fun s hs => ?_, fun s hs => ?_, files₂.trans same.files⟩
    · rw [mutex₂, same.mutex]
      exact Function.update_of_ne (off r j hj) _ _
    · rw [last₂, same.lastModified]
      exact Function.update_of_ne (off r j hj) _ _
    · simp only [tree₂, htree, Tree.clean, Function.update_of_ne (off r j hj)]
    · simp only [tree₂, htree, Tree.clean, Function.update_of_ne (off r j hj)]
    · rcases agents₂ s with ⟨hr, hs'⟩ | h
      · exact absurd (hr ▸ hs' ▸ hs) freshSlot
      · exact h.trans (hagents .agent s hs rfl)
    · rcases values₂ s with ⟨hr, hs'⟩ | h
      · exact absurd (hr ▸ hs' ▸ hs) freshSlot
      · exact h.trans (congrFun hvalues s)
  have links : st₂.tree.links = Function.update st.tree.links n ⟨none, none, none⟩ := by
    simp only [tree₂, htree, Tree.clean]
  refine ⟨fresh, by rw [links, Function.update_self], ?_, g, so.transport g ?_ ?_ ?_ ?_ ?_,
    ⟨slot, ?_, ?_, freshSlot⟩, ?_, ?_⟩
  · simp only [tree₂]
    exact (Pool.used_alloc hpool n).mpr (.inl rfl)
  · exact fun r j hj => by rw [links, Function.update_of_ne (off r j hj)]
  · simp only [tree₂, htree, Tree.clean]
  · simp only [tree₂]
    exact fun j hj => (Pool.used_alloc hpool j).mpr (.inr hj)
  · simp only [tree₂]
    exact Pool.length_alloc hpool
  · intro r s hs
    rw [alloc₂, halloc]
    by_cases hr : r = root
    · subst hr
      rw [Function.update_self]
      exact (Pool.used_alloc hslot s).mpr (.inr hs)
    · rw [Function.update_of_ne hr]
      exact hs
  · simp only [tree₂, Function.update_self]
  · rw [alloc₂, halloc, Function.update_self]
    exact (Pool.used_alloc hslot slot).mpr (.inl rfl)
  · rw [mutex₂, same.mutex]
    exact Function.update_self _ _ _
  · rw [last₂, same.lastModified]
    exact Function.update_self _ _ _

structure Created (st' : Store) (f : Root → Forest Nat) (root : Root) (folder : Option Nat)
    (n : Nat) : Prop where
  fresh : ∀ r, n ∉ (f r).walk
  mem : ∀ p, folder = some p → p ∈ (f root).walk
  sound : st'.Sound (grow f root folder n)
  mutex : st'.mutex n = .released
  lastModified : st'.lastModified n = .nobody

theorem insert_spec {st st₂ : Store} {f : Root → Forest Nat} (so : st.Sound f) {root : Root}
    {n : Nat} (p : Prepared st st₂ f root n) {folder : Option Nat}
    (hfolder : ∀ q, folder = some q → q ∈ (f root).walk) :
    Grown st (st₂.insert root folder n) f ∧
      Created (st₂.insert root folder n) f root folder n := by
  have rest : SameContent st₂ (st₂.insert root folder n) ∧
      (st₂.insert root folder n).alloc = st₂.alloc := by
    cases folder <;> exact ⟨⟨rfl, rfl, rfl, rfl, rfl, rfl, rfl, rfl⟩, rfl⟩
  have shape := insert_shape p.sound.shape p.fresh hfolder p.clean p.used
  generalize st₂.insert root folder n = st₃ at rest shape
  obtain ⟨rest, alloc₃⟩ := rest
  have g := p.grown
  have mem := fun r j => grow_mem so.shape hfolder (n := n) r j
  obtain ⟨slot, hslot, hused, hfresh⟩ := p.data
  have clash : ∀ r k, k ∈ (f r).walk → r = root → st₂.tree.data k ≠ some slot := by
    rintro r k hk rfl e
    obtain ⟨s, hs, hu⟩ := so.slot r k hk
    rw [g.data r k hk, hs] at e
    exact hfresh (Option.some.inj e ▸ hu)
  refine ⟨⟨?_, ?_, ?_, ?_, ?_, ?_, ?_, ?_⟩, p.fresh, hfolder,
    ⟨shape, fun r j hj => ?_, fun r i j hi hj e => ?_⟩, ?_, ?_⟩
  · rw [rest.mutex]; exact g.mutex
  · rw [rest.lastModified]; exact g.lastModified
  · rw [rest.clocktime]; exact g.clocktime
  · rw [rest.name]; exact g.name
  · rw [rest.data]; exact g.data
  · rw [rest.agents]; exact g.agents
  · rw [rest.values]; exact g.values
  · rw [rest.files]; exact g.files
  · rw [rest.data, alloc₃]
    rcases (mem r j).mp hj with ⟨hr, rfl⟩ | hm
    · exact ⟨slot, hslot, hr ▸ hused⟩
    · exact p.sound.slot r j hm
  · rw [rest.data] at e
    rcases (mem r i).mp hi with ⟨hr, rfl⟩ | hmi
    · rcases (mem r j).mp hj with ⟨-, rfl⟩ | hmj
      · rfl
      · rw [hslot] at e
        exact absurd e.symm (clash r j hmj hr)
    · rcases (mem r j).mp hj with ⟨hr, rfl⟩ | hmj
      · rw [hslot] at e
        exact absurd e (clash r i hmi hr)
      · exact p.sound.slotInj r i j hmi hmj e
  · rw [rest.mutex]; exact p.mutex
  · rw [rest.lastModified]; exact p.lastModified

theorem Grown.refl (st : Store) (f : Root → Forest Nat) : Grown st st f :=
  ⟨fun _ _ _ => rfl, fun _ _ _ => rfl, rfl, fun _ _ _ => rfl, fun _ _ _ => rfl, fun _ _ => rfl,
    fun _ _ => rfl, rfl⟩

theorem emmaResourceAdd_spec (P : Platform) {st : Store} {f : Root → Forest Nat} (so : st.Sound f)
    (root : Option Root) (name : Text) :
    Grown st (st.emmaResourceAdd P root name).1 f ∧
    ((st.emmaResourceAdd P root name).2 ≠ 0 ∧ (st.emmaResourceAdd P root name).1.Sound f ∨
      (st.emmaResourceAdd P root name).2 = 0 ∧ ∃ r folder n, root = some r ∧
        Created (st.emmaResourceAdd P root name).1 f r folder n) := by
  have unchanged := Grown.refl st f
  cases root with
  | none => exact ⟨unchanged, .inl ⟨by simp [emmaResourceAdd], so⟩⟩
  | some root =>
    by_cases hne : name = []
    · simp only [emmaResourceAdd, if_pos hne]
      exact ⟨unchanged, .inl ⟨by simp, so⟩⟩
    cases hres : (st.tree.emmaGetResource name root).resource with
    | some i =>
      simp only [emmaResourceAdd, if_neg hne, hres, Option.isSome_some, if_true]
      exact ⟨unchanged, .inl ⟨by simp, so⟩⟩
    | none =>
      have add := emmaResourceAdd_eq P st root hne hres
      cases hpool : st.tree.pool.alloc with
      | none =>
        simp only [hpool] at add
        rw [add]
        exact ⟨unchanged, .inl ⟨by simp, so⟩⟩
      | some pair =>
        obtain ⟨n, pool⟩ := pair
        cases hdata : (st.cleanResource n).allocData root with
        | mk st₁ slot =>
          simp only [hpool, hdata] at add
          rw [add]
          cases slot with
          | some slot =>
            have p := prepared P so hpool hdata (basename name)
            simp only
            split
            · exact ⟨p.grown, .inl ⟨by simp, p.sound⟩⟩
            · obtain ⟨-, -, hfolder⟩ := so.shape.emmaGetResource_spec name root
              obtain ⟨g, c⟩ := insert_spec so p hfolder
              exact ⟨g, .inr ⟨rfl, root, _, n, rfl, c⟩⟩
          | none =>
            -- the block is given back, cleaned
            obtain ⟨same, hagents, hvalues, halloc⟩ := allocData_spec (st.cleanResource n) root
            rw [hdata] at same hagents hvalues halloc
            have off : ∀ r j, j ∈ (f r).walk → j ≠ n := fun r j hj e =>
              Pool.alloc_fresh hpool (e ▸ so.shape.used r j hj)
            have htree : st₁.tree = st.tree.clean n := same.tree
            have g : Grown st st₁ f := by
              refine ⟨fun r j hj => ?_, fun r j hj => ?_, same.clocktime, fun r j hj => ?_,
                fun r j hj => ?_, fun s hs => hagents .agent s hs rfl,
                fun s _ => congrFun hvalues s, same.files⟩
              · rw [same.mutex]
                exact Function.update_of_ne (off r j hj) _ _
              · rw [same.lastModified]
                exact Function.update_of_ne (off r j hj) _ _
              · rw [htree]
                exact Function.update_of_ne (off r j hj) _ _
              · rw [htree]
                exact Function.update_of_ne (off r j hj) _ _
            refine ⟨g, .inl ⟨by simp, so.transport g (fun r j hj => ?_) ?_ ?_ ?_ ?_⟩⟩
            · rw [htree]
              exact Function.update_of_ne (off r j hj) _ _
            · rw [htree]
              rfl
            · rw [htree]
              exact fun j hj => hj
            · rw [htree]
              rfl
            · rcases halloc with ⟨-, h⟩ | ⟨_, _, h, -⟩
              · rw [h]
                exact fun r s hs => hs
              · exact absurd h (by simp)

end Store
end EmmaNode

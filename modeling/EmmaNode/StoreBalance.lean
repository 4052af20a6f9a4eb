import EmmaNode.StoreRuns

/-! The pools of a store are in step: as many blocks of resources are in use as blocks of
data, which are fewer than there are resources, and the table of files has a mark for the
file of each agent in use, no two of which share one. So neither the pool of resources nor
the table of files is ever exhausted first. -/

namespace EmmaNode

namespace Pool

def count (m : Pool) : Nat := m.used.count true

theorem count_init (num : Nat) : (init num).count = 0 := by
  rw [count, init, List.count_replicate]
  rfl

theorem free_alloc {m m' : Pool} {i : Nat} (h : m.alloc = some (i, m')) : m'.free i = m := by
  have fresh := alloc_fresh h
  have hlt := alloc_lt h
  simp only [alloc, Option.map_eq_some_iff, Prod.mk.injEq] at h
  obtain ⟨k, -, rfl, rfl⟩ := h
  have free' : m.used[k] = false := by
    simpa [Used, List.getElem?_eq_getElem hlt] using fresh
  simp only [free, List.set_set, ← free', List.set_getElem_self]

theorem count_le (m : Pool) : m.count ≤ m.used.length := List.count_le_length

theorem count_alloc {m m' : Pool} {i : Nat} (h : m.alloc = some (i, m')) :
    m'.count = m.count + 1 := by
  have fresh := alloc_fresh h
  have hlt := alloc_lt h
  simp only [alloc, Option.map_eq_some_iff, Prod.mk.injEq] at h
  obtain ⟨k, -, rfl, rfl⟩ := h
  have free : m.used[k] = false := by
    simpa [Used, List.getElem?_eq_getElem hlt] using fresh
  rw [count, count, List.count_set hlt, free]
  rfl

theorem count_free {m : Pool} {i : Nat} (h : m.Used i) : (m.free i).count + 1 = m.count := by
  have hlt := used_lt h
  have taken : m.used[i] = true := by
    simpa [Used, List.getElem?_eq_getElem hlt] using h
  have positive : 0 < m.used.count true :=
    List.count_pos_iff.mpr (taken ▸ List.getElem_mem hlt)
  rw [count, free, List.count_set hlt, taken, count]
  have change : (if (true == true) = true then 1 else 0) = 1 ∧
      (if (false == true) = true then 1 else 0) = 0 := by decide
  omega

theorem alloc_isSome {m : Pool} (h : m.count < m.used.length) : m.alloc.isSome := by
  rw [alloc, Option.isSome_map, List.findIdx?_isSome, List.any_eq_true]
  by_contra full
  have all : ∀ x ∈ m.used, true = x := by
    intro x hx
    by_contra other
    exact full ⟨x, hx, by simpa using other⟩
  have : m.used.count true = m.used.length := List.count_eq_length.mpr all
  rw [count] at h
  omega

end Pool

namespace Store

structure Balanced (st : Store) : Prop where
  size : ∀ r, (st.alloc r).used.length = rootMaxAlloc r
  count : st.tree.pool.count =
    (st.alloc .agent).count + (st.alloc .resource).count + (st.alloc .system).count
  file : ∀ i < rootMaxAlloc .agent, st.memory i = true ↔
    ∃ slot, (st.alloc .agent).Used slot ∧ (st.agents slot).memoryIndex = i
  inTable : ∀ slot, (st.alloc .agent).Used slot →
    (st.agents slot).memoryIndex < rootMaxAlloc .agent
  apart : ∀ slot slot', (st.alloc .agent).Used slot → (st.alloc .agent).Used slot' →
    (st.agents slot).memoryIndex = (st.agents slot').memoryIndex → slot = slot'

variable {P : Platform} {st st' : Store}

theorem balanced_empty (files : Nat → Option Text) : (empty files).Balanced where
  size r := Pool.length_init _
  count := by simp [empty, Pool.count_init]
  file i hi := by
    refine iff_of_false (by simp [empty]) ?_
    rintro ⟨slot, used, -⟩
    exact Pool.not_used_init _ _ used
  inTable slot used := absurd used (Pool.not_used_init _ _)
  apart slot _ used := absurd used (Pool.not_used_init _ _)

theorem Balanced.congr (b : st.Balanced) (pool : st'.tree.pool = st.tree.pool)
    (alloc : st'.alloc = st.alloc) (memory : st'.memory = st.memory)
    (index : ∀ slot, (st'.agents slot).memoryIndex = (st.agents slot).memoryIndex) :
    st'.Balanced where
  size r := by rw [alloc]; exact b.size r
  count := by rw [alloc, pool]; exact b.count
  file i hi := by simp only [alloc, memory, index]; exact b.file i hi
  inTable slot := by simp only [alloc, index]; exact b.inTable slot
  apart slot slot' := by simp only [alloc, index]; exact b.apart slot slot'

theorem Balanced.pool_alloc (b : st.Balanced) (size : st.tree.pool.used.length = emmaMaxResources) :
    st.tree.pool.alloc.isSome := by
  refine Pool.alloc_isSome ?_
  have a := (st.alloc .agent).count_le
  have l := (st.alloc .resource).count_le
  have s := (st.alloc .system).count_le
  rw [b.size] at a l s
  rw [b.count, size]
  have five : rootMaxAlloc .agent = 5 ∧ rootMaxAlloc .resource = 5 ∧ rootMaxAlloc .system = 6 :=
    ⟨rfl, rfl, rfl⟩
  unfold emmaMaxResources
  omega

theorem Balanced.getMemoryIndex_lt (b : st.Balanced) {slot : Nat} {pool : Pool}
    (h : (st.alloc .agent).alloc = some (slot, pool)) :
    st.getMemoryIndex < rootMaxAlloc .agent ∧ st.memory st.getMemoryIndex = false := by
  have some : ∃ i < rootMaxAlloc .agent, st.memory i = false := by
    by_contra none
    have marked : ∀ i < rootMaxAlloc .agent, ∃ slot, (st.alloc .agent).Used slot ∧
        (st.agents slot).memoryIndex = i := by
      intro i hi
      refine (b.file i hi).mp ?_
      by_contra free
      exact none ⟨i, hi, by simpa using free⟩
    choose! owner used index using marked
    -- five files with owners need five agents besides the free slot
    have inj : ∀ i < rootMaxAlloc .agent, ∀ j < rootMaxAlloc .agent, owner i = owner j → i = j := by
      intro i hi j hj e
      rw [← index i hi, ← index j hj, e]
    have inSlots : ((List.range (rootMaxAlloc .agent)).map owner) ⊆
        (List.range (rootMaxAlloc .agent)).erase slot := by
      intro k hk
      obtain ⟨i, hi, rfl⟩ := List.mem_map.mp hk
      have hi := List.mem_range.mp hi
      have small := Pool.used_lt (used i hi)
      rw [b.size] at small
      refine (List.mem_erase_of_ne fun e => ?_).mpr (List.mem_range.mpr small)
      exact Pool.alloc_fresh h (e ▸ used i hi)
    have nodup : ((List.range (rootMaxAlloc .agent)).map owner).Nodup := by
      refine List.Nodup.map_on (fun i hi j hj e => ?_) List.nodup_range
      exact inj i (List.mem_range.mp hi) j (List.mem_range.mp hj) e
    have shorter := (List.subperm_of_subset nodup inSlots).length_le
    have slot_lt := Pool.alloc_lt h
    rw [b.size] at slot_lt
    rw [List.length_map, List.length_erase_of_mem (List.mem_range.mpr slot_lt), List.length_range]
      at shorter
    have five : rootMaxAlloc .agent = 5 := rfl
    omega
  obtain ⟨i, hi, free⟩ := some
  unfold getMemoryIndex
  cases hf : (List.range (rootMaxAlloc .agent)).find? fun i => !st.memory i with
  | none =>
    have := List.find?_eq_none.mp hf i (List.mem_range.mpr hi)
    simp [free] at this
  | some j =>
    have marked := List.find?_some hf
    have inside := List.mem_range.mp (List.mem_of_find?_eq_some hf)
    exact ⟨inside, by simpa using marked⟩

theorem Balanced.allocData (b : st.Balanced) (root : Root) :
    ((st.alloc root).alloc = none ∧ st.allocData root = (st, none)) ∨
    ∃ slot pool, (st.alloc root).alloc = some (slot, pool) ∧
      (st.allocData root).2 = some slot ∧
      (st.allocData root).1.tree = st.tree ∧
      (st.allocData root).1.alloc = Function.update st.alloc root pool ∧
      ((st.allocData root).1.memory = st.memory ∧ (st.allocData root).1.agents = st.agents ∧
          root ≠ .agent ∨
        root = .agent ∧ ∃ index < rootMaxAlloc .agent, st.memory index = false ∧
          (st.allocData root).1.memory = Function.update st.memory index true ∧
          (st.allocData root).1.agents =
            Function.update st.agents slot { st.agents slot with memoryIndex := index }) := by
  cases root with
  | agent =>
    simp only [Store.allocData, rootAgentAlloc]
    cases h : (st.alloc .agent).alloc with
    | none => exact .inl ⟨rfl, rfl⟩
    | some pair =>
      obtain ⟨slot, pool⟩ := pair
      obtain ⟨inside, free⟩ := b.getMemoryIndex_lt h
      refine .inr ⟨slot, pool, rfl, ?_⟩
      simp only [if_neg (Nat.not_le.mpr inside)]
      exact ⟨trivial, trivial, trivial, .inr ⟨trivial, _, inside, free, rfl, rfl⟩⟩
  | resource =>
    simp only [Store.allocData]
    cases h : (st.alloc .resource).alloc with
    | none => exact .inl ⟨rfl, rfl⟩
    | some pair => exact .inr ⟨_, _, rfl, rfl, rfl, rfl, .inl ⟨rfl, rfl, by simp⟩⟩
  | system =>
    simp only [Store.allocData]
    cases h : (st.alloc .system).alloc with
    | none => exact .inl ⟨rfl, rfl⟩
    | some pair => exact .inr ⟨_, _, rfl, rfl, rfl, rfl, .inl ⟨rfl, rfl, by simp⟩⟩

theorem Balanced.grown (b : st.Balanced) {root : Root} {n slot : Nat} {pool data : Pool}
    (hpool : st.tree.pool.alloc = some (n, pool)) (hdata : (st.alloc root).alloc = some (slot, data))
    (pool' : st'.tree.pool = pool) (alloc : st'.alloc = Function.update st.alloc root data)
    (files : st'.memory = st.memory ∧ (∀ s, (st'.agents s).memoryIndex = (st.agents s).memoryIndex) ∧
        root ≠ .agent ∨
      root = .agent ∧ ∃ index < rootMaxAlloc .agent, st.memory index = false ∧
        st'.memory = Function.update st.memory index true ∧
        (st'.agents slot).memoryIndex = index ∧
        ∀ s, s ≠ slot → (st'.agents s).memoryIndex = (st.agents s).memoryIndex) :
    st'.Balanced := by
  have size (r : Root) : (st'.alloc r).used.length = rootMaxAlloc r := by
    rw [alloc]
    by_cases e : r = root
    · rw [e, Function.update_self, Pool.length_alloc hdata, b.size]
    · rw [Function.update_of_ne e, b.size]
  have count : st'.tree.pool.count =
      (st'.alloc .agent).count + (st'.alloc .resource).count + (st'.alloc .system).count := by
    have counted := b.count
    have more := Pool.count_alloc hdata
    rw [pool', Pool.count_alloc hpool, alloc]
    cases root <;>
      simp only [Function.update_self, Function.update_of_ne, ne_eq, reduceCtorEq, not_false_eq_true]
        <;> omega
  rcases files with ⟨memory, index, other⟩ | ⟨rfl, index, inside, free, memory, here, elsewhere⟩
  · have same : st'.alloc .agent = st.alloc .agent := by
      rw [alloc, Function.update_of_ne (Ne.symm other)]
    refine ⟨size, count, fun i hi => ?_, fun s => ?_, fun s s' => ?_⟩
    · simp only [same, memory, index]
      exact b.file i hi
    · simp only [same, index]
      exact b.inTable s
    · simp only [same, index]
      exact b.apart s s'
  · have used (s : Nat) : (st'.alloc .agent).Used s ↔ s = slot ∨ (st.alloc .agent).Used s := by
      rw [alloc, Function.update_self]
      exact Pool.used_alloc hdata s
    have fresh : ¬(st.alloc .agent).Used slot := Pool.alloc_fresh hdata
    have kept (s : Nat) (hs : (st.alloc .agent).Used s) :
        (st'.agents s).memoryIndex = (st.agents s).memoryIndex :=
      elsewhere s fun e => fresh (e ▸ hs)
    have other (s : Nat) (hs : (st.alloc .agent).Used s) : (st.agents s).memoryIndex ≠ index := by
      intro e
      have marked := (b.file index inside).mpr ⟨s, hs, e⟩
      rw [free] at marked
      cases marked
    refine ⟨size, count, fun i hi => ?_, fun s hs => ?_, fun s s' hs hs' e => ?_⟩
    · rw [memory]
      by_cases hindex : i = index
      · rw [hindex, Function.update_self]
        exact iff_of_true rfl ⟨slot, (used slot).mpr (.inl rfl), here⟩
      · rw [Function.update_of_ne hindex, b.file i hi]
        constructor
        · rintro ⟨s, hs, e⟩
          exact ⟨s, (used s).mpr (.inr hs), (kept s hs).trans e⟩
        · rintro ⟨s, hs, e⟩
          rcases (used s).mp hs with rfl | hs
          · exact absurd (e.symm.trans here) hindex
          · exact ⟨s, hs, (kept s hs).symm.trans e⟩
    · rcases (used s).mp hs with rfl | hs
      · rwa [here]
      · rw [kept s hs]
        exact b.inTable s hs
    · rcases (used s).mp hs with rfl | hs <;> rcases (used s').mp hs' with rfl | hs'
      · rfl
      · rw [here, kept s' hs'] at e
        exact absurd e.symm (other s' hs')
      · rw [here, kept s hs] at e
        exact absurd e (other s hs)
      · rw [kept s hs, kept s' hs'] at e
        exact b.apart s s' hs hs' e

theorem prepare_balance (st : Store) (P : Platform) (root : Root) (n slot : Nat) (pool : Pool)
    (base : Text) : (st.prepare P root n slot pool base).memory = st.memory ∧
      ∀ s, ((st.prepare P root n slot pool base).agents s).memoryIndex =
        (st.agents s).memoryIndex := by
  cases root with
  | agent =>
    refine ⟨rfl, fun s => ?_⟩
    simp only [prepare, fillResource, resetData, Function.update_apply]
    split
    · rename_i e
      rw [e]
      rfl
    · rfl
  | resource => exact ⟨rfl, fun _ => rfl⟩
  | system => exact ⟨rfl, fun _ => rfl⟩

theorem emmaResourceAdd_cases (P : Platform) (b : st.Balanced)
    (size : st.tree.pool.used.length = emmaMaxResources) (root : Root) {name : Text}
    (hne : name ≠ []) (hnone : (st.tree.emmaGetResource name root).resource = none) :
    ∃ n pool, st.tree.pool.alloc = some (n, pool) ∧
      ((st.alloc root).alloc = none ∧
          st.emmaResourceAdd P (some root) name = (st.cleanResource n, 4) ∨
        ∃ slot data st₁, (st.alloc root).alloc = some (slot, data) ∧
          (st.cleanResource n).allocData root = (st₁, some slot) ∧
          (st₁.prepare P root n slot pool (basename name)).Balanced ∧
          (st₁.prepare P root n slot pool (basename name)).alloc =
            Function.update st.alloc root data ∧
          st.emmaResourceAdd P (some root) name =
            if (st.tree.emmaGetResource name root).folder.isNone ∧ !nameIsBasic name then
              (st₁.prepare P root n slot pool (basename name), 5)
            else ((st₁.prepare P root n slot pool (basename name)).insert root
              (st.tree.emmaGetResource name root).folder n, 0)) := by
  have add := emmaResourceAdd_eq P st root hne hnone
  obtain ⟨⟨n, pool⟩, hpool⟩ := Option.isSome_iff_exists.mp (b.pool_alloc size)
  refine ⟨n, pool, hpool, ?_⟩
  have cleaned : (st.cleanResource n).Balanced := b.congr rfl rfl rfl fun _ => rfl
  simp only [hpool] at add
  rcases cleaned.allocData root with ⟨full, e⟩ | ⟨slot, data, hdata, e, tree, alloc, files⟩
  · simp only [e] at add
    exact .inl ⟨full, add⟩
  cases h : (st.cleanResource n).allocData root with
  | mk st₁ left =>
    simp only [h] at e tree alloc files add
    subst e
    refine .inr ⟨slot, data, st₁, hdata, rfl, ?_, ?_, add⟩
    · obtain ⟨memory, kept⟩ := prepare_balance st₁ P root n slot pool (basename name)
      refine b.grown hpool hdata ?_ ?_ ?_
      · exact congrArg Tree.pool (prepare_spec st₁ P root n slot pool (basename name)).1
      · rw [(prepare_spec st₁ P root n slot pool (basename name)).2.1, alloc]
        rfl
      · rcases files with ⟨same, agents, other⟩ | ⟨rfl, index, inside, free, marked, agents⟩
        · exact .inl ⟨memory.trans same, fun s => (kept s).trans (by rw [agents]; rfl), other⟩
        · refine .inr ⟨rfl, index, inside, free, memory.trans marked, ?_, fun s hs => ?_⟩
          · rw [kept, agents, Function.update_self]
          · rw [kept, agents, Function.update_of_ne hs]
            rfl
    · rw [(prepare_spec st₁ P root n slot pool (basename name)).2.1, alloc]
      rfl

theorem insert_balance (st : Store) (root : Root) (folder : Option Nat) (n : Nat) :
    (st.insert root folder n).alloc = st.alloc ∧ (st.insert root folder n).memory = st.memory ∧
      (st.insert root folder n).agents = st.agents := by
  unfold insert
  split <;> exact ⟨rfl, rfl, rfl⟩

theorem Balanced.add (b : st.Balanced) (size : st.tree.pool.used.length = emmaMaxResources)
    (root : Option Root) (name : Text) : (st.emmaResourceAdd P root name).1.Balanced := by
  cases root with
  | none => exact b
  | some root =>
    by_cases hne : name = []
    · simpa [emmaResourceAdd, if_pos hne] using b
    cases hres : (st.tree.emmaGetResource name root).resource with
    | some i => simpa [emmaResourceAdd, if_neg hne, hres] using b
    | none =>
      obtain ⟨n, pool, -, ⟨-, e⟩ | ⟨slot, data, st₁, -, -, prepared, -, e⟩⟩ :=
        emmaResourceAdd_cases P b size root hne hres
      · rw [e]
        exact b.congr rfl rfl rfl fun _ => rfl
      · rw [e]
        split
        · exact prepared
        · obtain ⟨alloc, memory, agents⟩ := insert_balance
            (st₁.prepare P root n slot pool (basename name)) root
            (st.tree.emmaGetResource name root).folder n
          exact prepared.congr (insert_same _ _ _ _).2 alloc memory fun s => by rw [agents]

theorem emmaResourceDel_pools {uri : Text} {root : Root} {i slot : Nat}
    (hroot : emmaGetRoot uri = some root)
    (hi : (st.tree.emmaGetResource (emmaGetName uri) root).resource = some i)
    (leaf : (st.tree.links i).subRoot = none) (hdata : st.tree.data i = some slot) :
    (st.emmaResourceDel uri).2 = 0 ∧
      (st.emmaResourceDel uri).1.tree.pool = st.tree.pool.free i ∧
      (st.emmaResourceDel uri).1.alloc =
        Function.update st.alloc root ((st.alloc root).free slot) ∧
      (st.emmaResourceDel uri).1.memory = (st.freeData root slot).memory ∧
      (st.emmaResourceDel uri).1.agents = st.agents := by
  obtain ⟨same, alloc, pool⟩ := @extract_same (st.freeData root slot) root
    (st.tree.emmaGetResource (emmaGetName uri) root) i
  have memory : ((st.freeData root slot).extract root
      (st.tree.emmaGetResource (emmaGetName uri) root) i).memory =
      (st.freeData root slot).memory := by
    unfold extract
    repeat' split
    all_goals rfl
  rw [freeData_alloc] at alloc
  rw [freeData_tree] at pool
  simp only [emmaResourceDel, hroot, hi, leaf, hdata, Option.isSome_none, Bool.false_eq_true,
    if_false]
  exact ⟨trivial, by rw [pool], alloc, memory, same.agents.trans (freeData_same root slot).agents⟩

theorem Balanced.del {f : Root → Forest Nat} (b : st.Balanced) (so : st.Sound f) (uri : Text) :
    (st.emmaResourceDel uri).1.Balanced := by
  cases hroot : emmaGetRoot uri with
  | none => simpa [emmaResourceDel, hroot] using b
  | some root =>
    cases hi : (st.tree.emmaGetResource (emmaGetName uri) root).resource with
    | none => simpa [emmaResourceDel, hroot, hi] using b
    | some i =>
      cases leaf : (st.tree.links i).subRoot with
      | some c => simpa [emmaResourceDel, hroot, hi, leaf] using b
      | none =>
        have live : i ∈ (f root).walk := by
          have := (so.shape.emmaGetResource_spec (emmaGetName uri) root).1
          rw [hi] at this
          exact Forest.find_mem this.symm
        obtain ⟨slot, hdata, used⟩ := so.slot root i live
        have inUse := so.shape.used root i live
        have freed := Pool.count_free used
        have less := Pool.count_free inUse
        obtain ⟨-, pool, alloc, memory, agents⟩ := emmaResourceDel_pools hroot hi leaf hdata
        generalize (st.emmaResourceDel uri).1 = t at pool alloc memory agents ⊢
        have sizes (r : Root) : (t.alloc r).used.length = rootMaxAlloc r := by
          rw [alloc]
          by_cases e : r = root
          · rw [e, Function.update_self, Pool.length_free, b.size]
          · rw [Function.update_of_ne e, b.size]
        have counted : t.tree.pool.count =
            (t.alloc .agent).count + (t.alloc .resource).count + (t.alloc .system).count := by
          have before := b.count
          rw [pool, alloc]
          cases root <;>
            simp only [Function.update_self, Function.update_of_ne, ne_eq, reduceCtorEq,
              not_false_eq_true] <;> omega
        by_cases agent : root = .agent
        case neg =>
          have same : t.alloc .agent = st.alloc .agent := by
            rw [alloc, Function.update_of_ne (Ne.symm agent)]
          have table : t.memory = st.memory := by
            rw [memory]
            cases root with
            | agent => exact absurd rfl agent
            | resource => rfl
            | system => rfl
          refine ⟨sizes, counted, fun k hk => ?_, fun s => ?_, fun s s' => ?_⟩
          · simp only [same, table, agents]
            exact b.file k hk
          · simp only [same, agents]
            exact b.inTable s
          · simp only [same, agents]
            exact b.apart s s'
        subst agent
        have usedIff (s : Nat) : (t.alloc .agent).Used s ↔ s ≠ slot ∧ (st.alloc .agent).Used s := by
          rw [alloc, Function.update_self]
          exact Pool.used_free _ _ _
        have table : t.memory = Function.update st.memory (st.agents slot).memoryIndex false := memory
        refine ⟨sizes, counted, fun k hk => ?_, fun s hs => ?_, fun s s' hs hs' => ?_⟩
        · simp only [table, agents]
          by_cases e : k = (st.agents slot).memoryIndex
          · rw [e, Function.update_self]
            refine iff_of_false (by simp) ?_
            rintro ⟨s, hs, same⟩
            exact ((usedIff s).mp hs).1 (b.apart s slot ((usedIff s).mp hs).2 used same)
          · rw [Function.update_of_ne e, b.file k hk]
            constructor
            · rintro ⟨s, hs, rfl⟩
              exact ⟨s, (usedIff s).mpr ⟨fun h => e (h ▸ rfl), hs⟩, rfl⟩
            · rintro ⟨s, hs, rfl⟩
              exact ⟨s, ((usedIff s).mp hs).2, rfl⟩
        · simp only [agents]
          exact b.inTable s ((usedIff s).mp hs).2
        · simp only [agents]
          exact b.apart s s' ((usedIff s).mp hs).2 ((usedIff s').mp hs').2

end Store

namespace Agent
variable {P : Platform}

theorem watch_frame (state : JsonState) (c : UInt8) (cnt : Nat) (patterns : List Pattern)
    (a : Agent) : (a.watch P state c cnt patterns).1.memoryIndex = a.memoryIndex ∧
      (a.watch P state c cnt patterns).1.size = a.size := by
  induction patterns generalizing a with
  | nil => exact ⟨rfl, rfl⟩
  | cons p rest ih =>
    simp only [watch]
    split_ifs
    · exact ih _
    · exact ⟨rfl, rfl⟩
    · exact ih _

theorem scan_frame (block : Text) (cnt : Nat) (a : Agent) :
    (a.scan P block cnt).1.memoryIndex = a.memoryIndex ∧ (a.scan P block cnt).1.size = a.size := by
  induction block generalizing cnt a with
  | nil => exact ⟨rfl, rfl⟩
  | cons c rest ih =>
    simp only [scan]
    rcases hp : a.parser.parse c 1 with ⟨parser, state⟩
    have frame := watch_frame (P := P) state c cnt Pattern.all { a with parser }
    revert frame
    simp only
    rcases watch P state c cnt Pattern.all { a with parser } with ⟨b, _ | _⟩
    · rintro ⟨index, size⟩
      exact ⟨(ih _ b).1.trans index, (ih _ b).2.trans size⟩
    · exact id

theorem analyzeBlock_memoryIndex (a : Agent) (block : Text) (blockIndex : Int) :
    (a.analyzeBlock P block blockIndex).1.memoryIndex = a.memoryIndex := by
  unfold analyzeBlock
  simp only
  split
  · exact (scan_frame block 0 a.reset).1
  · exact (scan_frame block 0 a).1

end Agent

namespace Store
variable {P : Platform} {st : Store}

theorem rootAgentWrite_balance (st : Store) (slot : Nat) (block : Text) (blockIndex : Int) :
    (st.rootAgentWrite P slot block blockIndex).1.memory = st.memory ∧
    ∀ s, ((st.rootAgentWrite P slot block blockIndex).1.agents s).memoryIndex =
      (st.agents s).memoryIndex := by
  have kept := (st.agents slot).analyzeBlock_memoryIndex (P := P) block blockIndex
  have updated (a : Agent) (same : a.memoryIndex = (st.agents slot).memoryIndex) (s : Nat) :
      (Function.update st.agents slot a s).memoryIndex = (st.agents s).memoryIndex := by
    by_cases e : s = slot
    · rw [e, Function.update_self, same]
    · rw [Function.update_of_ne e]
  unfold rootAgentWrite
  rcases h : (st.agents slot).analyzeBlock P block blockIndex with ⟨a, _ | _⟩
  · rw [h] at kept
    simp only
    split
    · exact ⟨rfl, updated a kept⟩
    · exact ⟨rfl, updated _ kept⟩
  · rw [h] at kept
    exact ⟨rfl, updated a kept⟩

theorem apply_balance (op : StoreOp) (add : ∀ root name, op ≠ .add root name)
    (del : ∀ uri, op ≠ .del uri) : (st.apply P op).memory = st.memory ∧
      ∀ slot, ((st.apply P op).agents slot).memoryIndex = (st.agents slot).memoryIndex := by
  cases op with
  | add root name => exact absurd rfl (add root name)
  | del uri => exact absurd rfl (del uri)
  | lock uri =>
    simp only [Store.apply, emmaResourceLock]
    split
    · split <;> exact ⟨rfl, fun _ => rfl⟩
    · exact ⟨rfl, fun _ => rfl⟩
  | release uri =>
    simp only [Store.apply, emmaResourceRelease]
    split <;> exact ⟨rfl, fun _ => rfl⟩
  | setLastModified uri key =>
    simp only [Store.apply]
    split <;> exact ⟨rfl, fun _ => rfl⟩
  | setClocktime uri clocktime =>
    simp only [Store.apply, emmaResourceSetClocktime]
    split <;> exact ⟨rfl, fun _ => rfl⟩
  | writeAgent uri block blockIndex =>
    simp only [Store.apply]
    split
    · exact rootAgentWrite_balance st _ block blockIndex
    · exact ⟨rfl, fun _ => rfl⟩
  | setValue uri value =>
    simp only [Store.apply]
    split <;> exact ⟨rfl, fun _ => rfl⟩

theorem Balanced.apply {f : Root → Forest Nat} (b : st.Balanced) (so : st.Sound f) (op : StoreOp) :
    (st.apply P op).Balanced := by
  by_cases add : ∃ root name, op = .add root name
  · obtain ⟨root, name, rfl⟩ := add
    exact b.add so.shape.size root name
  by_cases del : ∃ uri, op = .del uri
  · obtain ⟨uri, rfl⟩ := del
    exact b.del so uri
  have add (root : Option Root) (name : Text) : op ≠ .add root name := fun e => add ⟨root, name, e⟩
  have del (uri : Text) : op ≠ .del uri := fun e => del ⟨uri, e⟩
  obtain ⟨tree, alloc⟩ := apply_same (P := P) op add del
  obtain ⟨memory, index⟩ := apply_balance (P := P) op add del
  exact b.congr (congrArg Tree.pool tree) alloc memory index

theorem Reached.balanced (h : st.Reached P) : st.Balanced := by
  obtain ⟨files, run⟩ := h
  refine (run.keeps (I := fun st => (∃ f, st.Sound f) ∧ st.Balanced)
    (fun t op u _ step ⟨⟨f, so⟩, b⟩ => ?_) ⟨⟨_, sound_empty files⟩, balanced_empty files⟩).2
  cases step
  exact ⟨so.apply op, b.apply so op⟩

/-- As many resources as blocks of data are in use, so there is always a block for one more. -/
theorem Reached.pools_in_step (h : st.Reached P) :
    st.tree.pool.count =
      (st.alloc .agent).count + (st.alloc .resource).count + (st.alloc .system).count ∧
    st.tree.pool.count ≤ 5 + 5 + 6 ∧ 5 + 5 + 6 < emmaMaxResources ∧ st.tree.pool.alloc ≠ none ∧
    ∀ root name, (st.emmaResourceAdd P root name).2 ≠ 3 := by
  have b := h.balanced
  obtain ⟨f, so⟩ := h.sound
  have room := b.pool_alloc so.shape.size
  refine ⟨b.count, ?_, by decide, Option.isSome_iff_ne_none.mp room, fun root name => ?_⟩
  · have a := (st.alloc .agent).count_le
    have l := (st.alloc .resource).count_le
    have s := (st.alloc .system).count_le
    rw [b.size] at a l s
    rw [b.count]
    exact Nat.add_le_add (Nat.add_le_add a l) s
  · cases root with
    | none => simp [emmaResourceAdd]
    | some root =>
      by_cases hne : name = []
      · simp [emmaResourceAdd, if_pos hne]
      cases missing : (st.tree.emmaGetResource name root).resource with
      | some i => simp [emmaResourceAdd, if_neg hne, missing]
      | none =>
        obtain ⟨n, pool, -, ⟨-, e⟩ | ⟨slot, data, st₁, -, -, -, -, e⟩⟩ :=
          emmaResourceAdd_cases P b so.shape.size root hne missing
        · simp [e]
        · rw [e]
          split <;> simp

/-- Two creations of one name, the second of which fails, and a deletion -/
theorem pools_in_step_again :
    ((((empty fun _ => none).apply .plain (.add (some .agent) (chars ['x']))).apply .plain
      (.add (some .agent) (chars ['x']))).apply .plain (.del (chars ['A', '/', 'x']))).tree.pool.alloc
        ≠ none := by
  refine (Reached.pools_in_step (P := .plain) ⟨fun _ => none, ?_⟩).2.2.2.1
  exact ((Runs.refl.tail trivial rfl).tail trivial rfl).tail trivial rfl

end Store
end EmmaNode

import EmmaNode.StoreBalance

/-! What a creation leaves behind that fails. All its exits leave the forest and the pools as
they were, except the last one: when the folder of the new resource is missing, the blocks
that have been taken for it stay taken, and the mark of an agent's file with them. -/

namespace EmmaNode

/-- The same forest, and the same blocks in use -/
structure Store.Unchanged (st st' : Store) : Prop where
  list : st'.tree.list = st.tree.list
  links : ∀ r i, st.tree.Live r i → st'.tree.links i = st.tree.links i
  name : ∀ r i, st.tree.Live r i → st'.tree.name i = st.tree.name i
  data : ∀ r i, st.tree.Live r i → st'.tree.data i = st.tree.data i
  pool : st'.tree.pool = st.tree.pool
  alloc : st'.alloc = st.alloc
  memory : st'.memory = st.memory

/-- There is room for the resource, but not the folder it is to be put into. -/
def Store.Stranded (st : Store) (root : Option Root) (name : Text) : Prop :=
  ∃ r, root = some r ∧ name ≠ [] ∧ (st.tree.emmaGetResource name r).resource = none ∧
    (st.tree.emmaGetResource name r).folder = none ∧ nameIsBasic name = false ∧
    (st.alloc r).alloc.isSome

namespace Store
variable {P : Platform} {st : Store}

theorem Unchanged.refl (st : Store) : st.Unchanged st :=
  ⟨rfl, fun _ _ _ => rfl, fun _ _ _ => rfl, fun _ _ _ => rfl, rfl, rfl, rfl⟩

theorem unchanged_clean {f : Root → Forest Nat} (so : st.Sound f) {n : Nat}
    (free : ¬st.tree.pool.Used n) : st.Unchanged (st.cleanResource n) := by
  have other (r : Root) (i : Nat) (live : st.tree.Live r i) : i ≠ n := by
    rintro rfl
    exact free (so.shape.used r i ((so.shape.live_iff r i).mp live))
  refine ⟨rfl, fun r i live => ?_, fun r i live => ?_, fun r i live => ?_, rfl, rfl, rfl⟩
  · exact Function.update_of_ne (other r i live) _ _
  · exact Function.update_of_ne (other r i live) _ _
  · exact Function.update_of_ne (other r i live) _ _

/-- A creation that fails changes nothing unless it is one into a missing folder. -/
theorem failedAdd_unchanged_iff (h : st.Reached P) (root : Option Root) (name : Text) :
    ((st.emmaResourceAdd P root name).2 ≠ 0 → st.Unchanged (st.emmaResourceAdd P root name).1) ↔
      ¬st.Stranded root name := by
  obtain ⟨f, so⟩ := h.sound
  have b := h.balanced
  have unchanged (e : (st.emmaResourceAdd P root name).1 = st) (s : ¬st.Stranded root name) :
      ((st.emmaResourceAdd P root name).2 ≠ 0 → st.Unchanged (st.emmaResourceAdd P root name).1) ↔
        ¬st.Stranded root name := by
    rw [e]
    exact iff_of_true (fun _ => .refl st) s
  cases root with
  | none => exact unchanged rfl fun ⟨r, e, _⟩ => by cases e
  | some root =>
    by_cases hne : name = []
    · exact unchanged (by simp [emmaResourceAdd, if_pos hne]) fun ⟨_, _, s, _⟩ => s hne
    cases hres : (st.tree.emmaGetResource name root).resource with
    | some i =>
      refine unchanged (by simp [emmaResourceAdd, if_neg hne, hres]) ?_
      rintro ⟨r, e, -, none, -⟩
      cases e
      rw [hres] at none
      cases none
    | none =>
      obtain ⟨n, pool, hpool, ⟨full, e⟩ | ⟨slot, data, st₁, hdata, -, -, alloc, e⟩⟩ :=
        emmaResourceAdd_cases P b so.shape.size root hne hres
      · rw [e]
        refine iff_of_true (fun _ => unchanged_clean so (Pool.alloc_fresh hpool)) ?_
        rintro ⟨r, er, -, -, -, -, room⟩
        cases er
        rw [full] at room
        cases room
      · rw [e]
        by_cases missing : (st.tree.emmaGetResource name root).folder.isNone ∧ !nameIsBasic name
        · rw [if_pos missing]
          have stranded : st.Stranded (some root) name := by
            refine ⟨root, rfl, hne, hres, ?_, ?_, by rw [hdata]; rfl⟩
            · exact Option.isNone_iff_eq_none.mp missing.1
            · simpa using missing.2
          refine iff_of_false (fun same => ?_) (not_not_intro stranded)
          -- one block more of the root's data is in use
          have taken := (same (by simp)).alloc
          rw [alloc] at taken
          have used := (Pool.used_alloc hdata slot).mpr (.inl rfl)
          have fresh := Pool.alloc_fresh hdata
          have : data = st.alloc root := by
            simpa using congrFun taken root
          exact fresh (this ▸ used)
        · rw [if_neg missing]
          refine iff_of_true (fun failed => absurd rfl failed) ?_
          rintro ⟨r, er, -, -, folder, deep, -⟩
          cases er
          exact missing ⟨by rw [folder]; rfl, by rw [deep]; rfl⟩

def fullAgents : Store :=
  (['a', 'b', 'c', 'd', 'e'].map fun c => StoreOp.add (some .agent) (chars [c])).foldl
    (apply .plain) (empty fun _ => none)

/-- For a sixth agent a node is taken, and given back when there is no block for its data. -/
theorem failedAdd_sixth :
    (fullAgents.emmaResourceAdd .plain (some .agent) (chars ['f'])).2 = 4 ∧
      fullAgents.Unchanged (fullAgents.emmaResourceAdd .plain (some .agent) (chars ['f'])).1 := by
  have reached : fullAgents.Reached .plain := reached_foldl .plain _ _
  have failed : (fullAgents.emmaResourceAdd .plain (some .agent) (chars ['f'])).2 = 4 := by
    decide +kernel
  refine ⟨failed, (failedAdd_unchanged_iff reached (some .agent) (chars ['f'])).mpr ?_
    (by rw [failed]; decide)⟩
  rintro ⟨root, agent, -, -, -, -, room⟩
  obtain rfl := Option.some.inj agent
  exact absurd room (by decide +kernel)

def strayName : Text := chars ['f', '/', 'x']

/-- A creation in a missing folder keeps a block of data for nothing. -/
theorem failedAdd_leaks : ¬ ∀ (P : Platform) (st : Store) (root : Option Root) (name : Text),
    st.Reached P → (st.emmaResourceAdd P root name).2 ≠ 0 →
    st.Unchanged (st.emmaResourceAdd P root name).1 := by
  intro h
  have reached : (empty fun _ => none).Reached .plain := ⟨_, .refl⟩
  have failed : ((empty fun _ => none).emmaResourceAdd .plain (some .resource) strayName).2 ≠ 0 := by
    decide +kernel
  have same := (h .plain _ _ _ reached failed).alloc
  have other : ((empty fun _ => none).emmaResourceAdd .plain (some .resource) strayName).1.alloc
      .resource ≠ (empty fun _ => none).alloc .resource := by decide +kernel
  exact other (congrFun same .resource)

end Store
end EmmaNode

import EmmaNode.StoreShape
import EmmaNode.Frame

/-! Every reachable store is sound. Which of its resources are locked changes with locks,
releases, creations and deletions only; each of them is described by one lemma. -/

namespace EmmaNode

namespace Store
variable {P : Platform} {st st' : Store} {f : Root → Forest Nat}

theorem sound_empty (files : Nat → Option Text) : (empty files).Sound fun _ => .nil where
  shape := ⟨fun _ => rfl, fun _ => List.nodup_nil, fun _ _ _ h => by simp [Forest.walk] at h,
    fun _ _ h => by simp [Forest.walk] at h, Pool.length_init _⟩
  slot _ _ h := by simp [Forest.walk] at h
  slotInj _ _ _ h := by simp [Forest.walk] at h

theorem Sound.content (so : st.Sound f) (tree : st'.tree = st.tree) (alloc : st'.alloc = st.alloc) :
    st'.Sound f := by
  refine ⟨tree ▸ so.shape, fun r i hi => ?_, fun r i j hi hj e => so.slotInj r i j hi hj ?_⟩
  · rw [tree, alloc]
    exact so.slot r i hi
  · rwa [tree] at e

theorem Sound.add (so : st.Sound f) (root : Option Root) (name : Text) :
    ∃ f', (st.emmaResourceAdd P root name).1.Sound f' := by
  obtain ⟨-, ⟨-, h⟩ | ⟨-, r, folder, n, -, h⟩⟩ := emmaResourceAdd_spec P so root name
  · exact ⟨f, h⟩
  · exact ⟨_, h.sound⟩

theorem Sound.del (so : st.Sound f) (uri : Text) : ∃ f', (st.emmaResourceDel uri).1.Sound f' := by
  obtain ⟨root, i, -, -, -, h⟩ | ⟨-, h, -⟩ := emmaResourceDel_spec so uri
  · exact ⟨_, h.sound⟩
  · rw [h]
    exact ⟨f, so⟩

theorem sound_init (P : Platform) (files : Nat → Option Text) : ∃ f, (init P files).Sound f := by
  have keep : ∀ (names : List Text) (st : Store), (∃ f, st.Sound f) →
      ∃ f, (names.foldl (fun st name => (st.emmaResourceAdd P (some .system) name).1) st).Sound f := by
    intro names
    induction names with
    | nil => exact fun st h => h
    | cons name rest ih => exact fun st ⟨f, h⟩ => ih _ (h.add _ name)
  exact keep systemNames _ ⟨_, sound_empty files⟩

end Store

/-- The store is sound for some forests. -/
def State.Sound (s : State) : Prop := ∃ f, s.store.Sound f

theorem State.Sound.kept (P : Platform) : ServerKept P (fun _ => True) State.Sound where
  content c h := ⟨h.choose, h.choose_spec.content c.tree c.alloc⟩
  flags _ _ h := h
  count _ h := h
  setLastModifier _ _ h := h
  setLastModified {s} uri key _ h := by
    unfold State.setLastModified
    cases s.resolve uri with
    | none => exact h
    | some i => exact ⟨h.choose, h.choose_spec.content rfl rfl⟩
  lock {s} uri h := by
    obtain ⟨f, so⟩ := h
    refine ⟨f, so.content ?_ ?_⟩ <;>
      (simp only [State.lock, Store.emmaResourceLock]; split <;> [split; skip] <;> rfl)
  release {s} uri h := by
    obtain ⟨f, so⟩ := h
    refine ⟨f, so.content ?_ ?_⟩ <;>
      (simp only [State.release, Store.emmaResourceRelease]; split <;> rfl)
  setClocktime {s} uri h := by
    obtain ⟨f, so⟩ := h
    refine ⟨f, so.content ?_ ?_⟩ <;>
      (simp only [State.setClocktime, Store.emmaResourceSetClocktime]; split <;> rfl)
  add {s} uri h := h.choose_spec.add _ _
  del {s} uri h := h.choose_spec.del uri

theorem System.ReachableBy.sound {P : Platform} {ok : System → Event → Prop} {s : System}
    (h : System.ReachableBy P ok s) : s.shared.Sound := by
  obtain ⟨files, env, run⟩ := h
  refine run.keeps (I := fun s => s.shared.Sound) (fun t e u _ step ht => ?_) ?_
  · exact (State.Sound.kept P).step (fun _ => trivial) (fun _ h => h) step ht
  · simp only [State.Sound, System.init, State.init]
    exact Store.sound_init P files

/-- The block `i` is in use and its mutex is locked. -/
def State.Locked (s : State) (i : Nat) : Prop :=
  s.store.tree.pool.Used i ∧ s.store.mutex i = .locked

instance (s : State) (i : Nat) : Decidable (s.Locked i) := inferInstanceAs (Decidable (_ ∧ _))

namespace Store
variable {P : Platform} {st : Store}

theorem emmaResourceAdd_mutex (root : Option Root) (name : Text) :
    (st.emmaResourceAdd P root name).1.tree.pool = st.tree.pool ∧
      (st.emmaResourceAdd P root name).1.mutex = st.mutex ∨
    ∃ n pool, st.tree.pool.alloc = some (n, pool) ∧
      (st.emmaResourceAdd P root name).1.mutex = Function.update st.mutex n .released ∧
      ((st.emmaResourceAdd P root name).1.tree.pool = st.tree.pool ∨
        (st.emmaResourceAdd P root name).1.tree.pool = pool) := by
  cases root with
  | none => exact .inl ⟨rfl, rfl⟩
  | some root =>
    by_cases hne : name = []
    · simp [emmaResourceAdd, if_pos hne]
    cases hres : (st.tree.emmaGetResource name root).resource with
    | some i => simp [emmaResourceAdd, if_neg hne, hres]
    | none =>
      have add := emmaResourceAdd_eq P st root hne hres
      cases hpool : st.tree.pool.alloc with
      | none =>
        simp only [hpool] at add
        simp [add]
      | some pair =>
        obtain ⟨n, pool⟩ := pair
        cases hdata : (st.cleanResource n).allocData root with
        | mk st₁ slot =>
          obtain ⟨same, -⟩ := allocData_spec (st.cleanResource n) root
          simp only [hpool, hdata] at add same
          refine .inr ⟨n, pool, rfl, ?_⟩
          rw [add]
          cases slot with
          | none =>
            have tree : st₁.tree = st.tree.clean n := same.tree
            exact ⟨same.mutex, .inl (by simp only [tree, Tree.clean])⟩
          | some slot =>
            obtain ⟨tree, -, mutex, -⟩ := prepare_spec st₁ P root n slot pool (basename name)
            have prepared : (st₁.prepare P root n slot pool (basename name)).mutex =
                Function.update st.mutex n .released := mutex.trans same.mutex
            simp only
            split_ifs
            · exact ⟨prepared, .inr (by rw [tree])⟩
            · obtain ⟨mutex', pool'⟩ := insert_same (st₁.prepare P root n slot pool (basename name))
                root (st.tree.emmaGetResource name root).folder n
              exact ⟨mutex'.trans prepared, .inr (by rw [pool', tree])⟩

end Store

namespace State
variable {P : Platform} {s t : State}

theorem Sound.resolve_live (so : s.Sound) {uri : Text} {i : Nat} (h : s.resolve uri = some i) :
    ∃ r, s.store.tree.Live r i := by
  obtain ⟨f, so⟩ := so
  obtain ⟨r, -, hi⟩ := so.shape.resolve_mem h
  exact ⟨r, (so.shape.live_iff r i).mpr hi⟩

theorem Sound.live_used (so : s.Sound) {r : Root} {i : Nat} (h : s.store.tree.Live r i) :
    s.store.tree.pool.Used i := by
  obtain ⟨f, so⟩ := so
  exact so.shape.used r i ((so.shape.live_iff r i).mp h)

theorem Sound.resolve_used (so : s.Sound) {uri : Text} {i : Nat} (h : s.resolve uri = some i) :
    s.store.tree.pool.Used i := (so.resolve_live h).elim fun _ live => so.live_used live

theorem Content.locked_iff (c : Content s t) (i : Nat) : t.Locked i ↔ s.Locked i := by
  simp only [Locked, c.tree, c.mutex]

theorem locked_setLastModified (uri : Text) (key : Modifier) (i : Nat) :
    (s.setLastModified uri key).Locked i ↔ s.Locked i := by
  unfold setLastModified
  split <;> rfl

theorem locked_setClocktime (uri : Text) (i : Nat) :
    (s.setClocktime uri).Locked i ↔ s.Locked i := by
  simp only [setClocktime, Store.emmaResourceSetClocktime, Locked]
  split <;> rfl

theorem locked_release (uri : Text) (i : Nat) :
    (s.release uri).Locked i ↔ s.Locked i ∧ s.resolve uri ≠ some i := by
  simp only [release, Store.emmaResourceRelease, Locked, resolve]
  cases s.store.tree.resolve uri with
  | none => simp
  | some j =>
    by_cases hj : i = j
    · simp [hj]
    · simp [hj, Ne.symm hj]

theorem lock_cases (s : State) (uri : Text) :
    ((s.lock uri).2 = false ∧ (s.lock uri).1 = s ∧
      ∀ i, s.resolve uri = some i → s.store.mutex i = .locked) ∨
    (s.lock uri).2 = true ∧ ∃ i, s.resolve uri = some i ∧ s.store.mutex i = .released ∧
      (s.lock uri).1 = { s with store := { s.store with
        mutex := Function.update s.store.mutex i .locked } } := by
  simp only [lock, Store.emmaResourceLock, resolve]
  cases s.store.tree.resolve uri with
  | none => exact .inl ⟨rfl, rfl, by simp⟩
  | some i =>
    cases hm : s.store.mutex i with
    | locked => exact .inl ⟨by simp [hm], by simp [hm], fun j hj => by cases hj; exact hm⟩
    | released => exact .inr ⟨by simp [hm], i, rfl, hm, by simp [hm]⟩

theorem unlocked_released {i : Nat} (released : s.store.mutex i = .released) : ¬s.Locked i := by
  rintro ⟨-, locked⟩
  simp [released] at locked

theorem locked_update (so : s.Sound) {uri : Text} {i : Nat} (h : s.resolve uri = some i) (j : Nat) :
    ({ s with store := { s.store with mutex := Function.update s.store.mutex i .locked } } :
      State).Locked j ↔ s.Locked j ∨ j = i := by
  by_cases hj : j = i
  · subst hj
    simpa [Locked] using so.resolve_used h
  · simp [Locked, hj]

theorem locked_add (uri : Text) (i : Nat) : (s.add P uri).Locked i ↔ s.Locked i := by
  unfold Locked add
  rcases @Store.emmaResourceAdd_mutex P s.store (emmaGetRoot uri) (emmaGetName uri) with
    ⟨pool, mutex⟩ | ⟨n, m, alloc, mutex, pool⟩
  · simp only [pool, mutex]
  · have fresh := Pool.alloc_fresh alloc
    simp only [mutex]
    by_cases hi : i = n
    · subst hi
      simp [fresh]
    · rw [Function.update_of_ne hi]
      rcases pool with same | grown
      · rw [same]
      · rw [grown, Pool.used_alloc alloc]
        simp [hi]

theorem del_cases (so : s.Sound) (uri : Text) :
    ((s.del uri).2 = 0 ∧ ∃ i, s.resolve uri = some i ∧
      ∀ j, (s.del uri).1.Locked j ↔ s.Locked j ∧ j ≠ i) ∨
    (s.del uri).2 ≠ 0 ∧ (s.del uri).1.store = s.store := by
  obtain ⟨f, so⟩ := so
  rcases Store.emmaResourceDel_spec so uri with ⟨root, i, -, hi, hz, d⟩ | ⟨hn, same, -⟩
  · refine .inl ⟨hz, i, hi, fun j => ?_⟩
    have mutex : (s.del uri).1.store.mutex = s.store.mutex := d.same.mutex
    have pool : (s.del uri).1.store.tree.pool = s.store.tree.pool.free i := d.pool
    rw [Locked, mutex, pool, Pool.used_free, Locked]
    tauto
  · exact .inr ⟨hn, same⟩

end State
end EmmaNode

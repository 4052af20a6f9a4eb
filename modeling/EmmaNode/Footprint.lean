import EmmaNode.RoundTrip

/-! What a creation or a deletion touches. As long as names fit into their field, every
resource is found by its own way, so no two siblings have one name. Then no other resource is
shadowed, exposed or cut off when one is hung up or taken out. -/

namespace EmmaNode

namespace Store

/-- Each segment of the URI fits into the name field. -/
def FitsField (uri : Text) : Prop :=
  ∀ s ∈ Tree.path (emmaGetName uri), s.length < emmaResourceNameSize

instance (uri : Text) : Decidable (FitsField uri) := inferInstanceAs (Decidable (∀ _ ∈ _, _))

/-- The creation or the deletion of an URI that fits -/
def Fitting (_ : Store) (op : StoreOp) : Prop :=
  ∃ uri, FitsField uri ∧ (op = .add (emmaGetRoot uri) (emmaGetName uri) ∨ op = .del uri)

/-- Reached from the store of `emma_resource_init` by such calls only. -/
def ReachedFitting (P : Platform) (st : Store) : Prop :=
  ∃ files, Runs (fun st op => some (apply P st op)) Fitting (empty files) st

/-- The URI leads to the resource `i` it led to before, with all that it holds. -/
structure Keeps (st st' : Store) (uri : Text) (i : Nat) : Prop where
  found : st'.tree.resolve uri = some i
  data : st'.tree.data i = st.tree.data i
  mutex : st'.mutex i = st.mutex i
  lastModified : st'.lastModified i = st.lastModified i
  clocktime : st'.clocktime i = st.clocktime i
  agent : emmaGetRoot uri = some .agent → ∀ slot, st.tree.data i = some slot →
    st'.agents slot = st.agents slot
  value : emmaGetRoot uri = some .resource → ∀ slot, st.tree.data i = some slot →
    st'.values slot = st.values slot
  files : st'.files = st.files

def Findable (st : Store) (f : Root → Forest Nat) : Prop :=
  ∀ r, ∀ j ∈ (f r).walk, (f r).find st.tree.name ((f r).way st.tree.name j) = some j

variable {P : Platform} {st st' : Store} {f f' : Root → Forest Nat} {root : Root} {name uri : Text}
variable {n z : Nat}

theorem Added.named_of_fits (a : Added P st f root (emmaGetName uri) n f')
    (fits : FitsField uri) : (st.emmaResourceAdd P (some root) (emmaGetName uri)).1.tree.name n =
      basename (emmaGetName uri) := by
  obtain ⟨slot, -, stored⟩ := a.pools
  obtain ⟨pre, s, last, split, clear, -⟩ := pathSegments_eq (emmaGetName uri)
  have path : Tree.path (emmaGetName uri) = pre ++ [s] := by
    rw [Tree.path, split, List.map_append, List.map_map]
    simp [Function.comp_def]
  have base := a.whole.basename_eq path clear
  have short := fits s (by rw [path]; simp)
  rw [stored, storedName, base, if_pos short]

theorem Added.elsewhere (a : Added P st f root name n f') {r : Root} (hr : r ≠ root) :
    f' r = f r := by
  have same := congrFun a.erased r
  rwa [setForest, Function.update_of_ne hr] at same

theorem Added.names (a : Added P st f root name n f') (r : Root) : ∀ j ∈ (f r).walk,
    (st.emmaResourceAdd P (some root) name).1.tree.name j = st.tree.name j :=
  fun j hj => a.grown.name r j hj

theorem Added.find_eq (so : st.Sound f) (a : Added P st f root name n f')
    (named : (st.emmaResourceAdd P (some root) name).1.tree.name n = basename name)
    (path : List Text) :
    (f' root).find (st.emmaResourceAdd P (some root) name).1.tree.name path =
        (f root).find st.tree.name path ∨
      (f' root).find (st.emmaResourceAdd P (some root) name).1.tree.name path = some n := by
  have found := a.found
  rw [if_pos named] at found
  have nd := a.sound.shape.nodup root
  have way := Forest.way_find nd found
  have missing := a.missing
  rw [(so.shape.emmaGetResource_spec name root).1] at missing
  have erased : (f' root).erase n = f root := by
    have same := congrFun a.erased root
    rwa [setForest, Function.update_self] at same
  have before (path : List Text) :
      (f root).find (st.emmaResourceAdd P (some root) name).1.tree.name path =
        (f root).find st.tree.name path := Forest.find_congr (a.names root)
  rcases Forest.find_of_erase (st.emmaResourceAdd P (some root) name).1.tree.name path nd a.leaf
    with same | here | ⟨m, hm⟩
  · rw [erased, before] at same
    exact .inl same
  · exact .inr here
  · rw [erased, way, before, missing] at hm
    cases hm

theorem Added.findable (so : st.Sound f) (a : Added P st f root name n f')
    (named : (st.emmaResourceAdd P (some root) name).1.tree.name n = basename name)
    (findable : st.Findable f) : (st.emmaResourceAdd P (some root) name).1.Findable f' := by
  intro r j hj
  by_cases hr : r = root
  · subst hr
    have found := a.found
    rw [if_pos named] at found
    have nd := a.sound.shape.nodup r
    have way := Forest.way_find nd found
    rcases (a.mem r j).mp hj with ⟨-, rfl⟩ | old
    · rw [way, found]
    · have missing := a.missing
      rw [(so.shape.emmaGetResource_spec name r).1] at missing
      rw [a.way j old]
      rcases a.find_eq so named ((f r).way st.tree.name j) with same | here
      · rw [same, findable r j old]
      · have clash := (Forest.way_find nd here).symm.trans way
        rw [← clash, findable r j old] at missing
        cases missing
  · rw [a.elsewhere hr] at hj ⊢
    rw [Forest.way_congr (a.names r), Forest.find_congr (a.names r)]
    exact findable r j hj

theorem Added.resolve_old (so : st.Sound f) (a : Added P st f root name n f')
    (named : (st.emmaResourceAdd P (some root) name).1.tree.name n = basename name) (v : Text) :
    (st.emmaResourceAdd P (some root) name).1.tree.resolve v = st.tree.resolve v ∨
      (st.emmaResourceAdd P (some root) name).1.tree.resolve v = some n := by
  rw [a.sound.shape.resolve_eq, so.shape.resolve_eq]
  cases emmaGetRoot v with
  | none => exact .inl rfl
  | some r =>
    simp only [Option.bind_some]
    by_cases hr : r = root
    · subst hr
      exact a.find_eq so named _
    · rw [a.elsewhere hr, Forest.find_congr (a.names r)]
      exact .inl rfl

theorem Added.keeps (so : st.Sound f) (a : Added P st f root name n f')
    (named : (st.emmaResourceAdd P (some root) name).1.tree.name n = basename name) {v : Text}
    {i : Nat} (hi : st.tree.resolve v = some i) :
    st.Keeps (st.emmaResourceAdd P (some root) name).1 v i := by
  obtain ⟨r, hr, mem⟩ := so.shape.resolve_mem hi
  obtain ⟨slot, hslot, used⟩ := so.slot r i mem
  have other : i ≠ n := fun e => a.fresh r (e ▸ mem)
  have g := a.grown
  have found : (st.emmaResourceAdd P (some root) name).1.tree.resolve v = some i := by
    rcases a.resolve_old so named v with same | here
    · rw [same, hi]
    · -- the new resource has a way of its own
      obtain ⟨r', hr', there⟩ := a.sound.shape.resolve_mem here
      rw [so.shape.resolve_eq, hr, Option.bind_some] at hi
      rw [a.sound.shape.resolve_eq, hr, Option.bind_some] at here
      obtain rfl : r = root := a.sound.shape.apart r root n (Forest.find_mem here)
        ((a.mem root n).mpr (.inl ⟨rfl, rfl⟩))
      have way := (Forest.way_find (a.sound.shape.nodup r) here).symm
      have found := a.found
      rw [if_pos named] at found
      rw [Forest.way_find (a.sound.shape.nodup r) found] at way
      have missing := a.missing
      rw [(so.shape.emmaGetResource_spec name r).1, ← way, hi] at missing
      cases missing
  refine ⟨found, g.data r i mem, g.mutex r i mem, g.lastModified r i mem, congrFun g.clocktime i,
    fun agent s hs => ?_, fun local' s hs => ?_, g.files⟩
  · obtain rfl : r = .agent := Option.some.inj (hr.symm.trans agent)
    obtain rfl : slot = s := Option.some.inj (hslot.symm.trans hs)
    exact g.agents slot used
  · obtain rfl : r = .resource := Option.some.inj (hr.symm.trans local')
    obtain rfl : slot = s := Option.some.inj (hslot.symm.trans hs)
    exact g.values slot used

theorem Deleted.way (so : st.Sound f) (d : Deleted st st' f root z) (findable : st.Findable f)
    {j : Nat} (hj : j ∈ (f root).walk) (ne : j ≠ z) :
    ((f root).erase z).find st.tree.name ((f root).way st.tree.name j) = some j ∧
      ((f root).erase z).way st.tree.name j = (f root).way st.tree.name j := by
  have leaf := (so.shape.rep root).leaf d.leaf
  have kept := Forest.find_erase (so.shape.nodup root) leaf (findable root j hj) ne
  have nd := d.sound.shape.nodup root
  rw [setForest, Function.update_self] at nd
  exact ⟨kept, Forest.way_find nd kept⟩

theorem Deleted.findable (so : st.Sound f) (d : Deleted st st' f root z)
    (findable : st.Findable f) : st'.Findable (setForest f root ((f root).erase z)) := by
  intro r j hj
  rw [d.same.name]
  by_cases hr : r = root
  · subst hr
    rw [setForest, Function.update_self] at hj ⊢
    have nd := so.shape.nodup r
    have ne : j ≠ z := by
      rintro rfl
      have perm := Forest.erase_perm d.mem nd ((so.shape.rep r).leaf d.leaf)
      exact (List.nodup_cons.mp (perm.nodup_iff.mp nd)).1 hj
    obtain ⟨found, way⟩ := d.way so findable (Forest.mem_of_mem_erase hj) ne
    rw [way, found]
  · rw [setForest, Function.update_of_ne hr] at hj ⊢
    exact findable r j hj

theorem Deleted.resolve_old (so : st.Sound f) (d : Deleted st st' f root z)
    (findable : st.Findable f) (v : Text) :
    st'.tree.resolve v = st.tree.resolve v ∨ st.tree.resolve v = some z := by
  rw [d.sound.shape.resolve_eq, so.shape.resolve_eq, d.same.name]
  cases emmaGetRoot v with
  | none => exact .inl rfl
  | some r =>
    simp only [Option.bind_some]
    by_cases hr : r = root
    · subst hr
      rw [setForest, Function.update_self]
      have nd := so.shape.nodup r
      have leaf := (so.shape.rep r).leaf d.leaf
      rcases Forest.find_of_erase st.tree.name (Tree.path (emmaGetName v)) nd leaf with
        same | here | ⟨m, hm⟩
      · exact .inl same.symm
      · exact .inr here
      · -- `m` would be found where the leaf is
        have perm := Forest.erase_perm d.mem nd leaf
        have inside := Forest.find_mem hm
        have ne : m ≠ z := fun e => (List.nodup_cons.mp (perm.nodup_iff.mp nd)).1 (e ▸ inside)
        obtain ⟨-, way⟩ := d.way so findable (Forest.mem_of_mem_erase inside) ne
        have nd' := (List.nodup_cons.mp (perm.nodup_iff.mp nd)).2
        have one := (Forest.way_find nd' hm).symm.trans way
        have clash := findable r m (Forest.mem_of_mem_erase inside)
        rw [← one, findable r z d.mem] at clash
        exact absurd (Option.some.inj clash).symm ne
    · rw [setForest, Function.update_of_ne hr]
      exact .inl rfl

theorem Deleted.keeps (so : st.Sound f) (d : Deleted st st' f root z) (findable : st.Findable f)
    {v : Text} {i : Nat} (hi : st.tree.resolve v = some i) (ne : i ≠ z) : st.Keeps st' v i := by
  have found : st'.tree.resolve v = some i := by
    rcases d.resolve_old so findable v with same | here
    · rw [same, hi]
    · exact absurd (Option.some.inj (hi.symm.trans here)) ne
  have same := d.same
  exact ⟨found, congrFun same.data i, congrFun same.mutex i, congrFun same.lastModified i,
    congrFun same.clocktime i, fun _ s _ => congrFun same.agents s,
    fun _ s _ => congrFun same.values s, same.files⟩

theorem ReachedFitting.reached (h : st.ReachedFitting P) : st.Reached P := by
  obtain ⟨files, run⟩ := h
  exact ⟨files, run.weaken fun _ _ _ => trivial⟩

theorem ReachedFitting.findable (h : st.ReachedFitting P) : ∃ f, st.Sound f ∧ st.Findable f := by
  obtain ⟨files, run⟩ := h
  have kept (t : Store) (op : StoreOp) (u : Store) (fitting : Fitting t op)
      (step : some (apply P t op) = some u)
      (inv : t.Balanced ∧ ∃ f, t.Sound f ∧ t.Findable f) :
      u.Balanced ∧ ∃ f, u.Sound f ∧ u.Findable f := by
    obtain ⟨b, f, so, findable⟩ := inv
    cases step
    refine ⟨b.apply so op, ?_⟩
    obtain ⟨uri, fits, rfl | rfl⟩ := fitting
    · simp only [apply]
      cases hroot : emmaGetRoot uri with
      | none => exact ⟨f, so, findable⟩
      | some root =>
        rcases emmaResourceAdd_spec P so (some root) (emmaGetName uri) with
          ⟨grown, ⟨-, sound⟩ | ⟨added, -⟩⟩
        · refine ⟨f, sound, fun r j hj => ?_⟩
          rw [Forest.way_congr (grown.name r), Forest.find_congr (grown.name r)]
          exact findable r j hj
        · obtain ⟨n, f', a⟩ := added_spec so b added
          exact ⟨f', a.sound, a.findable so (a.named_of_fits fits) findable⟩
    · simp only [apply]
      rcases emmaResourceDel_spec so uri with ⟨root, z, -, -, -, d⟩ | ⟨-, same, -⟩
      · exact ⟨_, d.sound, d.findable so findable⟩
      · rw [same]
        exact ⟨f, so, findable⟩
  refine (run.keeps kept ⟨balanced_empty files, _, sound_empty files, fun r j hj => ?_⟩).2
  simp [Forest.walk] at hj

/-- The URI and the URI with a slash name a new resource. All other URIs lead where they led,
and what they lead to is as it was. -/
def AddFrame (P : Platform) (st : Store) (uri : Text) : Prop :=
  let st' := (st.emmaResourceAdd P (emmaGetRoot uri) (emmaGetName uri)).1
  (∀ v i, st.tree.resolve v = some i → st.Keeps st' v i) ∧
    ∀ v, st.tree.resolve v = none →
      st'.tree.resolve v = none ∨ (v = uri ∨ v = uri ++ [slash]) ∧ ∃ n, st'.tree.resolve v = some n ∧
        st'.tree.resolve uri = some n ∧ ∀ w, st.tree.resolve w ≠ some n

/-- All URIs but those of the resource that is deleted lead where they led, and what they lead
to is as it was. -/
def DelFrame (st : Store) (uri : Text) : Prop :=
  let st' := (st.emmaResourceDel uri).1
  ∃ z, st.tree.resolve uri = some z ∧
    (∀ v i, st.tree.resolve v = some i → i ≠ z → st.Keeps st' v i) ∧
    ∀ v, st.tree.resolve v = none → st'.tree.resolve v = none

/-- As long as names fit, a creation and a deletion touch nothing but the resource named. -/
theorem ReachedFitting.frames (h : st.ReachedFitting P) (fits : FitsField uri) :
    ((st.emmaResourceAdd P (emmaGetRoot uri) (emmaGetName uri)).2 = 0 → st.AddFrame P uri) ∧
      ((st.emmaResourceDel uri).2 = 0 → st.DelFrame uri) := by
  obtain ⟨f, so, findable⟩ := h.findable
  have b := h.reached.balanced
  constructor
  · intro added
    unfold AddFrame
    cases hroot : emmaGetRoot uri with
    | none =>
      rw [hroot] at added
      simp [emmaResourceAdd] at added
    | some root =>
      rw [hroot] at added
      obtain ⟨n, f', a⟩ := added_spec so b added
      have named := a.named_of_fits fits
      refine ⟨fun v i hi => a.keeps so named hi, fun v absent => ?_⟩
      rcases a.resolve_old so named v with same | here
      · exact .inl (same.trans absent)
      · refine .inr ⟨(a.resolve_iff hroot named v).mp here, n, here,
          (a.resolve_iff hroot named uri).mpr (.inl rfl), fun w hw => ?_⟩
        obtain ⟨r, -, mem⟩ := so.shape.resolve_mem hw
        exact a.fresh r mem
  · intro deleted
    rcases emmaResourceDel_spec so uri with ⟨root, z, -, hz, -, d⟩ | ⟨failed, -⟩
    · refine ⟨z, hz, fun v i hi ne => d.keeps so findable hi ne, fun v absent => ?_⟩
      rcases d.resolve_old so findable v with same | here
      · exact same.trans absent
      · rw [absent] at here
        cases here
    · exact absurd deleted failed

/-- A folder and a resource in it, which is deleted -/
theorem frames_nested : (((empty fun _ => none).emmaResourceAdd .plain (some .resource)
    (chars ['f'])).1.emmaResourceAdd .plain (some .resource) (chars ['f', '/', 'x'])).1.DelFrame
      (chars ['L', '/', 'f', '/', 'x']) := by
  refine (ReachedFitting.frames (P := .plain) ⟨fun _ => none, ?_⟩ (by decide)).2
    (by decide +kernel)
  exact (Runs.refl.tail ⟨chars ['L', '/', 'f'], by decide, .inl rfl⟩ rfl).tail
    ⟨chars ['L', '/', 'f', '/', 'x'], by decide, .inl rfl⟩ rfl

end Store
end EmmaNode

import EmmaNode.Statelessness
import EmmaNode.StoreRenaming
import EmmaNode.RoundTrip
import EmmaNode.Returning
import EmmaNode.Transfer

/-! A PUT to a local resource goes on a node as on one that has just been initialised and holds
the same resources. Blocks a failed creation has lost may move the new resource to another
block; they show only when there is none left for it, or when its name no longer fits. -/

namespace EmmaNode

namespace Store
variable {P : Platform} {st st' : Store} {f : Root → Forest Nat}

theorem Renews.sound (renews : st.Renews st') (so : st.Sound f) : st'.Sound f where
  shape := by
    refine ⟨fun r => ?_, so.shape.nodup, so.shape.apart, fun r i hi => ?_, ?_⟩
    · rw [renews.same.tree.links, renews.same.tree.list]
      exact so.shape.rep r
    · exact (renews.pool i).mpr ⟨r, (so.shape.live_iff r i).mpr hi⟩
    · rw [renews.poolSize, so.shape.size]
  slot r i hi := by
    obtain ⟨slot, hslot, -⟩ := so.slot r i hi
    refine ⟨slot, by rw [renews.same.tree.data, hslot], ?_⟩
    exact (renews.alloc r slot).mpr ⟨i, (so.shape.live_iff r i).mpr hi, hslot⟩
  slotInj r i j hi hj e := by
    rw [renews.same.tree.data] at e
    exact so.slotInj r i j hi hj e

/-- A local resource can be made under a name: there are a place, a node and a block of data for
it, and its last segment fits into the field of its name. -/
def Makes (P : Platform) (st : Store) (name : Text) : Prop :=
  name ≠ [] ∧ ((st.tree.emmaGetResource name .resource).folder.isSome ∨ nameIsBasic name) ∧
    st.tree.pool.alloc.isSome ∧ ∃ block ∈ (st.alloc .resource).alloc,
      storedName P .resource block.1 (basename name) = basename name

instance (st : Store) (name : Text) : Decidable (st.Makes P name) :=
  inferInstanceAs (Decidable (_ ∧ _))

theorem failed_missing (so : st.Sound f) {uri : Text} {root : Root}
    (missing : st.tree.resolve uri = none)
    (failed : (st.emmaResourceAdd P (some root) (emmaGetName uri)).2 ≠ 0) :
    (st.emmaResourceAdd P (some root) (emmaGetName uri)).1.tree.resolve uri = none := by
  obtain ⟨grown, ⟨-, sound⟩ | ⟨added, -⟩⟩ := emmaResourceAdd_spec P so (some root) (emmaGetName uri)
  · rw [grown.resolve so sound, missing]
  · exact absurd added failed

/-- Where there are a node, a block and a place for it, a resource is added with the value zero;
it is found under its name unless that has been cut. -/
theorem emmaResourceAdd_placed (so : st.Sound f) {uri : Text} {n slot : Nat} {pool data : Pool}
    (hroot : emmaGetRoot uri = some .resource)
    (missing : (st.tree.emmaGetResource (emmaGetName uri) .resource).resource = none)
    (named : emmaGetName uri ≠ []) (hpool : st.tree.pool.alloc = some (n, pool))
    (hslot : (st.alloc .resource).alloc = some (slot, data))
    (placed : ¬((st.tree.emmaGetResource (emmaGetName uri) .resource).folder.isNone ∧
      !nameIsBasic (emmaGetName uri))) :
    Created (st.emmaResourceAdd P (some .resource) (emmaGetName uri)).1 f .resource
        (st.tree.emmaGetResource (emmaGetName uri) .resource).folder n ∧
      (st.emmaResourceAdd P (some .resource) (emmaGetName uri)).1.valueAt n = 0 ∧
      (st.emmaResourceAdd P (some .resource) (emmaGetName uri)).1.tree.resolve uri =
        if storedName P .resource slot (basename (emmaGetName uri)) = basename (emmaGetName uri)
        then some n else none := by
  have hdata : (st.cleanResource n).allocData .resource =
      ({ st.cleanResource n with alloc := Function.update st.alloc .resource data },
        some slot) := by
    simp only [allocData, cleanResource, hslot]
  have add := emmaResourceAdd_eq P st .resource named missing
  simp only [hpool, hdata] at add
  have prep := prepared P so hpool hdata (basename (emmaGetName uri))
  have found := @Sound.found_grow _ _ so .resource _ n missing placed _
    (prep.grown.name .resource)
  obtain ⟨-, -, inside⟩ := so.shape.emmaGetResource_spec (emmaGetName uri) .resource
  generalize ({ st.cleanResource n with
    alloc := Function.update st.alloc .resource data } : Store) = st₁ at *
  have zero :
      (st₁.prepare P .resource n slot pool (basename (emmaGetName uri))).valueAt n = 0 := by
    simp only [valueAt, prepare, fillResource, resetData, Function.update_self, Option.getD_some]
  have label : (st₁.prepare P .resource n slot pool (basename (emmaGetName uri))).tree.name n =
      storedName P .resource slot (basename (emmaGetName uri)) := by
    rw [(prepare_spec st₁ P .resource n slot pool (basename (emmaGetName uri))).1]
    exact Function.update_self ..
  rw [if_neg placed] at add
  generalize st₁.prepare P .resource n slot pool (basename (emmaGetName uri)) = st₂ at *
  generalize (st.tree.emmaGetResource (emmaGetName uri) .resource).folder = folder at *
  rw [add]
  obtain ⟨-, created⟩ := insert_spec so prep inside
  have names : (st₂.insert .resource folder n).tree.name = st₂.tree.name := by
    cases folder <;> rfl
  have value : (st₂.insert .resource folder n).valueAt n = st₂.valueAt n := by
    cases folder <;> rfl
  refine ⟨created, value.trans zero, ?_⟩
  rw [created.sound.shape.resolve_eq, hroot, Option.bind_some, names, found, label]

theorem emmaResourceAdd_made (so : st.Sound f) {uri : Text}
    (hroot : emmaGetRoot uri = some .resource) (missing : st.tree.resolve uri = none)
    (makes : st.Makes P (emmaGetName uri)) :
    ∃ n, (st.emmaResourceAdd P (some .resource) (emmaGetName uri)).1.tree.resolve uri = some n ∧
      Created (st.emmaResourceAdd P (some .resource) (emmaGetName uri)).1 f .resource
        (st.tree.emmaGetResource (emmaGetName uri) .resource).folder n ∧
      (st.emmaResourceAdd P (some .resource) (emmaGetName uri)).1.valueAt n = 0 := by
  obtain ⟨named, place, room, ⟨slot, data⟩, hslot, fits⟩ := makes
  obtain ⟨⟨n, pool⟩, hpool⟩ := Option.isSome_iff_exists.mp room
  have none' : (st.tree.emmaGetResource (emmaGetName uri) .resource).resource = none := by
    rw [Tree.resolve, hroot] at missing
    exact missing
  have placed : ¬((st.tree.emmaGetResource (emmaGetName uri) .resource).folder.isNone ∧
      !nameIsBasic (emmaGetName uri)) := by
    rintro ⟨nowhere, deep⟩
    rcases place with folder | basic
    · rw [Option.isNone_iff_eq_none.mp nowhere] at folder
      cases folder
    · rw [basic] at deep
      cases deep
  obtain ⟨created, zero, led⟩ :=
    emmaResourceAdd_placed (P := P) so hroot none' named hpool hslot placed
  exact ⟨n, by rw [led, if_pos fits], created, zero⟩

theorem emmaResourceAdd_fails (so : st.Sound f) {uri : Text}
    (hroot : emmaGetRoot uri = some .resource) (missing : st.tree.resolve uri = none)
    (makes : ¬st.Makes P (emmaGetName uri)) :
    (st.emmaResourceAdd P (some .resource) (emmaGetName uri)).1.tree.resolve uri = none := by
  have none' : (st.tree.emmaGetResource (emmaGetName uri) .resource).resource = none := by
    rw [Tree.resolve, hroot] at missing
    exact missing
  have failed := @failed_missing P st f so uri .resource missing
  by_cases named : emmaGetName uri = []
  · exact failed (by simp [emmaResourceAdd, named])
  have add := emmaResourceAdd_eq P st .resource named none'
  cases hpool : st.tree.pool.alloc with
  | none =>
    simp only [hpool] at add
    exact failed (by rw [add]; simp)
  | some pair =>
    obtain ⟨n, pool⟩ := pair
    cases hslot : (st.alloc .resource).alloc with
    | none =>
      have hdata : (st.cleanResource n).allocData .resource = (st.cleanResource n, none) := by
        simp only [allocData, cleanResource, hslot]
      simp only [hpool, hdata] at add
      exact failed (by rw [add]; simp)
    | some pair =>
      obtain ⟨slot, data⟩ := pair
      by_cases placed : (st.tree.emmaGetResource (emmaGetName uri) .resource).folder.isNone ∧
          !nameIsBasic (emmaGetName uri)
      · simp only [hpool, allocData, cleanResource, hslot, if_pos placed] at add
        exact failed (by rw [add]; simp)
      obtain ⟨-, -, led⟩ :=
        emmaResourceAdd_placed (P := P) so hroot none' named hpool hslot placed
      rw [led, if_neg]
      intro fits
      refine makes ⟨named, ?_, by rw [hpool]; rfl, (slot, data), hslot, fits⟩
      by_contra nowhere
      rw [not_or] at nowhere
      exact placed ⟨by simpa using nowhere.1, by simpa using nowhere.2⟩

theorem Sound.name_eq {f' : Root → Forest Nat} {uri : Text} {i j : Nat} (so : st.Sound f)
    (so' : st'.Sound f') (hi : st.tree.resolve uri = some i) (hj : st'.tree.resolve uri = some j) :
    st'.tree.name j = st.tree.name i := by
  obtain ⟨r, hroot, -⟩ := so.shape.resolve_mem hi
  rw [so.shape.resolve_eq, hroot, Option.bind_some] at hi
  rw [so'.shape.resolve_eq, hroot, Option.bind_some] at hj
  have way : ((f r).way st.tree.name i).dropLast ++ [st.tree.name i] = (f r).way st.tree.name i :=
    Forest.way_dropLast (Forest.find_mem hi)
  have way' : ((f' r).way st'.tree.name j).dropLast ++ [st'.tree.name j] =
      (f' r).way st'.tree.name j := Forest.way_dropLast (Forest.find_mem hj)
  rw [Forest.way_find (so.shape.nodup r) hi] at way
  rw [Forest.way_find (so'.shape.nodup r) hj] at way'
  have same := way'.trans way.symm
  simpa using same

def moved (n m : Nat) (i : Nat) : Nat := if i = n then m else i

theorem renamed_made {st₁ st₂ : Store} (so : st.Sound f) (so' : st'.Sound f) (same : st.Same st')
    {folder : Option Nat} {n m : Nat} (grown : Grown st st₁ f) (grown' : Grown st' st₂ f)
    (c : Created st₁ f .resource folder n) (c' : Created st₂ f .resource folder m)
    (name : st₂.tree.name m = st₁.tree.name n) (value : st₂.valueAt m = st₁.valueAt n) :
    Renamed (moved n m) (grow f .resource folder n) st₁ st₂ := by
  have stay {r : Root} {i : Nat} (hi : i ∈ (f r).walk) : moved n m i = i := by
    rw [moved, if_neg]
    rintro rfl
    exact c.fresh r hi
  have here : moved n m n = m := if_pos rfl
  have places : (fun r => (grow f .resource folder n r).map (moved n m)) =
      grow f .resource folder m := by
    funext r
    by_cases hr : r = .resource
    · subst hr
      simp only [grow, setForest, Function.update_self]
      cases folder with
      | none => simp only [Forest.map, here, Forest.map_fixed fun i hi => stay hi]
      | some p => rw [Forest.map_insertUnder fun i hi => stay hi, here]
    · simp only [grow, setForest, Function.update_of_ne hr]
      exact Forest.map_fixed fun i hi => stay hi
  have old {r : Root} {i : Nat} (hi : i ∈ (f r).walk) : ∃ slot, st₁.tree.data i = some slot ∧
      st₂.tree.data i = some slot ∧ (st.alloc r).Used slot ∧ (st'.alloc r).Used slot := by
    obtain ⟨slot, hslot, used⟩ := so.slot r i hi
    obtain ⟨slot', hslot', used'⟩ := so'.slot r i hi
    rw [same.tree.data, hslot] at hslot'
    obtain rfl := Option.some.inj hslot'
    refine ⟨slot, by rw [grown.data r i hi, hslot], ?_, used, used'⟩
    rw [grown'.data r i hi, same.tree.data, hslot]
  refine ⟨c.sound, places ▸ c'.sound, fun r i hi => ?_, fun i hi => ?_, fun i hi => ?_⟩
  · rcases (grow_mem so.shape c.mem r i).mp hi with ⟨-, rfl⟩ | hm
    · rw [here, name]
    · rw [stay hm, grown.name r i hm, grown'.name r i hm, same.tree.name]
  · rcases (grow_mem so.shape c.mem .agent i).mp hi with ⟨hr, -⟩ | hm
    · cases hr
    · obtain ⟨slot, hslot, hslot', used, used'⟩ := old hm
      rw [stay hm, fileAt, fileAt, hslot, hslot', Option.getD_some, grown.agents slot used,
        grown'.agents slot used', same.agents, grown.files, grown'.files, same.files]
  · rcases (grow_mem so.shape c.mem .resource i).mp hi with ⟨-, rfl⟩ | hm
    · rw [here, value]
    · obtain ⟨slot, hslot, hslot', used, used'⟩ := old hm
      rw [stay hm, valueAt, valueAt, hslot, hslot', Option.getD_some, grown.values slot used,
        grown'.values slot used', same.values]

end Store

namespace Store
variable {P : Platform} {a a' b b' : Store}

theorem del_resolve (same : a.tree.Same a'.tree) (uri : Text) :
    (a'.emmaResourceDel uri).1.tree.resolve uri = (a.emmaResourceDel uri).1.tree.resolve uri :=
  (emmaResourceDel_tree same uri).1.resolve uri

theorem Same.symm (h : a.Same a') : a'.Same a :=
  ⟨⟨h.tree.links.symm, h.tree.name.symm, h.tree.data.symm, h.tree.list.symm⟩, h.agents.symm,
    h.values.symm, h.files.symm⟩

theorem solvers_marked {e e' : Env} (h : Solvers Reader.Same (a.rootResourceSolver P e)
      (b.rootResourceSolver P e')) (sa : a.Same a') (sb : b.Same b') :
    Solvers Reader.Same (a'.rootResourceSolver P e) (b'.rootResourceSolver P e') := by
  intro reference r r' same
  obtain ⟨reader, value⟩ := sa.symm.rootResourceSolver (P := P) e reference r r (.refl r)
  obtain ⟨reader', value'⟩ := h reference r r' same
  obtain ⟨reader'', value''⟩ := sb.rootResourceSolver (P := P) e' reference r' r' (.refl r')
  exact ⟨⟨(reader''.seed.trans reader'.seed).trans reader.seed,
    (reader''.draws.trans reader'.draws).trans reader.draws⟩,
    (value''.trans value').trans value⟩

end Store

namespace State
variable {P : Platform} {s t : State} {uri text : Text} {rq : Request} {num : UInt64}

/-! ### A resource in two blocks -/

/-- Two nodes before block `num` of a transfer to a local resource that each of them has made,
maybe in different blocks of its pools -/
structure Twin (P : Platform) (uri : Text) (s t : State) (num : UInt64) : Prop where
  solvers : Solvers Reader.Same (s.store.rootResourceSolver P s.env)
    (t.store.rootResourceSolver P t.env)
  calculator : Calculator.Between Reader.Same s.calculator t.calculator
  there : (∃ i, s.resolve uri = some i) ∧ ∃ j, t.resolve uri = some j
  value : t.valueOf uri = s.valueOf uri
  underway : s.Underway num ∧ t.Underway num
  gone : (s.store.emmaResourceDel uri).1.tree.resolve uri = none ∧
    (t.store.emmaResourceDel uri).1.tree.resolve uri = none

theorem endTransfer_valueOf (root : emmaGetRoot uri = some .resource) {i : Nat}
    (there : s.resolve uri = some i) : (s.endTransfer P uri).valueOf uri =
      ((s.calculator.evaluateResult P ((s.setLastModified uri .server).store.rootResourceSolver P
        s.env)).2.2.map UInt16.ofInt).or (s.valueOf uri) := by
  obtain ⟨same, calculator, env⟩ := s.setLastModified_same uri .server
  have there' : (s.setLastModified uri .server).store.tree.resolve uri = some i :=
    (same.tree.resolve uri).trans there
  have kept : (s.setLastModified uri .server).valueOf uri = s.valueOf uri := by
    rw [valueOf, valueOf, State.resolve, same.tree.resolve, same.values, same.tree.data]
    rfl
  have released (u : State) : (u.release uri).valueOf uri = u.valueOf uri := by
    simp only [valueOf, release_resolve]
    simp only [release, Store.emmaResourceRelease]
    split <;> rfl
  rw [← kept, ← calculator, ← env, ← emmaResourceClose_valueOf root there']
  exact released _

theorem valueOf_same (h : s.store.Same t.store) : t.valueOf uri = s.valueOf uri := by
  rw [valueOf, valueOf, State.resolve, State.resolve, h.tree.resolve, h.values, h.tree.data]

theorem Twin.written (h : s.Twin P uri t num) (root : emmaGetRoot uri = some .resource)
    (filled : rq.payload ≠ []) : (t.full P rq uri ↔ s.full P rq uri) ∧
      ∃ m m', s.written P rq uri = s.setCalculator m ∧ t.written P rq uri = t.setCalculator m' ∧
        Calculator.Between Reader.Same m m' := by
  obtain ⟨⟨i, hi⟩, j, hj⟩ := h.there
  obtain ⟨full, wrote⟩ := full_resource (P := P) root filled hi
  obtain ⟨full', wrote'⟩ := full_resource (P := P) root filled hj
  obtain ⟨between, status⟩ := (Calculator.congruent_between P).block h.solvers h.calculator
    (rq.payload.take (rq.payload.length % 256))
  exact ⟨by rw [full, full', status], _, _, wrote, wrote', between⟩

theorem Twin.handleBlock (h : s.Twin P uri t rq.blockNum.toUInt64)
    (root : emmaGetRoot uri = some .resource) (filled : rq.payload ≠ []) (r : Reply) :
    (t.handleBlock P rq uri r).2 = (s.handleBlock P rq uri r).2 ∧
    (rq.more → (s.handleBlock P rq uri r).1.Twin P uri (t.handleBlock P rq uri r).1
        (rq.blockNum.toUInt64 + 1) ∨
      (s.handleBlock P rq uri r).1.Absent uri ∧ (t.handleBlock P rq uri r).1.Absent uri) ∧
    (¬rq.more → (t.handleBlock P rq uri r).1.valueOf uri =
      (s.handleBlock P rq uri r).1.valueOf uri) := by
  obtain ⟨same, m, m', wrote, wrote', between⟩ := h.written root filled
  by_cases full : s.full P rq uri
  · have full' := same.mpr full
    obtain ⟨⟨i, hi⟩, j, hj⟩ := h.there
    rw [h.underway.1.handleBlock, h.underway.2.handleBlock, takeBlock, takeBlock, writeBlock_eq,
      writeBlock_eq, if_pos full, if_pos full', wrote, wrote']
    have clock := (s.setCalculator m).setClocktime_same uri
    have clock' := (t.setCalculator m').setClocktime_same uri
    have solvers := Store.solvers_marked h.solvers clock clock'
    have value : ((t.setCalculator m').setClocktime uri).valueOf uri =
        ((s.setCalculator m).setClocktime uri).valueOf uri := by
      rw [valueOf_same clock, valueOf_same clock']
      exact h.value
    have there := (clock.tree.resolve uri).trans hi
    have there' := (clock'.tree.resolve uri).trans hj
    refine ⟨?_, fun more => .inl ?_, fun last => ?_⟩
    · simp only
      split <;> rfl
    · simp only [if_pos more]
      refine ⟨solvers, between, ⟨⟨i, there⟩, j, there'⟩, value, ⟨⟨?_, ?_, rfl⟩, ?_, ?_, rfl⟩, ?_, ?_⟩
      · exact h.underway.1.locked
      · exact h.underway.1.opened
      · exact h.underway.2.locked
      · exact h.underway.2.opened
      · exact (Store.del_resolve clock.tree uri).trans h.gone.1
      · exact (Store.del_resolve clock'.tree uri).trans h.gone.2
    · simp only [if_neg last]
      show (endTransfer P _ uri).valueOf uri = (endTransfer P _ uri).valueOf uri
      rw [endTransfer_valueOf root there, endTransfer_valueOf root there', value]
      have closing := Store.solvers_marked solvers (setLastModified_same _ uri .server).1
        (setLastModified_same _ uri .server).1
      obtain ⟨-, result⟩ := (Calculator.congruent_between P).result closing between
      have results := congrArg (fun x : EvalStatus × Option Int => x.2) result
      exact congrArg (fun v : Option Int => (v.map UInt16.ofInt).or _) results
  · have full' : ¬t.full P rq uri := fun f => full (same.mp f)
    have absent := h.underway.1.refused (r := r) full h.gone.1
    have absent' := h.underway.2.refused (r := r) full' h.gone.2
    refine ⟨?_, fun _ => .inr ⟨absent, absent'⟩, fun _ => ?_⟩
    · rw [h.underway.1.handleBlock, h.underway.2.handleBlock, takeBlock, takeBlock, writeBlock_eq,
        writeBlock_eq, if_neg full, if_neg full']
      simp only
      split <;> rfl
    · rw [valueOf, valueOf, absent.missing, absent'.missing]
      rfl

def Onward (uri : Text) (requests : List Request) (k : Nat) : Prop :=
  ∀ i rq, requests[i]? = some rq → rq.method = .put ∧ rq.uri = some uri ∧ rq.payload ≠ [] ∧
    rq.blockNum.toNat = k + i ∧ (rq.more ↔ i + 1 < requests.length)

theorem Onward.tail {rest : List Request} {k : Nat} (h : Onward uri (rq :: rest) k) :
    Onward uri rest (k + 1) := by
  intro i rq' hi
  obtain ⟨put, here, filled, num, more⟩ := h (i + 1) rq' hi
  refine ⟨put, here, filled, by omega, more.trans ?_⟩
  rw [List.length_cons]
  omega

theorem Twin.answers {rest : List Request} {k : Nat} (root : emmaGetRoot uri = some .resource)
    (onward : Onward uri (rq :: rest) k) (h : s.Twin P uri t rq.blockNum.toUInt64) (r : Reply) :
    (t.handleBlock P rq uri r).2 = (s.handleBlock P rq uri r).2 ∧
      (t.handleBlock P rq uri r).1.effect P uri rest =
        (s.handleBlock P rq uri r).1.effect P uri rest := by
  have zero : (0 : UInt32).toNat = 0 := rfl
  induction rest generalizing s t rq k r with
  | nil =>
    obtain ⟨-, -, filled, -, more⟩ := onward 0 rq rfl
    obtain ⟨reply, -, ended⟩ := h.handleBlock (P := P) root filled r
    exact ⟨reply, Prod.ext rfl (ended fun last => absurd (more.mp last) (by simp))⟩
  | cons next rest ih =>
    obtain ⟨-, -, filled, num, more⟩ := onward 0 rq rfl
    obtain ⟨put, here, -, num', -⟩ := onward 1 next rfl
    obtain ⟨reply, going, -⟩ := h.handleBlock (P := P) root filled r
    refine ⟨reply, ?_⟩
    rcases going (more.mpr (by simp)) with twin | absent
    · have step : next.blockNum.toUInt64 = rq.blockNum.toUInt64 + 1 := by
        have bound := next.blockNum.toNat_lt
        refine UInt64.toNat_inj.mp ?_
        rw [UInt64.toNat_add, UInt32.toNat_toUInt64, UInt32.toNat_toUInt64, UInt64.toNat_one,
          Nat.mod_eq_of_lt (by omega)]
        omega
      have later : next.blockNum ≠ 0 := fun e => by
        rw [e, zero] at num'
        omega
      rw [← step] at twin
      obtain ⟨reply', rest'⟩ := ih onward.tail twin ((Reply.init next).setBlock1 next)
      obtain ⟨replies, value⟩ := Prod.mk.inj rest'
      have filled' := (onward 1 next rfl).2.2.1
      simp only [effect, State.answers, emmaServerHandler_later put here filled' later]
      rw [reply', replies, value]
    · refine answers_alike (fun rq' member => ?_) (.inr absent)
      obtain ⟨i, hi⟩ := List.mem_iff_getElem?.mp member
      obtain ⟨put, here, filled, num', -⟩ := onward.tail i rq' hi
      exact ⟨put, here, filled, fun e => by rw [e, zero] at num'; omega⟩

/-! ### Nodes a transfer starts on -/

def Starts (P : Platform) (s : State) (uri : Text) : Prop :=
  ∃ i, (s.add P uri).resolve uri = some i ∧ (s.add P uri).store.mutex i = .released

theorem starts_spec (free : s.locked = 0) :
    (s.Starts P uri → (s.startTransfer P uri).Underway 0) ∧
      (¬s.Starts P uri → (s.startTransfer P uri).locked = 0) := by
  rw [startTransfer_eq]
  refine ⟨fun ⟨i, there, released⟩ => ?_, fun kept => ?_⟩
  · exact @begin_underway { s.add P uri with count := -1 } uri i there released free rfl
  · obtain ⟨-, locked, -, -⟩ := openUnlessOpened_spec
      (({ s.add P uri with count := -1 } : State).lockUnlessLocked uri) uri
    rw [locked, lockUnlessLocked, if_pos (show ({ s.add P uri with count := -1 } : State).locked = 0
      from free)]
    have refused : (({ s.add P uri with count := -1 } : State).lock uri).2 = false := by
      simp only [State.lock, Store.emmaResourceLock]
      cases found : (s.add P uri).store.tree.resolve uri with
      | none => rfl
      | some i =>
        have held : (s.add P uri).store.mutex i = .locked := by
          cases mark : (s.add P uri).store.mutex i with
          | released => exact absurd ⟨i, found, mark⟩ kept
          | locked => rfl
        simp only [held, if_true]
    simp [refused]

theorem starts_iff (sound : s.Sound) (root : emmaGetRoot uri = some .resource) :
    s.Starts P uri ↔ s.store.emmaResourceIsLocked uri = false ∧
      (s.store.emmaResourceExists uri ∨ s.store.Makes P (emmaGetName uri)) := by
  have released {i : Nat} := @made_released P s uri sound
  obtain ⟨f, so⟩ := sound
  cases known : s.resolve uri with
  | some i =>
    have there : s.store.tree.resolve uri = some i := known
    have here : s.store.emmaResourceExists uri = true := congrArg Option.isSome known
    have same := add_known (P := P) known
    simp only [Starts, same, known, Option.some.injEq, exists_eq_left', here, true_or, and_true,
      Store.emmaResourceIsLocked, there]
    cases s.store.mutex i <;> simp
  | none =>
    have missing : s.store.tree.resolve uri = none := known
    have nowhere : s.store.emmaResourceExists uri = false := congrArg Option.isSome known
    have unlocked : s.store.emmaResourceIsLocked uri = false := by
      simp only [Store.emmaResourceIsLocked, missing]
    have made := Store.emmaResourceAdd_made (P := P) so root missing
    have failed := Store.emmaResourceAdd_fails (P := P) so root missing
    simp only [nowhere, unlocked, Bool.false_eq_true, false_or, true_and]
    have added : (s.add P uri).store =
        (s.store.emmaResourceAdd P (some .resource) (emmaGetName uri)).1 := by
      simp only [State.add, root]
    constructor
    · rintro ⟨i, found, -⟩
      by_contra full
      rw [State.resolve, added, failed full] at found
      cases found
    · intro makes
      obtain ⟨n, found, -⟩ := made makes
      have there : (s.add P uri).resolve uri = some n := by
        rw [State.resolve, added]
        exact found
      exact ⟨n, there, @made_released P s uri ⟨f, so⟩ unlocked n there⟩

theorem first_dropped (free : s.locked = 0) (first : rq.blockNum = 0) {r : Reply}
    (bare : r.status = none) :
    ((s.startTransfer P uri).handleBlock P rq uri r).2.status = none ↔ ¬s.Starts P uri := by
  obtain ⟨starts, refused⟩ := @starts_spec P s uri free
  by_cases go : s.Starts P uri
  · have under : (s.startTransfer P uri).Underway rq.blockNum.toUInt64 := by
      rw [first]
      exact starts go
    rw [under.handleBlock, takeBlock_status]
    simp [go]
  · have none' : ((s.startTransfer P uri).handleBlock P rq uri r).2 = r.drop := by
      simp only [State.handleBlock, refused go, ne_eq, not_true_eq_false, if_false]
      split <;> rfl
    rw [none']
    exact iff_of_true bare go

theorem AtRest.begins (rest : s.AtRest) : ({ s.add P uri with count := -1 } : State).AtRest :=
  ⟨rest.operandIndex, rest.stack⟩

/-- Two nodes with the same resources that both make the resource begin its transfer alike,
whichever block each of them gives it. -/
theorem twin_made {t : State} {f : Root → Forest Nat} (so : s.store.Sound f)
    (renews : s.store.Renews t.store) (root : emmaGetRoot uri = some .resource)
    (missing : s.store.tree.resolve uri = none) (env : t.env = s.env)
    (reader : s.reader.Same t.reader) (rest : s.AtRest) (rest' : t.AtRest) (free : s.locked = 0)
    (free' : t.locked = 0) (can : s.store.Makes P (emmaGetName uri))
    (can' : t.store.Makes P (emmaGetName uri)) :
    (s.startTransfer P uri).Twin P uri (t.startTransfer P uri) 0 := by
  have so' := renews.sound so
  have missing' : t.store.tree.resolve uri = none :=
    (renews.same.tree.resolve uri).trans missing
  have unlocked {u : State} (h : u.store.tree.resolve uri = none) :
      u.store.emmaResourceIsLocked uri = false := by
    simp only [Store.emmaResourceIsLocked, h]
  have added (u : State) : (u.add P uri).store =
      (u.store.emmaResourceAdd P (some .resource) (emmaGetName uri)).1 := by
    simp only [State.add, root]
  obtain ⟨n, found, created, zero⟩ := Store.emmaResourceAdd_made so root missing can
  obtain ⟨m, found', created', zero'⟩ := Store.emmaResourceAdd_made so' root missing' can'
  simp only [← added] at found created zero found' created' zero'
  rw [renews.same.tree.emmaGetResource] at created'
  have grown : Store.Grown s.store (s.add P uri).store f := by
    rw [added]
    exact (Store.emmaResourceAdd_spec P so (some .resource) (emmaGetName uri)).1
  have grown' : Store.Grown t.store (t.add P uri).store f := by
    rw [added]
    exact (Store.emmaResourceAdd_spec P so' (some .resource) (emmaGetName uri)).1
  have renamed := Store.renamed_made so so' renews.same grown grown' created created'
    (Store.Sound.name_eq created.sound created'.sound found found') (zero'.trans zero.symm)
  have gone := created.gone so grown root missing found
  have gone' := created'.gone so' grown' root missing' found'
  have released := @made_released P s uri ⟨f, so⟩ (unlocked missing) n found
  have released' := @made_released P t uri ⟨f, so'⟩ (unlocked missing') m found'
  have calculator := rest.begins.calculator (@rest'.begins P t uri) reader root found found'
    released released' free free'
  have under := @begin_underway { s.add P uri with count := -1 } uri n found released free rfl
  have under' := @begin_underway { t.add P uri with count := -1 } uri m found' released' free' rfl
  have solvers := renamed.rootResourceSolver (P := P) s.env
  rw [startTransfer_eq, startTransfer_eq]
  rw [@begin_eq { s.add P uri with count := -1 } uri n found released free,
    @begin_eq { t.add P uri with count := -1 } uri m found' released' free'] at *
  refine ⟨?_, calculator, ⟨⟨n, found⟩, m, found'⟩, ?_, ⟨under, under'⟩, ?_, ?_⟩
  · show Solvers Reader.Same (Store.rootResourceSolver P _ s.env)
      (Store.rootResourceSolver P _ t.env)
    rw [env]
    exact Store.solvers_marked solvers ⟨.refl _, rfl, rfl, rfl⟩ ⟨.refl _, rfl, rfl, rfl⟩
  · have read (u : State) (k : Nat) (h : u.resolve uri = some k) :
        u.valueOf uri = some (u.store.valueAt k) := by rw [valueOf, h]; rfl
    refine (read _ m found').trans (Eq.trans ?_ (read _ n found).symm)
    exact congrArg some (zero'.trans zero.symm)
  · refine Eq.trans ?_ gone
    apply Store.del_resolve
    exact ⟨rfl, rfl, rfl, rfl⟩
  · refine Eq.trans ?_ gone'
    apply Store.del_resolve
    exact ⟨rfl, rfl, rfl, rfl⟩

variable {st : Store}

/-- Nothing of earlier requests gets into a PUT: they have all come back, the resource is not
locked, it is there or can be made in both or in neither, and where it is or can be made the
evaluator is at rest. -/
structure Settled (P : Platform) (s : State) (st : Store) (uri : Text) : Prop where
  calm : s.hung = false
  unlocked : s.store.emmaResourceIsLocked uri = false
  room : s.store.emmaResourceExists uri ∨
    (s.store.Makes P (emmaGetName uri) ↔ st.Makes P (emmaGetName uri))
  atRest : s.store.emmaResourceExists uri ∨ s.store.Makes P (emmaGetName uri) → s.AtRest

theorem Settled.startTransfer (settled : s.Settled P st uri) (sound : s.Sound) (free : s.locked = 0)
    (renews : s.store.Renews st) (root : emmaGetRoot uri = some .resource) :
    (s.startTransfer P uri).Paired ((s.renewed P st).startTransfer P uri) uri ∨
      (s.startTransfer P uri).Twin P uri ((s.renewed P st).startTransfer P uri) 0 := by
  have new : (s.renewed P st).AtRest ∧ (s.renewed P st).env = s.env ∧
      s.reader.Same (s.renewed P st).reader ∧ (s.renewed P st).locked = 0 ∧
      (s.renewed P st).store = st :=
    ⟨⟨rfl, .inl rfl⟩, by simp only [renewed, State.init], ⟨rfl, rfl⟩, rfl, rfl⟩
  generalize s.renewed P st = t at new ⊢
  obtain ⟨rest', env, reader, free', rfl⟩ := new
  have unlocked' : t.store.emmaResourceIsLocked uri = false := by
    simp only [Store.emmaResourceIsLocked, renews.released]
    split <;> rfl
  have sound' : t.Sound := sound.imp fun f so => renews.sound so
  cases known : s.resolve uri with
  | some i =>
    have known' : t.resolve uri = some i := (renews.same.tree.resolve uri).trans known
    have rest := settled.atRest (.inl (congrArg Option.isSome known))
    have made : (s.add P uri).resolve uri = some i := by rw [add_known known, known]
    have made' : (t.add P uri).resolve uri = some i := by rw [add_known known', known']
    have same : (s.add P uri).store.Same (t.add P uri).store := by
      rw [add_known known, add_known known']
      exact renews.same
    have released := @made_released P s uri sound settled.unlocked i made
    have released' := @made_released P t uri sound' unlocked' i made'
    exact .inl (.inl ((@rest.begins P s uri).begin (@rest'.begins P t uri) same env rfl reader root
      made released released' free free'))
  | none =>
    obtain ⟨f, so⟩ := sound
    have missing : s.store.tree.resolve uri = none := known
    have missing' : t.store.tree.resolve uri = none :=
      (renews.same.tree.resolve uri).trans missing
    have room := settled.room.resolve_left
      (by simp [show s.store.emmaResourceExists uri = false from congrArg Option.isSome known])
    by_cases can : s.store.Makes P (emmaGetName uri)
    · exact .inr (twin_made so renews root missing env reader (settled.atRest (.inr can)) rest'
        free free' can (room.mp can))
    · have added (u : State) : (u.add P uri).store =
          (u.store.emmaResourceAdd P (some .resource) (emmaGetName uri)).1 := by
        simp only [State.add, root]
      have fails := Store.emmaResourceAdd_fails so root missing can
      have fails' := Store.emmaResourceAdd_fails (renews.sound so) root missing'
        fun can' => can (room.mpr can')
      rw [← added] at fails fails'
      exact .inl (.inr ⟨begin_absent fails free, begin_absent fails' free'⟩)

theorem Settled.effect (settled : s.Settled P st uri) (sound : s.Sound) (free : s.locked = 0)
    (renews : s.store.Renews st) (root : emmaGetRoot uri = some .resource)
    {requests : List Request} (transfer : Carries .put uri text requests) :
    s.effect P uri requests = (s.renewed P st).effect P uri requests := by
  have zero : (0 : UInt32).toNat = 0 := rfl
  have started := settled.startTransfer sound free renews root
  have free' : (s.renewed P st).locked = 0 := rfl
  cases requests with
  | nil => exact absurd rfl transfer.filled
  | cons rq rest =>
    obtain ⟨put, here, filled, num, -⟩ := transfer.block 0 rq rfl
    have first : rq.blockNum = 0 := UInt32.toNat_inj.mp num
    have answered : ((s.renewed P st).startTransfer P uri |>.handleBlock P rq uri
          ((Reply.init rq).setBlock1 rq)).2 =
        (s.startTransfer P uri |>.handleBlock P rq uri ((Reply.init rq).setBlock1 rq)).2 ∧
        ((s.renewed P st).startTransfer P uri |>.handleBlock P rq uri
          ((Reply.init rq).setBlock1 rq)).1.effect P uri rest =
        (s.startTransfer P uri |>.handleBlock P rq uri
          ((Reply.init rq).setBlock1 rq)).1.effect P uri rest := by
      rcases started with paired | twin
      · obtain ⟨reply, after⟩ := handleBlock_alike (P := P) ((Reply.init rq).setBlock1 rq) paired
        refine ⟨reply, answers_alike (fun rq' member => ?_) after⟩
        obtain ⟨j, hj⟩ := List.mem_iff_getElem?.mp member
        obtain ⟨put, here, filled, num, -⟩ := transfer.block (j + 1) rq' hj
        exact ⟨put, here, filled, fun e => by rw [e, zero] at num; omega⟩
      · have onward : Onward uri (rq :: rest) 0 := by
          intro i rq' hi
          obtain ⟨put, here, filled, num, more⟩ := transfer.block i rq' hi
          exact ⟨put, here, filled, by omega, more⟩
        have twin' : (s.startTransfer P uri).Twin P uri ((s.renewed P st).startTransfer P uri)
            rq.blockNum.toUInt64 := by
          rw [first]
          exact twin
        exact twin'.answers root onward _
    obtain ⟨reply, onward⟩ := answered
    obtain ⟨replies, value⟩ := Prod.mk.inj onward
    simp only [State.effect, answers, emmaServerHandler_first put here filled first free,
      emmaServerHandler_first put here filled first free']
    rw [reply, replies, value]

theorem starts_of_effect {t : State} {requests : List Request} (free : s.locked = 0)
    (free' : t.locked = 0) (transfer : Carries .put uri text requests)
    (same : s.effect P uri requests = t.effect P uri requests) :
    s.Starts P uri ↔ t.Starts P uri := by
  cases requests with
  | nil => exact absurd rfl transfer.filled
  | cons rq rest =>
    obtain ⟨put, here, filled, num, -⟩ := transfer.block 0 rq rfl
    have first : rq.blockNum = 0 := UInt32.toNat_inj.mp num
    have bare : ((Reply.init rq).setBlock1 rq).status = none := rfl
    have replies := congrArg Prod.fst same
    simp only [State.effect, answers, emmaServerHandler_first put here filled first free,
      emmaServerHandler_first put here filled first free', List.cons.injEq] at replies
    have dropped := @first_dropped P s uri rq free first _ bare
    have dropped' := @first_dropped P t uri rq free' first _ bare
    rw [replies.1, dropped'] at dropped
    exact (not_iff_not.mp dropped).symm

theorem answers_hung {requests : List Request} (sound : s.Sound)
    (puts : ∀ rq ∈ requests, rq.method = .put) : (s.answers P requests).2.hung = s.hung := by
  induction requests generalizing s with
  | nil => rfl
  | cons rq rest ih =>
    have put := puts rq List.mem_cons_self
    have returns : s.Returns rq := by
      intro _ _ get
      rw [put] at get
      cases get
    have after := (State.Sound.kept P).emmaServerHandler trivial rq sound
    exact (ih after fun rq' member => puts rq' (.tail _ member)).trans
      (sound.emmaServerHandler_hung returns)

/-- All that is seen of a transfer, unless the node hangs: the answers and the value that the
resource has then -/
def outcome (P : Platform) (uri : Text) (requests : List Request) (s : State) :
    Option (List Reply × Option UInt16) :=
  if (s.answers P requests).2.hung then none else some (s.effect P uri requests)

theorem outcome_eq {requests : List Request} (transfer : Carries .put uri text requests)
    (sound : s.Sound) : s.outcome P uri requests =
      if s.hung then none else some (s.effect P uri requests) := by
  have puts : ∀ rq ∈ requests, rq.method = .put := by
    intro rq member
    obtain ⟨i, hi⟩ := List.mem_iff_getElem?.mp member
    exact (transfer.block i rq hi).1
  rw [State.outcome, answers_hung sound puts]

/-- A PUT to a local resource goes on a settled node as on one that has just been initialised
and holds the same resources. It does on no other one, as long as the evaluator is at rest:
what is left there can by chance change nothing, as `0+` in front of a number. -/
theorem stateless_iff {sys : System} {requests : List Request} (reach : sys.Reachable P)
    (free : sys.shared.locked = 0) (renews : sys.shared.store.Renews st)
    (root : emmaGetRoot uri = some .resource) (transfer : Carries .put uri text requests) :
    (sys.shared.Settled P st uri → sys.shared.outcome P uri requests =
      (sys.shared.renewed P st).outcome P uri requests) ∧
    ((sys.shared.store.emmaResourceExists uri ∨ sys.shared.store.Makes P (emmaGetName uri) →
        sys.shared.AtRest) →
      (sys.shared.outcome P uri requests = (sys.shared.renewed P st).outcome P uri requests ↔
        sys.shared.Settled P st uri)) := by
  have sound' : (sys.shared.renewed P st).Sound := reach.sound.imp fun f so => renews.sound so
  have new : (sys.shared.renewed P st).outcome P uri requests =
      some ((sys.shared.renewed P st).effect P uri requests) := by
    rw [outcome_eq transfer sound', if_neg]
    exact Bool.false_ne_true
  have enough : sys.shared.Settled P st uri → sys.shared.outcome P uri requests =
      (sys.shared.renewed P st).outcome P uri requests := by
    intro settled
    rw [new, outcome_eq transfer reach.sound, settled.calm, if_neg Bool.false_ne_true,
      settled.effect reach.sound free renews root transfer]
  refine ⟨enough, fun atRest => ⟨fun same => ?_, enough⟩⟩
  rw [new, outcome_eq transfer reach.sound] at same
  cases calm : sys.shared.hung with
  | true => simp [calm] at same
  | false =>
    rw [calm, if_neg Bool.false_ne_true, Option.some.injEq] at same
    have starts := starts_of_effect free rfl transfer same
    have unlocked' : st.emmaResourceIsLocked uri = false := by
      simp only [Store.emmaResourceIsLocked, renews.released]
      split <;> rfl
    have there' : st.emmaResourceExists uri = sys.shared.store.emmaResourceExists uri :=
      congrArg Option.isSome (renews.same.tree.resolve uri)
    have one : sys.shared.Starts P uri ↔ _ := starts_iff reach.sound root
    have other : (sys.shared.renewed P st).Starts P uri ↔ st.emmaResourceIsLocked uri = false ∧
        (st.emmaResourceExists uri ∨ st.Makes P (emmaGetName uri)) := starts_iff sound' root
    rw [one, other, unlocked', there'] at starts
    cases exist : sys.shared.store.emmaResourceExists uri with
    | true =>
      rw [exist] at starts
      exact ⟨calm, (starts.mpr ⟨rfl, .inl rfl⟩).1, .inl exist, atRest⟩
    | false =>
      have missing : sys.shared.store.tree.resolve uri = none := by
        simpa [Store.emmaResourceExists] using exist
      have unlocked : sys.shared.store.emmaResourceIsLocked uri = false := by
        simp only [Store.emmaResourceIsLocked, missing]
      rw [exist] at starts
      refine ⟨calm, unlocked, .inr ?_, atRest⟩
      simpa [unlocked] using starts

end State

/-! ### Pools with and without lost blocks -/

namespace Pool

theorem alloc_isSome_iff (m : Pool) : m.alloc.isSome ↔ ∃ i < m.used.length, ¬m.Used i := by
  rw [alloc, Option.isSome_map, List.findIdx?_isSome, List.any_eq_true]
  constructor
  · rintro ⟨x, hx, free⟩
    obtain ⟨i, hi, rfl⟩ := List.mem_iff_getElem.mp hx
    refine ⟨i, hi, fun used => ?_⟩
    rw [Used, List.getElem?_eq_getElem hi, Option.some.injEq] at used
    simp [used] at free
  · rintro ⟨i, hi, free⟩
    refine ⟨m.used[i], List.getElem_mem hi, ?_⟩
    cases e : m.used[i] with
    | false => rfl
    | true => exact absurd (by rw [Used, List.getElem?_eq_getElem hi, e]) free

theorem alloc_of_fewer {m m' : Pool} (size : m'.used.length = m.used.length)
    (fewer : ∀ i, m'.Used i → m.Used i) (room : m.alloc.isSome) : m'.alloc.isSome := by
  obtain ⟨i, hi, free⟩ := (alloc_isSome_iff m).mp room
  exact (alloc_isSome_iff m').mpr ⟨i, size ▸ hi, fun used => free (fewer i used)⟩

end Pool

namespace Tree
variable (t : Tree)

def siblings : Nat → Option Nat → List Nat
  | 0, _ => []
  | _ + 1, none => []
  | fuel + 1, some i => i :: siblings fuel (t.links i).next

variable {t}

theorem siblings_live {r : Root} (fuel : Nat) {head : Option Nat}
    (h : ∀ i, head = some i → t.Live r i) : ∀ i ∈ t.siblings fuel head, t.Live r i := by
  induction fuel generalizing head with
  | zero => simp [siblings]
  | succ fuel ih =>
    cases head with
    | none => simp [siblings]
    | some j =>
      have live := h j rfl
      intro i hi
      rcases List.mem_cons.mp hi with rfl | hi
      · exact live
      · exact ih (fun k hk => .next live hk) i hi

def tops (t : Tree) (r : Root) : List Nat := t.siblings emmaMaxResources (t.list r)

theorem tops_live {r : Root} : ∀ i ∈ t.tops r, t.Live r i :=
  siblings_live _ fun _ h => .top h

end Tree

namespace Store
variable {P : Platform} {st st' : Store} {f : Root → Forest Nat}

structure Tight (st : Store) : Prop where
  pool : ∀ i, st.tree.pool.Used i → ∃ r, st.tree.Live r i
  alloc : ∀ r slot, (st.alloc r).Used slot → ∃ i, st.tree.Live r i ∧ st.tree.data i = some slot

/-- Each block in use belongs to a resource right below a root. -/
def Flat (st : Store) : Prop :=
  (∀ i ∈ List.range st.tree.pool.used.length, st.tree.pool.Used i →
    ∃ r ∈ Root.all, i ∈ st.tree.tops r) ∧
  ∀ r ∈ Root.all, ∀ slot ∈ List.range (st.alloc r).used.length, (st.alloc r).Used slot →
    ∃ i ∈ st.tree.tops r, st.tree.data i = some slot

instance (st : Store) : Decidable st.Flat := inferInstanceAs (Decidable (_ ∧ _))

theorem Flat.tight (flat : st.Flat) : st.Tight where
  pool i used := by
    obtain ⟨r, -, hi⟩ := flat.1 i (List.mem_range.mpr (Pool.used_lt used)) used
    exact ⟨r, Tree.tops_live i hi⟩
  alloc r slot used := by
    have known : r ∈ Root.all := by cases r <;> decide
    obtain ⟨i, hi, hdata⟩ := flat.2 r known slot (List.mem_range.mpr (Pool.used_lt used)) used
    exact ⟨i, Tree.tops_live i hi, hdata⟩

theorem Renews.makes (renews : st.Renews st') (so : st.Sound f) {name : Text}
    (short : (basename name).length < emmaResourceNameSize) (makes : st.Makes P name) :
    st'.Makes P name := by
  obtain ⟨named, place, node, block, room, -⟩ := makes
  have nodes := Pool.alloc_of_fewer renews.poolSize (fun i used => by
    obtain ⟨r, live⟩ := (renews.pool i).mp used
    exact so.links.used r i live) node
  have data := Pool.alloc_of_fewer (renews.allocSize .resource) (fun slot used => by
    obtain ⟨i, live, hdata⟩ := (renews.alloc .resource slot).mp used
    obtain ⟨slot', hdata', used'⟩ := so.links.data .resource i live
    obtain rfl : slot = slot' := Option.some.inj (hdata.symm.trans hdata')
    exact used') (Option.isSome_iff_exists.mpr ⟨block, room⟩)
  obtain ⟨block', room'⟩ := Option.isSome_iff_exists.mp data
  refine ⟨named, ?_, nodes, block', room', if_pos short⟩
  rw [renews.same.tree.emmaGetResource]
  exact place

def unlocked (st : Store) : Store := { st with mutex := fun _ => .released }

theorem Tight.renews (tight : st.Tight) (so : st.Sound f) : st.Renews st.unlocked where
  same := ⟨⟨rfl, rfl, rfl, rfl⟩, rfl, rfl, rfl⟩
  pool i := ⟨tight.pool i, fun ⟨r, live⟩ => so.links.used r i live⟩
  alloc r slot := by
    refine ⟨tight.alloc r slot, ?_⟩
    rintro ⟨i, live, hdata⟩
    obtain ⟨slot', hdata', used⟩ := so.links.data r i live
    obtain rfl : slot = slot' := Option.some.inj (hdata.symm.trans hdata')
    exact used
  poolSize := rfl
  allocSize _ := rfl
  released _ := rfl

end Store

namespace State

def putLocal (text : Text) (short : text.length ≤ 65523) : Request :=
  ⟨newResource, .put, none, text, 64, 0, short⟩

theorem carries_putLocal (text : Text) (short : text.length ≤ 65523) (filled : text ≠ []) :
    Carries .put newResource text [putLocal text short] where
  filled := by simp
  text := by simp [putLocal]
  block i rq h := by
    obtain ⟨hi, rfl⟩ := List.getElem?_eq_some_iff.mp h
    have hi : i < 1 := hi
    obtain rfl : i = 0 := by omega
    refine ⟨rfl, ?_, filled, rfl, ?_⟩
    · exact (by decide : (if newResource ≠ [] ∧ newResource.length < emmaMaxUriSize then
        some (cString newResource) else none) = some newResource)
    · simp [putLocal, Request.more]

def putAstray (text : Text) (short : text.length ≤ 65523) : Request :=
  ⟨chars ['L', '/', 'q', '/', 'r'], .put, none, text, 64, 0, short⟩

/-- Behind a creation that has lost a node and its data, in another block of either pool -/
theorem stateless_sum : ∃ (sys : System) (st : Store),
    System.Reachable .plain sys ∧ sys.shared.store.Renews st ∧
    sys.shared.resolve newResource = none ∧ ¬sys.shared.store.Flat ∧
    sys.shared.outcome .plain newResource [putLocal (chars ['5']) (by decide)] =
      (sys.shared.renewed .plain st).outcome .plain newResource
        [putLocal (chars ['5']) (by decide)] := by
  obtain ⟨sys, run, hs⟩ := Runs.of_follow (System.step .plain) (fun _ _ => True)
    (fun s => s.shared.hung = false ∧ s.shared.locked = 0 ∧ s.shared.operandIndex = 0 ∧
      s.shared.opened = 0 ∧ s.shared.resolve newResource = none ∧
      s.shared.store.emmaResourceIsLocked newResource = false ∧
      ¬s.shared.store.Flat ∧ s.shared.store.Makes .plain (emmaGetName newResource))
    [.request (putAstray (chars ['7']) (by decide))]
    (System.init .plain (fun _ => none) .bare) (by decide +kernel)
  simp only [decide_eq_true_eq] at hs
  obtain ⟨calm, free, index, closed, missing, unlocked, lost, makes⟩ := hs
  have reach : System.Reachable .plain sys := ⟨_, _, run⟩
  obtain ⟨f, so⟩ := reach.sound
  obtain ⟨st, renews⟩ := Store.exists_renews so
  have both : sys.shared.store.Makes .plain (emmaGetName newResource) ↔
      st.Makes .plain (emmaGetName newResource) :=
    iff_of_true makes (renews.makes so (by decide) makes)
  exact ⟨sys, st, reach, renews, missing, lost,
    (stateless_iff reach free renews (by decide) (carries_putLocal _ _ (by decide))).1
      ⟨calm, unlocked, .inr both, fun _ => ⟨index, .inl closed⟩⟩⟩

def Asked (_ : System) : Event → Prop
  | .request _ => True
  | _ => False

instance (s : System) (e : Event) : Decidable (Asked s e) := by
  cases e <;> simp only [Asked] <;> infer_instance

/-- What is left of `1+`, which has no value, is there when `5` is evaluated. -/
theorem stateful : ¬ ∀ (P : Platform) (sys : System) (st : Store) (uri text : Text)
    (requests : List Request), System.ReachableBy P Asked sys → sys.shared.locked = 0 →
    sys.shared.store.Renews st → emmaGetRoot uri = some .resource →
    Carries .put uri text requests →
    sys.shared.outcome P uri requests = (sys.shared.renewed P st).outcome P uri requests := by
  intro h
  obtain ⟨sys, run, hs⟩ := Runs.of_follow (System.step .plain) Asked
    (fun s => s.shared.locked = 0 ∧ s.shared.store.Flat ∧
      (s.shared.outcome .plain newResource [putLocal (chars ['5']) (by decide)]).map Prod.snd =
        some (some 6) ∧
      ((s.shared.renewed .plain s.shared.store.unlocked).outcome .plain newResource
        [putLocal (chars ['5']) (by decide)]).map Prod.snd = some (some 5))
    [.request (putLocal (chars ['1', '+']) (by decide))]
    (System.init .plain (fun _ => none) .bare) (by decide +kernel)
  simp only [decide_eq_true_eq] at hs
  obtain ⟨free, flat, six, five⟩ := hs
  have reach : System.ReachableBy .plain Asked sys := ⟨_, _, run⟩
  obtain ⟨f, so⟩ := reach.sound
  have same := h .plain sys _ newResource _ _ reach free (flat.tight.renews so) (by decide)
    (carries_putLocal (chars ['5']) (by decide) (by decide))
  rw [same, five] at six
  exact absurd six (by decide)

end State
end EmmaNode

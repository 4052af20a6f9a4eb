import EmmaNode.BlockCuts
import EmmaNode.BlockFrame
import EmmaNode.Paths
import EmmaNode.Returning
import EmmaNode.Transfer

/-! Transfers and what comes in between. Between two blocks of a transfer the handler keeps
the number of the last block it has seen, of whatever resource, two flags and one evaluator.
A request of another peer leaves the transfer alone if it leaves these alone: a first block
that is dropped, a block that is taken for a repeated one, and, as long as the number is
zero, the requests that end with that number. A GET in which the node hangs ends every transfer. -/

namespace EmmaNode

namespace State
variable (s : State) (rq : Request) (uri r : Text)

def Lockable : Prop :=
  s.store.emmaResourceExists uri = true ∧ s.store.emmaResourceIsLocked uri = false

instance : Decidable (s.Lockable uri) := inferInstanceAs (Decidable (_ ∧ _))

def GetApart : Prop :=
  emmaResourceIsRoot uri = true ∨ ¬s.Lockable uri ∨ emmaGetRoot r ≠ some .resource ∨
    emmaGetRoot uri ≠ some .resource ∧ ¬(emmaGetRoot uri = some .system ∧
      (emmaGetName uri).take 4 = chars ['r', 'a', 'n', 'd'])

instance : Decidable (GetApart s uri r) := inferInstanceAs (Decidable (_ ∨ _ ∨ _ ∨ _))

/-- A DELETE that is refused, or one that takes a resource to which no expression refers, if
`r` stays a folder or a leaf and no other resource goes by its name. -/
def DeleteApart : Prop :=
  ¬s.Lockable uri ∨ (∃ j ∈ s.resolve uri, (s.store.tree.links j).subRoot ≠ none) ∨
    emmaGetRoot r ≠ some .resource ∧ ∃ i ∈ s.resolve r, ∀ j ∈ s.resolve uri, i ≠ j ∧
      ((s.store.tree.links i).subRoot = some j → (s.store.tree.links j).next ≠ none) ∧
      ((s.store.tree.links i).subRoot = none →
        (s.store.emmaResourceDel r).1.emmaResourceExists r = false)

instance : Decidable (DeleteApart s uri r) := inferInstanceAs (Decidable (_ ∨ _ ∨ _))

/-- A PUT or POST that is dropped or taken for a repeated block, or an empty one with the
number of the last block that, if it is a last one, ends no transfer. -/
def PutApart : Prop :=
  rq.method = .post ∧ s.store.emmaResourceExists uri = true ∧ s.locked = 0 ∨
    if rq.payload = [] then
      rq.blockNum.toUInt64 = s.count ∧ (rq.more = false → s.resolve uri = none ∨
        s.resolve uri ≠ s.resolve r ∧
          (emmaGetRoot r = some .resource → emmaGetRoot uri ≠ some .resource))
    else if s.locked ≠ 0 then
      rq.blockNum = 0 ∨ s.opened ≠ 0 ∧ rq.blockNum.toUInt64 = s.count
    else rq.blockNum ≠ 0 ∧ ¬s.lost rq.blockNum ∧ s.opened = 0

instance : Decidable (PutApart s rq uri r) := inferInstanceAs (Decidable (_ ∨ ite _ _ _))

/-- A request that keeps apart from the transfer to `r` -/
def Apart : Prop :=
  match rq.uri with
  | none => s.count = 0
  | some uri =>
    match rq.method with
    | .get => s.count = 0 ∧ GetApart s uri r ∧ s.Returns rq
    | .delete => s.count = 0 ∧ DeleteApart s uri r
    | .put | .post => PutApart s rq uri r

instance : Decidable (Apart s rq r) := by
  unfold Apart
  split
  · infer_instance
  · split <;> infer_instance

structure Quiet (s t : State) (r : Text) : Prop where
  tree : s.store.tree.Same t.store.tree
  agents : t.store.agents = s.store.agents
  files : t.store.files = s.store.files
  env : t.env = s.env
  opened : t.opened = s.opened
  locked : t.locked = s.locked
  count : t.count = s.count
  own : emmaGetRoot r = some .resource → t.store.values = s.store.values ∧ t.stack = s.stack ∧
    t.operandIndex = s.operandIndex ∧ s.reader.Same t.reader

end State

namespace State
variable {s : State} {uri : Text}

theorem lockable_of_lock (had : (s.lock uri).2 = true) : s.Lockable uri := by
  rcases s.lock_cases uri with ⟨failed, -, -⟩ | ⟨-, i, hi, released, -⟩
  · rw [failed] at had
    cases had
  · have hi : s.store.tree.resolve uri = some i := hi
    simp [Lockable, Store.emmaResourceExists, Store.emmaResourceIsLocked, hi, released]

end State

namespace State.Quiet
variable {P : Platform} {s t u : State} {rq : Request} {uri r : Text}

theorem refl (s : State) (r : Text) : Quiet s s r :=
  ⟨.refl _, rfl, rfl, rfl, rfl, rfl, rfl, fun _ => ⟨rfl, rfl, rfl, .refl _⟩⟩

theorem trans (a : Quiet s t r) (b : Quiet t u r) : Quiet s u r where
  tree := ⟨b.tree.links.trans a.tree.links, b.tree.name.trans a.tree.name,
    b.tree.data.trans a.tree.data, b.tree.list.trans a.tree.list⟩
  agents := b.agents.trans a.agents
  files := b.files.trans a.files
  env := b.env.trans a.env
  opened := b.opened.trans a.opened
  locked := b.locked.trans a.locked
  count := b.count.trans a.count
  own local' := by
    obtain ⟨values, stack, index, reader⟩ := a.own local'
    obtain ⟨values', stack', index', reader'⟩ := b.own local'
    exact ⟨values'.trans values, stack'.trans stack, index'.trans index,
      reader'.seed.trans reader.seed, reader'.draws.trans reader.draws⟩

theorem lock (s : State) (uri r : Text) : Quiet s (s.lock uri).1 r := by
  simp only [State.lock, Store.emmaResourceLock]
  split
  · split
    · exact refl s r
    · exact { refl s r with }
  · exact refl s r

theorem release (s : State) (uri r : Text) : Quiet s (s.release uri) r := by
  simp only [State.release, Store.emmaResourceRelease]
  split
  · exact { refl s r with }
  · exact refl s r

theorem setClocktime (s : State) (uri r : Text) : Quiet s (s.setClocktime uri) r := by
  simp only [State.setClocktime, Store.emmaResourceSetClocktime]
  split
  · exact { refl s r with }
  · exact refl s r

theorem setLastModified (s : State) (uri r : Text) (key : Modifier) :
    Quiet s (s.setLastModified uri key) r := by
  simp only [State.setLastModified]
  split
  · exact { refl s r with }
  · exact refl s r

theorem finish (s : State) (r : Text) (reply : Reply) (status : Status) {n : UInt32}
    (same : n.toUInt64 = s.count) : Quiet s (s.finish reply status n).1 r :=
  { refl s r with count := same }

theorem reader (s : State) (r : Text) {reader : Reader}
    (same : emmaGetRoot r = some .resource → s.reader.Same reader) :
    Quiet s { s with reader } r :=
  { refl s r with own := fun h => ⟨rfl, rfl, rfl, same h⟩ }

theorem emmaResourceOpen (s : State) {uri r : Text}
    (apart : emmaGetRoot r = some .resource → emmaGetRoot uri ≠ some .resource) :
    Quiet s (s.emmaResourceOpen uri).1 r := by
  unfold State.emmaResourceOpen
  cases root : emmaGetRoot uri with
  | none => exact refl s r
  | some root' =>
    cases s.resolve uri with
    | none => exact refl s r
    | some i =>
      cases root' with
      | resource => exact { refl s r with own := fun h => absurd root (apart h) }
      | agent => exact refl s r
      | system => exact refl s r

theorem emmaResourceClose (s : State) {uri r : Text}
    (apart : emmaGetRoot r = some .resource → emmaGetRoot uri ≠ some .resource) :
    Quiet s (s.emmaResourceClose P uri) r := by
  unfold State.emmaResourceClose
  split
  · rename_i root
    have foreign : emmaGetRoot r ≠ some .resource := fun h => apart h root
    cases s.resolve uri with
    | none => exact refl s r
    | some i =>
      simp only [rootResourceClose]
      split
      · exact { refl s r with own := fun h => absurd h foreign }
      · exact { refl s r with own := fun h => absurd h foreign }
  · exact refl s r

theorem emmaResourceRead (s : State) (uri : Text) {r : Text} (size : Nat) (index : Int)
    (apart : emmaGetRoot r = some .resource → ¬(emmaGetRoot uri = some .system ∧
      (emmaGetName uri).take 4 = chars ['r', 'a', 'n', 'd'])) :
    Quiet s (s.emmaResourceRead P uri size index).1 r := by
  refine reader s r fun h => ?_
  have still := apart h
  show s.reader.Same (s.store.emmaResourceRead P s.env uri size index s.reader).1
  unfold Store.emmaResourceRead
  cases root : emmaGetRoot uri with
  | none => exact .refl _
  | some root' =>
    simp only
    cases (s.store.tree.emmaGetResource (emmaGetName uri) root').resource with
    | none => exact .refl _
    | some i =>
      cases root' with
      | agent => exact .refl _
      | resource => exact .refl _
      | system =>
        have other : (emmaGetName uri).take 4 ≠ chars ['r', 'a', 'n', 'd'] :=
          fun e => still ⟨root, e⟩
        simp only [Store.rootSystemRead, if_neg other]
        split_ifs <;> exact ⟨rfl, rfl⟩

theorem getNextResourceNameByRoot (s : State) (root : Option Root) (size : Nat) (r : Text) :
    Quiet s (s.getNextResourceNameByRoot root size).1 r :=
  reader s r fun _ => ⟨rfl, rfl⟩

theorem listFrom (root : Option Root) (size : Nat) (packet : Int) (fuel : Nat) (buff : Text)
    (s : State) (dCnt : Int) (buffer r : Text) :
    Quiet s (State.listFrom root size packet fuel buff s dCnt buffer).1 r := by
  induction fuel generalizing buff s dCnt buffer with
  | zero => exact refl s r
  | succ fuel ih =>
    have next := getNextResourceNameByRoot s none size r
    simp only [State.listFrom]
    split_ifs <;> first | exact next | exact next.trans (ih _ _ _ _)

/-! ### Requests that keep apart -/

theorem handleGet (zero : s.count = 0) (apart : GetApart s uri r) (rq : Request) (reply : Reply) :
    Quiet s (s.handleGet P rq uri reply).1 r := by
  have ended {t : State} (q : Quiet s t r) (reply : Reply) (status : Status) :
      Quiet s (t.finish reply status 0).1 r :=
    q.trans (finish t r reply status (q.count.trans zero).symm)
  unfold State.handleGet
  split
  · unfold State.handleList
    simp only
    have named := getNextResourceNameByRoot s (emmaGetRoot uri) rq.preferredSize r
    exact ended (named.trans (listFrom _ _ _ _ _ _ _ _ r)) _ _
  rename_i single
  unfold State.handleRead
  have locked := lock s uri r
  rcases s.lock_cases uri with ⟨failed, -, -⟩ | ⟨had, i, hi, released, same⟩
  · have pair : s.lock uri = ((s.lock uri).1, false) := Prod.ext rfl failed
    rw [pair]
    exact ended locked _ _
  have free : s.Lockable uri := lockable_of_lock had
  have still : emmaGetRoot r = some .resource → emmaGetRoot uri ≠ some .resource ∧
      ¬(emmaGetRoot uri = some .system ∧
        (emmaGetName uri).take 4 = chars ['r', 'a', 'n', 'd']) := by
    intro own
    rcases apart with list | refused | foreign | still
    · exact absurd list single
    · exact absurd free refused
    · exact absurd own foreign
    · exact still
  have pair : s.lock uri = ((s.lock uri).1, true) := Prod.ext rfl had
  rw [pair]
  generalize (s.lock uri).1 = a at locked
  have opened := locked.trans (emmaResourceOpen a fun own => (still own).1)
  simp only
  split
  · rename_i b e
    rw [e] at opened
    exact ended (opened.trans (release b uri r)) _ _
  · rename_i b n _ e
    rw [e] at opened
    have read := opened.trans (emmaResourceRead (P := P) b uri rq.preferredSize rq.offset
      fun own => (still own).2)
    have closed := read.trans (emmaResourceClose (P := P) _ fun own => (still own).1)
    exact ended (closed.trans (release _ uri r)) _ _

theorem handleDelete (so : s.Sound) (zero : s.count = 0)
    (apart : ¬s.Lockable uri ∨ ∃ j ∈ s.resolve uri, (s.store.tree.links j).subRoot ≠ none)
    (r : Text) (reply : Reply) : Quiet s (s.handleDelete uri reply).1 r := by
  have locked := lock s uri r
  have sound := (Sound.kept .plain).lock uri so
  unfold State.handleDelete
  cases had : (s.lock uri).2 with
  | false =>
    have pair : s.lock uri = ((s.lock uri).1, false) := Prod.ext rfl had
    rw [pair]
    exact locked.trans (finish _ r reply _ (locked.count.trans zero).symm)
  | true =>
    have pair : s.lock uri = ((s.lock uri).1, true) := Prod.ext rfl had
    obtain ⟨j, hj, folder⟩ := apart.resolve_left (not_not_intro (lockable_of_lock had))
    rw [pair]
    generalize (s.lock uri).1 = a at locked sound
    obtain ⟨f, so⟩ := sound
    have hj : a.store.tree.resolve uri = some j := (locked.tree.resolve uri).trans hj
    simp only
    rcases Store.emmaResourceDel_spec so uri with ⟨root, i, -, hi, -, d⟩ | ⟨failed, kept, -⟩
    · obtain rfl : i = j := Option.some.inj (hi.symm.trans hj)
      have kept := congrArg Links.subRoot (congrFun locked.tree.links i)
      exact absurd (kept.symm.trans d.leaf) folder
    · have refused : Quiet a (a.del uri).1 r :=
        { refl a r with
          tree := by simp only [State.del, kept]; exact .refl _
          agents := congrArg Store.agents kept
          files := congrArg Store.files kept
          own := fun _ => ⟨congrArg Store.values kept, rfl, rfl, rfl, rfl⟩ }
      have answer : (a.del uri).2 ≠ 0 := failed
      generalize a.del uri = result at refused answer
      obtain ⟨b, n⟩ := result
      cases n with
      | zero => exact absurd rfl answer
      | succ n =>
        have given := (locked.trans refused).trans (release b uri r)
        exact given.trans (finish _ r reply _ (given.count.trans zero).symm)

theorem handlePut (apart : PutApart s rq uri r) (reply : Reply) :
    Quiet s (s.handlePut P rq uri reply).1 r := by
  unfold State.handlePut
  simp only
  split
  · exact refl s r
  rename_i fresh
  have apart := apart.resolve_left fresh
  by_cases empty : rq.payload = []
  · rw [if_pos empty] at apart ⊢
    obtain ⟨same, last⟩ := apart
    unfold handleEmpty
    simp only
    have marked := setLastModified s uri r .server
    cases more : rq.more with
    | true => exact finish s r _ _ same
    | false =>
      rcases last more with missing | ⟨-, apart⟩
      · have gone : s.setLastModified uri .server = s := by
          simp only [State.setLastModified, missing]
        have closed : s.emmaResourceClose P uri = s := by
          unfold State.emmaResourceClose
          split
          · simp only [missing]
          · rfl
        simp only [gone, closed]
        have given := release s uri r
        exact given.trans (finish _ r _ _ (same.trans given.count.symm))
      · have given := (marked.trans (emmaResourceClose (P := P) _ apart)).trans (release _ uri r)
        exact given.trans (finish _ r _ _ (same.trans given.count.symm))
  · rw [if_neg empty] at apart ⊢
    by_cases locked : s.locked = 0
    · rw [if_neg (fun h => h locked)] at apart
      obtain ⟨later, near, closed⟩ := apart
      rw [if_neg later]
      simp only [handleBlock, if_neg near, locked, ne_eq, not_true_eq_false, if_false, refuseBlock,
        closed]
      exact refl s r
    · rw [if_pos locked] at apart
      split
      · exact refl s r
      · rename_i later
        obtain ⟨opened, known⟩ := apart.resolve_left later
        have near : ¬s.lost rq.blockNum := by
          simp [lost, known]
        simp only [handleBlock, if_neg near, ne_eq, locked, not_false_eq_true, if_true, opened,
          known]
        exact refl s r

end State.Quiet

/-! ### Deletions that keep apart -/

namespace Forest
variable {ι κ : Type} [DecidableEq ι] [DecidableEq κ] {name : ι → κ} {t : Forest ι} {i z : ι}

theorem erase_comm (nd : t.walk.Nodup) (leafI : t.Leaf i) (leafZ : t.Leaf z) (ne : i ≠ z) :
    (t.erase z).erase i = (t.erase i).erase z := by
  induction t with
  | nil => rfl
  | node j sub next ihs ihn =>
    simp only [walk, List.nodup_append, List.nodup_cons, List.mem_cons] at nd
    obtain ⟨nds, ⟨-, ndn⟩, -⟩ := nd
    obtain ⟨hereI, subI, nextI⟩ := leafI
    obtain ⟨hereZ, subZ, nextZ⟩ := leafZ
    by_cases hz : j = z
    · have hi : j ≠ i := fun e => ne (e.symm.trans hz)
      rw [erase, if_pos hz, erase, if_neg hi, erase, if_pos hz]
    · by_cases hi : j = i
      · rw [erase, if_neg hz, erase, if_pos hi, erase, if_pos hi]
      · rw [erase, if_neg hz, erase, if_neg hi, erase, if_neg hi, erase, if_neg hz,
          ihs nds subI subZ, ihn ndn nextI nextZ]

omit [DecidableEq ι] in
theorem leaf_erase [DecidableEq ι] (leaf : t.Leaf i) : (t.erase z).Leaf i := by
  induction t with
  | nil => trivial
  | node j sub next ihs ihn =>
    obtain ⟨here, sub', next'⟩ := leaf
    rw [erase]
    split
    · exact next'
    · refine ⟨fun e => ?_, ihs sub', ihn next'⟩
      rw [here e]
      rfl

theorem find_erase_erase {path : List κ} (nd : t.walk.Nodup) (leafI : t.Leaf i)
    (leafZ : t.Leaf z) (ne : i ≠ z) (h : t.find name path = some i) :
    (t.erase i).find name path = some z ∨
      ((t.erase z).erase i).find name path = (t.erase i).find name path := by
  rw [or_iff_not_imp_left]
  intro other
  induction path generalizing t with
  | nil => rfl
  | cons s rest ih =>
    cases rest with
    | nil =>
      simp only [find] at other ⊢
      rw [erase_comm nd leafI leafZ ne]
      cases hs : (t.erase i).scan name s with
      | none => rw [scan_erase_none hs]
      | some pair =>
        obtain ⟨j, sub⟩ := pair
        have hj : j ≠ z := by
          rintro rfl
          exact other (by rw [hs]; rfl)
        have nd' : (t.erase i).walk.Nodup := by
          by_cases hi : i ∈ t.walk
          · exact (List.nodup_cons.mp ((erase_perm hi nd leafI).nodup_iff.mp nd)).2
          · rwa [erase_of_not_mem hi]
        rw [scan_erase nd' hs hj]
        rfl
    | cons s' rest' =>
      simp only [find, Option.bind_eq_some_iff] at h
      obtain ⟨⟨k, sub⟩, hs, hf⟩ := h
      obtain ⟨nds, below⟩ := scan_sub nd hs
      have inside := find_mem hf
      have hki : k ≠ i := by
        rintro rfl
        rw [(below k leafI).2 rfl] at inside
        simp [walk] at inside
      have hkz : k ≠ z := by
        rintro rfl
        rw [(below k leafZ).2 rfl] at inside
        simp [walk] at inside
      have ndz : (t.erase z).walk.Nodup := by
        by_cases hz : z ∈ t.walk
        · exact (List.nodup_cons.mp ((erase_perm hz nd leafZ).nodup_iff.mp nd)).2
        · rwa [erase_of_not_mem hz]
      have first := scan_erase nd hs hki
      have second := scan_erase ndz (scan_erase nd hs hkz) hki
      simp only [find, first, second, Option.bind_some] at other ⊢
      exact ih nds (below i leafI).1 (below z leafZ).1 hf other

end Forest

theorem Represents.leaf_of_erase {ι : Type} [DecidableEq ι] {h : ι → Links ι} {p head : Option ι}
    {t : Forest ι} {i z : ι} (rep : Represents h p head t)
    (only : (h i).subRoot = some z → (h z).next ≠ none) (ne : i ≠ z) (leafZ : t.Leaf z)
    (leaf : (t.erase z).Leaf i) : t.Leaf i := by
  induction t generalizing p head with
  | nil => trivial
  | node j sub next ihs ihn =>
    obtain ⟨-, -, rs, rn⟩ := rep
    obtain ⟨hereZ, subZ, nextZ⟩ := leafZ
    rw [Forest.erase] at leaf
    split at leaf
    · rename_i e
      refine ⟨fun e' => absurd (e'.symm.trans e) ne, ?_, leaf⟩
      rw [hereZ e]
      trivial
    · obtain ⟨here, sub', next'⟩ := leaf
      refine ⟨?_, ihs rs subZ sub', ihn rn nextZ next'⟩
      rintro rfl
      have gone := here rfl
      cases sub with
      | nil => rfl
      | node k s n =>
        rw [Forest.erase] at gone
        split at gone
        · rename_i e
          subst e
          subst gone
          exact absurd rs.2.2.2 (only rs.1)
        · cases gone

namespace Store
variable {st st' : Store} {f : Root → Forest Nat} {root : Root} {uri r : Text} {i z : Nat}

theorem setForest_erase_find (so : st.Sound f) (leaf : (f root).Leaf z) {r : Root}
    {path : List Text} (h : (f r).find st.tree.name path = some i) (ne : i ≠ z) :
    (setForest f root ((f root).erase z) r).find st.tree.name path = some i := by
  by_cases e : r = root
  · subst e
    simp only [setForest, Function.update_self]
    exact Forest.find_erase (so.shape.nodup r) leaf h ne
  · simpa only [setForest, Function.update_of_ne e] using h

theorem Deleted.apart (so : st.Sound f) (d : Deleted st st' f root z)
    (hroot : emmaGetRoot uri = some root) (hz : st.tree.resolve uri = some z)
    (hi : st.tree.resolve r = some i) (ne : i ≠ z)
    (only : (st.tree.links i).subRoot = some z → (st.tree.links z).next ≠ none) :
    st'.tree.resolve r = some i ∧
      ((st'.tree.links i).subRoot = none ↔ (st.tree.links i).subRoot = none) ∧
      (st'.emmaResourceDel r).1.tree.resolve r = (st.emmaResourceDel r).1.tree.resolve r := by
  have sh := so.shape
  have leafZ : (f root).Leaf z := (sh.rep root).leaf d.leaf
  obtain ⟨root', hr, mem⟩ := sh.resolve_mem hi
  have found := hi
  rw [sh.resolve_eq, hr, Option.bind_some] at found
  have kept := setForest_erase_find so leafZ found ne
  have there : st'.tree.resolve r = some i := by
    rw [d.sound.shape.resolve_eq, hr, Option.bind_some, d.same.name]
    exact kept
  have mem' : i ∈ (setForest f root ((f root).erase z) root').walk := Forest.find_mem kept
  -- a leaf in one forest and in the other
  have leaves : (setForest f root ((f root).erase z) root').Leaf i ↔ (f root').Leaf i := by
    by_cases e : root' = root
    · subst e
      simp only [setForest, Function.update_self]
      exact ⟨(sh.rep root').leaf_of_erase only ne leafZ, Forest.leaf_erase⟩
    · simp only [setForest, Function.update_of_ne e]
  have folder : (st'.tree.links i).subRoot = none ↔ (st.tree.links i).subRoot = none := by
    constructor
    · intro h
      exact (sh.rep root').subRoot_of_leaf mem (leaves.mp ((d.sound.shape.rep root').leaf h))
    · intro h
      exact (d.sound.shape.rep root').subRoot_of_leaf mem' (leaves.mpr ((sh.rep root').leaf h))
  refine ⟨there, folder, ?_⟩
  rcases emmaResourceDel_spec so r with ⟨r₁, j, hr₁, hj, -, d₁⟩ | ⟨-, same, inner⟩
  · obtain rfl : root' = r₁ := Option.some.inj (hr.symm.trans hr₁)
    obtain rfl : i = j := Option.some.inj (hi.symm.trans hj)
    rcases emmaResourceDel_spec d.sound r with ⟨r₂, k, hr₂, hk, -, d₂⟩ | ⟨-, -, inner⟩
    · obtain rfl : root' = r₂ := Option.some.inj (hr.symm.trans hr₂)
      obtain rfl : i = k := Option.some.inj (there.symm.trans hk)
      rw [d₂.sound.shape.resolve_eq, d₁.sound.shape.resolve_eq, hr, Option.bind_some,
        Option.bind_some, d₂.same.name, d₁.same.name, d.same.name]
      by_cases e : root' = root
      · subst e
        simp only [setForest, Function.update_self]
        have leafI : (f root').Leaf i := (sh.rep root').leaf d₁.leaf
        rw [sh.resolve_eq, hroot, Option.bind_some] at hz
        rcases Forest.find_erase_erase (sh.nodup root') leafI leafZ ne found with again | same
        · -- the ways to both would be one
          have nd : ((f root').erase i).walk.Nodup :=
            (List.nodup_cons.mp ((Forest.erase_perm mem (sh.nodup root') leafI).nodup_iff.mp
              (sh.nodup root'))).2
          have still := Forest.find_erase (sh.nodup root') leafI hz (Ne.symm ne)
          have one := (Forest.way_find nd again).symm.trans (Forest.way_find nd still)
          rw [one, hz] at found
          exact absurd (Option.some.inj found).symm ne
        · exact same
      · simp only [setForest, Function.update_self, Function.update_of_ne e]
    · have := inner i there
      rw [folder.mpr d₁.leaf] at this
      cases this
  · have inside := inner i hi
    rcases emmaResourceDel_spec d.sound r with ⟨r₂, k, -, hk, -, d₂⟩ | ⟨-, same', -⟩
    · obtain rfl : i = k := Option.some.inj (there.symm.trans hk)
      rw [folder.mp d₂.leaf] at inside
      cases inside
    · rw [same, same', there, hi]

end Store

/-! ### Transfers that are no expressions -/

namespace Store

/-- `r` leads nowhere in both stores, or to the same resource. That is a folder in both, or
in both a leaf behind which `r` leads nowhere. -/
def Twins (st st' : Store) (r : Text) : Prop :=
  (st.tree.resolve r = none ∧ st'.tree.resolve r = none) ∨
    ∃ i, st.tree.resolve r = some i ∧ st'.tree.resolve r = some i ∧
      ((st'.tree.links i).subRoot = none ↔ (st.tree.links i).subRoot = none) ∧
      ((st.tree.links i).subRoot = none → (st.emmaResourceDel r).1.tree.resolve r = none ∧
        (st'.emmaResourceDel r).1.tree.resolve r = none)

end Store

namespace State

structure Beside (s t : State) (r : Text) : Prop where
  opened : t.opened = s.opened
  locked : t.locked = s.locked
  count : t.count = s.count
  data : t.store.tree.data = s.store.tree.data
  agents : t.store.agents = s.store.agents
  files : t.store.files = s.store.files
  tree : s.store.tree.Same t.store.tree ∨ s.store.Twins t.store r

end State

namespace Store.Twins
variable {st st' a b : Store} {r : Text}

theorem resolve (h : st.Twins st' r) : st'.tree.resolve r = st.tree.resolve r := by
  rcases h with ⟨left, right⟩ | ⟨i, left, right, -⟩ <;> rw [left, right]

theorem congr (h : st.Twins st' r) (left : st.tree.Same a.tree) (right : st'.tree.Same b.tree) :
    a.Twins b r := by
  have deletedA := (emmaResourceDel_tree left r).1.resolve r
  have deletedB := (emmaResourceDel_tree right r).1.resolve r
  simpa only [Twins, left.resolve, right.resolve, left.links, right.links, deletedA, deletedB]
    using h

theorem deleted (h : st.Twins st' r) :
    (st.emmaResourceDel r).1.Twins (st'.emmaResourceDel r).1 r ∧
      (st'.emmaResourceDel r).2 = (st.emmaResourceDel r).2 := by
  have refused {x : Store} (h : x.tree.resolve r = none ∨
      ∃ i, x.tree.resolve r = some i ∧ (x.tree.links i).subRoot ≠ none) :
      (x.emmaResourceDel r).1 = x := by
    unfold emmaResourceDel
    cases root : emmaGetRoot r with
    | none => rfl
    | some root' =>
      rw [Tree.resolve, root, Option.bind_some] at h
      simp only
      rcases h with h | ⟨i, h, folder⟩
      · rw [h]
      · rw [h]
        simp only [Option.isSome_iff_ne_none.mpr folder, if_true]
  have answer {x y : Store} (same : y.tree.resolve r = x.tree.resolve r)
      (folder : ∀ i, x.tree.resolve r = some i →
        ((y.tree.links i).subRoot = none ↔ (x.tree.links i).subRoot = none)) :
      (y.emmaResourceDel r).2 = (x.emmaResourceDel r).2 := by
    unfold emmaResourceDel
    cases root : emmaGetRoot r with
    | none => rfl
    | some root' =>
      rw [Tree.resolve, Tree.resolve, root, Option.bind_some, Option.bind_some] at same
      rw [Tree.resolve, root, Option.bind_some] at folder
      simp only [same]
      cases hi : (x.tree.emmaGetResource (emmaGetName r) root').resource with
      | none => rfl
      | some i =>
        have leaf := folder i hi
        simp only
        cases hx : (x.tree.links i).subRoot with
        | none => simp [leaf.mpr hx]
        | some j =>
          have : (y.tree.links i).subRoot ≠ none := fun e => by simp [leaf.mp e] at hx
          simp [Option.isSome_iff_ne_none.mpr this]
  rcases h with ⟨left, right⟩ | ⟨i, left, right, folder, sole⟩
  · rw [refused (.inl left), refused (.inl right)]
    exact ⟨.inl ⟨left, right⟩, answer (right.trans left.symm) (by simp [left])⟩
  · have same := answer (right.trans left.symm) fun j hj => by
      obtain rfl : i = j := Option.some.inj (left.symm.trans hj)
      exact folder
    by_cases leaf : (st.tree.links i).subRoot = none
    · exact ⟨.inl (sole leaf), same⟩
    · rw [refused (.inr ⟨i, left, leaf⟩), refused (.inr ⟨i, right, fun e => leaf (folder.mp e)⟩)]
      exact ⟨.inr ⟨i, left, right, folder, sole⟩, answer (right.trans left.symm) fun j hj => by
        obtain rfl : i = j := Option.some.inj (left.symm.trans hj)
        exact folder⟩

end Store.Twins

namespace State.Beside
variable {P : Platform} {s t s' t' : State} {rq : Request} {uri r : Text}

theorem resolve (h : s.Beside t r) : t.resolve r = s.resolve r :=
  h.tree.elim (fun same => same.resolve r) fun twins => twins.resolve

theorem onward (h : s.Beside t r) (a : s.store.tree.Same s'.store.tree)
    (b : t.store.tree.Same t'.store.tree) :
    s'.store.tree.Same t'.store.tree ∨ s'.store.Twins t'.store r :=
  h.tree.imp
    (fun same => ⟨b.links.trans (same.links.trans a.links.symm),
      b.name.trans (same.name.trans a.name.symm), b.data.trans (same.data.trans a.data.symm),
      b.list.trans (same.list.trans a.list.symm)⟩)
    fun twins => twins.congr a b

theorem quiet (h : s.Beside t r) (a : Quiet s s' r) (b : Quiet t t' r) : s'.Beside t' r where
  opened := b.opened.trans (h.opened.trans a.opened.symm)
  locked := b.locked.trans (h.locked.trans a.locked.symm)
  count := b.count.trans (h.count.trans a.count.symm)
  data := b.tree.data.trans (h.data.trans a.tree.data.symm)
  agents := b.agents.trans (h.agents.trans a.agents.symm)
  files := b.files.trans (h.files.trans a.files.symm)
  tree := h.onward a.tree b.tree

theorem flags (h : s.Beside t r) (opened locked : UInt8) :
    State.Beside { s with opened, locked } { t with opened, locked } r :=
  { h with opened := rfl, locked := rfl }

theorem setLastModifier (h : s.Beside t r) (key : Modifier) :
    (s.setLastModifier key).Beside (t.setLastModifier key) r := { h with }

theorem finish (h : s.Beside t r) (reply : Reply) (status : Status) (n : UInt32) :
    (s.finish reply status n).1.Beside (t.finish reply status n).1 r ∧
      (t.finish reply status n).2 = (s.finish reply status n).2 :=
  ⟨{ h with count := rfl }, rfl⟩

theorem del (h : s.Beside t r) :
    (s.del r).1.Beside (t.del r).1 r ∧ (t.del r).2 = (s.del r).2 := by
  have kept := s.store.emmaResourceDel_content r
  have kept' := t.store.emmaResourceDel_content r
  have frame (tree : (s.del r).1.store.tree.Same (t.del r).1.store.tree ∨
      (s.del r).1.store.Twins (t.del r).1.store r) : (s.del r).1.Beside (t.del r).1 r :=
    ⟨h.opened, h.locked, h.count, kept'.data.trans (h.data.trans kept.data.symm),
      kept'.agents.trans (h.agents.trans kept.agents.symm),
      kept'.files.trans (h.files.trans kept.files.symm), tree⟩
  rcases h.tree with same | twins
  · obtain ⟨tree, answer⟩ := Store.emmaResourceDel_tree same r
    exact ⟨frame (.inl tree), answer⟩
  · obtain ⟨deleted, answer⟩ := twins.deleted
    exact ⟨frame (.inr deleted), answer⟩

theorem cancelTransfer (h : s.Beside t r) : (s.cancelTransfer r).Beside (t.cancelTransfer r) r := by
  obtain ⟨deleted, answer⟩ := h.del
  unfold State.cancelTransfer
  revert deleted answer
  rcases s.del r with ⟨u, n⟩
  rcases t.del r with ⟨u', n'⟩
  rintro deleted rfl
  cases n' with
  | zero => exact (deleted.setLastModifier .server).flags 0 0
  | succ n => exact (deleted.quiet (.release u r r) (.release u' r r)).flags 0 0

theorem write (h : s.Beside t r) (foreign : emmaGetRoot r ≠ some .resource) (block : Text)
    (index : Int) :
    (s.emmaResourceWrite P r block index).1.Beside (t.emmaResourceWrite P r block index).1 r ∧
      (t.emmaResourceWrite P r block index).2 = (s.emmaResourceWrite P r block index).2 := by
  unfold State.emmaResourceWrite
  cases root : emmaGetRoot r with
  | none => exact ⟨h, rfl⟩
  | some root' =>
    simp only [h.resolve]
    cases s.resolve r with
    | none => exact ⟨h, rfl⟩
    | some i =>
      cases root' with
      | resource => exact absurd root foreign
      | system => exact ⟨h, rfl⟩
      | agent =>
        have written {a b : Store} (tree : s.store.tree.Same a.tree)
            (tree' : t.store.tree.Same b.tree) (agents : b.agents = a.agents)
            (files : b.files = a.files) :
            State.Beside { s with store := a } { t with store := b } r :=
          ⟨h.opened, h.locked, h.count, tree'.data.trans (h.data.trans tree.data.symm), agents,
            files, h.onward tree tree'⟩
        simp only [Store.rootAgentWrite, h.data, h.agents, h.files]
        split
        · exact ⟨written (.refl _) (.refl _) rfl rfl, rfl⟩
        · split
          · exact ⟨written (.refl _) (.refl _) rfl rfl, rfl⟩
          · exact ⟨written (.refl _) (.refl _) rfl rfl, rfl⟩

theorem writeBlock (h : s.Beside t r) (foreign : emmaGetRoot r ≠ some .resource) (rq : Request) :
    (s.writeBlock P rq r).1.Beside (t.writeBlock P rq r).1 r ∧
      (t.writeBlock P rq r).2 = (s.writeBlock P rq r).2 := by
  obtain ⟨written, length⟩ := h.write (P := P) foreign rq.payload (blockIndex P rq)
  simp only [State.writeBlock, length]
  split
  · exact ⟨written, rfl⟩
  · exact ⟨written.cancelTransfer, rfl⟩

theorem endTransfer (h : s.Beside t r) (foreign : emmaGetRoot r ≠ some .resource) :
    (s.endTransfer P r).Beside (t.endTransfer P r) r := by
  have ended (u : State) : Quiet u
      (((u.setLastModified r .server).emmaResourceClose P r).release r) r :=
    ((Quiet.setLastModified u r r .server).trans
      (.emmaResourceClose _ fun own => absurd own foreign)).trans (.release _ r r)
  exact { h.quiet (ended s) (ended t) with locked := rfl }

theorem takeBlock (h : s.Beside t r) (foreign : emmaGetRoot r ≠ some .resource) (reply : Reply) :
    (s.takeBlock P rq r reply).1.Beside (t.takeBlock P rq r reply).1 r ∧
      (t.takeBlock P rq r reply).2 = (s.takeBlock P rq r reply).2 := by
  obtain ⟨written, status⟩ := h.writeBlock (P := P) foreign rq
  have timed := written.quiet (.setClocktime _ r r) (.setClocktime _ r r)
  simp only [State.takeBlock, status]
  split
  · exact timed.finish reply _ _
  · exact (timed.endTransfer foreign).finish reply _ _

theorem handleBlock (h : s.Beside t r) (foreign : emmaGetRoot r ≠ some .resource)
    (reply : Reply) : (s.handleBlock P rq r reply).1.Beside (t.handleBlock P rq r reply).1 r ∧
      (t.handleBlock P rq r reply).2 = (s.handleBlock P rq r reply).2 := by
  have closed (u : State) : Quiet u (u.emmaResourceClose P r) r :=
    .emmaResourceClose u fun own => absurd own foreign
  simp only [State.handleBlock, lost, h.count, h.locked, h.opened]
  split
  · exact ⟨h.cancelTransfer, rfl⟩
  split
  · split
    · split
      · exact ⟨h, rfl⟩
      · exact h.takeBlock foreign reply
    · exact ⟨{ h.quiet (.release s r r) (.release t r r) with locked := rfl }, rfl⟩
  · simp only [refuseBlock, h.opened]
    split
    · exact ⟨{ h.quiet (closed s) (closed t) with opened := rfl }, trivial⟩
    · exact ⟨h, trivial⟩

theorem handlePut (h : s.Beside t r) (foreign : emmaGetRoot r ≠ some .resource)
    (later : rq.blockNum ≠ 0) (reply : Reply) :
    (s.handlePut P rq r reply).1.Beside (t.handlePut P rq r reply).1 r ∧
      (t.handlePut P rq r reply).2 = (s.handlePut P rq r reply).2 := by
  have ended (u : State) : Quiet u
      (((u.setLastModified r .server).emmaResourceClose P r).release r) r :=
    ((Quiet.setLastModified u r r .server).trans
      (.emmaResourceClose _ fun own => absurd own foreign)).trans (.release _ r r)
  have there : t.store.emmaResourceExists r = s.store.emmaResourceExists r :=
    congrArg Option.isSome h.resolve
  simp only [State.handlePut, there, h.locked, if_neg later]
  split
  · exact ⟨h, rfl⟩
  split
  · simp only [State.handleEmpty]
    split
    · exact h.finish _ _ _
    · exact (h.quiet (ended s) (ended t)).finish _ _ _
  · exact h.handleBlock foreign _

theorem del_other (h : s.Beside t r) (uri : Text) (so : t.Sound) {i : Nat} (hi : t.resolve r = some i)
    (apart : ∀ j ∈ t.resolve uri, i ≠ j ∧
      ((t.store.tree.links i).subRoot = some j → (t.store.tree.links j).next ≠ none) ∧
      ((t.store.tree.links i).subRoot = none →
        (t.store.emmaResourceDel r).1.emmaResourceExists r = false)) :
    s.Beside (t.del uri).1 r := by
  obtain ⟨f, so⟩ := so
  rcases Store.emmaResourceDel_spec so uri with ⟨root, j, hroot, hj, -, d⟩ | ⟨-, kept, -⟩
  · obtain ⟨ne, only, sole⟩ := apart j hj
    obtain ⟨there, folder, again⟩ := d.apart so hroot hj hi ne only
    have gone (leaf : (t.store.tree.links i).subRoot = none) :
        (t.store.emmaResourceDel r).1.tree.resolve r = none := by
      simpa [Store.emmaResourceExists] using sole leaf
    refine ⟨h.opened, h.locked, h.count, d.same.data.trans h.data, d.same.agents.trans h.agents,
      d.same.files.trans h.files, .inr ?_⟩
    rcases h.tree with same | ⟨-, missing⟩ | ⟨k, hk, hk', folder', sole'⟩
    · refine .inr ⟨i, (same.resolve r).symm.trans hi, there, folder.trans ?_, fun leaf => ?_⟩
      · rw [same.links]
      · rw [← same.links] at leaf
        exact ⟨((Store.emmaResourceDel_tree same r).1.resolve r).symm.trans (gone leaf),
          again.trans (gone leaf)⟩
    · exact absurd (hi.symm.trans missing) (by simp)
    · obtain rfl : i = k := Option.some.inj (hi.symm.trans hk')
      exact .inr ⟨i, hk, there, folder.trans folder', fun leaf => ⟨(sole' leaf).1,
        again.trans (sole' leaf).2⟩⟩
  · have store : (t.del uri).1.store = t.store := kept
    exact ⟨h.opened, h.locked, h.count, by rw [store, h.data], by rw [store, h.agents],
      by rw [store, h.files], by rw [store]; exact h.tree⟩

theorem handleDelete (h : s.Beside t r) (so : t.Sound) (zero : t.count = 0)
    (apart : DeleteApart t uri r) (reply : Reply) : s.Beside (t.handleDelete uri reply).1 r := by
  by_cases refused : ¬t.Lockable uri ∨
      ∃ j ∈ t.resolve uri, (t.store.tree.links j).subRoot ≠ none
  · exact h.quiet (.refl s r) (.handleDelete so zero refused r reply)
  rw [DeleteApart, ← or_assoc] at apart
  obtain ⟨-, i, hi, apart⟩ := apart.resolve_left refused
  have locked := Quiet.lock t uri r
  have sound := (Sound.kept .plain).lock uri so
  have besides := h.quiet (.refl s r) locked
  unfold State.handleDelete
  cases had : (t.lock uri).2 with
  | false =>
    have pair : t.lock uri = ((t.lock uri).1, false) := Prod.ext rfl had
    rw [pair]
    exact besides.quiet (.refl s r) (.finish _ r reply _ (locked.count.trans zero).symm)
  | true =>
    have pair : t.lock uri = ((t.lock uri).1, true) := Prod.ext rfl had
    rw [pair]
    generalize (t.lock uri).1 = a at locked sound besides
    have gone := (Store.emmaResourceDel_tree locked.tree r).1
    have deleted := besides.del_other uri sound ((locked.tree.resolve r).trans hi)
      (by simpa only [State.resolve, locked.tree.resolve, locked.tree.links,
        Store.emmaResourceExists, gone.resolve] using apart)
    have counted : (a.del uri).1.count = 0 := locked.count.trans zero
    simp only
    generalize a.del uri = result at deleted counted
    obtain ⟨b, n⟩ := result
    cases n with
    | zero => exact { deleted with count := counted.symm.trans deleted.count }
    | succ n =>
      have given := Quiet.release b uri r
      exact deleted.quiet (.refl s r)
        (given.trans (.finish _ r reply _ (given.count.trans counted).symm))

end State.Beside

/-! ### Transfers with others in between -/

namespace State
variable {P : Platform} {s t u : State} {rq : Request} {uri : Text}

def Stands (s t : State) (uri : Text) : Prop :=
  emmaGetRoot uri = some .resource ∧ s.Akin (Calculator.Level Reader.Same) t ∨
    emmaGetRoot uri ≠ some .resource ∧ s.Beside t uri

namespace Stands

theorem refl (s : State) (uri : Text) : s.Stands s uri := by
  by_cases root : emmaGetRoot uri = some .resource
  · exact .inl ⟨root, .refl _, rfl, Iff.rfl, Iff.rfl, rfl, Calculator.level_of rfl rfl (.refl _)⟩
  · exact .inr ⟨root, rfl, rfl, rfl, rfl, rfl, rfl, .inl (.refl _)⟩

theorem resolve (h : s.Stands t uri) : t.resolve uri = s.resolve uri :=
  h.elim (fun local' => local'.2.resolve uri) fun foreign => foreign.2.resolve

theorem content (h : s.Stands t uri) : t.content uri = s.content uri := by
  have found := h.resolve
  have held : t.store.tree.data = s.store.tree.data ∧ t.store.agents = s.store.agents ∧
      t.store.files = s.store.files := by
    rcases h with ⟨-, h⟩ | ⟨-, h⟩
    · exact ⟨h.store.tree.data, h.store.agents, h.store.files⟩
    · exact ⟨h.data, h.agents, h.files⟩
  obtain ⟨data, agents, files⟩ := held
  simp only [State.resolve] at found
  simp only [State.content, Store.slotOf, found, data, agents, files]

theorem valueOf (root : emmaGetRoot uri = some .resource) (h : s.Stands t uri) :
    t.valueOf uri = s.valueOf uri := by
  rcases h with ⟨-, h⟩ | ⟨foreign, -⟩
  · rw [State.valueOf, State.valueOf, h.resolve, h.store.values, h.store.tree.data]
  · exact absurd root foreign

theorem quiet (h : s.Stands t uri) (q : Quiet t u uri) : s.Stands u uri := by
  rcases h with ⟨root, h⟩ | ⟨foreign, h⟩
  · obtain ⟨values, stack, index, reader⟩ := q.own root
    have same : s.reader.Same t.reader := h.calculator.env
    refine .inl ⟨root, h.store.trans ⟨q.tree, q.agents, values, q.files⟩, q.env.trans h.env, ?_, ?_,
      q.count.trans h.count, Calculator.level_of (stack.trans h.calculator.stack)
        (index.trans h.calculator.operandIndex)
        ⟨reader.seed.trans same.seed, reader.draws.trans same.draws⟩⟩
    · rw [q.opened]
      exact h.opened
    · rw [q.locked]
      exact h.locked
  · exact .inr ⟨foreign, h.quiet (.refl s uri) q⟩

theorem other (h : s.Stands t uri) (so : t.Sound) (apart : Apart t rq uri) :
    s.Stands (t.emmaServerHandler P rq).1 uri := by
  unfold Apart at apart
  unfold emmaServerHandler
  cases here : rq.uri with
  | none =>
    rw [here] at apart
    exact h.quiet (.finish t uri _ _ (Eq.symm apart))
  | some uri' =>
    rw [here] at apart
    cases method : rq.method with
    | get =>
      rw [method] at apart
      exact h.quiet (.handleGet apart.1 apart.2.1 rq _)
    | put =>
      rw [method] at apart
      exact h.quiet (.handlePut apart _)
    | post =>
      rw [method] at apart
      exact h.quiet (.handlePut apart _)
    | delete =>
      rw [method] at apart
      obtain ⟨zero, apart⟩ := apart
      rcases h with ⟨root, h⟩ | ⟨foreign, h⟩
      · rw [DeleteApart, ← or_assoc] at apart
        have refused := apart.resolve_right fun gone => gone.1 root
        exact quiet (.inl ⟨root, h⟩) (.handleDelete so zero refused uri _)
      · exact .inr ⟨foreign, h.handleDelete so zero apart _⟩

theorem own (h : s.Stands t uri) (method : rq.method = .put ∨ rq.method = .post)
    (here : rq.uri = some uri) (later : rq.blockNum ≠ 0) :
    (s.emmaServerHandler P rq).1.Stands (t.emmaServerHandler P rq).1 uri ∧
      (t.emmaServerHandler P rq).2 = (s.emmaServerHandler P rq).2 := by
  have put (u : State) : u.emmaServerHandler P rq = u.handlePut P rq uri (.init rq) := by
    unfold emmaServerHandler
    rcases method with method | method <;> simp only [here, method]
  rw [put, put]
  rcases h with ⟨root, h⟩ | ⟨foreign, h⟩
  · obtain ⟨after, reply⟩ := h.handlePut (Calculator.congruent_level P) later (.init rq)
    exact ⟨.inl ⟨root, after⟩, reply⟩
  · obtain ⟨after, reply⟩ := h.handlePut (P := P) foreign later (.init rq)
    exact ⟨.inr ⟨foreign, after⟩, reply⟩

end Stands
end State

/-! ### Runs -/

inductive Turn where
  | own (rq : Request)
  | other (rq : Request)

def State.answer (s : State) (reply : Reply) : Option Reply := if s.hung then none else some reply

/-- A transfer with requests in between, and the same transfer on a node of its own: the
blocks have been answered in pairs. -/
structure Interleaving where
  mixed : State
  alone : State
  replies : List (Option Reply × Option Reply)

namespace Interleaving
variable (P : Platform) (uri : Text) (p : Interleaving)

def init (s : State) : Interleaving := ⟨s, s, []⟩

def step (turn : Turn) : Option Interleaving :=
  if p.mixed.hung || p.alone.hung then none
  else match turn with
    | .own rq =>
      let (mixed, reply) := p.mixed.emmaServerHandler P rq
      let (alone, reply') := p.alone.emmaServerHandler P rq
      some ⟨mixed, alone, p.replies ++ [(mixed.answer reply, alone.answer reply')]⟩
    | .other rq => some { p with mixed := (p.mixed.emmaServerHandler P rq).1 }

/-- The blocks come once each and in order. What comes before the first one is not in
between. -/
def Allowed : Turn → Prop
  | .own rq => (rq.method = .put ∨ rq.method = .post) ∧ rq.uri = some uri ∧
      rq.blockNum.toNat = p.replies.length
  | .other rq => p.replies ≠ [] ∧ rq.uri ≠ some uri

instance (turn : Turn) : Decidable (p.Allowed uri turn) := by
  cases turn <;> simp only [Allowed] <;> infer_instance

/-- What comes in between keeps apart from the transfer. -/
def Clear (turn : Turn) : Prop :=
  p.Allowed uri turn ∧ ∀ rq, turn = .other rq → State.Apart p.mixed rq uri

instance (turn : Turn) : Decidable (p.Clear uri turn) := by
  unfold Clear
  cases turn with
  | own rq => exact decidable_of_iff (p.Allowed uri (.own rq)) (by simp)
  | other rq =>
    exact decidable_of_iff (p.Allowed uri (.other rq) ∧ State.Apart p.mixed rq uri) (by simp)

/-- Nothing is seen of what has come in between. -/
structure Isolated : Prop where
  hung : p.mixed.hung = p.alone.hung
  replies : ∀ reply ∈ p.replies, reply.1 = reply.2
  resolve : p.mixed.resolve uri = p.alone.resolve uri
  content : p.mixed.content uri = p.alone.content uri
  value : emmaGetRoot uri = some .resource → p.mixed.valueOf uri = p.alone.valueOf uri

end Interleaving

namespace Interleaving
variable {P : Platform} {uri : Text} {s : State} {p q : Interleaving}

/-- Between any two turns -/
structure Inv (uri : Text) (p : Interleaving) : Prop where
  sound : p.mixed.Sound
  alone : p.alone.Sound
  hung : p.mixed.hung = p.alone.hung
  replies : ∀ reply ∈ p.replies, reply.1 = reply.2
  stands : p.alone.Stands p.mixed uri
  start : p.replies = [] → p.mixed = p.alone

theorem returns_of_apart {rq : Request} (apart : State.Apart s rq uri) : s.Returns rq := by
  intro uri' here get
  have apart : s.count = 0 ∧ State.GetApart s uri' uri ∧ s.Returns rq := by
    simpa only [State.Apart, Option.mem_def.mp here, get] using apart
  exact apart.2.2 uri' here get

theorem step_cases {turn : Turn} (step : p.step P turn = some q) :
    (∃ rq, turn = .own rq ∧ q = ⟨(p.mixed.emmaServerHandler P rq).1,
      (p.alone.emmaServerHandler P rq).1, p.replies ++
        [((p.mixed.emmaServerHandler P rq).1.answer (p.mixed.emmaServerHandler P rq).2,
          (p.alone.emmaServerHandler P rq).1.answer (p.alone.emmaServerHandler P rq).2)]⟩) ∨
    ∃ rq, turn = .other rq ∧ q = { p with mixed := (p.mixed.emmaServerHandler P rq).1 } := by
  unfold Interleaving.step at step
  split at step
  · cases step
  cases turn with
  | own rq => exact .inl ⟨rq, rfl, (Option.some.inj step).symm⟩
  | other rq => exact .inr ⟨rq, rfl, (Option.some.inj step).symm⟩

theorem Inv.step (inv : Inv uri p) {turn : Turn} (clear : p.Clear uri turn)
    (step : p.step P turn = some q) : Inv uri q := by
  obtain ⟨allowed, apart⟩ := clear
  have sound (rq : Request) := (State.Sound.kept P).emmaServerHandler trivial rq inv.sound
  obtain ⟨rq, rfl, rfl⟩ | ⟨rq, rfl, rfl⟩ := step_cases step
  · obtain ⟨method, here, num⟩ := allowed
    have alike : (p.alone.emmaServerHandler P rq).1.Stands (p.mixed.emmaServerHandler P rq).1 uri ∧
        (p.mixed.emmaServerHandler P rq).2 = (p.alone.emmaServerHandler P rq).2 := by
      by_cases first : p.replies = []
      · rw [inv.start first]
        exact ⟨.refl _ _, rfl⟩
      · refine inv.stands.own method here fun zero => first ?_
        rw [zero] at num
        exact List.length_eq_zero_iff.mp num.symm
    have other (s : State) : s.Returns rq := by
      intro _ _ get
      rcases method with put | post
      · exact absurd (get.symm.trans put) (by decide)
      · exact absurd (get.symm.trans post) (by decide)
    have hung : (p.mixed.emmaServerHandler P rq).1.hung = (p.alone.emmaServerHandler P rq).1.hung :=
      (inv.sound.emmaServerHandler_hung (other _)).trans
        (inv.hung.trans (inv.alone.emmaServerHandler_hung (other _)).symm)
    refine ⟨sound rq, (State.Sound.kept P).emmaServerHandler trivial rq inv.alone, hung,
      fun reply member => ?_, alike.1, fun none => by simp at none⟩
    rcases List.mem_append.mp member with old | new
    · exact inv.replies reply old
    · rw [List.mem_singleton.mp new]
      simp only [State.answer, hung, alike.2]
  · exact ⟨sound rq, inv.alone,
      (inv.sound.emmaServerHandler_hung (returns_of_apart (apart rq rfl))).trans inv.hung,
      inv.replies, inv.stands.other inv.sound (apart rq rfl), fun none => absurd none allowed.1⟩

theorem not_taken {rq : Request} {uri' : Text} (here : rq.uri = some uri')
    (put : rq.method = .put ∨ rq.method = .post) (apart : State.Apart s rq uri) :
    ¬s.Taken P rq uri' := by
  have apart : State.PutApart s rq uri' uri := by
    rcases put with put | put <;> simpa only [State.Apart, here, put] using apart
  rintro ⟨fresh, filled, free, near, locked, opened, unknown⟩
  have apart := apart.resolve_left fresh
  rw [if_neg filled] at apart
  split at apart
  · rename_i busy
    have later : rq.blockNum ≠ 0 := fun first => busy (free first)
    rw [State.atWrite, if_neg later] at unknown
    exact unknown (apart.resolve_left later).2
  · rename_i idle
    rw [State.atWrite, if_neg apart.1] at locked
    exact idle locked

/-- Where all that comes in between keeps apart, the transfer goes as it goes alone, and no
block of another one is written. -/
theorem isolated {sys : System} (reach : sys.Reachable P)
    (run : Runs (step P) (Clear uri) (init sys.shared) p) :
    p.Isolated uri ∧ ∀ rq uri', p.Clear uri (.other rq) → rq.uri = some uri' →
      (rq.method = .put ∨ rq.method = .post) → ¬p.mixed.Taken P rq uri' := by
  have inv : Inv uri p := run.keeps (fun p turn q clear step inv => inv.step clear step)
    ⟨reach.sound, reach.sound, rfl, by simp [init], .refl _ _, fun _ => rfl⟩
  exact ⟨⟨inv.hung, inv.replies, inv.stands.resolve, inv.stands.content,
      fun root => inv.stands.valueOf root⟩,
    fun rq uri' clear here put => not_taken here put (clear.2 rq rfl)⟩

/-! ### Three blocks -/

def block (num : UInt32) (more : Bool) (c : Char) : Request :=
  ⟨chars ['A', '/', 'x'], .put, some ⟨num, more, 1⟩, chars [c], 64, 0, by simp [chars]⟩

def getTime : Request :=
  ⟨chars ['S', '/', 't', 'i', 'm', 'e'], .get, none, [], 64, 0, short_empty⟩

def putOther : Request :=
  ⟨chars ['A', '/', 'y'], .put, some ⟨0, true, 1⟩, chars ['y'], 64, 0, by decide⟩

/-- Behind the first block a GET does no harm, and a first block of another transfer never. -/
theorem isolated_blocks : ∃ p : Interleaving, p.replies.length = 3 ∧
    p.Isolated (chars ['A', '/', 'x']) := by
  obtain ⟨p, run, hp⟩ := Runs.of_follow (step .plain) (Clear (chars ['A', '/', 'x']))
    (fun p => p.replies.length = 3)
    [.own (block 0 true 'a'), .other getTime, .other putOther, .own (block 1 true 'b'),
      .other putOther, .own (block 2 false 'c')]
    (init (System.init .plain (fun _ => none) .bare).shared) (by decide +kernel)
  simp only [decide_eq_true_eq] at hp
  exact ⟨p, hp, (isolated ⟨_, _, .refl⟩ run).1⟩

/-- A GET behind the second block makes the third one a lost one. -/
theorem disturbed : ¬ ∀ (P : Platform) (sys : System) (uri : Text) (p : Interleaving),
    sys.Reachable P → sys.shared.locked = 0 →
    Runs (step P) (Allowed uri) (init sys.shared) p → p.Isolated uri := by
  intro h
  obtain ⟨p, run, hp⟩ := Runs.of_follow (step .plain) (Allowed (chars ['A', '/', 'x']))
    (fun p => p.mixed.resolve (chars ['A', '/', 'x']) ≠
      p.alone.resolve (chars ['A', '/', 'x']))
    [.own (block 0 true 'a'), .own (block 1 true 'b'), .other getTime, .own (block 2 false 'c')]
    (init (System.init .plain (fun _ => none) .bare).shared) (by decide +kernel)
  simp only [decide_eq_true_eq] at hp
  exact hp (h .plain _ _ p ⟨_, _, .refl⟩ rfl run).resolve

end Interleaving
end EmmaNode

import Mathlib.Data.List.Basic
import Mathlib.Data.List.Nodup
import Mathlib.Logic.Function.Basic

/-! Forests stored as linked nodes: `next` leads to the following sibling, `subRoot`
to the first child, and `prev` back to the preceding sibling or, from a first
child, to its folder. Read as a binary tree (`subRoot` left, `next` right),
`prev` is the parent link, and every operation below is one on such trees.
The shape a heap represents is a value; heaps are only related to it. -/

namespace EmmaNode

structure Links (ι : Type) where
  next : Option ι
  prev : Option ι
  subRoot : Option ι
  deriving DecidableEq

inductive Forest (ι : Type) where
  | nil
  | node (i : ι) (sub next : Forest ι)

namespace Forest
variable {ι : Type}

def walk : Forest ι → List ι
  | nil => []
  | node i sub next => sub.walk ++ i :: next.walk

def top : Forest ι → Option ι
  | nil => none
  | node i _ _ => some i

theorem top_mem {t : Forest ι} {i : ι} (h : t.top = some i) : i ∈ t.walk := by
  cases t with
  | nil => simp [top] at h
  | node j sub next => simp [top] at h; simp [walk, h]

variable [DecidableEq ι]

def insertUnder (f n : ι) : Forest ι → Forest ι
  | nil => nil
  | node i sub next =>
      if i = f then node i (node n nil sub) next
      else node i (sub.insertUnder f n) (next.insertUnder f n)

def erase (i : ι) : Forest ι → Forest ι
  | nil => nil
  | node j sub next => if j = i then next else node j (sub.erase i) (next.erase i)

theorem insertUnder_of_not_mem {f n : ι} {t : Forest ι} (h : f ∉ t.walk) :
    t.insertUnder f n = t := by
  induction t with
  | nil => rfl
  | node i sub next ihs ihn =>
    simp only [walk, List.mem_append, List.mem_cons, not_or] at h
    rw [insertUnder, if_neg (Ne.symm h.2.1), ihs h.1, ihn h.2.2]

theorem erase_of_not_mem {i : ι} {t : Forest ι} (h : i ∉ t.walk) : t.erase i = t := by
  induction t with
  | nil => rfl
  | node j sub next ihs ihn =>
    simp only [walk, List.mem_append, List.mem_cons, not_or] at h
    rw [erase, if_neg (Ne.symm h.2.1), ihs h.1, ihn h.2.2]

theorem insertUnder_perm {f n : ι} {t : Forest ι} (hf : f ∈ t.walk) (nd : t.walk.Nodup) :
    (t.insertUnder f n).walk.Perm (n :: t.walk) := by
  induction t with
  | nil => simp [walk] at hf
  | node i sub next ihs ihn =>
    have nd' := nd
    simp only [walk, List.nodup_append, List.nodup_cons, List.mem_cons] at nd'
    obtain ⟨nds, ⟨hin, ndn⟩, apart⟩ := nd'
    by_cases hi : i = f
    · rw [insertUnder, if_pos hi]
      simp only [walk, List.nil_append, List.cons_append, List.Perm.refl]
    · rw [insertUnder, if_neg hi]
      simp only [walk, List.mem_append, List.mem_cons] at hf ⊢
      rcases hf with hm | hm | hm
      · have hn : f ∉ next.walk := fun h => apart f hm f (.inr h) rfl
        rw [insertUnder_of_not_mem hn]
        exact (ihs hm nds).append_right _
      · exact absurd hm.symm hi
      · have hs : f ∉ sub.walk := fun h => apart f h f (.inr hm) rfl
        rw [insertUnder_of_not_mem hs]
        refine (((ihn hm ndn).cons i).append_left sub.walk).trans ?_
        refine ((List.Perm.swap n i next.walk).append_left sub.walk).trans ?_
        exact List.perm_middle

theorem mem_of_mem_erase {i j : ι} {t : Forest ι} (h : j ∈ (t.erase i).walk) : j ∈ t.walk := by
  induction t with
  | nil => exact h
  | node k sub next ihs ihn =>
    rw [erase] at h
    simp only [walk, List.mem_append, List.mem_cons]
    split at h
    · exact .inr (.inr h)
    · simp only [walk, List.mem_append, List.mem_cons] at h
      rcases h with h | h | h
      · exact .inl (ihs h)
      · exact .inr (.inl h)
      · exact .inr (.inr (ihn h))

def Leaf (i : ι) : Forest ι → Prop
  | nil => True
  | node j sub next => (j = i → sub = nil) ∧ sub.Leaf i ∧ next.Leaf i

theorem erase_perm {i : ι} {t : Forest ι} (hi : i ∈ t.walk) (nd : t.walk.Nodup)
    (leaf : t.Leaf i) : t.walk.Perm (i :: (t.erase i).walk) := by
  induction t with
  | nil => simp [walk] at hi
  | node j sub next ihs ihn =>
    have nd' := nd
    simp only [walk, List.nodup_append, List.nodup_cons, List.mem_cons] at nd'
    obtain ⟨nds, ⟨hjn, ndn⟩, apart⟩ := nd'
    obtain ⟨here, ls, ln⟩ := leaf
    by_cases hj : j = i
    · rw [erase, if_pos hj, here hj, hj]
      simp [walk]
    · rw [erase, if_neg hj]
      simp only [walk, List.mem_append, List.mem_cons] at hi ⊢
      rcases hi with hm | hm | hm
      · have hn : i ∉ next.walk := fun h => apart i hm i (.inr h) rfl
        rw [erase_of_not_mem hn]
        exact (ihs hm nds ls).append_right _
      · exact absurd hm.symm hj
      · have hs : i ∉ sub.walk := fun h => apart i h i (.inr hm) rfl
        rw [erase_of_not_mem hs]
        refine (((ihn hm ndn ln).cons j).append_left sub.walk).trans ?_
        refine ((List.Perm.swap i j (next.erase i).walk).append_left sub.walk).trans ?_
        exact List.perm_middle

end Forest

variable {ι : Type}

def Represents (h : ι → Links ι) : Option ι → Option ι → Forest ι → Prop
  | _, head, .nil => head = none
  | p, head, .node i sub next => head = some i ∧ (h i).prev = p ∧
      Represents h (some i) (h i).subRoot sub ∧ Represents h (some i) (h i).next next

section Links
variable [DecidableEq ι]

def setPrev (h : ι → Links ι) (i : Option ι) (p : Option ι) : ι → Links ι :=
  match i with
  | none => h
  | some i => Function.update h i { h i with prev := p }

def setNext (h : ι → Links ι) (i : ι) (n : Option ι) : ι → Links ι :=
  Function.update h i { h i with next := n }

def setSubRoot (h : ι → Links ι) (i : ι) (n : Option ι) : ι → Links ι :=
  Function.update h i { h i with subRoot := n }

def pushChild (h : ι → Links ι) (f n : ι) : ι → Links ι :=
  let h := setPrev h (some n) (some f)
  let h := setNext h n (h f).subRoot
  let h := setSubRoot h f (some n)
  setPrev h (h n).next (some n)

def pushTop (h : ι → Links ι) (head : Option ι) (n : ι) : ι → Links ι :=
  let h := setNext h n head
  setPrev h (h n).next (some n)

def dropChild (h : ι → Links ι) (f i : ι) : ι → Links ι :=
  let h := setSubRoot h f (h i).next
  setPrev h (h f).subRoot (some f)

def dropNext (h : ι → Links ι) (q i : ι) : ι → Links ι :=
  let h := setNext h q (h i).next
  setPrev h (h q).next (some q)

end Links

namespace Represents
open Forest

variable {h h' : ι → Links ι} {p head : Option ι} {t : Forest ι}

theorem top_eq (r : Represents h p head t) : head = t.top := by
  cases t with
  | nil => exact r
  | node i sub next => exact r.1

theorem congr (same : ∀ i ∈ t.walk, h' i = h i) (r : Represents h p head t) :
    Represents h' p head t := by
  induction t generalizing p head with
  | nil => exact r
  | node i sub next ihs ihn =>
    obtain ⟨hh, hp, rs, rn⟩ := r
    have hi : h' i = h i := same i (by simp [walk])
    refine ⟨hh, by rw [hi, hp], ?_, ?_⟩
    · rw [hi]
      exact ihs (fun j hj => same j (by simp [walk, hj])) rs
    · rw [hi]
      exact ihn (fun j hj => same j (by simp [walk, hj])) rn

theorem unique {u : Forest ι} (r : Represents h p head t) (s : Represents h p head u) :
    t = u := by
  induction t generalizing p head u with
  | nil =>
    cases u with
    | nil => rfl
    | node j sub next =>
      have hj := s.1
      rw [r] at hj
      exact absurd hj (by simp)
  | node i sub next ihs ihn =>
    cases u with
    | nil =>
      have hi := r.1
      rw [s] at hi
      exact absurd hi (by simp)
    | node j sub' next' =>
      obtain ⟨hi, -, rs, rn⟩ := r
      obtain ⟨hj, -, ss, sn⟩ := s
      have hij : i = j := Option.some.inj (hi.symm.trans hj)
      subst hij
      rw [ihs rs ss, ihn rn sn]

theorem subRoot_mem {f c : ι} (r : Represents h p head t) (hf : f ∈ t.walk)
    (hc : (h f).subRoot = some c) : c ∈ t.walk := by
  induction t generalizing p head with
  | nil => simp [walk] at hf
  | node i sub next ihs ihn =>
    obtain ⟨-, -, rs, rn⟩ := r
    simp only [walk, List.mem_append, List.mem_cons] at hf ⊢
    rcases hf with hm | rfl | hm
    · exact .inl (ihs rs hm)
    · exact .inl (top_mem (rs.top_eq.symm.trans hc))
    · exact .inr (.inr (ihn rn hm))

theorem next_mem {f c : ι} (r : Represents h p head t) (hf : f ∈ t.walk)
    (hc : (h f).next = some c) : c ∈ t.walk := by
  induction t generalizing p head with
  | nil => simp [walk] at hf
  | node i sub next ihs ihn =>
    obtain ⟨-, -, rs, rn⟩ := r
    simp only [walk, List.mem_append, List.mem_cons] at hf ⊢
    rcases hf with hm | rfl | hm
    · exact .inl (ihs rs hm)
    · exact .inr (.inr (top_mem (rn.top_eq.symm.trans hc)))
    · exact .inr (.inr (ihn rn hm))

theorem leaf {i : ι} (r : Represents h p head t) (hi : (h i).subRoot = none) : t.Leaf i := by
  induction t generalizing p head with
  | nil => trivial
  | node j sub next ihs ihn =>
    obtain ⟨-, -, rs, rn⟩ := r
    refine ⟨?_, ihs rs, ihn rn⟩
    rintro rfl
    cases sub with
    | nil => rfl
    | node k s n =>
      have hk := rs.1
      rw [hi] at hk
      exact absurd hk (by simp)

variable [DecidableEq ι]

theorem reparent {q : Option ι} (nd : t.walk.Nodup) (r : Represents h p head t) :
    Represents (setPrev h head q) q head t := by
  cases t with
  | nil => exact r
  | node i sub next =>
    obtain ⟨rfl, hp, rs, rn⟩ := r
    simp only [walk, List.nodup_append, List.nodup_cons, List.mem_cons] at nd
    obtain ⟨-, ⟨hin, -⟩, apart⟩ := nd
    have own : setPrev h (some i) q i = { h i with prev := q } := by simp [setPrev]
    have other : ∀ j, j ≠ i → setPrev h (some i) q j = h j := fun j hj => by
      simp [setPrev, Function.update_of_ne hj]
    refine ⟨rfl, by rw [own], ?_, ?_⟩
    · rw [own]
      exact rs.congr fun j hj => other j (apart j hj i (.inl rfl))
    · rw [own]
      exact rn.congr fun j hj => other j fun e => hin (e ▸ hj)

theorem pushChild_self {f n : ι} (hfn : f ≠ n) (hc : (h f).subRoot ≠ some n) :
    pushChild h f n n = { h n with prev := some f, next := (h f).subRoot } := by
  have hnf : n ≠ f := Ne.symm hfn
  cases hs : (h f).subRoot with
  | none => simp [pushChild, setPrev, setNext, setSubRoot, Function.update, hs, hfn, hnf]
  | some c =>
    have hcn : n ≠ c := fun e => hc (by rw [hs, e])
    simp [pushChild, setPrev, setNext, setSubRoot, Function.update, hs, hfn, hnf, hcn]

theorem pushChild_folder {f n : ι} (hfn : f ≠ n) (hc : (h f).subRoot ≠ some f) :
    pushChild h f n f = { h f with subRoot := some n } := by
  have hnf : n ≠ f := Ne.symm hfn
  cases hs : (h f).subRoot with
  | none => simp [pushChild, setPrev, setNext, setSubRoot, Function.update, hs, hfn, hnf]
  | some c =>
    have hcf : f ≠ c := fun e => hc (by rw [hs, ← e])
    simp [pushChild, setPrev, setNext, setSubRoot, Function.update, hs, hfn, hnf, hcf]

theorem pushChild_other {f n j : ι} (hfn : f ≠ n) (hn : j ≠ n) (hf : j ≠ f) :
    pushChild h f n j = setPrev h (h f).subRoot (some n) j := by
  have hnf : n ≠ f := Ne.symm hfn
  cases hs : (h f).subRoot with
  | none => simp [pushChild, setPrev, setNext, setSubRoot, Function.update, hs, hfn, hnf, hn, hf]
  | some c =>
    by_cases hj : j = c
    · subst hj
      simp [pushChild, setPrev, setNext, setSubRoot, Function.update, hs, hfn, hnf, hn, hf]
    · simp [pushChild, setPrev, setNext, setSubRoot, Function.update, hs, hfn, hnf, hn, hf, hj]

theorem pushChild_frame {f n j : ι} (hfn : f ≠ n) (hn : j ≠ n) (hf : j ≠ f)
    (hc : (h f).subRoot ≠ some j) : pushChild h f n j = h j := by
  rw [pushChild_other hfn hn hf]
  cases hs : (h f).subRoot with
  | none => rfl
  | some c => simp [setPrev, Function.update_of_ne (fun e : j = c => hc (by rw [hs, e]))]

theorem pushChild {f n : ι} (r : Represents h p head t) (nd : t.walk.Nodup)
    (hf : f ∈ t.walk) (hn : n ∉ t.walk) (new : (h n).subRoot = none) :
    Represents (pushChild h f n) p head (t.insertUnder f n) := by
  have hfn : f ≠ n := fun e => hn (e ▸ hf)
  have child : ∀ c, (h f).subRoot = some c → c ∈ t.walk := fun c hc => r.subRoot_mem hf hc
  have hcn : (h f).subRoot ≠ some n := fun hc => hn (child n hc)
  clear child
  induction t generalizing p head with
  | nil => simp [walk] at hf
  | node i sub next ihs ihn =>
    obtain ⟨hh, hp, rs, rn⟩ := r
    have hn' := hn
    have nd' := nd
    simp only [walk, List.mem_append, List.mem_cons, not_or] at hn'
    simp only [walk, List.nodup_append, List.nodup_cons, List.mem_cons] at nd'
    obtain ⟨nds, ⟨hin, ndn⟩, apart⟩ := nd'
    obtain ⟨hns, hni, hnn⟩ := hn'
    by_cases hi : i = f
    · subst hi
      have his : i ∉ sub.walk := fun hm => apart i hm i (.inl rfl) rfl
      have hci : (h i).subRoot ≠ some i := fun hc => his (top_mem (rs.top_eq.symm.trans hc))
      rw [insertUnder, if_pos rfl]
      refine ⟨hh, by rw [pushChild_folder hfn hci, hp], ?_, ?_⟩
      · -- `n` takes the place of the first child, which now hangs after it
        rw [pushChild_folder hfn hci]
        refine ⟨rfl, by rw [pushChild_self hfn hcn], ?_, ?_⟩
        · rw [pushChild_self hfn hcn]
          exact new
        · rw [pushChild_self hfn hcn]
          refine (rs.reparent nds).congr fun j hj => pushChild_other hfn ?_ ?_
          · exact fun e => hns (e ▸ hj)
          · exact fun e => his (e ▸ hj)
      · rw [pushChild_folder hfn hci]
        refine rn.congr fun j hj => pushChild_frame hfn ?_ ?_ ?_
        · exact fun e => hnn (e ▸ hj)
        · exact fun e => hin (e ▸ hj)
        · exact fun hc => apart j (top_mem (rs.top_eq.symm.trans hc)) j (.inr hj) rfl
    · have hni' : i ≠ n := Ne.symm hni
      rw [insertUnder, if_neg hi]
      simp only [walk, List.mem_append, List.mem_cons] at hf
      rcases hf with hm | hm | hm
      · have hfx : f ∉ next.walk := fun h => apart f hm f (.inr h) rfl
        have hi' : EmmaNode.pushChild h f n i = h i := pushChild_frame hfn hni' hi
          fun hc => apart i (rs.subRoot_mem hm hc) i (.inl rfl) rfl
        rw [insertUnder_of_not_mem hfx]
        refine ⟨hh, by rw [hi', hp], ?_, ?_⟩
        · rw [hi']
          exact ihs rs nds hm hns
        · rw [hi']
          refine rn.congr fun j hj => pushChild_frame hfn ?_ ?_ ?_
          · exact fun e => hnn (e ▸ hj)
          · exact fun e => hfx (e ▸ hj)
          · exact fun hc => apart j (rs.subRoot_mem hm hc) j (.inr hj) rfl
      · exact absurd hm.symm hi
      · have hfs : f ∉ sub.walk := fun h => apart f h f (.inr hm) rfl
        have hi' : EmmaNode.pushChild h f n i = h i := pushChild_frame hfn hni' hi
          fun hc => hin (rn.subRoot_mem hm hc)
        rw [insertUnder_of_not_mem hfs]
        refine ⟨hh, by rw [hi', hp], ?_, ?_⟩
        · rw [hi']
          refine rs.congr fun j hj => pushChild_frame hfn ?_ ?_ ?_
          · exact fun e => hns (e ▸ hj)
          · exact fun e => hfs (e ▸ hj)
          · exact fun hc => apart j hj j (.inr (rn.subRoot_mem hm hc)) rfl
        · rw [hi']
          exact ihn rn ndn hm hnn

theorem pushTop {n : ι} (r : Represents h none head t) (nd : t.walk.Nodup) (hn : n ∉ t.walk)
    (new : (h n).subRoot = none) (newPrev : (h n).prev = none) :
    Represents (pushTop h head n) none (some n) (.node n .nil t) := by
  have hd : head ≠ some n := fun e => hn (top_mem (r.top_eq.symm.trans e))
  have own : EmmaNode.pushTop h head n n = { h n with next := head } := by
    cases head with
    | none => simp [EmmaNode.pushTop, setPrev, setNext]
    | some c =>
      have hc : n ≠ c := fun e => hd (by rw [e])
      simp [EmmaNode.pushTop, setPrev, setNext, Function.update_of_ne hc]
  have other : ∀ j, j ≠ n → EmmaNode.pushTop h head n j = setPrev h head (some n) j := by
    intro j hj
    cases head with
    | none => simp [EmmaNode.pushTop, setPrev, setNext, hj]
    | some c =>
      have hc : c ≠ n := fun e => hd (by rw [e])
      by_cases hjc : j = c
      · subst hjc
        simp [EmmaNode.pushTop, setPrev, setNext, hj]
      · simp [EmmaNode.pushTop, setPrev, setNext, hj, hjc]
  refine ⟨rfl, by rw [own]; exact newPrev, by rw [own]; exact new, ?_⟩
  rw [own]
  exact (r.reparent nd).congr fun j hj => other j fun e => hn (e ▸ hj)

theorem dropTop {i : ι} (r : Represents h p (some i) t) (nd : t.walk.Nodup) (q : Option ι) :
    Represents (setPrev h (h i).next q) q (h i).next (t.erase i) := by
  cases t with
  | nil => exact absurd r (by simp [Represents])
  | node j sub next =>
    obtain ⟨hj, -, -, rn⟩ := r
    cases hj
    simp only [walk, List.nodup_append, List.nodup_cons] at nd
    rw [erase, if_pos rfl]
    exact rn.reparent nd.2.1.2

theorem setPrev_frame {c : Option ι} {q : Option ι} {k : ι} (hk : c ≠ some k) :
    setPrev h c q k = h k := by
  cases c with
  | none => rfl
  | some c => simp [setPrev, Function.update_of_ne (fun e : k = c => hk (by rw [e]))]

structure Bypass (h h' : ι → Links ι) (q i : ι) : Prop where
  leaf : (h i).subRoot = none
  own : (h q).subRoot = some i ∧ h' q = { h q with subRoot := (h i).next } ∨
    (h q).next = some i ∧ h' q = { h q with next := (h i).next }
  other : ∀ k, k ≠ q → h' k = setPrev h (h i).next (some q) k

theorem bypass {q i : ι} (b : Bypass h h' q i) (r : Represents h p head t)
    (nd : t.walk.Nodup) (hq : q ∈ t.walk) : Represents h' p head (t.erase i) := by
  have frame : ∀ k, k ≠ q → (h i).next ≠ some k → h' k = h k := fun k hk hne => by
    rw [b.other k hk, setPrev_frame hne]
  have inside : ∀ {u : Forest ι} {p' head' : Option ι}, Represents h p' head' u → q ∈ u.walk →
      i ∈ u.walk := fun ru hm => by
    rcases b.own with ⟨e, -⟩ | ⟨e, -⟩
    · exact ru.subRoot_mem hm e
    · exact ru.next_mem hm e
  induction t generalizing p head with
  | nil => simp [walk] at hq
  | node j sub next ihs ihn =>
    simp only [walk, List.nodup_append, List.nodup_cons, List.mem_cons] at nd
    obtain ⟨nds, ⟨hjn, ndn⟩, apart⟩ := nd
    obtain ⟨hh, hp, rs, rn⟩ := r
    have hjs : j ∉ sub.walk := fun hm => apart j hm j (.inl rfl) rfl
    simp only [walk, List.mem_append, List.mem_cons] at hq
    by_cases hjq : j = q
    · subst hjq
      rcases b.own with ⟨first, own⟩ | ⟨second, own⟩
      · have his : i ∈ sub.walk := top_mem (rs.top_eq.symm.trans first)
        have hin : i ∉ next.walk := fun hm => apart i his i (.inr hm) rfl
        rw [erase, if_neg (fun e : j = i => hjs (e ▸ his)), erase_of_not_mem hin]
        refine ⟨hh, by rw [own, hp], ?_, ?_⟩
        · rw [own]
          rw [first] at rs
          exact (rs.dropTop nds (some j)).congr fun k hk =>
            b.other k fun e => hjs (e ▸ mem_of_mem_erase hk)
        · rw [own]
          exact rn.congr fun k hk => frame k (fun e => hjn (e ▸ hk))
            fun e => apart k (rs.next_mem his e) k (.inr hk) rfl
      · have hin : i ∈ next.walk := top_mem (rn.top_eq.symm.trans second)
        have his : i ∉ sub.walk := fun hm => apart i hm i (.inr hin) rfl
        rw [erase, if_neg (fun e : j = i => hjn (e ▸ hin)), erase_of_not_mem his]
        refine ⟨hh, by rw [own, hp], ?_, ?_⟩
        · rw [own]
          exact rs.congr fun k hk => frame k (fun e => hjs (e ▸ hk))
            fun e => apart k hk k (.inr (rn.next_mem hin e)) rfl
        · rw [own]
          rw [second] at rn
          exact (rn.dropTop ndn (some j)).congr fun k hk =>
            b.other k fun e => hjn (e ▸ mem_of_mem_erase hk)
    · rcases hq with hm | hm | hm
      · have his : i ∈ sub.walk := inside rs hm
        have hin : i ∉ next.walk := fun hx => apart i his i (.inr hx) rfl
        have own := frame j hjq fun e => hjs (rs.next_mem his e)
        rw [erase, if_neg (fun e : j = i => hjs (e ▸ his)), erase_of_not_mem hin]
        refine ⟨hh, by rw [own, hp], ?_, ?_⟩
        · rw [own]
          exact ihs rs nds hm
        · rw [own]
          exact rn.congr fun k hk => frame k (fun e => apart q hm k (.inr hk) e.symm)
            fun e => apart k (rs.next_mem his e) k (.inr hk) rfl
      · exact absurd hm.symm hjq
      · have hin : i ∈ next.walk := inside rn hm
        have his : i ∉ sub.walk := fun hx => apart i hx i (.inr hin) rfl
        have own := frame j hjq fun e => hjn (rn.next_mem hin e)
        rw [erase, if_neg (fun e : j = i => hjn (e ▸ hin)), erase_of_not_mem his]
        refine ⟨hh, by rw [own, hp], ?_, ?_⟩
        · rw [own]
          exact rs.congr fun k hk => frame k (fun e => apart k hk q (.inr hm) e)
            fun e => apart k hk k (.inr (rn.next_mem hin e)) rfl
        · rw [own]
          exact ihn rn ndn hm

theorem dropChild_bypass {f i : ι} (first : (h f).subRoot = some i)
    (leaf : (h i).subRoot = none) (loop : (h i).next ≠ some f) :
    Bypass h (dropChild h f i) f i := by
  refine ⟨leaf, .inl ⟨first, ?_⟩, fun k hk => ?_⟩
  · cases hx : (h i).next with
    | none => simp [dropChild, setPrev, setSubRoot, hx]
    | some c =>
      have hc : f ≠ c := fun e => loop (by rw [hx, e])
      simp [dropChild, setPrev, setSubRoot, hx, Function.update_of_ne hc]
  · cases hx : (h i).next with
    | none => simp [dropChild, setPrev, setSubRoot, hx, hk]
    | some c =>
      by_cases hkc : k = c
      · subst hkc
        simp [dropChild, setPrev, setSubRoot, hx, hk]
      · simp [dropChild, setPrev, setSubRoot, hx, hk, hkc]

theorem dropNext_bypass {q i : ι} (second : (h q).next = some i)
    (leaf : (h i).subRoot = none) (loop : (h i).next ≠ some q) :
    Bypass h (dropNext h q i) q i := by
  refine ⟨leaf, .inr ⟨second, ?_⟩, fun k hk => ?_⟩
  · cases hx : (h i).next with
    | none => simp [dropNext, setPrev, setNext, hx]
    | some c =>
      have hc : q ≠ c := fun e => loop (by rw [hx, e])
      simp [dropNext, setPrev, setNext, hx, Function.update_of_ne hc]
  · cases hx : (h i).next with
    | none => simp [dropNext, setPrev, setNext, hx, hk]
    | some c =>
      by_cases hkc : k = c
      · subst hkc
        simp [dropNext, setPrev, setNext, hx, hk]
      · simp [dropNext, setPrev, setNext, hx, hk, hkc]

omit [DecidableEq ι] in

omit [DecidableEq ι] in
theorem next_ne_parent {q i : ι} (r : Represents h p head t) (nd : t.walk.Nodup)
    (hq : q ∈ t.walk) (child : (h q).subRoot = some i ∨ (h q).next = some i) :
    (h i).next ≠ some q := by
  induction t generalizing p head with
  | nil => simp [walk] at hq
  | node j sub next ihs ihn =>
    simp only [walk, List.nodup_append, List.nodup_cons, List.mem_cons] at nd
    obtain ⟨nds, ⟨hjn, ndn⟩, apart⟩ := nd
    obtain ⟨-, -, rs, rn⟩ := r
    simp only [walk, List.mem_append, List.mem_cons] at hq
    rcases hq with hm | rfl | hm
    · exact ihs rs nds hm
    · intro e
      rcases child with c | c
      · exact apart q (rs.next_mem (top_mem (rs.top_eq.symm.trans c)) e) q (.inl rfl) rfl
      · exact hjn (rn.next_mem (top_mem (rn.top_eq.symm.trans c)) e)
    · exact ihn rn ndn hm

end Represents

namespace Forest
variable {ι κ : Type} [DecidableEq ι] [DecidableEq κ]

def scan (name : ι → κ) (s : κ) : Forest ι → Option (ι × Forest ι)
  | nil => none
  | node i sub next => if name i = s then some (i, sub) else next.scan name s

def find (name : ι → κ) : List κ → Forest ι → Option ι
  | [], _ => none
  | [s], t => (t.scan name s).map Prod.fst
  | s :: rest, t => (t.scan name s).bind fun found => find name rest found.2

omit [DecidableEq ι] in
theorem scan_mem {name : ι → κ} {s : κ} {t sub : Forest ι} {i : ι}
    (h : t.scan name s = some (i, sub)) : i ∈ t.walk ∧ ∀ j ∈ sub.walk, j ∈ t.walk := by
  induction t with
  | nil => simp [scan] at h
  | node j sub' next ihs ihn =>
    rw [scan] at h
    simp only [walk, List.mem_append, List.mem_cons]
    split at h
    · cases h
      exact ⟨.inr (.inl rfl), fun k hk => .inl hk⟩
    · obtain ⟨hi, hs⟩ := ihn h
      exact ⟨.inr (.inr hi), fun k hk => .inr (.inr (hs k hk))⟩

omit [DecidableEq ι] in
theorem find_mem {name : ι → κ} {path : List κ} {t : Forest ι} {i : ι}
    (h : t.find name path = some i) : i ∈ t.walk := by
  induction path generalizing t with
  | nil => simp [find] at h
  | cons s rest ih =>
    cases rest with
    | nil =>
      simp only [find, Option.map_eq_some_iff] at h
      obtain ⟨⟨j, sub⟩, hs, rfl⟩ := h
      exact (scan_mem hs).1
    | cons s' rest' =>
      simp only [find, Option.bind_eq_some_iff] at h
      obtain ⟨⟨j, sub⟩, hs, hf⟩ := h
      exact (scan_mem hs).2 i (ih hf)

theorem scan_erase {name : ι → κ} {s : κ} {t sub : Forest ι} {i j : ι} (nd : t.walk.Nodup)
    (h : t.scan name s = some (j, sub)) (hj : j ≠ i) :
    (t.erase i).scan name s = some (j, sub.erase i) := by
  induction t with
  | nil => simp [scan] at h
  | node k sub' next ihs ihn =>
    simp only [walk, List.nodup_append, List.nodup_cons, List.mem_cons] at nd
    obtain ⟨-, ⟨hkn, ndn⟩, -⟩ := nd
    rw [scan] at h
    by_cases hk : k = i
    · rw [erase, if_pos hk]
      split at h
      · cases h
        exact absurd hk hj
      · have hi : i ∉ sub.walk := fun hm => hkn (hk ▸ (scan_mem h).2 i hm)
        rw [erase_of_not_mem hi]
        exact h
    · rw [erase, if_neg hk, scan]
      split at h
      · rename_i e
        cases h
        rw [if_pos e]
      · rename_i e
        rw [if_neg e]
        exact ihn ndn h

omit [DecidableEq ι] in
theorem scan_sub {name : ι → κ} {s : κ} {t sub : Forest ι} {j : ι} (nd : t.walk.Nodup)
    (h : t.scan name s = some (j, sub)) :
    sub.walk.Nodup ∧ ∀ i, t.Leaf i → sub.Leaf i ∧ (j = i → sub = nil) := by
  induction t with
  | nil => simp [scan] at h
  | node k sub' next ihs ihn =>
    simp only [walk, List.nodup_append, List.nodup_cons] at nd
    rw [scan] at h
    split at h
    · cases h
      exact ⟨nd.1, fun i leaf => ⟨leaf.2.1, leaf.1⟩⟩
    · obtain ⟨nds, ls⟩ := ihn nd.2.1.2 h
      exact ⟨nds, fun i leaf => ls i leaf.2.2⟩

theorem find_erase {name : ι → κ} {path : List κ} {t : Forest ι} {i j : ι}
    (nd : t.walk.Nodup) (leaf : t.Leaf i) (h : t.find name path = some j) (hj : j ≠ i) :
    (t.erase i).find name path = some j := by
  induction path generalizing t with
  | nil => simp [find] at h
  | cons s rest ih =>
    cases rest with
    | nil =>
      simp only [find, Option.map_eq_some_iff] at h ⊢
      obtain ⟨⟨k, sub⟩, hs, rfl⟩ := h
      exact ⟨(k, sub.erase i), scan_erase nd hs hj, rfl⟩
    | cons s' rest' =>
      simp only [find, Option.bind_eq_some_iff] at h ⊢
      obtain ⟨⟨k, sub⟩, hs, hf⟩ := h
      obtain ⟨nds, ls⟩ := scan_sub nd hs
      have hk : k ≠ i := fun e => by
        have hnil := (ls i leaf).2 e
        simp only [hnil] at hf
        exact absurd (find_mem hf) (by simp [walk])
      exact ⟨(k, sub.erase i), scan_erase nd hs hk, ih nds (ls i leaf).1 hf⟩

end Forest
end EmmaNode

import Mathlib.Data.List.Basic

/-! Fixed pools of numbered blocks: a block is handed out once, the lowest free
one first, until it is given back. Only the usage marks are kept here; what a
block stores belongs to the owner of the pool. -/

namespace EmmaNode

structure Pool where
  used : List Bool
  deriving DecidableEq

namespace Pool

def init (num : Nat) : Pool := ⟨List.replicate num false⟩

def Used (m : Pool) (i : Nat) : Prop := m.used[i]? = some true

instance (m : Pool) (i : Nat) : Decidable (m.Used i) :=
  inferInstanceAs (Decidable (_ = _))

def alloc (m : Pool) : Option (Nat × Pool) :=
  (m.used.findIdx? (! ·)).map fun i => (i, ⟨m.used.set i true⟩)

/-- Giving back a block that is not in use, or no block of this pool, changes nothing. -/
def free (m : Pool) (i : Nat) : Pool := ⟨m.used.set i false⟩

theorem not_used_init (num i : Nat) : ¬ (init num).Used i := by
  simp [Used, init, List.getElem?_replicate]

theorem used_lt {m : Pool} {i : Nat} (h : m.Used i) : i < m.used.length :=
  (List.getElem?_eq_some_iff.mp h).1

theorem alloc_fresh {m m' : Pool} {i : Nat} (h : m.alloc = some (i, m')) : ¬ m.Used i := by
  simp only [alloc, Option.map_eq_some_iff, Prod.mk.injEq] at h
  obtain ⟨j, hj, rfl, -⟩ := h
  obtain ⟨hlt, hfree, -⟩ := List.findIdx?_eq_some_iff_getElem.mp hj
  simp only [Used, List.getElem?_eq_getElem hlt, Option.some.injEq]
  simpa using hfree

theorem alloc_lt {m m' : Pool} {i : Nat} (h : m.alloc = some (i, m')) : i < m.used.length := by
  simp only [alloc, Option.map_eq_some_iff, Prod.mk.injEq] at h
  obtain ⟨j, hj, rfl, -⟩ := h
  exact (List.findIdx?_eq_some_iff_getElem.mp hj).1

theorem used_alloc {m m' : Pool} {i : Nat} (h : m.alloc = some (i, m')) (j : Nat) :
    m'.Used j ↔ j = i ∨ m.Used j := by
  have hlt := alloc_lt h
  simp only [alloc, Option.map_eq_some_iff, Prod.mk.injEq] at h
  obtain ⟨k, -, rfl, rfl⟩ := h
  simp only [Used, List.getElem?_set]
  by_cases hj : k = j
  · simp [← hj, hlt]
  · simp [hj, Ne.symm hj]

theorem used_free (m : Pool) (i j : Nat) : (m.free i).Used j ↔ j ≠ i ∧ m.Used j := by
  simp only [Used, free, List.getElem?_set]
  by_cases hj : i = j
  · simp [hj]
  · simp [hj, Ne.symm hj]

@[simp] theorem length_init (num : Nat) : (init num).used.length = num := by simp [init]

@[simp] theorem length_free (m : Pool) (i : Nat) : (m.free i).used.length = m.used.length := by
  simp [free]

theorem length_alloc {m m' : Pool} {i : Nat} (h : m.alloc = some (i, m')) :
    m'.used.length = m.used.length := by
  simp only [alloc, Option.map_eq_some_iff, Prod.mk.injEq] at h
  obtain ⟨k, -, rfl, rfl⟩ := h
  simp

end Pool
end EmmaNode

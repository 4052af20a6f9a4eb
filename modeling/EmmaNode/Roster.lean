import EmmaNode.Pool
import Mathlib.Data.List.Nodup
import Mathlib.Logic.Function.Basic

/-! Cells of a pool that are on a list exactly while they are in use: a cell is listed behind
the others when it is taken, and leaves the list when it is given back. What is in a cell
stays there until it is written again. -/

namespace EmmaNode

structure Roster (α : Type) where
  pool : Pool
  cell : Nat → α
  list : List Nat
  nodup : list.Nodup
  listed : ∀ i, i ∈ list ↔ pool.Used i

namespace Roster
variable {α : Type}

def init (num : Nat) (blank : α) : Roster α where
  pool := .init num
  cell _ := blank
  list := []
  nodup := List.nodup_nil
  listed i := by simp [Pool.not_used_init]

variable (r : Roster α) (i : Nat) (f : α → α)

def modify : Roster α := { r with cell := Function.update r.cell i (f (r.cell i)) }

def add {pool : Pool} (h : r.pool.alloc = some (i, pool)) : Roster α where
  pool := pool
  cell := Function.update r.cell i (f (r.cell i))
  list := r.list.erase i ++ [i]
  nodup := by
    refine List.nodup_append.mpr ⟨r.nodup.erase i, List.nodup_singleton i, ?_⟩
    rintro j hj k hk rfl
    obtain rfl := List.mem_singleton.mp hk
    exact r.nodup.not_mem_erase hj
  listed j := by
    rw [Pool.used_alloc h, ← r.listed, List.mem_append, List.mem_singleton, r.nodup.mem_erase_iff]
    tauto

def take : Option (Nat × Roster α) :=
  match h : r.pool.alloc with
  | none => none
  | some (i, _) => some (i, r.add i f h)

def drop : Roster α where
  pool := r.pool.free i
  cell := Function.update r.cell i (f (r.cell i))
  list := r.list.erase i
  nodup := r.nodup.erase i
  listed j := by rw [Pool.used_free, ← r.listed, r.nodup.mem_erase_iff]

def find? (p : α → Bool) : Option Nat := r.list.find? fun i => p (r.cell i)

variable {r r' : Roster α} {i : Nat} {f : α → α}

theorem take_spec (h : r.take f = some (i, r')) :
    i ∉ r.list ∧ r'.list = r.list ++ [i] ∧ r'.cell = Function.update r.cell i (f (r.cell i)) := by
  rw [take] at h
  split at h
  · cases h
  · rename_i j pool halloc
    cases h
    have fresh : i ∉ r.list := fun hi => Pool.alloc_fresh halloc ((r.listed i).mp hi)
    exact ⟨fresh, congrArg (· ++ [i]) (List.erase_of_not_mem fresh), rfl⟩

@[simp] theorem list_modify : (r.modify i f).list = r.list := rfl

@[simp] theorem list_drop : (r.drop i f).list = r.list.erase i := rfl

@[simp] theorem cell_drop : (r.drop i f).cell = Function.update r.cell i (f (r.cell i)) := rfl

@[simp] theorem cell_modify : (r.modify i f).cell = Function.update r.cell i (f (r.cell i)) := rfl

theorem modify_modify (r : Roster α) (i : Nat) (f g : α → α) :
    (r.modify i f).modify i g = r.modify i (g ∘ f) := by
  simp only [modify, Function.update_self, Function.update_idem, Function.comp_apply]

theorem modify_congr {g : α → α} (same : f (r.cell i) = g (r.cell i)) :
    r.modify i f = r.modify i g := by
  rw [modify, modify, same]

theorem drop_modify (r : Roster α) (i : Nat) (f g : α → α) :
    (r.modify i f).drop i g = r.drop i (g ∘ f) := by
  simp only [drop, modify, Function.update_self, Function.update_idem, Function.comp_apply]

end Roster
end EmmaNode

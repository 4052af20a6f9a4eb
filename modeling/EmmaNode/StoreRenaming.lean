import EmmaNode.ForestRenaming
import EmmaNode.SystemList
import EmmaNode.ReadFrame

/-! Stores that hold the same resources in different blocks. Nothing that is read of one tells
it from the other. -/

namespace EmmaNode

namespace Store
variable {P : Platform} {st st' : Store} {f : Root → Forest Nat} {ρ : Nat → Nat}

def fileAt (st : Store) (i : Nat) : Option Text :=
  st.files (st.agents ((st.tree.data i).getD 0)).memoryIndex

def valueAt (st : Store) (i : Nat) : UInt16 := st.values ((st.tree.data i).getD 0)

structure Renamed (ρ : Nat → Nat) (f : Root → Forest Nat) (st st' : Store) : Prop where
  sound : st.Sound f
  sound' : st'.Sound fun r => (f r).map ρ
  name : ∀ r i, i ∈ (f r).walk → st'.tree.name (ρ i) = st.tree.name i
  file : ∀ i ∈ (f .agent).walk, st'.fileAt (ρ i) = st.fileAt i
  value : ∀ i ∈ (f .resource).walk, st'.valueAt (ρ i) = st.valueAt i

theorem Sound.fullPath_eq (so : st.Sound f) {r : Root} {i : Nat} (hi : i ∈ (f r).walk) :
    st.tree.fullPath (r, some i) = r.text ((f r).way st.tree.name i) := by
  have printed := so.shape.printFullPath_eq hi
    ((st.tree.fullPath (r, some i)).length + (r.text ((f r).way st.tree.name i)).length)
  have print (b : Nat) : st.tree.printFullPath r (some i) b =
      if (st.tree.fullPath (r, some i)).length ≤ b then st.tree.fullPath (r, some i) else [] := rfl
  rwa [print, if_pos (Nat.le_add_right _ _), if_pos (Nat.le_add_left _ _)] at printed

theorem Sound.resourcesFrom_paths (so : st.Sound f) (it : Iter) (b : Nat) (packet : Int)
    (data : Text) : ∃ path paths,
      (Root.visits (fun r => (f r).walk) Root.all).map st.tree.fullPath = path :: paths ∧
      (st.resourcesFrom P b packet maxNames ((it.reset st.tree).getNext st.tree b).1
        ((it.reset st.tree).getNext st.tree b).2 true 0 data).2 =
        (let block := resourceTable P b packet ((if path.length ≤ b then path else []) ::
          paths.takeWhile (·.length ≤ b)) true 0 data
        ⟨block ++ [0], block.length + 1⟩) := by
  obtain ⟨v, visits, all, first, hands⟩ := so.hands_next it .agent b
  have few := so.shape.visits_le .agent
  have whole : Root.all.drop Root.agent.index = Root.all := rfl
  rw [whole] at all few
  rw [all, List.length_cons] at few
  have enough : ((visits.map st.tree.fullPath).takeWhile (·.length ≤ b)).length < maxNames := by
    have short := (List.takeWhile_sublist (p := fun n : Text => decide (n.length ≤ b))
      (l := visits.map st.tree.fullPath)).length_le
    rw [List.length_map] at short
    omega
  refine ⟨st.tree.fullPath v, visits.map st.tree.fullPath, by rw [all, List.map_cons], ?_⟩
  have table := resourcesFrom_table (P := P) packet hands enough
    ((it.begin st.tree .agent).getNext st.tree b).1 true 0 data
  rw [first] at table
  rw [Iter.reset, first]
  exact table

namespace Renamed
variable (h : Renamed ρ f st st')
include h

theorem inj {r : Root} {i j : Nat} (hi : i ∈ (f r).walk) (hj : j ∈ (f r).walk) (e : ρ i = ρ j) :
    i = j := by
  have once := h.sound'.shape.nodup r
  rw [Forest.walk_map] at once
  exact List.inj_on_of_nodup_map once hi hj e

theorem find (root : Root) (name : Text) : (st'.tree.emmaGetResource name root).resource =
    (st.tree.emmaGetResource name root).resource.map ρ := by
  rw [(h.sound'.shape.emmaGetResource_spec name root).1, (h.sound.shape.emmaGetResource_spec name
    root).1, Forest.find_map (h.name root)]

theorem resolve (uri : Text) : st'.tree.resolve uri = (st.tree.resolve uri).map ρ := by
  simp only [Tree.resolve, h.find]
  cases emmaGetRoot uri <;> rfl

theorem paths (roots : List Root) :
    (Root.visits (fun r => ((f r).map ρ).walk) roots).map st'.tree.fullPath =
      (Root.visits (fun r => (f r).walk) roots).map st.tree.fullPath := by
  have each (r : Root) : ((f r).walk.map ρ).map (fun i => st'.tree.fullPath (r, some i)) =
      (f r).walk.map fun i => st.tree.fullPath (r, some i) := by
    rw [List.map_map]
    refine List.map_congr_left fun i hi => ?_
    have there : ρ i ∈ ((f r).map ρ).walk := by
      rw [Forest.walk_map]
      exact List.mem_map_of_mem hi
    rw [Function.comp_apply, h.sound'.fullPath_eq there, h.sound.fullPath_eq hi,
      Forest.way_map hi (fun j hj => h.inj hj hi) (h.name r)]
  simp only [Root.visits, List.map_flatMap, List.map_append, List.map_map, Forest.walk_map]
  congr 1
  funext r
  have same := each r
  rw [List.map_map] at same
  exact congrArg₂ (· ++ ·) same rfl

theorem rootSystemRead (env : Env) (uri : Text) (blockSize : Nat) (blockIndex : Int)
    {r r' : Reader} (same : r.Same r') :
    (st.rootSystemRead P env uri blockSize blockIndex r).1.Same
      (st'.rootSystemRead P env uri blockSize blockIndex r').1 ∧
    (st'.rootSystemRead P env uri blockSize blockIndex r').2 =
      (st.rootSystemRead P env uri blockSize blockIndex r).2 := by
  unfold Store.rootSystemRead
  simp only [same.seed, same.draws]
  split_ifs
  · exact ⟨same, rfl⟩
  · exact ⟨⟨rfl, rfl⟩, rfl⟩
  · exact ⟨same, rfl⟩
  · exact ⟨same, rfl⟩
  · exact ⟨same, rfl⟩
  · refine ⟨⟨rfl, rfl⟩, ?_⟩
    obtain ⟨path, paths, all, table⟩ := h.sound.resourcesFrom_paths (P := P) r.iter blockSize
      (Int.tdiv blockIndex blockSize) (snprintf blockSize (chars ['[']))
    obtain ⟨path', paths', all', table'⟩ := h.sound'.resourcesFrom_paths (P := P) r'.iter blockSize
      (Int.tdiv blockIndex blockSize) (snprintf blockSize (chars ['[']))
    rw [h.paths, all] at all'
    obtain ⟨rfl, rfl⟩ := List.cons.inj all'
    exact table'.trans table.symm
  · exact ⟨same, rfl⟩

theorem emmaResourceRead (env : Env) (uri : Text) (blockSize : Nat) (blockIndex : Int)
    {r r' : Reader} (same : r.Same r') :
    (st.emmaResourceRead P env uri blockSize blockIndex r).1.Same
      (st'.emmaResourceRead P env uri blockSize blockIndex r').1 ∧
    (st'.emmaResourceRead P env uri blockSize blockIndex r').2 =
      (st.emmaResourceRead P env uri blockSize blockIndex r).2 := by
  unfold Store.emmaResourceRead
  cases emmaGetRoot uri with
  | none => exact ⟨same, rfl⟩
  | some root =>
    have place := (h.sound.shape.emmaGetResource_spec (emmaGetName uri) root).1
    simp only [h.find]
    cases found : (st.tree.emmaGetResource (emmaGetName uri) root).resource with
    | none => exact ⟨same, rfl⟩
    | some i =>
      have live : i ∈ (f root).walk := Forest.find_mem (place.symm.trans found)
      cases root with
      | agent =>
        have file := h.file i live
        simp only [fileAt] at file
        exact ⟨same, by simp only [Option.map_some, rootAgentRead, file]⟩
      | resource =>
        have value := h.value i live
        simp only [valueAt] at value
        exact ⟨same, by simp only [Option.map_some, rootResourceRead, value]⟩
      | system => exact h.rootSystemRead env uri blockSize blockIndex same

theorem rootResourceSolver (env : Env) :
    Solvers Reader.Same (st.rootResourceSolver P env) (st'.rootResourceSolver P env) :=
  solvers_of_reads env fun uri _ _ same => h.emmaResourceRead env uri emmaIntSize 0 same

end Renamed
end Store
end EmmaNode

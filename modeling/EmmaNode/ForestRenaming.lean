import EmmaNode.Paths

/-! Forests with other nodes in the same places. What is found by names is found at the new
nodes, and the ways to these are the same. -/

namespace EmmaNode

namespace Forest
variable {ι κ : Type}

def map (ρ : ι → ι) : Forest ι → Forest ι
  | nil => nil
  | node i sub next => node (ρ i) (sub.map ρ) (next.map ρ)

theorem walk_map (ρ : ι → ι) (t : Forest ι) : (t.map ρ).walk = t.walk.map ρ := by
  induction t with
  | nil => rfl
  | node i sub next ihs ihn => simp only [map, walk, ihs, ihn, List.map_append, List.map_cons]

theorem map_fixed {ρ : ι → ι} {t : Forest ι} (fixed : ∀ i ∈ t.walk, ρ i = i) : t.map ρ = t := by
  induction t with
  | nil => rfl
  | node i sub next ihs ihn =>
    simp only [walk, List.mem_append, List.mem_cons] at fixed
    rw [map, fixed i (.inr (.inl rfl)), ihs fun j hj => fixed j (.inl hj),
      ihn fun j hj => fixed j (.inr (.inr hj))]

theorem map_insertUnder [DecidableEq ι] {ρ : ι → ι} {f n : ι} {t : Forest ι}
    (fixed : ∀ i ∈ t.walk, ρ i = i) : (t.insertUnder f n).map ρ = t.insertUnder f (ρ n) := by
  induction t with
  | nil => rfl
  | node i sub next ihs ihn =>
    simp only [walk, List.mem_append, List.mem_cons] at fixed
    have here := fixed i (.inr (.inl rfl))
    have below : ∀ j ∈ sub.walk, ρ j = j := fun j hj => fixed j (.inl hj)
    have behind : ∀ j ∈ next.walk, ρ j = j := fun j hj => fixed j (.inr (.inr hj))
    rw [insertUnder, insertUnder]
    split
    · simp only [map, here, map_fixed below, map_fixed behind]
    · simp only [map, here, ihs below, ihn behind]

section
variable {ρ : ι → ι} {name name' : ι → κ}

theorem scan_map [DecidableEq κ] {s : κ} {t : Forest ι}
    (same : ∀ i ∈ t.walk, name' (ρ i) = name i) :
    (t.map ρ).scan name' s = (t.scan name s).map fun found => (ρ found.1, found.2.map ρ) := by
  induction t with
  | nil => rfl
  | node i sub next ihs ihn =>
    simp only [walk, List.mem_append, List.mem_cons] at same
    rw [map, scan, scan, same i (.inr (.inl rfl))]
    split
    · rfl
    · exact ihn fun j hj => same j (.inr (.inr hj))

theorem find_map [DecidableEq κ] {path : List κ} {t : Forest ι}
    (same : ∀ i ∈ t.walk, name' (ρ i) = name i) :
    (t.map ρ).find name' path = (t.find name path).map ρ := by
  induction path generalizing t with
  | nil => rfl
  | cons s rest ih =>
    cases rest with
    | nil =>
      simp only [find, scan_map same, Option.map_map]
      rfl
    | cons s' rest =>
      simp only [find, scan_map same]
      cases hs : t.scan name s with
      | none => rfl
      | some found =>
        obtain ⟨i, sub⟩ := found
        exact ih fun j hj => same j ((scan_mem hs).2 j hj)

theorem mem_map {i : ι} {t u : Forest ι} (inj : ∀ j ∈ t.walk, ρ j = ρ i → j = i)
    (sub : ∀ j ∈ u.walk, j ∈ t.walk) : ρ i ∈ (u.map ρ).walk ↔ i ∈ u.walk := by
  rw [walk_map]
  refine ⟨fun h => ?_, List.mem_map_of_mem⟩
  obtain ⟨j, hj, e⟩ := List.mem_map.mp h
  exact inj j (sub j hj) e ▸ hj

theorem way_map [DecidableEq ι] {i : ι} {t : Forest ι} (hi : i ∈ t.walk)
    (inj : ∀ j ∈ t.walk, ρ j = ρ i → j = i) (same : ∀ j ∈ t.walk, name' (ρ j) = name j) :
    (t.map ρ).way name' (ρ i) = t.way name i := by
  induction t with
  | nil => simp [walk] at hi
  | node j sub next ihs ihn =>
    have below := @mem_map _ ρ i _ sub inj fun k hk => List.mem_append_left _ hk
    simp only [walk, List.mem_append, List.mem_cons] at hi inj same
    have here : ρ j = ρ i ↔ j = i := ⟨inj j (.inr (.inl rfl)), fun e => e ▸ rfl⟩
    simp only [map, way, below, here, same j (.inr (.inl rfl))]
    split
    · rfl
    · rename_i other
      split
      · rename_i hs
        rw [ihs hs (fun k hk => inj k (.inl hk)) fun k hk => same k (.inl hk)]
      · rename_i hs
        have hn : i ∈ next.walk := by
          rcases hi with hm | rfl | hm
          · exact absurd hm hs
          · exact absurd rfl other
          · exact hm
        exact ihn hn (fun k hk => inj k (.inr (.inr hk))) fun k hk => same k (.inr (.inr hk))

end

end Forest
end EmmaNode

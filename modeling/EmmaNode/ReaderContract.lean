import EmmaNode.Digits
import EmmaNode.SystemList

/-! What `emma_resource_read` owes its callers: it fills at most the block it is given and says
how much of it, and a resource read block by block comes to an end. Three unrelated readers are
behind it, and those of the system resources differ once more. -/

namespace EmmaNode

/-- `BUFF_SIZE` -/
def systemBuffSize : Nat := 64

inductive ReadKind where
  | nothing
  | file (slot : Nat)
  | value (slot : Nat)
  | number (n : Int)
  | text
  | neighbors
  | routes
  | names
  deriving DecidableEq

def ReadResult.Terminated (result : ReadResult) (blockSize : Nat) : Prop :=
  ∃ data : Text, result = ⟨data ++ [0], data.length + 1⟩ ∧ data.length < blockSize

/-- A result that says a number of bytes up to the size of the block, and stores no more -/
structure ReadResult.Sized (result : ReadResult) (blockSize : Nat) : Prop where
  low : 0 ≤ result.returned
  high : result.returned ≤ blockSize
  stored : result.bytes.length ≤ blockSize

theorem ReadResult.Terminated.sized {result : ReadResult} {blockSize : Nat}
    (h : result.Terminated blockSize) : result.Sized blockSize := by
  obtain ⟨data, rfl, short⟩ := h
  refine ⟨?_, ?_, ?_⟩
  · exact Int.le_add_one (Int.natCast_nonneg _)
  · simp only
    omega
  · rw [List.length_append, List.length_singleton]
    omega

namespace Store
variable {P : Platform} {st : Store}

def nsUri : Text :=
  chars ['"', 'h', 't', 't', 'p', ':', '/', '/', 'l', 'o', 'c', 'a', 'l', 'h', 'o', 's', 't', '/',
    'e', 'm', 'm', 'a', '/', 'r', 'e', 'g', 'i', 's', 't', 'r', 'y', '/', 'n', 's', '-', 'u', 'r',
    'i', '1', '.', 'x', 'm', 'l', '"']

def systemKind (P : Platform) (env : Env) (resource : Text) (r : Reader) : ReadKind :=
  if resource.take 4 = chars ['t', 'i', 'm', 'e'] then .number (P.int env.now.toNat)
  else if resource.take 4 = chars ['r', 'a', 'n', 'd'] then
    .number (P.int (P.random r.seed r.draws).toNat)
  else if resource.take 4 = chars ['n', 's', '-', 'u'] then .text
  else if resource.take 8 = chars ['n', 'e', 'i', 'g', 'h', 'b', 'o', 'r'] then .neighbors
  else if resource = chars ['r', 'o', 'u', 't', 'e', 's'] then .routes
  else if resource.take 8 = chars ['r', 'e', 's', 'o', 'u', 'r', 'c', 'e'] then .names
  else .nothing

def readKind (P : Platform) (st : Store) (env : Env) (uri : Text) (r : Reader) : ReadKind :=
  match emmaGetRoot uri with
  | none => .nothing
  | some root =>
    match (st.tree.emmaGetResource (emmaGetName uri) root).resource with
    | none => .nothing
    | some i =>
      match root with
      | .agent => .file ((st.tree.data i).getD 0)
      | .resource => .value ((st.tree.data i).getD 0)
      | .system => systemKind P env (emmaGetName uri) r

def readOf (P : Platform) (st : Store) (env : Env) (blockSize : Nat) (blockIndex : Int)
    (r : Reader) : ReadKind → ReadResult
  | .nothing => .none
  | .file slot => st.rootAgentRead slot blockSize blockIndex
  | .value slot => st.rootResourceRead P slot blockSize blockIndex
  | .number n => printed blockSize (formatInt n)
  | .text => printed blockSize nsUri
  | .neighbors =>
    neighborFrom P blockSize (Int.tdiv blockIndex blockSize) env.neighbors true 0
      (snprintf blockSize (chars ['[']))
  | .routes =>
    let sides := env.routes.flatMap fun (ip, hop) => [(false, ip), (true, hop)]
    let packet := Int.tdiv blockIndex blockSize
    routesFrom blockSize packet (sides.length + packet.toNat + 1) sides true 0
      (snprintf blockSize (chars ['[']))
  | .names => (st.rootSystemRead P env systemResources blockSize blockIndex r).2

theorem rootSystemRead_kind (env : Env) (uri : Text) (blockSize : Nat) (blockIndex : Int)
    (r : Reader) : (st.rootSystemRead P env uri blockSize blockIndex r).2 =
      st.readOf P env blockSize blockIndex r (systemKind P env (emmaGetName uri) r) := by
  rw [rootSystemRead, systemKind]
  extract_lets
  split_ifs
  · rfl
  · rfl
  · rfl
  · rfl
  · rfl
  · exact (rootSystemRead_resources env blockSize blockIndex r).symm
  · rfl

theorem emmaResourceRead_kind (env : Env) (uri : Text) (blockSize : Nat) (blockIndex : Int)
    (r : Reader) : (st.emmaResourceRead P env uri blockSize blockIndex r).2 =
      st.readOf P env blockSize blockIndex r (st.readKind P env uri r) := by
  rw [emmaResourceRead, readKind]
  cases emmaGetRoot uri with
  | none => rfl
  | some root =>
    simp only
    cases (st.tree.emmaGetResource (emmaGetName uri) root).resource with
    | none => rfl
    | some i =>
      cases root with
      | agent => rfl
      | resource => rfl
      | system => exact rootSystemRead_kind env uri blockSize blockIndex r

/-! ### The lists of the system -/

section Lists
variable {b : Nat} {packet count : Int} {first hop : Bool} {data : Text}

theorem snprintf_length (positive : 0 < b) (s : Text) : (snprintf b s).length < b := by
  rw [snprintf, List.length_take]
  omega

theorem neighborFrom_cons (positive : 0 < b) (address : List UInt16)
    (rest : List (List UInt16)) :
    ((neighborFrom P b packet (address :: rest) first count data).Terminated b ∧ count = packet) ∨
      ∃ count' data', (count' = count ∨ count < packet ∧ count' = count + 1) ∧
        neighborFrom P b packet (address :: rest) first count data =
          neighborFrom P b packet rest false count' data' := by
  rw [neighborFrom]
  extract_lets
  split_ifs with _ complete cut complete cut
  all_goals first
    | exact .inl ⟨⟨_, rfl, snprintf_length positive _⟩, by omega⟩
    | exact .inr ⟨_, _, .inr ⟨by omega, rfl⟩, rfl⟩
    | exact .inr ⟨_, _, .inl rfl, rfl⟩

theorem neighborFrom_terminated (positive : 0 < b) (addresses : List (List UInt16)) :
    (neighborFrom P b packet addresses first count data).Terminated b := by
  induction addresses generalizing first count data with
  | nil => exact ⟨_, rfl, snprintf_length positive _⟩
  | cons address rest ih =>
    rcases @neighborFrom_cons P b packet count first data positive address rest with
      ⟨terminated, -⟩ | ⟨count', data', -, onward⟩
    · exact terminated
    · exact onward ▸ ih

theorem neighborFrom_behind (positive : 0 < b) (addresses : List (List UInt16))
    (behind : count + addresses.length < packet) :
    neighborFrom P b packet addresses first count data =
      ⟨snprintf b (chars [']']) ++ [0], (snprintf b (chars [']'])).length + 1⟩ := by
  induction addresses generalizing first count data with
  | nil =>
    rw [List.length_nil] at behind
    rw [neighborFrom, if_pos (by omega)]
    rfl
  | cons address rest ih =>
    rw [List.length_cons] at behind
    push_cast at behind
    rcases @neighborFrom_cons P b packet count first data positive address rest with
      ⟨-, complete⟩ | ⟨count', data', counted, onward⟩
    · omega
    · rw [onward]
      exact ih (by omega)

theorem routeSide_cases (positive : 0 < b) (address : List UInt16) :
    (∃ data', data'.length < b ∧ count = packet ∧
        routeSide b packet hop address first count data = (true, false, count, data')) ∨
      (∃ count' data', (count' = count ∨ count < packet ∧ count' = count + 1) ∧
        routeSide b packet hop address first count data = (false, false, count', data')) ∨
      (count < packet ∧ (7 < b → first = false → 1 < data.length) ∧ ∃ mark, mark.length ≤ 1 ∧
        routeSide b packet hop address first count data = (false, true, count + 1, mark)) := by
  generalize side : routeSide b packet hop address first count data = result
  unfold routeSide at side
  extract_lets opened buff offset separator written offset' k mark at side
  by_cases complete : offset' ≤ 0 ∧ count = packet
  · rw [if_pos complete] at side
    exact .inl ⟨_, snprintf_length positive _, complete.2, side.symm⟩
  · rw [if_neg complete] at side
    by_cases cut : offset' ≤ 0 ∧ count < packet
    · rw [if_pos cut] at side
      by_cases inside : k > 0
      · rw [if_pos inside] at side
        exact .inr (.inl ⟨_, _, .inr ⟨cut.2, rfl⟩, side.symm⟩)
      · rw [if_neg inside] at side
        refine .inr (.inr ⟨cut.2, fun large fresh => ?_, _, ?_, side.symm⟩)
        · have same : opened = data := by
            subst fresh
            rfl
          have kept : offset' = if offset > 0 then offset - 1 else offset := rfl
          have room : offset = b - opened.length - buff.length - 4 := rfl
          have start : k = buff.length + offset' - 1 := rfl
          rw [same] at room
          split at kept <;> omega
        · have single : mark.length = 1 := by
            simp only [mark]
            split <;> rfl
          rw [snprintf, List.length_take]
          omega
    · rw [if_neg cut] at side
      exact .inr (.inl ⟨_, _, .inl rfl, side.symm⟩)

theorem routesFrom_terminated (positive : 0 < b) {fuel : Nat} (sides : List (Bool × List UInt16))
    (skipped : count ≤ packet) (enough : sides.length + (packet - count).toNat < fuel) :
    (routesFrom b packet fuel sides first count data).Terminated b := by
  induction fuel generalizing sides first count data with
  | zero => omega
  | succ fuel ih =>
    cases sides with
    | nil =>
      refine ⟨_, rfl, ?_⟩
      split_ifs
      · exact positive
      · exact snprintf_length positive _
      · exact snprintf_length positive _
    | cons side rest =>
      obtain ⟨hop, address⟩ := side
      rw [List.length_cons] at enough
      rw [routesFrom]
      rcases @routeSide_cases b packet count first hop data positive address with
        ⟨data', short, -, side⟩ | ⟨count', data', counted, side⟩ | ⟨cut, -, mark, -, side⟩
      · simp only [side]
        exact ⟨_, rfl, short⟩
      · simp only [side]
        exact ih rest (by omega) (by omega)
      · simp only [side]
        exact ih _ (by omega) (by rw [List.length_cons]; omega)

theorem routesFrom_behind (large : 7 < b) {fuel : Nat} (sides : List (Bool × List UInt16))
    (behind : count + 2 * sides.length < packet ∨
      first = false ∧ data.length ≤ 1 ∧ count + 2 * sides.length ≤ packet ∧ sides ≠ [])
    (enough : sides.length + (packet - count).toNat < fuel) :
    routesFrom b packet fuel sides first count data = ⟨[0], 1⟩ := by
  induction fuel generalizing sides first count data with
  | zero => omega
  | succ fuel ih =>
    cases sides with
    | nil =>
      rw [List.length_nil] at behind
      have skipped : count < packet := by
        rcases behind with h | ⟨-, -, -, h⟩
        · omega
        · exact absurd rfl h
      rw [routesFrom, if_pos skipped]
      rfl
    | cons side rest =>
      obtain ⟨hop, address⟩ := side
      rw [List.length_cons] at enough behind
      rw [routesFrom]
      rcases @routeSide_cases b packet count first hop data (by omega) address with
        ⟨data', short, complete, side⟩ | ⟨count', data', counted, side⟩ |
          ⟨cut, again, mark, single, side⟩
      · rcases behind with h | ⟨-, -, h, -⟩ <;> omega
      · simp only [side]
        exact ih rest (.inl (by rcases behind with h | ⟨-, -, h, -⟩ <;> omega)) (by omega)
      · simp only [side]
        refine ih _ (.inr ⟨rfl, single, ?_, List.cons_ne_nil _ _⟩) (by rw [List.length_cons]; omega)
        rw [List.length_cons]
        rcases behind with h | ⟨fresh, few, h, -⟩
        · omega
        · have := again large fresh
          omega

theorem resourceTable_length (positive : 0 < b) (names : List Text) :
    (resourceTable P b packet names first count data).length < b := by
  induction names generalizing first count data with
  | nil => exact snprintf_length positive _
  | cons name rest ih =>
    rw [resourceTable]
    generalize entry : resourceEntry P b packet name first count data = result
    unfold resourceEntry at entry
    extract_lets buff offset separator written offset' at entry
    by_cases complete : written.length + 1 = b ∧ count = packet
    · rw [if_pos complete] at entry
      subst entry
      exact snprintf_length positive _
    · rw [if_neg complete] at entry
      split_ifs at entry <;> subst entry <;> exact ih

variable {f : Root → Forest Nat}

/-- The paths of a table: an empty name for the first if it does not fit, then those that fit up
to the first that does not -/
def tabled (b : Nat) : List Text → List Text
  | [] => []
  | path :: paths =>
    (if path.length ≤ b then path else []) :: paths.takeWhile (·.length ≤ b)

theorem Sound.names_table (so : st.Sound f) (env : Env) (blockIndex : Int) (r : Reader) :
    let block := resourceTable P b (Int.tdiv blockIndex b)
      (tabled b ((Root.visits (fun r => (f r).walk) Root.all).map st.tree.fullPath)) true 0
      (snprintf b (chars ['[']))
    (st.rootSystemRead P env systemResources b blockIndex r).2 =
      ⟨block ++ [0], block.length + 1⟩ := by
  obtain ⟨v, visits, hv, first, hands⟩ := so.hands_next r.iter .agent b
  have few := so.shape.visits_le .agent
  have whole : Root.all.drop Root.agent.index = Root.all := rfl
  rw [hv, List.length_cons] at few
  rw [whole] at hv
  rw [hv, List.map_cons, tabled, rootSystemRead_resources, first]
  refine resourcesFrom_table _ hands ?_ _ true 0 _
  refine Nat.lt_of_le_of_lt (List.takeWhile_sublist _).length_le ?_
  rw [List.length_map]
  exact Nat.lt_of_succ_lt few

theorem Sound.names_terminated (so : st.Sound f) (positive : 0 < b) (env : Env) (blockIndex : Int)
    (r : Reader) :
    (st.rootSystemRead P env systemResources b blockIndex r).2.Terminated b := by
  rw [so.names_table]
  exact ⟨_, rfl, resourceTable_length positive _⟩

/-! Only lengths count for the end of a table. -/

def cuts (P : Platform) (N : Nat) : Nat → List Text → Nat
  | _, [] => 0
  | used, name :: rest =>
    let behind := used + (nameInBlock P (N + 1) name).length + 3
    if behind ≤ N then cuts P N behind rest else cuts P N (cutRest P N used name) rest + 1

variable {N : Nat} {name : Text}

theorem resourceEntry_full (over' : N < data.length + (nameInBlock P (N + 1) name).length + 3) :
    ∃ full, full.length = N ∧
      resourceEntry P (N + 1) count name first count data = (true, count, full) := by
  have sep : (if first then chars [' ', '"'] else chars [',', '"'] : Text).length = 2 := by
    cases first <;> rfl
  have one (offset : Int) : (closing offset).length = 1 := by
    unfold closing
    split <;> rfl
  have size (offset : Int) : (snprintf (N + 1) (data ++ (if first then chars [' ', '"']
      else chars [',', '"']) ++ nameInBlock P (N + 1) name ++ closing offset)).length = N := by
    rw [snprintf, List.length_take]
    simp only [List.length_append, sep, one]
    omega
  unfold resourceEntry
  simp only [size, and_self, if_true]
  exact ⟨_, size _, rfl⟩

theorem resourceEntry_next (two : 2 ≤ N)
    (over' : N < data.length + (nameInBlock P (N + 1) name).length + 3) (skipped : count < packet) :
    ∃ rest, rest.length = cutRest P N data.length name ∧
      resourceEntry P (N + 1) packet name first count data = (false, count + 1, rest) := by
  unfold resourceEntry cutRest
  generalize nameInBlock P (N + 1) name = buff at over' ⊢
  simp only
  generalize hcopy : snprintf (N + 1) (chars [',', '"'] ++ buff ++ chars ['"']) = copy
  have size : copy.length = min N (buff.length + 3) := by
    rw [← hcopy, snprintf, List.length_take]
    simp [chars]
  generalize hoffset : (if ((N + 1 : Nat) : Int) - data.length - buff.length - 2 > 0 then
    ((N + 1 : Nat) : Int) - data.length - buff.length - 2 - 1
    else ((N + 1 : Nat) : Int) - data.length - buff.length - 2) = offset
  have cut : offset ≤ 0 ∧ count < packet := ⟨by split at hoffset <;> omega, skipped⟩
  refine ⟨_, ?_, (if_neg fun h => absurd h.2 (Int.ne_of_lt skipped)).trans (if_pos cut)⟩
  -- the copy from some place on
  have inside (i : Nat) (le : i ≤ copy.length) :
      (snprintf (N + 1) (fromIndex P copy i)).length = copy.length - i := by
    rw [fromIndex, if_pos (Int.natCast_nonneg i), Int.toNat_natCast, snprintf, List.length_take,
      List.length_drop]
    omega
  split_ifs with last near
  · have place : (copy.length : Int) + offset - 2 = (copy.length - 2 : Nat) := by
      split at hoffset <;> omega
    rw [place, inside _ (by omega)]
    omega
  · have place : (copy.length : Int) + offset - 2 =
        (copy.length + N - (data.length + buff.length + 3) : Nat) := by
      split at hoffset <;> omega
    rw [place, inside _ (by omega)]
    omega
  · have place : (copy.length : Int) + offset - 2 =
        copy.length + N - (data.length + buff.length + 3 : Nat) := by
      split at hoffset <;> omega
    rw [place]

theorem cutRest_le (two : 2 ≤ N) (used : Nat) : cutRest P N used name ≤ N := by
  have copy : (snprintf (N + 1) (chars [',', '"'] ++ nameInBlock P (N + 1) name ++
      chars ['"'])).length ≤ N := by
    rw [snprintf, List.length_take]
    omega
  unfold cutRest
  simp only
  split_ifs
  · exact two
  · omega
  · rw [snprintf, List.length_take]
    omega

theorem length_resourceTable (two : 2 ≤ N) (names : List Text) (room : data.length ≤ N)
    (count : Int) (j : Nat) :
    (resourceTable P (N + 1) (count + j) names first count data).length =
      if j < cuts P N data.length names then N else min N (filled P N data.length names + 1) := by
  induction names generalizing first count data j with
  | nil =>
    rw [resourceTable, snprintf, List.length_take]
    simp [cuts, filled, chars]
  | cons name rest ih =>
    rw [resourceTable, cuts, filled]
    by_cases fits : data.length + (nameInBlock P (N + 1) name).length + 3 ≤ N
    · have short : name.length < N + 1 := by
        by_contra long
        have : name.length ≤ (nameInBlock P (N + 1) name).length := by
          rw [nameInBlock]
          split
          · rw [List.length_append]
            exact Nat.le_add_right _ _
          · exact Nat.le_refl _
        omega
      rw [nameInBlock_short short] at fits ⊢
      simp only [if_pos fits]
      rw [resourceEntry_fits (by omega)]
      have size : (data ++ entryText first name).length = data.length + name.length + 3 := by
        rw [List.length_append, length_entryText, Nat.add_assoc]
      by_cases sent : data.length + name.length + 4 = N + 1 ∧ count = count + j
      · obtain rfl : j = 0 := by omega
        have full : data.length + name.length + 3 = N := by omega
        rw [decide_eq_true sent]
        simp only [size, full]
        -- behind a block that is just full there is no other entry, or one that is cut
        cases rest with
        | nil => simp [filled]
        | cons other rest =>
          have more : 0 < cuts P N N (other :: rest) := by
            rw [cuts, if_neg (by omega)]
            exact Nat.succ_pos _
          rw [if_pos more]
      · rw [decide_eq_false sent]
        simp only
        rw [ih (by omega) count j, size]
    · have over' := Nat.lt_of_not_le fits
      simp only [if_neg fits]
      cases j with
      | zero =>
        obtain ⟨full, size, entry⟩ := @resourceEntry_full P count first data N name over'
        rw [Int.natCast_zero, Int.add_zero, entry]
        simpa using size
      | succ j =>
        obtain ⟨next, size, entry⟩ := @resourceEntry_next P (count + (j + 1 : Nat)) count first data
          N name two over' (by omega)
        have later : count + ((j + 1 : Nat) : Int) = count + 1 + j := by push_cast; omega
        rw [entry, later]
        simp only [Nat.add_lt_add_iff_right]
        rw [ih (size ▸ cutRest_le two _) (count + 1) j, size]

end Lists

/-! ### The contract -/

def ReadFails (P : Platform) (st : Store) (b : UInt16) (blockIndex : Int) : ReadKind → Prop
  | .value slot => st.resourceDigits P slot b blockIndex = none
  | .neighbors | .routes => b = 0
  | .names => b = 0 ∨ systemBuffSize < b.toNat
  | _ => False

/-- A read goes well and keeps to its block. -/
structure KeepsContract (P : Platform) (st : Store) (env : Env) (uri : Text) (b : UInt16)
    (blockIndex : Int) (r : Reader) : Prop where
  defined : ¬st.ReadFails P b blockIndex (st.readKind P env uri r)
  sized : (st.emmaResourceRead P env uri b.toNat blockIndex r).2.Sized b.toNat

def ReadFits (P : Platform) (st : Store) (b : UInt16) (blockIndex : Nat) : ReadKind → Prop
  | .nothing | .file _ => True
  | .value slot => b ≠ 0 ∧ blockIndex ≤ (decimal (st.values slot).toNat).length ∧
      blockIndex + b.toNat < 2 ^ P.intBits
  | .number n => (formatInt n).length ≤ b.toNat
  | .text => nsUri.length ≤ b.toNat
  | .neighbors | .routes => b ≠ 0
  | .names => b ≠ 0 ∧ b.toNat ≤ systemBuffSize

variable {b : UInt16} {env : Env} {uri : Text} {f : Root → Forest Nat}

theorem positive_of_ne (h : b ≠ 0) : 0 < b.toNat :=
  Nat.pos_of_ne_zero fun e => h (UInt16.toNat_inj.mp e)

theorem printed_sized_iff (s : Text) : (printed b.toNat s).Sized b.toNat ↔ s.length ≤ b.toNat := by
  constructor
  · intro sized
    exact Int.ofNat_le.mp sized.high
  · intro fits
    refine ⟨Int.natCast_nonneg _, Int.ofNat_le.mpr fits, ?_⟩
    rw [printed]
    split
    · exact Nat.zero_le _
    · have := snprintf_length (Nat.pos_of_ne_zero ‹_›) s
      rw [List.length_append, List.length_singleton]
      omega

theorem rootResourceRead_sized_iff (slot : Nat) (blockIndex : Int) :
    (st.rootResourceRead P slot b.toNat blockIndex).Sized b.toNat ↔ b ≠ 0 := by
  constructor
  · rintro sized rfl
    have stored := sized.stored
    rw [rootResourceRead] at stored
    simp [chars] at stored
  · intro some'
    have positive := positive_of_ne some'
    rw [rootResourceRead]
    generalize hs : ((decimal (st.values slot).toNat).drop (P.unsigned blockIndex)).take b.toNat =
      bytes
    have size : bytes.length ≤ b.toNat := by
      rw [← hs, List.length_take]
      omega
    refine ⟨Int.natCast_nonneg _, Int.ofNat_le.mpr size, ?_⟩
    simp only
    split
    · exact positive
    · exact size

theorem rootAgentRead_sized (slot i : Nat) :
    (st.rootAgentRead slot b.toNat i).Sized b.toNat := by
  rw [rootAgentRead]
  cases st.files (st.agents slot).memoryIndex with
  | none => exact ⟨Int.le_refl 0, Int.natCast_nonneg _, Nat.zero_le _⟩
  | some file =>
    simp only [if_neg (Int.not_lt.mpr (Int.natCast_nonneg i))]
    have size : ((file.drop (i : Int).toNat).take b.toNat).length ≤ b.toNat := by
      rw [List.length_take]
      omega
    exact ⟨Int.natCast_nonneg _, Int.ofNat_le.mpr size, size⟩

theorem Sound.contract_iff (so : st.Sound f) {i : Nat} (small : i < 2 ^ (P.intBits - 1))
    (r : Reader) : st.KeepsContract P env uri b i r ↔
      st.ReadFits P b i (st.readKind P env uri r) := by
  have expand : st.KeepsContract P env uri b i r ↔
      ¬st.ReadFails P b i (st.readKind P env uri r) ∧
        (st.readOf P env b.toNat i r (st.readKind P env uri r)).Sized b.toNat := by
    rw [← st.emmaResourceRead_kind (P := P) env uri b.toNat i r]
    exact ⟨fun h => ⟨h.defined, h.sized⟩, fun h => ⟨h.1, h.2⟩⟩
  rw [expand]
  cases st.readKind P env uri r with
  | nothing =>
    exact iff_of_true ⟨id, Int.le_refl 0, Int.natCast_nonneg _, Nat.zero_le _⟩ trivial
  | file slot => exact iff_of_true ⟨id, st.rootAgentRead_sized slot i⟩ trivial
  | value slot =>
    have digits := intoa_isSome_iff (P := P) (st.values slot) b.toNat_lt small
    have index : P.unsigned (i : Int) = i :=
      P.unsigned_nat (by have := P.pow_intBits; omega)
    have defined : st.resourceDigits P slot b i ≠ none ↔
        i ≤ (decimal (st.values slot).toNat).length ∧ i + b.toNat < 2 ^ P.intBits := by
      rw [← Option.isSome_iff_ne_none, resourceDigits, index, digits]
    exact (and_congr defined (st.rootResourceRead_sized_iff slot i)).trans and_comm
  | number n => exact (and_iff_right id).trans (printed_sized_iff _)
  | text => exact (and_iff_right id).trans (printed_sized_iff _)
  | neighbors =>
    refine ⟨fun h => h.1, fun h => ⟨h, ?_⟩⟩
    exact (neighborFrom_terminated (positive_of_ne h) _).sized
  | routes =>
    refine ⟨fun h => h.1, fun h => ⟨h, ?_⟩⟩
    have forward : 0 ≤ Int.tdiv (i : Int) (b.toNat : Int) :=
      Int.tdiv_nonneg (Int.natCast_nonneg _) (Int.natCast_nonneg _)
    exact (routesFrom_terminated (positive_of_ne h) _ forward (by omega)).sized
  | names =>
    have fails : ¬(b = 0 ∨ systemBuffSize < b.toNat) ↔ b ≠ 0 ∧ b.toNat ≤ systemBuffSize := by
      rw [not_or, Nat.not_lt]
    refine ⟨fun h => fails.mp h.1, fun h => ⟨fails.mpr h, ?_⟩⟩
    exact (so.names_terminated (positive_of_ne h.1) env i r).sized

/-! ### The end of a transfer -/

/-- Reading at 0, `b`, `2b` and so on goes well up to a read shorter than a block. What the reader
is at may have changed in between. -/
def ReadsEnd (P : Platform) (st : Store) (env : Env) (uri : Text) (b : UInt16)
    (readers : Nat → Reader) : Prop :=
  ∃ k : Nat, (∀ j ≤ k, ¬st.ReadFails P b (j * b.toNat : Nat)
      (st.readKind P env uri (readers (j * b.toNat)))) ∧
    (st.emmaResourceRead P env uri b.toNat (k * b.toNat : Nat)
      (readers (k * b.toNat))).2.returned < b.toNat

/-- Where reads of some kind end: those of the table of paths when it leaves more than one place
free in its last block. -/
def EndsFor (P : Platform) (b : UInt16) (paths : List Text) : ReadKind → Prop
  | .text => nsUri.length < b.toNat
  | .names => b.toNat ≤ systemBuffSize ∧
      filled P (b.toNat - 1) 1 (tabled b.toNat paths) + 1 < b.toNat - 1
  | _ => True

theorem readKind_reader (env : Env) (uri : Text) (r r' : Reader) :
    st.readKind P env uri r' = st.readKind P env uri r ∨
      ∃ n n' : UInt16, st.readKind P env uri r = .number (P.int n.toNat) ∧
        st.readKind P env uri r' = .number (P.int n'.toNat) := by
  unfold readKind
  cases emmaGetRoot uri with
  | none => exact .inl rfl
  | some root =>
    simp only
    cases (st.tree.emmaGetResource (emmaGetName uri) root).resource with
    | none => exact .inl rfl
    | some i =>
      cases root with
      | agent => exact .inl rfl
      | resource => exact .inl rfl
      | system =>
        simp only [systemKind]
        split_ifs
        · exact .inl rfl
        · exact .inr ⟨_, _, rfl, rfl⟩
        all_goals exact .inl rfl

theorem readKind_number {r : Reader} {n : Int} (kind : st.readKind P env uri r = .number n) :
    ∃ m < 2 ^ 32, n = P.int (m : Nat) := by
  unfold readKind at kind
  cases hr : emmaGetRoot uri with
  | none =>
    rw [hr] at kind
    cases kind
  | some root =>
    rw [hr] at kind
    simp only at kind
    cases hi : (st.tree.emmaGetResource (emmaGetName uri) root).resource with
    | none =>
      rw [hi] at kind
      cases kind
    | some i =>
      rw [hi] at kind
      cases root with
      | agent => cases kind
      | resource => cases kind
      | system =>
        simp only [systemKind] at kind
        split_ifs at kind
        · exact ⟨_, env.now.toNat_lt, (ReadKind.number.inj kind).symm⟩
        · refine ⟨_, ?_, (ReadKind.number.inj kind).symm⟩
          exact Nat.lt_trans (UInt16.toNat_lt _) (by decide)

theorem length_formatInt {n : Nat} (small : n < 2 ^ 32) :
    (formatInt (P.int n)).length ≤ 11 := by
  have bound : (P.int n).natAbs ≤ n := by
    have wrapped : ((n : Int) % ((2 ^ P.intBits : Nat) : Int)) = ((n % 2 ^ P.intBits : Nat) : Int) :=
      rfl
    have rest := Nat.mod_le n (2 ^ P.intBits)
    have below := Nat.mod_lt n (Nat.two_pow_pos P.intBits)
    rw [Platform.int, Int.bmod, wrapped]
    split <;> omega
  cases h : P.int n with
  | ofNat m =>
    rw [h] at bound
    exact Nat.le_trans (length_decimal_le (by decide) (by simp at bound; omega : m < 10 ^ 10))
      (by decide)
  | negSucc m =>
    rw [h] at bound
    have : (decimal (m + 1)).length ≤ 10 := length_decimal_le (by decide) (by simp at bound; omega)
    rw [formatInt, List.length_append]
    simpa [chars] using by omega

section Ends
variable {readers : Nat → Reader}

theorem number_ends {n : Int} (large : 16 ≤ b.toNat) (short : (formatInt n).length ≤ 11)
    (kind : st.readKind P env uri (readers 0) = .number n) : st.ReadsEnd P env uri b readers := by
  refine ⟨0, fun j hj => ?_, ?_⟩
  · obtain rfl : j = 0 := Nat.le_zero.mp hj
    rw [Nat.zero_mul, kind]
    exact id
  · rw [Nat.zero_mul, emmaResourceRead_kind, kind]
    simp only [readOf, printed]
    omega

theorem file_ends {slot : Nat} (positive : 0 < b.toNat)
    (kind : ∀ r, st.readKind P env uri r = .file slot) : st.ReadsEnd P env uri b readers := by
  cases hf : st.files (st.agents slot).memoryIndex with
  | none =>
    refine ⟨0, fun j _ => by rw [kind]; exact id, ?_⟩
    rw [emmaResourceRead_kind, kind]
    simp only [readOf, rootAgentRead, hf]
    exact Int.natCast_pos.mpr positive
  | some file =>
    refine ⟨file.length / b.toNat, fun j _ => by rw [kind]; exact id, ?_⟩
    rw [emmaResourceRead_kind, kind]
    simp only [readOf, rootAgentRead, hf]
    rw [if_neg (Int.not_lt.mpr (Int.natCast_nonneg _)), Int.toNat_natCast]
    simp only [List.length_take, List.length_drop]
    have rest := Nat.mod_lt file.length positive
    have split := Nat.div_add_mod' file.length b.toNat
    omega

theorem value_ends {slot : Nat} (large : 16 ≤ b.toNat)
    (kind : ∀ r, st.readKind P env uri r = .value slot) : st.ReadsEnd P env uri b readers := by
  have few := length_value (st.values slot)
  refine ⟨0, fun j hj => ?_, ?_⟩
  · obtain rfl : j = 0 := Nat.le_zero.mp hj
    have size := b.toNat_lt
    have whole : 2 ^ 16 ≤ 2 ^ P.intBits := Nat.pow_le_pow_right (by decide) P.intBits_ge
    have index : P.unsigned ((0 * b.toNat : Nat) : Int) = 0 := by
      rw [Nat.zero_mul]
      exact P.unsigned_nat (by omega)
    have small : 0 < 2 ^ (P.intBits - 1) := Nat.two_pow_pos _
    have digits := (intoa_isSome_iff (P := P) (st.values slot) size small).mpr
      ⟨Nat.zero_le _, by omega⟩
    rw [kind]
    simp only [ReadFails, resourceDigits, index]
    exact Option.isSome_iff_ne_none.mp digits
  · rw [emmaResourceRead_kind, kind]
    simp only [readOf, rootResourceRead, List.length_take, List.length_drop]
    omega

theorem neighbors_end (large : 16 ≤ b.toNat)
    (kind : ∀ r, st.readKind P env uri r = .neighbors) : st.ReadsEnd P env uri b readers := by
  refine ⟨env.neighbors.length + 1, fun j _ => ?_, ?_⟩
  · rw [kind]
    rintro rfl
    exact absurd large (by decide)
  · rw [emmaResourceRead_kind, kind]
    have packet : Int.tdiv (((env.neighbors.length + 1) * b.toNat : Nat) : Int) (b.toNat : Int) =
        (env.neighbors.length + 1 : Nat) := by
      rw [Int.natCast_mul]
      exact Int.mul_tdiv_cancel _ (by omega)
    simp only [readOf, packet]
    rw [neighborFrom_behind (by omega) _ (by push_cast; omega)]
    have one : (snprintf b.toNat (chars [']'])).length ≤ 1 := by
      rw [snprintf, List.length_take]
      exact Nat.min_le_right _ _
    simp only
    omega

theorem routes_end (large : 16 ≤ b.toNat)
    (kind : ∀ r, st.readKind P env uri r = .routes) : st.ReadsEnd P env uri b readers := by
  generalize hs : (env.routes.flatMap fun (ip, hop) => [(false, ip), (true, hop)]) = sides
  refine ⟨2 * sides.length + 1, fun j _ => ?_, ?_⟩
  · rw [kind]
    rintro rfl
    exact absurd large (by decide)
  · rw [emmaResourceRead_kind, kind]
    have packet : Int.tdiv (((2 * sides.length + 1) * b.toNat : Nat) : Int) (b.toNat : Int) =
        (2 * sides.length + 1 : Nat) := by
      rw [Int.natCast_mul]
      exact Int.mul_tdiv_cancel _ (by omega)
    simp only [readOf, packet, hs]
    rw [routesFrom_behind (by omega) sides (.inl (by push_cast; omega)) (by push_cast; omega)]
    simp only
    omega

theorem names_end_iff (so : st.Sound f) (large : 16 ≤ b.toNat)
    (kind : ∀ r, st.readKind P env uri r = .names) :
    st.ReadsEnd P env uri b readers ↔ EndsFor P b
      ((Root.visits (fun r => (f r).walk) Root.all).map st.tree.fullPath) .names := by
  obtain ⟨N, hN⟩ : ∃ N, b.toNat = N + 1 := ⟨b.toNat - 1, by omega⟩
  have some' : b ≠ 0 := by
    rintro rfl
    exact absurd large (by decide)
  rw [EndsFor, hN, Nat.add_sub_cancel]
  generalize hnames : tabled (N + 1)
    ((Root.visits (fun r => (f r).walk) Root.all).map st.tree.fullPath) = names
  -- what the read of a block returns
  have returned (k : Nat) : (st.emmaResourceRead P env uri (N + 1) (k * (N + 1) : Nat)
      (readers (k * (N + 1)))).2.returned = ((if k < cuts P N 1 names then N
        else min N (filled P N 1 names + 1) : Nat) : Int) + 1 := by
    have packet : Int.tdiv ((k * (N + 1) : Nat) : Int) ((N + 1 : Nat) : Int) = k := by
      rw [Int.natCast_mul]
      exact Int.mul_tdiv_cancel _ (by omega)
    have opening : snprintf (N + 1) (chars ['[']) = chars ['['] :=
      List.take_of_length_le (by simp only [chars, List.length_map, List.length_singleton]; omega)
    have size := @length_resourceTable P true (chars ['[']) N (by omega) names
      (by simp [chars]; omega) 0 k
    rw [Int.zero_add] at size
    rw [emmaResourceRead_kind, kind, readOf, so.names_table, packet, opening, hnames]
    simp only [size]
    rfl
  constructor
  · rintro ⟨k, defined, short⟩
    have first := defined 0 (Nat.zero_le k)
    rw [kind] at first
    rw [hN, returned] at short
    refine ⟨Nat.not_lt.mp fun over' => first (.inr (hN ▸ over')), ?_⟩
    split at short <;> omega
  · rintro ⟨room, short⟩
    refine ⟨cuts P N 1 names, fun j _ => ?_, ?_⟩
    · rw [kind]
      rintro (none' | over')
      · exact some' none'
      · omega
    · rw [hN, returned, if_neg (Nat.lt_irrefl _)]
      omega

theorem Sound.ends_iff (so : st.Sound f) (large : 16 ≤ b.toNat) :
    st.ReadsEnd P env uri b readers ↔
      EndsFor P b ((Root.visits (fun r => (f r).walk) Root.all).map st.tree.fullPath)
        (st.readKind P env uri (readers 0)) := by
  have same : (∀ n, st.readKind P env uri (readers 0) ≠ .number n) →
      ∀ r, st.readKind P env uri r = st.readKind P env uri (readers 0) := by
    intro other r
    rcases st.readKind_reader (P := P) env uri (readers 0) r with same | ⟨n, _, number, _⟩
    · exact same
    · exact absurd number (other _)
  cases hk : st.readKind P env uri (readers 0) with
  | nothing =>
    refine iff_of_true ⟨0, fun j _ => ?_, ?_⟩ trivial
    · rw [same (by simp [hk]), hk]
      exact id
    · rw [emmaResourceRead_kind, same (by simp [hk]), hk]
      exact Int.natCast_pos.mpr (by omega)
  | file slot => exact iff_of_true (file_ends (by omega) (by simpa [hk] using same)) trivial
  | value slot => exact iff_of_true (value_ends large (by simpa [hk] using same)) trivial
  | number n =>
    obtain ⟨m, small, rfl⟩ := readKind_number hk
    exact iff_of_true (number_ends large (length_formatInt small) hk) trivial
  | text =>
    have read : ∀ k : Nat, (st.emmaResourceRead P env uri b.toNat (k * b.toNat : Nat)
        (readers (k * b.toNat))).2.returned = nsUri.length := by
      intro k
      rw [emmaResourceRead_kind, same (by simp [hk]), hk]
      rfl
    constructor
    · rintro ⟨k, -, short⟩
      rw [read] at short
      exact Int.ofNat_lt.mp short
    · intro short
      refine ⟨0, fun j _ => ?_, ?_⟩
      · rw [same (by simp [hk]), hk]
        exact id
      · rw [read]
        exact Int.ofNat_lt.mpr short
  | neighbors => exact iff_of_true (neighbors_end large (by simpa [hk] using same)) trivial
  | routes => exact iff_of_true (routes_end large (by simpa [hk] using same)) trivial
  | names => exact names_end_iff so large (by simpa [hk] using same)

end Ends

theorem Reached.reader_contract_iff (h : st.Reached P) : ∃ order : Root → List Nat,
    (∀ r, st.tree.Postorder r (order r)) ∧ ∀ (env : Env) (uri : Text) (b : UInt16),
      (∀ (i : Nat) (r : Reader), i < 2 ^ (P.intBits - 1) →
        (st.KeepsContract P env uri b i r ↔ st.ReadFits P b i (st.readKind P env uri r))) ∧
      ∀ readers : Nat → Reader, 16 ≤ b.toNat →
        (st.ReadsEnd P env uri b readers ↔
          EndsFor P b ((Root.visits order Root.all).map st.tree.fullPath)
            (st.readKind P env uri (readers 0))) := by
  obtain ⟨f, so⟩ := h.sound
  refine ⟨fun r => (f r).walk, so.postorder, fun env uri b => ⟨fun i r small => ?_, ?_⟩⟩
  · exact so.contract_iff small r
  · exact fun readers large => so.ends_iff large

def twoKinds : Store :=
  ((empty fun _ => none).apply .plain (.add (some .resource) (chars ['x']))).apply .plain
    (.add (some .system) (chars ['n', 's', '-', 'u', 'r', 'i']))

theorem twoKinds_reached : twoKinds.Reached .plain :=
  ⟨_, Runs.tail (Runs.tail .refl trivial rfl) trivial rfl⟩

theorem reader_contract_value :
    twoKinds.KeepsContract .plain .bare (chars ['L', '/', 'x']) 16 (0 : Nat) ⟨.init, 0, 0⟩ ∧
      twoKinds.ReadsEnd .plain .bare (chars ['L', '/', 'x']) 16 fun _ => ⟨.init, 0, 0⟩ := by
  obtain ⟨order, -, contract⟩ := Reached.reader_contract_iff twoKinds_reached
  have kind : twoKinds.readKind .plain .bare (chars ['L', '/', 'x']) ⟨.init, 0, 0⟩ = .value 0 := by
    decide +kernel
  obtain ⟨keeps, ends⟩ := contract .bare (chars ['L', '/', 'x']) 16
  refine ⟨(keeps 0 ⟨.init, 0, 0⟩ (by decide)).mpr ?_,
    (ends (fun _ => ⟨.init, 0, 0⟩) (by decide)).mpr ?_⟩
  · rw [kind]
    exact ⟨by decide, Nat.zero_le _, by decide⟩
  · rw [kind]
    trivial

/-- A block of 32 bytes is filled by each read of `S/ns-uri`, which says that it gave 44. -/
theorem reader_endless : ¬ ∀ (P : Platform) (st : Store) (env : Env) (uri : Text) (b : UInt16),
    st.Reached P →
      (∀ (i : Nat) (r : Reader), i < 2 ^ (P.intBits - 1) → st.KeepsContract P env uri b i r) ∧
        ∀ readers : Nat → Reader, 16 ≤ b.toNat → st.ReadsEnd P env uri b readers := by
  intro h
  obtain ⟨-, ends⟩ := h .plain twoKinds .bare (chars ['S', '/', 'n', 's', '-', 'u', 'r', 'i']) 32
    twoKinds_reached
  obtain ⟨k, -, short⟩ := ends (fun _ => ⟨.init, 0, 0⟩) (by decide)
  have kind : twoKinds.readKind .plain .bare (chars ['S', '/', 'n', 's', '-', 'u', 'r', 'i'])
      ⟨.init, 0, 0⟩ = .text := by
    decide +kernel
  rw [emmaResourceRead_kind, kind] at short
  have long : ¬((nsUri.length : Int) < (32 : UInt16).toNat) := by decide
  exact long short

end Store
end EmmaNode

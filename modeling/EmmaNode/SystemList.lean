import Mathlib.Data.List.TakeWhile
import EmmaNode.Blockwise
import EmmaNode.Enumeration
import EmmaNode.JsonStrings

/-! The resource table of `S/resources`. Each block is written anew from the first name on; an
entry that does not fit is cut, and what is left of it begins the next block. -/

namespace EmmaNode
open JsonStrings (quote quoted comma)

namespace Store
variable {P : Platform} {st : Store} {b : Nat}

def resourceEntry (P : Platform) (blockSize : Nat) (packet : Int) (name : Text) (first : Bool)
    (count : Int) (data : Text) : Bool × Int × Text :=
  let buff := nameInBlock P blockSize name
  let offset : Int := blockSize - data.length - buff.length - 2
  let separator := if first then chars [' ', '"'] else chars [',', '"']
  let data := snprintf blockSize (data ++ separator ++ buff ++ closing offset)
  let offset := if offset > 0 then offset - 1 else offset
  if data.length + 1 = blockSize ∧ count = packet then (true, count, data)
  else if offset ≤ 0 ∧ count < packet then
    let buff := snprintf blockSize (chars [',', '"'] ++ buff ++ chars ['"'])
    (false, count + 1, snprintf blockSize (fromIndex P buff (buff.length + offset - 2)))
  else (false, count, data)

def resourceTable (P : Platform) (blockSize : Nat) (packet : Int) :
    List Text → Bool → Int → Text → Text
  | [], _, _, data => snprintf blockSize (data ++ chars [']'])
  | name :: rest, first, count, data =>
    match resourceEntry P blockSize packet name first count data with
    | (true, _, data) => data
    | (false, count, data) => resourceTable P blockSize packet rest false count data

theorem resourcesFrom_succ (packet : Int) (fuel : Nat) (name : Text) (it : Iter) (first : Bool)
    (count : Int) (data : Text) :
    st.resourcesFrom P b packet (fuel + 1) name it first count data =
      match resourceEntry P b packet name first count data with
      | (true, _, data) => (it, ⟨data ++ [0], data.length + 1⟩)
      | (false, count, data) =>
        match it.getNext st.tree b with
        | ([], it) =>
          let data := snprintf b (data ++ chars [']'])
          (it, ⟨data ++ [0], data.length + 1⟩)
        | (name, it) => st.resourcesFrom P b packet fuel name it false count data := by
  rw [resourcesFrom, resourceEntry]
  extract_lets
  split_ifs <;> rfl

theorem resourcesFrom_table (packet : Int) {it : Iter} {names : List Text}
    (hands : it.Hands st.tree b names) {fuel : Nat} (enough : names.length < fuel) (name : Text)
    (first : Bool) (count : Int) (data : Text) :
    let block := resourceTable P b packet (name :: names) first count data
    (st.resourcesFrom P b packet fuel name it first count data).2 =
      ⟨block ++ [0], block.length + 1⟩ := by
  induction hands generalizing fuel name first count data with
  | @stop it none' =>
    obtain ⟨fuel, rfl⟩ : ∃ m, fuel = m + 1 := ⟨fuel - 1, by omega⟩
    rw [resourcesFrom_succ, resourceTable]
    rcases resourceEntry P b packet name first count data with ⟨_ | _, count', data'⟩
    · rcases hn : it.getNext st.tree b with ⟨text, it'⟩
      rw [hn] at none'
      obtain rfl := none'
      rfl
    · rfl
  | @name it rest some' _ ih =>
    obtain ⟨fuel, rfl⟩ : ∃ m, fuel = m + 1 := ⟨fuel - 1, by omega⟩
    rw [List.length_cons] at enough
    rw [resourcesFrom_succ, resourceTable]
    rcases resourceEntry P b packet name first count data with ⟨_ | _, count', data'⟩
    · have further := @ih fuel (by omega) (it.getNext st.tree b).1 false count' data'
      rcases hn : it.getNext st.tree b with ⟨text, it'⟩
      rw [hn] at further some'
      cases text with
      | nil => exact absurd rfl some'
      | cons c text => exact further
    · rfl

/-! ### Where the table is cut -/

def entryText (first : Bool) (name : Text) : Text :=
  (if first then chars [' ', '"'] else chars [',', '"']) ++ name ++ chars ['"']

/-- A name as it comes out behind so many characters of a block: with its last character twice
when its closing quote is the first character of the next block. -/
def spelled (b used : Nat) (name : Text) : Text :=
  if used + name.length + 3 = b then name ++ name.getLast?.toList else name

theorem spelled_eq (b used : Nat) (name : Text) : spelled b used name =
    name ++ if used + name.length + 3 = b then name.getLast?.toList else [] := by
  rw [spelled]
  split
  · rfl
  · exact (List.append_nil name).symm

section Entry
variable {packet count : Int} {name data : Text} {first : Bool}

theorem length_entryText (first : Bool) (name : Text) :
    (entryText first name).length = name.length + 3 := by
  cases first <;> simp [entryText, chars]

theorem resourceEntry_fits (fits : data.length + name.length + 4 ≤ b) :
    resourceEntry P b packet name first count data =
      (decide (data.length + name.length + 4 = b ∧ count = packet), count,
        data ++ entryText first name) := by
  have same : nameInBlock P b name = name := if_neg (by omega)
  have room : (b - data.length - name.length - 2 : Int) > 0 := by omega
  have quote : closing (b - data.length - name.length - 2) = chars ['"'] := if_pos room
  have all : snprintf b (data ++ (if first then chars [' ', '"'] else chars [',', '"']) ++ name ++
      chars ['"']) = data ++ entryText first name := by
    rw [snprintf, entryText, List.append_assoc, List.append_assoc, List.append_assoc]
    refine List.take_of_length_le ?_
    have := length_entryText first name
    rw [entryText, List.append_assoc] at this
    rw [List.length_append, this]
    omega
  rw [resourceEntry]
  simp only [same, quote, all, if_pos room, List.length_append, length_entryText]
  by_cases full : data.length + (name.length + 3) + 1 = b ∧ count = packet
  · rw [if_pos full, decide_eq_true (by omega)]
  · have open' : ¬((b - data.length - name.length - 2 : Int) - 1 ≤ 0 ∧ count < packet) := by omega
    rw [if_neg full, if_neg open', decide_eq_false (by omega)]

theorem drop_entryText (name : Text) {i : Nat} (h : first = true → 0 < i) :
    (chars [',', '"'] ++ name ++ chars ['"']).drop i = (entryText first name).drop i := by
  cases first with
  | false => rfl
  | true =>
    obtain ⟨i, rfl⟩ : ∃ k, i = k + 1 := ⟨i - 1, by have := h rfl; omega⟩
    rfl

theorem drop_spelled {name : Text} (some' : name ≠ []) :
    (chars [',', '"'] ++ name ++ chars ['"']).drop (name.length + 1) =
      name.getLast?.toList ++ chars ['"'] := by
  obtain ⟨front, last, rfl⟩ := (List.eq_nil_or_concat' name).resolve_left some'
  have split : chars [',', '"'] ++ (front ++ [last]) ++ chars ['"'] =
      (chars [',', '"'] ++ front) ++ ([last] ++ chars ['"']) := by simp
  rw [split, List.drop_left' (by simp [chars])]
  simp

theorem resourceEntry_cut (short : name.length + 4 ≤ b) (some' : name ≠ [])
    (before : data.length < b) (begun : first = true → data.length + 1 < b)
    (long : b < data.length + name.length + 4) (skipped : count ≤ packet) :
    let text := data ++ entryText first (spelled b data.length name)
    resourceEntry P b packet name first count data =
      if count = packet then (true, count, text.take (b - 1))
      else (false, count + 1, text.drop (b - 1)) := by
  intro text
  have same : nameInBlock P b name = name := if_neg (by omega)
  have room : ¬(b - data.length - name.length - 2 : Int) > 1 := by omega
  have sep : (if first then chars [' ', '"'] else chars [',', '"'] : Text).length = 2 := by
    cases first <;> rfl
  have front : ∀ behind, snprintf b (data ++ (if first then chars [' ', '"']
      else chars [',', '"']) ++ name ++ behind) = text.take (b - 1) := by
    have long' : b - 1 ≤ (data ++ (if first then chars [' ', '"'] else chars [',', '"']) ++
        name).length := by
      rw [List.length_append, List.length_append, sep]
      omega
    intro behind
    have spelled' : text = (data ++ (if first then chars [' ', '"'] else chars [',', '"']) ++
        name) ++ ((if data.length + name.length + 3 = b then name.getLast?.toList else []) ++
          chars ['"']) := by
      simp only [text, entryText, spelled_eq, List.append_assoc]
    rw [snprintf, spelled', List.take_append_of_le_length long', List.take_append_of_le_length long']
  have size : (text.take (b - 1)).length + 1 = b := by
    have longer : name.length ≤ (spelled b data.length name).length := by
      rw [spelled_eq, List.length_append]
      exact Nat.le_add_right _ _
    rw [List.length_take, List.length_append, length_entryText]
    omega
  have buff : snprintf b (chars [',', '"'] ++ name ++ chars ['"']) =
      chars [',', '"'] ++ name ++ chars ['"'] := by
    refine List.take_of_length_le ?_
    simp only [chars, List.length_append, List.length_map, List.length_cons, List.length_nil]
    omega
  have buffLength : (chars [',', '"'] ++ name ++ chars ['"']).length = name.length + 3 := by
    simp [chars]
  -- where the rest of the entry starts in `buff`
  have rest : ∀ offset : Int, offset ≤ 1 → b - data.length - name.length - 2 = offset →
      snprintf b (fromIndex P (chars [',', '"'] ++ name ++ chars ['"'])
        ((chars [',', '"'] ++ name ++ chars ['"']).length +
          (if offset > 0 then offset - 1 else offset) - 2)) = text.drop (b - 1) := by
    intro offset le ho
    have index : ((chars [',', '"'] ++ name ++ chars ['"']).length +
        (if offset > 0 then offset - 1 else offset) - 2 : Int) =
        ((if data.length + name.length + 3 = b then name.length + 1 else b - 1 - data.length :
          Nat) : Int) := by
      rw [buffLength]
      split_ifs <;> omega
    rw [index, fromIndex, if_pos (Int.natCast_nonneg _), Int.toNat_natCast]
    have whole : ∀ i, snprintf b ((chars [',', '"'] ++ name ++ chars ['"']).drop i) =
        (chars [',', '"'] ++ name ++ chars ['"']).drop i := fun i => by
      refine List.take_of_length_le ?_
      rw [List.length_drop, buffLength]
      omega
    rw [whole]
    simp only [text, spelled_eq]
    split_ifs with twice
    · have split : data ++ entryText first (name ++ name.getLast?.toList) =
          (data ++ (if first then chars [' ', '"'] else chars [',', '"']) ++ name) ++
            (name.getLast?.toList ++ chars ['"']) := by
        simp only [entryText, List.append_assoc]
      rw [drop_spelled some', split, List.drop_left']
      rw [List.length_append, List.length_append, sep]
      omega
    · have behind : (data ++ entryText first name).drop (b - 1) =
          (entryText first name).drop (b - 1 - data.length) := by
        rw [List.drop_append, List.drop_of_length_le (by omega), List.nil_append]
      rw [List.append_nil, behind]
      exact drop_entryText name fun h => by have := begun h; omega
  rw [resourceEntry]
  simp only [same, front, size, buff]
  by_cases here : count = packet
  · rw [if_pos ⟨trivial, here⟩, if_pos here]
  · rw [if_neg (fun h => here h.2), if_neg here, rest _ (by omega) rfl, if_pos]
    exact ⟨by split <;> omega, by omega⟩

end Entry

def tableText : Bool → List Text → Text
  | _, [] => []
  | first, name :: rest => entryText first name ++ tableText false rest

def entryEnds : Nat → List Text → List Nat
  | _, [] => []
  | position, name :: rest =>
    (position + name.length + 3) :: entryEnds (position + name.length + 3) rest

/-- The characters with which the next block begins when an entry is cut behind so many of this
one. They come from a copy that is cut itself, and from the memory in front of it when there
are more of them. -/
def cutRest (P : Platform) (N used : Nat) (name : Text) : Nat :=
  let behind := used + (nameInBlock P (N + 1) name).length + 3
  let copy := snprintf (N + 1) (chars [',', '"'] ++ nameInBlock P (N + 1) name ++ chars ['"'])
  if behind = N + 1 then 2
  else if behind ≤ N + copy.length then behind - N
  else (snprintf (N + 1) (fromIndex P copy (copy.length + N - behind))).length

def filled (P : Platform) (N : Nat) : Nat → List Text → Nat
  | used, [] => used
  | used, name :: rest =>
    let behind := used + (nameInBlock P (N + 1) name).length + 3
    filled P N (if behind ≤ N then behind else cutRest P N used name) rest

theorem nameInBlock_short {name : Text} (short : name.length < b) : nameInBlock P b name = name :=
  if_neg (Nat.ne_of_lt short)

theorem cutRest_short {N used : Nat} {name : Text} (short : name.length + 3 ≤ N) (room : used ≤ N) :
    cutRest P N used name = if used + name.length + 3 = N + 1 then 2 else used + name.length + 3 - N := by
  have copy : (snprintf (N + 1) (chars [',', '"'] ++ name ++ chars ['"'])).length =
      name.length + 3 := by
    rw [snprintf, List.length_take]
    simp [chars]
    omega
  rw [cutRest]
  simp only [nameInBlock_short (P := P) (by omega : name.length < N + 1), copy]
  split_ifs <;> omega

def Respelled : List Text → List Text → Prop :=
  List.Forall₂ fun name raw => raw = name ∨ raw = name ++ name.getLast?.toList

/-- What the blocks of the table hold: the entries of respelled names and the bracket, cut into
pieces. Behind the last piece it comes again. -/
structure Tabled (P : Platform) (N : Nat) (position : Nat) (names : List Text) (first : Bool)
    (data : Text) (raws : List Text) (cuts : Nat) : Prop where
  respelled : Respelled names raws
  same : raws = names ↔ ∀ e ∈ entryEnds position names, e % N ≠ 1
  some : cuts * N < (data ++ tableText first raws).length
  within : (data ++ tableText first raws).length ≤ cuts * N + N
  fill : (data ++ tableText first raws).length = cuts * N + filled P N data.length names
  block : ∀ (count : Int) (j : Nat), resourceTable P (N + 1) (count + j) names first count data =
    ((data ++ tableText first raws ++ chars [']']).drop (min j cuts * N)).take N

variable {N position : Nat} {names : List Text} {first : Bool} {data name : Text}

theorem Tabled.fits {raws : List Text} {cuts : Nat} (some' : 0 < data.length)
    (full : data.length + name.length + 3 ≤ N) (aligned : position % N = data.length % N)
    (t : Tabled P N (position + name.length + 3) names false (data ++ entryText first name) raws
      cuts) : Tabled P N position (name :: names) first data (name :: raws) cuts := by
  have body : data ++ tableText first (name :: raws) =
      data ++ entryText first name ++ tableText false raws := by
    rw [tableText, List.append_assoc]
  have behind : (position + name.length + 3) % N ≠ 1 := by
    rw [Nat.add_assoc, Nat.add_mod, aligned, ← Nat.add_mod, ← Nat.add_assoc]
    rcases Nat.lt_or_eq_of_le full with inside | last
    · rw [Nat.mod_eq_of_lt inside]
      omega
    · rw [last, Nat.mod_self]
      omega
  have size : (data ++ entryText first name).length = data.length + name.length + 3 := by
    rw [List.length_append, length_entryText, Nat.add_assoc]
  refine ⟨.cons (.inl rfl) t.respelled, ?_, body ▸ t.some, body ▸ t.within, ?_, fun count j => ?_⟩
  · rw [List.cons.injEq, entryEnds, List.forall_mem_cons, ← t.same]
    simp [behind]
  · rw [body, t.fill, size, filled]
    simp only [nameInBlock_short (P := P) (by omega : name.length < N + 1), if_pos full]
  · rw [resourceTable, resourceEntry_fits (by omega), body]
    by_cases sent : data.length + name.length + 4 = N + 1 ∧ count = count + j
    · obtain rfl : j = 0 := by omega
      rw [decide_eq_true sent, Nat.zero_min, Nat.zero_mul, List.drop_zero,
        List.append_assoc _ _ (chars [']']), List.take_left' (by omega)]
    · rw [decide_eq_false sent]
      exact t.block count j

theorem Tabled.cut {raws : List Text} {cuts next : Nat} (two : 2 ≤ N) (named : name ≠ [])
    (fits : name.length + 3 ≤ N) (room : data.length ≤ N)
    (begun : first = true → data.length < N) (over' : N < data.length + name.length + 3)
    (aligned : position % N = data.length % N)
    (onward : data.length + name.length + 3 ≠ N + 1 → next = position + name.length + 3)
    (t : Tabled P N next names false
      ((data ++ entryText first (spelled (N + 1) data.length name)).drop N) raws cuts) :
    Tabled P N position (name :: names) first data (spelled (N + 1) data.length name :: raws)
      (cuts + 1) := by
  generalize hraw : spelled (N + 1) data.length name = raw at t
  have spelling := spelled_eq (N + 1) data.length name
  rw [hraw] at spelling
  generalize htext : data ++ entryText first raw = text at t
  have long : N ≤ text.length := by
    rw [← htext, spelling, List.length_append, length_entryText, List.length_append]
    omega
  have body : data ++ tableText first (raw :: raws) = text ++ tableText false raws := by
    rw [tableText, ← htext, List.append_assoc]
  have size : (text ++ tableText false raws).length =
      N + (text.drop N ++ tableText false raws).length := by
    simp only [List.length_append, List.length_drop]
    omega
  have behind : (position + name.length + 3) % N =
      if data.length + name.length + 3 = N + 1 then 1
      else (data.length + name.length + 3) % N := by
    rw [Nat.add_assoc, Nat.add_mod, aligned, ← Nat.add_mod, ← Nat.add_assoc]
    split_ifs with twice
    · rw [twice, Nat.add_mod_left, Nat.mod_eq_of_lt (by omega)]
    · rfl
  have left : (text.drop N).length = if data.length + name.length + 3 = N + 1 then 2
      else data.length + name.length + 3 - N := by
    rw [← htext, spelling, List.length_drop, List.length_append, length_entryText]
    split
    · rw [List.getLast?_eq_some_getLast named, List.length_append, Option.toList_some,
        List.length_singleton]
      omega
    · rw [List.append_nil]
      omega
  refine ⟨.cons ?_ t.respelled, ?_, ?_, ?_, ?_, fun count j => ?_⟩
  · rw [spelling]
    split
    · exact .inr rfl
    · exact .inl (List.append_nil name)
  · rw [List.cons.injEq, entryEnds, List.forall_mem_cons, behind]
    by_cases twice : data.length + name.length + 3 = N + 1
    · rw [if_pos twice]
      rw [if_pos twice, List.getLast?_eq_some_getLast named] at spelling
      have longer : raw ≠ name := fun e => by
        have := congrArg List.length (e.symm.trans spelling)
        simp at this
      exact iff_of_false (fun h => longer h.1) fun h => h.1 rfl
    · rw [if_neg twice, ← onward twice, ← t.same]
      rw [if_neg twice, List.append_nil] at spelling
      have away : (data.length + name.length + 3) % N ≠ 1 := by
        rw [Nat.mod_eq_sub_mod (by omega)]
        rcases Nat.lt_or_eq_of_le (by omega : data.length + name.length + 3 - N ≤ N) with
          inside | last
        · rw [Nat.mod_eq_of_lt inside]
          omega
        · rw [last, Nat.mod_self]
          omega
      simp [spelling, away]
  · have := t.some
    rw [body, size, Nat.succ_mul]
    omega
  · have := t.within
    rw [body, size, Nat.succ_mul]
    omega
  · rw [body, size, t.fill, left, filled, Nat.succ_mul]
    simp only [nameInBlock_short (P := P) (by omega : name.length < N + 1),
      if_neg (Nat.not_le.mpr over'), cutRest_short fits room]
    omega
  · have entry := @resourceEntry_cut P (N + 1) (count + j) count name data first (by omega) named
      (by omega) (fun h => by have := begun h; omega) (by omega) (by omega)
    simp only [hraw, htext, Nat.add_sub_cancel] at entry
    rw [resourceTable, entry, body]
    cases j with
    | zero =>
      rw [if_pos (by simp)]
      simp only [Nat.zero_min, Nat.zero_mul, List.drop_zero, List.append_assoc]
      rw [List.take_append_of_le_length long]
    | succ j =>
      have later : count + ((j + 1 : Nat) : Int) = count + 1 + j := by push_cast; omega
      rw [if_neg (by omega), later]
      simp only [t.block (count + 1) j, Nat.add_min_add_right, Nat.succ_mul]
      rw [Nat.add_comm _ N, ← List.drop_drop, List.append_assoc text,
        List.drop_append_of_le_length long, List.append_assoc]

theorem resourceTable_tabled (two : 2 ≤ N) (short : ∀ n ∈ names, n ≠ [] ∧ n.length + 3 ≤ N)
    (some' : 0 < data.length) (room : data.length ≤ N) (begun : first = true → data.length < N)
    (aligned : position % N = data.length % N) :
    ∃ raws cuts, Tabled P N position names first data raws cuts := by
  induction names generalizing first data position with
  | nil =>
    refine ⟨[], 0, .nil, by simp [entryEnds], ?_, ?_, ?_, fun count j => ?_⟩
    · simpa [tableText]
    · simpa [tableText]
    · simp [tableText, filled]
    · simp [resourceTable, tableText, snprintf]
  | cons name rest ih =>
    obtain ⟨⟨named, fits⟩, others⟩ := List.forall_mem_cons.mp short
    by_cases full : data.length + name.length + 3 ≤ N
    · have size : (data ++ entryText first name).length = data.length + (name.length + 3) := by
        rw [List.length_append, length_entryText]
      obtain ⟨raws, cuts, t⟩ := @ih (position + name.length + 3) false
        (data ++ entryText first name) others (by omega) (by omega) nofun
        (by rw [size, Nat.add_assoc, Nat.add_mod, aligned, ← Nat.add_mod])
      exact ⟨_, _, t.fits some' full aligned⟩
    · generalize hdata : (data ++ entryText first (spelled (N + 1) data.length name)).drop N = data'
      have size : data'.length = if data.length + name.length + 3 = N + 1 then 2
          else data.length + name.length + 3 - N := by
        rw [← hdata, List.length_drop, List.length_append, length_entryText, spelled_eq]
        split
        · rw [List.getLast?_eq_some_getLast named]
          simp only [List.length_append, Option.toList_some, List.length_singleton]
          omega
        · rw [List.append_nil]
          omega
      obtain ⟨raws, cuts, t⟩ := @ih
        (if data.length + name.length + 3 = N + 1 then data'.length
          else position + name.length + 3) false data' others (by rw [size]; split <;> omega)
        (by rw [size]; split <;> omega) nofun (by
          split
          · rfl
          · rename_i once
            rw [size, if_neg once, ← Nat.mod_eq_sub_mod (by omega), Nat.add_assoc, Nat.add_mod,
              aligned, ← Nat.add_mod, Nat.add_assoc])
      rw [← hdata] at t
      exact ⟨_, _, t.cut two named fits room begun (by omega) aligned fun once => if_neg once⟩

/-! ### The text of the table -/

theorem tableText_quoted (names : List Text) :
    tableText false names = names.flatMap fun n => comma :: quoted n := by
  induction names with
  | nil => rfl
  | cons name rest ih =>
    rw [tableText, ih, List.flatMap_cons]
    rfl

theorem read_table {names : List Text} (some' : names ≠ [])
    (plain : ∀ n ∈ names, ∀ c ∈ n, JsonStrings.Plain c) :
    JsonStrings.read (chars ['['] ++ tableText true names ++ chars [']']) = some names := by
  cases names with
  | nil => exact absurd rfl some'
  | cons name rest =>
    have text : chars ['['] ++ tableText true (name :: rest) ++ chars [']'] =
        JsonStrings.opening :: 0x20 :: (quoted name ++ rest.flatMap (fun n => comma :: quoted n) ++
          [JsonStrings.closing]) := by
      rw [tableText, tableText_quoted]
      simp [entryText, chars, quoted, JsonStrings.opening, JsonStrings.closing,
        JsonStrings.quote]
      rfl
    rw [text, JsonStrings.read_quoted plain]

theorem Respelled.plain {raws : List Text} (h : Respelled names raws)
    (plain : ∀ n ∈ names, ∀ c ∈ n, JsonStrings.Plain c) :
    ∀ n ∈ raws, ∀ c ∈ n, JsonStrings.Plain c := by
  induction h with
  | nil => exact plain
  | @cons name raw names raws spelling _ ih =>
    obtain ⟨first, others⟩ := List.forall_mem_cons.mp plain
    refine List.forall_mem_cons.mpr ⟨fun c hc => ?_, ih others⟩
    rcases spelling with rfl | rfl
    · exact first c hc
    · rcases List.mem_append.mp hc with inside | last
      · exact first c inside
      · exact first c (List.mem_of_getLast? (Option.mem_toList.mp last))

theorem Respelled.eq_of_perm {raws : List Text} (h : Respelled names raws)
    (named : ∀ n ∈ names, n ≠ []) (perm : raws.Perm names) : raws = names := by
  have total := (perm.map List.length).sum_nat
  clear perm
  have longer : ∀ {names raws : List Text}, Respelled names raws →
      (names.map List.length).sum ≤ (raws.map List.length).sum := by
    intro names raws h
    induction h with
    | nil => exact Nat.le_refl 0
    | @cons name raw names raws spelling _ ih =>
      have : name.length ≤ raw.length := by
        rcases spelling with rfl | rfl
        · exact Nat.le_refl _
        · rw [List.length_append]
          exact Nat.le_add_right _ _
      simp only [List.map_cons, List.sum_cons]
      omega
  induction h with
  | nil => rfl
  | @cons name raw names raws spelling rest ih =>
    obtain ⟨first, others⟩ := List.forall_mem_cons.mp named
    have left := longer rest
    simp only [List.map_cons, List.sum_cons] at total
    rcases spelling with rfl | rfl
    · rw [ih others (by omega)]
    · rw [List.getLast?_eq_some_getLast first, List.length_append, Option.toList_some,
        List.length_singleton] at total
      omega

def tableEnd (names : List Text) : Nat := 1 + (names.map (·.length + 3)).sum

theorem length_tableText (first : Bool) (names : List Text) :
    (tableText first names).length = (names.map (·.length + 3)).sum := by
  induction names generalizing first with
  | nil => rfl
  | cons name rest ih =>
    rw [tableText, List.length_append, length_entryText, ih, List.map_cons, List.sum_cons]

/-! ### Transfers -/

def systemResources : Text :=
  chars ['S', '/', 'r', 'e', 's', 'o', 'u', 'r', 'c', 'e', 's']

/-- What the reads of `S/resources` give. Whatever the reader has done in between, the names
are enumerated anew. -/
def resourcesPayload (P : Platform) (st : Store) (env : Env) (blockSize : Nat)
    (readers : Nat → Reader) (blockIndex : Nat) : Option Text :=
  let result :=
    (st.rootSystemRead P env systemResources blockSize blockIndex (readers blockIndex)).2
  some (result.bytes.take result.returned.toNat)

/-- A transfer of the table ends, and is an array of the names without the terminators. -/
def Lists (P : Platform) (st : Store) (env : Env) (blockSize : Nat) (readers : Nat → Reader)
    (names : List Text) : Prop :=
  ∃ blocks, BlockReads (st.resourcesPayload P env blockSize readers) blockSize 0 blocks ∧
    ∃ values, JsonStrings.read (blocks.map List.dropLast).flatten = some values ∧
      values.Perm names

theorem rootSystemRead_resources (env : Env) (b : Nat) (blockIndex : Int) (r : Reader) :
    (st.rootSystemRead P env systemResources b blockIndex r).2 =
      (st.resourcesFrom P b (Int.tdiv blockIndex b) maxNames
        ((r.iter.begin st.tree .agent).getNext st.tree b).1
        ((r.iter.begin st.tree .agent).getNext st.tree b).2 true 0 (snprintf b (chars ['[']))).2 := by
  have name : emmaGetName systemResources =
      chars ['r', 'e', 's', 'o', 'u', 'r', 'c', 'e', 's'] := by decide
  rw [rootSystemRead, name]
  rw [if_neg (by decide), if_neg (by decide), if_neg (by decide), if_neg (by decide),
    if_neg (by decide), if_pos (by decide)]
  rfl

theorem resourcesPayload_table (env : Env) (readers : Nat → Reader) (k : Nat)
    (hands : ∀ it : Iter, Iter.Hands st.tree (N + 1) (it.begin st.tree .agent) names)
    (some' : names ≠ []) (few : names.length ≤ maxNames) (positive : 0 < N) :
    st.resourcesPayload P env (N + 1) readers (k * (N + 1)) =
      some (resourceTable P (N + 1) k names true 0 (chars ['[']) ++ [0]) := by
  have packet : Int.tdiv ((k * (N + 1) : Nat) : Int) ((N + 1 : Nat) : Int) = k := by
    rw [Int.natCast_mul]
    exact Int.mul_tdiv_cancel _ (by omega)
  have opening : snprintf (N + 1) (chars ['[']) = chars ['['] :=
    List.take_of_length_le (by simp only [chars, List.length_map, List.length_singleton]; omega)
  rw [resourcesPayload, rootSystemRead_resources, packet, opening]
  have walk := hands (readers (k * (N + 1))).iter
  cases walk with
  | stop => exact absurd rfl some'
  | name _ rest =>
    rw [List.length_cons] at few
    simp only [resourcesFrom_table (P := P) k rest few]
    have size (block : Text) : ((block.length : Int) + 1).toNat = (block ++ [0]).length := by
      rw [List.length_append, List.length_singleton]
      omega
    rw [size, List.take_length]

theorem not_full_iff {cuts e : Nat} (some' : cuts * N < e) (within : e ≤ cuts * N + N) :
    e + 1 < cuts * N + N ↔ e % N ≠ 0 ∧ (e + 1) % N ≠ 0 := by
  obtain ⟨r, rfl⟩ : ∃ r, e = cuts * N + r := ⟨e - cuts * N, by omega⟩
  rw [Nat.add_assoc, Nat.mul_comm cuts, Nat.mul_add_mod, Nat.mul_add_mod]
  constructor
  · intro short
    rw [Nat.mod_eq_of_lt (by omega), Nat.mod_eq_of_lt (by omega)]
    omega
  · rintro ⟨last, behind⟩
    have other : r ≠ N := by
      rintro rfl
      exact last (Nat.mod_self r)
    have other' : r + 1 ≠ N := by
      rintro rfl
      exact behind (Nat.mod_self _)
    omega

theorem resourcesPayload_tabled (env : Env) (readers : Nat → Reader) (two : 2 ≤ N)
    (hands : ∀ it : Iter, Iter.Hands st.tree (N + 1) (it.begin st.tree .agent) names)
    (some' : names ≠ []) (few : names.length ≤ maxNames)
    (fits : ∀ n ∈ names, n ≠ [] ∧ n.length + 3 ≤ N) :
    ∃ raws cuts, Tabled P N 1 names true (chars ['[']) raws cuts ∧
      ∀ k, st.resourcesPayload P env (N + 1) readers (k * (N + 1)) = some
        (((chars ['['] ++ tableText true raws ++ chars [']']).drop (min k cuts * N)).take N ++
          [0]) := by
  obtain ⟨raws, cuts, t⟩ := @resourceTable_tabled P N 1 names true (chars ['[']) two fits
    (by simp [chars]) (by simp [chars]; omega) (fun _ => by simp [chars]; omega) rfl
  refine ⟨raws, cuts, t, fun k => ?_⟩
  rw [resourcesPayload_table env readers k hands some' few (by omega)]
  have block := t.block 0 k
  rw [Int.zero_add] at block
  rw [block]

theorem transfer_ends {read : Nat → Option Text} {content : Text} {cuts : Nat}
    (reads : ∀ k, read (k * (N + 1)) =
      some ((content.drop (min k cuts * N)).take N ++ [0]))
    (inside : cuts * N ≤ content.length) (blocks : List Text) :
    BlockReads read (N + 1) 0 blocks →
      content.length < cuts * N + N ∧ (blocks.map List.dropLast).flatten = content := by
  intro transfer
  have short : content.length < cuts * N + N := by
    by_contra long
    have full : ∀ k block, read (k * (N + 1)) = some block → block.length = N + 1 := by
      intro k block h
      rw [reads k] at h
      have : min k cuts * N ≤ cuts * N := Nat.mul_le_mul_right N (Nat.min_le_right k cuts)
      rw [← Option.some.inj h, List.length_append, List.length_take, List.length_drop,
        List.length_singleton]
      omega
    refine BlockReads.endless (k := 0) full (?_ : BlockReads read (N + 1) _ blocks)
    rwa [Nat.zero_mul]
  obtain ⟨blocks', transfer', joined⟩ := BlockReads.of_pieces reads inside short
  exact ⟨short, transfer.unique transfer' ▸ joined⟩

theorem resources_end_iff (env : Env) (readers : Nat → Reader) (two : 2 ≤ N)
    (hands : ∀ it : Iter, Iter.Hands st.tree (N + 1) (it.begin st.tree .agent) names)
    (some' : names ≠ []) (few : names.length ≤ maxNames)
    (fits : ∀ n ∈ names, n ≠ [] ∧ n.length + 3 ≤ N) :
    (∃ blocks, BlockReads (st.resourcesPayload P env (N + 1) readers) (N + 1) 0 blocks) ↔
      filled P N 1 names + 1 < N := by
  obtain ⟨raws, cuts, t, reads⟩ := resourcesPayload_tabled (P := P) env readers two hands some'
    few fits
  have fill := t.fill
  have size : (chars ['['] ++ tableText true raws ++ chars [']']).length =
      cuts * N + filled P N 1 names + 1 := by
    rw [List.length_append, fill]
    rfl
  constructor
  · rintro ⟨blocks, transfer⟩
    have := (transfer_ends reads (by omega) blocks transfer).1
    omega
  · intro room
    obtain ⟨blocks, transfer, -⟩ := BlockReads.of_pieces reads (by omega) (by omega)
    exact ⟨blocks, transfer⟩

theorem lists_iff (env : Env) (readers : Nat → Reader) (two : 2 ≤ N)
    (hands : ∀ it : Iter, Iter.Hands st.tree (N + 1) (it.begin st.tree .agent) names)
    (some' : names ≠ []) (few : names.length ≤ maxNames)
    (fits : ∀ n ∈ names, n ≠ [] ∧ n.length + 3 ≤ N)
    (plain : ∀ n ∈ names, ∀ c ∈ n, JsonStrings.Plain c) :
    st.Lists P env (N + 1) readers names ↔ (∀ e ∈ entryEnds 1 names, e % N ≠ 1) ∧
      tableEnd names % N ≠ 0 ∧ (tableEnd names + 1) % N ≠ 0 := by
  obtain ⟨raws, cuts, t, reads⟩ := resourcesPayload_tabled (P := P) env readers two hands some'
    few fits
  have some := t.some
  have within := t.within
  generalize hZ : chars ['['] ++ tableText true raws ++ chars [']'] = content at reads
  have size : content.length = (chars ['['] ++ tableText true raws).length + 1 := by
    rw [← hZ, List.length_append]
    rfl
  have parsed : JsonStrings.read content = Option.some raws := by
    rw [← hZ]
    refine read_table ?_ (t.respelled.plain plain)
    rintro rfl
    cases t.respelled
    exact some' rfl
  have lists : st.Lists P env (N + 1) readers names ↔
      content.length < cuts * N + N ∧ raws = names := by
    constructor
    · rintro ⟨blocks, transfer, values, array, perm⟩
      obtain ⟨short, joined⟩ := transfer_ends reads (by omega) blocks transfer
      rw [joined, parsed] at array
      obtain rfl := Option.some.inj array
      exact ⟨short, t.respelled.eq_of_perm (fun n hn => (fits n hn).1) perm⟩
    · rintro ⟨short, same⟩
      obtain ⟨blocks, transfer, joined⟩ := BlockReads.of_pieces reads (by omega) short
      exact ⟨blocks, transfer, raws, by rw [joined, parsed], same ▸ .refl raws⟩
  rw [lists, ← t.same, and_comm]
  refine and_congr_right fun same => ?_
  have length : content.length = tableEnd names + 1 := by
    rw [size, List.length_append, length_tableText, same]
    rfl
  have ends : (chars ['['] ++ tableText true raws).length = tableEnd names := by omega
  rw [length, ← not_full_iff (ends ▸ some) (ends ▸ within)]

variable {f : Root → Forest Nat}

theorem Reached.resources_listed_iff (h : st.Reached P) (env : Env)
    (range : 32 < b ∧ b ≤ 64) : ∃ order : Root → List Nat,
      (∀ r, st.tree.Postorder r (order r)) ∧ ∀ readers : Nat → Reader,
      let names := (Root.visits order Root.all).map st.tree.fullPath
      (∀ n ∈ names, n.length + 4 ≤ b ∧ ∀ c ∈ n, JsonStrings.Plain c) →
        (st.Lists P env b readers names ↔ (∀ e ∈ entryEnds 1 names, e % (b - 1) ≠ 1) ∧
          tableEnd names % (b - 1) ≠ 0 ∧ (tableEnd names + 1) % (b - 1) ≠ 0) := by
  obtain ⟨f, so⟩ := h.sound
  refine ⟨fun r => (f r).walk, so.postorder, fun readers => ?_⟩
  intro names good
  obtain ⟨N, rfl⟩ : ∃ N, b = N + 1 := ⟨b - 1, by omega⟩
  rw [Nat.add_sub_cancel]
  refine lists_iff env readers (by omega) (fun it => ?_) ?_ ?_ (fun n hn => ?_)
    (fun n hn => (good n hn).2)
  · have walk := so.hands it .agent (N + 1)
    rwa [List.takeWhile_eq_self_iff.mpr fun n hn => by
      have := (good n hn).1
      simp only [decide_eq_true_eq]
      omega] at walk
  · simp [names, Root.visits, Root.all]
  · rw [List.length_map]
    exact Nat.le_of_lt (so.shape.visits_le .agent)
  · obtain ⟨v, -, rfl⟩ := List.mem_map.mp hn
    exact ⟨Iter.fullPath_ne v, by have := (good _ hn).1; omega⟩

/-- In two blocks -/
theorem resources_listed_grove : grove.Lists .plain .bare 36 (fun _ => ⟨.init, 0, 0⟩)
    ((Root.visits groveOrder Root.all).map grove.tree.fullPath) := by
  obtain ⟨order, post, listed⟩ :=
    @Reached.resources_listed_iff .plain grove 36 grove_reached .bare (by decide)
  obtain rfl := grove_order post
  exact (listed _ (by decide +kernel)).mpr (by decide +kernel)

def fullTable : Store :=
  (empty fun _ => none).apply .plain
    (.add (some .resource) (List.replicate 14 'a'.toUInt8))

/-- The bracket is cut off, and the last block is sent again and again. -/
theorem resources_endless : ¬ ∀ (P : Platform) (st : Store) (env : Env) (b : Nat), st.Reached P →
    32 < b ∧ b ≤ 64 → ∃ order : Root → List Nat, (∀ r, st.tree.Postorder r (order r)) ∧
      ∀ readers : Nat → Reader,
        st.Lists P env b readers ((Root.visits order Root.all).map st.tree.fullPath) := by
  intro h
  have reached : fullTable.Reached .plain := ⟨_, Runs.tail .refl trivial rfl⟩
  obtain ⟨order, -, lists⟩ := h .plain fullTable .bare 33 reached (by decide)
  obtain ⟨blocks, transfer, -⟩ := lists fun _ => ⟨.init, 0, 0⟩
  obtain ⟨f, so⟩ := reached.sound
  have walk := fun it => so.hands it .agent 33
  have few := so.shape.visits_le .agent
  generalize hnames : ((Root.visits (fun r => (f r).walk) (Root.all.drop Root.agent.index)).map
    fullTable.tree.fullPath).takeWhile (·.length ≤ 33) = names at walk
  have few' : names.length < maxNames := by
    rw [← hnames]
    refine Nat.lt_of_le_of_lt (List.takeWhile_sublist _).length_le ?_
    rwa [List.length_map]
  have all : names = [chars ['A'], chars ['L', '/'] ++ List.replicate 14 'a'.toUInt8,
      chars ['L'], chars ['S']] :=
    ((walk .init).texts_eq few').symm.trans (by decide +kernel)
  have ended := (resources_end_iff (N := 32) (P := .plain) .bare (fun _ => ⟨.init, 0, 0⟩)
    (by decide) walk (by rw [all]; decide) (Nat.le_of_lt few')
    (by rw [all]; decide)).mp ⟨blocks, transfer⟩
  rw [all] at ended
  exact absurd ended (by decide)

end Store
end EmmaNode

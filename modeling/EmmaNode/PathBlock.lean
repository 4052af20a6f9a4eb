import EmmaNode.Enumeration

/-! `print_full_path` in its block. The path is put together from its end, each name in front of
what is there, and is moved to the start of the block when it is complete. -/

namespace EmmaNode

def copyInto (block : Text) (offset : Int) (bytes : Text) : Option Text :=
  if 0 ≤ offset ∧ offset + bytes.length ≤ block.length then
    some (block.take offset.toNat ++ bytes ++ block.drop (offset.toNat + bytes.length))
  else none

structure PathBlock where
  block : Text
  blockSize : UInt16
  nbBytesWritten : UInt16

namespace PathBlock

def push (b : PathBlock) (name : Text) : Option (PathBlock × Bool) :=
  let resourceNameLen := UInt16.ofNat name.length
  if resourceNameLen.toNat + 1 ≤ b.blockSize.toNat then
    let offset : Int := b.blockSize.toNat - resourceNameLen.toNat
    let blockSize := b.blockSize - (resourceNameLen + 1)
    (copyInto b.block offset (name.take resourceNameLen.toNat)).bind fun block =>
      (copyInto block blockSize.toNat [slash]).map fun block =>
        (⟨block, blockSize, b.nbBytesWritten + (resourceNameLen + 1)⟩, true)
  else some (b, false)

def pushRoot (b : PathBlock) (name : Text) : Option (PathBlock × Bool) :=
  let resourceNameLen := UInt16.ofNat name.length
  if resourceNameLen.toNat ≤ b.blockSize.toNat then
    let offset : Int := b.blockSize.toNat - resourceNameLen.toNat
    (copyInto b.block offset (name.take resourceNameLen.toNat)).map fun block =>
      (⟨block, b.blockSize - resourceNameLen, b.nbBytesWritten + resourceNameLen⟩, true)
  else some (b, false)

def shift (b : PathBlock) : Option Text :=
  if b.blockSize = 0 then some b.block
  else if b.blockSize.toNat + b.nbBytesWritten.toNat ≤ b.block.length then
    copyInto b.block 0 ((b.block.drop b.blockSize.toNat).take b.nbBytesWritten.toNat)
  else none

end PathBlock

namespace Tree
variable (t : Tree)

/-- Print the folders above `i`; none when an access falls outside, or when `fuel` turns do not
lead to the top. -/
def printFolders : Nat → Nat → PathBlock → Option (PathBlock × Bool)
  | 0, _, _ => none
  | fuel + 1, i, b =>
    match (t.links i).prev with
    | none => some (b, true)
    | some p =>
      if (t.links p).subRoot = some i then
        match b.push (t.name p) with
        | some (b, true) => printFolders fuel p b
        | other => other
      else printFolders fuel p b

/-- `print_full_path` with what it leaves in the block -/
def printFullPathInto (fuel : Nat) (root : Root) (resource : Option Nat) (block : Text)
    (blockSize : UInt16) : Option (Text × UInt16) :=
  let start : PathBlock := ⟨block, blockSize, 0⟩
  let printed := match resource with
    | none => some (start, true)
    | some i =>
      match start.push (t.name i) with
      | some (b, true) => t.printFolders fuel i b
      | other => other
  match printed with
  | none => none
  | some (b, false) => some (b.block, 0)
  | some (b, true) =>
    match b.pushRoot root.name with
    | none => none
    | some (b, false) => some (b.block, 0)
    | some (b, true) => b.shift.map (·, b.nbBytesWritten)

end Tree

section
variable {block bytes : Text}

theorem copyInto_some {n : Nat} (room : n + bytes.length ≤ block.length) :
    copyInto block n bytes =
      some (block.take n ++ bytes ++ block.drop (n + bytes.length)) := by
  rw [copyInto, if_pos (by omega), Int.toNat_natCast]

theorem copyInto_front {n : Nat} {last : Text} (room : n + bytes.length ≤ block.length)
    (h : block.drop (n + bytes.length) = last) : ∃ block', copyInto block n bytes = some block' ∧
      block'.length = block.length ∧ block'.drop n = bytes ++ last := by
  refine ⟨_, copyInto_some room, ?_, ?_⟩
  · simp only [List.length_append, List.length_take, List.length_drop]
    omega
  · have front : (block.take n).length = n := List.length_take_of_le (by omega)
    rw [List.append_assoc, List.drop_append_of_le_length (by omega), List.drop_of_length_le
      (by omega), h, List.nil_append]

end

namespace PathBlock

/-- The end of the block holds `printed`, and the rest of it is room. -/
structure Holds (b : PathBlock) (size : Nat) (printed : Text) : Prop where
  length : b.block.length = size
  room : b.blockSize.toNat + printed.length = size
  last : b.block.drop b.blockSize.toNat = printed
  written : b.nbBytesWritten.toNat = printed.length

variable {b : PathBlock} {size : Nat} {printed name : Text}

theorem Holds.print (h : b.Holds size printed) (bytes : Text) (blockSize nbBytesWritten : UInt16)
    (fits : blockSize.toNat + bytes.length = b.blockSize.toNat)
    (more : nbBytesWritten.toNat = b.nbBytesWritten.toNat + bytes.length) :
    ∃ block, copyInto b.block blockSize.toNat bytes = some block ∧
      Holds ⟨block, blockSize, nbBytesWritten⟩ size (bytes ++ printed) := by
  have length := h.length
  have total := h.room
  have written := h.written
  have last := h.last
  rw [← fits] at last
  obtain ⟨block, copied, same, front⟩ := copyInto_front (by omega) last
  refine ⟨block, copied, same.trans length, ?_, front, ?_⟩
  · simp only [List.length_append]
    omega
  · simp only [List.length_append]
    omega

theorem toNat_length (short : name.length < emmaResourceNameSize) :
    (UInt16.ofNat name.length).toNat = name.length :=
  UInt16.toNat_ofNat_of_lt (Nat.lt_trans short (by decide))

theorem toNat_sub_ofNat {r : UInt16} {n : Nat} (h : n ≤ r.toNat) :
    (r - UInt16.ofNat n).toNat = r.toNat - n := by
  have len : (UInt16.ofNat n).toNat = n :=
    UInt16.toNat_ofNat_of_lt (Nat.lt_of_le_of_lt h r.toNat_lt)
  rw [UInt16.toNat_sub_of_le _ _ (UInt16.le_iff_toNat_le.mpr (by rw [len]; exact h)), len]

theorem toNat_add_ofNat {w : UInt16} {n : Nat} (h : w.toNat + n < 2 ^ 16) :
    (w + UInt16.ofNat n).toNat = w.toNat + n := by
  have len : (UInt16.ofNat n).toNat = n :=
    UInt16.toNat_ofNat_of_lt (Nat.lt_of_le_of_lt (Nat.le_add_left ..) h)
  rw [UInt16.toNat_add, len, Nat.mod_eq_of_lt h]

theorem offset_eq {r : UInt16} {n : Nat} (h : n ≤ r.toNat) :
    ((r.toNat : Int) - (n : Int)) = ((r - UInt16.ofNat n).toNat : Int) := by
  rw [toNat_sub_ofNat h]
  omega

theorem Holds.push (h : b.Holds size printed) (word : size < 2 ^ 16)
    (short : name.length < emmaResourceNameSize) :
    ∃ b', b.push name = some (b', decide (name.length + 1 ≤ b.blockSize.toNat)) ∧
      b'.Holds size (if name.length + 1 ≤ b.blockSize.toNat then slash :: name ++ printed
        else printed) := by
  have total := h.room
  have written := h.written
  have next : UInt16.ofNat name.length + 1 = UInt16.ofNat (name.length + 1) :=
    (UInt16.ofNat_add ..).symm
  simp only [PathBlock.push, toNat_length short, next]
  split_ifs with fits
  · have room := toNat_sub_ofNat (Nat.le_of_succ_le fits)
    have sum : (b.nbBytesWritten + UInt16.ofNat name.length).toNat =
        b.nbBytesWritten.toNat + name.length := toNat_add_ofNat (by omega)
    have room' := toNat_sub_ofNat fits
    have sum' : (b.nbBytesWritten + UInt16.ofNat (name.length + 1)).toNat =
        b.nbBytesWritten.toNat + (name.length + 1) := toNat_add_ofNat (by omega)
    -- the name first, then the slash
    obtain ⟨block, copied, holds⟩ := h.print name (b.blockSize - UInt16.ofNat name.length)
      (b.nbBytesWritten + UInt16.ofNat name.length) (by omega) sum
    obtain ⟨block', copied', holds'⟩ := holds.print [slash]
      (b.blockSize - UInt16.ofNat (name.length + 1))
      (b.nbBytesWritten + UInt16.ofNat (name.length + 1))
      (by simp only [List.length_singleton]; omega)
      (by simp only [List.length_singleton]; omega)
    rw [offset_eq (Nat.le_of_succ_le fits), List.take_length, copied, Option.bind_some, copied',
      decide_eq_true fits]
    exact ⟨_, rfl, holds'⟩
  · exact ⟨b, by rw [decide_eq_false fits], h⟩

theorem Holds.pushRoot (h : b.Holds size printed) (word : size < 2 ^ 16)
    (short : name.length < emmaResourceNameSize) :
    ∃ b', b.pushRoot name = some (b', decide (name.length ≤ b.blockSize.toNat)) ∧
      b'.Holds size (if name.length ≤ b.blockSize.toNat then name ++ printed else printed) := by
  have total := h.room
  have written := h.written
  simp only [PathBlock.pushRoot, toNat_length short]
  split_ifs with fits
  · have room := toNat_sub_ofNat fits
    have sum : (b.nbBytesWritten + UInt16.ofNat name.length).toNat =
        b.nbBytesWritten.toNat + name.length := toNat_add_ofNat (by omega)
    obtain ⟨block, copied, holds⟩ := h.print name (b.blockSize - UInt16.ofNat name.length)
      (b.nbBytesWritten + UInt16.ofNat name.length) (by omega) sum
    rw [offset_eq fits, List.take_length, copied, decide_eq_true fits]
    exact ⟨_, rfl, holds⟩
  · exact ⟨b, by rw [decide_eq_false fits], h⟩

theorem Holds.shift (h : b.Holds size printed) :
    ∃ block, b.shift = some block ∧ block.length = size ∧ block.take printed.length = printed := by
  have length := h.length
  have total := h.room
  rw [PathBlock.shift, h.last, h.written, List.take_length]
  split_ifs with full inside
  · refine ⟨b.block, rfl, length, ?_⟩
    have last := h.last
    rw [full] at last
    have whole : b.block = printed := last
    rw [whole, List.take_length]
  · obtain ⟨block, copied, same, front⟩ := @copyInto_front b.block printed 0
      (b.block.drop (0 + printed.length)) (by omega) rfl
    refine ⟨block, copied, same.trans length, ?_⟩
    rw [List.drop_zero] at front
    rw [front, List.take_left]
  · omega

def pushAll : List Text → PathBlock → Option (PathBlock × Bool)
  | [], b => some (b, true)
  | name :: names, b =>
    match b.push name with
    | some (b, true) => pushAll names b
    | other => other

theorem Holds.pushAll (h : b.Holds size printed) (word : size < 2 ^ 16) {names : List Text}
    (short : ∀ name ∈ names, name.length < emmaResourceNameSize) :
    ∃ b' fits, PathBlock.pushAll names b = some (b', fits) ∧
      (fits = true ↔ (names.flatMap (slash :: ·)).length ≤ b.blockSize.toNat) ∧
      (fits = true → b'.Holds size (names.reverse.flatMap (slash :: ·) ++ printed)) ∧
      b'.block.length = size := by
  induction names generalizing b printed with
  | nil => exact ⟨b, true, rfl, by simp, fun _ => h, h.length⟩
  | cons name names ih =>
    rw [List.forall_mem_cons] at short
    obtain ⟨b', pushed, holds⟩ := h.push word short.1
    have total := h.room
    rw [PathBlock.pushAll, pushed]
    by_cases fits : name.length + 1 ≤ b.blockSize.toNat
    · rw [if_pos fits] at holds
      have total' := holds.room
      rw [List.length_append, List.length_cons] at total'
      obtain ⟨b'', more, run, iff, holds', length⟩ := ih holds short.2
      rw [decide_eq_true fits]
      refine ⟨b'', more, run, ?_, fun all => ?_, length⟩
      · rw [iff, List.flatMap_cons, List.length_append, List.length_cons]
        omega
      · rw [List.reverse_cons, List.flatMap_append, List.append_assoc, List.flatMap_singleton]
        exact holds' all
    · rw [decide_eq_false fits]
      refine ⟨b', false, rfl, iff_of_false (by simp) ?_, fun no => ?_, holds.length⟩
      · rw [List.flatMap_cons, List.length_append, List.length_cons]
        omega
      · cases no

end PathBlock

namespace Tree
variable {t : Tree}

theorem Climbs.printFolders {k i j : Nat} {names : List Text} (c : t.Climbs k i names j)
    (top : (t.links j).prev = none) {fuel : Nat} (enough : k < fuel) (b : PathBlock) :
    t.printFolders fuel i b = PathBlock.pushAll names b := by
  induction c generalizing fuel b with
  | stay i =>
    obtain ⟨fuel, rfl⟩ : ∃ m, fuel = m + 1 := ⟨fuel - 1, by omega⟩
    rw [Tree.printFolders]
    simp only [top]
    rfl
  | @folder k i p j names back below _ ih =>
    obtain ⟨fuel, rfl⟩ : ∃ m, fuel = m + 1 := ⟨fuel - 1, by omega⟩
    have later (b : PathBlock) := ih top (Nat.lt_of_succ_lt_succ enough) b
    rw [Tree.printFolders]
    simp only [back, below, if_true, PathBlock.pushAll, later]
  | sibling back beside _ ih =>
    obtain ⟨fuel, rfl⟩ : ∃ m, fuel = m + 1 := ⟨fuel - 1, by omega⟩
    rw [Tree.printFolders]
    simp only [back, if_neg beside]
    exact ih top (Nat.lt_of_succ_lt_succ enough) b

theorem printFullPathInto_eq {root : Root} {i j k : Nat} {folders : List Text}
    (c : t.Climbs k i folders j) (top : (t.links j).prev = none) {fuel : Nat} (enough : k < fuel)
    (block : Text) (blockSize : UInt16) :
    t.printFullPathInto fuel root (some i) block blockSize =
      match PathBlock.pushAll (t.name i :: folders) ⟨block, blockSize, 0⟩ with
      | none => none
      | some (b, false) => some (b.block, 0)
      | some (b, true) =>
        match b.pushRoot root.name with
        | none => none
        | some (b, false) => some (b.block, 0)
        | some (b, true) => b.shift.map (·, b.nbBytesWritten) := by
  have folded (b : PathBlock) := c.printFolders top enough b
  simp only [printFullPathInto, PathBlock.pushAll, folded]

/-- `print_full_path` returns in every well-formed forest, and does not leave its block. It
prints the path if there is room for it, and else returns 0. -/
theorem printFullPathInto_spec (t : Tree) (root : Root) (u : Forest Nat)
    (rep : Represents t.links none (t.list root) u) (nd : u.walk.Nodup)
    (terminated : ∀ j ∈ u.walk, (t.name j).length < emmaResourceNameSize) (i : Nat)
    (hi : i ∈ u.walk) (block : Text) (blockSize : UInt16)
    (size : block.length = blockSize.toNat) (fuel : Nat) (enough : u.walk.length ≤ fuel) :
    ∃ block' n, t.printFullPathInto fuel root (some i) block blockSize = some (block', n) ∧
      block'.length = blockSize.toNat ∧
      if (root.text (u.way t.name i)).length ≤ blockSize.toNat then
        n.toNat = (root.text (u.way t.name i)).length ∧
          block'.take n.toNat = root.text (u.way t.name i)
      else n = 0 := by
  obtain ⟨head, hl⟩ : ∃ head, t.list root = some head := by
    cases u with
    | nil => cases hi
    | node j sub next => exact ⟨j, rep.1⟩
  rw [hl] at rep
  obtain ⟨k, less, climb⟩ := climbs_top rep nd hi
  have way : (u.way t.name i).dropLast ++ [t.name i] = u.way t.name i := Forest.way_dropLast hi
  have names : (t.name i :: (u.way t.name i).dropLast.reverse).reverse = u.way t.name i := by
    rw [List.reverse_cons, List.reverse_reverse, way]
  have short : ∀ name ∈ t.name i :: (u.way t.name i).dropLast.reverse,
      name.length < emmaResourceNameSize := by
    intro name hn
    rw [← List.mem_reverse, names] at hn
    obtain ⟨j, hj, rfl⟩ := Forest.way_mem hn
    exact terminated j hj
  have word : blockSize.toNat < 2 ^ 16 := blockSize.toNat_lt
  have start : PathBlock.Holds ⟨block, blockSize, 0⟩ blockSize.toNat [] :=
    ⟨size, rfl, by rw [← size, List.drop_length], rfl⟩
  have rootShort : root.name.length < emmaResourceNameSize := by cases root <;> decide
  rw [printFullPathInto_eq climb rep.prev_of_head (Nat.lt_of_lt_of_le less enough)]
  obtain ⟨b, fits, run, iff, holds, length⟩ := start.pushAll word short
  have total : ((t.name i :: (u.way t.name i).dropLast.reverse).flatMap (slash :: ·)).length =
      ((u.way t.name i).flatMap (slash :: ·)).length := by
    conv_rhs => rw [← names]
    exact ((List.reverse_perm _).flatMap_right _).length_eq.symm
  have whole : (root.text (u.way t.name i)).length = root.name.length +
      ((u.way t.name i).flatMap (slash :: ·)).length := List.length_append
  rw [total] at iff
  rw [run]
  cases fits with
  | false =>
    have large : ¬((u.way t.name i).flatMap (slash :: ·)).length ≤ blockSize.toNat := by
      simpa using iff
    refine ⟨b.block, 0, rfl, length, ?_⟩
    rw [if_neg (by omega)]
  | true =>
    have holds := holds rfl
    rw [names, List.append_nil] at holds
    have room := holds.room
    obtain ⟨b', pushed, holds'⟩ := holds.pushRoot word rootShort
    simp only [pushed]
    by_cases last : root.name.length ≤ b.blockSize.toNat
    · rw [if_pos last] at holds'
      obtain ⟨block', shifted, length', front⟩ := holds'.shift
      rw [decide_eq_true last]
      refine ⟨block', b'.nbBytesWritten, by simp only [shifted, Option.map_some], length', ?_⟩
      rw [if_pos (by omega), holds'.written]
      exact ⟨rfl, front⟩
    · rw [decide_eq_false last]
      refine ⟨b'.block, 0, rfl, holds'.length, ?_⟩
      rw [if_neg (by omega)]

/-- The resource `y` in the folder `x`, printed into a block with room for more -/
theorem printFullPathInto_nested : ∃ block' n,
    Store.nested.tree.printFullPathInto emmaMaxResources .resource (some 1) (List.replicate 8 0) 8 =
      some (block', n) ∧ n.toNat = 5 ∧ block'.take 5 = chars ['L', '/', 'x', '/', 'y'] := by
  obtain ⟨block', n, run, -, rest⟩ := printFullPathInto_spec Store.nested.tree .resource _
    Store.nested_rep (by decide) (by decide +kernel) 1 (by decide) (List.replicate 8 0) 8 (by decide)
    emmaMaxResources (by decide)
  have text : Root.resource.text ((Forest.node 0 (.node 1 .nil .nil) .nil).way
      Store.nested.tree.name 1) = chars ['L', '/', 'x', '/', 'y'] := by decide +kernel
  rw [text, if_pos (by decide)] at rest
  obtain ⟨five, front⟩ := rest
  rw [five] at front
  exact ⟨block', n, run, five, front⟩

theorem Shape.printFullPathInto_eq {f : Root → Forest Nat} (sh : t.Shape f) {root : Root} {i : Nat}
    (hi : i ∈ (f root).walk)
    (terminated : ∀ j ∈ (f root).walk, (t.name j).length < emmaResourceNameSize)
    {block : Text} {blockSize : UInt16} (size : block.length = blockSize.toNat) :
    (t.printFullPathInto emmaMaxResources root (some i) block blockSize).map
      (fun r => r.1.take r.2.toNat) = some (t.printFullPath root (some i) blockSize.toNat) := by
  obtain ⟨block', n, run, -, rest⟩ := printFullPathInto_spec t root (f root) (sh.rep root)
    (sh.nodup root) terminated i hi block blockSize size emmaMaxResources (sh.length_le root)
  rw [run, Option.map_some, sh.printFullPath_eq hi]
  split_ifs at rest ⊢ with fits
  · rw [rest.2]
  · rw [rest]
    rfl

end Tree
end EmmaNode

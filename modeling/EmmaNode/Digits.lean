import EmmaNode.Blockwise
import EmmaNode.Precedence
import EmmaNode.StoreRuns

/-! Numbers and their digits: `intoa` of emma-eval.c, which writes a slice of the digits of a
number, against the digits themselves. It takes the slice by divisions, and counts turns in an
`int` up to a bound that is `unsigned`. -/

namespace EmmaNode

def digit (val : Nat) : UInt8 := '0'.toUInt8 + UInt8.ofNat (val % 10)

namespace Intoa
variable (P : Platform)

/-- The turns of `while(val>0){val/=10;nbDigits++;}` -/
def countDigits : Nat → Nat → Nat
  | 0, _ => 0
  | fuel + 1, val => if 0 < val then countDigits fuel (val / 10) + 1 else 0

def divide : Nat → Nat → Nat
  | 0, val => val
  | turns + 1, val => divide turns (val / 10)

def multiply : Nat → Nat → Nat
  | 0, val => val
  | turns + 1, val => multiply turns (P.unsigned (val * 10))

def write : Nat → Nat → Text → Text
  | 0, val, behind => digit val :: behind
  | cnt + 1, val, behind => write cnt (val / 10) (digit val :: behind)

end Intoa

/-- `intoa`: what it writes and what it returns, none when `cnt` overflows or, as the index of a
digit, is negative. -/
def intoa (P : Platform) (number : Int) (blockSize blockIndex : Nat) : Option (Text × Nat) :=
  let val := P.unsigned number
  let nbDigits := if val = 0 then 1 else Intoa.countDigits P.intBits val
  let blockSize :=
    if P.unsigned (blockIndex + blockSize) > nbDigits then
      if blockIndex > nbDigits then 0 else nbDigits - blockIndex
    else blockSize
  -- `cnt` goes down to `blockIndex`, and up again
  let cnt := min nbDigits blockIndex
  let left := Intoa.multiply P (nbDigits - cnt) (Intoa.divide (nbDigits - cnt) val)
  let val := P.unsigned (number - left)
  let turns := P.unsigned (nbDigits - blockIndex - blockSize : Int)
  if 2 ^ (P.intBits - 1) ≤ turns ∨ 2 ^ (P.intBits - 1) < blockSize then none
  else some (Intoa.write (blockSize - 1) (Intoa.divide turns val) [], blockSize)

def lastDigits : Nat → Nat → Text
  | 0, _ => []
  | k + 1, n => lastDigits k (n / 10) ++ [digit n]

theorem length_lastDigits (k n : Nat) : (lastDigits k n).length = k := by
  induction k generalizing n with
  | zero => rfl
  | succ k ih => simp [lastDigits, ih]

theorem digit_eq {n : Nat} (h : n < 10) : (Nat.digitChar n).toUInt8 = digit n := by
  revert n
  decide

theorem decimal_last (n : Nat) :
    decimal n = (if n < 10 then [] else decimal (n / 10)) ++ [digit n] := by
  have mod : digit (n % 10) = digit n := by simp [digit]
  unfold decimal chars
  split
  · rename_i small
    rw [Nat.toDigits_of_lt_base small]
    simp [digit_eq small]
  · rename_i large
    rw [Nat.toDigits_of_base_le (by decide) (Nat.not_lt.mp large), List.map_append]
    simp [digit_eq (Nat.mod_lt n (by decide)), mod]

theorem lastDigits_decimal (n : Nat) : lastDigits (decimal n).length n = decimal n := by
  induction n using Nat.strongRecOn with
  | _ n ih =>
    rw [decimal_last n]
    split
    · rfl
    · rename_i large
      rw [List.length_append, List.length_singleton, lastDigits, ih (n / 10) (by omega)]

theorem lastDigits_mod (k n : Nat) : lastDigits k (n % 10 ^ k) = lastDigits k n := by
  induction k generalizing n with
  | zero => rfl
  | succ k ih =>
    have front : n % 10 ^ (k + 1) / 10 = n / 10 % 10 ^ k := by
      rw [Nat.pow_succ', Nat.mod_mul_right_div_self]
    have last : digit (n % 10 ^ (k + 1)) = digit n := by
      rw [digit, digit, Nat.pow_succ', Nat.mod_mul_right_mod]
    rw [lastDigits, lastDigits, front, ih, last]

theorem lastDigits_take (m k n : Nat) :
    (lastDigits (m + k) n).take k = lastDigits k (n / 10 ^ m) := by
  induction m generalizing n with
  | zero => simp [List.take_of_length_le, length_lastDigits]
  | succ m ih =>
    rw [Nat.add_right_comm, lastDigits, List.take_append_of_le_length
      (by rw [length_lastDigits]; omega), ih, Nat.div_div_eq_div_mul, Nat.pow_succ']

theorem lastDigits_drop (i k n : Nat) : (lastDigits (i + k) n).drop i = lastDigits k n := by
  induction k generalizing n with
  | zero =>
    rw [Nat.add_zero, List.drop_of_length_le (Nat.le_of_eq (length_lastDigits i n))]
    rfl
  | succ k ih =>
    rw [← Nat.add_assoc, lastDigits, lastDigits, List.drop_append_of_le_length
      (by rw [length_lastDigits]; omega), ih]

theorem length_decimal_pos (n : Nat) : 0 < (decimal n).length := by
  rw [decimal_last, List.length_append]
  exact Nat.succ_pos _

theorem length_decimal_le {k n : Nat} (positive : 0 < k) (h : n < 10 ^ k) :
    (decimal n).length ≤ k := by
  induction k generalizing n with
  | zero => omega
  | succ k ih =>
    rw [decimal_last]
    split
    · simp
    · cases k with
      | zero => omega
      | succ k =>
        have shorter := @ih (n / 10) (Nat.succ_pos k) (by rw [Nat.pow_succ] at h; omega)
        rw [List.length_append, List.length_singleton]
        omega

theorem Platform.unsigned_nat (P : Platform) {n : Nat} (fits : n < 2 ^ P.intBits) :
    P.unsigned n = n := by
  have cast : (n : Int) % 2 ^ P.intBits = ((n % 2 ^ P.intBits : Nat) : Int) := by
    push_cast
    rfl
  rw [Platform.unsigned, cast, Int.toNat_natCast, Nat.mod_eq_of_lt fits]

theorem Platform.unsigned_neg (P : Platform) {n : Nat} (positive : 0 < n)
    (fits : n ≤ 2 ^ P.intBits) : P.unsigned (-n) = 2 ^ P.intBits - n := by
  have wrapped : -(n : Int) % ((2 ^ P.intBits : Nat) : Int) =
      ((2 ^ P.intBits - n : Nat) : Int) := by
    rw [← Int.add_emod_right, Int.emod_eq_of_lt] <;> omega
  push_cast at wrapped
  rw [Platform.unsigned, wrapped, Int.toNat_natCast]

theorem Platform.unsigned_int (P : Platform) (x y : Int) :
    P.unsigned (P.int x - y) = P.unsigned (x - y) := by
  have wrapped : Int.bmod x (2 ^ P.intBits) % 2 ^ P.intBits = x % 2 ^ P.intBits := by
    have := Int.bmod_emod (x := x) (m := 2 ^ P.intBits)
    push_cast at this
    exact this
  rw [Platform.unsigned, Platform.unsigned, Platform.int, Int.sub_emod, wrapped, ← Int.sub_emod]

namespace Intoa
variable {P : Platform}

theorem divide_eq (turns val : Nat) : divide turns val = val / 10 ^ turns := by
  induction turns generalizing val with
  | zero => simp [divide]
  | succ turns ih => rw [divide, ih, Nat.div_div_eq_div_mul, Nat.pow_succ']

theorem write_eq (cnt val : Nat) (behind : Text) :
    write cnt val behind = lastDigits (cnt + 1) val ++ behind := by
  induction cnt generalizing val behind with
  | zero => rfl
  | succ cnt ih =>
    have last : lastDigits (cnt + 2) val = lastDigits (cnt + 1) (val / 10) ++ [digit val] := rfl
    rw [write, ih, last, List.append_assoc]
    rfl

theorem countDigits_eq {fuel n : Nat} (positive : 0 < n) (enough : (decimal n).length ≤ fuel) :
    countDigits fuel n = (decimal n).length := by
  induction fuel generalizing n with
  | zero =>
    have := length_decimal_pos n
    omega
  | succ fuel ih =>
    rw [countDigits, if_pos positive, decimal_last]
    rw [decimal_last, List.length_append] at enough
    split
    · rename_i small
      have gone : n / 10 = 0 := Nat.div_eq_of_lt small
      rw [gone]
      cases fuel <;> simp [countDigits]
    · rename_i large
      rw [if_neg large] at enough
      rw [ih (by omega) (by simpa using enough), List.length_append, List.length_singleton]

theorem multiply_eq {turns val : Nat} (fits : val * 10 ^ turns < 2 ^ P.intBits) :
    multiply P turns val = val * 10 ^ turns := by
  induction turns generalizing val with
  | zero => simp [multiply]
  | succ turns ih =>
    have one : val * 10 ≤ val * 10 ^ (turns + 1) :=
      Nat.mul_le_mul_left val (Nat.le_self_pow (Nat.succ_ne_zero turns) 10)
    have kept : P.unsigned (val * 10) = val * 10 := by
      have := P.unsigned_nat (Nat.lt_of_le_of_lt one fits)
      rwa [Int.natCast_mul] at this
    rw [multiply, kept, ih (by rwa [Nat.mul_assoc, ← Nat.pow_succ']), Nat.mul_assoc,
      ← Nat.pow_succ']

end Intoa

def digitSlice (n blockSize blockIndex : Nat) : Text := ((decimal n).drop blockIndex).take blockSize

theorem length_digitSlice (n blockSize blockIndex : Nat) :
    (digitSlice n blockSize blockIndex).length =
      min blockSize ((decimal n).length - blockIndex) := by
  rw [digitSlice, List.length_take, List.length_drop]

theorem digitSlice_eq {n k i m : Nat} (split : (decimal n).length = i + (m + k)) :
    digitSlice n k i = lastDigits k (n % 10 ^ (m + k) / 10 ^ m) := by
  rw [digitSlice, ← lastDigits_decimal n, split, lastDigits_drop, lastDigits_take,
    ← lastDigits_mod k (n / 10 ^ m), ← lastDigits_mod k, Nat.pow_add, Nat.mod_mul_right_div_self,
    Nat.mod_mod]

variable {P : Platform}

theorem unsigned_value (v : UInt16) : P.unsigned (P.int v.toNat) = v.toNat := by
  have wrapped := P.unsigned_int v.toNat 0
  rw [Int.sub_zero, Int.sub_zero] at wrapped
  have := P.pow_intBits
  rw [wrapped, P.unsigned_nat (by have := v.toNat_lt; omega)]

theorem length_value (v : UInt16) : (decimal v.toNat).length ≤ 5 :=
  length_decimal_le (by decide) (by have := v.toNat_lt; omega)

theorem countDigits_value (v : UInt16) : (if v.toNat = 0 then 1
    else Intoa.countDigits P.intBits v.toNat) = (decimal v.toNat).length := by
  split
  · rename_i zero
    rw [zero]
    decide
  · refine Intoa.countDigits_eq (by omega) (Nat.le_trans (length_value v) ?_)
    have := P.intBits_ge
    omega

/-- `intoa` writes the digits it is asked for, or a zero when there are none. Behind the last
digit it never ends counting. -/
theorem intoa_eq (v : UInt16) {blockSize blockIndex : Nat}
    (fits : blockIndex + blockSize < 2 ^ P.intBits) (small : blockIndex < 2 ^ (P.intBits - 1)) :
    intoa P (P.int v.toNat) blockSize blockIndex =
      if blockIndex ≤ (decimal v.toNat).length then
        some (if digitSlice v.toNat blockSize blockIndex = [] then chars ['0']
          else digitSlice v.toNat blockSize blockIndex,
          (digitSlice v.toNat blockSize blockIndex).length)
      else none := by
  have val := unsigned_value (P := P) v
  have five := length_value v
  have nbDigits := countDigits_value (P := P) v
  obtain ⟨half, double⟩ := P.pow_intBits
  generalize hn : v.toNat = n at val five nbDigits
  have bound : n < 65536 := hn ▸ v.toNat_lt
  have sum : P.unsigned (blockIndex + blockSize : Int) = blockIndex + blockSize := by
    have := P.unsigned_nat fits
    rwa [Int.natCast_add] at this
  -- the digits behind the block's are divided away, the ones in front subtracted
  have rest (turns : Nat) : P.unsigned
      (P.int n - (Intoa.multiply P turns (Intoa.divide turns n) : Nat)) = n % 10 ^ turns := by
    have le : n / 10 ^ turns * 10 ^ turns ≤ n := Nat.div_mul_le_self n _
    have mod : n - n / 10 ^ turns * 10 ^ turns = n % 10 ^ turns := by
      have := Nat.div_add_mod' n (10 ^ turns)
      omega
    rw [Intoa.divide_eq, Intoa.multiply_eq (by omega), P.unsigned_int, ← Int.natCast_sub le, mod,
      P.unsigned_nat]
    exact Nat.lt_of_le_of_lt (Nat.mod_le n _) (by omega)
  unfold intoa
  simp only [val, nbDigits, sum, rest]
  generalize hd : (decimal n).length = d at *
  have size : (if blockIndex + blockSize > d then
      if blockIndex > d then 0 else d - blockIndex else blockSize) =
      min blockSize (d - blockIndex) := by
    split_ifs <;> omega
  rw [size]
  have length := length_digitSlice n blockSize blockIndex
  rw [hd] at length
  by_cases inside : blockIndex ≤ d
  · rw [if_pos inside, Nat.min_eq_right inside]
    generalize hk : min blockSize (d - blockIndex) = k at length ⊢
    obtain ⟨m, hm⟩ : ∃ m, d = blockIndex + (m + k) := ⟨d - blockIndex - k, by omega⟩
    have turns : P.unsigned (d - blockIndex - k : Int) = m := by
      have : (d - blockIndex - k : Int) = (m : Int) := by omega
      rw [this, P.unsigned_nat (by omega)]
    have same : digitSlice n blockSize blockIndex = digitSlice n k blockIndex :=
      List.take_eq_take_iff.mpr (by rw [List.length_drop, hd]; omega)
    have slice : digitSlice n k blockIndex = lastDigits k (n % 10 ^ (m + k) / 10 ^ m) :=
      digitSlice_eq (hd.trans hm)
    have left : d - blockIndex = m + k := by omega
    rw [turns, if_neg (by omega), Intoa.write_eq, List.append_nil, Intoa.divide_eq, left, same,
      slice, length_lastDigits]
    cases k with
    | zero =>
      have nothing : n % 10 ^ (m + 0) / 10 ^ m = 0 :=
        Nat.div_eq_of_lt (Nat.mod_lt n (Nat.pow_pos (by decide)))
      rw [nothing]
      rfl
    | succ k =>
      have some' : lastDigits (k + 1) (n % 10 ^ (m + (k + 1)) / 10 ^ m) ≠ [] := by
        intro e
        have := congrArg List.length e
        rw [length_lastDigits] at this
        cases this
      rw [if_neg some', Nat.add_sub_cancel]
  · rw [if_neg inside]
    have none' : min blockSize (d - blockIndex) = 0 := by omega
    have negative : (d - blockIndex - (0 : Nat) : Int) = -((blockIndex - d : Nat) : Int) := by
      omega
    have turns : 2 ^ (P.intBits - 1) ≤ P.unsigned (d - blockIndex - (0 : Nat) : Int) := by
      rw [negative, P.unsigned_neg (by omega) (by omega)]
      omega
    rw [none', if_pos (.inl turns)]

/-- Where index and size together leave the range of `unsigned int`, `intoa` goes wrong. -/
theorem intoa_wrapped (v : UInt16) {blockSize blockIndex : Nat} (size : blockSize < 65536)
    (small : blockIndex < 2 ^ (P.intBits - 1)) (wraps : 2 ^ P.intBits ≤ blockIndex + blockSize) :
    intoa P (P.int v.toNat) blockSize blockIndex = none := by
  have val := unsigned_value (P := P) v
  have five := length_value v
  have nbDigits := countDigits_value (P := P) v
  obtain ⟨half, double⟩ := P.pow_intBits
  obtain ⟨k, hk⟩ : ∃ k, blockIndex + blockSize = k + 2 ^ P.intBits :=
    ⟨blockIndex + blockSize - 2 ^ P.intBits, by omega⟩
  have sum : P.unsigned (blockIndex + blockSize : Int) = k := by
    have cast : (blockIndex + blockSize : Int) = (k : Int) + ((2 ^ P.intBits : Nat) : Int) := by
      omega
    have kept := P.unsigned_nat (by omega : k < 2 ^ P.intBits)
    rw [Platform.unsigned] at kept
    have pow : ((2 ^ P.intBits : Nat) : Int) = 2 ^ P.intBits := by norm_cast
    rw [cast, Platform.unsigned, pow, Int.add_emod_right, kept]
  unfold intoa
  simp only [val, nbDigits, sum]
  generalize (decimal v.toNat).length = d at *
  refine if_pos ?_
  by_cases clipped : k > d
  · have negative : (d - blockIndex - (0 : Nat) : Int) = -((blockIndex - d : Nat) : Int) := by
      omega
    left
    rw [if_pos clipped, if_pos (by omega), negative, P.unsigned_neg (by omega) (by omega)]
    omega
  · right
    rw [if_neg clipped]
    omega

/-- `intoa` does what it should up to the last digit, and nowhere behind it. -/
theorem intoa_isSome_iff (v : UInt16) {blockSize blockIndex : Nat} (size : blockSize < 65536)
    (small : blockIndex < 2 ^ (P.intBits - 1)) :
    (intoa P (P.int v.toNat) blockSize blockIndex).isSome ↔
      blockIndex ≤ (decimal v.toNat).length ∧ blockIndex + blockSize < 2 ^ P.intBits := by
  by_cases fits : blockIndex + blockSize < 2 ^ P.intBits
  · rw [intoa_eq v fits small]
    split <;> simp [*]
  · rw [intoa_wrapped v size small (Nat.not_lt.mp fits)]
    simp [fits]

theorem digit_isDigit (n : Nat) : isDigit (digit n) := by
  have small : n % 10 < 10 := Nat.mod_lt n (by decide)
  rw [digit]
  revert small
  generalize n % 10 = d
  revert d
  decide

theorem digit_value (n : Nat) : (digit n).toNat - 48 = n % 10 := by
  have small : n % 10 < 10 := Nat.mod_lt n (by decide)
  rw [digit]
  revert small
  generalize n % 10 = d
  revert d
  decide

theorem decimal_literal (n : Nat) : Literal (decimal n) := by
  refine ⟨fun e => ?_, ?_⟩
  · have positive := length_decimal_pos n
    rw [e] at positive
    exact Nat.lt_irrefl 0 positive
  induction n using Nat.strongRecOn with
  | _ n ih =>
    intro c hc
    rw [decimal_last] at hc
    split at hc
    · rw [List.nil_append, List.mem_singleton] at hc
      exact hc ▸ digit_isDigit n
    · rcases List.mem_append.mp hc with front | last
      · exact ih (n / 10) (by omega) c front
      · exact List.mem_singleton.mp last ▸ digit_isDigit n

theorem decimalValue_decimal (n : Nat) : decimalValue (decimal n) = n := by
  induction n using Nat.strongRecOn with
  | _ n ih =>
    unfold decimalValue at ih ⊢
    rw [decimal_last]
    split
    · simp only [List.nil_append, List.foldl_cons, List.foldl_nil, digit_value]
      omega
    · rw [List.foldl_append, ih (n / 10) (by omega)]
      simp only [List.foldl_cons, List.foldl_nil, digit_value]
      omega

theorem decimal_head {n : Nat} (h : (decimal n).head? = some '0'.toUInt8) : n = 0 := by
  induction n using Nat.strongRecOn with
  | _ n ih =>
    rw [decimal_last] at h
    split at h
    · rename_i small
      have zero : ∀ n < 10, ([] ++ [digit n]).head? = some '0'.toUInt8 → n = 0 := by decide
      exact zero n small h
    · rename_i large
      have some' : decimal (n / 10) ≠ [] := (decimal_literal (n / 10)).1
      rw [List.head?_append_of_ne_nil _ some'] at h
      have := ih (n / 10) (by omega) h
      omega

namespace Store

/-- `root_resource_read`, as far as its loops end -/
def resourceDigits (P : Platform) (st : Store) (slot : Nat) (blockSize : UInt16)
    (blockIndex : Int) : Option (Text × Nat) :=
  intoa P (P.int (st.values slot).toNat) blockSize.toNat (P.unsigned blockIndex)

def resourceOutput (P : Platform) (st : Store) (slot : Nat) (blockSize : UInt16)
    (blockIndex : Nat) : Option Text :=
  (st.resourceDigits P slot blockSize blockIndex).map fun (bytes, returned) => bytes.take returned

theorem resourceDigits_eq (st : Store) (slot : Nat) (blockSize : UInt16) {blockIndex : Nat}
    (fits : blockIndex + blockSize.toNat < 2 ^ P.intBits)
    (small : blockIndex < 2 ^ (P.intBits - 1))
    (inside : blockIndex ≤ (decimal (st.values slot).toNat).length) :
    st.resourceDigits P slot blockSize blockIndex =
      some ((st.rootResourceRead P slot blockSize.toNat blockIndex).bytes,
        (digitSlice (st.values slot).toNat blockSize.toNat blockIndex).length) := by
  have index : P.unsigned (blockIndex : Int) = blockIndex := P.unsigned_nat (by omega)
  rw [resourceDigits, index, intoa_eq _ fits small, if_pos inside, rootResourceRead, index]
  rfl

theorem resourceOutput_eq (st : Store) (slot : Nat) {b : UInt16} {i : Nat}
    (fits : i + b.toNat < 2 ^ P.intBits) (small : i < 2 ^ (P.intBits - 1))
    (inside : i ≤ (decimal (st.values slot).toNat).length) :
    st.resourceOutput P slot b i = some (digitSlice (st.values slot).toNat b.toNat i) := by
  have index : P.unsigned (i : Int) = i := P.unsigned_nat (by omega)
  rw [resourceOutput, resourceDigits, index, intoa_eq _ fits small, if_pos inside]
  simp only [Option.map_some, Option.some.injEq]
  split
  · rename_i nothing
    rw [nothing]
    rfl
  · exact List.take_length

theorem resourceOutput_blocks (st : Store) (slot : Nat) {b : UInt16} (some' : b ≠ 0) :
    ∃ outputs, BlockReads (st.resourceOutput P slot b) b.toNat 0 outputs ∧
      outputs.flatten = decimal (st.values slot).toNat ∧
      ∀ k output, outputs[k]? = some output →
        output.length = min b.toNat ((decimal (st.values slot).toNat).length - k * b.toNat) := by
  have positive : 0 < b.toNat := Nat.pos_of_ne_zero fun e => some' (UInt16.toNat_inj.mp e)
  have five := length_value (st.values slot)
  have half : 2 ^ 15 ≤ 2 ^ (P.intBits - 1) :=
    Nat.pow_le_pow_right (by decide) (by have := P.intBits_ge; omega)
  have whole : 2 ^ 16 ≤ 2 ^ P.intBits := Nat.pow_le_pow_right (by decide) P.intBits_ge
  have size := b.toNat_lt
  by_cases one : (decimal (st.values slot).toNat).length < b.toNat
  · -- one block holds all digits
    have all : digitSlice (st.values slot).toNat b.toNat 0 = decimal (st.values slot).toNat :=
      List.take_of_length_le (Nat.le_of_lt one)
    have here := st.resourceOutput_eq (P := P) slot (b := b) (i := 0) (by omega) (by omega)
      (Nat.zero_le _)
    rw [all] at here
    refine ⟨_, .last here one, List.flatten_singleton, fun k output hk => ?_⟩
    obtain ⟨inside, rfl⟩ := List.getElem?_eq_some_iff.mp hk
    obtain rfl : k = 0 := by simpa using inside
    rw [Nat.zero_mul, Nat.sub_zero, Nat.min_eq_right (Nat.le_of_lt one)]
    rfl
  · have slices : ∀ i ≤ (decimal (st.values slot).toNat).length, st.resourceOutput P slot b i =
        some (((decimal (st.values slot).toNat).drop i).take b.toNat) := fun i hi =>
      st.resourceOutput_eq slot (by omega) (by omega) hi
    obtain ⟨outputs, blocks, joined⟩ := BlockReads.of_slices positive slices (Nat.zero_le _)
    refine ⟨outputs, blocks, joined, fun k output hk => ?_⟩
    rw [blocks.slice slices (Nat.zero_le _) hk, List.length_take, List.length_drop, Nat.zero_add]

/-- A value read block by block is its decimal representation, from which it is got back. -/
theorem values_survive (st : Store) (slot : Nat) {b : UInt16} (some' : b ≠ 0) :
    ∃ outputs, BlockReads (st.resourceOutput P slot b) b.toNat 0 outputs ∧
      outputs.flatten = decimal (st.values slot).toNat ∧
      (outputs.flatten.head? = some '0'.toUInt8 → st.values slot = 0) ∧
      (∀ k output, outputs[k]? = some output →
        output.length = min b.toNat ((decimal (st.values slot).toNat).length - k * b.toNat)) ∧
      (32 ≤ P.intBits → antoi P outputs.flatten = (st.values slot).toNat) := by
  obtain ⟨outputs, blocks, joined, lengths⟩ := st.resourceOutput_blocks slot some'
  refine ⟨outputs, blocks, joined, fun head => ?_, lengths, fun wide => ?_⟩
  · rw [joined] at head
    exact UInt16.toNat_inj.mp (decimal_head head)
  · have whole : 2 ^ 32 ≤ 2 ^ P.intBits := Nat.pow_le_pow_right (by decide) wide
    have bound := (st.values slot).toNat_lt
    rw [joined, antoi_literal P (decimal_literal _), decimalValue_decimal]
    refine Int.bmod_eq_of_le ?_ ?_ <;> omega

theorem values_survive_two : ∃ outputs,
    BlockReads ({ empty fun _ => none with values := fun _ => 40960 }.resourceOutput .plain 0 2) 2 0
      outputs ∧ outputs.flatten = chars ['4', '0', '9', '6', '0'] := by
  obtain ⟨outputs, blocks, joined, -⟩ := values_survive (P := .plain)
    { empty fun _ => none with values := fun _ => 40960 } 0 (b := 2) (by decide)
  exact ⟨outputs, blocks, joined⟩

end Store
end EmmaNode

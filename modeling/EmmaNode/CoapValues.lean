import EmmaNode.CoapParse

/-! The numbers in options. One is written without the zeros in front of it and read as what
its bytes are worth; a block option packs a number, a flag and a power of two into one. -/

namespace EmmaNode

theorem and_high (n k j : Nat) : ((2 ^ j - 1) <<< k) &&& n = n / 2 ^ k % 2 ^ j * 2 ^ k := by
  have shifted : ((2 ^ j - 1) <<< k) &&& n = ((2 ^ j - 1) &&& (n >>> k)) <<< k := by
    refine Nat.eq_of_testBit_eq fun i => ?_
    simp only [Nat.testBit_and, Nat.testBit_shiftLeft, Nat.testBit_shiftRight]
    by_cases h : k ≤ i
    · simp [h]
    · simp [h]
  rw [shifted, Nat.and_comm, Nat.and_two_pow_sub_one_eq_mod, Nat.shiftRight_eq_div_pow,
    Nat.shiftLeft_eq]

theorem mask_ne_zero (mask v : UInt32) (k : Nat) (h : mask.toNat = (2 ^ (32 - k) - 1) <<< k)
    (le : k < 32) : mask &&& v ≠ 0 ↔ 2 ^ k ≤ v.toNat := by
  have value : (mask &&& v).toNat = v.toNat / 2 ^ k * 2 ^ k := by
    rw [UInt32.toNat_and, h, and_high, Nat.mod_eq_of_lt]
    refine Nat.div_lt_of_lt_mul ?_
    rw [← Nat.pow_add, Nat.add_sub_cancel' (Nat.le_of_lt le)]
    exact v.toNat_lt
  rw [Ne, ← UInt32.toNat_inj, value, UInt32.toNat_zero]
  have pos : 0 < 2 ^ k := Nat.two_pow_pos k
  constructor
  · intro some'
    by_contra small
    rw [Nat.div_eq_of_lt (by omega), Nat.zero_mul] at some'
    exact some' rfl
  · intro large zero
    have one : 1 ≤ v.toNat / 2 ^ k := (Nat.one_le_div_iff pos).mpr large
    rcases Nat.mul_eq_zero.mp zero with h | h <;> omega

def bytesValue (bytes : Text) : Nat := bytes.foldl (fun n byte => n * 256 + byte.toNat) 0

theorem parseIntOption_toNat (bytes : Text) (short : bytes.length ≤ 4) :
    (parseIntOption bytes).toNat = bytesValue bytes ∧
      bytesValue bytes < 2 ^ (8 * bytes.length) := by
  induction bytes using List.reverseRecOn with
  | nil => exact ⟨rfl, by decide⟩
  | append_singleton bytes byte ih =>
    rw [List.length_append, List.length_singleton] at short ⊢
    obtain ⟨value, small⟩ := ih (by omega)
    have le := byte.toNat_lt
    have split : 2 ^ (8 * (bytes.length + 1)) = 2 ^ (8 * bytes.length) * 256 := by
      rw [Nat.mul_add, Nat.pow_add]
    have fits : bytesValue bytes < 2 ^ 24 :=
      Nat.lt_of_lt_of_le small (Nat.pow_le_pow_right (by decide) (by omega))
    simp only [parseIntOption, bytesValue, List.foldl_append, List.foldl_cons, List.foldl_nil] at *
    constructor
    · rw [UInt32.toNat_or, UInt32.toNat_shiftLeft, value, UInt8.toNat_toUInt32]
      change (_ <<< 8) % 2 ^ 32 ||| _ = _
      rw [Nat.mod_eq_of_lt (by rw [Nat.shiftLeft_eq]; omega),
        ← Nat.shiftLeft_add_eq_or_of_lt le, Nat.shiftLeft_eq]
    · omega

theorem length_intBytes (v : UInt32) : (intBytes v).length ≤ 4 := by
  rw [intBytes]
  split <;> split <;> split <;> split <;> simp

theorem parseIntOption_intBytes (v : UInt32) : parseIntOption (intBytes v) = v := by
  have h₀ := mask_ne_zero 0xFFFFFFFF v 0 (by decide) (by decide)
  have h₁ := mask_ne_zero 0xFFFFFF00 v 8 (by decide) (by decide)
  have h₂ := mask_ne_zero 0xFFFF0000 v 16 (by decide) (by decide)
  have h₃ := mask_ne_zero 0xFF000000 v 24 (by decide) (by decide)
  have small := v.toNat_lt
  have third : (v >>> 24).toUInt8.toNat = v.toNat / 2 ^ 24 % 256 := by
    simp [UInt32.toNat_shiftRight, Nat.shiftRight_eq_div_pow]
  have second : (v >>> 16).toUInt8.toNat = v.toNat / 2 ^ 16 % 256 := by
    simp [UInt32.toNat_shiftRight, Nat.shiftRight_eq_div_pow]
  have first : (v >>> 8).toUInt8.toNat = v.toNat / 2 ^ 8 % 256 := by
    simp [UInt32.toNat_shiftRight, Nat.shiftRight_eq_div_pow]
  have last : v.toUInt8.toNat = v.toNat % 256 := by simp
  refine UInt32.toNat_inj.mp (((parseIntOption_toNat _ (length_intBytes v)).1).trans ?_)
  rw [intBytes]
  simp only [h₀, h₁, h₂, h₃]
  -- the bytes that are left out are zeros
  rcases Nat.lt_or_ge v.toNat (2 ^ 8) with l | l
  · rw [if_neg (by omega), if_neg (by omega), if_neg (by omega)]
    split
    · simp only [bytesValue, List.nil_append, List.foldl_cons, List.foldl_nil, last]
      omega
    · simp only [bytesValue, List.nil_append, List.foldl_nil]
      omega
  rw [if_pos (show 2 ^ 0 ≤ v.toNat by omega), if_pos l]
  rcases Nat.lt_or_ge v.toNat (2 ^ 16) with l | l
  · rw [if_neg (by omega), if_neg (by omega)]
    simp only [bytesValue, List.nil_append, List.cons_append, List.foldl_cons, List.foldl_nil,
      last, first]
    omega
  rw [if_pos l]
  split
  all_goals
    simp only [bytesValue, List.nil_append, List.cons_append, List.foldl_cons, List.foldl_nil,
      last, first, second, third]
    omega

theorem halvings_eq (fuel n : Nat) (h : n < 2 ^ fuel) (pos : 0 < fuel) :
    halvings fuel n = n.log2 + 1 := by
  induction fuel generalizing n with
  | zero => exact absurd pos (Nat.lt_irrefl 0)
  | succ fuel ih =>
    rw [halvings, Nat.log2_def]
    split
    · rw [if_neg (by omega)]
    · rename_i two
      have room : 0 < fuel := by
        rcases Nat.eq_zero_or_pos fuel with rfl | room
        · omega
        · exact room
      rw [if_pos (by omega), ih (n / 2) (by rw [Nat.pow_succ] at h; omega) room]

theorem coapLog2_eq (v : UInt16) : coapLog2 v = v.toNat.log2 := by
  rw [coapLog2, halvings_eq 16 v.toNat v.toNat_lt (by decide), Nat.add_sub_cancel]

namespace BlockOption

def exponent (b : BlockOption) : Nat := coapLog2 (b.size / 16)

def received (b : BlockOption) : BlockOption where
  num := b.num
  more := b.more
  size := 16 <<< UInt16.ofNat b.exponent
  offset := b.num * (16 <<< UInt16.ofNat b.exponent : UInt16).toUInt32

variable {b : BlockOption}

theorem exponent_spec (h : CoapPacket.takesBlock b.num b.size) :
    b.exponent < 8 ∧ 2 ^ (4 + b.exponent) ≤ b.size.toNat ∧
      b.size.toNat < 2 ^ (5 + b.exponent) := by
  obtain ⟨low, high, -⟩ := h
  have low := UInt16.le_iff_toNat_le.mp low
  have high := UInt16.le_iff_toNat_le.mp high
  simp only [UInt16.toNat_ofNat] at low high
  have quotient : (b.size / 16).toNat = b.size.toNat / 16 := by simp
  rw [exponent, coapLog2_eq, quotient]
  have some' : b.size.toNat / 16 ≠ 0 := by omega
  have under := Nat.log2_self_le some'
  have above : b.size.toNat / 16 < 2 ^ ((b.size.toNat / 16).log2 + 1) := Nat.lt_log2_self
  refine ⟨(Nat.log2_lt some').mpr (by omega), ?_, ?_⟩
  · rw [Nat.pow_add]
    omega
  · rw [Nat.add_comm, Nat.pow_add]
    rw [Nat.pow_succ] at above
    omega

theorem received_size (h : CoapPacket.takesBlock b.num b.size) :
    b.received.size.toNat = 2 ^ (4 + b.exponent) := by
  have powers : ∀ e < 8, ((16 : UInt16) <<< UInt16.ofNat e).toNat = 2 ^ (4 + e) := by decide
  exact powers _ (exponent_spec h).1

theorem value_toNat (h : CoapPacket.takesBlock b.num b.size) :
    b.value.toNat = b.num.toNat * 16 + ((if b.more then 8 else 0) + b.exponent) := by
  have small := UInt32.le_iff_toNat_le.mp h.2.2
  have e := (exponent_spec h).1
  simp only [UInt32.toNat_ofNat] at small
  have low : ∀ e < 8, (8 ||| e) = 8 + e := by decide
  have power : (0xF &&& UInt32.ofNat b.exponent).toNat = b.exponent := by
    rw [UInt32.toNat_and, UInt32.toNat_ofNat, UInt32.toNat_ofNat', Nat.and_comm,
      Nat.mod_eq_of_lt (by omega)]
    change b.exponent &&& (2 ^ 4 - 1) = _
    rw [Nat.and_two_pow_sub_one_eq_mod, Nat.mod_eq_of_lt (by omega)]
  have number : (b.num <<< 4).toNat = b.num.toNat <<< 4 := by
    rw [UInt32.toNat_shiftLeft]
    change (_ <<< 4) % 2 ^ 32 = _
    rw [Nat.mod_eq_of_lt (by rw [Nat.shiftLeft_eq]; omega)]
  rw [value, ← exponent, UInt32.toNat_or, UInt32.toNat_or, power, number, Nat.or_assoc]
  cases b.more
  · simp only [Bool.false_eq_true, if_false, UInt32.toNat_zero, Nat.zero_or, Nat.zero_add]
    rw [← Nat.shiftLeft_add_eq_or_of_lt (by omega), Nat.shiftLeft_eq]
  · simp only [if_true, UInt32.toNat_ofNat]
    rw [low _ e, ← Nat.shiftLeft_add_eq_or_of_lt (by omega), Nat.shiftLeft_eq]

theorem ofValue_value (h : CoapPacket.takesBlock b.num b.size) :
    BlockOption.ofValue b.value = b.received := by
  have small := UInt32.le_iff_toNat_le.mp h.2.2
  have e := (exponent_spec h).1
  have whole := value_toNat h
  simp only [UInt32.toNat_ofNat] at small
  have power : (b.value &&& 0x07).toNat = b.exponent := by
    rw [UInt32.toNat_and]
    change _ &&& (2 ^ 3 - 1) = _
    rw [Nat.and_two_pow_sub_one_eq_mod, whole]
    split <;> omega
  have flag : (b.value &&& 0x08).toNat = if b.more then 8 else 0 := by
    rw [UInt32.toNat_and, Nat.and_comm]
    change ((2 ^ 1 - 1) <<< 3) &&& _ = _
    rw [and_high, whole]
    split <;> omega
  have number : (b.value &&& ~~~0x0000000F).toNat = b.num.toNat * 16 := by
    rw [UInt32.toNat_and, Nat.and_comm]
    change ((2 ^ 28 - 1) <<< 4) &&& _ = _
    rw [and_high, whole]
    split <;> omega
  have size : (b.value &&& 0x07).toUInt16 = UInt16.ofNat b.exponent := by
    rw [← UInt16.toNat_inj, UInt32.toNat_toUInt16, power, UInt16.toNat_ofNat']
  have scaled := received_size h
  rw [received] at scaled ⊢
  rw [ofValue, size]
  congr 1
  · rw [← UInt32.toNat_inj, UInt32.toNat_shiftRight, whole]
    change _ >>> 4 = _
    rw [Nat.shiftRight_eq_div_pow]
    split <;> omega
  · have zero : b.value &&& 0x08 = 0 ↔ b.more = false := by
      rw [← UInt32.toNat_inj, flag]
      cases b.more <;> simp
    cases more : b.more
    · simp [zero.mpr more]
    · simp [zero, more]
  · rw [← UInt32.toNat_inj, UInt32.toNat_shiftLeft, power, number, UInt32.toNat_mul,
      UInt16.toNat_toUInt32, scaled, Nat.mod_eq_of_lt (show b.exponent < 32 by omega),
      Nat.shiftLeft_eq, Nat.mul_assoc, Nat.pow_add]

end BlockOption
end EmmaNode

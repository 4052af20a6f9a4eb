import EmmaNode.CoapParse
import EmmaNode.DistanceCode

/-! The options of a message as numbered values. What is written for them is a code that tells
them apart, and what is read is the sequence the code stands for. -/

namespace EmmaNode

def headerByte (delta length : Nat) : UInt8 :=
  ((0x0F : UInt8) &&& UInt8.ofNat length) ||| ((0xF0 : UInt8) &&& (UInt8.ofNat delta <<< (4 : UInt8)))

theorem headerByte_parts : ∀ d < 16, ∀ n < 16,
    (headerByte d n >>> 4).toNat = d ∧ (0x0F &&& headerByte d n).toNat = n := by
  decide +kernel

theorem headerByte_nat : ∀ n < 256,
    headerByte (UInt8.ofNat n >>> 4).toNat (0x0F &&& UInt8.ofNat n).toNat = UInt8.ofNat n ∧
      (UInt8.ofNat n >>> 4).toNat < 16 ∧ (0x0F &&& UInt8.ofNat n).toNat < 16 := by
  decide +kernel

theorem headerByte_eq (b : UInt8) : headerByte (b >>> 4).toNat (0x0F &&& b).toNat = b := by
  have h := (headerByte_nat b.toNat b.toNat_lt).1
  rwa [UInt8.ofNat_toNat] at h

theorem delta_lt (b : UInt8) : (b >>> 4).toNat < 16 := by
  have h := (headerByte_nat b.toNat b.toNat_lt).2.1
  rwa [UInt8.ofNat_toNat] at h

theorem optionHeader_short {d n : Nat} (short : n < 15) : optionHeader d n = [headerByte d n] := by
  rw [optionHeader, if_pos short]
  rfl

theorem optionHeader_long {d n : Nat} (long : ¬n < 15) :
    optionHeader d n = [headerByte d 15, UInt8.ofNat (n - 15)] := by
  rw [optionHeader, if_neg long]
  rfl

theorem optionHeader_cons (d n : Nat) : ∃ more, optionHeader d n = headerByte d (min n 15) :: more := by
  by_cases short : n < 15
  · exact ⟨[], by rw [optionHeader_short short, Nat.min_eq_left (by omega)]⟩
  · exact ⟨_, by rw [optionHeader_long short, Nat.min_eq_right (by omega)]⟩

def optionCode : DistanceCode Text UInt8 where
  word d v := optionHeader d v.length ++ v
  Fits d v := d < 16 ∧ v.length < 271
  unique := by
    intro d d' v v' rest rest' h h' same
    obtain ⟨more, first⟩ := optionHeader_cons d v.length
    obtain ⟨more', first'⟩ := optionHeader_cons d' v'.length
    have heads : headerByte d (min v.length 15) = headerByte d' (min v'.length 15) := by
      have := same
      rw [first, first'] at this
      exact (List.cons.inj this).1
    obtain ⟨delta, length⟩ := headerByte_parts d h.1 (min v.length 15) (by omega)
    obtain ⟨delta', length'⟩ := headerByte_parts d' h'.1 (min v'.length 15) (by omega)
    rw [heads] at delta length
    have distance : d = d' := delta.symm.trans delta'
    have capped : min v.length 15 = min v'.length 15 := length.symm.trans length'
    have lengths : v.length = v'.length := by
      by_cases short : v.length < 15
      · omega
      · rw [optionHeader_long short, optionHeader_long (by omega)] at same
        have seconds := (List.cons.inj (List.cons.inj same).2).1
        have := congrArg UInt8.toNat seconds
        have := h.2
        have := h'.2
        simp only [UInt8.toNat_ofNat'] at *
        omega
    subst distance
    rw [lengths, List.append_assoc, List.append_assoc] at same
    have values := List.append_cancel_left same
    exact ⟨rfl, List.append_inj values lengths⟩

namespace Memory
variable {m m' : Memory}

@[simp] theorem length_read (i n : Nat) : (m.read i n).length = n := by
  simp [read]

theorem read_append (i n k : Nat) : m.read i (n + k) = m.read i n ++ m.read (i + n) k := by
  rw [read, List.range_add, List.map_append, List.map_map, read, read]
  simp [Function.comp_def, Nat.add_assoc]

theorem read_congr {i n : Nat} (same : ∀ j, i ≤ j → j < i + n → m j = m' j) :
    m.read i n = m'.read i n := by
  refine List.map_congr_left fun j hj => same _ (by omega) ?_
  have := List.mem_range.mp hj
  omega

def options (m : Memory) : Nat → Nat → Nat → List (Nat × Text) × Nat
  | 0, _, i => ([], i)
  | count + 1, current, i =>
    let number := current + (m i >>> 4).toNat
    let option := m.optionAt i
    let (more, stop) := options m count number option.stop
    ((number, option.text m) :: more, stop)

theorem optionAt_lt (m : Memory) (i : Nat) : i < (m.optionAt i).start := by
  rw [optionAt]
  split <;> simp

theorem optionAt_length (m : Memory) (i : Nat) : (m.optionAt i).length < 271 := by
  rw [optionAt]
  split
  · have := UInt8.lt_iff_toNat_lt.mp ‹_›
    simp only [UInt8.toNat_ofNat] at this ⊢
    omega
  · have := (m (i + 1)).toNat_lt
    simp only
    omega

theorem optionAt_word (m : Memory) (i : Nat) :
    m.read i ((m.optionAt i).stop - i) =
      optionCode.word (m i >>> 4).toNat ((m.optionAt i).text m) := by
  have header : m.read i ((m.optionAt i).start - i) =
      optionHeader (m i >>> 4).toNat (m.optionAt i).length := by
    have whole := headerByte_eq (m i)
    rw [optionAt]
    split
    · have short := UInt8.lt_iff_toNat_lt.mp ‹_›
      rw [optionHeader_short short, Nat.add_sub_cancel_left, whole]
      rfl
    · rename_i long
      have fifteen : (0x0F &&& m i).toNat = 15 := by
        have := (headerByte_nat (m i).toNat (m i).toNat_lt).2.2
        rw [UInt8.ofNat_toNat] at this
        rw [UInt8.lt_iff_toNat_lt] at long
        simp only [UInt8.toNat_ofNat] at long
        omega
      have enough : ¬(m (i + 1)).toNat + 15 < 15 := by omega
      rw [fifteen] at whole
      rw [optionHeader_long enough, whole, Nat.add_sub_cancel, UInt8.ofNat_toNat,
        Nat.add_sub_cancel_left]
      rfl
  have after := m.optionAt_lt i
  have split : (m.optionAt i).stop - i =
      ((m.optionAt i).start - i) + (m.optionAt i).length := by
    rw [Slice.stop]
    omega
  rw [split, read_append, header, Nat.add_sub_cancel' (Nat.le_of_lt after)]
  simp only [optionCode, Slice.text, length_read]

theorem options_le (m : Memory) (count current i : Nat) : i ≤ (m.options count current i).2 := by
  induction count generalizing current i with
  | zero => exact Nat.le_refl i
  | succ count ih =>
    have := m.optionAt_lt i
    have := ih (current + (m i >>> 4).toNat) (m.optionAt i).stop
    rw [Slice.stop] at this
    simp only [options]
    exact Nat.le_trans (by omega) this

theorem options_stop_le (m : Memory) (count current i : Nat) :
    (m.options count current i).2 ≤ i + 272 * count := by
  induction count generalizing current i with
  | zero => exact Nat.le_refl i
  | succ count ih =>
    have start : (m.optionAt i).start ≤ i + 2 := by
      rw [optionAt]
      split <;> simp
    have length := m.optionAt_length i
    have more := ih (current + (m i >>> 4).toNat) (m.optionAt i).stop
    rw [Slice.stop] at more
    simp only [options]
    exact Nat.le_trans more (by omega)

@[simp] theorem length_options (m : Memory) (count current i : Nat) :
    (m.options count current i).1.length = count := by
  induction count generalizing current i with
  | zero => rfl
  | succ count ih => simp only [options, List.length_cons, ih]

theorem options_code (m : Memory) (count current i : Nat) :
    optionCode.Encodes current (m.options count current i).1 ∧
      m.read i ((m.options count current i).2 - i) =
        optionCode.encode current (m.options count current i).1 := by
  induction count generalizing current i with
  | zero => exact ⟨trivial, by simp [options, read]⟩
  | succ count ih =>
    obtain ⟨encodes, bytes⟩ := ih (current + (m i >>> 4).toNat) (m.optionAt i).stop
    have stop := m.options_le count (current + (m i >>> 4).toNat) (m.optionAt i).stop
    have start := m.optionAt_lt i
    have inside : i ≤ (m.optionAt i).stop := by
      rw [Slice.stop]
      omega
    refine ⟨⟨⟨Nat.le_add_right .., ?_⟩, encodes⟩, ?_⟩
    · rw [Nat.add_sub_cancel_left]
      exact ⟨delta_lt _, by rw [Slice.text, length_read]; exact m.optionAt_length i⟩
    · simp only [options]
      rw [DistanceCode.encode, Nat.add_sub_cancel_left, ← optionAt_word, ← bytes]
      have split : (m.options count (current + (m i >>> 4).toNat) (m.optionAt i).stop).2 - i =
          ((m.optionAt i).stop - i) +
            ((m.options count (current + (m i >>> 4).toNat) (m.optionAt i).stop).2 -
              (m.optionAt i).stop) := by omega
      rw [split, read_append, Nat.add_sub_cancel' inside]

theorem options_of_encode {m : Memory} {current i : Nat} {items : List (Nat × Text)}
    (encodes : optionCode.Encodes current items)
    (bytes : m.read i (optionCode.encode current items).length = optionCode.encode current items) :
    m.options items.length current i = (items, i + (optionCode.encode current items).length) := by
  obtain ⟨encodes', bytes'⟩ := m.options_code items.length current i
  have le := m.options_le items.length current i
  generalize hw : m.options items.length current i = w at encodes' bytes' le
  obtain ⟨items', stop⟩ := w
  have count : items'.length = items.length := by
    have := m.length_options items.length current i
    rwa [hw] at this
  have enough : ∀ n, optionCode.encode current items ++ m.read (i +
      (optionCode.encode current items).length) n =
        m.read i ((optionCode.encode current items).length + n) := by
    intro n
    rw [read_append, bytes]
  have enough' : ∀ n, optionCode.encode current items' ++ m.read stop n =
      m.read i (stop - i + n) := by
    intro n
    rw [read_append, bytes', Nat.add_sub_cancel' le]
  obtain ⟨rfl, rest⟩ := DistanceCode.encode_unique encodes encodes' count.symm
    ((enough (stop - i)).trans ((congrArg _ (Nat.add_comm ..)).trans
      (enough' (optionCode.encode current items).length).symm))
  have length := congrArg List.length bytes'
  rw [length_read] at length
  rw [← length, Nat.add_sub_cancel' le]

end Memory
end EmmaNode

import EmmaNode.Exchange

/-! The messages that ask for a resource, block by block: a GET says the number and the size of the
block in its Block2 option, or asks for the first one without it. -/

namespace EmmaNode

structure BlockPart where
  num : UInt32
  size : UInt16
  num_le : num ≤ 0xFFFFF
  size_mem : size = 16 ∨ size = 32 ∨ size = 64

namespace BlockPart
variable (b : BlockPart)

def first : BlockPart := ⟨0, 64, by decide, .inr (.inr rfl)⟩

def offset : Nat := b.num.toNat * b.size.toNat

/-- A block of a given size that does not start behind the text -/
structure Within (text : Text) (size : UInt16) : Prop where
  size : b.size = size
  offset : b.offset ≤ text.length

theorem size_bounds : 16 ≤ b.size.toNat ∧ b.size.toNat ≤ 64 := by
  rcases b.size_mem with h | h | h <;> rw [h] <;> decide

theorem takes : CoapPacket.takesBlock b.num b.size := by
  refine ⟨?_, ?_, b.num_le⟩ <;> rcases b.size_mem with h | h | h <;> rw [h] <;> decide

theorem offset_toNat : (b.num * b.size.toUInt32).toNat = b.offset ∧ b.offset < 2 ^ 26 := by
  have num := UInt32.le_iff_toNat_le.mp b.num_le
  have size := b.size_bounds.2
  have small : b.num.toNat * b.size.toNat < 2 ^ 26 :=
    Nat.lt_of_le_of_lt (Nat.mul_le_mul num size) (by decide)
  refine ⟨?_, small⟩
  rw [UInt32.toNat_mul, UInt16.toNat_toUInt32, offset, Nat.mod_eq_of_lt (by omega)]

def option (more : Bool) : BlockOption := ⟨b.num, more, b.size, b.num * b.size.toUInt32⟩

theorem received (more : Bool) (offset : UInt32) :
    (⟨b.num, more, b.size, offset⟩ : BlockOption).received = b.option more := by
  have size : (16 <<< UInt16.ofNat (⟨b.num, more, b.size, offset⟩ : BlockOption).exponent : UInt16) =
      b.size := by
    obtain ⟨num, size, num_le, rfl | rfl | rfl⟩ := b
    · exact (by decide : (16 <<< UInt16.ofNat (coapLog2 (16 / 16)) : UInt16) = 16)
    · exact (by decide : (16 <<< UInt16.ofNat (coapLog2 (32 / 16)) : UInt16) = 32)
    · exact (by decide : (16 <<< UInt16.ofNat (coapLog2 (64 / 16)) : UInt16) = 64)
  rw [BlockOption.received, size, option]

def next (more : b.num.toNat + 1 ≤ 0xFFFFF) : BlockPart where
  num := b.num + 1
  size := b.size
  num_le := by
    rw [UInt32.le_iff_toNat_le, UInt32.toNat_add]
    exact Nat.le_trans (Nat.mod_le _ _) more
  size_mem := b.size_mem

theorem next_spec (more : b.num.toNat + 1 ≤ 0xFFFFF) :
    (b.next more).num.toNat = b.num.toNat + 1 ∧
      (b.next more).offset = b.offset + b.size.toNat := by
  have num : (b.next more).num.toNat = b.num.toNat + 1 := by
    change (b.num + 1).toNat = _
    rw [UInt32.toNat_add, show (1 : UInt32).toNat = 1 from rfl, Nat.mod_eq_of_lt (by omega)]
  refine ⟨num, ?_⟩
  rw [offset, num, Nat.succ_mul]
  rfl

def request (uri : Text) : Request where
  url := uri
  method := .get
  block1 := none
  payload := []
  preferredSize := b.size.toNat
  offset := b.offset
  payload_le := short_empty

end BlockPart

theorem BlockPart.request_uri (b : BlockPart) {uri : Text} (plain : PlainUri uri)
    (leaf : emmaResourceIsRoot uri = false) : (b.request uri).uri = some uri := by
  have some' : uri ≠ [] := by
    rintro rfl
    exact absurd leaf (by decide)
  rw [Request.uri, BlockPart.request, if_pos ⟨some', plain.short⟩, plain.cString]

def getMessage (uri : Text) (block : Option BlockPart) (mid : UInt16) : CoapPacket Text :=
  CoapPacket.build .con Method.get.code mid
    (.uriPath uri :: block.toList.map fun b => .block2 b.num false b.size)

namespace Node
open CoapPacket
variable {uri : Text} {block : Option BlockPart} {mid : UInt16}

theorem getMessage_some (uri : Text) (b : BlockPart) (mid : UInt16) : getMessage uri (some b) mid =
    { (initMessage .con Method.get.code mid).setHeaderUriPath uri with
      block2 := ⟨b.num, false, b.size, 0⟩ }.setOption .block2 :=
  if_pos b.takes

theorem getMessage_isOption (o : CoapOption) : (getMessage uri block mid).isOption o = true ↔
    o = .uriPath ∨ (o = .block2 ∧ block.isSome = true) := by
  cases block with
  | none =>
    cases o <;>
      simp [getMessage, build, apply, setHeaderUriPath, setOption, initMessage, CoapPacket.blank]
  | some b =>
    rw [getMessage_some]
    cases o <;> simp [setHeaderUriPath, setOption, initMessage, CoapPacket.blank]

theorem getMessage_head : (getMessage uri block mid).type = .con ∧
    (getMessage uri block mid).code = Method.get.code ∧ (getMessage uri block mid).mid = mid ∧
    (getMessage uri block mid).uriPath = strip slash uri ∧
    (getMessage uri block mid).payload = [] := by
  cases block with
  | none => exact ⟨rfl, rfl, rfl, rfl, rfl⟩
  | some b =>
    rw [getMessage_some]
    exact ⟨rfl, rfl, rfl, rfl, rfl⟩

theorem getMessage_built : (getMessage uri block mid).Built := built_build ..

theorem getMessage_present (o : CoapOption) : (getMessage uri block mid).Present o ↔
    o = .uriPath ∨ (o = .block2 ∧ block.isSome = true) := by
  rw [← @getMessage_isOption uri block mid]
  by_cases proxy : o = .proxyUri
  · subst proxy
    have unset : ¬(getMessage uri block mid).isOption .proxyUri = true := by
      rw [getMessage_isOption]
      simp
    exact ⟨fun present => absurd present.1 unset, fun set => absurd set unset⟩
  · exact getMessage_built.present proxy

theorem getMessage_written :
    CoapOption.written.filter ((getMessage uri block mid).Present ·) =
      .uriPath :: if block.isSome then [.block2] else [] := by
  have same : ∀ o ∈ CoapOption.written, decide ((getMessage uri block mid).Present o) =
      decide (o = .uriPath ∨ (o = .block2 ∧ block.isSome = true)) := fun o _ =>
    decide_eq_decide.mpr (getMessage_present o)
  rw [List.filter_congr same]
  cases block <;> rfl

theorem getMessage_near : (getMessage uri block mid).Near
    (.uriPath :: if block.isSome then [.block2] else []) where
  written := getMessage_written
  near := by split <;> decide

theorem getMessage_counted : (getMessage uri block mid).Counted := by
  rw [Counted, numbers, getMessage_written]
  split <;> decide

theorem getMessage_few (clean : CleanPath uri) (few : (split slash uri).length < 14) :
    (getMessage uri block mid).options.length < 16 := by
  have path := (@getMessage_head uri block mid).2.2.2.1
  rw [getMessage_near.options]
  cases block <;>
    simp [values, path, strip_clean clean.front] <;> omega

theorem getMessage_serialize (short : uri.length ≤ emmaMaxUriSize) :
    ∃ bytes, (getMessage uri block mid).serialize = some bytes := by
  have head := (@getMessage_head uri block mid).2.2.2.1
  have uri' : (strip slash uri).length ≤ 32 :=
    Nat.le_trans (List.dropWhile_sublist _).length_le short
  have path := spent_split slash (strip slash uri)
  have block2 := spent_intBytes (getMessage uri block mid).block2.value
  have header : coapHeaderLen = 4 := rfl
  have most : coapMaxHeaderSize = 50 := rfl
  refine serialize_of_le ?_
  rw [getMessage_near.length]
  cases block <;>
    simp only [values, head, Option.isSome, if_true, Bool.false_eq_true, if_false, List.map_cons,
      List.map_nil, List.sum_cons, List.sum_nil] at * <;> omega

theorem getMessage_option (o : CoapOption) (other : o ≠ .fencePost) :
    (getMessage uri block mid).received.isOption o =
      decide (o = .uriPath ∨ (o = .block2 ∧ block.isSome = true)) := by
  have bits : (getMessage uri block mid).received.isOption =
      Function.update (fun o => decide ((getMessage uri block mid).Present o)) .fencePost
        (getMessage uri block mid).fenced := rfl
  rw [bits, Function.update_of_ne other, decide_eq_decide]
  exact getMessage_present o

theorem getMessage_block2 (uri : Text) (b : BlockPart) (mid : UInt16) :
    (getMessage uri (some b) mid).received.block2 = b.option false := by
  have set : (getMessage uri (some b) mid).isOption .block2 = true :=
    (getMessage_isOption .block2).mpr (.inr ⟨rfl, rfl⟩)
  have value : (getMessage uri (some b) mid).received.block2 =
      if (getMessage uri (some b) mid).isOption .block2 then
        (getMessage uri (some b) mid).block2.received else .zero := rfl
  rw [value, if_pos set, getMessage_some]
  exact b.received false 0

theorem getMessage_request (clean : CleanPath uri) :
    (getMessage uri block mid).received.blockSize = (block.getD .first).size ∧
      (getMessage uri block mid).received.blockOffset =
        (block.getD .first).num * (block.getD .first).size.toUInt32 ∧
      (getMessage uri block mid).received.request .get = (block.getD .first).request uri := by
  have option := @getMessage_option uri block mid
  have url : (getMessage uri block mid).received.url = uri := by
    rw [CoapPacket.url, option _ (by decide), if_pos (by simp)]
    change rejoin slash (getMessage uri block mid).uriPath = uri
    rw [getMessage_head.2.2.2.1, strip_clean clean.front,
      rejoin_clean clean.front clean.back clean.inside]
  have size : (getMessage uri block mid).received.blockSize = (block.getD .first).size := by
    rw [CoapPacket.blockSize, option _ (by decide)]
    cases block with
    | none => rfl
    | some b =>
      rw [if_pos (by simp), getMessage_block2]
      change min b.size 64 = b.size
      rcases b.size_mem with h | h | h <;> rw [h] <;> rfl
  have offset : (getMessage uri block mid).received.blockOffset =
      (block.getD .first).num * (block.getD .first).size.toUInt32 := by
    rw [CoapPacket.blockOffset, option _ (by decide)]
    cases block with
    | none => rfl
    | some b =>
      rw [if_pos (by simp), getMessage_block2]
      rfl
  refine ⟨size, offset, ?_⟩
  have payload : (getMessage uri block mid).received.payload = [] := getMessage_head.2.2.2.2
  obtain ⟨product, small⟩ := (block.getD .first).offset_toNat
  rw [CoapPacket.request, BlockPart.request, Request.mk.injEq]
  refine ⟨url, rfl, ?_, ?_, ?_, ?_⟩
  · rw [option _ (by decide), if_neg (by simp)]
  · rw [payload, List.take_nil]
  · rw [size]
  · rw [offset, Int32.toInt, UInt32.toBitVec_toInt32, BitVec.toInt_eq_toNat_bmod,
      UInt32.toNat_toBitVec, product, Int.bmod_eq_of_le (by omega) (by omega)]

theorem getMessage_parsed (clean : CleanPath uri) (few : (split slash uri).length < 14)
    {bytes : Text} (written : (getMessage uri block mid).serialize = some bytes) {memory : Memory}
    (holds : memory.read 0 bytes.length = bytes) :
    ∃ (m : Memory) (p : CoapPacket Slice),
      memory.parseMessage (UInt16.ofNat bytes.length) = .ok (m, p) ∧
      p.map (·.text m) = (getMessage uri block mid).received := by
  have direct : (getMessage uri block mid).isOption .proxyUri = false := by
    refine Bool.eq_false_iff.mpr fun set => ?_
    rw [getMessage_isOption] at set
    simp at set
  obtain ⟨⟨m, p⟩, parsed, read⟩ := Memory.parse_direct getMessage_built written holds
    (getMessage_few clean few) getMessage_counted direct
  exact ⟨m, p, parsed, read⟩

end Node
end EmmaNode

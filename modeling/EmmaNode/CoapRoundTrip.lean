import EmmaNode.CoapReceived

/-! A message that is put together by the setters, written and read. The header counts the options
in four bits, and the writer's count of fence-posts is not the number of those it writes. -/

namespace EmmaNode

namespace CoapPacket
variable {p : CoapPacket Text}

theorem headerByte_type : ∀ type : MessageType, ∀ n < 256,
    let first := ((0xC0 : UInt8) &&& (1 <<< (6 : UInt8))) |||
      ((0x30 : UInt8) &&& (type.bits <<< (4 : UInt8))) ||| ((0x0F : UInt8) &&& UInt8.ofNat n)
    (0xC0 &&& first) >>> 6 = 1 ∧ MessageType.ofBits ((0x30 &&& first) >>> 4) = type ∧
      (0x0F &&& first).toNat = n % 16 := by
  intro type
  cases type <;> decide +kernel

theorem mid_bytes (mid : UInt16) :
    ((mid >>> 8).toUInt8.toUInt16 <<< 8) ||| mid.toUInt8.toUInt16 = mid := by
  have small := mid.toNat_lt
  have high : (mid >>> 8).toUInt8.toUInt16.toNat = mid.toNat / 256 := by
    simp only [UInt8.toNat_toUInt16, UInt16.toNat_toUInt8, UInt16.toNat_shiftRight]
    change (_ >>> 8) % _ = _
    rw [Nat.shiftRight_eq_div_pow]
    omega
  have low : mid.toUInt8.toUInt16.toNat = mid.toNat % 2 ^ 8 := by simp
  rw [← UInt16.toNat_inj, UInt16.toNat_or, UInt16.toNat_shiftLeft, high, low]
  change (_ <<< 8) % 2 ^ 16 ||| _ = _
  rw [Nat.mod_eq_of_lt (by rw [Nat.shiftLeft_eq]; omega),
    ← Nat.shiftLeft_add_eq_or_of_lt (Nat.mod_lt _ (by decide)), Nat.shiftLeft_eq]
  omega

theorem header_read {m : Memory} {count : UInt8} (holds : m.read 0 coapHeaderLen = p.header count) :
    (0xC0 &&& m 0) >>> 6 = 1 ∧ (0x0F &&& m 0).toNat = count.toNat % 16 ∧
      m.header.map (·.text m) = p.seen (fun _ => false) false := by
  have bytes : m.read 0 coapHeaderLen = [m 0, m 1, m 2, m 3] := rfl
  rw [bytes, header] at holds
  obtain ⟨h₀, h₁, h₂, h₃⟩ : m 0 = _ ∧ m 1 = p.code ∧ m 2 = (p.mid >>> 8).toUInt8 ∧
    m 3 = p.mid.toUInt8 := by simpa using holds
  obtain ⟨version, type, low⟩ := headerByte_type p.type count.toNat count.toNat_lt
  rw [UInt8.ofNat_toNat] at version type low
  have mid : ((m 2).toUInt16 <<< 8 ||| (m 3).toUInt16) = p.mid := by
    rw [h₂, h₃]
    exact mid_bytes p.mid
  rw [← h₀] at version type low
  refine ⟨version, low, ?_⟩
  rw [Memory.header, type, h₁, mid]
  simp [seen, map, blank, Slice.null]

theorem message_serialize (h : p.Built) {bytes : Text} (written : p.serialize = some bytes)
    {m : Memory} (holds : m.read 0 bytes.length = bytes)
    (counted : (0x0F &&& m 0).toNat = p.options.length) :
    m.message (UInt16.ofNat bytes.length) =
      if p.Present .proxyUri then .error .proxyingNotSupported else .ok p.received := by
  obtain ⟨option, -⟩ := p.serializeOptions_spec
  rw [← options] at option
  rw [serialize] at written
  split at written
  case isFalse => cases written
  rename_i small
  obtain rfl := Option.some.inj written
  -- the three parts of the datagram
  have four : (p.header p.serializeOptions.optionCount).length = coapHeaderLen := rfl
  have chunk := h.chunk
  have header : coapHeaderLen = 4 := rfl
  have most : coapMaxHeaderSize = 50 := rfl
  have most' : restMaxChunkSize = 64 := rfl
  rw [List.length_append, List.length_append, four, Memory.read_append, Memory.read_append] at holds
  obtain ⟨holds, payload⟩ := List.append_inj holds (by simp [four])
  obtain ⟨head, middle⟩ := List.append_inj holds (by simp [four])
  obtain ⟨version, -, fields⟩ := header_read head
  rw [Nat.zero_add] at middle payload
  rw [option] at middle payload small
  have encodes : optionCode.Encodes 0 p.options := by
    refine p.items_encodes CoapOption.written_pairwise (fun o _ => Nat.zero_le _) fun x hx => ?_
    have := (length_items_le p.options 0).2 x hx
    omega
  have length : (UInt16.ofNat (coapHeaderLen + (optionCode.encode 0 p.options).length +
      p.payload.length) - UInt16.ofNat (coapHeaderLen +
        (optionCode.encode 0 p.options).length)).toNat = p.payload.length := by
    rw [UInt16.ofNat_add, UInt16.add_comm, UInt16.add_sub_cancel, UInt16.toNat_ofNat',
      Nat.mod_eq_of_lt (by omega)]
  rw [Memory.message, if_neg (not_not.mpr version), Memory.optionsOf, counted,
    Memory.options_of_encode encodes middle, fields, List.length_append, List.length_append, four,
    option]
  simp only [Memory.payloadAt, Slice.text, length]
  rw [Nat.min_eq_right chunk, payload]
  split
  · rename_i proxied
    obtain ⟨current, front⟩ := p.items_append [.contentType, .maxAge]
      [.proxyUri, .etag, .uriHost, .locationPath, .uriPort, .locationQuery, .uriPath, .observe,
        .token, .accept, .ifMatch, .uriQuery, .block2, .block1, .ifNoneMatch] 0
    have split : p.options = p.items 0 [.contentType, .maxAge] ++ _ := front
    rw [split, takeOptions_append, take_items h 0 (by simp) (by decide) (fun _ _ => rfl)]
    exact congrArg _ (take_proxy current _ proxied)
  · rename_i direct
    have read := @take_items p (fun _ => false) false h CoapOption.written 0
      (fun o _ present same => direct (same ▸ present)) (by decide) (fun _ _ => rfl)
    rw [← options] at read
    rw [read]
    refine congrArg Except.ok ?_
    rw [Bool.false_or]
    exact seen_all h fun o other => by cases o <;> first | rfl | exact absurd rfl other

theorem count_serialize {bytes : Text} (written : p.serialize = some bytes) {m : Memory}
    (holds : m.read 0 bytes.length = bytes) :
    (0x0F &&& m 0).toNat = (p.options.length + p.slips 0 CoapOption.written) % 16 ∧
      p.slips 0 CoapOption.written ≤ 1 := by
  rw [serialize] at written
  split at written
  case isFalse => cases written
  rename_i small
  obtain rfl := Option.some.inj written
  have four : (p.header p.serializeOptions.optionCount).length = coapHeaderLen := rfl
  rw [List.length_append, List.length_append, four, Memory.read_append, Memory.read_append] at holds
  obtain ⟨holds, -⟩ := List.append_inj holds (by simp [four])
  obtain ⟨head, -⟩ := List.append_inj holds (by simp [four])
  obtain ⟨-, count, -⟩ := header_read head
  obtain ⟨total, one, -⟩ := p.optionCount_eq (by omega)
  rw [count, total]
  exact ⟨rfl, one⟩

/-- The distances at which the options of a message are counted as they are written -/
def Counted (p : CoapPacket Text) : Prop :=
  (0 :: p.numbers CoapOption.written).IsChain fun c n => n ≠ c + 14 ∧ n ≠ c + 15

instance : Decidable p.Counted := inferInstanceAs (Decidable (List.IsChain ..))

/-- The parser is told of one option too many when a distance is fourteen or fifteen, and sixteen
options count as none. -/
theorem told_serialize {bytes : Text} (written : p.serialize = some bytes) {m : Memory}
    (holds : m.read 0 bytes.length = bytes) :
    (0x0F &&& m 0).toNat = (p.options.length + if p.Counted then 0 else 1) % 16 := by
  obtain ⟨count, one⟩ := count_serialize written holds
  have none := p.slips_eq_zero CoapOption.written 0
  rw [count]
  split
  · rw [none.mpr ‹_›]
  · have some' : p.slips 0 CoapOption.written ≠ 0 := fun h => absurd (none.mp h) ‹_›
    rw [show p.slips 0 CoapOption.written = 1 by omega]

/-- A request with nothing but a query -/
theorem told_serialize_query :
    ∃ bytes : Text, (build .con 1 7 [.uriQuery [97]]).serialize = some bytes ∧
      (0x0F &&& bytes.getD 0 0).toNat = 2 :=
  ⟨_, rfl, (@told_serialize (build .con 1 7 [.uriQuery [97]]) _ rfl (fun i => List.getD _ i 0)
    rfl).trans (by decide +kernel)⟩

end CoapPacket

namespace Memory

theorem parse_serialize {p : CoapPacket Text} (h : p.Built) {bytes : Text} {m : Memory}
    (written : p.serialize = some bytes) (holds : m.read 0 bytes.length = bytes)
    (few : p.options.length < 16) (right : p.Counted) :
    Except.Both (fun made q => made.2.map (·.text made.1) = q)
      (m.parseMessage (UInt16.ofNat bytes.length))
      (if p.Present .proxyUri then .error .proxyingNotSupported else .ok p.received) := by
  have counted := (CoapPacket.count_serialize written holds).1
  rw [(p.slips_eq_zero CoapOption.written 0).mpr right, Nat.add_zero, Nat.mod_eq_of_lt few] at counted
  rw [← CoapPacket.message_serialize h written holds counted]
  exact (m.parseMessage_refines _).mono fun _ _ h => h.1

theorem parse_direct {p : CoapPacket Text} (h : p.Built) {bytes : Text} {m : Memory}
    (written : p.serialize = some bytes) (holds : m.read 0 bytes.length = bytes)
    (few : p.options.length < 16) (right : p.Counted) (direct : p.isOption .proxyUri = false) :
    ∃ made, m.parseMessage (UInt16.ofNat bytes.length) = .ok made ∧
      made.2.map (·.text made.1) = p.received := by
  have both := parse_serialize h written holds few right
  rw [if_neg fun present => absurd (direct ▸ present.1) Bool.false_ne_true] at both
  generalize hr : m.parseMessage (UInt16.ofNat bytes.length) = result at both
  cases both with
  | ok same => exact ⟨_, rfl, same⟩

/-- A message of the setters is read as it was made, unless it has sixteen options or miscounts
them. -/
theorem parseMessage_build {type : MessageType} {code : UInt8} {mid : UInt16}
    {settings : List Setting} {p : CoapPacket Text} {bytes : Text} {m : Memory}
    (built : CoapPacket.build type code mid settings = p) (written : p.serialize = some bytes)
    (holds : m.read 0 bytes.length = bytes) (few : p.options.length < 16) (right : p.Counted) :
    Except.Both (fun made q => made.2.map (·.text made.1) = q)
      (m.parseMessage (UInt16.ofNat bytes.length))
      (if p.Present .proxyUri then .error .proxyingNotSupported else .ok p.received) :=
  parse_serialize (built ▸ CoapPacket.built_build type code mid settings) written holds few right

end Memory

/-- A request with a token, a path, a block and a payload -/
theorem parseMessage_build_put :
    ∃ bytes, (CoapPacket.build .con 3 7 [.token [1], .uriPath [97, 47, 98], .block1 2 false 64,
        .payload [99]]).serialize = some bytes ∧
      Except.Both (fun made q => made.2.map (·.text made.1) = q)
        (Memory.parseMessage (fun i => bytes.getD i 0) (UInt16.ofNat bytes.length))
        (.ok (CoapPacket.build .con 3 7 [.token [1], .uriPath [97, 47, 98], .block1 2 false 64,
          .payload [99]]).received) :=
  ⟨_, rfl, @Memory.parseMessage_build .con 3 7 [.token [1], .uriPath [97, 47, 98],
    .block1 2 false 64, .payload [99]] _ _ _ rfl rfl rfl (by decide +kernel) (by decide +kernel)⟩

end EmmaNode

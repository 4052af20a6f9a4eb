import EmmaNode.ClientRequests
import EmmaNode.CoapRoundTrip
import EmmaNode.EngineRefines

/-! The messages of the client's requests. Of the fifty bytes in front of the payload a request
never takes more than forty-nine, so that every request is sent. -/

namespace EmmaNode

def spent (value : Text) : Nat := value.length + if value.length < 15 then 1 else 2

theorem length_encode (current : Nat) (items : List (Nat × Text)) :
    (optionCode.encode current items).length = (items.map fun x => spent x.2).sum := by
  induction items generalizing current with
  | nil => rfl
  | cons x items ih =>
    rw [DistanceCode.encode, List.length_append, ih, List.map_cons, List.sum_cons]
    simp only [optionCode, optionHeader, spent, List.length_append]
    split <;> simp only [List.length_cons, List.length_nil] <;> omega

theorem splitParts_sum (c : UInt8) (fuel : Nat) (part s : Text) :
    ((splitParts c fuel part s).map fun part => part.length + 1).sum ≤
      part.length + s.length + 1 := by
  induction fuel generalizing part s with
  | zero => simp [splitParts]
  | succ fuel ih =>
    cases s with
    | nil => simp [splitParts]
    | cons first rest =>
      rw [splitParts]
      split
      · have skipped := (List.dropWhile_sublist (l := rest) (· = slash)).length_le
        rw [List.map_cons, List.sum_cons]
        split
        · simp
        · rename_i second rest' eq
          have := ih [second] rest'
          rw [eq] at skipped
          simp only [List.length_cons, List.length_nil] at *
          omega
      · have := ih (part ++ [first]) rest
        simp only [List.length_append, List.length_cons, List.length_nil] at *
        omega

theorem spent_sum (values : List Text) :
    (values.map spent).sum ≤ (values.map fun value => value.length + 1).sum +
      (values.map fun value => value.length + 1).sum / 16 := by
  induction values with
  | nil => simp
  | cons value values ih =>
    simp only [List.map_cons, List.sum_cons, spent]
    split <;> omega

theorem spent_split (c : UInt8) (s : Text) :
    ((split c s).map spent).sum ≤ s.length + 1 + (s.length + 1) / 16 := by
  have parts := splitParts_sum c (s.length + 1) [] s
  have := spent_sum (split c s)
  rw [← split, List.length_nil] at parts
  omega

theorem spent_intBytes (value : UInt32) : spent (intBytes value) ≤ 5 := by
  have := length_intBytes value
  rw [spent]
  split <;> omega

namespace CoapPacket

theorem serialize_type {p : CoapPacket Text} {bytes : Text} (written : p.serialize = some bytes) :
    MessageType.ofBits ((0x30 &&& bytes.headD 0) >>> 4) = p.type := by
  rw [serialize] at written
  split at written
  · obtain rfl := Option.some.inj written
    obtain ⟨-, type, -⟩ := headerByte_type p.type p.serializeOptions.optionCount.toNat
      p.serializeOptions.optionCount.toNat_lt
    rw [UInt8.ofNat_toNat] at type
    exact type
  · cases written

theorem serialize_ne_nil {p : CoapPacket Text} {bytes : Text} (written : p.serialize = some bytes) :
    bytes ≠ [] := by
  rw [serialize] at written
  split at written
  · obtain rfl := Option.some.inj written
    exact List.cons_ne_nil _ _
  · cases written

theorem serialize_of_le {p : CoapPacket Text}
    (small : coapHeaderLen + p.serializeOptions.option.length ≤ coapMaxHeaderSize) :
    ∃ bytes, p.serialize = some bytes :=
  ⟨_, if_pos small⟩

theorem items_filter (p : CoapPacket Text) (current : Nat) (os : List CoapOption) :
    p.items current (os.filter (p.Present ·)) = p.items current os := by
  induction os generalizing current with
  | nil => rfl
  | cons o os ih =>
    rw [items, List.filter_cons]
    by_cases present : p.Present o
    · rw [if_pos present, if_pos (decide_eq_true present), items, if_pos present, ih]
    · rw [if_neg present, if_neg (by simpa using present), ih]

theorem options_filter (p : CoapPacket Text) {os : List CoapOption}
    (h : CoapOption.written.filter (p.Present ·) = os) : p.options = p.items 0 os := by
  rw [options, ← h, items_filter]

/-- The options that are written, when none is so far from the one before that it takes a
fence-post -/
structure Near (p : CoapPacket Text) (os : List CoapOption) : Prop where
  written : CoapOption.written.filter (p.Present ·) = os
  near : (0 :: os.map (·.number)).IsChain fun c n => n ≤ c + 15

theorem items_near (p : CoapPacket Text) {os : List CoapOption} {current : Nat}
    (present : ∀ o ∈ os, p.Present o)
    (near : (current :: os.map (·.number)).IsChain fun c n => n ≤ c + 15) :
    p.items current os = os.flatMap fun o => (p.values o).map (o.number, ·) := by
  induction os generalizing current with
  | nil => rfl
  | cons o os ih =>
    obtain ⟨here, later⟩ := List.isChain_cons_cons.mp near
    have direct : o.fences current = [] := by
      have : o.number ≤ current + 15 := here
      rw [CoapOption.fences, if_neg (by omega)]
    rw [items, if_pos (present o List.mem_cons_self), item, direct, List.nil_append,
      List.flatMap_cons, ih (fun o' h => present o' (List.mem_cons_of_mem _ h)) later]

namespace Near
variable {p : CoapPacket Text} {os : List CoapOption}

theorem options (h : p.Near os) : p.options = os.flatMap fun o => (p.values o).map (o.number, ·) := by
  have present : ∀ o ∈ os, p.Present o := by
    intro o member
    rw [← h.written] at member
    exact of_decide_eq_true (List.mem_filter.mp member).2
  rw [options_filter p h.written, items_near p present h.near]

theorem length (h : p.Near os) : p.serializeOptions.option.length =
    (os.map fun o => ((p.values o).map spent).sum).sum := by
  rw [(serializeOptions_spec p).1, ← CoapPacket.options, length_encode, h.options,
    List.map_flatMap, List.flatMap_def, List.sum_flatten]
  simp [Function.comp_def]

end Near
end CoapPacket

namespace Node
open CoapPacket

def asks (blockNum : UInt32) : Bool := 0 < blockNum && blockNum ≤ 0xFFFFF

variable (request : ClientRequest) (blockNum : UInt32) (mid : UInt16)

def plainMessage : CoapPacket Text :=
  (((initMessage .con request.method.code mid).setHeaderUriPath request.uri).setHeaderBlock1
    request.block1.num request.block1.more request.block1.size).setPayload request.payload

theorem requestMessage_eq : requestMessage request blockNum mid =
    if asks blockNum then
      (plainMessage request mid).setHeaderBlock2 blockNum false restMaxChunkSize.toUInt16
    else plainMessage request mid := by
  have built : requestMessage request blockNum mid =
      if 0 < blockNum then
        (plainMessage request mid).setHeaderBlock2 blockNum false restMaxChunkSize.toUInt16
      else plainMessage request mid := by
    rw [requestMessage]
    split <;> rfl
  rw [built]
  by_cases small : blockNum ≤ 0xFFFFF
  · simp only [asks, small, decide_true, Bool.and_true, decide_eq_true_eq]
  · -- a block with a number like this is not asked for
    have refused : (plainMessage request mid).setHeaderBlock2 blockNum false
        restMaxChunkSize.toUInt16 = plainMessage request mid := if_neg fun h => small h.2.2
    rw [refused, ite_self, ite_self]

variable {request}

theorem requestMessage_isOption (fits : request.Fits) (o : CoapOption) :
    (requestMessage request blockNum mid).isOption o = true ↔
      o = .uriPath ∨ (o = .block2 ∧ asks blockNum = true) ∨ o = .block1 := by
  have taken : asks blockNum = true → takesBlock blockNum restMaxChunkSize.toUInt16 := fun h =>
    ⟨by decide, by decide, of_decide_eq_true (Bool.and_eq_true_iff.mp h).2⟩
  rw [requestMessage_eq]
  split
  · rename_i asked
    rw [setHeaderBlock2, if_pos (taken asked), plainMessage, setHeaderBlock1, if_pos fits.takesBlock]
    cases o <;> simp [setHeaderUriPath, setPayload, setOption, initMessage, CoapPacket.blank, asked]
  · rename_i asked
    rw [plainMessage, setHeaderBlock1, if_pos fits.takesBlock]
    cases o <;> simp [setHeaderUriPath, setPayload, setOption, initMessage, CoapPacket.blank, asked]

theorem requestMessage_built : (requestMessage request blockNum mid).Built :=
  built_build ..

theorem requestMessage_present (fits : request.Fits) (o : CoapOption) :
    (requestMessage request blockNum mid).Present o ↔
      o = .uriPath ∨ (o = .block2 ∧ asks blockNum = true) ∨ o = .block1 := by
  rw [← requestMessage_isOption blockNum mid fits o]
  by_cases proxy : o = .proxyUri
  · subst proxy
    have unset : ¬(requestMessage request blockNum mid).isOption .proxyUri = true := by
      rw [requestMessage_isOption blockNum mid fits]
      simp
    exact ⟨fun present => absurd present.1 unset, fun set => absurd set unset⟩
  · exact (requestMessage_built blockNum mid).present proxy

theorem requestMessage_uriPath :
    (requestMessage request blockNum mid).uriPath = strip slash request.uri := by
  have plain : (plainMessage request mid).uriPath = strip slash request.uri := by
    rw [plainMessage, setHeaderBlock1]
    split <;> rfl
  rw [requestMessage_eq]
  split
  · rw [setHeaderBlock2]
    split
    · exact plain
    · exact plain
  · exact plain

def requestOptions (blockNum : UInt32) : List CoapOption :=
  if asks blockNum then [.uriPath, .block2, .block1] else [.uriPath, .block1]

theorem requestMessage_written (fits : request.Fits) :
    CoapOption.written.filter ((requestMessage request blockNum mid).Present ·) =
      requestOptions blockNum := by
  have same : ∀ o ∈ CoapOption.written, decide ((requestMessage request blockNum mid).Present o) =
      decide (o = .uriPath ∨ (o = .block2 ∧ asks blockNum = true) ∨ o = .block1) := fun o _ =>
    decide_eq_decide.mpr (requestMessage_present blockNum mid fits o)
  rw [List.filter_congr same, requestOptions]
  cases asks blockNum <;> rfl

theorem requestMessage_near (fits : request.Fits) :
    (requestMessage request blockNum mid).Near (requestOptions blockNum) where
  written := requestMessage_written blockNum mid fits
  near := by
    rw [requestOptions]
    split <;> decide

theorem requestMessage_length (fits : request.Fits) :
    (requestMessage request blockNum mid).serializeOptions.option.length ≤ 45 := by
  have uri : (strip slash request.uri).length ≤ 32 :=
    Nat.le_trans (List.dropWhile_sublist _).length_le fits.uri
  have path := spent_split slash (strip slash request.uri)
  have block1 := spent_intBytes (requestMessage request blockNum mid).block1.value
  have block2 := spent_intBytes (requestMessage request blockNum mid).block2.value
  rw [(requestMessage_near blockNum mid fits).length, requestOptions]
  split <;>
    simp only [values, requestMessage_uriPath, List.map_cons, List.map_nil, List.sum_cons,
      List.sum_nil] <;> omega

theorem requestMessage_serialize (fits : request.Fits) :
    ∃ bytes, (requestMessage request blockNum mid).serialize = some bytes := by
  have small := requestMessage_length blockNum mid fits
  have header : coapHeaderLen = 4 := rfl
  have most : coapMaxHeaderSize = 50 := rfl
  exact serialize_of_le (by omega)

theorem requestMessage_head : (requestMessage request blockNum mid).type = .con ∧
    (requestMessage request blockNum mid).code = request.method.code ∧
    (requestMessage request blockNum mid).mid = mid := by
  have plain : (plainMessage request mid).type = .con ∧
      (plainMessage request mid).code = request.method.code ∧ (plainMessage request mid).mid = mid := by
    rw [plainMessage, setHeaderBlock1]
    split
    · exact ⟨rfl, rfl, rfl⟩
    · exact ⟨rfl, rfl, rfl⟩
  rw [requestMessage_eq]
  split
  · rw [setHeaderBlock2]
    split
    · exact plain
    · exact plain
  · exact plain

end Node
end EmmaNode

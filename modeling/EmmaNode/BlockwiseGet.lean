import EmmaNode.GetFrame
import EmmaNode.GetMessages
import EmmaNode.Transfer

/-! A resource that is read over the network block by block. The handler reads on from the offset
of the block, the engine says whether there is more, and the loop of the blocking request asks on
until there is not. -/

namespace EmmaNode

def Store.textOf (st : Store) (uri : Text) : Option Text :=
  (st.slotOf uri).bind fun slot =>
    match emmaGetRoot uri with
    | some .agent => st.files (st.agents slot).memoryIndex
    | some .resource => some (decimal (st.values slot).toNat)
    | _ => none

/-- A resource that is not locked, and its text -/
structure Store.Readable (st : Store) (uri text : Text) : Prop where
  text : st.textOf uri = some text
  leaf : emmaResourceIsRoot uri = false
  free : ∀ i, st.tree.resolve uri = some i → st.mutex i = .released

theorem Store.Readable.other {st : Store} {uri text : Text} (readable : st.Readable uri text) :
    uri ≠ Node.wellKnownCore := by
  rintro rfl
  have none' : st.textOf Node.wellKnownCore = none := rfl
  cases none'.symm.trans readable.text

def blockOf (text : Text) (size offset : Nat) : Text := (text.drop offset).take size

theorem length_blockOf (text : Text) (size offset : Nat) :
    (blockOf text size offset).length = min size (text.length - offset) := by
  rw [blockOf, List.length_take, List.length_drop]

/-- A reply with a block of a text -/
structure Reply.Slice (r : Reply) (text : Text) (size offset : Nat) : Prop where
  status : r.status = some .ok
  kept : r.dropped = false
  plain : r.block1 = none
  payload : ∃ result, r.payload = some result ∧
    result.returned = ((blockOf text size offset).length : Nat) ∧
    result.bytes.take (blockOf text size offset).length = blockOf text size offset
  offset : r.offset =
    if (blockOf text size offset).length < size then -1 else ((offset + size : Nat) : Int)

namespace State
variable {P : Platform} {s t : State} {uri text : Text}

theorem read_blockOf (readable : s.store.textOf uri = some text) {size offset : Nat}
    (small : offset < 2 ^ P.intBits) :
    (s.emmaResourceRead P uri size offset).2.returned = ((blockOf text size offset).length : Nat) ∧
      (s.emmaResourceRead P uri size offset).2.bytes.take (blockOf text size offset).length =
        blockOf text size offset := by
  obtain ⟨slot, hslot, text⟩ := Option.bind_eq_some_iff.mp readable
  obtain ⟨i, hi, hdata⟩ := Option.bind_eq_some_iff.mp hslot
  obtain ⟨root, hroot, hi'⟩ := Option.bind_eq_some_iff.mp hi
  simp only [emmaResourceRead, Store.emmaResourceRead, hroot, hi', hdata,
    Option.getD_some] at text ⊢
  cases root with
  | agent =>
    have ahead : ¬((offset : Int) < 0) := by omega
    simp only [Store.rootAgentRead, text, ahead, if_false, Int.toNat_natCast]
    exact ⟨rfl, List.take_length⟩
  | resource =>
    obtain rfl := Option.some.inj text
    simp only [Store.rootResourceRead, P.unsigned_nat small]
    refine ⟨rfl, ?_⟩
    split
    · rename_i empty
      rw [blockOf, empty]
      rfl
    · exact List.take_length
  | system => cases text

theorem get_slice {rq : Request} {offset : Nat} (get : rq.method = .get) (asked : rq.uri = some uri)
    (at' : rq.offset = offset) (readable : s.store.Readable uri text)
    (small : offset < 2 ^ P.intBits) (size : rq.preferredSize < 65536) :
    (s.emmaServerHandler P rq).2.Slice text rq.preferredSize offset := by
  obtain ⟨slot, hslot, -⟩ := Option.bind_eq_some_iff.mp readable.text
  obtain ⟨i, there, -⟩ := Option.bind_eq_some_iff.mp hslot
  have free : ¬s.store.mutex i = .locked := by
    rw [readable.free i there]
    decide
  have locks : s.lock uri = ({ s with
      store := { s.store with mutex := Function.update s.store.mutex i .locked } }, true) := by
    simp only [lock, Store.emmaResourceLock, there, if_neg free]
  set t : State := { s with
    store := { s.store with mutex := Function.update s.store.mutex i .locked } } with ht
  have stays : t.resolve uri = some i := there
  have text' : t.store.textOf uri = some text := readable.text
  obtain ⟨returned, bytes⟩ := @read_blockOf P { t with
    stack := if emmaGetRoot uri = some .resource then t.stack.clean else t.stack } uri text text'
      rq.preferredSize offset small
  have count := length_blockOf text rq.preferredSize offset
  have whole : (UInt16.ofInt ((blockOf text rq.preferredSize offset).length : Nat)).toNat =
      (blockOf text rq.preferredSize offset).length := toNat_ofInt (by omega)
  rw [emmaServerHandler, asked]
  simp only [get]
  rw [handleGet, if_neg (by rw [readable.leaf]; exact Bool.false_ne_true), handleRead, locks]
  simp only [emmaResourceOpen_there stays, at', finish]
  refine ⟨rfl, rfl, rfl, ⟨_, rfl, ?_, ?_⟩, ?_⟩
  · rw [returned, whole]
  · exact bytes
  · rw [returned, whole]
    rfl

theorem get_keeps {rq : Request} (get : rq.method = .get) (asked : rq.uri = some uri)
    (leaf : emmaResourceIsRoot uri = false) : s.Keeps (s.emmaServerHandler P rq).1 := by
  rw [emmaServerHandler, asked]
  simp only [get]
  rw [handleGet, if_neg (by rw [leaf]; exact Bool.false_ne_true)]
  exact s.keeps_handleRead rq uri _

end State

def blockMessage (text : Text) (b : BlockPart) (mid : UInt16) : CoapPacket Text :=
  let payload := blockOf text b.size.toNat b.offset
  { CoapPacket.initMessage .ack Status.ok.code mid with payload }.setHeaderBlock2 b.num
    (decide (b.size.toNat ≤ payload.length)) b.size

structure CoapPacket.HasBlock (p : CoapPacket Text) (text : Text) (b : BlockPart) : Prop where
  code : p.code = Status.ok.code
  asked : p.isOption .block2 = true
  option : p.block2 =
    b.option (decide (b.size.toNat ≤ (blockOf text b.size.toNat b.offset).length))
  payload : p.payload = blockOf text b.size.toNat b.offset

namespace Node
open CoapPacket
variable {uri : Text} {block : Option BlockPart} {mid : UInt16}

theorem respond_slice {P : Platform} {r : Reply} {text : Text} {size offset : Nat}
    (slice : r.Slice text size offset) (chunk : size ≤ restMaxChunkSize) (buffer : Text)
    (p : CoapPacket Text) :
    r.respond P buffer p =
      { p with payload := blockOf text size offset, code := Status.ok.code } := by
  obtain ⟨result, payload, returned, bytes⟩ := slice.payload
  have count := length_blockOf text size offset
  have small : (blockOf text size offset).length < 2 ^ P.intBits := by
    have bits := P.pow_intBits
    have : restMaxChunkSize = 64 := rfl
    omega
  have whole : coapSetPayload P (result.bytes ++ buffer.drop result.bytes.length) result.returned =
      blockOf text size offset := by
    rw [coapSetPayload, returned, P.unsigned_nat small, Nat.min_eq_right (by omega),
      List.take_append_of_le_length, bytes]
    rw [← bytes, List.length_take]
    exact Nat.min_le_right _ _
  simp only [Reply.respond, slice.plain, slice.status, slice.kept, payload, whole, setStatusCode]
  rfl

theorem blockwise_slice {message response : CoapPacket Text} {newOffset : UInt32} {b : BlockPart}
    (single : message.isOption .block1 = false) (size : message.blockSize = b.size)
    (offset : message.blockOffset = b.num * b.size.toUInt32)
    (asked : message.isOption .block2 = true → message.block2.num = b.num)
    (silent : message.isOption .block2 = false → b = .first)
    (short : response.payload.length ≤ b.size.toNat)
    (moved : newOffset.toNat =
      if response.payload.length < b.size.toNat then 2 ^ 32 - 1 else b.offset + b.size.toNat) :
    message.blockwise response newOffset = .ok (response.setHeaderBlock2 b.num
      (decide (b.size.toNat ≤ response.payload.length)) b.size) := by
  obtain ⟨product, small⟩ := b.offset_toNat
  obtain ⟨low, high⟩ := b.size_bounds
  have last : newOffset ≠ 0xFFFFFFFF ↔ b.size.toNat ≤ response.payload.length := by
    rw [Ne, ← UInt32.toNat_inj, moved, show (0xFFFFFFFF : UInt32).toNat = 2 ^ 32 - 1 from rfl]
    split <;> omega
  have on : newOffset ≠ message.blockOffset := by
    rw [Ne, ← UInt32.toNat_inj, offset, product, moved]
    split <;> omega
  rw [CoapPacket.blockwise]
  simp only [single, Bool.false_eq_true, false_and, if_false, size, if_neg on]
  split
  · rename_i set
    have whole : ¬b.size.toNat < response.payload.length := Nat.not_lt.mpr short
    simp only [asked set, last, whole, or_false, if_false]
  · rename_i unset
    obtain rfl := silent (Bool.eq_false_iff.mpr unset)
    have past : newOffset ≠ 0 := by
      rw [Ne, ← UInt32.toNat_inj, moved, show (0 : UInt32).toNat = 0 from rfl]
      split <;> omega
    have whole : response.payload.take restMaxChunkSize = response.payload :=
      List.take_of_length_le short
    rw [if_pos past, whole]
    simp only [last, setPayload, setHeaderBlock2, if_pos BlockPart.first.takes]
    congr 2

theorem blockMessage_eq (text : Text) (b : BlockPart) (mid : UInt16) : blockMessage text b mid =
    { initMessage .ack Status.ok.code mid with
      payload := blockOf text b.size.toNat b.offset
      block2 := ⟨b.num, decide (b.size.toNat ≤ (blockOf text b.size.toNat b.offset).length),
        b.size, 0⟩ }.setOption .block2 :=
  if_pos b.takes

theorem blockMessage_isReply (text : Text) (b : BlockPart) (mid : UInt16) :
    (blockMessage text b mid).IsReply := by
  have chunk : (blockOf text b.size.toNat b.offset).length ≤ restMaxChunkSize := by
    rw [length_blockOf]
    exact Nat.le_trans (Nat.min_le_left _ _) b.size_bounds.2
  have start : (initMessage .ack Status.ok.code mid).IsReply := isReply_init mid (.inl rfl) rfl
  have filled : IsReply { initMessage .ack Status.ok.code mid with
      payload := blockOf text b.size.toNat b.offset } :=
    { start with built := { start.built with chunk := chunk } }
  exact filled.setHeaderBlock2 _ _ _

theorem blockMessage_received (text : Text) (b : BlockPart) (mid : UInt16) :
    (blockMessage text b mid).received.HasBlock text b := by
  have set : (blockMessage text b mid).isOption .block2 = true := by
    rw [blockMessage_eq]
    simp [setOption]
  have present : (blockMessage text b mid).Present .block2 :=
    ((blockMessage_isReply text b mid).built.present (by decide)).mpr set
  have bits : (blockMessage text b mid).received.isOption =
      Function.update (fun o => decide ((blockMessage text b mid).Present o)) .fencePost
        (blockMessage text b mid).fenced := rfl
  have value : (blockMessage text b mid).received.block2 =
      if (blockMessage text b mid).isOption .block2 then
        (blockMessage text b mid).block2.received else .zero := rfl
  refine ⟨?_, ?_, ?_, ?_⟩
  · change (blockMessage text b mid).code = _
    rw [blockMessage_eq]
    rfl
  · rw [bits, Function.update_of_ne (by decide)]
    exact decide_eq_true present
  · rw [value, if_pos set, blockMessage_eq]
    exact b.received _ 0
  · change (blockMessage text b mid).payload = _
    rw [blockMessage_eq]
    rfl

theorem slice_offset {r : Reply} {text : Text} {b : BlockPart}
    (slice : r.Slice text b.size.toNat b.offset) : (UInt32.ofInt r.offset).toNat =
      if (blockOf text b.size.toNat b.offset).length < b.size.toNat then 2 ^ 32 - 1
        else b.offset + b.size.toNat := by
  have high := b.size_bounds.2
  have small := b.offset_toNat.2
  rw [slice.offset]
  split
  · rfl
  · have fits : ((b.offset + b.size.toNat : Nat) : Int) % 2 ^ 32 =
        ((b.offset + b.size.toNat : Nat) : Int) := Int.emod_eq_of_lt (by omega) (by omega)
    rw [UInt32.ofInt, fits, Int.toNat_natCast, UInt32.toNat_ofNat', Nat.mod_eq_of_lt (by omega)]

theorem prepare_getMessage (n : Node) : n.prepare (getMessage uri block mid).received =
    initMessage .ack Status.ok.code mid := by
  have type : (getMessage uri block mid).received.type = .con := getMessage_head.1
  have mid' : (getMessage uri block mid).received.mid = mid := getMessage_head.2.2.1
  rw [prepare, responseMid, if_pos type, if_pos type, mid', getMessage_option _ (by decide),
    if_neg (by simp)]

theorem reply_block {P : Platform} {n : Node} {text : Text} {buffer : Text}
    (clean : CleanPath uri) (other : uri ≠ wellKnownCore)
    (slice : (n.system.shared.emmaServerHandler P ((block.getD .first).request uri)).2.Slice text
      (block.getD .first).size.toNat (block.getD .first).offset) :
    (n.response P (getMessage uri block mid).received .get buffer).mid = mid ∧
      n.reply P (getMessage uri block mid).received .get buffer =
        blockMessage text (block.getD .first) mid := by
  set b := block.getD .first with hb
  obtain ⟨size, offset, request⟩ := @getMessage_request uri block mid clean
  have option := @getMessage_option uri block mid
  have url : (getMessage uri block mid).received.url = uri := congrArg Request.url request
  have cbk : n.serviceCbk P (getMessage uri block mid).received .get buffer
      (n.prepare (getMessage uri block mid).received) =
        ({ n.system with shared := (n.system.shared.emmaServerHandler P (b.request uri)).1 },
          { initMessage .ack Status.ok.code mid with
            payload := blockOf text b.size.toNat b.offset },
          UInt32.ofInt (n.system.shared.emmaServerHandler P (b.request uri)).2.offset) := by
    rw [serviceCbk, url, invoke_other other]
    simp only [request]
    rw [prepare_getMessage, respond_slice slice b.size_bounds.2]
    rfl
  have response : n.response P (getMessage uri block mid).received .get buffer =
      { initMessage .ack Status.ok.code mid with
        payload := blockOf text b.size.toNat b.offset } := by
    rw [Node.response, cbk]
  have count := length_blockOf text b.size.toNat b.offset
  refine ⟨by rw [response]; rfl, ?_⟩
  rw [Node.reply, concluded, cbk, response, blockwise_slice (b := b) ?_ size offset ?_ ?_ ?_
    (slice_offset slice)]
  · rfl
  · rw [option _ (by decide)]
    simp
  · rw [option _ (by decide)]
    intro asked
    cases block with
    | none => simp at asked
    | some b =>
      rw [getMessage_block2]
      rfl
  · rw [option _ (by decide)]
    intro silent
    cases block with
    | none => rfl
    | some b => simp at silent
  · exact count ▸ Nat.min_le_left _ _

variable {P : Platform} {m : Node} {d : Incoming} {text buffer bytes : Text}

theorem get_block (so : m.system.shared.Sound) (calm : m.hung = false) (plain : PlainUri uri)
    (readable : m.system.shared.store.Readable uri text)
    (within : (block.getD .first).offset < 2 ^ P.intBits)
    (written : (getMessage uri block mid).serialize = some bytes) (carries : d.Carries bytes)
    (room : (m.transactions.newTransaction mid d.address d.port).isSome = true)
    (valid : mid ≠ 0xFFFF) :
    (m.coapReceive P d buffer).system.shared.store = m.system.shared.store ∧
    ∃ y : Datagram, (m.coapReceive P d buffer).sent = m.sent ++ [y] ∧ y.address = d.address ∧
      y.port = d.port ∧ (∃ p, y.Tells p) ∧
      ∀ p, y.Tells p → p.HasBlock text (block.getD .first) := by
  obtain ⟨memory, p, parsed, read⟩ := getMessage_parsed plain.clean plain.few written carries.holds
  have code : Method.ofCode p.code = some .get := by
    have same : p.code = Method.get.code := (congrArg CoapPacket.code read).trans getMessage_head.2.1
    rw [same]
    rfl
  have mid' : (getMessage uri block mid).received.mid = mid := getMessage_head.2.2.1
  rw [coapReceive_request (carries.length ▸ parsed) code, read]
  set n := m.heard (getMessage uri block mid).received with hn
  have asked := (block.getD .first).request_uri plain readable.leaf
  have slice : (n.system.shared.emmaServerHandler P ((block.getD .first).request uri)).2.Slice text
      (block.getD .first).size.toNat (block.getD .first).offset :=
    State.get_slice rfl asked rfl readable within (block.getD .first).size.toNat_lt
  obtain ⟨silent, reply⟩ := @reply_block uri block mid P n text buffer plain.clean
    readable.other slice
  obtain ⟨⟨i, transactions⟩, new⟩ := Option.isSome_iff_exists.mp room
  have new' : n.transactions.newTransaction (getMessage uri block mid).received.mid d.address
      d.port = some (i, transactions) := by
    rw [mid']
    exact new
  have kept :
      cancelled P (n.response P (getMessage uri block mid).received .get buffer) = false := by
    rw [cancelled, silent, decide_eq_false valid, Bool.and_false]
  obtain ⟨-, -, request⟩ := @getMessage_request uri block mid plain.clean
  have url : (getMessage uri block mid).received.url = uri := congrArg Request.url request
  have away : (getMessage uri block mid).received.url ≠ wellKnownCore := by
    rw [url]
    exact readable.other
  have returns : n.Returns P (getMessage uri block mid).received .get buffer := by
    refine serviceCbk_returns so calm (.inr away) ?_
    rw [request]
    intro uri' here _ list
    obtain rfl := Option.some.inj (asked.symm.trans here)
    exact absurd (readable.leaf.symm.trans list) Bool.false_ne_true
  obtain ⟨-, -, bytes', written', sent⟩ := serve_kept (d := d) new' returns kept
  rw [reply] at written'
  have isReply := blockMessage_isReply text (block.getD .first) mid
  refine ⟨?_, ⟨d.address, d.port, bytes'⟩, sent, rfl, rfl, ?_, fun p tells => ?_⟩
  · have keeps := @State.get_keeps P n.system.shared uri _ rfl asked readable.leaf
    rw [serve_system (.inr away), request]
    split
    · exact keeps.store
    · rfl
  · obtain ⟨made, parsed', read'⟩ := isReply.read written' (carrying_carries bytes')
    exact ⟨_, _, made, carrying_carries _, parsed', read'⟩
  · rw [isReply.told written' tells]
    exact blockMessage_received text _ mid

/-- The loop of the blocking request, with a chunk handler that keeps the payloads; there is no
text as long as it goes on. -/
def fetch (answer : UInt32 → CoapPacket Text) : Nat → RequestState → Option Text
  | 0, _ => none
  | fuel + 1, r =>
    let message := answer r.blockNum
    let r := r.readBlock message
    let chunk := if r.right then message.payload else []
    if r.count.goesOn then (fetch answer fuel r.count).map (chunk ++ ·) else some chunk

theorem count_block {message : CoapPacket Text} {b : BlockPart} {r : RequestState} {more : Bool}
    (asked : message.isOption .block2 = true) (option : message.block2 = b.option more)
    (num : r.blockNum = b.num) :
    (r.readBlock message).right = true ∧ (r.readBlock message).count.blockNum = b.num + 1 ∧
      (r.readBlock message).count.blockError = r.blockError ∧
      (r.readBlock message).count.more = more := by
  have read : r.readBlock message = { r with resBlock := b.num, more } := by
    rw [RequestState.readBlock, if_pos asked, option]
    rfl
  have right : (r.readBlock message).right = true := by
    rw [read]
    exact decide_eq_true num.symm
  refine ⟨right, ?_⟩
  rw [RequestState.count, if_pos right, read]
  exact ⟨congrArg (· + 1) num, rfl, rfl⟩

theorem fetch_from {answer : UInt32 → CoapPacket Text} {text : Text} {size : UInt16}
    (few : text.length / size.toNat ≤ 0xFFFFF)
    (answers : ∀ b : BlockPart, b.Within text size → (answer b.num).HasBlock text b) {fuel : Nat}
    {b : BlockPart} (within : b.Within text size) {r : RequestState} (num : r.blockNum = b.num)
    (patient : r.blockError < coapMaxAttempts)
    (enough : fuel + b.num.toNat = text.length / size.toNat + 1) :
    fetch answer fuel r = some (text.drop b.offset) := by
  induction fuel generalizing b r with
  | zero =>
    obtain ⟨rfl, within⟩ := within
    have := b.size_bounds.1
    have := (Nat.le_div_iff_mul_le (by omega)).mpr within
    omega
  | succ fuel ih =>
    obtain ⟨-, asked, option, payload⟩ := answers b within
    obtain ⟨rfl, within⟩ := within
    obtain ⟨low, high⟩ := b.size_bounds
    obtain ⟨right, next, calm, more⟩ := count_block asked option num
    rw [← calm] at patient
    have length := length_blockOf text b.size.toNat b.offset
    have whole : blockOf text b.size.toNat b.offset ++ text.drop (b.offset + b.size.toNat) =
        text.drop b.offset := by
      rw [blockOf, ← List.drop_drop, List.take_append_drop]
    have goesOn : (r.readBlock (answer b.num)).count.goesOn =
        decide (b.size.toNat ≤ (blockOf text b.size.toNat b.offset).length) := by
      rw [RequestState.goesOn, more, decide_eq_true patient, Bool.and_true]
    simp only [fetch, num, right, if_true, goesOn, decide_eq_true_eq, payload]
    split
    · rename_i full
      have fits : (b.num.toNat + 1) * b.size.toNat ≤ text.length := by
        have : b.offset = b.num.toNat * b.size.toNat := rfl
        rw [Nat.succ_mul]
        omega
      have last := (Nat.le_div_iff_mul_le (by omega)).mpr fits
      obtain ⟨num', offset⟩ := b.next_spec (Nat.le_trans last few)
      have later : (b.next (Nat.le_trans last few)).Within text b.size :=
        ⟨rfl, by rw [offset]; omega⟩
      rw [ih later next patient (by rw [num']; omega), offset, Option.map_some, whole]
    · rename_i short
      have rest : text.drop (b.offset + b.size.toNat) = [] := List.drop_eq_nil_of_le (by omega)
      rw [← whole, rest, List.append_nil]

/-- A GET of a block reaches a node that does not hang and has room for it, while the resource
reads as a text. -/
structure Reached (m : Node) (d : Incoming) (uri text : Text) (b : BlockPart) : Prop where
  sound : m.system.shared.Sound
  calm : m.hung = false
  readable : m.system.shared.store.Readable uri text
  message : ∃ block mid bytes, block.getD .first = b ∧
    (getMessage uri block mid).serialize = some bytes ∧ d.Carries bytes ∧ mid ≠ 0xFFFF ∧
    (m.transactions.newTransaction mid d.address d.port).isSome = true

/-- A resource that does not change meanwhile is read as a whole: whatever a node does between the
GETs of its blocks, and however the answers come back, the loop of the blocking request ends with
the text. -/
theorem get_text {size : UInt16} {m : UInt32 → Node} {d : UInt32 → Incoming} {buf : UInt32 → Text}
    (plain : PlainUri uri) (small : text.length < 2 ^ (P.intBits - 1))
    (few : text.length / size.toNat ≤ 0xFFFFF) (valid : size = 16 ∨ size = 32 ∨ size = 64)
    (reached : ∀ b : BlockPart, b.Within text size → (m b.num).Reached (d b.num) uri text b) :
    (∀ b : BlockPart, b.Within text size →
      ∃ y : Datagram, y.address = (d b.num).address ∧ y.port = (d b.num).port ∧
        (∃ p, y.Tells p) ∧
        ((m b.num).coapReceive P (d b.num) (buf b.num)).sent = (m b.num).sent ++ [y] ∧
        ((m b.num).coapReceive P (d b.num) (buf b.num)).system.shared.store =
          (m b.num).system.shared.store) ∧
    ∀ answer : UInt32 → CoapPacket Text,
      (∀ b : BlockPart, b.Within text size → ∃ y : Datagram, y.Tells (answer b.num) ∧
        ((m b.num).coapReceive P (d b.num) (buf b.num)).sent = (m b.num).sent ++ [y]) →
      fetch answer (text.length / size.toNat + 1) .init = some text := by
  have each : ∀ b : BlockPart, b.Within text size → ∃ y : Datagram, y.address = (d b.num).address ∧
      y.port = (d b.num).port ∧ (∃ p, y.Tells p) ∧
      ((m b.num).coapReceive P (d b.num) (buf b.num)).sent = (m b.num).sent ++ [y] ∧
      ((m b.num).coapReceive P (d b.num) (buf b.num)).system.shared.store =
        (m b.num).system.shared.store ∧
      ∀ p, y.Tells p → p.HasBlock text b := by
    intro b within
    obtain ⟨so, calm, readable, block, mid, bytes, rfl, written, carries, valid, room⟩ :=
      reached b within
    have ahead : (block.getD .first).offset < 2 ^ P.intBits :=
      Nat.lt_of_le_of_lt within.offset
        (Nat.lt_of_lt_of_le small (Nat.pow_le_pow_right (by decide) (Nat.sub_le _ _)))
    obtain ⟨store, y, sent, address, port, read, told⟩ :=
      get_block so calm plain readable ahead written carries room valid
    exact ⟨y, address, port, read, sent, store, told⟩
  refine ⟨fun b within => ?_, fun answer back => ?_⟩
  · obtain ⟨y, address, port, read, sent, store, -⟩ := each b within
    exact ⟨y, address, port, read, sent, store⟩
  · have has : ∀ b : BlockPart, b.Within text size → (answer b.num).HasBlock text b := by
      intro b within
      obtain ⟨y, -, -, -, sent, -, told⟩ := each b within
      obtain ⟨y', tells, sent'⟩ := back b within
      obtain rfl := List.singleton_inj.mp (List.append_cancel_left (sent.symm.trans sent'))
      exact told _ tells
    let b : BlockPart := ⟨0, size, by decide, valid⟩
    have start : b.offset = 0 := Nat.zero_mul _
    have whole := @fetch_from answer text size few has (text.length / size.toNat + 1) b
      ⟨rfl, start ▸ Nat.zero_le _⟩ .init rfl (by decide) rfl
    rwa [start, List.drop_zero] at whole

def agentNode : Node :=
  ((Node.init .plain 1 (fun _ => none) .bare 0).coapReceive .plain (agentDatagram put 0 true)
    []).coapReceive .plain (agentDatagram put 1 false) []

def agentGet (num : UInt32) : Incoming :=
  carrying ((getMessage (chars ['A', '/', 'x'])
    (if few : num ≤ 0xFFFFF then some { BlockPart.first with num, num_le := few } else none)
    7).serialize.getD [])

theorem agentNode_sound : agentNode.system.shared.Sound := by
  let n : Node := .init .plain 1 (fun _ => none) .bare 0
  have first := @coapReceive_system .plain n rfl rfl (agentDatagram put 0 true) []
  have second := @coapReceive_system .plain (n.coapReceive .plain (agentDatagram put 0 true) [])
    (by decide +kernel) (by decide +kernel) (agentDatagram put 1 false) []
  have reached : System.Reachable .plain agentNode.system := ⟨_, _, first.trans second⟩
  exact reached.sound

theorem agentNode_reached (b : BlockPart) (within : b.Within (agentFor put) 64) :
    agentNode.Reached (agentGet b.num) (chars ['A', '/', 'x']) (agentFor put) b where
  sound := agentNode_sound
  calm := by decide +kernel
  readable :=
    { text := by decide +kernel
      leaf := rfl
      free := by
        have free : (agentNode.system.shared.store.tree.resolve (chars ['A', '/', 'x'])).all
            fun i => agentNode.system.shared.store.mutex i = .released := by decide +kernel
        intro i there
        rw [there, Option.all_some] at free
        exact of_decide_eq_true free }
  message := by
    obtain ⟨bytes, written⟩ := @getMessage_serialize (chars ['A', '/', 'x']) (some b) 7
      (by decide)
    obtain ⟨num, size, few, valid⟩ := b
    obtain rfl : size = 64 := within.size
    have room : (agentNode.transactions.newTransaction 7 [] 0).isSome = true := by decide +kernel
    refine ⟨some ⟨num, 64, few, valid⟩, 7, bytes, rfl, written, ?_, by decide, room⟩
    have sent : agentGet num = carrying bytes := by
      rw [agentGet, dif_pos few]
      exact congrArg (fun o : Option Text => carrying (o.getD [])) written
    rw [sent]
    exact carrying_carries bytes

/-- The agent is read in two blocks. -/
theorem get_text_agent : ∃ answer : UInt32 → CoapPacket Text,
    (∀ b : BlockPart, b.Within (agentFor put) 64 → ∃ y : Datagram, y.Tells (answer b.num) ∧
      (agentNode.coapReceive .plain (agentGet b.num) []).sent = agentNode.sent ++ [y]) ∧
    fetch answer 2 .init = some (agentFor put) := by
  obtain ⟨answers, whole⟩ := @get_text (chars ['A', '/', 'x']) .plain (agentFor put) 64
    (fun _ => agentNode) agentGet (fun _ => []) agentUri_plain
    (by decide) (by decide) (.inr (.inr rfl)) agentNode_reached
  have each : ∀ num : UInt32, ∃ p : CoapPacket Text, ∀ b : BlockPart, b.num = num →
      b.Within (agentFor put) 64 → ∃ y : Datagram, y.Tells p ∧
        (agentNode.coapReceive .plain (agentGet num) []).sent = agentNode.sent ++ [y] := by
    intro num
    by_cases some' : ∃ b : BlockPart, b.num = num ∧ b.Within (agentFor put) 64
    · obtain ⟨b, rfl, within⟩ := some'
      obtain ⟨y, -, -, ⟨p, tells⟩, sent, -⟩ := answers b within
      exact ⟨p, fun _ _ _ => ⟨y, tells, sent⟩⟩
    · exact ⟨.initMessage .ack 0 0, fun b same within => absurd ⟨b, same, within⟩ some'⟩
  choose answer back using each
  have back' := fun b within => back b.num b rfl within
  exact ⟨answer, back', whole answer back'⟩

end Node
end EmmaNode

import EmmaNode.RequestMessages
import Mathlib.Algebra.Order.BigOperators.Group.List
import Mathlib.Algebra.Order.Group.Nat
import Mathlib.Data.List.Find

/-! What the node sends in reply to a datagram. A reply is no request and always fits. -/

namespace EmmaNode
namespace CoapPacket
variable {p : CoapPacket Text}

def replyOptions : List CoapOption := [.contentType, .token, .block2, .block1]

/-- A message that is sent in reply -/
structure IsReply (p : CoapPacket Text) : Prop where
  built : p.Built
  type : p.type = .ack ∨ p.type = .non
  code : Method.ofCode p.code = none
  options : ∀ o, p.isOption o = true → o ∈ replyOptions

theorem IsReply.set (h : p.IsReply) {q : CoapPacket Text} {o : CoapOption} (built : q.Built)
    (same : q.type = p.type ∧ q.code = p.code) (member : o ∈ replyOptions)
    (options : q.isOption = p.isOption ∨ q.isOption = (p.setOption o).isOption) : q.IsReply where
  built := built
  type := same.1 ▸ h.type
  code := same.2 ▸ h.code
  options := by
    intro o' set
    rcases options with options | options
    · exact h.options o' (options ▸ set)
    · rw [options, setOption] at set
      by_cases new : o' = o
      · exact new ▸ member
      · exact h.options o' (by simpa [Function.update_of_ne new] using set)

theorem isReply_init {type : MessageType} {code : UInt8} (mid : UInt16)
    (kind : type = .ack ∨ type = .non) (none' : Method.ofCode code = none) :
    (initMessage type code mid).IsReply where
  built := built_blank type code mid
  type := kind
  code := none'
  options := fun o set => by simp [initMessage, CoapPacket.blank] at set

theorem IsReply.setStatusCode (h : p.IsReply) {code : UInt8} (none' : Method.ofCode code = none) :
    (p.setStatusCode code).IsReply :=
  { h with built := h.built.apply (.statusCode code), code := none' }

theorem IsReply.setPayload (h : p.IsReply) (payload : Text) : (p.setPayload payload).IsReply :=
  { h with built := h.built.apply (.payload payload) }

theorem IsReply.setHeaderToken (h : p.IsReply) (token : Text) :
    (p.setHeaderToken token).IsReply :=
  h.set (h.built.apply (.token token)) ⟨rfl, rfl⟩ (by decide) (.inr rfl)

theorem IsReply.setHeaderContentType (h : p.IsReply) (contentType : UInt32) :
    (p.setHeaderContentType contentType).IsReply :=
  h.set (h.built.apply (.contentType contentType)) ⟨rfl, rfl⟩ (by decide) (.inr rfl)

theorem IsReply.setHeaderBlock1 (h : p.IsReply) (num : UInt32) (more : Bool) (size : UInt16) :
    (p.setHeaderBlock1 num more size).IsReply := by
  refine h.set (o := .block1) (h.built.apply (.block1 num more size)) ?_ (by decide) ?_
  · rw [CoapPacket.setHeaderBlock1]
    split
    · exact ⟨rfl, rfl⟩
    · exact ⟨rfl, rfl⟩
  · rw [CoapPacket.setHeaderBlock1]
    split
    · exact .inr rfl
    · exact .inl rfl

theorem IsReply.setHeaderBlock2 (h : p.IsReply) (num : UInt32) (more : Bool) (size : UInt16) :
    (p.setHeaderBlock2 num more size).IsReply := by
  refine h.set (o := .block2) (h.built.apply (.block2 num more size)) ?_ (by decide) ?_
  · rw [CoapPacket.setHeaderBlock2]
    split
    · exact ⟨rfl, rfl⟩
    · exact ⟨rfl, rfl⟩
  · rw [CoapPacket.setHeaderBlock2]
    split
    · exact .inr rfl
    · exact .inl rfl

theorem ofCode_status (status : Status) : Method.ofCode status.code = none := by
  cases status <;> rfl

theorem IsReply.respond (h : p.IsReply) (P : Platform) (r : Reply) (buffer : Text) :
    (r.respond P buffer p).IsReply := by
  unfold Reply.respond
  extract_lets block1 payload status
  have h₁ : block1.IsReply := by
    simp only [block1]
    split
    · exact h
    · exact h.setHeaderBlock1 _ _ _
  have h₂ : payload.IsReply := by
    simp only [payload]
    split
    · exact h₁
    · have chunk : ∀ memory length, (coapSetPayload P memory length).length ≤ restMaxChunkSize :=
        fun memory length => Nat.le_trans (List.length_take_le _ _) (Nat.min_le_left _ _)
      exact { h₁ with built := { h₁.built with chunk := chunk _ _ } }
  have h₃ : status.IsReply := by
    simp only [status]
    split
    · exact h₂
    · exact h₂.setStatusCode (ofCode_status _)
  split
  · exact { h₃ with built := { h₃.built with } }
  · exact h₃

theorem IsReply.blockwise (h : p.IsReply) {message q : CoapPacket Text} {newOffset : UInt32}
    (made : message.blockwise p newOffset = .ok q) : q.IsReply := by
  simp only [CoapPacket.blockwise] at made
  split at made
  · cases made
  split at made
  · split at made
    · split at made
      all_goals
        obtain rfl := Except.ok.inj made
      · exact (h.setStatusCode rfl).setPayload _
      · exact (h.setHeaderBlock2 _ _ _).setPayload _
    · obtain rfl := Except.ok.inj made
      split
      · exact (h.setHeaderBlock2 _ _ _).setPayload _
      · exact h.setHeaderBlock2 _ _ _
  · split at made
    all_goals
      obtain rfl := Except.ok.inj made
    · exact (h.setHeaderBlock2 _ _ _).setPayload _
    · exact h

/-! ### Sending replies -/

theorem IsReply.written (h : p.IsReply) :
    CoapOption.written.filter (p.Present ·) = replyOptions.filter (p.isOption ·) := by
  have same : ∀ o ∈ CoapOption.written, decide (p.Present o) = p.isOption o := by
    intro o _
    by_cases proxy : o = .proxyUri
    · subst proxy
      have unset : p.isOption .proxyUri = false :=
        Bool.eq_false_iff.mpr fun set => absurd (h.options _ set) (by decide)
      rw [unset]
      exact decide_eq_false fun present => absurd (unset ▸ present.1) Bool.false_ne_true
    · exact Bool.eq_iff_iff.mpr (decide_eq_true_iff.trans (h.built.present proxy))
  have unset : ∀ o, o ∉ replyOptions → p.isOption o = false := fun o other =>
    Bool.eq_false_iff.mpr fun set => other (h.options o set)
  rw [List.filter_congr same]
  simp [CoapOption.written, replyOptions, List.filter_cons, unset]

theorem items_spent (p : CoapPacket Text) (os : List CoapOption) (current : Nat) :
    ((p.items current os).map fun x => spent x.2).sum ≤
        ((os.filter (p.Present ·)).map fun o => ((p.values o).map spent).sum + 1).sum ∧
      (p.items current os).length ≤
        ((os.filter (p.Present ·)).map fun o => (p.values o).length + 1).sum := by
  induction os generalizing current with
  | nil => exact ⟨Nat.le_refl _, Nat.le_refl _⟩
  | cons o os ih =>
    rw [items, List.filter_cons]
    by_cases present : p.Present o
    · obtain ⟨bytes, count⟩ := ih o.number
      have fence : ((o.fences current).map fun x => spent x.2).sum ≤ 1 ∧
          (o.fences current).length ≤ 1 := by
        rw [CoapOption.fences]
        split <;> decide
      have values : ((p.values o).map (o.number, ·)).map (fun x => spent x.2) =
          (p.values o).map spent := by
        rw [List.map_map]
        rfl
      rw [if_pos present, if_pos (decide_eq_true present)]
      simp only [item, values, List.map_append, List.sum_append, List.length_append, List.map_cons,
        List.sum_cons, List.length_map]
      omega
    · rw [if_neg present, if_neg (by simpa using present)]
      exact ih current

theorem IsReply.options_le (h : p.IsReply) :
    p.serializeOptions.option.length ≤ 46 ∧ p.options.length < 16 := by
  obtain ⟨bytes, count⟩ := items_spent p CoapOption.written 0
  have all : ∀ cost : CoapOption → Nat,
      ((replyOptions.filter (p.isOption ·)).map cost).sum ≤ (replyOptions.map cost).sum := fun cost =>
    (List.filter_sublist.map cost).sum_le_sum fun _ _ => Nat.zero_le _
  have token : spent p.token ≤ 9 := by
    have := h.built.tags.2.1
    have : coapTokenLen = 8 := rfl
    rw [spent]
    split <;> omega
  have contentType := spent_intBytes p.contentType
  have block2 := spent_intBytes p.block2.value
  have block1 := spent_intBytes p.block1.value
  rw [h.written] at bytes count
  have most := Nat.le_trans bytes (all _)
  have most' := Nat.le_trans count (all _)
  rw [← CoapPacket.options] at most most'
  simp only [replyOptions, values, List.map_cons, List.map_nil, List.sum_cons, List.sum_nil,
    List.length_cons, List.length_nil] at most most'
  rw [(serializeOptions_spec p).1, ← CoapPacket.options, length_encode]
  omega

theorem IsReply.counted (h : p.IsReply) : p.Counted := by
  rw [Counted, numbers, h.written]
  simp only [replyOptions, List.filter_cons, List.filter_nil]
  cases p.isOption .contentType <;> cases p.isOption .token <;> cases p.isOption .block2 <;>
    cases p.isOption .block1 <;> decide

theorem IsReply.serialize (h : p.IsReply) : ∃ bytes, p.serialize = some bytes := by
  have small := h.options_le.1
  have header : coapHeaderLen = 4 := rfl
  have most : coapMaxHeaderSize = 50 := rfl
  exact serialize_of_le (by omega)

theorem blockwise_head {message q : CoapPacket Text} {newOffset : UInt32}
    (made : message.blockwise p newOffset = .ok q) : q.mid = p.mid ∧ q.type = p.type := by
  have block2 : ∀ (p : CoapPacket Text) num more size,
      (p.setHeaderBlock2 num more size).mid = p.mid ∧
        (p.setHeaderBlock2 num more size).type = p.type := by
    intro p num more size
    rw [setHeaderBlock2]
    split
    · exact ⟨rfl, rfl⟩
    · exact ⟨rfl, rfl⟩
  simp only [CoapPacket.blockwise] at made
  split at made
  · cases made
  split at made
  · split at made
    · split at made
      all_goals
        obtain rfl := Except.ok.inj made
      · exact ⟨rfl, rfl⟩
      · exact block2 p _ _ _
    · obtain rfl := Except.ok.inj made
      split
      · exact block2 p _ _ _
      · exact block2 p _ _ _
  · split at made
    all_goals
      obtain rfl := Except.ok.inj made
    · exact block2 p _ _ _
    · exact ⟨rfl, rfl⟩

end CoapPacket

/-! ### What a node sends -/

/-- A datagram holds some bytes. -/
structure Incoming.Carries (d : Incoming) (bytes : Text) : Prop where
  length : d.dataLen = UInt16.ofNat bytes.length
  holds : d.memory.read 0 bytes.length = bytes

theorem CoapPacket.IsReply.read {p : CoapPacket Text} (h : p.IsReply) {bytes : Text}
    (written : p.serialize = some bytes) {d : Incoming} (carries : d.Carries bytes) :
    ∃ made, d.memory.parseMessage d.dataLen = .ok made ∧
      made.2.map (·.text made.1) = p.received := by
  have direct : p.isOption .proxyUri = false :=
    Bool.eq_false_iff.mpr fun set => absurd (h.options _ set) (by decide)
  rw [carries.length]
  exact Memory.parse_direct h.built written carries.holds h.options_le.2 h.counted direct

/-- What a node is told by a datagram that comes as it was sent -/
def Datagram.Tells (y : Datagram) (p : CoapPacket Text) : Prop :=
  ∃ (d : Incoming) (made : Memory × CoapPacket Slice), d.Carries y.bytes ∧
    d.memory.parseMessage d.dataLen = .ok made ∧ made.2.map (·.text made.1) = p

theorem CoapPacket.IsReply.told {p : CoapPacket Text} (h : p.IsReply) {y : Datagram}
    (written : p.serialize = some y.bytes) {q : CoapPacket Text} (tells : y.Tells q) :
    q = p.received := by
  obtain ⟨d, made, carries, parsed, rfl⟩ := tells
  obtain ⟨made', parsed', read⟩ := h.read written carries
  obtain rfl := Except.ok.inj (parsed.symm.trans parsed')
  exact read

namespace Node
open CoapPacket
variable {P : Platform} {n : Node} {d : Incoming}

theorem errorMessage_isReply (status : CoapStatus) (mid : UInt16) :
    (errorMessage status mid).IsReply := by
  refine (isReply_init mid (.inl rfl) ?_).setPayload _
  cases status <;> rfl

theorem prepare_isReply (message : CoapPacket Text) : (n.prepare message).IsReply := by
  have start : (initMessage (if message.type = .con then .ack else .non) Status.ok.code
      (n.responseMid message)).IsReply := by
    refine isReply_init _ ?_ rfl
    split
    · exact .inl rfl
    · exact .inr rfl
  rw [prepare]
  split
  · exact start.setHeaderToken _
  · exact start

theorem serviceCbk_isReply (message : CoapPacket Text) (method : Method) (buffer : Text)
    {response : CoapPacket Text} (h : response.IsReply) :
    (n.serviceCbk P message method buffer response).2.1.IsReply := by
  rw [serviceCbk]
  split
  · exact h.respond P _ buffer
  · simp only
    split
    · exact (h.respond P _ buffer).setHeaderContentType _
    · exact h.respond P _ buffer
  · exact h.setStatusCode rfl
  · exact h.setStatusCode rfl

/-- A message is sent to where a datagram came from. -/
def Sends (n : Node) (d : Incoming) (p : CoapPacket Text) (n' : Node) : Prop :=
  ∃ bytes, p.serialize = some bytes ∧ n'.sent = n.sent ++ [⟨d.address, d.port, bytes⟩]

theorem Sends.written {p : CoapPacket Text} {n' : Node} {y : Datagram} (sends : n.Sends d p n')
    (sent : n'.sent = n.sent ++ [y]) : p.serialize = some y.bytes := by
  obtain ⟨bytes, written, sent'⟩ := sends
  obtain rfl := List.singleton_inj.mp (List.append_cancel_left (sent.symm.trans sent'))
  exact written

theorem refuse_sends (status : CoapStatus) (mid : UInt16) :
    n.Sends d (errorMessage status mid) (n.refuse d status mid) := by
  obtain ⟨bytes, written⟩ := (errorMessage_isReply status mid).serialize
  refine ⟨bytes, written, ?_⟩
  rw [refuse]
  simp only [written, Option.getD_some]

theorem send_once {i interval : Nat} (once : (n.transactions.cell i).confirmable = false) :
    n.send i interval = { n with
      transactions := n.transactions.clearTransaction (some i)
      sent := n.sent ++ [(n.transactions.cell i).datagram] } := by
  have alive : n.transactions.timedOut i = false := by
    rw [Transactions.timedOut, once, Bool.false_and]
  rw [send, Transactions.calledBack, alive, Transactions.sendTransaction, once, Bool.false_and,
    Bool.false_and]
  rfl

theorem fill_datagram (t : Transaction) (bytes : Text) :
    (t.fill bytes).datagram = ⟨t.address, t.port, bytes⟩ := by
  rw [Transaction.datagram, Transaction.fill, List.take_left]

theorem fill_confirmable (t : Transaction) {p : CoapPacket Text} {bytes : Text}
    (written : p.serialize = some bytes) :
    (t.fill bytes).confirmable = decide (p.type = .con) := by
  have type := serialize_type written
  have head : (bytes ++ t.packet.drop bytes.length).headD 0 = bytes.headD 0 := by
    rw [CoapPacket.serialize] at written
    split at written
    · obtain rfl := Option.some.inj written
      rfl
    · cases written
  rw [Transaction.confirmable, Transaction.fill, head, type]

structure Spends (n : Node) (i : Nat) (n' : Node) : Prop where
  list : n'.transactions.list = n.transactions.list.erase i
  others : ∀ j, j ≠ i → n'.transactions.cell j = n.transactions.cell j
  transaction : n'.transaction = n.transaction
  requestState : n'.requestState = n.requestState
  currentMid : n'.currentMid = n.currentMid

theorem refuse_spends {i : Nat} (home : n.transaction = some i) (status : CoapStatus)
    (mid : UInt16) : n.Spends i (n.refuse d status mid) where
  list := by
    rw [refuse, home]
    rfl
  others := by
    intro j other
    rw [refuse, home]
    exact Function.update_of_ne other _ _
  transaction := rfl
  requestState := rfl
  currentMid := rfl

def concluded (message response : CoapPacket Text) (newOffset : UInt32) : CoapPacket Text :=
  match message.blockwise response newOffset with
  | .error status => errorMessage status message.mid
  | .ok p => p

theorem concluded_spec {message response : CoapPacket Text} {newOffset : UInt32}
    (h : response.IsReply) : (concluded message response newOffset).IsReply ∧
      ((concluded message response newOffset).mid = message.mid ∧
          (concluded message response newOffset).type = .ack ∨
        (concluded message response newOffset).mid = response.mid ∧
          (concluded message response newOffset).type = response.type) := by
  rw [concluded]
  split
  · exact ⟨errorMessage_isReply _ _, .inl ⟨rfl, rfl⟩⟩
  · rename_i made
    exact ⟨h.blockwise made, .inr (blockwise_head made)⟩

theorem conclude_spec {message response : CoapPacket Text} {i : Nat} {newOffset : UInt32}
    (home : n.transaction = some i) (source : (n.transactions.cell i).address = d.address ∧
      (n.transactions.cell i).port = d.port) (h : response.IsReply)
    (kept : cancelled P response = false) :
    n.Spends i (n.conclude P d message i response newOffset) ∧
      n.Sends d (concluded message response newOffset)
        (n.conclude P d message i response newOffset) := by
  rw [conclude, concluded, if_neg (by rw [kept]; exact Bool.false_ne_true)]
  cases made : message.blockwise response newOffset with
  | error status =>
    exact ⟨refuse_spends home status message.mid, refuse_sends status message.mid⟩
  | ok p =>
    have reply := h.blockwise made
    obtain ⟨bytes, written⟩ := reply.serialize
    simp only [written]
    -- neither an acknowledgement nor a message that needs none is confirmable
    set m : Node := { n with transactions := n.transactions.modify i (·.fill bytes) } with hm
    have cell : m.transactions.cell i = (n.transactions.cell i).fill bytes :=
      Function.update_self _ _ _
    have once : (m.transactions.cell i).confirmable = false := by
      rw [cell, fill_confirmable _ written]
      rcases reply.type with type | type <;> rw [type] <;> rfl
    refine ⟨?_, bytes, written, ?_⟩
    · rw [send_once once]
      refine ⟨rfl, fun j other => ?_, rfl, rfl, rfl⟩
      exact (Function.update_of_ne other _ _).trans (Function.update_of_ne other _ _)
    · rw [send_once once, cell, fill_datagram, source.1, source.2]

variable (P n) in
def response (message : CoapPacket Text) (method : Method) (buffer : Text) : CoapPacket Text :=
  (n.serviceCbk P message method buffer (n.prepare message)).2.1

theorem response_isReply (message : CoapPacket Text) (method : Method) (buffer : Text) :
    (n.response P message method buffer).IsReply :=
  serviceCbk_isReply message method buffer (prepare_isReply message)

variable (P n) in
def reply (message : CoapPacket Text) (method : Method) (buffer : Text) : CoapPacket Text :=
  concluded message (n.response P message method buffer)
    (n.serviceCbk P message method buffer (n.prepare message)).2.2

theorem handled_cell (message : CoapPacket Text) (method : Method) (buffer : Text) (i j : Nat) :
    (n.handled P message method buffer i).transactions.cell j =
      if j = i then { n.transactions.cell i with
        packet := (n.transactions.cell i).packet.take coapMaxHeaderSize ++ buffer }
      else n.transactions.cell j :=
  Function.update_apply _ _ _ _

variable (P n) in
/-- The handler of a request comes back. -/
def Returns (message : CoapPacket Text) (method : Method) (buffer : Text) : Prop :=
  (n.serviceCbk P message method buffer
    (n.prepare message)).1.shared.reader.iter.stuck = false

theorem serveWith_returns {message : CoapPacket Text} {method : Method} {buffer : Text}
    (returns : n.Returns P message method buffer) (i : Nat) :
    n.serveWith P d message method buffer i =
      (n.handled P message method buffer i).conclude P d message i
        (n.response P message method buffer)
        (n.serviceCbk P message method buffer (n.prepare message)).2.2 := by
  have back : (n.handled P message method buffer i).hung = false := returns
  rw [serveWith_eq, back]
  rfl

theorem serveWith_hung {message : CoapPacket Text} {method : Method} {buffer : Text}
    (hangs : ¬n.Returns P message method buffer) (i : Nat) :
    n.serveWith P d message method buffer i = n.handled P message method buffer i := by
  have stays : (n.handled P message method buffer i).hung = true :=
    Bool.eq_true_of_not_eq_false hangs
  rw [serveWith_eq, if_pos stays]

theorem serveWith_spec {message : CoapPacket Text} {method : Method} {buffer : Text} {i : Nat}
    (home : n.transaction = some i) (source : (n.transactions.cell i).address = d.address ∧
      (n.transactions.cell i).port = d.port) (returns : n.Returns P message method buffer)
    (kept : cancelled P (n.response P message method buffer) = false) :
    (n.serveWith P d message method buffer i).transactions.list = n.transactions.list.erase i ∧
      (∀ j, j ≠ i →
        (n.serveWith P d message method buffer i).transactions.cell j = n.transactions.cell j) ∧
      (n.serveWith P d message method buffer i).transaction = some i ∧
      (n.serveWith P d message method buffer i).requestState = n.requestState ∧
      n.Sends d (n.reply P message method buffer) (n.serveWith P d message method buffer i) := by
  obtain ⟨spends, sends⟩ := @conclude_spec P (n.handled P message method buffer i) d message
    (n.response P message method buffer) i
    (n.serviceCbk P message method buffer (n.prepare message)).2.2 home
    (by rw [handled_cell, if_pos rfl]; exact source) (response_isReply message method buffer) kept
  rw [serveWith_returns returns]
  refine ⟨spends.list, fun j other => ?_, spends.transaction.trans home, spends.requestState,
    sends⟩
  rw [spends.others j other, handled_cell, if_neg other]

structure Leaves (n n' : Node) : Prop where
  list : n'.transactions.list = n.transactions.list
  cells : ∀ j ∈ n.transactions.list, n'.transactions.cell j = n.transactions.cell j
  requestState : n'.requestState = n.requestState

variable {message : CoapPacket Text} {method : Method} {buffer : Text}

theorem serve_full (full : n.transactions.newTransaction message.mid d.address d.port = none) :
    n.serve P d message method buffer =
      { n with transaction := none }.refuse d .serviceUnavailable message.mid := by
  rw [serve, full]

theorem serve_kept {i : Nat} {transactions : Transactions}
    (new : n.transactions.newTransaction message.mid d.address d.port = some (i, transactions))
    (returns : n.Returns P message method buffer) (kept : cancelled P (n.response P message method buffer) = false) :
    n.Leaves (n.serve P d message method buffer) ∧
      (n.serve P d message method buffer).transaction = some i ∧
      n.Sends d (n.reply P message method buffer) (n.serve P d message method buffer) := by
  obtain ⟨fresh, list, cell⟩ := Roster.take_spec new
  have own : transactions.cell i = { n.transactions.cell i with
      mid := message.mid, retransCounter := 0, address := d.address, port := d.port } := by
    rw [cell, Function.update_self]
  have whole : n.serve P d message method buffer =
      { n with transactions, transaction := some i }.serveWith P d message method buffer i := by
    rw [serve, new]
  obtain ⟨list', cells', transaction, requestState, sends⟩ :=
    @serveWith_spec P { n with transactions, transaction := some i } d message method buffer i rfl
      (by rw [own]; exact ⟨rfl, rfl⟩) returns kept
  rw [whole]
  refine ⟨⟨?_, fun j hj => ?_, requestState⟩, transaction, sends⟩
  · rw [list', list, List.erase_append_right _ fresh, List.erase_cons_head, List.append_nil]
  · have other : j ≠ i := fun same => fresh (same ▸ hj)
    rw [cells' j other, cell, Function.update_of_ne other]

theorem serveWith_cancelled {i : Nat} (returns : n.Returns P message method buffer)
    (dropped : cancelled P (n.response P message method buffer) = true) :
    n.serveWith P d message method buffer i = { n.handled P message method buffer i with
      transactions := (n.handled P message method buffer i).transactions.clearTransaction
        ((n.handled P message method buffer i).transactions.getTransactionByMid message.mid) } := by
  rw [serveWith_returns returns, conclude, if_pos dropped]

theorem getTransactionByMid_new {i : Nat} {transactions : Transactions}
    (list : transactions.list = n.transactions.list ++ [i]) (fresh : i ∉ n.transactions.list)
    {mid : UInt16} (own : (transactions.cell i).mid = mid)
    (cells : ∀ j, j ≠ i → (transactions.cell j).mid = (n.transactions.cell j).mid) :
    transactions.getTransactionByMid mid =
      (n.transactions.getTransactionByMid mid).or (some i) := by
  have older : n.transactions.list.find? (fun j => (transactions.cell j).mid = mid) =
      n.transactions.list.find? fun j => (n.transactions.cell j).mid = mid :=
    List.find?_congr fun j hj => by rw [cells j fun same => fresh (same ▸ hj)]
  rw [Transactions.getTransactionByMid, Transactions.getTransactionByMid, Roster.find?, Roster.find?,
    list, List.find?_append, older]
  congr 1
  simp [own]

theorem serve_cancelled {i : Nat} {transactions : Transactions}
    (new : n.transactions.newTransaction message.mid d.address d.port = some (i, transactions))
    (returns : n.Returns P message method buffer) (dropped : cancelled P (n.response P message method buffer) = true) :
    (n.serve P d message method buffer).sent = n.sent ∧
      (n.serve P d message method buffer).transaction = some i ∧
      (n.serve P d message method buffer).requestState = n.requestState ∧
      (n.serve P d message method buffer).transactions.list =
        (n.transactions.list ++ [i]).erase
          ((n.transactions.getTransactionByMid message.mid).getD i) ∧
      ∀ j ∈ n.transactions.list, j ≠ (n.transactions.getTransactionByMid message.mid).getD i →
        (n.serve P d message method buffer).transactions.cell j = n.transactions.cell j := by
  obtain ⟨fresh, list, cell⟩ := Roster.take_spec new
  set m : Node := { n with transactions, transaction := some i } with hm
  have whole : n.serve P d message method buffer = m.serveWith P d message method buffer i := by
    rw [serve, new]
  have list' : (m.handled P message method buffer i).transactions.list =
      n.transactions.list ++ [i] := list
  have others : ∀ j, j ≠ i →
      (m.handled P message method buffer i).transactions.cell j = n.transactions.cell j := by
    intro j other
    rw [handled_cell, if_neg other, hm, cell, Function.update_of_ne other]
  have first : (m.handled P message method buffer i).transactions.getTransactionByMid message.mid =
      some ((n.transactions.getTransactionByMid message.mid).getD i) := by
    rw [getTransactionByMid_new list' fresh _ fun j other => by rw [others j other]]
    · cases n.transactions.getTransactionByMid message.mid <;> rfl
    · rw [handled_cell, if_pos rfl, hm, cell, Function.update_self]
  rw [whole, serveWith_cancelled (n := m) returns dropped, first]
  refine ⟨rfl, rfl, rfl, congrArg (List.erase · _) list', fun j hj other => ?_⟩
  have new : j ≠ i := fun same => fresh (same ▸ hj)
  exact (Function.update_of_ne other _ _).trans (others j new)

theorem serve_hung
    (room : (n.transactions.newTransaction message.mid d.address d.port).isSome = true)
    (hangs : ¬n.Returns P message method buffer) :
    (n.serve P d message method buffer).sent = n.sent ∧
      (n.serve P d message method buffer).requestState = n.requestState := by
  obtain ⟨⟨i, transactions⟩, new⟩ := Option.isSome_iff_exists.mp room
  have whole : n.serve P d message method buffer =
      { n with transactions, transaction := some i }.serveWith P d message method buffer i := by
    rw [serve, new]
  rw [whole, serveWith_hung (n := { n with transactions, transaction := some i }) hangs]
  exact ⟨rfl, rfl⟩

theorem serve_returns
    (room : (n.transactions.newTransaction message.mid d.address d.port).isSome = true)
    (back : (n.serve P d message method buffer).hung = false) :
    n.Returns P message method buffer := by
  obtain ⟨⟨i, transactions⟩, new⟩ := Option.isSome_iff_exists.mp room
  rw [serve, new, hung, serveWith_system] at back
  exact back

/-! ### Every datagram -/

variable (n) in
def heard (message : CoapPacket Text) : Node := { n with message }

section
variable {m : Memory} {p : CoapPacket Slice}

theorem coapReceive_error {status : CoapStatus}
    (parsed : d.memory.parseMessage d.dataLen = .error status) :
    n.coapReceive P d buffer = n.refuse d status d.memory.header.mid := by
  rw [coapReceive, parsed]

theorem coapReceive_error_hung {status : CoapStatus}
    (parsed : d.memory.parseMessage d.dataLen = .error status) :
    (n.coapReceive P d buffer).hung = n.hung := by
  rw [coapReceive_error parsed]
  rfl

theorem coapReceive_request (parsed : d.memory.parseMessage d.dataLen = .ok (m, p))
    (request : Method.ofCode p.code = some method) :
    n.coapReceive P d buffer =
      (n.heard (p.map (·.text m))).serve P d (p.map (·.text m)) method buffer := by
  have code : Method.ofCode (p.map (·.text m)).code = some method := request
  rw [coapReceive, parsed]
  simp only [code]
  rfl

theorem coapReceive_answer (parsed : d.memory.parseMessage d.dataLen = .ok (m, p))
    (other : Method.ofCode p.code = none) :
    n.coapReceive P d buffer = (n.heard (p.map (·.text m))).answer p.mid := by
  have code : Method.ofCode (p.map (·.text m)).code = none := other
  rw [coapReceive, parsed]
  simp only [code]
  rfl

end

theorem answer_sent (mid : UInt16) : (n.answer mid).sent = n.sent := by
  simp only [answer]
  split
  · rfl
  · split <;> rfl

variable (P n) in
/-- A request that gets a transaction has its response sent: its handler comes back, and the
response is not cancelled. -/
def Serves (d : Incoming) (message : CoapPacket Text) (method : Method) (buffer : Text) : Prop :=
  (n.transactions.newTransaction message.mid d.address d.port).isSome = true →
    n.Returns P message method buffer ∧ cancelled P (n.response P message method buffer) = false

theorem serve_sends (serves : n.Serves P d message method buffer) :
    ∃ p : CoapPacket Text, p.IsReply ∧ n.Sends d p (n.serve P d message method buffer) := by
  cases new : n.transactions.newTransaction message.mid d.address d.port with
  | none =>
    rw [serve_full new]
    exact ⟨_, errorMessage_isReply .serviceUnavailable message.mid, refuse_sends _ _⟩
  | some found =>
    obtain ⟨returns, kept⟩ := serves (by rw [new]; rfl)
    obtain ⟨-, -, sends⟩ := serve_kept new returns kept
    exact ⟨_, (concluded_spec (response_isReply message method buffer)).1, sends⟩

theorem serve_silent (silent : ¬n.Serves P d message method buffer) :
    (n.serve P d message method buffer).sent = n.sent := by
  obtain ⟨room, unserved⟩ := Classical.not_imp.mp silent
  by_cases returns : n.Returns P message method buffer
  · obtain ⟨⟨i, transactions⟩, new⟩ := Option.isSome_iff_exists.mp room
    exact (serve_cancelled new returns
      (Bool.eq_true_of_not_eq_false fun kept => unserved ⟨returns, kept⟩)).1
  · exact (serve_hung room returns).1

theorem serves_heard (q : CoapPacket Text) :
    (n.heard q).Serves P d message method buffer ↔ n.Serves P d message method buffer := Iff.rfl

theorem sends_heard (q p : CoapPacket Text) (n' : Node) :
    (n.heard q).Sends d p n' ↔ n.Sends d p n' := Iff.rfl

variable (P n) in
/-- A datagram is replied to if it cannot be read, or if it is a request that is served. -/
def Replies (d : Incoming) (buffer : Text) : Prop :=
  match d.memory.parseMessage d.dataLen with
  | .error _ => True
  | .ok (m, p) => ∃ method, Method.ofCode p.code = some method ∧
      n.Serves P d (p.map (·.text m)) method buffer

theorem replies_request {m : Memory} {p : CoapPacket Slice}
    (parsed : d.memory.parseMessage d.dataLen = .ok (m, p))
    (request : Method.ofCode p.code = some method) :
    n.Replies P d buffer ↔ n.Serves P d (p.map (·.text m)) method buffer := by
  simp only [Replies, parsed, request, Option.some.injEq, exists_eq_left']

theorem not_replies_answer {m : Memory} {p : CoapPacket Slice}
    (parsed : d.memory.parseMessage d.dataLen = .ok (m, p))
    (other : Method.ofCode p.code = none) : ¬n.Replies P d buffer := by
  simp only [Replies, parsed, other, reduceCtorEq, false_and, exists_false, not_false_eq_true]

theorem coapReceive_sends (d : Incoming) (buffer : Text) :
    (n.Replies P d buffer → ∃ p : CoapPacket Text, p.IsReply ∧
      n.Sends d p (n.coapReceive P d buffer)) ∧
    (¬n.Replies P d buffer → (n.coapReceive P d buffer).sent = n.sent) := by
  cases parsed : d.memory.parseMessage d.dataLen with
  | error status =>
    have replies : n.Replies P d buffer := by simp only [Replies, parsed]
    rw [coapReceive_error parsed]
    exact ⟨fun _ => ⟨_, errorMessage_isReply _ _, refuse_sends _ _⟩, fun no => absurd replies no⟩
  | ok made =>
    obtain ⟨m, p⟩ := made
    cases code : Method.ofCode p.code with
    | some method =>
      rw [coapReceive_request parsed code, replies_request parsed code]
      rw [← serves_heard (p.map (·.text m))]
      refine ⟨fun serves => ?_, fun silent => serve_silent silent⟩
      obtain ⟨q, reply, sends⟩ := serve_sends serves
      exact ⟨q, reply, (sends_heard _ q _).mp sends⟩
    | none =>
      rw [coapReceive_answer parsed code]
      exact ⟨fun replies => absurd replies (not_replies_answer parsed code), fun _ => answer_sent _⟩

variable (n) in
/-- A datagram answers an open transaction whose owner wants to know. -/
def Answers (d : Incoming) : Prop :=
  match d.memory.parseMessage d.dataLen with
  | .error _ => False
  | .ok (_, p) => Method.ofCode p.code = none ∧
      ∃ i, n.transactions.getTransactionByMid p.mid = some i ∧
        (n.transactions.cell i).callback = true

theorem serve_requestState :
    (n.serve P d message method buffer).requestState = n.requestState := by
  cases new : n.transactions.newTransaction message.mid d.address d.port with
  | none =>
    rw [serve_full new]
    rfl
  | some found =>
    obtain ⟨i, transactions⟩ := found
    by_cases returns : n.Returns P message method buffer
    · cases dropped : cancelled P (n.response P message method buffer) with
      | false => exact (serve_kept new returns dropped).1.requestState
      | true => exact (serve_cancelled new returns dropped).2.2.1
    · exact (serve_hung (by rw [new]; rfl) returns).2

theorem answer_requestState (mid : UInt16) :
    (n.answer mid).requestState =
      if ∃ i, n.transactions.getTransactionByMid mid = some i ∧
          (n.transactions.cell i).callback = true then
        { n.requestState with response := true, polled := true }
      else n.requestState := by
  rw [answer]
  split
  · rename_i missing
    rw [if_neg]
    rintro ⟨i, found, -⟩
    cases missing.symm.trans found
  · rename_i i found
    simp only
    split
    · rename_i called
      rw [if_pos ⟨i, found, called⟩]
      rfl
    · rename_i silent
      rw [if_neg]
      rintro ⟨j, found', called⟩
      exact silent (Option.some.inj (found.symm.trans found') ▸ called)

/-- A datagram makes the node send one message at most, to where it came from, and that is no
request, never confirmable and never too long for its header. It does not touch the client, and
the request that waits learns of it only when it answers its transaction. -/
theorem coapReceive_spec (d : Incoming) (buffer : Text) :
    (n.coapReceive P d buffer).system.client = n.system.client ∧
    (n.Replies P d buffer → ∃ p : CoapPacket Text, p.IsReply ∧
      n.Sends d p (n.coapReceive P d buffer)) ∧
    (¬n.Replies P d buffer → (n.coapReceive P d buffer).sent = n.sent) ∧
    (n.Answers d → (n.coapReceive P d buffer).requestState =
      { n.requestState with response := true, polled := true }) ∧
    (¬n.Answers d → (n.coapReceive P d buffer).requestState = n.requestState) := by
  refine ⟨coapReceive_client d buffer, (coapReceive_sends d buffer).1,
    (coapReceive_sends d buffer).2, ?_⟩
  cases parsed : d.memory.parseMessage d.dataLen with
  | error status =>
    have unread : ¬n.Answers d := by simp only [Answers, parsed, not_false_eq_true]
    rw [coapReceive_error parsed]
    exact ⟨fun answers => absurd answers unread, fun _ => rfl⟩
  | ok made =>
    obtain ⟨m, p⟩ := made
    simp only [Answers, parsed]
    cases code : Method.ofCode p.code with
    | some method =>
      rw [coapReceive_request parsed code, serve_requestState]
      exact ⟨fun answers => absurd answers.1 (Option.some_ne_none _), fun _ => rfl⟩
    | none =>
      rw [coapReceive_answer parsed code, answer_requestState]
      exact ⟨fun answers => if_pos answers.2, fun silent => if_neg fun called => silent ⟨rfl, called⟩⟩

/-- No node replies to what a node has sent in reply. -/
theorem coapReceive_reply {P' : Platform} {n' : Node} {d' : Incoming} {x : Datagram}
    {buffer buffer' : Text} (sent : (n.coapReceive P d buffer).sent = n.sent ++ [x])
    (carries : d'.Carries x.bytes) :
    (n'.coapReceive P' d' buffer').sent = n'.sent := by
  obtain ⟨sends, silent⟩ := coapReceive_sends (n := n) (P := P) d buffer
  by_cases replies : n.Replies P d buffer
  · obtain ⟨p, reply, sends⟩ := sends replies
    obtain ⟨made, parsed, read⟩ := reply.read (sends.written sent) carries
    have code : Method.ofCode made.2.code = none := by
      have same : made.2.code = p.code := congrArg CoapPacket.code read
      rw [same, reply.code]
    rw [coapReceive_answer parsed code]
    exact answer_sent _
  · rw [silent replies] at sent
    simp at sent

/-- A datagram of another version is refused, and the refusal is not. -/
theorem coapReceive_reply_version :
    let n := Node.init .plain 1 (fun _ => none) .bare 0
    let x : Datagram := ⟨[], 0, (errorMessage .badRequest 0).serialize.getD []⟩
    (n.coapReceive .plain ⟨fun _ => 0, 4, [], 0⟩ []).sent = n.sent ++ [x] ∧
      (n.coapReceive .plain ⟨fun i => x.bytes.getD i 0, UInt16.ofNat x.bytes.length, [], 0⟩
        []).sent = n.sent :=
  ⟨rfl, @coapReceive_reply .plain (Node.init .plain 1 (fun _ => none) .bare 0)
    ⟨fun _ => 0, 4, [], 0⟩ .plain _
    ⟨fun i => ((errorMessage .badRequest 0).serialize.getD []).getD i 0, _, [], 0⟩
    ⟨[], 0, (errorMessage .badRequest 0).serialize.getD []⟩ [] [] rfl ⟨rfl, by decide +kernel⟩⟩

end Node
end EmmaNode

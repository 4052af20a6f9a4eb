import EmmaNode.OpenTransactions

/-! The sizes of what is sent. Whatever a node is sent itself, no message of it is longer than the
buffer of a transaction, and every request of its client can be written. -/

namespace EmmaNode
open CoapPacket

theorem CoapPacket.length_serialize {p : CoapPacket Text}
    (chunk : p.payload.length ≤ restMaxChunkSize) :
    (p.serialize.getD []).length ≤ coapMaxPacketSize := by
  rw [CoapPacket.serialize]
  split
  · rename_i small
    have header : (p.header p.serializeOptions.optionCount).length = coapHeaderLen := rfl
    rw [Option.getD_some, List.length_append, List.length_append, header, coapMaxPacketSize]
    omega
  · exact Nat.zero_le _

namespace Transactions
variable {ts : Transactions}

def Fit (ts : Transactions) : Prop := ∀ i, (ts.cell i).packetLen ≤ coapMaxPacketSize

theorem fit_init (num : Nat) : (init num).Fit := fun _ => Nat.zero_le _

theorem Fit.update (h : ts.Fit) {ts' : Transactions} {i : Nat} {t : Transaction}
    (cell : ts'.cell = Function.update ts.cell i t) (fits : t.packetLen ≤ coapMaxPacketSize) :
    ts'.Fit := by
  intro j
  rw [cell, Function.update_apply]
  split
  · exact fits
  · exact h j

theorem Fit.modify (h : ts.Fit) (i : Nat) {f : Transaction → Transaction}
    (same : ∀ t, (f t).packetLen = t.packetLen) : Fit (ts.modify i f) :=
  h.update rfl (same (ts.cell i) ▸ h i)

theorem Fit.clear (h : ts.Fit) (i : Option Nat) : (ts.clearTransaction i).Fit := by
  cases i with
  | none => exact h
  | some i => exact h.update Roster.cell_drop (h i)

theorem Fit.new (h : ts.Fit) {mid : UInt16} {address : List UInt16} {port : UInt16} {i : Nat}
    {ts' : Transactions} (new : ts.newTransaction mid address port = some (i, ts')) : ts'.Fit :=
  h.update (Roster.take_spec new).2.2 (h i)

theorem Fit.send (h : ts.Fit) (i interval : Nat) : (ts.sendTransaction i interval).Fit := by
  rw [sendTransaction]
  split
  · exact h.modify i fun _ => rfl
  · exact h.clear (some i)

theorem Fit.datagram (h : ts.Fit) (i : Nat) :
    (ts.cell i).datagram.bytes.length ≤ coapMaxPacketSize :=
  Nat.le_trans (List.length_take_le _ _) (h i)

theorem Fit.check (h : ts.Fit) (is : List Nat) :
    (checkFrom is ts).1.Fit ∧ ∀ x ∈ (checkFrom is ts).2.1, x.bytes.length ≤ coapMaxPacketSize := by
  induction is generalizing ts with
  | nil => exact ⟨h, fun x member => absurd member List.not_mem_nil⟩
  | cons i is ih =>
    rw [checkFrom]
    split
    · exact ih h
    · have counted : Fit (ts.modify i fun t => { t with retransCounter := t.retransCounter + 1 }) :=
        h.modify i fun _ => rfl
      obtain ⟨cells, later⟩ := ih (counted.send i 0)
      simp only
      split
      · refine ⟨cells, fun x member => ?_⟩
        rcases List.mem_cons.mp member with rfl | member
        · exact counted.datagram i
        · exact later x member
      · refine ⟨counted.send i 0, fun x member => ?_⟩
        obtain rfl := List.mem_singleton.mp member
        exact counted.datagram i

end Transactions

namespace Node
variable {P : Platform} {n n' : Node}

structure Small (n : Node) : Prop where
  cells : n.transactions.Fit
  sent : ∀ x ∈ n.sent, x.bytes.length ≤ coapMaxPacketSize

theorem Small.one (h : n.Small) {x : Datagram} (small : x.bytes.length ≤ coapMaxPacketSize) :
    ∀ y ∈ n.sent ++ [x], y.bytes.length ≤ coapMaxPacketSize := by
  intro y member
  rcases List.mem_append.mp member with member | member
  · exact h.sent y member
  · exact List.mem_singleton.mp member ▸ small

theorem Small.refuse (h : n.Small) (d : Incoming) (status : CoapStatus) (mid : UInt16) :
    (n.refuse d status mid).Small :=
  ⟨h.cells.clear _, h.one (length_serialize (errorMessage_isReply status mid).built.chunk)⟩

theorem Small.callback (h : n.Small) (response : Bool) : (n.callback response).Small :=
  ⟨h.cells, h.sent⟩

theorem Small.answer (h : n.Small) (mid : UInt16) : (n.answer mid).Small := by
  rw [Node.answer]
  split
  · exact ⟨h.cells, h.sent⟩
  · rename_i i found
    have cleared : Small { n with
        transactions := n.transactions.clearTransaction (some i), transaction := none } :=
      ⟨h.cells.clear (some i), h.sent⟩
    simp only
    split
    · exact cleared.callback true
    · exact cleared

theorem Small.send (h : n.Small) (i interval : Nat) : (n.send i interval).Small := by
  have small : ∀ x ∈ n.sent ++ [(n.transactions.cell i).datagram],
      x.bytes.length ≤ coapMaxPacketSize := h.one (h.cells.datagram i)
  have sent : Small { n with
      transactions := n.transactions.sendTransaction i interval
      sent := n.sent ++ [(n.transactions.cell i).datagram] } := ⟨h.cells.send i interval, small⟩
  rw [Node.send]
  split
  · exact sent.callback false
  · exact sent

theorem Small.conclude (h : n.Small) (d : Incoming) (message : CoapPacket Text) (i : Nat)
    {response : CoapPacket Text} (reply : response.IsReply) (newOffset : UInt32) :
    (n.conclude P d message i response newOffset).Small := by
  rw [Node.conclude]
  split
  · exact ⟨h.cells.clear _, h.sent⟩
  split
  · exact h.refuse d _ _
  · rename_i made
    have chunk := length_serialize (reply.blockwise made).built.chunk
    split
    · exact h.refuse d _ _
    · rename_i bytes written
      rw [written, Option.getD_some] at chunk
      have filled : Small { n with transactions := n.transactions.modify i (·.fill bytes) } :=
          ⟨h.cells.update rfl chunk, h.sent⟩
      exact filled.send i 0

theorem Small.serveWith (h : n.Small) (d : Incoming) (message : CoapPacket Text) (method : Method)
    (buffer : Text) (i : Nat) : (n.serveWith P d message method buffer i).Small := by
  have reply : (n.response P message method buffer).IsReply := response_isReply message method buffer
  have handled : (n.handled P message method buffer i).Small :=
    ⟨h.cells.update rfl (h.cells i), h.sent⟩
  rw [serveWith_eq]
  split
  · exact handled
  · exact handled.conclude d message i reply _

theorem Small.serve (h : n.Small) (d : Incoming) (message : CoapPacket Text) (method : Method)
    (buffer : Text) : (n.serve P d message method buffer).Small := by
  rw [Node.serve]
  split
  · exact Small.refuse (n := { n with transaction := none }) ⟨h.cells, h.sent⟩ d _ _
  · rename_i i transactions new
    exact Small.serveWith (n := { n with transactions, transaction := some i })
      ⟨h.cells.new new, h.sent⟩ d message method buffer i

theorem Small.datagram (h : n.Small) (d : Incoming) (buffer : Text) :
    (n.coapReceive P d buffer).Small := by
  rw [coapReceive]
  split
  · exact h.refuse d _ _
  · rename_i m p parsed
    have heard : Small { n with message := p.map (·.text m) } := ⟨h.cells, h.sent⟩
    simp only
    split
    · exact heard.serve d _ _ buffer
    · exact heard.answer _

theorem Small.issue (h : n.Small) (success : Option Bool) (interval : Nat) :
    (n.issue success interval).Small := by
  rw [Node.issue]
  split
  · exact h
  · rename_i request asked
    simp only
    split
    · exact ⟨h.cells, h.sent⟩
    · rename_i i transactions new
      have chunk := length_serialize
        (@requestMessage_built request n.requestState.blockNum (n.currentMid + 1)).chunk
      apply Small.send
      exact ⟨(h.cells.new new).update rfl chunk, h.sent⟩

theorem Small.poll (h : n.Small) (interval : Nat) : (n.poll interval).Small := by
  have same : ∀ requestState, Small { n with requestState } := fun _ => ⟨h.cells, h.sent⟩
  rw [Node.poll]
  simp only
  split
  · exact same _
  split
  · exact ⟨h.cells, h.sent⟩
  split
  · exact (same _).issue _ interval
  · exact ⟨h.cells, h.sent⟩

theorem Small.retransmit (h : n.Small) : n.retransmit.Small := by
  obtain ⟨cells, sent⟩ := h.cells.check n.transactions.list
  have all : ∀ x ∈ n.sent ++ n.transactions.checkTransactions.2.1,
      x.bytes.length ≤ coapMaxPacketSize := fun x member =>
    (List.mem_append.mp member).elim (h.sent x) (sent x)
  rw [Node.retransmit]
  simp only
  split
  · exact ⟨cells, all⟩
  · exact ⟨cells, all⟩

theorem Small.step (h : n.Small) {e : NodeEvent} (step : n.step P e = some n') : n'.Small := by
  obtain ⟨-, ⟨d, buffer, -, -, -, rfl⟩ | ⟨i, -, -, rfl⟩ | ⟨-, rfl⟩ | ⟨interval, -, -, -, rfl⟩ |
    ⟨interval, -, -, rfl⟩ | ⟨own, -, own'⟩⟩ := step_cases step
  · exact h.datagram d buffer
  · exact ⟨h.cells.modify i fun _ => rfl, h.sent⟩
  · exact h.retransmit
  · apply Small.issue
    exact ⟨h.cells, h.sent⟩
  · exact h.poll interval
  · rw [(own_eq own').2]
    exact ⟨h.cells, h.sent⟩

/-- In every run no message that is sent, and none in a transaction, is longer than the buffer of a
transaction. -/
theorem sent_small {num : Nat} {ok : Node → NodeEvent → Prop} (h : ReachableBy P num ok n) :
    (∀ x ∈ n.sent, x.bytes.length ≤ coapMaxPacketSize) ∧
      ∀ i, (n.transactions.cell i).packetLen ≤ coapMaxPacketSize := by
  obtain ⟨files, env, mid, run⟩ := h
  have start : (Node.init P num files env mid).Small :=
    ⟨Transactions.fit_init num, fun x member => absurd member List.not_mem_nil⟩
  have small := run.keeps (fun _ _ _ _ step small => Small.step small step) start
  exact ⟨small.sent, small.cells⟩

theorem sent_small_asking : ∃ n : Node, n.requestState.active = true ∧
    (∀ x ∈ n.sent, x.bytes.length ≤ coapMaxPacketSize) ∧
      ∀ i, (n.transactions.cell i).packetLen ≤ coapMaxPacketSize := by
  obtain ⟨n, reached, active, -⟩ := asking_run
  exact ⟨n, active, sent_small reached⟩

/-- In every run the request the client has is written whole, for any block and any message id, with
at most 49 of the bytes that are there for its header. -/
theorem request_written {num : Nat} {ok : Node → NodeEvent → Prop} {request : ClientRequest}
    (h : ReachableBy P num ok n) (asked : n.system.client.request = some request)
    (blockNum : UInt32) (mid : UInt16) :
    coapHeaderLen + (requestMessage request blockNum mid).serializeOptions.option.length ≤ 49 ∧
      ∃ bytes, (requestMessage request blockNum mid).serialize = some bytes ∧
        bytes.length < coapMaxPacketSize := by
  obtain ⟨-, files, env, run⟩ := h.system_run
  have fits := (System.requestFits_init files env).run run request asked
  obtain ⟨bytes, written⟩ := requestMessage_serialize blockNum mid fits
  have options := requestMessage_length blockNum mid fits
  refine ⟨Nat.add_le_add_left options coapHeaderLen, bytes, written, ?_⟩
  have chunk := (@requestMessage_built request blockNum mid).chunk
  rw [CoapPacket.serialize] at written
  split at written
  · obtain rfl := Option.some.inj written
    have header : ((requestMessage request blockNum mid).header
      (requestMessage request blockNum mid).serializeOptions.optionCount).length = 4 := rfl
    have most : coapMaxPacketSize = 50 + restMaxChunkSize := rfl
    rw [List.length_append, List.length_append, header]
    omega
  · cases written

theorem request_written_asking : ∃ (n : Node) (request : ClientRequest),
    n.system.client.request = some request ∧ ∀ blockNum mid,
      coapHeaderLen + (requestMessage request blockNum mid).serializeOptions.option.length ≤ 49 ∧
        ∃ bytes, (requestMessage request blockNum mid).serialize = some bytes ∧
          bytes.length < coapMaxPacketSize := by
  obtain ⟨n, reached, active, -⟩ := asking_run
  obtain ⟨request, asked⟩ := reached.sound.asked active
  exact ⟨n, request, asked, request_written reached asked⟩

end Node
end EmmaNode

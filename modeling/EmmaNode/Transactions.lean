import EmmaNode.CoapSerialize
import EmmaNode.Roster

/-! The open transactions of er-coap-07-transactions.c: messages that are sent, and sent again
while no answer to them comes. The event timer of a transaction counts as expired whenever it
is not running. What the random number generator adds to the first interval is an input. -/

namespace EmmaNode

def coapMaxRetransmit : Nat := 4

def coapMaxPacketSize : Nat := coapMaxHeaderSize + restMaxChunkSize

/-- A datagram that is sent -/
structure Datagram where
  address : List UInt16
  port : UInt16
  bytes : Text
  deriving DecidableEq

/-- `coap_transaction_t`. The one callback there is, is that of the blocking request. -/
structure Transaction where
  mid : UInt16
  /-- the event timer is running -/
  running : Bool
  interval : Nat
  retransCounter : Nat
  address : List UInt16
  port : UInt16
  callback : Bool
  packetLen : Nat
  packet : Text

namespace Transaction

def blank : Transaction where
  mid := 0
  running := false
  interval := 0
  retransCounter := 0
  address := []
  port := 0
  callback := false
  packetLen := 0
  packet := List.replicate (coapMaxPacketSize + 1) 0

variable (t : Transaction)

def datagram : Datagram := ⟨t.address, t.port, t.packet.take t.packetLen⟩

/-- The message is a confirmable one. -/
def confirmable : Bool := MessageType.ofBits ((0x30 &&& t.packet.headD 0) >>> 4) = .con

def stop : Transaction := { t with running := false }

/-- The timer runs again, at first for `interval`, then for twice as long as before. -/
def restart (interval : Nat) : Transaction :=
  { t with running := true, interval := if t.retransCounter = 0 then interval else t.interval * 2 }

/-- A message is written to the buffer of the transaction. -/
def fill (bytes : Text) : Transaction :=
  { t with packetLen := bytes.length, packet := bytes ++ t.packet.drop bytes.length }

end Transaction

abbrev Transactions := Roster Transaction

namespace Transactions

def init (num : Nat) : Transactions := Roster.init num .blank

variable (ts : Transactions)

/-- `coap_new_transaction` -/
def newTransaction (mid : UInt16) (address : List UInt16) (port : UInt16) :
    Option (Nat × Transactions) :=
  ts.take fun t => { t with mid, retransCounter := 0, address, port }

/-- `coap_clear_transaction`, of the null pointer too -/
def clearTransaction : Option Nat → Transactions
  | none => ts
  | some i => ts.drop i .stop

/-- `coap_get_transaction_by_mid` -/
def getTransactionByMid (mid : UInt16) : Option Nat := ts.find? (·.mid = mid)

/-- The confirmable message was sent for the last time. -/
def timedOut (i : Nat) : Bool :=
  (ts.cell i).confirmable && coapMaxRetransmit ≤ (ts.cell i).retransCounter

/-- `coap_send_transaction`. What it sends is the transaction's datagram; the callback of one
that is timed out is left to the caller. -/
def sendTransaction (i interval : Nat) : Transactions :=
  if (ts.cell i).confirmable && !ts.timedOut i then ts.modify i (·.restart interval)
  else ts.clearTransaction (some i)

/-- What the transaction tells its owner when it is given up -/
def calledBack (i : Nat) : Bool := ts.timedOut i && (ts.cell i).callback

/-- The loop of `coap_check_transactions`. It ends behind a transaction that is cleared, since
that has no next one any more. -/
def checkFrom : List Nat → Transactions → Transactions × List Datagram × Bool
  | [], ts => (ts, [], false)
  | i :: more, ts =>
    if (ts.cell i).running then checkFrom more ts
    else
      let ts : Transactions := ts.modify i fun t => { t with retransCounter := t.retransCounter + 1 }
      let sent := (ts.cell i).datagram
      let ts' := ts.sendTransaction i 0
      if i ∈ ts'.list then
        let (ts'', sent', called) := checkFrom more ts'
        (ts'', sent :: sent', called)
      else (ts', [sent], ts.calledBack i)

/-- `coap_check_transactions` -/
def checkTransactions : Transactions × List Datagram × Bool := checkFrom ts.list ts

/-- The timer of a transaction runs out. -/
def expire (i : Nat) : Transactions := ts.modify i .stop

end Transactions
end EmmaNode

import Fiscobcos.Client.Framing
import Fiscobcos.Client.Types
import Fiscobcos.Lib.Steps

/-! # The channel client as a step system (client/channel.go, client/tls)

The reader goroutine, callers of `sendRPC`, `SubEventLogs`, `Unsubscribe`, `BlockNotify` and
`Close`, the consumers of the subscribers' channels and the node, interleaved in any order. A step
is one access to something shared: a `sync.Map`, a Go channel, the connection, an atomic or the
byte stream.

A read returns any piece of the byte stream, so what the reader takes for a frame may be more or
less than one the node wrote. `past` is what it has passed to `DecodeMessage`; `unread` is what the
current connection still carries, `written` the frames the node ever wrote and `reads` what
`conn.Read` has returned. -/

namespace Fiscobcos.Client
open Numerals

inductive RpcResult where
  | reply (k : ℕ) (m : JsonrpcMessage)
  | timeout
  | sendError
  deriving DecidableEq

/-- Program points of `sendRPC` (`client/channel.go:98-120`). `leaving` has a
result and the deferred `Delete` still to run. -/
inductive RpcPc where
  | idle
  | created
  | registered
  | checked
  | waiting
  | leaving (r : RpcResult)
  | returned (r : RpcResult)
  deriving DecidableEq

structure RpcCall where
  id : Bytes
  method : Bytes
  buf : Option (ℕ × JsonrpcMessage)
  pc : RpcPc
  deriving DecidableEq

/-- The calls so far, the id counter and `rpcResponse`, which maps an id to the
call that owns the channel and its method. -/
structure RpcSide where
  idCounter : UInt64
  count : ℕ
  call : ℕ → RpcCall
  rpcResponse : Bytes → Option (ℕ × Bytes)

/-- What `SubEventLogs` returns; `ok` carries the frame of the reply when the
call registered the filter itself. -/
inductive SubResult where
  | invalidFilterID
  | sendError
  | registerFailed (code : ℤ)
  | ok (reply : Option ℕ)
  deriving DecidableEq

/-- Program points of `SubEventLogs` (`client/channel.go:535-556`). `received`
and `deleted` carry the frame of the reply and the error read from it. -/
inductive SubPc where
  | idle
  | start
  | replacing
  | sending
  | checked
  | written
  | waiting
  | received (k : ℕ) (err : Option ℤ)
  | deleted (k : ℕ) (err : Option ℤ)
  | returned (r : SubResult)
  deriving DecidableEq

/-- One call of `SubEventLogs`, made directly or by `SubscribeFilterLogs`.
`unsubscribed` is the number of frames taken when `Unsubscribe` returned. -/
structure SubCall where
  filterID : Bytes
  ch : ℕ
  viaSubscribe : Bool
  seq : Option Bytes
  pc : SubPc
  unsubscribed : Option ℕ
  deriving DecidableEq

structure SubSide where
  count : ℕ
  call : ℕ → SubCall
  pending : Bytes → Option ℕ
  watcher : Bytes → Option ℕ

structure Delivery where
  frame : ℕ
  filterID : Bytes
  ch : ℕ
  log : Log
  deriving DecidableEq

/-- The subscribers' channels: capacities, buffers, and all sends so far. -/
structure Chans where
  cap : ℕ → ℕ
  buf : ℕ → List Log
  delivered : List Delivery

inductive Once where
  | fresh
  | running
  | done
  deriving DecidableEq

/-- Program points of `BlockNotify` (`client/channel.go:558-568`). -/
inductive NotifyPc where
  | idle
  | start
  | inOnce
  | checked
  | afterOnce (failed : Bool)
  | returned (failed : Bool)
  deriving DecidableEq

structure NotifyCall where
  onBlock : Option ℕ
  pc : NotifyPc
  deriving DecidableEq

structure NotifySide where
  count : ℕ
  call : ℕ → NotifyCall
  once : Once
  onBlock : List (Option ℕ)
  invoked : List (ℕ × ℕ × ℕ)

/-- Program points of `Close` (`client/channel.go:60-66`). -/
inductive ClosePc where
  | idle
  | start
  | won
  | connClosed
  | returned
  deriving DecidableEq

inductive Request where
  | rpc (id : Bytes)
  | register (seq filterID : Bytes)
  | blockNotify
  | heartbeat
  deriving DecidableEq

/-- Connections are numbered in the order they were dialled: 0 by `Dial`, the
others by `Reconnecte`. `conn` is the one held in `c.conn`. -/
structure Net where
  conn : ℕ
  opened : ℕ
  closed : ℕ → Bool
  written : List Bytes
  past : List Bytes
  unread : Bytes
  reads : List ReadResult
  sent : List (ℕ × Request)

/-- Program points of `readResponse` (`client/channel.go:159-297`). -/
inductive Reader where
  /-- at the `select` at the head of the loop -/
  | loop
  /-- in the loop that completes a frame -/
  | assembling (totalLen : ℕ) (all : Bytes)
  /-- at the type switch, with frame `k` -/
  | dispatch (k : ℕ) (m : Message)
  /-- about to hand the reply in frame `k` to the channel of call `n` -/
  | rpcHandOver (k n : ℕ) (reply : JsonrpcMessage)
  /-- at the send on the pending channel of call `i` -/
  | replyHandOver (k i : ℕ) (err : Option ℤ)
  /-- in the loop over the logs of frame `k` -/
  | sendLogs (k : ℕ) (filterID : Bytes) (ch : ℕ) (logs : List Log)
  | reconnecting
  | dialing
  | ended
  deriving DecidableEq

structure ChannelClient where
  net : Net
  isClosed : Bool
  reader : Reader
  rpc : RpcSide
  sub : SubSide
  chans : Chans
  notify : NotifySide
  closer : ℕ → ClosePc

def RpcSide.setCall (r : RpcSide) (n : ℕ) (c : RpcCall) : RpcSide :=
  { r with call := Function.update r.call n c }

def RpcSide.setPc (r : RpcSide) (n : ℕ) (pc : RpcPc) : RpcSide :=
  r.setCall n { r.call n with pc := pc }

def SubSide.setCall (u : SubSide) (i : ℕ) (c : SubCall) : SubSide :=
  { u with call := Function.update u.call i c }

def SubSide.setPc (u : SubSide) (i : ℕ) (pc : SubPc) : SubSide :=
  u.setCall i { u.call i with pc := pc }

def NotifySide.setPc (w : NotifySide) (i : ℕ) (pc : NotifyPc) : NotifySide :=
  { w with call := Function.update w.call i { w.call i with pc := pc } }

/-- The load of `c.conn` and the write to it are one step, and so are they in `closeConn`. -/
def Net.send (t : Net) (r : Request) : Net := { t with sent := t.sent ++ [(t.conn, r)] }

/-- `newChannel` (`client/channel.go:42-58`) after a successful `Dial`; `cap`
gives the capacities of the channels subscribers will pass. -/
def ChannelClient.init (cap : ℕ → ℕ) : ChannelClient where
  net := { conn := 0, opened := 1, closed := fun _ => false, written := [], past := [],
           unread := [], reads := [], sent := [] }
  isClosed := false
  reader := .loop
  rpc := { idCounter := 0, count := 0, call := fun _ => ⟨[], [], none, .idle⟩,
           rpcResponse := fun _ => none }
  sub := { count := 0, call := fun _ => ⟨[], 0, false, none, .idle, none⟩, pending := fun _ => none,
           watcher := fun _ => none }
  chans := { cap := cap, buf := fun _ => [], delivered := [] }
  notify := { count := 0, call := fun _ => ⟨none, .idle⟩, once := .fresh, onBlock := [],
              invoked := [] }
  closer := fun _ => .idle

def Reader.logLoop (k : ℕ) (filterID : Bytes) (ch : ℕ) (logs : List Log) : Reader :=
  if logs = [] then .loop else .sendLogs k filterID ch logs

/-- `TypeRPCRequest` (`client/channel.go:203-227`). -/
def ChannelClient.rpcCase (J : Json) (s : ChannelClient) (k : ℕ) (m : Message) : Reader :=
  match s.rpc.rpcResponse (J.rawID m.data) with
  | none => .loop
  | some (n, method) =>
    match J.parseReply method m.data with
    | none => .loop
    | some reply => .rpcHandOver k n reply

/-- `TypeRegisterEventLog` (`client/channel.go:232-241`). -/
def ChannelClient.registerCase (J : Json) (s : ChannelClient) (k : ℕ) (m : Message) : Reader :=
  match s.sub.pending m.seq with
  | none => .loop
  | some i =>
    .replyHandOver k i (if J.resultInt m.data = 0 then none else some (J.resultInt m.data))

/-- `TypeEventLog` (`client/channel.go:242-267`). -/
def ChannelClient.eventCase (J : Json) (s : ChannelClient) (k : ℕ) (m : Message) : Reader :=
  match J.eventLog m.data with
  | none => .loop
  | some e =>
    match s.sub.watcher e.filterID with
    | none => .loop
    | some ch => .logLoop k e.filterID ch (e.logs.map LogEntry.toLog)

/-- `TypeBlockNotify` (`client/channel.go:268-291`): the callbacks invoked, each
with the group and the block number. -/
def ChannelClient.blockCase (J : Json) (s : ChannelClient) (m : Message) : List (ℕ × ℕ × ℕ) :=
  if s.notify.onBlock = [] then []
  else
    match J.blockNotify m.data with
    | none => []
    | some b =>
      match Hexutil.parseUint 10 b.groupID, Hexutil.parseUint 10 b.blockNumber with
      | (g, none), (h, none) => s.notify.onBlock.filterMap fun cb => cb.map fun c => (c, g, h)
      | _, _ => []

def ChannelClient.dispatchTo (J : Json) (s : ChannelClient) (k : ℕ) (m : Message) : Reader :=
  if m.type = TypeRPCRequest then s.rpcCase J k m
  else if m.type = TypeRegisterEventLog then s.registerCase J k m
  else if m.type = TypeEventLog then s.eventCase J k m
  else .loop

/-- The type switch up to its first blocking operation. -/
def ChannelClient.dispatch (J : Json) (s : ChannelClient) (k : ℕ) (m : Message) : ChannelClient :=
  { s with
    reader := s.dispatchTo J k m
    notify := if m.type = TypeBlockNotify then
        { s.notify with invoked := s.notify.invoked ++ s.blockCase J m }
      else s.notify }

def readFrame (k : ℕ) (f : Bytes) : Reader :=
  match decodeMessage f with
  | .ok m => .dispatch k m
  | .error _ => .loop

/-- The non-blocking send of `client/channel.go:228-231`. -/
def RpcSide.offer (r : RpcSide) (n k : ℕ) (reply : JsonrpcMessage) : RpcSide :=
  match (r.call n).buf with
  | none => r.setCall n { r.call n with buf := some (k, reply) }
  | some _ => r

inductive Action where
  | node (f : Bytes)
  | rpcNew (method : Bytes) | rpcStore (n : ℕ) | rpcCheck (n : ℕ) | rpcWrite (n : ℕ)
  | rpcFail (n : ℕ) | rpcReceive (n : ℕ) | rpcTimeout (n : ℕ) | rpcDelete (n : ℕ)
  | subNew (filterID : Bytes) (ch : ℕ) (viaSubscribe : Bool) | subLoad (i : ℕ)
  | subReplace (i : ℕ) | subCheck (i : ℕ) | subWrite (i : ℕ) (seq : Bytes) | subFail (i : ℕ)
  | subStore (i : ℕ) | subReceive (i : ℕ) | subDelete (i : ℕ) | subFinish (i : ℕ)
  | unsubscribe (i : ℕ)
  | consume (ch : ℕ) | consumeDirect (ch : ℕ)
  | notifyNew (cb : Option ℕ) | notifyOnce (i : ℕ) | notifyCheck (i : ℕ) | notifyWrite (i : ℕ)
  | notifyFail (i : ℕ) | notifyAppend (i : ℕ) | heartbeat
  | closeNew (j : ℕ) | closeCAS (j : ℕ) | closeConn (j : ℕ) | closeExit (j : ℕ)
  | read (n : ℕ) | readError | readCut | dispatch | rpcSend | sendLog | tick
  | dial (succeeds : Bool)
  deriving DecidableEq

section Effects
variable (s : ChannelClient)

/-! Callers of `sendRPC`. -/

def ChannelClient.rpcNew (method : Bytes) : ChannelClient :=
  { s with rpc := { s.rpc.setCall s.rpc.count
      ⟨appendUint (s.rpc.idCounter + 1).toNat, method, none, .created⟩ with
      idCounter := s.rpc.idCounter + 1, count := s.rpc.count + 1 } }

def ChannelClient.rpcStore (n : ℕ) : ChannelClient :=
  { s with rpc := { s.rpc.setPc n .registered with
      rpcResponse := Function.update s.rpc.rpcResponse (s.rpc.call n).id
        (some (n, (s.rpc.call n).method)) } }

def ChannelClient.rpcMove (n : ℕ) (pc : RpcPc) : ChannelClient :=
  { s with rpc := s.rpc.setPc n pc }

def ChannelClient.rpcWrite (n : ℕ) : ChannelClient :=
  { s with rpc := s.rpc.setPc n .waiting, net := s.net.send (.rpc (s.rpc.call n).id) }

def ChannelClient.rpcReceive (n k : ℕ) (m : JsonrpcMessage) : ChannelClient :=
  { s with rpc := s.rpc.setCall n { s.rpc.call n with buf := none, pc := .leaving (.reply k m) } }

def ChannelClient.rpcDelete (n : ℕ) (r : RpcResult) : ChannelClient :=
  { s with rpc := { s.rpc.setPc n (.returned r) with
      rpcResponse := Function.update s.rpc.rpcResponse (s.rpc.call n).id none } }

/-! Callers of `SubEventLogs`, and consumers. -/

def ChannelClient.subNew (filterID : Bytes) (ch : ℕ) (viaSubscribe : Bool) : ChannelClient :=
  { s with sub := { s.sub.setCall s.sub.count
      ⟨filterID, ch, viaSubscribe, none, .start, none⟩ with count := s.sub.count + 1 } }

def ChannelClient.subMove (i : ℕ) (pc : SubPc) : ChannelClient :=
  { s with sub := s.sub.setPc i pc }

def ChannelClient.subWrite (i : ℕ) (seq : Bytes) : ChannelClient :=
  { s with
    sub := s.sub.setCall i { s.sub.call i with seq := some seq, pc := .written }
    net := s.net.send (.register seq (s.sub.call i).filterID) }

def ChannelClient.subPending (i : ℕ) (pc : SubPc) (seq : Bytes) (v : Option ℕ) : ChannelClient :=
  { s with sub := { s.sub.setPc i pc with pending := Function.update s.sub.pending seq v } }

def ChannelClient.subWatch (i : ℕ) (reply : Option ℕ) : ChannelClient :=
  { s with sub := { s.sub.setPc i (.returned (.ok reply)) with
      watcher := Function.update s.sub.watcher (s.sub.call i).filterID
        (some (s.sub.call i).ch) } }

def ChannelClient.subReceive (i k : ℕ) (err : Option ℤ) : ChannelClient :=
  { s with sub := s.sub.setPc i (.received k err), reader := .loop }

/-- The body of `Unsubscribe` is empty (`client/channelsub.go:5-7`). -/
def ChannelClient.unsubscribe (i : ℕ) : ChannelClient :=
  { s with sub := s.sub.setCall i { s.sub.call i with unsubscribed := some s.net.past.length } }

def ChannelClient.consume (ch : ℕ) (ls : List Log) : ChannelClient :=
  { s with chans := { s.chans with buf := Function.update s.chans.buf ch ls } }

def ChannelClient.deliver (d : Delivery) (buf ls : List Log) : ChannelClient :=
  { s with
    chans := { s.chans with
      buf := Function.update s.chans.buf d.ch buf, delivered := s.chans.delivered ++ [d] }
    reader := .logLoop d.frame d.filterID d.ch ls }

/-! Callers of `BlockNotify`. -/

def ChannelClient.notifyNew (cb : Option ℕ) : ChannelClient :=
  { s with notify := { s.notify with
      call := Function.update s.notify.call s.notify.count ⟨cb, .start⟩
      count := s.notify.count + 1 } }

def ChannelClient.notifyMove (i : ℕ) (pc : NotifyPc) (once : Once) : ChannelClient :=
  { s with notify := { s.notify.setPc i pc with once := once } }

def ChannelClient.notifyWrite (i : ℕ) : ChannelClient :=
  { s with
    notify := { s.notify.setPc i (.afterOnce false) with once := .done }
    net := s.net.send .blockNotify }

def ChannelClient.notifyAppend (i : ℕ) (failed : Bool) : ChannelClient :=
  { s with notify := { s.notify.setPc i (.returned failed) with
      onBlock := if failed then s.notify.onBlock
        else s.notify.onBlock ++ [(s.notify.call i).onBlock] } }

def ChannelClient.heartbeat : ChannelClient := { s with net := s.net.send .heartbeat }

/-! Callers of `Close`. -/

def ChannelClient.closeMove (j : ℕ) (pc : ClosePc) : ChannelClient :=
  { s with closer := Function.update s.closer j pc }

def ChannelClient.closeWin (j : ℕ) : ChannelClient :=
  { s with isClosed := true, closer := Function.update s.closer j .won }

def ChannelClient.closeConn (j : ℕ) : ChannelClient :=
  { s with
    net := { s.net with closed := Function.update s.net.closed s.net.conn true }
    closer := Function.update s.closer j .connClosed }

def ChannelClient.closeExit (j : ℕ) : ChannelClient :=
  { s with reader := .ended, closer := Function.update s.closer j .returned }

/-! The node and the reader. -/

def ChannelClient.nodeWrites (f : Bytes) : ChannelClient :=
  { s with net := { s.net with
      written := s.net.written ++ [f], unread := s.net.unread ++ f } }

def ChannelClient.take (r : ReadResult) (f rest : Bytes) : ChannelClient :=
  { s with
    net := { s.net with past := s.net.past ++ [f], unread := rest, reads := s.net.reads ++ [r] }
    reader := readFrame s.net.past.length f }

def ChannelClient.wait (totalLen : ℕ) (all c rest : Bytes) : ChannelClient :=
  { s with
    net := { s.net with unread := rest, reads := s.net.reads ++ [.data c] }
    reader := .assembling totalLen (all ++ c) }

/-- A read of `c` that continues `all` (`client/channel.go:182-197`). -/
def ChannelClient.receive (totalLen : ℕ) (all c rest : Bytes) : ChannelClient :=
  if (all ++ c).length < totalLen then s.wait totalLen all c rest
  else s.take (.data c) (all ++ c) rest

def ChannelClient.readError : ChannelClient :=
  { s with net := { s.net with reads := s.net.reads ++ [.err] }, reader := .reconnecting }

def ChannelClient.readerMove (r : Reader) : ChannelClient := { s with reader := r }

def ChannelClient.rpcSend (k n : ℕ) (reply : JsonrpcMessage) : ChannelClient :=
  { s with rpc := s.rpc.offer n k reply, reader := .loop }

/-- `Reconnecte` (`client/tls/connection.go:69-77`): the old connection is
dropped as it is. -/
def ChannelClient.redial : ChannelClient :=
  { s with
    net := { s.net with conn := s.net.opened, opened := s.net.opened + 1, unread := [] }
    reader := .loop }

end Effects

/-- The callers of `sendRPC`. `rpcFail` is a `Send` that fails: on the closed
flag, in marshalling or in the write. -/
inductive RpcStep (s : ChannelClient) : Action → ChannelClient → Prop
  | new (method : Bytes) : RpcStep s (.rpcNew method) (s.rpcNew method)
  | store (n : ℕ) (hpc : (s.rpc.call n).pc = .created) : RpcStep s (.rpcStore n) (s.rpcStore n)
  | check (n : ℕ) (hpc : (s.rpc.call n).pc = .registered) (hopen : s.isClosed = false) :
    RpcStep s (.rpcCheck n) (s.rpcMove n .checked)
  | write (n : ℕ) (hpc : (s.rpc.call n).pc = .checked)
      (hconn : s.net.closed s.net.conn = false) :
    RpcStep s (.rpcWrite n) (s.rpcWrite n)
  | fail (n : ℕ) (hpc : (s.rpc.call n).pc = .registered ∨ (s.rpc.call n).pc = .checked) :
    RpcStep s (.rpcFail n) (s.rpcMove n (.leaving .sendError))
  | receive (n k : ℕ) (m : JsonrpcMessage) (hpc : (s.rpc.call n).pc = .waiting)
      (hbuf : (s.rpc.call n).buf = some (k, m)) :
    RpcStep s (.rpcReceive n) (s.rpcReceive n k m)
  | timeout (n : ℕ) (hpc : (s.rpc.call n).pc = .waiting) :
    RpcStep s (.rpcTimeout n) (s.rpcMove n (.leaving .timeout))
  | delete (n : ℕ) (r : RpcResult) (hpc : (s.rpc.call n).pc = .leaving r) :
    RpcStep s (.rpcDelete n) (s.rpcDelete n r)

inductive SubStep (s : ChannelClient) : Action → ChannelClient → Prop
  | new (filterID : Bytes) (ch : ℕ) (viaSubscribe : Bool) :
    SubStep s (.subNew filterID ch viaSubscribe) (s.subNew filterID ch viaSubscribe)
  | invalid (i : ℕ) (hpc : (s.sub.call i).pc = .start)
      (hlen : (s.sub.call i).filterID.length ≠ 32) :
    SubStep s (.subLoad i) (s.subMove i (.returned .invalidFilterID))
  | found (i ch : ℕ) (hpc : (s.sub.call i).pc = .start)
      (hlen : (s.sub.call i).filterID.length = 32)
      (hload : s.sub.watcher (s.sub.call i).filterID = some ch) :
    SubStep s (.subLoad i) (s.subMove i .replacing)
  | missing (i : ℕ) (hpc : (s.sub.call i).pc = .start)
      (hlen : (s.sub.call i).filterID.length = 32)
      (hload : s.sub.watcher (s.sub.call i).filterID = none) :
    SubStep s (.subLoad i) (s.subMove i .sending)
  | replace (i : ℕ) (hpc : (s.sub.call i).pc = .replacing) :
    SubStep s (.subReplace i) (s.subWatch i none)
  | check (i : ℕ) (hpc : (s.sub.call i).pc = .sending) (hopen : s.isClosed = false) :
    SubStep s (.subCheck i) (s.subMove i .checked)
  | write (i : ℕ) (seq : Bytes) (hpc : (s.sub.call i).pc = .checked)
      (hconn : s.net.closed s.net.conn = false) :
    SubStep s (.subWrite i seq) (s.subWrite i seq)
  | fail (i : ℕ) (hpc : (s.sub.call i).pc = .sending ∨ (s.sub.call i).pc = .checked) :
    SubStep s (.subFail i) (s.subMove i (.returned .sendError))
  | store (i : ℕ) (seq : Bytes) (hpc : (s.sub.call i).pc = .written)
      (hseq : (s.sub.call i).seq = some seq) :
    SubStep s (.subStore i) (s.subPending i .waiting seq (some i))
  | receive (i k : ℕ) (err : Option ℤ) (hpc : (s.sub.call i).pc = .waiting)
      (hreader : s.reader = .replyHandOver k i err) :
    SubStep s (.subReceive i) (s.subReceive i k err)
  | delete (i k : ℕ) (err : Option ℤ) (seq : Bytes) (hpc : (s.sub.call i).pc = .received k err)
      (hseq : (s.sub.call i).seq = some seq) :
    SubStep s (.subDelete i) (s.subPending i (.deleted k err) seq none)
  | refused (i k : ℕ) (code : ℤ) (hpc : (s.sub.call i).pc = .deleted k (some code)) :
    SubStep s (.subFinish i) (s.subMove i (.returned (.registerFailed code)))
  | watch (i k : ℕ) (hpc : (s.sub.call i).pc = .deleted k none) :
    SubStep s (.subFinish i) (s.subWatch i (some k))
  | unsubscribe (i : ℕ) (reply : Option ℕ) (hpc : (s.sub.call i).pc = .returned (.ok reply))
      (hvia : (s.sub.call i).viaSubscribe = true) (honce : (s.sub.call i).unsubscribed = none) :
    SubStep s (.unsubscribe i) (s.unsubscribe i)
  | consume (ch : ℕ) (l : Log) (ls : List Log) (hbuf : s.chans.buf ch = l :: ls) :
    SubStep s (.consume ch) (s.consume ch ls)
  | consumeDirect (k : ℕ) (filterID : Bytes) (ch : ℕ) (l : Log) (ls : List Log)
      (hbuf : s.chans.buf ch = []) (hreader : s.reader = .sendLogs k filterID ch (l :: ls)) :
    SubStep s (.consumeDirect ch) (s.deliver ⟨k, filterID, ch, l⟩ [] ls)

inductive NotifyStep (s : ChannelClient) : Action → ChannelClient → Prop
  | new (cb : Option ℕ) : NotifyStep s (.notifyNew cb) (s.notifyNew cb)
  | first (i : ℕ) (hpc : (s.notify.call i).pc = .start) (honce : s.notify.once = .fresh) :
    NotifyStep s (.notifyOnce i) (s.notifyMove i .inOnce .running)
  | later (i : ℕ) (hpc : (s.notify.call i).pc = .start) (honce : s.notify.once = .done) :
    NotifyStep s (.notifyOnce i) (s.notifyMove i (.afterOnce false) .done)
  | check (i : ℕ) (hpc : (s.notify.call i).pc = .inOnce) (hopen : s.isClosed = false) :
    NotifyStep s (.notifyCheck i) (s.notifyMove i .checked .running)
  | write (i : ℕ) (hpc : (s.notify.call i).pc = .checked)
      (hconn : s.net.closed s.net.conn = false) :
    NotifyStep s (.notifyWrite i) (s.notifyWrite i)
  | fail (i : ℕ) (hpc : (s.notify.call i).pc = .inOnce ∨ (s.notify.call i).pc = .checked) :
    NotifyStep s (.notifyFail i) (s.notifyMove i (.afterOnce true) .done)
  | append (i : ℕ) (failed : Bool) (hpc : (s.notify.call i).pc = .afterOnce failed) :
    NotifyStep s (.notifyAppend i) (s.notifyAppend i failed)
  | heartbeat (hopen : s.isClosed = false) (hconn : s.net.closed s.net.conn = false) :
    NotifyStep s .heartbeat s.heartbeat

/-- The callers of `Close`. The exit signal is taken at either `select` of the
reader (`client/channel.go:166`, `client/channel.go:173`). -/
inductive CloseStep (s : ChannelClient) : Action → ChannelClient → Prop
  | new (j : ℕ) (hpc : s.closer j = .idle) : CloseStep s (.closeNew j) (s.closeMove j .start)
  | lost (j : ℕ) (hpc : s.closer j = .start) (hset : s.isClosed = true) :
    CloseStep s (.closeCAS j) (s.closeMove j .returned)
  | won (j : ℕ) (hpc : s.closer j = .start) (hset : s.isClosed = false) :
    CloseStep s (.closeCAS j) (s.closeWin j)
  | conn (j : ℕ) (hpc : s.closer j = .won) : CloseStep s (.closeConn j) (s.closeConn j)
  | exit (j : ℕ) (hpc : s.closer j = .connClosed)
      (hreader : s.reader = .loop ∨ s.reader = .reconnecting) :
    CloseStep s (.closeExit j) (s.closeExit j)

/-- The node and the reader. A read returns some bytes of what is there, so two
frames can come in one read. A read error inside a frame leaves the reader with
the front part of it, which still goes to `DecodeMessage`
(`client/channel.go:187-197`); a new connection does not carry what was left
unread on the old one. -/
inductive ReaderStep (J : Json) (s : ChannelClient) : Action → ChannelClient → Prop
  | node (f : Bytes) : ReaderStep J s (.node f) (s.nodeWrites f)
  | read (c rest : Bytes) (hpc : s.reader = .loop) (hc : IsChunk c)
      (hunread : s.net.unread = c ++ rest) :
    ReaderStep J s (.read c.length) (s.receive (getMessageLength c) [] c rest)
  | readMore (totalLen : ℕ) (all c rest : Bytes) (hpc : s.reader = .assembling totalLen all)
      (hconn : s.net.closed s.net.conn = false) (hc : IsChunk c)
      (hunread : s.net.unread = c ++ rest) :
    ReaderStep J s (.read c.length) (s.receive totalLen all c rest)
  | readError (hpc : s.reader = .loop) : ReaderStep J s .readError s.readError
  | readCut (totalLen : ℕ) (all : Bytes) (hpc : s.reader = .assembling totalLen all) :
    ReaderStep J s .readCut (s.take .err all s.net.unread)
  | dispatch (k : ℕ) (m : Message) (hpc : s.reader = .dispatch k m) :
    ReaderStep J s .dispatch (s.dispatch J k m)
  | rpcSend (k n : ℕ) (reply : JsonrpcMessage) (hpc : s.reader = .rpcHandOver k n reply) :
    ReaderStep J s .rpcSend (s.rpcSend k n reply)
  | sendLog (k : ℕ) (filterID : Bytes) (ch : ℕ) (l : Log) (ls : List Log)
      (hpc : s.reader = .sendLogs k filterID ch (l :: ls))
      (hroom : (s.chans.buf ch).length < s.chans.cap ch) :
    ReaderStep J s .sendLog (s.deliver ⟨k, filterID, ch, l⟩ (s.chans.buf ch ++ [l]) ls)
  | tick (hpc : s.reader = .reconnecting) : ReaderStep J s .tick (s.readerMove .dialing)
  | dialOk (hpc : s.reader = .dialing) : ReaderStep J s (.dial true) s.redial
  | dialFail (hpc : s.reader = .dialing) :
    ReaderStep J s (.dial false) (s.readerMove .reconnecting)

inductive Step (J : Json) (s : ChannelClient) (a : Action) (s' : ChannelClient) : Prop
  | rpc (h : RpcStep s a s')
  | sub (h : SubStep s a s')
  | notify (h : NotifyStep s a s')
  | close (h : CloseStep s a s')
  | reader (h : ReaderStep J s a s')

def Reachable (J : Json) (cap : ℕ → ℕ) (s : ChannelClient) : Prop :=
  Steps.Reach (Step J) (fun _ _ => True) (ChannelClient.init cap) s

def Reader.frame : Reader → Option ℕ
  | .dispatch k _ => some k
  | .rpcHandOver k _ _ => some k
  | .replyHandOver k _ _ => some k
  | .sendLogs k _ _ _ => some k
  | _ => none

structure ReaderIdle (s s' : ChannelClient) : Prop where
  past : s'.net.past = s.net.past
  delivered : s'.chans.delivered = s.chans.delivered

/-- The moves of the reader: it stays, moves between points without a frame,
takes a frame, runs the type switch, or ends one of the three hand-overs. -/
inductive Move (J : Json) (s : ChannelClient) (a : Action) (s' : ChannelClient) : Prop
  | stay (hr : s'.reader = s.reader) (hidle : ReaderIdle s s')
  | free (hr : s.reader.frame = none) (hr' : s'.reader.frame = none) (hidle : ReaderIdle s s')
  | take (f : Bytes) (hr : s.reader.frame = none)
      (hr' : s'.reader = readFrame s.net.past.length f)
      (hpast : s'.net.past = s.net.past ++ [f])
      (hdelivered : s'.chans.delivered = s.chans.delivered)
  | switch (k : ℕ) (m : Message) (hr : s.reader = .dispatch k m) (ha : a = .dispatch)
      (hs : s' = s.dispatch J k m)
  | replied (k n : ℕ) (reply : JsonrpcMessage) (hr : s.reader = .rpcHandOver k n reply)
      (hr' : s'.reader = .loop) (hrpc : s'.rpc = s.rpc.offer n k reply) (hidle : ReaderIdle s s')
  | answered (k i : ℕ) (err : Option ℤ) (hr : s.reader = .replyHandOver k i err)
      (hr' : s'.reader = .loop) (hpc : (s.sub.call i).pc = .waiting)
      (hsub : s'.sub = s.sub.setPc i (.received k err)) (hidle : ReaderIdle s s')
  | sent (k : ℕ) (filterID : Bytes) (ch : ℕ) (l : Log) (ls : List Log)
      (hr : s.reader = .sendLogs k filterID ch (l :: ls))
      (hr' : s'.reader = .logLoop k filterID ch ls) (hpast : s'.net.past = s.net.past)
      (hdelivered : s'.chans.delivered = s.chans.delivered ++ [⟨k, filterID, ch, l⟩])

section Moves
variable {J : Json} {s s' : ChannelClient} {a : Action}

theorem RpcStep.reader_eq (h : RpcStep s a s') : s'.reader = s.reader := by cases h <;> rfl

theorem RpcStep.idle (h : RpcStep s a s') : ReaderIdle s s' := by cases h <;> exact ⟨rfl, rfl⟩

theorem NotifyStep.reader_eq (h : NotifyStep s a s') : s'.reader = s.reader := by cases h <;> rfl

theorem NotifyStep.idle (h : NotifyStep s a s') : ReaderIdle s s' := by
  cases h <;> exact ⟨rfl, rfl⟩

theorem NotifyStep.rpc_eq (h : NotifyStep s a s') : s'.rpc = s.rpc := by cases h <;> rfl

theorem SubStep.rpc_eq (h : SubStep s a s') : s'.rpc = s.rpc := by cases h <;> rfl

theorem CloseStep.rpc_eq (h : CloseStep s a s') : s'.rpc = s.rpc := by cases h <;> rfl

theorem SubStep.move (h : SubStep s a s') : Move J s a s' := by
  cases h with
  | receive i k err hpc hr => exact .answered k i err hr rfl hpc rfl ⟨rfl, rfl⟩
  | consumeDirect k filterID ch l ls hbuf hr => exact .sent k filterID ch l ls hr rfl rfl rfl
  | _ => exact .stay rfl ⟨rfl, rfl⟩

theorem CloseStep.move (h : CloseStep s a s') : Move J s a s' := by
  cases h with
  | exit j hpc hr =>
    refine .free ?_ rfl ⟨rfl, rfl⟩
    rcases hr with hr | hr <;> rw [hr] <;> rfl
  | _ => exact .stay rfl ⟨rfl, rfl⟩

theorem ChannelClient.receive_cases (s : ChannelClient) (totalLen : ℕ) (all c rest : Bytes) :
    (all ++ c).length < totalLen ∧ s.receive totalLen all c rest = s.wait totalLen all c rest ∨
    totalLen ≤ (all ++ c).length ∧
      s.receive totalLen all c rest = s.take (.data c) (all ++ c) rest := by
  unfold ChannelClient.receive
  split_ifs with h
  · exact .inl ⟨h, rfl⟩
  · exact .inr ⟨Nat.le_of_not_lt h, rfl⟩

/-- A read changes the reader and its connection only. -/
theorem ChannelClient.receive_eq (s : ChannelClient) (totalLen : ℕ) (all c rest : Bytes) :
    s.receive totalLen all c rest = { s with
      reader := (s.receive totalLen all c rest).reader
      net := (s.receive totalLen all c rest).net } := by
  rcases s.receive_cases totalLen all c rest with ⟨_, h⟩ | ⟨_, h⟩ <;> rw [h] <;> rfl

theorem Move.receive (hr : s.reader.frame = none) (totalLen : ℕ) (all c rest : Bytes) :
    Move J s a (s.receive totalLen all c rest) := by
  rcases s.receive_cases totalLen all c rest with ⟨_, h⟩ | ⟨_, h⟩ <;> rw [h]
  · exact .free hr rfl ⟨rfl, rfl⟩
  · exact .take (all ++ c) hr rfl rfl rfl

theorem ReaderStep.move (h : ReaderStep J s a s') : Move J s a s' := by
  cases h with
  | node f => exact .stay rfl ⟨rfl, rfl⟩
  | read c rest hpc | readMore _ _ _ _ hpc => exact .receive (by rw [hpc]; rfl) _ _ _ _
  | readError hpc | tick hpc | dialOk hpc | dialFail hpc =>
    exact .free (by rw [hpc]; rfl) rfl ⟨rfl, rfl⟩
  | readCut totalLen all hpc => exact .take all (by rw [hpc]; rfl) rfl rfl rfl
  | dispatch k m hpc => exact .switch k m hpc rfl rfl
  | rpcSend k n reply hpc => exact .replied k n reply hpc rfl rfl ⟨rfl, rfl⟩
  | sendLog k filterID ch l ls hpc hroom => exact .sent k filterID ch l ls hpc rfl rfl rfl

theorem Step.move (h : Step J s a s') : Move J s a s' := by
  cases h with
  | rpc h | notify h => exact .stay h.reader_eq h.idle
  | sub h | close h | reader h => exact h.move

theorem readFrame_cases (k : ℕ) (f : Bytes) :
    (∃ m, decodeMessage f = .ok m ∧ readFrame k f = .dispatch k m) ∨ readFrame k f = .loop := by
  cases hd : decodeMessage f with
  | ok m => exact .inl ⟨m, rfl, by rw [readFrame, hd]⟩
  | error e => exact .inr (by rw [readFrame, hd])

theorem Reader.logLoop_cases (k : ℕ) (filterID : Bytes) (ch : ℕ) (ls : List Log) :
    ls = [] ∧ Reader.logLoop k filterID ch ls = .loop ∨
    ls ≠ [] ∧ Reader.logLoop k filterID ch ls = .sendLogs k filterID ch ls := by
  by_cases hls : ls = []
  · exact .inl ⟨hls, if_pos hls⟩
  · exact .inr ⟨hls, if_neg hls⟩

theorem Step.past_get (h : Step J s a s') {k : ℕ} {f : Bytes} (hk : s.net.past[k]? = some f) :
    s'.net.past[k]? = some f := by
  have hlt : k < s.net.past.length := (List.getElem?_eq_some_iff.mp hk).1
  cases h.move with
  | take f _ _ hpast => rw [hpast, List.getElem?_append_left hlt, hk]
  | switch k m _ _ hs => rw [hs]; exact hk
  | sent _ _ _ _ _ _ _ hpast => rw [hpast, hk]
  | stay _ hidle | free _ _ hidle | replied _ _ _ _ _ _ hidle | answered _ _ _ _ _ _ _ hidle =>
    rw [hidle.past, hk]

theorem ChannelClient.rpcCase_cases (J : Json) (s : ChannelClient) (k : ℕ) (m : Message) :
    s.rpcCase J k m = .loop ∨
    ∃ n method reply, s.rpc.rpcResponse (J.rawID m.data) = some (n, method) ∧
      J.parseReply method m.data = some reply ∧ s.rpcCase J k m = .rpcHandOver k n reply := by
  unfold ChannelClient.rpcCase
  split
  · exact .inl rfl
  · rename_i n method hload
    split
    · exact .inl rfl
    · rename_i reply hparse
      exact .inr ⟨n, method, reply, hload, hparse, rfl⟩

theorem ChannelClient.registerCase_cases (J : Json) (s : ChannelClient) (k : ℕ) (m : Message) :
    s.sub.pending m.seq = none ∧ s.registerCase J k m = .loop ∨
    ∃ i err, s.sub.pending m.seq = some i ∧ s.registerCase J k m = .replyHandOver k i err := by
  unfold ChannelClient.registerCase
  split
  · rename_i hload
    exact .inl ⟨hload, rfl⟩
  · rename_i i hload
    exact .inr ⟨i, _, hload, rfl⟩

theorem ChannelClient.eventCase_cases (J : Json) (s : ChannelClient) (k : ℕ) (m : Message) :
    s.eventCase J k m = .loop ∨
    ∃ e ch, J.eventLog m.data = some e ∧ s.sub.watcher e.filterID = some ch ∧ e.logs ≠ [] ∧
      s.eventCase J k m = .sendLogs k e.filterID ch (e.logs.map LogEntry.toLog) := by
  unfold ChannelClient.eventCase
  split
  · exact .inl rfl
  · rename_i e hparse
    split
    · exact .inl rfl
    · rename_i ch hload
      rcases Reader.logLoop_cases k e.filterID ch (e.logs.map LogEntry.toLog) with
        ⟨_, hloop⟩ | ⟨hne, hloop⟩
      · exact .inl hloop
      · exact .inr ⟨e, ch, hparse, hload, fun h => hne (by rw [h]; rfl), hloop⟩

theorem ChannelClient.dispatchTo_cases (J : Json) (s : ChannelClient) (k : ℕ) (m : Message) :
    s.dispatchTo J k m = .loop ∨ (∃ n method reply, m.type = TypeRPCRequest ∧
      s.rpc.rpcResponse (J.rawID m.data) = some (n, method) ∧
      J.parseReply method m.data = some reply ∧ s.dispatchTo J k m = .rpcHandOver k n reply) ∨
    (∃ i err, m.type = TypeRegisterEventLog ∧ s.sub.pending m.seq = some i ∧
      s.dispatchTo J k m = .replyHandOver k i err) ∨
    ∃ e ch, m.type = TypeEventLog ∧ J.eventLog m.data = some e ∧
      s.sub.watcher e.filterID = some ch ∧ e.logs ≠ [] ∧
      s.dispatchTo J k m = .sendLogs k e.filterID ch (e.logs.map LogEntry.toLog) := by
  unfold ChannelClient.dispatchTo
  split_ifs with hrpc hreg hevent
  · rcases s.rpcCase_cases J k m with h | ⟨n, method, reply, hload, hparse, h⟩
    · exact .inl h
    · exact .inr (.inl ⟨n, method, reply, hrpc, hload, hparse, h⟩)
  · rcases s.registerCase_cases J k m with ⟨_, h⟩ | ⟨i, err, hload, h⟩
    · exact .inl h
    · exact .inr (.inr (.inl ⟨i, err, hreg, hload, h⟩))
  · rcases s.eventCase_cases J k m with h | ⟨e, ch, hparse, hload, hne, h⟩
    · exact .inl h
    · exact .inr (.inr (.inr ⟨e, ch, hevent, hparse, hload, hne, h⟩))
  · exact .inl rfl

theorem ChannelClient.dispatchTo_frame {k k' : ℕ} {m : Message}
    (h : (s.dispatchTo J k m).frame = some k') : k' = k := by
  rcases s.dispatchTo_cases J k m with he | ⟨_, _, _, _, _, _, he⟩ | ⟨_, _, _, _, he⟩ |
    ⟨_, _, _, _, _, _, he⟩ <;> rw [he] at h <;> cases h <;> rfl

/-- How the reader comes to hold frame `k`. -/
inductive FrameOrigin (J : Json) (s : ChannelClient) (a : Action) (s' : ChannelClient) (k : ℕ) :
    Prop
  | stay (hr : s'.reader = s.reader) (hidle : ReaderIdle s s')
  | take (m : Message) (hk : k = s.net.past.length) (hr' : s'.reader = .dispatch k m)
      (hdelivered : s'.chans.delivered = s.chans.delivered)
  | switch (m : Message) (hr : s.reader = .dispatch k m) (ha : a = .dispatch)
      (hs : s' = s.dispatch J k m)
  | sent (filterID : Bytes) (ch : ℕ) (l : Log) (ls : List Log)
      (hr : s.reader = .sendLogs k filterID ch (l :: ls))
      (hr' : s'.reader = .sendLogs k filterID ch ls)

theorem Step.frameOrigin (h : Step J s a s') {k : ℕ} (hk : s'.reader.frame = some k) :
    FrameOrigin J s a s' k := by
  cases h.move with
  | stay hr hidle => exact .stay hr hidle
  | free _ hr' | replied _ _ _ _ hr' | answered _ _ _ _ hr' =>
    rw [hr'] at hk
    cases hk
  | take f _ hr' _ hdelivered =>
    rcases readFrame_cases s.net.past.length f with ⟨m, _, he⟩ | he <;> rw [he] at hr' <;>
      rw [hr'] at hk <;> cases hk
    exact .take m rfl hr' hdelivered
  | switch k' m hr ha hs =>
    subst hs
    obtain rfl := ChannelClient.dispatchTo_frame hk
    exact .switch m hr ha rfl
  | sent k' filterID ch l ls hr hr' =>
    rcases Reader.logLoop_cases k' filterID ch ls with ⟨_, he⟩ | ⟨_, he⟩ <;> rw [he] at hr' <;>
      rw [hr'] at hk <;> cases hk
    exact .sent filterID ch l ls hr hr'

theorem Step.delivered_cases (h : Step J s a s') : s'.chans.delivered = s.chans.delivered ∨
    ∃ k filterID ch l ls, s.reader = .sendLogs k filterID ch (l :: ls) ∧
      s'.chans.delivered = s.chans.delivered ++ [⟨k, filterID, ch, l⟩] := by
  cases h.move with
  | take _ _ _ _ hdelivered => exact .inl hdelivered
  | switch _ _ _ _ hs => exact .inl (by rw [hs]; rfl)
  | sent k filterID ch l ls hr _ _ hdelivered =>
    exact .inr ⟨k, filterID, ch, l, ls, hr, hdelivered⟩
  | stay _ hidle | free _ _ hidle | replied _ _ _ _ _ _ hidle | answered _ _ _ _ _ _ _ hidle =>
    exact .inl hidle.delivered

/-- A held frame is the last one taken, at the type switch it is decoded, and the
logs sent come from taken frames. -/
structure ReaderInv (s : ChannelClient) : Prop where
  last : ∀ k, s.reader.frame = some k → k + 1 = s.net.past.length
  decoded : ∀ k m, s.reader = .dispatch k m →
    ∃ f, s.net.past[k]? = some f ∧ decodeMessage f = .ok m
  taken : ∀ d ∈ s.chans.delivered, d.frame < s.net.past.length

theorem ReaderInv.of_frame (hi : ReaderInv s) (hr : s'.reader = s.reader ∨ s'.reader.frame = none ∨
      s'.reader.frame = s.reader.frame ∧ ∀ k m, s'.reader ≠ .dispatch k m)
    (hpast : s'.net.past = s.net.past)
    (htaken : ∀ d ∈ s'.chans.delivered, d.frame < s.net.past.length) : ReaderInv s' := by
  refine ⟨fun k hk => ?_, fun k m hk => ?_, by rw [hpast]; exact htaken⟩
  · rw [hpast]
    rcases hr with hr | hr | ⟨hr, _⟩
    · exact hi.last k (hr ▸ hk)
    · rw [hr] at hk
      cases hk
    · exact hi.last k (hr ▸ hk)
  · rw [hpast]
    rcases hr with hr | hr | ⟨_, hr⟩
    · exact hi.decoded k m (hr ▸ hk)
    · rw [hk] at hr
      cases hr
    · exact absurd hk (hr k m)

theorem ReaderInv.of_idle (hi : ReaderInv s) (hr : s'.reader = s.reader ∨ s'.reader.frame = none)
    (hidle : ReaderIdle s s') : ReaderInv s' :=
  hi.of_frame (hr.imp_right .inl) hidle.past (by rw [hidle.delivered]; exact hi.taken)

theorem ReaderInv.take (hi : ReaderInv s) (f : Bytes)
    (hr : s'.reader = readFrame s.net.past.length f) (hpast : s'.net.past = s.net.past ++ [f])
    (hdelivered : s'.chans.delivered = s.chans.delivered) : ReaderInv s' := by
  have hframe : ∀ k m, s'.reader = .dispatch k m → k = s.net.past.length ∧
      decodeMessage f = .ok m := by
    intro k m hk
    rcases readFrame_cases s.net.past.length f with ⟨m', hd, he⟩ | he <;> rw [hr, he] at hk <;>
      cases hk
    exact ⟨rfl, hd⟩
  refine ⟨fun k hk => ?_, fun k m hk => ?_, fun d hd => ?_⟩
  · rcases readFrame_cases s.net.past.length f with ⟨m, _, he⟩ | he <;> rw [hr, he] at hk <;>
      cases hk
    simp [hpast]
  · obtain ⟨rfl, hd⟩ := hframe k m hk
    exact ⟨f, by simp [hpast], hd⟩
  · have := hi.taken d (hdelivered ▸ hd)
    rw [hpast, List.length_append]
    omega

theorem ReaderInv.step (hi : ReaderInv s) (h : Step J s a s') : ReaderInv s' := by
  cases h.move with
  | stay hr hidle => exact hi.of_idle (.inl hr) hidle
  | free _ hr' hidle => exact hi.of_idle (.inr hr') hidle
  | take f _ hr' hpast hdelivered => exact hi.take f hr' hpast hdelivered
  | replied k n reply _ hr' _ hidle | answered k i err _ hr' _ _ hidle =>
    exact hi.of_idle (.inr (by rw [hr']; rfl)) hidle
  | sent k filterID ch l ls hr hr' hpast hdelivered =>
    refine hi.of_frame (.inr ?_) hpast fun d hd => ?_
    · rcases Reader.logLoop_cases k filterID ch ls with ⟨_, he⟩ | ⟨_, he⟩ <;> rw [hr', he]
      · exact .inl rfl
      · exact .inr ⟨by rw [hr]; rfl, fun _ _ h => by cases h⟩
    · rw [hdelivered, List.mem_append, List.mem_singleton] at hd
      rcases hd with hd | rfl
      · exact hi.taken d hd
      · have := hi.last k (by rw [hr]; rfl)
        show k < _
        omega
  | switch k m hr _ hs =>
    subst hs
    refine hi.of_frame (.inr ?_) rfl hi.taken
    show (s.dispatchTo J k m).frame = none ∨ (s.dispatchTo J k m).frame = s.reader.frame ∧
      ∀ k' m', s.dispatchTo J k m ≠ .dispatch k' m'
    rw [hr]
    rcases s.dispatchTo_cases J k m with h | ⟨_, _, _, _, _, _, h⟩ | ⟨_, _, _, _, h⟩ |
      ⟨_, _, _, _, _, _, h⟩ <;> simp [h, Reader.frame]

theorem ReaderInv.init (cap : ℕ → ℕ) : ReaderInv (ChannelClient.init cap) :=
  ⟨nofun, nofun, nofun⟩

end Moves

end Fiscobcos.Client

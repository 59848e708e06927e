import Fiscobcos.Client.Message
import Fiscobcos.Common.Hexutil

/-! # Payloads of the channel protocol (client/types.go)

The JSON readers (`encoding/json`, `gjson`) are parameters; every result holds for all of them. -/

namespace Fiscobcos.Client
open Numerals

structure JsonError where
  code : ℤ
  message : Bytes
  deriving DecidableEq

structure JsonrpcMessage where
  version : Bytes
  id : Bytes
  method : Bytes
  params : Bytes
  error : Option JsonError
  result : Bytes
  deriving DecidableEq

/-- The members of `jsonrpcFiscoMsg` (`client/types.go:102-136`) that
`readResponse` reads, and its error. -/
structure JsonrpcFiscoMsg where
  id : Bytes
  jsonrpc : Bytes
  error : Option JsonError
  output : Bytes
  deriving DecidableEq

structure LogEntry where
  address : Bytes
  topics : List Bytes
  data : Bytes
  blockNumber : Bytes
  txHash : Bytes
  txIndex : Bytes
  blockHash : Bytes
  index : Bytes
  removed : Bool
  deriving DecidableEq

structure Log where
  address : Bytes
  topics : List Bytes
  data : Bytes
  blockNumber : ℕ
  txHash : Bytes
  txIndex : ℕ
  blockHash : Bytes
  index : ℕ
  removed : Bool
  deriving DecidableEq

/-- The log built from an entry (`client/channel.go:251-265`): conversion errors
are dropped and the value returned next to them is used. -/
def LogEntry.toLog (e : LogEntry) : Log where
  address := e.address
  topics := e.topics
  data := (Hexutil.decode e.data).1
  blockNumber := (Hexutil.decodeUint64 e.blockNumber).1
  txHash := e.txHash
  txIndex := (Hexutil.decodeUint64 e.txIndex).1
  blockHash := e.blockHash
  index := (Hexutil.decodeUint64 e.index).1
  removed := e.removed

structure EventLogResponse where
  filterID : Bytes
  logs : List LogEntry
  deriving DecidableEq

structure BlockNotifyResponse where
  groupID : Bytes
  blockNumber : Bytes
  deriving DecidableEq

/-- The JSON readers `readResponse` calls on the payload of a frame; `none` is
an unmarshalling error. -/
structure Json where
  /-- `gjson.GetBytes(data, "id").Raw` -/
  rawID : Bytes → Bytes
  /-- `gjson.GetBytes(data, "result").Int()` -/
  resultInt : Bytes → ℤ
  message : Bytes → Option JsonrpcMessage
  fiscoMsg : Bytes → Option JsonrpcFiscoMsg
  eventLog : Bytes → Option EventLogResponse
  blockNotify : Bytes → Option BlockNotifyResponse

def callMethod : Bytes := [99, 97, 108, 108]

/-- How the reply to a request is read (`client/channel.go:213-227`): the answer
to a `call` through its own layout, of which the error member is not copied. -/
def Json.parseReply (J : Json) (method data : Bytes) : Option JsonrpcMessage :=
  if method = callMethod then
    (J.fiscoMsg data).map fun f =>
      { version := f.jsonrpc, id := f.id, method := [], params := [], error := none,
        result := f.output }
  else J.message data

def appendUint (v : ℕ) : Bytes :=
  if v = 0 then [48] else (Nat.digits 10 v).reverse.map fun d => lowByte (48 + d)

def decimalVal (bs : Bytes) : ℕ := Nat.ofDigits 10 (bs.map fun b => b.val - 48).reverse

theorem decimalVal_appendUint (v : ℕ) : decimalVal (appendUint v) = v := by
  by_cases hv : v = 0
  · subst hv
    rfl
  · have hdigits : (Nat.digits 10 v).map ((fun b : Byte => b.val - 48) ∘ fun d => lowByte (48 + d)) =
        Nat.digits 10 v := by
      conv_rhs => rw [← List.map_id (Nat.digits 10 v)]
      apply List.map_congr_left
      intro d hd
      have hd10 := Nat.digits_lt_base (by norm_num : 1 < 10) hd
      simp only [Function.comp, lowByte_val, id]
      omega
    rw [decimalVal, appendUint, if_neg hv, List.map_map, List.map_reverse, List.reverse_reverse,
      hdigits, Nat.ofDigits_digits]

theorem appendUint_inj {v w : ℕ} (h : appendUint v = appendUint w) : v = w := by
  have h1 := congrArg decimalVal h
  rwa [decimalVal_appendUint, decimalVal_appendUint] at h1

end Fiscobcos.Client

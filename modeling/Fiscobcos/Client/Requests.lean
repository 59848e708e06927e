import Fiscobcos.Lib.JsonTree
import Fiscobcos.Common.Hexutil
import Fiscobcos.Types.Signing

/-! # The requests of the two back-ends (client/channel.go:330-533, client/rpcclient.go:102-174, 475-531)

The operations of `Backend` with method and parameters, once for each client as in the source. -/

namespace Fiscobcos.Client
open Numerals JsonTree Fiscobcos.Types

/-- Method and parameters of a `jsonrpcMessage`; without arguments there is no
`params` member. -/
structure RpcRequest where
  method : Bytes
  params : Option Value

/-- `fiscobcos.CallEthMsg` (`interfaces.go:99-106`). -/
structure CallEthMsg where
  fromAddr : Address
  toAddr : Option Address
  gas : UInt64
  gasPrice : Option ℤ
  value : Option ℤ
  data : Bytes

/-- `fiscobcos.CallMsg` (`interfaces.go:93-96`). -/
structure CallMsg where
  groupId : Int64
  msg : CallEthMsg

def uintArg (i : UInt64) : Value := .num (.integer i.toNat)

def bytesArg (b : Bytes) : Value := .str (Hexutil.encode b)

def toBlockNumArg : Option ℤ → Bytes
  | none => ascii "latest"
  | some number => Hexutil.encodeBig number

def toHex (b : Bytes) : Bytes :=
  ascii "0x" ++ if b = [] then ascii "0" else Hexutil.hexEncode b

/-- The Go conversion `string(i)`: the UTF-8 form of the code point, or of U+FFFD
where `i` is none. -/
def runeString (i : UInt64) : Bytes :=
  let r := i.toNat
  if r < 0x80 then [lowByte r]
  else if r < 0x800 then [lowByte (0xC0 + r / 64), lowByte (0x80 + r % 64)]
  else if 0x10FFFF < r ∨ 0xD800 ≤ r ∧ r ≤ 0xDFFF then [0xEF, 0xBF, 0xBD]
  else if r < 0x10000 then
    [lowByte (0xE0 + r / 4096), lowByte (0x80 + r / 64 % 64), lowByte (0x80 + r % 64)]
  else
    [lowByte (0xF0 + r / 262144), lowByte (0x80 + r / 4096 % 64), lowByte (0x80 + r / 64 % 64),
      lowByte (0x80 + r % 64)]

/-- `toCallArg` (`client/rpcclient.go:513-531`), with the keys in the order in which
a map is marshalled. -/
def toCallArg (msg : CallEthMsg) : Value :=
  .obj <|
    (if msg.data = [] then [] else [(ascii "data", bytesArg msg.data)]) ++
    [(ascii "from", bytesArg msg.fromAddr.val)] ++
    (if msg.gas = 0 then [] else [(ascii "gas", .str (Hexutil.encodeUint64 msg.gas))]) ++
    (msg.gasPrice.elim [] fun v => [(ascii "gasPrice", .str (Hexutil.encodeBig v))]) ++
    [(ascii "to", msg.toAddr.elim .null fun a => bytesArg a.val)] ++
    (msg.value.elim [] fun v => [(ascii "value", .str (Hexutil.encodeBig v))])

def txHash (keccak256 : Bytes → Hash) (tx : Transaction) : Hash :=
  tx.hash.getD (keccak256 (rlpHashInput tx.encodeRLP))

namespace channelClient
variable (groupID : UInt64)

def newRpcMessage (method : String) (paramsIn : List Value) : RpcRequest :=
  ⟨ascii method, if paramsIn.isEmpty then none else some (.arr paramsIn)⟩

def clientVersion : RpcRequest := newRpcMessage "getClientVersion" []
def blockNumber : RpcRequest := newRpcMessage "getBlockNumber" [uintArg groupID]
def pbftView : RpcRequest := newRpcMessage "getPbftView" [uintArg groupID]
def sealerList : RpcRequest := newRpcMessage "getSealerList" [uintArg groupID]
def observerList : RpcRequest := newRpcMessage "getObserverList" [uintArg groupID]
def consensusStatus : RpcRequest := newRpcMessage "getConsensusStatus" [uintArg groupID]
def syncStatus : RpcRequest := newRpcMessage "getSyncStatus" [uintArg groupID]
def peers : RpcRequest := newRpcMessage "getPeers" [uintArg groupID]
def groupPeers : RpcRequest := newRpcMessage "getGroupPeers" [uintArg groupID]
def nodeIDList : RpcRequest := newRpcMessage "getNodeIDList" [uintArg groupID]
def groupList : RpcRequest := newRpcMessage "getGroupList" [uintArg groupID]

def blockByHash (hash : Hash) : RpcRequest :=
  newRpcMessage "getBlockByHash" [uintArg groupID, bytesArg hash.val, .bool true]

def blockByNumber (number : Option ℤ) : RpcRequest :=
  newRpcMessage "getBlockByNumber" [uintArg groupID, .str (toBlockNumArg number), .bool true]

def blockHashByNumber (blockNumber : UInt64) : RpcRequest :=
  newRpcMessage "getBlockHashByNumber" [uintArg groupID, .str (runeString blockNumber)]

def transactionByHash (transactionHash : Bytes) : RpcRequest :=
  newRpcMessage "getTransactionByHash" [uintArg groupID, .str transactionHash]

def transactionByBlockHashAndIndex (blockHash transactionIndex : Bytes) : RpcRequest :=
  newRpcMessage "getTransactionByBlockHashAndIndex"
    [uintArg groupID, .str blockHash, .str transactionIndex]

def transactionByBlockNumberAndIndex (blockNumber transactionIndex : Bytes) : RpcRequest :=
  newRpcMessage "getTransactionByBlockNumberAndIndex"
    [uintArg groupID, .str blockNumber, .str transactionIndex]

def pendingTransactions : RpcRequest := newRpcMessage "getPendingTransactions" [uintArg groupID]
def pendingTxSize : RpcRequest := newRpcMessage "getPendingTxSize" [uintArg groupID]

def code (contract : Bytes) : RpcRequest := newRpcMessage "getCode" [uintArg groupID, .str contract]

def totalTransactionCount : RpcRequest :=
  newRpcMessage "getTotalTransactionCount" [uintArg groupID]

def systemConfigByKey (key : Bytes) : RpcRequest :=
  newRpcMessage "getSystemConfigByKey" [uintArg groupID, .str key]

def transactionReceipt (txHash : Hash) : RpcRequest :=
  newRpcMessage "getTransactionReceipt" [uintArg groupID, bytesArg txHash.val]

def codeAt (account : Address) (blockNumber : Option ℤ) : RpcRequest :=
  newRpcMessage "getCode" [uintArg groupID, bytesArg account.val, .str (toBlockNumArg blockNumber)]

def callContract (msg : CallMsg) (_blockNumber : Option ℤ) : RpcRequest :=
  newRpcMessage "call" [.num (.integer msg.groupId.toInt), toCallArg msg.msg]

def sendTransaction (tx : Transaction) : Option RpcRequest :=
  match Rlp.encodeToBytes tx.encodeRLP with
  | .error _ => none
  | .ok data => some (newRpcMessage "sendRawTransaction" [uintArg groupID, .str (toHex data)])

/-- The request repeated at every tick; none without a transaction. -/
def checkReceipt (keccak256 : Bytes → Hash) (tx : Option Transaction) : Option RpcRequest :=
  tx.map fun tx => transactionReceipt groupID (txHash keccak256 tx)

end channelClient

namespace rpcClient
variable (groupId : UInt64)

def newMessage (method : String) (paramsIn : List Value) : RpcRequest :=
  ⟨ascii method, if paramsIn.isEmpty then none else some (.arr paramsIn)⟩

def clientVersion : RpcRequest := newMessage "getClientVersion" []
def blockNumber : RpcRequest := newMessage "getBlockNumber" [uintArg groupId]
def pbftView : RpcRequest := newMessage "getPbftView" [uintArg groupId]
def sealerList : RpcRequest := newMessage "getSealerList" [uintArg groupId]
def observerList : RpcRequest := newMessage "getObserverList" [uintArg groupId]
def consensusStatus : RpcRequest := newMessage "getConsensusStatus" [uintArg groupId]
def syncStatus : RpcRequest := newMessage "getSyncStatus" [uintArg groupId]
def peers : RpcRequest := newMessage "getPeers" [uintArg groupId]
def groupPeers : RpcRequest := newMessage "getGroupPeers" [uintArg groupId]
def nodeIDList : RpcRequest := newMessage "getNodeIDList" [uintArg groupId]

/-- Without the group, unlike the channel client. -/
def groupList : RpcRequest := newMessage "getGroupList" []

def blockByHash (hash : Hash) : RpcRequest :=
  newMessage "getBlockByHash" [uintArg groupId, bytesArg hash.val, .bool true]

def blockByNumber (number : Option ℤ) : RpcRequest :=
  newMessage "getBlockByNumber" [uintArg groupId, .str (toBlockNumArg number), .bool true]

def blockHashByNumber (blockNumber : UInt64) : RpcRequest :=
  newMessage "getBlockHashByNumber" [uintArg groupId, .str (runeString blockNumber)]

/-- Under the method of `TransactionByBlockHashAndIndex`. -/
def transactionByHash (transactionHash : Bytes) : RpcRequest :=
  newMessage "getTransactionByBlockHashAndIndex" [uintArg groupId, .str transactionHash]

def transactionByBlockHashAndIndex (blockHash transactionIndex : Bytes) : RpcRequest :=
  newMessage "getTransactionByBlockHashAndIndex"
    [uintArg groupId, .str blockHash, .str transactionIndex]

def transactionByBlockNumberAndIndex (blockNumber transactionIndex : Bytes) : RpcRequest :=
  newMessage "getTransactionByBlockNumberAndIndex"
    [uintArg groupId, .str blockNumber, .str transactionIndex]

def pendingTransactions : RpcRequest := newMessage "getPendingTransactions" [uintArg groupId]
def pendingTxSize : RpcRequest := newMessage "getPendingTxSize" [uintArg groupId]

def code (contraddress : Bytes) : RpcRequest :=
  newMessage "getCode" [uintArg groupId, .str contraddress]

def totalTransactionCount : RpcRequest := newMessage "getTotalTransactionCount" [uintArg groupId]

def systemConfigByKey (key : Bytes) : RpcRequest :=
  newMessage "getSystemConfigByKey" [uintArg groupId, .str key]

def transactionReceipt (txHash : Hash) : RpcRequest :=
  newMessage "getTransactionReceipt" [uintArg groupId, bytesArg txHash.val]

def codeAt (account : Address) (blockNumber : Option ℤ) : RpcRequest :=
  newMessage "getCode" [uintArg groupId, bytesArg account.val, .str (toBlockNumArg blockNumber)]

def callContract (msg : CallMsg) (_blockNumber : Option ℤ) : RpcRequest :=
  newMessage "call" [.num (.integer msg.groupId.toInt), toCallArg msg.msg]

def sendTransaction (tx : Transaction) : Option RpcRequest :=
  match Rlp.encodeToBytes tx.encodeRLP with
  | .error _ => none
  | .ok data => some (newMessage "sendRawTransaction" [uintArg groupId, .str (toHex data)])

/-- The request repeated at every tick; a nil transaction panics before it. -/
def checkReceipt (keccak256 : Bytes → Hash) (tx : Option Transaction) : Option RpcRequest :=
  tx.map fun tx => transactionReceipt groupId (txHash keccak256 tx)

end rpcClient

/-- The operations of `Backend` (`client/backend.go:13-56`) that both clients
implement over JSON-RPC, with their arguments. -/
inductive Operation where
  | clientVersion | blockNumber | pbftView | sealerList | observerList | consensusStatus
  | syncStatus | peers | groupPeers | nodeIDList | groupList
  | blockByHash (hash : Hash)
  | blockByNumber (number : Option ℤ)
  | blockHashByNumber (blockNumber : UInt64)
  | transactionByHash (transactionHash : Bytes)
  | transactionByBlockHashAndIndex (blockHash transactionIndex : Bytes)
  | transactionByBlockNumberAndIndex (blockNumber transactionIndex : Bytes)
  | transactionReceipt (txHash : Hash)
  | pendingTransactions | pendingTxSize
  | code (contract : Bytes)
  | codeAt (contract : Address) (blockNumber : Option ℤ)
  | totalTransactionCount
  | systemConfigByKey (key : Bytes)
  | callContract (msg : CallMsg) (blockNumber : Option ℤ)
  | sendTransaction (tx : Transaction)
  | checkReceipt (tx : Option Transaction)
  | checkTx (tx : Option Transaction)
  | updateBlockLimit

section Operations
variable (keccak256 : Bytes → Hash)

def channelClient.request (groupID : UInt64) : Operation → Option RpcRequest
  | .clientVersion => some clientVersion
  | .blockNumber => some (blockNumber groupID)
  | .pbftView => some (pbftView groupID)
  | .sealerList => some (sealerList groupID)
  | .observerList => some (observerList groupID)
  | .consensusStatus => some (consensusStatus groupID)
  | .syncStatus => some (syncStatus groupID)
  | .peers => some (peers groupID)
  | .groupPeers => some (groupPeers groupID)
  | .nodeIDList => some (nodeIDList groupID)
  | .groupList => some (groupList groupID)
  | .blockByHash hash => some (blockByHash groupID hash)
  | .blockByNumber number => some (blockByNumber groupID number)
  | .blockHashByNumber n => some (blockHashByNumber groupID n)
  | .transactionByHash h => some (transactionByHash groupID h)
  | .transactionByBlockHashAndIndex h i => some (transactionByBlockHashAndIndex groupID h i)
  | .transactionByBlockNumberAndIndex n i => some (transactionByBlockNumberAndIndex groupID n i)
  | .transactionReceipt h => some (transactionReceipt groupID h)
  | .pendingTransactions => some (pendingTransactions groupID)
  | .pendingTxSize => some (pendingTxSize groupID)
  | .code contract => some (code groupID contract)
  | .codeAt contract n => some (codeAt groupID contract n)
  | .totalTransactionCount => some (totalTransactionCount groupID)
  | .systemConfigByKey key => some (systemConfigByKey groupID key)
  | .callContract msg n => some (callContract msg n)
  | .sendTransaction tx => sendTransaction groupID tx
  | .checkReceipt tx | .checkTx tx => checkReceipt groupID keccak256 tx
  | .updateBlockLimit => some (blockNumber groupID)

def rpcClient.request (groupId : UInt64) : Operation → Option RpcRequest
  | .clientVersion => some clientVersion
  | .blockNumber => some (blockNumber groupId)
  | .pbftView => some (pbftView groupId)
  | .sealerList => some (sealerList groupId)
  | .observerList => some (observerList groupId)
  | .consensusStatus => some (consensusStatus groupId)
  | .syncStatus => some (syncStatus groupId)
  | .peers => some (peers groupId)
  | .groupPeers => some (groupPeers groupId)
  | .nodeIDList => some (nodeIDList groupId)
  | .groupList => some groupList
  | .blockByHash hash => some (blockByHash groupId hash)
  | .blockByNumber number => some (blockByNumber groupId number)
  | .blockHashByNumber n => some (blockHashByNumber groupId n)
  | .transactionByHash h => some (transactionByHash groupId h)
  | .transactionByBlockHashAndIndex h i => some (transactionByBlockHashAndIndex groupId h i)
  | .transactionByBlockNumberAndIndex n i => some (transactionByBlockNumberAndIndex groupId n i)
  | .transactionReceipt h => some (transactionReceipt groupId h)
  | .pendingTransactions => some (pendingTransactions groupId)
  | .pendingTxSize => some (pendingTxSize groupId)
  | .code contract => some (code groupId contract)
  | .codeAt contract n => some (codeAt groupId contract n)
  | .totalTransactionCount => some (totalTransactionCount groupId)
  | .systemConfigByKey key => some (systemConfigByKey groupId key)
  | .callContract msg n => some (callContract msg n)
  | .sendTransaction tx => sendTransaction groupId tx
  | .checkReceipt tx | .checkTx tx => checkReceipt groupId keccak256 tx
  | .updateBlockLimit => some (blockNumber groupId)

end Operations

def Operation.Diverges : Operation → Prop
  | .transactionByHash _ | .groupList => True
  | _ => False

/-- The two clients ask the node the same question, except by `TransactionByHash`,
where the HTTP client names another method, and by `GroupList`, where it leaves
out the group. -/
theorem same_request_iff (keccak256 : Bytes → Hash) (groupID : UInt64) (op : Operation) :
    channelClient.request keccak256 groupID op = rpcClient.request keccak256 groupID op ↔
      ¬ op.Diverges := by
  cases op with
  | transactionByHash h =>
    refine iff_of_false (fun heq => ?_) (not_not_intro trivial)
    have hmethod : ascii "getTransactionByHash" = ascii "getTransactionByBlockHashAndIndex" :=
      congrArg RpcRequest.method (Option.some.inj heq)
    exact absurd hmethod (by decide)
  | groupList =>
    refine iff_of_false (fun heq => ?_) (not_not_intro trivial)
    have hparams : some (Value.arr [uintArg groupID]) = none :=
      congrArg RpcRequest.params (Option.some.inj heq)
    cases hparams
  | _ => exact iff_of_true rfl not_false

/-- Looking up a transaction by its hash. -/
theorem transaction_by_hash_differs : (channelClient.request (fun _ => ⟨List.replicate 32 0, rfl⟩) 1
        (.transactionByHash (ascii "0x01"))).map RpcRequest.method =
      some (ascii "getTransactionByHash") ∧
    (rpcClient.request (fun _ => ⟨List.replicate 32 0, rfl⟩) 1
        (.transactionByHash (ascii "0x01"))).map RpcRequest.method =
      some (ascii "getTransactionByBlockHashAndIndex") ∧
    ascii "getTransactionByHash" ≠ ascii "getTransactionByBlockHashAndIndex" :=
  ⟨rfl, rfl, by decide⟩

end Fiscobcos.Client

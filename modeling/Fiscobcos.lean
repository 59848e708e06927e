import Fiscobcos.Abi.Hostile
import Fiscobcos.Abi.StructFields
import Fiscobcos.Bind.Transact
import Fiscobcos.Bloombits.Search
import Fiscobcos.Client.BlockNumbers
import Fiscobcos.Client.Close
import Fiscobcos.Client.LogFields
import Fiscobcos.Client.NodeErrors
import Fiscobcos.Client.Reconnect
import Fiscobcos.Client.Unsubscribe
import Fiscobcos.Event.FeedDelivery
import Fiscobcos.Event.Resubscribe
import Fiscobcos.Keystore.Converge
import Fiscobcos.Keystore.Index
import Fiscobcos.Keystore.KeyFileTotal
import Fiscobcos.Keystore.Lookup
import Fiscobcos.Keystore.Manager
import Fiscobcos.Keystore.Unlock
import Fiscobcos.Keystore.Wallets
import Fiscobcos.Keystore.Zeroing
import Fiscobcos.Rlp.Bounds
import Fiscobcos.Rlp.EncReader
import Fiscobcos.Rlp.Interface
import Fiscobcos.Rpc.Batch
import Fiscobcos.Rpc.Dispatch
import Fiscobcos.Types.Caches
import Fiscobcos.Types.SignatureValues
import Fiscobcos.Types.StoredReceipts

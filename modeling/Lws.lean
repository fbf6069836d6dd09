import Lws.Lmdb.Table
import Lws.Lmdb.Cursor
import Lws.Lmdb.Recode
import Lws.Lmdb.Bytes
import Lws.BlockTree
import Lws.Window
import Lws.Transition
import Lws.Search
import Lws.LinkedList
import Lws.Buffered
import Lws.Lmdb.Multiple
import Lws.Lmdb.Truncated
import Lws.Account
import Lws.AccountRuns
import Lws.Ownership
import Lws.Mempool
import Lws.AddressCache
import Lws.Db.Data
import Lws.Db.Chain
import Lws.Db.Subaddress
import Lws.Db.Accounts
import Lws.Db.Update
import Lws.Db.Operations
import Lws.Db.ChainProofs
import Lws.Db.PowProofs
import Lws.Db.AccountsProofs
import Lws.Db.SubaddressProofs
import Lws.Db.UpdateProofs
import Lws.Db.BulkInsert
import Lws.Db.Change
import Lws.Db.Extend
import Lws.Db.AccountIndexes
import Lws.Db.Records
import Lws.Db.Reorg
import Lws.Db.PowReorg
import Lws.Db.Reader
import Lws.Db.Pows
import Lws.Db.Locator
import Lws.Db.HeightChange
import Lws.Db.History
import Lws.Db.Images
import Lws.Db.Hooks
import Lws.Db.Events
import Lws.Db.Confirmations
import Lws.Db.Clear
import Lws.Db.Subaddresses
import Lws.Db.SubaddressRuns
import Lws.Db.Landing
import Lws.Db.Batches
import Lws.Db.Lookahead
import Lws.Db.Ranges
import Lws.Db.LookaheadRuns
import Lws.Db.Meaningful
import Lws.Db.Compare
import Lws.Db.Migration
import Lws.Db.Seek
import Lws.Scanner.Queue
import Lws.Scanner.Loop
import Lws.Scanner.Thread
import Lws.Scanner.MinHeight
import Lws.Scanner.SyncQuick
import Lws.Scanner.Threading
import Lws.Scanner.Server
import Lws.Scanner.ServerRuns
import Lws.Scanner.Balance
import Lws.Scanner.Authentication
import Lws.Scanner.PowCheck
import Lws.Scanner.PowBatches
import Lws.Wire.BigEndian
import Lws.Wire.Msgpack
import Lws.Wire.Truncation
import Lws.Wire.Skip
import Lws.Wire.RoundTrip
import Lws.Scanner.Commands
import Lws.Scanner.Found
import Lws.Scanner.Remote
import Lws.Rpc.Feed
import Lws.Rpc.FeedRuns
import Lws.Rpc.FeedLoss
import Lws.Util.RandomOutputs
import Lws.Util.RandomOutputsProofs
import Lws.Util.GammaPicker
import Lws.Rpc.Transactions
import Lws.Rpc.TransactionsProofs
import Lws.Rest.Handlers
import Lws.Rest.Fulfilled
import Lws.Rest.Provision
import Lws.Rest.Denotes
import Lws.Rest.SubmitTx
import Lws.Net.HttpClient
import Lws.Scanner.Client
import Lws.Scanner.Fleet
import Lws.Rest.Server
import Lws.Db.Admins
import Lws.Rest.Access
import Lws.Db.Ledger
import Lws.Rpc.Balances
import Lws.Scanner.Blocks
import Lws.Scanner.Traced
import Lws.Scanner.Stored
import Lws.SharedCall
import Lws.Rest.DaemonStatus
import Lws.Rest.UnspentOuts

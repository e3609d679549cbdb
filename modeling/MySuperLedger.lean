import MySuperLedger.Sync.Terms
import MySuperLedger.Storage.StringFile
import MySuperLedger.Storage.Snapshots
import MySuperLedger.Storage.KeyRotation
import MySuperLedger.SQLite.RoundTrip
import MySuperLedger.Storage.Crash
import MySuperLedger.Storage.Torn
import MySuperLedger.Raft.Calls
import MySuperLedger.Replica.Observation
import MySuperLedger.Ledger.Commutation
import MySuperLedger.Ledger.Currencies
import MySuperLedger.Queue.Shutdown
import MySuperLedger.Control.Survival
import MySuperLedger.Sync.Streaming
import MySuperLedger.Raft.Convergence
import MySuperLedger.Reader.Progress
import MySuperLedger.Storage.Batches
import MySuperLedger.Storage.Committed
import MySuperLedger.Raft.Handles
import MySuperLedger.Replica.PrefixTruncation
import MySuperLedger.Control.Plans
import MySuperLedger.Control.Routes

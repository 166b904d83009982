import Rugo.Lib.Exec
import Rugo.Lib.Words
import Rugo.Lib.Signed
import Rugo.Lib.Triangular
import Rugo.Lib.Runs
import Rugo.Lib.Relay
import Rugo.Entry
import Rugo.Group
import Rugo.Masks
import Rugo.Arena
import Rugo.ArenaLayout
import Rugo.ArenaSteps
import Rugo.ArenaRuns
import Rugo.Hash
import Rugo.Table
import Rugo.Resp
import Rugo.RespPrefix
import Rugo.Conn
import Rugo.ConnSteps
import Rugo.ConnRuns
import Rugo.ConnTurns
import Rugo.ConnCuts
import Rugo.Lib.Slab
import Rugo.Poll
import Rugo.Ring
import Rugo.Lib.Probing
import Rugo.TableLayout
import Rugo.TableSteps
import Rugo.TableWalks
import Rugo.TableRuns
import Rugo.Map
import Rugo.MapSteps
import Rugo.MapRuns
import Rugo.Expired
import Rugo.Commands
import Rugo.Replies
import Rugo.CommandReplies
import Rugo.Persist
import Rugo.Decimals
import Rugo.Expiries
import Rugo.Pipelines
import Rugo.SetOptions
import Rugo.Churn
import Rugo.Probes
import Rugo.Refusals
import Rugo.Evictions
import Rugo.Increments
import Rugo.Sweeps
import Rugo.Backlog
import Rugo.Lifetimes
import Rugo.Batches
import Rugo.Ceilings
import Rugo.Integers
import Rugo.Framing
import Rugo.LookAhead
import Rugo.ParseWords
import Rugo.Scan
import Rugo.Lib.Lanes
import Rugo.EntryTrips
import Rugo.References
import Rugo.Arming
import Rugo.Lib.Circular
import Rugo.Queues
import Rugo.Lock
import Rugo.LockEnds
import Rugo.Sections
import Rugo.CommandSections
import Rugo.Shardwide
import Rugo.Clients
import Rugo.Tallies
import Rugo.Contention
import Rugo.Elections
import Rugo.Removals
import Rugo.Upkeep
import Rugo.Config
import Rugo.Lib.Relay
import Rugo.Stranded
import Rugo.StrandedMaps

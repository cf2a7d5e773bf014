import Pggat.Rob.Conservation
import Pggat.Rob.Isolation
import Pggat.Rob.FairOrder
import Pggat.Backends.SetParameter
import Pggat.Backends.Relay
import Pggat.Fed.Reencode
import Pggat.Fed.Confinement
import Pggat.Fed.Segments
import Pggat.Fed.Frames
import Pggat.Spool.ScaleDown
import Pggat.Eqp.Rejection
import Pggat.Eqp.Snapshot
import Pggat.Ps.Truth
import Pggat.Pools.Peers
import Pggat.Pools.CancelRoute
import Pggat.Discovery.Served
import Pggat.Discovery.CloudSql
import Pggat.Discovery.Replicas
import Pggat.Discovery.Channels
import Pggat.Auth.Secrets
import Pggat.Discovery.Sessions
import Pggat.Kitchen.Cook
import Pggat.Kitchen.Limit
import Pggat.Kitchen.Forgotten
import Pggat.Spool.Membership
import Pggat.Spool.Release
import Pggat.Frontends.Options
import Pggat.Frontends.Encryption
import Pggat.Pgbouncer.Termination
import Pggat.Pgbouncer.Sharing
import Pggat.Rbtree.SortedMap
import Pggat.Util.Deque
import Pggat.Util.Matcher
import Pggat.Spool.Backoff
import Pggat.Spool.IdleTimer
import Pggat.Pools.Accounting
import Pggat.Poolers.Conservation
import Pggat.Userlist.Unmarshal
import Pggat.Ini.ReadFile
import Pggat.Gsql.Row
import Pggat.Discovery.Shutdown
import Pggat.Hybrid.Answers

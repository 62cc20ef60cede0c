import HolyGrail.Bloom.Probe
import HolyGrail.Cache.Accounting
import HolyGrail.Cache.Sweep
import HolyGrail.Columnar.RowGroups
import HolyGrail.Engine.Backpressure
import HolyGrail.Engine.Truncation
import HolyGrail.Flush.Staging
import HolyGrail.Memtable.Arrival
import HolyGrail.Node.Cached
import HolyGrail.Node.Retry
import HolyGrail.Node.Transport
import HolyGrail.System.Appends
import HolyGrail.System.Drain
import HolyGrail.System.Failures
import HolyGrail.System.Orphans
import HolyGrail.System.Overlaps
import HolyGrail.System.Reads
import HolyGrail.Wal.Damage
import HolyGrail.Wal.Oversized
import HolyGrail.Wal.Safety
import HolyGrail.Wal.Sessions

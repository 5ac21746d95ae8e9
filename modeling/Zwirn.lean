import Zwirn.Adls.Planned
import Zwirn.Adls.RoundTrip
import Zwirn.Cli
import Zwirn.Fragment.Grammar
import Zwirn.Fragment.ReadBack
import Zwirn.Fragment.Surgery
import Zwirn.Lib.Along
import Zwirn.Lib.Lines
import Zwirn.Lib.Custody
import Zwirn.Lib.Foreign
import Zwirn.Lib.Links
import Zwirn.Lib.Log
import Zwirn.Lib.Merge
import Zwirn.Lib.OrdMap
import Zwirn.Lib.Outcome
import Zwirn.Lib.Output
import Zwirn.Lib.Segments
import Zwirn.Lib.Slice
import Zwirn.Lib.Transition
import Zwirn.Lib.Usize
import Zwirn.Lib.Utf8
import Zwirn.Live.Diagnostics
import Zwirn.Live.Lifecycle
import Zwirn.Live.Monitor
import Zwirn.Live.Progress
import Zwirn.Live.Session
import Zwirn.Live.Watch
import Zwirn.Sync.Along
import Zwirn.Sync.Below
import Zwirn.Sync.Confined
import Zwirn.Sync.Coordinated
import Zwirn.Sync.Defensive
import Zwirn.Sync.Directions
import Zwirn.Sync.Discovery
import Zwirn.Sync.Guard
import Zwirn.Sync.History
import Zwirn.Sync.LinkDisk
import Zwirn.Sync.Links
import Zwirn.Sync.Materialize
import Zwirn.Sync.Prepare
import Zwirn.Sync.Resume
import Zwirn.Sync.Runs
import Zwirn.Sync.Snapshot
import Zwirn.Sync.Status
import Zwirn.Sync.Synchronized
import Zwirn.Sync.Trace
import Zwirn.Sync.TreeCommit
import Zwirn.Sync.Unaliased

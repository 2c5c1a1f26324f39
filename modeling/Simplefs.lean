import Simplefs.Basic
import Simplefs.Path
import Simplefs.Index
import Simplefs.Fs
import Simplefs.Provider
import Simplefs.SetMultiLevel
import Simplefs.Mapping
import Simplefs.VariantFrame
import Simplefs.RoundTrip
import Simplefs.Atomicity
import Simplefs.Run
import Simplefs.Staleness
import Simplefs.Interleaving
import Simplefs.LostUpdate
import Simplefs.Coherence
import Simplefs.Quota
import Simplefs.BulkDelete
import Simplefs.ReadBack
import Simplefs.Layout
import Simplefs.Eviction
import Simplefs.Schedule
import Simplefs.Serial
import Simplefs.Balance
import Simplefs.Config
import Simplefs.ConcurrentAccounting

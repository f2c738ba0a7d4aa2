import RisingWave.Keys
import RisingWave.Common
import RisingWave.Store
import RisingWave.Table
import RisingWave.ScanSound
import RisingWave.ScanComplete
import RisingWave.PointGet
import RisingWave.ScanIncomplete
import RisingWave.Agg
import RisingWave.ManagedState
import RisingWave.ReadAfterWrite
import RisingWave.SharedStore

import NsxPmu.DriverAgreement
import NsxPmu.EventCounting
import NsxPmu.InitAllocation
import NsxPmu.CaptureHarvest
import NsxPmu.CaptureFinished
import NsxPmu.CaptureMeasured
import NsxPmu.CaptureReinit
import NsxPmu.CaptureRetry
import NsxPmu.CaptureEventList
import NsxPmu.CsvLossless
import NsxPmu.LogSink
import NsxPmu.Lockstep
import NsxPmu.Collectors
import NsxPmu.AccumulatorTable
import NsxPmu.AccumulatorMeasured
import NsxPmu.AccumulatorTags
import NsxPmu.CounterDelta
import NsxPmu.Characterize
import NsxPmu.CaptureTable
import NsxPmu.AccumulatorProfile
import NsxPmu.CharacterizeCounts

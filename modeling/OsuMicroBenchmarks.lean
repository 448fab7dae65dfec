import OsuMicroBenchmarks.Options
import OsuMicroBenchmarks.SizeLoop
import OsuMicroBenchmarks.IreduceScatter.Recvcounts
import OsuMicroBenchmarks.IreduceScatter.Passes
import OsuMicroBenchmarks.IreduceScatter.World
import OsuMicroBenchmarks.IreduceScatter.Loop
import OsuMicroBenchmarks.IreduceScatter.Requests
import OsuMicroBenchmarks.Pt2pt.Net
import OsuMicroBenchmarks.Pt2pt.Pairing
import OsuMicroBenchmarks.Pt2pt.Plan
import OsuMicroBenchmarks.Pt2pt.LatencyDt
import OsuMicroBenchmarks.Pt2pt.MultiLatDt
import OsuMicroBenchmarks.Timing

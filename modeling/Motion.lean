import Motion.Code.Stages
import Motion.Proofs.Blur
import Motion.Proofs.Capacity
import Motion.Proofs.Components
import Motion.Proofs.Statistics
import Motion.Spec.Contrast
import Motion.Proofs.Subtract
import Motion.Proofs.StaticScene
import Motion.Spec.Bands
import Motion.Proofs.BandScan
import Motion.Proofs.Independence
import Motion.Proofs.Stitches
import Motion.Proofs.Conservation
import Motion.Code.Steps
import Motion.Proofs.Closure
import Motion.Proofs.Turns
import Motion.Proofs.Rerun
import Motion.Proofs.Survivors
import Motion.Proofs.StitchLinks
import Motion.Proofs.Fusion
import Motion.Proofs.Border
import Motion.Proofs.Drains
import Motion.Proofs.Leak
import Motion.Proofs.Agreement
import Motion.Spec.Whole
import Motion.Proofs.Catalogue
import Motion.Proofs.Pipelines
import Motion.Lib.Mean
import Motion.Proofs.Collapse
import Motion.Code.PixelSteps
import Motion.Proofs.Lanes
import Motion.Proofs.Window
import Motion.Proofs.Averaging
import Motion.Proofs.StripeThreads
import Motion.Code.BlurSimd
import Motion.Proofs.BlurLanes
import Motion.Proofs.Packing
import Motion.Proofs.Shift
import Motion.Proofs.BandCut
import Motion.Proofs.Translation
import Motion.Proofs.Sewing
import Motion.Proofs.Shading
import Motion.Code.Threads
import Motion.Proofs.Threads
import Motion.Proofs.Weave
import Motion.Proofs.Tallies
import Motion.Proofs.ThreadsApart
import Motion.Proofs.StitchThreads
import Motion.Proofs.Cleaned
import Motion.Proofs.Reduction
import Motion.Lib.Decimal
import Motion.Lib.Ppm
import Motion.Code.WritePpm
import Motion.Proofs.Pictures
import Motion.Proofs.Greys
import Motion.Proofs.Races
import Motion.Proofs.Inventory
import Motion.Code.Loops
import Motion.Proofs.Stale
import Motion.Proofs.Reuse
import Motion.Proofs.Gaps
import Motion.Proofs.Accord
import Motion.Proofs.Frames
import Motion.Proofs.Silent

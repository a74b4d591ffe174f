import FOSketch.App
import FOSketch.Asm.Gather
import FOSketch.Asm.MaxSet
import FOSketch.Asm.MoveEx
import FOSketch.Asm.Sorters
import FOSketch.Asm.UpdateRuns
import FOSketch.Driver
import FOSketch.GlobalSketch
import FOSketch.Heavy.ChangeResponse
import FOSketch.Heavy.Difference
import FOSketch.Heavy.Kept
import FOSketch.Heavy.Merge
import FOSketch.Heavy.Moved
import FOSketch.Heavy.PaddedSorter
import FOSketch.Heavy.PlainTable
import FOSketch.Heavy.RunTally
import FOSketch.Light.Blocks
import FOSketch.Light.Counters
import FOSketch.Light.Equivalence
import FOSketch.Light.Saturated
import FOSketch.Oram.Bounds
import FOSketch.Oram.Compress
import FOSketch.Oram.Index
import FOSketch.Oram.Oblivious
import FOSketch.Oram.Overflow
import FOSketch.Oram.Path
import FOSketch.Oram.Recreate
import FOSketch.Oram.Uniform
import FOSketch.SpinQueue
import FOSketch.Split
import FOSketch.Spooky
import FOSketch.Threads

import MVSync.Clock.Punctual
import MVSync.CommandBuffer.Scripts
import MVSync.CommandBuffer.Copies
import MVSync.CommandBuffer.Fences
import MVSync.CommandBuffer.Order
import MVSync.CommandBuffer.Progress
import MVSync.Main.Awake
import MVSync.Main.Flag
import MVSync.Main.Release
import MVSync.Main.Sole
import MVSync.Pool.Chain
import MVSync.Pool.Handle
import MVSync.Pool.Custody
import MVSync.Pool.Fallback
import MVSync.Pool.Fence
import MVSync.Pool.Fifo
import MVSync.Pool.Labels
import MVSync.Pool.Latch
import MVSync.Pool.Load
import MVSync.Pool.Contained
import MVSync.Pool.AnyOrder
import MVSync.Pool.RunAll
import MVSync.Timer.Entries
import MVSync.Wakers

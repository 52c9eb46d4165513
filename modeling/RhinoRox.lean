import RhinoRox.DictRefinement
import RhinoRox.DictIteration
import RhinoRox.MinheapRefinement
import RhinoRox.Numbers
import RhinoRox.Replying
import RhinoRox.ReplyStream
import RhinoRox.Sds
import RhinoRox.RequestParser
import RhinoRox.ParserSafety
import RhinoRox.Resp
import RhinoRox.RequestRoundTrip
import RhinoRox.InlineRequests
import RhinoRox.ProtocolErrors
import RhinoRox.EventLoopRuns
import RhinoRox.FtsRanking
import RhinoRox.TrieCommands
import RhinoRox.DocumentRequests
import RhinoRox.Conversations
import RhinoRox.AbsentKeys
import RhinoRox.RejectedCommands
import RhinoRox.KeyIsolation
import RhinoRox.StoredValues
import RhinoRox.ObjectLifetimes
import RhinoRox.DictTraversals
import RhinoRox.DictHistories
import RhinoRox.DictCopy
import RhinoRox.ArrayGrowth
import RhinoRox.BackgroundTasks
import RhinoRox.EventTable
import RhinoRox.HeapRelease
import RhinoRox.MinheapMap
import RhinoRox.AlikeRuns
import RhinoRox.Contents
import RhinoRox.CommandContents
import RhinoRox.CollectionContents
import RhinoRox.ReleaseLogs
import RhinoRox.ServedRuns
import RhinoRox.LazyFreeing
import RhinoRox.DescriptorLimits
import RhinoRox.DictShape
import RhinoRox.TimerRuns
import RhinoRox.MemoryAmounts
import RhinoRox.CommandLineOptions
import RhinoRox.HeapFetches
import RhinoRox.StoreRefinement
import RhinoRox.ServerLists
import RhinoRox.SdsGrowth
import RhinoRox.SdsEscapes
import RhinoRox.PollerRuns
import RhinoRox.UsedMemory
import RhinoRox.IntegerTexts
import RhinoRox.EventLoopTurns

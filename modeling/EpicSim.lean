import EpicSim.Vvp.Vector2Compare
import EpicSim.Vvp.StartOfTime
import EpicSim.Vvp.Stratified
import EpicSim.TgtVvp.GateEvaluation
import EpicSim.Vvp.IslandOrder
import EpicSim.Vvp.UdpCompile
import EpicSim.Vvp.DelaySettles
import EpicSim.Vvp.ModpathOnTime
import EpicSim.Vvp.PartReplaced
import EpicSim.Vvp.EventCount
import EpicSim.Vvp.NextTimeBook
import EpicSim.Vvp.CallbackRuns
import EpicSim.Vvp.PartClip
import EpicSim.Vvp.ArrayShows
import EpicSim.Vvp.ThreadDivision
import EpicSim.Vpi.QueueRuns
import EpicSim.Vvp.FunctorOperand
import EpicSim.Ivlpp.MacroSubstitute
import EpicSim.Ivl.FuncRuns
import EpicSim.Vvp.VpipRoundTrip
import EpicSim.Vvp.ArithSum
import EpicSim.Vvp.C4String
import EpicSim.Vvp.DecRead
import EpicSim.Vvp.IndexShift
import EpicSim.Vvp.UfuncCore
import EpicSim.Vvp.NetLinks
import EpicSim.Ivl.NexusDriver
import EpicSim.Vvp.CallContexts
import EpicSim.Ivl.ParameterRange
import EpicSim.Vpi.WaitTime
import EpicSim.Vpi.ScaledTime
import EpicSim.Vvp.VectorString
import EpicSim.Vvp.Clog2
import EpicSim.Vpi.TableGrammar
import EpicSim.Ivl.SliceExact
import EpicSim.Ivl.SimilarEvent
import EpicSim.Vvp.ThreadPower
import EpicSim.Vvp.Dff
import EpicSim.Ivlpp.Precompiled
import EpicSim.TgtVvp.ArithCode
import EpicSim.Ivl.CaseSynth
import EpicSim.Ivlpp.CallArguments
import EpicSim.Ivl.EventProbe
import EpicSim.Vpi.GetTime
import EpicSim.Vpi.BinaryScan

import Sdrmm.Lib.Numerals
import Sdrmm.Dsp.Hdlc
import Sdrmm.Dsp.Conv7Viterbi
import Sdrmm.Lib.ErrorLocator
import Sdrmm.Lib.BinaryField
import Sdrmm.Dsp.Rs256Errata
import Sdrmm.Wire.Frame
import Sdrmm.Wire.PatchCheck
import Sdrmm.Engine.ArrayRecord
import Sdrmm.Lib.Stretch
import Sdrmm.Engine.ArrayRecordAligned
import Sdrmm.Engine.ArrayRecordDrain
import Sdrmm.Engine.CaptureRing
import Sdrmm.Engine.TimeMachineCapture
import Sdrmm.Engine.PlacementAllocate
import Sdrmm.Channels.AcarsReasm
import Sdrmm.Channels.AcarsMessages
import Sdrmm.Cps.Image
import Sdrmm.Cps.Codeplug
import Sdrmm.Cps.Names
import Sdrmm.Cps.Convert
import Sdrmm.Cps.ConvertSound
import Sdrmm.Engine.ArrayRecordRun
import Sdrmm.Channels.Vdl2Interleave
import Sdrmm.Channels.Vdl2Decode
import Sdrmm.Channels.FtxLdpc
import Sdrmm.Channels.FtxHistory
import Sdrmm.Cps.D890uv
import Sdrmm.Lib.SparseTable
import Sdrmm.Cps.D890uvSlots
import Sdrmm.Channels.Dvbs
import Sdrmm.Channels.DvbsInterleave
import Sdrmm.Channels.TsSections
import Sdrmm.Channels.Navtex
import Sdrmm.Channels.NavtexSigns
import Sdrmm.Channels.NavtexFraming
import Sdrmm.Channels.NavtexSlots
import Sdrmm.Channels.NavtexFollow
import Sdrmm.Channels.NavtexDiversity
import Sdrmm.Channels.Dvbs2Transport
import Sdrmm.Server.Outbox
import Sdrmm.Dsp.Crc
import Sdrmm.Channels.MotHeader
import Sdrmm.Channels.Mot
import Sdrmm.Channels.MotAssembly
import Sdrmm.Engine.TimeMachineLabels
import Sdrmm.Channels.Gse
import Sdrmm.Channels.GseReassembly
import Sdrmm.Lib.Timeline
import Sdrmm.Recorder.Collection
import Sdrmm.Recorder.CollectionWritten
import Sdrmm.Recorder.CollectionEvents
import Sdrmm.Recorder.CollectionPlayback
import Sdrmm.Lib.Chunked
import Sdrmm.Channels.DabPacket
import Sdrmm.Channels.DabPacketStream
import Sdrmm.Channels.Ts
import Sdrmm.Channels.TsPes
import Sdrmm.Channels.TsTables
import Sdrmm.Channels.TsMultiplex
import Sdrmm.Lib.Cuts
import Sdrmm.Lib.Interleave
import Sdrmm.Engine.Tap
import Sdrmm.Engine.Align
import Sdrmm.Engine.TapLane
import Sdrmm.Engine.TapWriter
import Sdrmm.Engine.AlignReader
import Sdrmm.Engine.AlignDelivery
import Sdrmm.Server.WorkspaceWalk
import Sdrmm.Server.PhonesReached
import Sdrmm.Channels.DabFig
import Sdrmm.Tunnel.StreamsKept
import Sdrmm.Dsp.Scrambler
import Sdrmm.Dsp.PocsagBch
import Sdrmm.Lib.ReflectedCrc
import Sdrmm.Dsp.HdlcRepair
import Sdrmm.Lib.Places
import Sdrmm.Dsp.ParityCode
import Sdrmm.Dsp.Bptc196
import Sdrmm.Dsp.Conv7Butterfly
import Sdrmm.Dsp.Puncture
import Sdrmm.Dsp.Conv7Stream
import Sdrmm.Lib.Lanes
import Sdrmm.Lib.LookupTable
import Sdrmm.Dsp.Ccsds
import Sdrmm.Dsp.CcsdsInterleaved
import Sdrmm.Engine.CaptureRoom
import Sdrmm.Cps.UniqueNames
import Sdrmm.Cps.ConvertLosses
import Sdrmm.Channels.AcarsUplink
import Sdrmm.Engine.TimeMachineShutdown
import Sdrmm.Lib.Pieces
import Sdrmm.Cps.ChangedBlocks
import Sdrmm.Lib.Text
import Sdrmm.Lib.Alphabet
import Sdrmm.Channels.WsprMessage
import Sdrmm.Channels.FtxPacked
import Sdrmm.Server.CallTrackerEncrypted
import Sdrmm.Dsp.AssignOptimal
import Sdrmm.Channels.BchDivider
import Sdrmm.Channels.DabLabelAssembly
import Sdrmm.Channels.DabFiguresField
import Sdrmm.Lib.FrameRing
import Sdrmm.Lib.FullTrellis
import Sdrmm.Channels.DabEncoder
import Sdrmm.Channels.DabInterleave
import Sdrmm.Dsp.Conv7Erasures
import Sdrmm.Channels.DabMask
import Sdrmm.Channels.DabRoundTrip
import Sdrmm.Channels.Rds
import Sdrmm.Channels.RdsText
import Sdrmm.Channels.RdsTextRun
import Sdrmm.Channels.DmrLink
import Sdrmm.Channels.DvTrellis
import Sdrmm.Channels.DmrAlias
import Sdrmm.Channels.DmrAliasRun

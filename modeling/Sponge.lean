import Sponge.Lib.Runs
import Sponge.Lib.Fifo
import Sponge.Lib.Words
import Sponge.Lib.BigEndian
import Sponge.Lib.OnesComplement
import Sponge.Lib.BitWindow
import Sponge.Lib.Chunks
import Sponge.Lib.Fields
import Sponge.Lib.Reaction
import Sponge.Lib.Registry
import Sponge.ByteStream
import Sponge.ByteStreamFifo
import Sponge.StreamReassembler
import Sponge.ReassemblerInv
import Sponge.ReassemblerRun
import Sponge.ReassemblerReceived
import Sponge.ReassemblerEof
import Sponge.ReassemblerDuplicate
import Sponge.ReassemblerWindow
import Sponge.ReassemblerFirst
import Sponge.ReassemblerTransfer
import Sponge.WrappingIntegers
import Sponge.Buffer
import Sponge.Parser
import Sponge.ParserRun
import Sponge.InternetChecksum
import Sponge.TCPHeader
import Sponge.TCPHeaderViews
import Sponge.TCPSegment
import Sponge.TCPSegmentCodec
import Sponge.TCPDataOffset
import Sponge.ChecksumErrors
import Sponge.Address
import Sponge.FileDescriptor
import Sponge.FileDescriptorHandles
import Sponge.StreamPair
import Sponge.UDPSocket
import Sponge.Webget
import Sponge.EventLoop
import Sponge.EventLoopPass
import Sponge.EventLoopRules
import Sponge.EventLoopGrowth
import Sponge.EventLoopSuccess
import Sponge.EventLoopClosed
import Sponge.EventLoopLife
import Sponge.EventLoopBusy

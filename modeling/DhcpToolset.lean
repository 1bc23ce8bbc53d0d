import DhcpToolset.Transition
import DhcpToolset.Traced
import DhcpToolset.Win32
import DhcpToolset.Segment
import DhcpToolset.Qsort
import DhcpToolset.Bytes
import DhcpToolset.CText
import DhcpToolset.Tlv
import DhcpToolset.SqlLiteral
import DhcpToolset.Shm
import DhcpToolset.Slot
import DhcpToolset.SlotCapture
import DhcpToolset.LinkedBuffer
import DhcpToolset.BufferRuns
import DhcpToolset.BufferSignals
import DhcpToolset.BufferBacklog
import DhcpToolset.Monitor
import DhcpToolset.Acl
import DhcpToolset.AclUpdate
import DhcpToolset.AclPolls
import DhcpToolset.AclThread
import DhcpToolset.LastUpdate
import DhcpToolset.CalloutHook
import DhcpToolset.ShmHandles
import DhcpToolset.Ledger
import DhcpToolset.HookResources
import DhcpToolset.AclOrder
import DhcpToolset.AclMask
import DhcpToolset.SlotMutex
import DhcpToolset.SlotProgress
import DhcpToolset.InitShm
import DhcpToolset.InitShmRuns
import DhcpToolset.ShmAttach
import DhcpToolset.AclReaders
import DhcpToolset.AclService
import DhcpToolset.HookArgs
import DhcpToolset.DhcpOptions
import DhcpToolset.HwAddrText
import DhcpToolset.HandleOffer
import DhcpToolset.AclBounds
import DhcpToolset.AclMapping
import DhcpToolset.OptionWalk
import DhcpToolset.OptionPads
import DhcpToolset.HostName
import DhcpToolset.HwAddrParse
import DhcpToolset.LengthBounds
import DhcpToolset.HandlerQueries
import DhcpToolset.OfferReport
import DhcpToolset.Config
import DhcpToolset.EventLog
import DhcpToolset.Pipeline

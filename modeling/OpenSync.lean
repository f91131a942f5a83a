import OpenSync.DnsCacheRun
import OpenSync.DsTreeSequence
import OpenSync.DsTreeIter
import OpenSync.InetUnitRun
import OpenSync.NeighRun
import OpenSync.OmScratch
import OpenSync.OsfwApply
import OpenSync.PsfsCrash
import OpenSync.NetMdRun
import OpenSync.FsmPolicyRun
import OpenSync.NfmLeak
import OpenSync.EvschedTiming
import OpenSync.QmPublish
import OpenSync.QmQueue
import OpenSync.QmRun
import OpenSync.WanoFreeze
import OpenSync.PsfsEnum
import OpenSync.PsfsUsed
import OpenSync.BmKickRun
import OpenSync.BmTableRun
import OpenSync.OvsdbRead
import OpenSync.SmScanRun
import OpenSync.EvschedRobust
import OpenSync.OmFlowRange
import OpenSync.FcmVerdict
import OpenSync.DhcpRun
import OpenSync.FsmApply
import OpenSync.GkcShare
import OpenSync.GkcAccount
import OpenSync.GkcCounter
import OpenSync.GkcMap
import OpenSync.NetHeaderExtensions
import OpenSync.NdpLearn
import OpenSync.DhcpBounds
import OpenSync.FcmTable
import OpenSync.OsnTypes
import OpenSync.OvsdbReconnect
import OpenSync.OvsdbTransaction
import OpenSync.OvsdbUpdate
import OpenSync.LibraryOrder
import OpenSync.PsfsReturn
import OpenSync.CmBackoff
import OpenSync.DppQueue

import Ironcat.SupplyBound
import Ironcat.ReorgClosure
import Ironcat.RejectedFork
import Ironcat.MoreWork
import Ironcat.Network
import Ironcat.ChainCache
import Ironcat.ReorgBlocks
import Ironcat.MempoolLock
import Ironcat.LoadableBlocks
import Ironcat.HeaderPersist
import Ironcat.Admission
import Ironcat.BanExpiry
import Ironcat.WireFormat
import Ironcat.MerkleRoot
import Ironcat.Script.Deletion
import Ironcat.ScryptNative
import Ironcat.Script.PushLimit
import Ironcat.Script.Der
import Ironcat.MedianTime
import Ironcat.CompactRounding
import Ironcat.UndoCursor
import Ironcat.ForkPoints
import Ironcat.HeaderLoadWalk
import Ironcat.ForkBound
import Ironcat.DownloadBounds
import Ironcat.ExternalVotes
import Ironcat.HeaderAgreement
import Ironcat.ControllerPace
import Ironcat.TxRelay

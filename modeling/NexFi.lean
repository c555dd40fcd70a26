import NexFi.AlfredHash
import NexFi.AlfredMesh
import NexFi.AlfredRequest
import NexFi.AlfredSockets
import NexFi.DialogText
import NexFi.StoreConcurrency
import NexFi.StoreCrash
import NexFi.StoreFailures
import NexFi.StoreHandles
import NexFi.TopologyOrder
import NexFi.TopologyRefresh
import NexFi.TopologyRouter
import NexFi.VisMesh
import NexFi.WebNode
import NexFi.WirelessEdit

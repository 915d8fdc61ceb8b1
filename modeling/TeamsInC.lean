import TeamsInC.Client.Frames
import TeamsInC.Client.Handler
import TeamsInC.Client.Login
import TeamsInC.Client.Main
import TeamsInC.Client.Menu
import TeamsInC.Client.Receive
import TeamsInC.Client.Survival
import TeamsInC.Client.Typed
import TeamsInC.HbTree.ArrivalOrder
import TeamsInC.HbTree.Balance
import TeamsInC.HbTree.FreshNodes
import TeamsInC.HbTree.Height
import TeamsInC.HbTree.Insert
import TeamsInC.HbTree.KeyOrder
import TeamsInC.HbTree.Links
import TeamsInC.HbTree.Multimap
import TeamsInC.HbTree.RemovalBalance
import TeamsInC.HbTree.Remove
import TeamsInC.HbTree.Rotations
import TeamsInC.HbTree.Shape
import TeamsInC.HbTree.Tree
import TeamsInC.Lib.Bytes
import TeamsInC.Lib.Channel
import TeamsInC.Lib.Cutting
import TeamsInC.Lib.Directory
import TeamsInC.Lib.Groups
import TeamsInC.Lib.HeightBalance
import TeamsInC.Lib.LinkedTree
import TeamsInC.Lib.Notices
import TeamsInC.Lib.Refines
import TeamsInC.Lib.Runs
import TeamsInC.Lib.SearchTree
import TeamsInC.Lib.Traced
import TeamsInC.Lib.TreePath
import TeamsInC.Machine
import TeamsInC.Messages
import TeamsInC.Packets
import TeamsInC.Protocol.Authorship
import TeamsInC.Protocol.ChatDelivery
import TeamsInC.Protocol.Clients
import TeamsInC.Protocol.Codecs
import TeamsInC.Protocol.Conversation
import TeamsInC.Protocol.Delivery
import TeamsInC.Protocol.FrameStream
import TeamsInC.Protocol.LoginAgreement
import TeamsInC.Protocol.Messenger
import TeamsInC.Protocol.Network
import TeamsInC.Protocol.Phases
import TeamsInC.Protocol.Progress
import TeamsInC.Protocol.SendLoops
import TeamsInC.Protocol.Terminators
import TeamsInC.Protocol.TypedMessage
import TeamsInC.Sending
import TeamsInC.Server.Blocks
import TeamsInC.Server.Cuttings
import TeamsInC.Server.DecodeBounds
import TeamsInC.Server.Frames
import TeamsInC.Server.FreshMemory
import TeamsInC.Server.Handler
import TeamsInC.Server.Histories
import TeamsInC.Server.Isolation
import TeamsInC.Server.LoginAtomicity
import TeamsInC.Server.Main
import TeamsInC.Server.Notification
import TeamsInC.Server.Reassembly
import TeamsInC.Server.Records
import TeamsInC.Server.Registration
import TeamsInC.Server.Releases
import TeamsInC.Server.Rosters
import TeamsInC.Server.SenderNames
import TeamsInC.Server.Service
import TeamsInC.Server.Steps
import TeamsInC.Server.Streams
import TeamsInC.Server.Survival

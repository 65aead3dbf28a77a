import Maple.Agent.Account
import Maple.Compaction.Budget
import Maple.Compaction.Exchanges
import Maple.Compaction.SourceCache
import Maple.Compaction.Survival
import Maple.Inference.FailureQueue
import Maple.Inference.Healing
import Maple.Inference.RollingWindow
import Maple.Inference.Routing
import Maple.Inference.Split
import Maple.Paging.Complete
import Maple.Provider.Convert
import Maple.Responses.Quiescence
import Maple.Responses.ToolCallIds
import Maple.Secrets.SeedWrapping
import Maple.Sends.Recovery
import Maple.Session.FileTimestamp
import Maple.Session.Fork
import Maple.Streaming.Reading
import Maple.Timeline.AttachmentNames
import Maple.Tools.Places
import Maple.Tools.Snapshot
import Maple.Tools.Spill
import Maple.Transport.Authenticity
import Maple.Transport.Fallback
import Maple.Transport.LeaseOrder
import Maple.Transport.Nonces
import Maple.Transport.SharedClients

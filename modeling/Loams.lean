import Loams.Collection.Acceptance
import Loams.Collection.Trimming
import Loams.Es.Names
import Loams.Hot.Budget
import Loams.Hot.Placement
import Loams.Link.ExactlyOnce
import Loams.Live.Delivery
import Loams.Live.ExactIndexes
import Loams.Live.ReadSets
import Loams.Live.SubscriptionKeys
import Loams.Log.CloudEvent
import Loams.Log.RoundTrip
import Loams.Meta.Client
import Loams.Meta.Deduplication
import Loams.Meta.Fencing
import Loams.Query.TopK
import Loams.Safekeeper.Greeting
import Loams.Safekeeper.NvmeIndex
import Loams.Safekeeper.NvmeVotes
import Loams.Safekeeper.RawAppends
import Loams.Safekeeper.RawReads
import Loams.Safekeeper.RoundTrip
import Loams.Tikv.Commits
import Loams.Tikv.RunnerTokens

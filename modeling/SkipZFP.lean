import SkipZFP.Aggregate.Answers
import SkipZFP.Aggregate.Damaged
import SkipZFP.Aggregate.Exact
import SkipZFP.Aggregate.Ordered
import SkipZFP.Aggregate.Original
import SkipZFP.Aggregate.Pipelined
import SkipZFP.Aggregate.Rounded
import SkipZFP.Aggregate.Sound
import SkipZFP.Aggregate.Stored
import SkipZFP.Api.Calls
import SkipZFP.Api.Lifecycle
import SkipZFP.Decode.Bounds
import SkipZFP.Decode.Parallel
import SkipZFP.Decode.Progressive
import SkipZFP.Plan.Agree
import SkipZFP.Plan.Transparent
import SkipZFP.Plan.Codes
import SkipZFP.Plan.ErrorBound
import SkipZFP.Plan.Parallel
import SkipZFP.Plan.Slack
import SkipZFP.Plan.Stride
import SkipZFP.Query.Bounds
import SkipZFP.Query.Dense
import SkipZFP.Query.Layers
import SkipZFP.Query.Pipelined
import SkipZFP.Query.Stored
import SkipZFP.Read.Cover
import SkipZFP.Read.Limit
import SkipZFP.Read.Runs

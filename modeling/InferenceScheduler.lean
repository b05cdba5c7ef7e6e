import InferenceScheduler.Uniqueness
import InferenceScheduler.Placement
import InferenceScheduler.Baseline
import InferenceScheduler.QueueBounds
import InferenceScheduler.Explain
import InferenceScheduler.Boost
import InferenceScheduler.Determinism
import InferenceScheduler.Decoding
import InferenceScheduler.Urgency
import InferenceScheduler.Fruitless
import InferenceScheduler.TokenSums
import InferenceScheduler.Rejected
import InferenceScheduler.Retrying
import InferenceScheduler.Reporting
import InferenceScheduler.Settling
import InferenceScheduler.DispatchAnswers
import InferenceScheduler.EpochFence
import InferenceScheduler.RunMessages
import InferenceScheduler.Framing
import InferenceScheduler.NumberText
import InferenceScheduler.Scanner
import InferenceScheduler.Consistency
import InferenceScheduler.Delivery
import InferenceScheduler.Drain

import ParseKit.Main
import ParseKit.Script.DescriptorPart
import ParseKit.Proofs.Approximation
import ParseKit.Proofs.Limit
import ParseKit.Proofs.Block.Chain
import ParseKit.Proofs.Block.Protected
import ParseKit.Proofs.Block.Cleanup
import ParseKit.Proofs.Remainder
import ParseKit.Proofs.Suffix
import ParseKit.Proofs.DescriptorBlocks
import ParseKit.Proofs.LongestNumeral
import ParseKit.Proofs.Recursion
import ParseKit.Proofs.Consumption
import ParseKit.Proofs.Settling
import ParseKit.Proofs.Termination
import ParseKit.Proofs.Counting
import ParseKit.Proofs.History.Beside
import ParseKit.Proofs.History.Session
import ParseKit.Proofs.Calling
import ParseKit.Proofs.Laws
import ParseKit.Proofs.Passing
import ParseKit.Proofs.WholeInput
import ParseKit.Proofs.Infallible
import ParseKit.Proofs.Lossless
import ParseKit.Proofs.Chaining
import ParseKit.Proofs.Exchange.Replaying
import ParseKit.Proofs.Tracing
import ParseKit.Proofs.FixedPoint
import ParseKit.Proofs.Separated
import ParseKit.Proofs.Alternatives
import ParseKit.Proofs.Factoring
import ParseKit.Proofs.Words
import ParseKit.Proofs.Nesting
import ParseKit.Proofs.Once
import ParseKit.Proofs.Rounding
import ParseKit.Proofs.NearestNumber
import ParseKit.Proofs.Joining
import ParseKit.Proofs.Membership
import ParseKit.Proofs.CharacterRuns

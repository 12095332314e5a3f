import CodeGuard.Bench
import CodeGuard.Proofs.Cover
import CodeGuard.Proofs.Sweeping
import CodeGuard.Proofs.Sizing
import CodeGuard.Proofs.Decoding
import CodeGuard.Proofs.Table
import CodeGuard.Proofs.Loading
import CodeGuard.Proofs.Matching
import CodeGuard.Proofs.AccessMap
import CodeGuard.Proofs.Storing
import CodeGuard.Proofs.Patching
import CodeGuard.Proofs.Image
import CodeGuard.Proofs.ReadBack
import CodeGuard.Proofs.Shielding
import CodeGuard.Proofs.Exposure
import CodeGuard.Proofs.Agreement
import CodeGuard.Proofs.Retention
import CodeGuard.Proofs.Building
import CodeGuard.Proofs.Deciding
import CodeGuard.Proofs.Messages
import CodeGuard.Proofs.Reporting
import CodeGuard.Proofs.Masking
import CodeGuard.Proofs.Nesting
import CodeGuard.Proofs.Truncation
import CodeGuard.Proofs.Effect
import CodeGuard.Proofs.Stepwise
import CodeGuard.Proofs.Tampering
import CodeGuard.Proofs.Budget
import CodeGuard.Proofs.Shortage
import CodeGuard.Proofs.Refining
import CodeGuard.Proofs.Binary
import CodeGuard.Proofs.Encoding
import CodeGuard.Proofs.Resolving
import CodeGuard.Proofs.Faulting
import CodeGuard.Proofs.Registers
import CodeGuard.Proofs.Calling
import CodeGuard.Proofs.Stages
import CodeGuard.Proofs.Words
import CodeGuard.Proofs.Trapping

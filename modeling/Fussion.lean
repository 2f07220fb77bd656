import Fussion.Lib.Run
import Fussion.Lib.Ensures
import Fussion.Lib.Transition
import Fussion.Lib.Residue
import Fussion.Lib.Progression
import Fussion.Lib.Digits
import Fussion.Lib.Interpolate
import Fussion.Lib.Split
import Fussion.Order
import Fussion.Tools
import Fussion.ToolsSpec
import Fussion.BrpcTools
import Fussion.Conversions
import Fussion.Texts
import Fussion.Message
import Fussion.BigInv
import Fussion.Coprime
import Fussion.Exponents
import Fussion.Digest
import Fussion.Scheme
import Fussion.Shares
import Fussion.Issuing
import Fussion.Coefficients
import Fussion.Transform
import Fussion.Verify
import Fussion.Reorder
import Fussion.Tamper
import Fussion.Pipeline
import Fussion.Outcomes
import Fussion.Transfer
import Fussion.Secrecy
import Fussion.Acceptance
import Fussion.Protocol.Services
import Fussion.Protocol.System
import Fussion.Protocol.Collect
import Fussion.Protocol.Progress
import Fussion.Protocol.Invariant
import Fussion.Protocol.Bounds
import Fussion.Protocol.Refinement
import Fussion.Protocol.Session
import Fussion.Protocol.Failures
import Fussion.Protocol.Verdicts
import Fussion.Protocol.Faultless
import Fussion.Protocol.Liveness
import Fussion.Protocol.Clients

import Solscope.Handover
import Solscope.Json.Printer
import Solscope.Observer
import Solscope.Proofs.Breakpoint.Files
import Solscope.Proofs.Breakpoint.Texts
import Solscope.Proofs.Bytecode.Loading
import Solscope.Proofs.ContractKeys
import Solscope.Proofs.Deployments
import Solscope.Proofs.Handover
import Solscope.Proofs.Input.RoundTrip
import Solscope.Proofs.Layout.Sizes
import Solscope.Proofs.Observer.HashInputs
import Solscope.Proofs.Observer.RunningCode
import Solscope.Proofs.Program.Circles
import Solscope.Proofs.Program.Precedence
import Solscope.Proofs.Program.StackSlots
import Solscope.Proofs.Program.Unrelated
import Solscope.Proofs.Read.Absent
import Solscope.Proofs.Read.Cutting
import Solscope.Proofs.Read.Limits
import Solscope.Proofs.Read.Recursion
import Solscope.Proofs.Run.Slots
import Solscope.Proofs.Run.Unresolved
import Solscope.Proofs.Session.Independence
import Solscope.Proofs.Session.Pauses
import Solscope.Proofs.Session.StepOver
import Solscope.Proofs.Source.Compression
import Solscope.Proofs.Source.Lines
import Solscope.Proofs.Storage.Keys
import Solscope.Proofs.Storage.Mapping
import Solscope.Proofs.Storage.Members
import Solscope.Proofs.Ty.Progress
import Solscope.Proofs.Ty.Spelling
import Solscope.Proofs.Value.Locations
import Solscope.Proofs.Wire.RoundTrip
import Solscope.Wire.Config
import Solscope.Wire.Pause
import Solscope.Wire.Run
import Solscope.Wire.Source

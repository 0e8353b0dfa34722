import KetSim.Program
import KetSim.Lowering
import KetSim.Circuit.Drawing
import KetSim.Engine
import KetSim.Distribution
import KetSim.Scalar.Text
import KetSim.Scalar.Machine
import KetSim.Json.Reading
import KetSim.Stored.Program
import KetSim.Stored.Circuit
import KetSim.Stored.Distribution
import KetSim.Stored.Settings
import KetSim.Distribution.Sampling
import KetSim.Distribution.Chart
import KetSim.StateVector.Text
import KetSim.Event.Wording
import KetSim.Session
import KetSim.Channel.Text
import KetSim.Settings.Environment
import KetSim.Settings.Document
import KetSim.Proofs.Index
import KetSim.Proofs.Kernels
import KetSim.Proofs.InPlace
import KetSim.Proofs.Fitting
import KetSim.Proofs.Evolution
import KetSim.Proofs.Labels
import KetSim.Proofs.BinaryDigits
import KetSim.Proofs.Emission
import KetSim.Proofs.Insertion
import KetSim.Proofs.Accounting
import KetSim.Proofs.Drawing
import KetSim.Proofs.Picture
import KetSim.Proofs.Legibility
import KetSim.Proofs.LabelSemantics
import KetSim.Proofs.Exact
import KetSim.Proofs.MostLikely
import KetSim.Proofs.Transform
import KetSim.Proofs.Lookup
import KetSim.Proofs.Rescaling
import KetSim.Proofs.Leading
import KetSim.Proofs.UnitNorm
import KetSim.Proofs.Execution
import KetSim.Proofs.Preparation
import KetSim.Proofs.Reversal
import KetSim.Proofs.Product
import KetSim.Proofs.Marginals
import KetSim.Proofs.Renaming
import KetSim.Proofs.GateAction
import KetSim.Proofs.Commutation
import KetSim.Proofs.Identities
import KetSim.Proofs.Draws
import KetSim.Proofs.Tallies
import KetSim.Proofs.Proportions
import KetSim.Proofs.LargestComponent
import KetSim.Proofs.Rounded
import KetSim.Proofs.Doubles
import KetSim.Proofs.DoubleOrder
import KetSim.Proofs.Acceptance
import KetSim.Proofs.Nearest
import KetSim.Proofs.DoubleRounding
import KetSim.Proofs.DoubleArithmetic
import KetSim.Proofs.DoubleTransform
import KetSim.Proofs.Classical
import KetSim.Proofs.Lifecycle
import KetSim.Proofs.Sessions
import KetSim.Proofs.Settlement
import KetSim.Proofs.Numerals
import KetSim.Proofs.Quoting
import KetSim.Proofs.Parsing
import KetSim.Proofs.Storing
import KetSim.Proofs.FloatText
import KetSim.Proofs.Handoff
import KetSim.Proofs.Overrides
import KetSim.Proofs.Replies

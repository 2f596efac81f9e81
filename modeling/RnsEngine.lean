import RnsEngine.Basis
import RnsEngine.Channel.Barrett
import RnsEngine.Channel.Basic
import RnsEngine.Channel.Exact
import RnsEngine.Conversion.Basic
import RnsEngine.Conversion.ModInverse
import RnsEngine.Engine.Basic
import RnsEngine.Engine.Invocation
import RnsEngine.Engine.Opcode
import RnsEngine.Fault
import RnsEngine.Galois.Automorphism
import RnsEngine.Galois.Inverse
import RnsEngine.Galois.Steps
import RnsEngine.Geometry
import RnsEngine.Pointwise
import RnsEngine.Prime.Decision
import RnsEngine.Prime.Root
import RnsEngine.Prime.Walk
import RnsEngine.Proofs.Basis
import RnsEngine.Proofs.Basis.Rebuild
import RnsEngine.Proofs.Channel.Arithmetic
import RnsEngine.Proofs.Channel.Power
import RnsEngine.Proofs.Channel.PowerLoop
import RnsEngine.Proofs.Conversion.Congruence
import RnsEngine.Proofs.Conversion.Construction
import RnsEngine.Proofs.Conversion.InPlace
import RnsEngine.Proofs.Conversion.ModInverse
import RnsEngine.Proofs.Conversion.Reconstruction
import RnsEngine.Proofs.Engine.Admission
import RnsEngine.Proofs.Engine.Atomicity
import RnsEngine.Proofs.Engine.Channels
import RnsEngine.Proofs.Engine.Combination
import RnsEngine.Proofs.Engine.History
import RnsEngine.Proofs.Engine.Pipeline
import RnsEngine.Proofs.Engine.RoundTrip
import RnsEngine.Proofs.Engine.Run
import RnsEngine.Proofs.Fold
import RnsEngine.Proofs.Galois.Action
import RnsEngine.Proofs.Galois.Automorphism
import RnsEngine.Proofs.Galois.Inverse
import RnsEngine.Proofs.Galois.Rotations
import RnsEngine.Proofs.Galois.Spectrum
import RnsEngine.Proofs.Galois.Steps
import RnsEngine.Proofs.Galois.Substitution
import RnsEngine.Proofs.Pointwise
import RnsEngine.Proofs.Prime.Decision
import RnsEngine.Proofs.Prime.Draws
import RnsEngine.Proofs.Prime.Exact
import RnsEngine.Proofs.Prime.NonResidue
import RnsEngine.Proofs.Prime.Root
import RnsEngine.Proofs.Prime.Walk
import RnsEngine.Proofs.Refusal
import RnsEngine.Proofs.Ring.Interpolation
import RnsEngine.Proofs.Ring.Modulus
import RnsEngine.Proofs.Ring.Operations
import RnsEngine.Proofs.Ring.Remainder
import RnsEngine.Proofs.Sampler.Rejection
import RnsEngine.Proofs.Sampler.Residues
import RnsEngine.Proofs.Systolic.Assertions
import RnsEngine.Proofs.Systolic.Cells
import RnsEngine.Proofs.Systolic.Checks
import RnsEngine.Proofs.Systolic.Product
import RnsEngine.Proofs.Systolic.Queue
import RnsEngine.Proofs.Systolic.Registers
import RnsEngine.Proofs.Systolic.SpaceTime
import RnsEngine.Proofs.Transfer
import RnsEngine.Proofs.Transfer.Layout
import RnsEngine.Proofs.Transform.Batch
import RnsEngine.Proofs.Transform.Cyclic
import RnsEngine.Proofs.Transform.Evaluation
import RnsEngine.Proofs.Transform.Guarded
import RnsEngine.Proofs.Transform.Inversion
import RnsEngine.Proofs.Transform.Linear
import RnsEngine.Proofs.Transform.Network
import RnsEngine.Proofs.Transform.Operands
import RnsEngine.Proofs.Transform.Order
import RnsEngine.Proofs.Transform.Pair
import RnsEngine.Proofs.Transform.Passes
import RnsEngine.Proofs.Transform.Reduced
import RnsEngine.Proofs.Transform.Spectrum
import RnsEngine.Proofs.Transform.Stage
import RnsEngine.Proofs.Twiddle.Entries
import RnsEngine.Proofs.Twiddle.Factors
import RnsEngine.Proofs.Word.Product
import RnsEngine.Proofs.Word.Reversal
import RnsEngine.Ring.Negacyclic
import RnsEngine.Ring.Residues
import RnsEngine.Sampler.ChaCha
import RnsEngine.Sampler.Draw
import RnsEngine.Sampler.Stream
import RnsEngine.Systolic.Cell
import RnsEngine.Systolic.Grid
import RnsEngine.Systolic.Link
import RnsEngine.Systolic.Shape
import RnsEngine.Tile.Basic
import RnsEngine.Tile.Permutation
import RnsEngine.Tile.Scatter
import RnsEngine.Transfer
import RnsEngine.Transform.Batch
import RnsEngine.Transform.FourStep
import RnsEngine.Transform.Lane
import RnsEngine.Twiddle.Layout
import RnsEngine.Twiddle.Table
import RnsEngine.Window
import RnsEngine.Word.Bits
import RnsEngine.Word.Product
import RnsEngine.Word.Residue

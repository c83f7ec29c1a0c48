import MemoryTrigger.Condition.Construction
import MemoryTrigger.Edit
import MemoryTrigger.Meaning.FirstFrame
import MemoryTrigger.Proofs.Lowering.CompiledRows
import MemoryTrigger.Proofs.Lowering.CountedOperands
import MemoryTrigger.Proofs.Lowering.Exactness
import MemoryTrigger.Proofs.Lowering.Locations
import MemoryTrigger.Proofs.Lowering.MixedRuns
import MemoryTrigger.Proofs.Lowering.Overflow
import MemoryTrigger.Proofs.Lowering.Soundness
import MemoryTrigger.Proofs.Lowering.TrivialComparisons
import MemoryTrigger.Proofs.Lowering.Truthiness
import MemoryTrigger.Proofs.Script.Lines
import MemoryTrigger.Proofs.SetAlgebra
import MemoryTrigger.Proofs.Simplify.FedValues
import MemoryTrigger.Proofs.Simplify.LoneAlternate
import MemoryTrigger.Proofs.Simplify.Misjudged
import MemoryTrigger.Proofs.Simplify.PlainestForms
import MemoryTrigger.Proofs.Simplify.PriorReads
import MemoryTrigger.Proofs.Simplify.Rounds
import MemoryTrigger.Proofs.Simplify.SinglePasses
import MemoryTrigger.Proofs.Simplify.SingleQuantity
import MemoryTrigger.Proofs.Simplify.Soundness
import MemoryTrigger.Proofs.Simplify.StoredClauses
import MemoryTrigger.Proofs.Text.Reading
import MemoryTrigger.Proofs.Wire.MistakeOffsets
import MemoryTrigger.Proofs.Wire.Produced
import MemoryTrigger.Wire.Conversion

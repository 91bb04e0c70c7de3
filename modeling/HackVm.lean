import HackVm.Command.Operand
import HackVm.Files.Store
import HackVm.Main
import HackVm.Proofs.Machine.Cpu
import HackVm.Proofs.Machine.Placement
import HackVm.Proofs.StackMachine.Memory
import HackVm.Proofs.Machine.Assembler
import HackVm.Proofs.Lowering.Effects
import HackVm.Proofs.StackMachine.Frame
import HackVm.Proofs.Lowering.CallReturn
import HackVm.Proofs.Token.Shape
import HackVm.Proofs.Token.Cut
import HackVm.Proofs.Command.Grammar
import HackVm.Proofs.Command.Recognition
import HackVm.Proofs.Program.Code
import HackVm.Proofs.Program.Labels
import HackVm.Proofs.Program.LocalLabels
import HackVm.Proofs.Program.LabelClashes
import HackVm.Proofs.Machine.AssemblyText
import HackVm.Proofs.Program.Output
import HackVm.Proofs.Program.AssemblyLines
import HackVm.Proofs.StackMachine.Agreement
import HackVm.Proofs.StackMachine.Machine
import HackVm.Proofs.Program.Simulation
import HackVm.Proofs.Program.Correctness
import HackVm.Proofs.Program.DataSymbols
import HackVm.Proofs.Program.Printing
import HackVm.Proofs.Program.Independence
import HackVm.Proofs.Program.Start
import HackVm.Proofs.Program.StraightLine
import HackVm.Proofs.Program.Comparison
import HackVm.Proofs.Program.FirstError
import HackVm.Proofs.Files.Inspection
import HackVm.Proofs.Files.Writing
import HackVm.Proofs.Files.AllOrNothing
import HackVm.Proofs.Token.Lines
import HackVm.Proofs.Command.Operands
import HackVm.Proofs.Command.Mistakes
import HackVm.Proofs.Token.Places
import HackVm.Proofs.Command.Attempts
import HackVm.Proofs.Command.Errors
import HackVm.Proofs.Command.Recovery
import HackVm.Proofs.Token.LineEnds
import HackVm.Proofs.Token.Tracking
import HackVm.Proofs.Command.Layout
import HackVm.Proofs.Program.Layout
import HackVm.Proofs.Program.Declarations
import HackVm.Proofs.Program.Comments
import HackVm.Proofs.Program.FunctionEntry
import HackVm.Proofs.Program.StaticVariables
import HackVm.Proofs.Files.Agreement
import HackVm.Proofs.Files.Units
import HackVm.Proofs.Files.Listing
import HackVm.Proofs.Files.Untouched
import HackVm.Proofs.Files.Repetition

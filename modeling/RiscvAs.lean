import RiscvAs.Stdio.Text
import RiscvAs.Stdio.Lines
import RiscvAs.Stdio.Scanf
import RiscvAs.Stdio.Literal
import RiscvAs.Loop
import RiscvAs.Bytes
import RiscvAs.Rv32.Isa
import RiscvAs.Instruction
import RiscvAs.Encode
import RiscvAs.Context
import RiscvAs.Pseudo
import RiscvAs.Data
import RiscvAs.DataBytes
import RiscvAs.Segment
import RiscvAs.Passes
import RiscvAs.SourceLines
import RiscvAs.Trimming
import RiscvAs.DataSegment
import RiscvAs.Writer
import RiscvAs.Rv32.Fields
import RiscvAs.Packing
import RiscvAs.Operands
import RiscvAs.TextSegment
import RiscvAs.Encoding
import RiscvAs.Canonical
import RiscvAs.Rv32.Execution
import RiscvAs.Constants
import RiscvAs.LoadImmediate
import RiscvAs.Reading
import RiscvAs.RegisterNames
import RiscvAs.Shifts
import RiscvAs.Pairs
import RiscvAs.Scanning
import RiscvAs.Emission
import RiscvAs.DataBounds
import RiscvAs.Agreement
import RiscvAs.EmittedBytes
import RiscvAs.LoadAddress
import RiscvAs.DataLines
import RiscvAs.ForwardReferences
import RiscvAs.Outcomes
import RiscvAs.SegmentState
import RiscvAs.PositionIndependence
import RiscvAs.CommentLines
import RiscvAs.Interleaving
import RiscvAs.LongWidth
import RiscvAs.LabelResolution
import RiscvAs.ElfReader
import RiscvAs.ElfLayout
import RiscvAs.ExplicitBase
import RiscvAs.CommentedText
import RiscvAs.CommentedData
import RiscvAs.CommentedLines
import RiscvAs.TrailingComments
import RiscvAs.AddedLabels
import RiscvAs.BoundedMap
import RiscvAs.SymbolTable
import RiscvAs.PackerInversion
import RiscvAs.SectionAlignment
import RiscvAs.WriterOutput
import RiscvAs.SignedOverflow
import RiscvAs.DataDirectives
import RiscvAs.MalformedData
import RiscvAs.ScannedOperands
import RiscvAs.LeftoverText
import RiscvAs.ExpansionWords
import RiscvAs.OperandBlanks
import RiscvAs.Rv32.Machine
import RiscvAs.Rv32.Words
import RiscvAs.Relocation
import RiscvAs.Readings
import RiscvAs.Linking
import RiscvAs.Statements
import RiscvAs.Programs
import RiscvAs.Simulation
import RiscvAs.StatementMeaning
import RiscvAs.ProgramMeaning
import RiscvAs.Layout
import RiscvAs.EmittedWords
import RiscvAs.Disassembly
import RiscvAs.Driver
import RiscvAs.Executable
import RiscvAs.Concatenation
import RiscvAs.WrittenImage
import RiscvAs.Reassembly
import RiscvAs.Diagnostics
import RiscvAs.ContextReuse
import RiscvAs.BaseOption
import RiscvAs.ProgramDiagnosis

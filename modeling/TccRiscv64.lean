import TccRiscv64.Ieee.Sticky
import TccRiscv64.Lib.Add
import TccRiscv64.Lib.Mul
import TccRiscv64.Lib.Div
import TccRiscv64.Link.PcRelative
import TccRiscv64.Gen.LongDoubleConst
import TccRiscv64.Gen.CallAgree
import TccRiscv64.Gen.Emit
import TccRiscv64.Gen.Registers
import TccRiscv64.Parse.Infix
import TccRiscv64.Pp.TokenRoundTrip
import TccRiscv64.Asm.Base
import TccRiscv64.Asm.BaseCorrect
import TccRiscv64.Asm.Compressed
import TccRiscv64.Asm.CompressedFormats
import TccRiscv64.Asm.CompressedCorrect
import TccRiscv64.Scope.Scopes
import TccRiscv64.Scope.Links
import TccRiscv64.Scope.Refines
import TccRiscv64.Scope.Runs
import TccRiscv64.Ieee.Convert
import TccRiscv64.Lib.Convert
import TccRiscv64.Lib.ConvertSpec
import TccRiscv64.Bitfield.Layout
import TccRiscv64.Bitfield.Values
import TccRiscv64.Bitfield.Access
import TccRiscv64.Bitfield.Correct
import TccRiscv64.Minimize.Ddmin
import TccRiscv64.Minimize.Main
import TccRiscv64.Alloc.TalInvariant
import TccRiscv64.Alloc.TalSafe
import TccRiscv64.Alloc.TalRuns
import TccRiscv64.Pp.Lexer
import TccRiscv64.Pp.Spacing
import TccRiscv64.Include.Guard
import TccRiscv64.Include.Reread
import TccRiscv64.Data.Chain
import TccRiscv64.Elf.SymTab
import TccRiscv64.Elf.HashTable
import TccRiscv64.Elf.Calls
import TccRiscv64.Elf.Resolve
import TccRiscv64.Elf.ResolveRuns
import TccRiscv64.Elf.EndFile
import TccRiscv64.Elf.EndFileRuns
import TccRiscv64.Data.Placement
import TccRiscv64.Run.Layout
import TccRiscv64.Run.Memory
import TccRiscv64.Run.Fits
import TccRiscv64.Elf.FileLayout
import TccRiscv64.Elf.FileOrder
import TccRiscv64.Elf.FileRuns
import TccRiscv64.Elf.FileMachine
import TccRiscv64.Elf.FileSegments
import TccRiscv64.Data.Reorder
import TccRiscv64.Elf.GnuHash
import TccRiscv64.Elf.GnuOrder
import TccRiscv64.Elf.GnuFill
import TccRiscv64.Elf.GnuLookup
import TccRiscv64.Elf.GnuRuns
import TccRiscv64.Gen.LoadConst
import TccRiscv64.Bcheck.Regions
import TccRiscv64.Bcheck.RegionRuns
import TccRiscv64.Bcheck.Heap
import TccRiscv64.Bcheck.Pointers
import TccRiscv64.Bcheck.HeapRuns
import TccRiscv64.Data.RangeSearch
import TccRiscv64.Gen.Compare
import TccRiscv64.Gen.Switch
import TccRiscv64.Gen.SwitchRuns
import TccRiscv64.Gen.Jumps
import TccRiscv64.Gen.Frame
import TccRiscv64.Asm.LoadImm
import TccRiscv64.Asm.Branch
import TccRiscv64.Link.Plt
import TccRiscv64.Gen.OpImm
import TccRiscv64.Lex.Escape
import TccRiscv64.Lex.Stringize
import TccRiscv64.Lex.Utf8
import TccRiscv64.Lex.Number
import TccRiscv64.Lex.IntConst
import TccRiscv64.Lex.FloatText
import TccRiscv64.Lex.Constants
import TccRiscv64.Ieee.Represents
import TccRiscv64.Lex.HexFloat
import TccRiscv64.Macro.DefineStack
import TccRiscv64.Types.Compare
import TccRiscv64.Gen.JumpChains
import TccRiscv64.Lex.Ident
import TccRiscv64.Asm.Pseudo
import TccRiscv64.Asm.PseudoCorrect
import TccRiscv64.Minimize.Trim
import TccRiscv64.Ieee.Order
import TccRiscv64.Lib.Compare
import TccRiscv64.Gen.LongDoubleCompare
import TccRiscv64.Ieee.ToInt
import TccRiscv64.Isa.Fields
import TccRiscv64.Link.DataRelocs
import TccRiscv64.Asm.LocalLabels
import TccRiscv64.Asm.ExprCorrect
import TccRiscv64.Lib.Integer
import TccRiscv64.Asm.Expr
import TccRiscv64.Decl.Declarator
import TccRiscv64.Decl.TypeDecl
import TccRiscv64.Decl.Cells
import TccRiscv64.Decl.Steps
import TccRiscv64.Decl.TypeDeclCorrect
import TccRiscv64.Link.Archive
import TccRiscv64.Link.ArchiveRuns
import TccRiscv64.Isa.BitTricks
import TccRiscv64.Lib.Builtin
import TccRiscv64.Asm.Layout
import TccRiscv64.Asm.LayoutCorrect
import TccRiscv64.Debug.Leb128
import TccRiscv64.Lib.F3Round
import TccRiscv64.Asm.Sections
import TccRiscv64.Bcheck.CleanUp
import TccRiscv64.Bcheck.LongJumpRuns
import TccRiscv64.Gen.CallAsserts
import TccRiscv64.Data.Simulation
import TccRiscv64.Lib.Atomic
import TccRiscv64.Lib.AtomicRuns
import TccRiscv64.Data.Backpatch
import TccRiscv64.Gen.SectionCode
import TccRiscv64.Gen.Flow
import TccRiscv64.Gen.Conditions
import TccRiscv64.Gen.FlowCorrect
import TccRiscv64.Gen.ConditionsSilent
import TccRiscv64.Gen.ConditionsCorrect
import TccRiscv64.Data.Stutter
import TccRiscv64.Gen.Statements
import TccRiscv64.Gen.StatementsCode
import TccRiscv64.Gen.StatementsRun
import TccRiscv64.Gen.StatementsParts
import TccRiscv64.Gen.StatementsBuilt
import TccRiscv64.Gen.StatementsCorrect

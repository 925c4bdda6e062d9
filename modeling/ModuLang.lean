import ModuLang.CommandLine
import ModuLang.Main
import ModuLang.Server
import ModuLang.Proofs.Grammar
import ModuLang.Proofs.ParserEquations
import ModuLang.Proofs.ParserSoundness
import ModuLang.Proofs.PhraseBounds
import ModuLang.Proofs.ParserCompleteness
import ModuLang.Proofs.ProgramGrammar
import ModuLang.Proofs.Reachability
import ModuLang.Proofs.PlainNodes
import ModuLang.Proofs.Confinement
import ModuLang.Proofs.NativeConfinement
import ModuLang.Proofs.EvaluationConfinement
import ModuLang.Proofs.CallIsolation
import ModuLang.Proofs.SequentialComposition
import ModuLang.Proofs.EvaluatedPoints
import ModuLang.Proofs.TableLookup
import ModuLang.Proofs.ParameterSeparation
import ModuLang.Proofs.Dialogue
import ModuLang.Proofs.HeapEffects
import ModuLang.Proofs.NameSeparation
import ModuLang.Proofs.EvaluationEffects
import ModuLang.Proofs.RunEffects
import ModuLang.Proofs.ValueWalks
import ModuLang.Proofs.Acyclicity
import ModuLang.Proofs.ArrayShape
import ModuLang.Proofs.TopLevelSeparation
import ModuLang.Proofs.LineShift
import ModuLang.Proofs.BracketDepth
import ModuLang.Proofs.ProgramCuts
import ModuLang.Proofs.ShellPrograms
import ModuLang.Proofs.FiniteRuns
import ModuLang.Proofs.FrameDiscipline
import ModuLang.Proofs.FrameSteps
import ModuLang.Proofs.StatementBindings
import ModuLang.Proofs.FileImports
import ModuLang.Proofs.Interrupts
import ModuLang.Proofs.HostLimits
import ModuLang.Proofs.RunEndings
import ModuLang.Proofs.ServedValues
import ModuLang.Proofs.ServerAnswers
import ModuLang.Proofs.Returns
import ModuLang.Proofs.DecimalText
import ModuLang.Proofs.JsonText
import ModuLang.Proofs.JsonValues
import ModuLang.Proofs.HeldConditions
import ModuLang.Proofs.NumberRange
import ModuLang.Proofs.BoundNames
import ModuLang.Proofs.VisitedMachines
import ModuLang.Proofs.ReservedNames
import ModuLang.Proofs.ServerConfinement
import ModuLang.Proofs.ReadingLines
import ModuLang.Proofs.ImportErrors
import ModuLang.Proofs.ErrorLines
import ModuLang.Proofs.ArrayLists
import ModuLang.Proofs.StatementCounts
import ModuLang.Proofs.ImportDirectories
import ModuLang.Proofs.Comments
import ModuLang.Proofs.ArrayAtomicity
import ModuLang.Proofs.Lexemes
import ModuLang.Proofs.LineDivision
import ModuLang.Proofs.IntegerChains
import ModuLang.Proofs.PrintedIntegers
import ModuLang.Proofs.IntegerMath
import ModuLang.Proofs.StringLiterals
import ModuLang.Proofs.ImportBases
import ModuLang.Proofs.FailedFileRuns
import ModuLang.Proofs.PassedReturns
import ModuLang.Proofs.IntegerConversion
import ModuLang.Proofs.Rendering
import ModuLang.Proofs.FaithfulCopies

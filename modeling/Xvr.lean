import Xvr.Lib.LinearProbe
import Xvr.Lib.Loop
import Xvr.Runtime.DictionaryRefines
import Xvr.Runtime.ScopeConsts
import Xvr.Runtime.LiteralLaws
import Xvr.Runtime.RefCounts
import Xvr.Runtime.ScopeTombstones
import Xvr.Backend.NameResolution
import Xvr.Backend.UnusedReports
import Xvr.Frontend.LexerRuns
import Xvr.Frontend.UnaryMinus
import Xvr.Frontend.Divisions
import Xvr.Frontend.UnusedCounts
import Xvr.Frontend.OptimizerMeaning
import Xvr.Backend.FoldAgrees
import Xvr.Backend.LexicalScopes
import Xvr.Backend.Casts
import Xvr.Format.FormatFaithful
import Xvr.Format.FormatBounds
import Xvr.Backend.Terminators
import Xvr.Backend.LoopTargets
import Xvr.Backend.TypedEmission
import Xvr.Backend.Structured
import Xvr.Backend.ShortCircuit
import Xvr.Backend.ArrayInitializers
import Xvr.Backend.IfExpressions
import Xvr.Backend.Assignments
import Xvr.Backend.Returns
import Xvr.Backend.MainFunction
import Xvr.Frontend.DeadBranches
import Xvr.Frontend.NumberValues
import Xvr.Frontend.StringLiterals
import Xvr.Frontend.StringConcat
import Xvr.Frontend.Negations
import Xvr.Frontend.HalfLiterals
import Xvr.Frontend.MethodChains
import Xvr.Runtime.LiteralArray
import Xvr.Backend.RuntimeArrays
import Xvr.Backend.ParameterSlots
import Xvr.Runtime.ScopeDeclare
import Xvr.Runtime.RefStrings
import Xvr.Format.Detection
import Xvr.Frontend.Keywords
import Xvr.Backend.Semantic
import Xvr.Backend.IRSignatures
import Xvr.Frontend.OptimizerPasses
import Xvr.Compiler.OutputNames
import Xvr.Backend.NameStages
import Xvr.Compiler.Driver
import Xvr.Runtime.TypeSubtypes
import Xvr.Runtime.PrintedTexts

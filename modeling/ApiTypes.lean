import ApiTypes.Main
import ApiTypes.Schedule
import ApiTypes.Proofs.Outcome
import ApiTypes.Proofs.Shape
import ApiTypes.Proofs.Names
import ApiTypes.Proofs.Scope
import ApiTypes.Proofs.Closed
import ApiTypes.Proofs.Made
import ApiTypes.Proofs.Meaning
import ApiTypes.Proofs.NameChars
import ApiTypes.Proofs.NullText
import ApiTypes.Proofs.Hoisting
import ApiTypes.Proofs.Sites
import ApiTypes.Proofs.Merging
import ApiTypes.Proofs.Origin
import ApiTypes.Proofs.CrossImports
import ApiTypes.Proofs.Paths
import ApiTypes.Proofs.Loading
import ApiTypes.Proofs.Failures
import ApiTypes.Proofs.Parts
import ApiTypes.Proofs.Ownership
import ApiTypes.Proofs.Folders
import ApiTypes.Proofs.ImportLines
import ApiTypes.Proofs.Spread
import ApiTypes.Proofs.Naming
import ApiTypes.Proofs.Shadowing
import ApiTypes.Proofs.Pointers
import ApiTypes.Proofs.ReferenceNames
import ApiTypes.Proofs.Faults
import ApiTypes.Proofs.Tolerance
import ApiTypes.Proofs.Reports
import ApiTypes.Proofs.Agreement
import ApiTypes.Proofs.Reordering
import ApiTypes.Proofs.RowOrder
import ApiTypes.Proofs.Alike
import ApiTypes.Proofs.ReorderedSchemas
import ApiTypes.Proofs.ReorderedReferences
import ApiTypes.Proofs.ReorderedContent
import ApiTypes.Proofs.MemberOrder
import ApiTypes.Proofs.MadeNames
import ApiTypes.Proofs.OperationNames
import ApiTypes.Proofs.Writing
import ApiTypes.Proofs.WrittenFiles
import ApiTypes.Proofs.Carrying
import ApiTypes.Proofs.Chains
import ApiTypes.Proofs.EntryPoint
import ApiTypes.Proofs.MovedBundles
import ApiTypes.Proofs.Rebasing
import ApiTypes.Proofs.Relocation
import ApiTypes.Proofs.TypeTexts
import ApiTypes.Proofs.Precedence
import ApiTypes.Proofs.ObjectLiterals
import ApiTypes.Proofs.NullKept
import ApiTypes.Proofs.DeclaredIdentifiers
import ApiTypes.Proofs.ChainEnds
import ApiTypes.Proofs.Closure
import ApiTypes.Proofs.CacheSessions
import ApiTypes.Proofs.LoopEnds
import ApiTypes.Proofs.NamedCompositions
import ApiTypes.Proofs.MergedEnums
import ApiTypes.Proofs.ListedValues
import ApiTypes.Proofs.AtOnce
import ApiTypes.Proofs.MergedParameters
import ApiTypes.Proofs.Ways
import ApiTypes.Proofs.WrittenPointers
import ApiTypes.Proofs.Keeping
import ApiTypes.Proofs.SameEnds
import ApiTypes.Proofs.Revisions
import ApiTypes.Proofs.RevisedOperations
import ApiTypes.Proofs.ParameterMoves
import ApiTypes.Proofs.MovedParameters
import ApiTypes.Proofs.DocComments
import ApiTypes.Proofs.ImportPaths
import ApiTypes.Proofs.RecasedNames
import ApiTypes.Proofs.SourceLiterals
import ApiTypes.Proofs.OperationLiterals
import ApiTypes.Proofs.FileHeaders
import ApiTypes.Proofs.SiblingNames

import MemberSplit.FileTree.Contents
import MemberSplit.FileTree.Replacement
import MemberSplit.Main
import MemberSplit.Text.Brackets
import MemberSplit.Proofs.Text.Line
import MemberSplit.Proofs.Text.Brackets
import MemberSplit.Proofs.Text.Skeleton
import MemberSplit.Proofs.Signature.Character
import MemberSplit.Proofs.Definition.ParameterType
import MemberSplit.Proofs.Brace.Block
import MemberSplit.Proofs.Signature.Mention
import MemberSplit.Proofs.Signature.Place
import MemberSplit.Proofs.Signature.Parts
import MemberSplit.Proofs.Signature.Silence
import MemberSplit.Proofs.Signature.Grammar
import MemberSplit.Proofs.Signature.Initializers
import MemberSplit.Proofs.Signature.Written
import MemberSplit.Proofs.Signature.Surroundings
import MemberSplit.Proofs.Extraction.Spans
import MemberSplit.Proofs.Extraction.Invariant
import MemberSplit.Proofs.Extraction.Completeness
import MemberSplit.Proofs.Destination.Partition
import MemberSplit.Proofs.Destination.Position
import MemberSplit.Proofs.Run.Steps
import MemberSplit.Proofs.Aggregator.Loss
import MemberSplit.Proofs.FileTree.Place
import MemberSplit.Proofs.FileTree.Writing
import MemberSplit.Proofs.FileTree.Outcome
import MemberSplit.Proofs.Text.Utf8
import MemberSplit.Proofs.Run.Writings
import MemberSplit.Proofs.Run.Conservation
import MemberSplit.Proofs.Run.InputKept
import MemberSplit.Proofs.Run.Stored
import MemberSplit.Proofs.Run.Again
import MemberSplit.Proofs.Definition.Overload
import MemberSplit.Proofs.Destination.Overload
import MemberSplit.Proofs.Run.Frame
import MemberSplit.Proofs.Run.Failures
import MemberSplit.Proofs.Run.DryRun
import MemberSplit.Proofs.Path.Pieces
import MemberSplit.Proofs.FileTree.Join
import MemberSplit.Proofs.FileTree.Parent
import MemberSplit.Proofs.FileTree.Appending
import MemberSplit.Proofs.Run.Repeat
import MemberSplit.Proofs.Signature.Settled
import MemberSplit.Proofs.Signature.Carried
import MemberSplit.Proofs.Signature.Front
import MemberSplit.Proofs.Extraction.Lead
import MemberSplit.Proofs.Run.Resplit
import MemberSplit.Proofs.Brace.Passage
import MemberSplit.Proofs.Lexical.Token
import MemberSplit.Proofs.Run.Tally
import MemberSplit.Proofs.Run.Consistency
import MemberSplit.Proofs.Aggregator.Lines
import MemberSplit.Proofs.Destination.Location
import MemberSplit.Proofs.Run.References
import MemberSplit.Proofs.Definition.NameCut
import MemberSplit.Proofs.Definition.Parameter
import MemberSplit.Proofs.Definition.Collision
import MemberSplit.Proofs.Signature.Constness
import MemberSplit.Proofs.Extraction.Comment
import MemberSplit.Proofs.Definition.Renaming
import MemberSplit.Proofs.Definition.TypeTokens
import MemberSplit.Proofs.Definition.BaseType
import MemberSplit.Proofs.Definition.DecoratedType
import MemberSplit.Proofs.Config.Check
import MemberSplit.Proofs.Text.Filling
import MemberSplit.Proofs.Text.FileComponent
import MemberSplit.Proofs.Path.Filling
import MemberSplit.Proofs.Destination.Resolving
import MemberSplit.Proofs.Destination.Sharing
import MemberSplit.Proofs.Extraction.CommentBlock
import MemberSplit.Proofs.Run.Resolving
import MemberSplit.Proofs.Run.Sharing
import MemberSplit.Proofs.Lexical.Nesting
import MemberSplit.Proofs.Lexical.Uncomment
import MemberSplit.Proofs.Header.TypeBody
import MemberSplit.Proofs.Header.Callable
import MemberSplit.Proofs.Header.Declaration
import MemberSplit.Proofs.Header.Statement
import MemberSplit.Proofs.Header.Member
import MemberSplit.Proofs.Run.Comments
import MemberSplit.Proofs.Brace.Closing
import MemberSplit.Proofs.Signature.Shape
import MemberSplit.Proofs.Extraction.Unrecognized
import MemberSplit.Proofs.Header.Agreement
import MemberSplit.Proofs.Brace.Joining
import MemberSplit.Proofs.Destination.Balance
import MemberSplit.Proofs.FileTree.AllOrNothing
import MemberSplit.Proofs.Lexical.Numeral
import MemberSplit.Proofs.Signature.BraceGroup
import MemberSplit.Proofs.Signature.ConstructorHead
import MemberSplit.Proofs.Lexical.CodeStart
import MemberSplit.Proofs.Destination.Steering
import MemberSplit.Proofs.Run.HelperNames
import MemberSplit.Proofs.Json.Lexeme
import MemberSplit.Proofs.Json.Reading
import MemberSplit.Proofs.Report.Reading
import MemberSplit.Proofs.Report.Faithful
import MemberSplit.Proofs.Text.LineLookup
import MemberSplit.Proofs.Text.Boundary
import MemberSplit.Proofs.Text.Splitting
import MemberSplit.Proofs.Checked.Slice
import MemberSplit.Proofs.Checked.Skip
import MemberSplit.Proofs.Checked.Braces
import MemberSplit.Proofs.Checked.FirstCode
import MemberSplit.Proofs.Checked.Extraction

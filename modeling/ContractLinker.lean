import ContractLinker.Main
import ContractLinker.Proofs.Graph.Order
import ContractLinker.Proofs.Graph.Queue
import ContractLinker.Proofs.Outcome
import ContractLinker.Session
import ContractLinker.Proofs.Linking
import ContractLinker.Proofs.Contract.Order
import ContractLinker.Proofs.Preparation
import ContractLinker.Proofs.Session
import ContractLinker.Proofs.Session.Cycle
import ContractLinker.Proofs.Address
import ContractLinker.Proofs.Token.Lexeme
import ContractLinker.Proofs.Token.Sequence
import ContractLinker.Proofs.Substitution
import ContractLinker.Proofs.Substitution.Row
import ContractLinker.Proofs.Substitution.Rewriting
import ContractLinker.Proofs.Import.Reader
import ContractLinker.Proofs.Substitution.Lone
import ContractLinker.Proofs.Substitution.Program
import ContractLinker.Proofs.Import.Grammar
import ContractLinker.Proofs.Token.Comment
import ContractLinker.Proofs.Token.Partition
import ContractLinker.Proofs.Session.Registration
import ContractLinker.Proofs.Preparation.Report
import ContractLinker.Proofs.Path
import ContractLinker.Proofs.Script
import ContractLinker.Proofs.Session.Script
import ContractLinker.Proofs.Path.Canonical
import ContractLinker.Proofs.Graph.Renaming
import ContractLinker.Proofs.Contract.Renumbering
import ContractLinker.Proofs.Preparation.Renumbering
import ContractLinker.Proofs.Session.Arrangement
import ContractLinker.Proofs.Command.Run
import ContractLinker.Proofs.Substitution.Residue
import ContractLinker.Proofs.Contract.Missing
import ContractLinker.Proofs.Path.Named
import ContractLinker.Proofs.FileTree
import ContractLinker.Proofs.Command.Output
import ContractLinker.Proofs.Noninterference
import ContractLinker.Proofs.Contract.Reordering
import ContractLinker.Proofs.Token.Composition
import ContractLinker.Proofs.Token.EndMarker
import ContractLinker.Proofs.Import.Cursor
import ContractLinker.Proofs.Token.Order
import ContractLinker.Proofs.Token.Layout
import ContractLinker.Proofs.Import.Run
import ContractLinker.Proofs.Import.Prefix
import ContractLinker.Proofs.Import.Span
import ContractLinker.Proofs.Import.Joined
import ContractLinker.Proofs.Token.Refusal
import ContractLinker.Proofs.Import.Written
import ContractLinker.Proofs.Diagnostic.Snippet
import ContractLinker.Proofs.Text.Trim
import ContractLinker.Proofs.Path.Importer
import ContractLinker.Proofs.Script.Tables
import ContractLinker.Proofs.Command.Resolve
import ContractLinker.Proofs.Command.Aliases
import ContractLinker.Proofs.Token.BlockComment
import ContractLinker.Proofs.Token.Literal
import ContractLinker.Proofs.Graph.Construction
import ContractLinker.Proofs.Graph.Counters

import ScriptBundler.BuildError
import ScriptBundler.Bundle
import ScriptBundler.Diagnostic
import ScriptBundler.Digest.Sha256
import ScriptBundler.Graph
import ScriptBundler.Layout
import ScriptBundler.Library
import ScriptBundler.Module
import ScriptBundler.Name.LiteralPool
import ScriptBundler.Name.Reserved
import ScriptBundler.Name.Supply
import ScriptBundler.Naming
import ScriptBundler.Number.Binary64
import ScriptBundler.Number.Numeral
import ScriptBundler.Path
import ScriptBundler.Program
import ScriptBundler.Reader.Basic
import ScriptBundler.Reader.Grammar
import ScriptBundler.Script
import ScriptBundler.Settings
import ScriptBundler.Text.Position
import ScriptBundler.Text.Quoted
import ScriptBundler.Text.Source
import ScriptBundler.Token
import ScriptBundler.Token.Lexeme
import ScriptBundler.Token.Scan
import ScriptBundler.Tree
import ScriptBundler.Tree.OneLine
import ScriptBundler.Write
import ScriptBundler.Write.Basic
import ScriptBundler.Write.Minified
import ScriptBundler.Write.Reformatted
import ScriptBundler.Write.Verbatim
import ScriptBundler.Proofs.Minified
import ScriptBundler.Proofs.Reformatted
import ScriptBundler.Proofs.Verbatim
import ScriptBundler.Proofs.Capture
import ScriptBundler.Proofs.Constants
import ScriptBundler.Proofs.Hoisting
import ScriptBundler.Proofs.Validity
import ScriptBundler.Proofs.Interleaving
import ScriptBundler.Proofs.Lifetime
import ScriptBundler.Proofs.Exploration
import ScriptBundler.Proofs.Linking
import ScriptBundler.Proofs.Runtime
import ScriptBundler.Proofs.Postings
import ScriptBundler.Proofs.Ledger
import ScriptBundler.Proofs.Splicing
import ScriptBundler.Proofs.Inclusion
import ScriptBundler.Proofs.Embedding
import ScriptBundler.Proofs.Boundaries
import ScriptBundler.Proofs.Outputs
import ScriptBundler.Proofs.Scopes
import ScriptBundler.Proofs.Shifts
import ScriptBundler.Proofs.Tiling
import ScriptBundler.Proofs.Allocation
import ScriptBundler.Proofs.Quoting
import ScriptBundler.Proofs.Progress
import ScriptBundler.Proofs.LineBreaks
import ScriptBundler.Proofs.Unwritable
import ScriptBundler.Proofs.Attachment
import ScriptBundler.Proofs.Guarding
import ScriptBundler.Proofs.Resolution
import ScriptBundler.Proofs.Interning
import ScriptBundler.Proofs.Positions
import ScriptBundler.Proofs.Flaws
import ScriptBundler.Proofs.Elements
import ScriptBundler.Proofs.Grouping
import ScriptBundler.Proofs.Nesting
import ScriptBundler.Proofs.Unbroken
import ScriptBundler.Proofs.Balance

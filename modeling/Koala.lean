import Koala.Object.Values
import Koala.Eval.Slots
import Koala.Parser.Scopes
import Koala.Parser.Accepted
import Koala.Parser.Returns
import Koala.Parser.Arguments
import Koala.HashTable.Map
import Koala.Tiling
import Koala.Image.Preserved
import Koala.Image.Reproducible
import Koala.Image.Supplied
import Koala.Image.Pooled
import Koala.Package.Attribution
import Koala.StringBuf.Total
import Koala.TypeDesc.Text
import Koala.PkgNode.Tree
import Koala.Syntax.RoundTrip
import Koala.DescTable.History
import Koala.DescTable.Trees
import Koala.DescTable.Consed
import Koala.Properties
import Koala.Task.Fair
import Koala.Task.Interleaved
import Koala.Codegen.Model
import Koala.Codegen.Decoded
import Koala.Package.Constants
import Koala.Image.Partial
import Koala.Parser.OneValue
import Koala.Parser.SavedConst
import Koala.Parser.Diagnosed
import Koala.CodeBlock.Merge
import Koala.Codegen.Widths
import Koala.Eval.Inside
import Koala.Eval.Overflow
import Koala.Eval.Calling
import Koala.Parser.Registered
import Koala.Ast.Paired
import Koala.Ast.Balanced
import Koala.Lexer.Integers
import Koala.Lexer.Strings
import Koala.StringEx
import Koala.Lexer.Input
import Koala.TypeDesc.ParseSafe
import Koala.TypeDesc.Inverse
import Koala.Lexer.Inserted
import Koala.Import.Unambiguous
import Koala.Post
import Koala.Koalac.Once
import Koala.Lifetime.Scopes
import Koala.Lifetime.Sound
import Koala.Lifetime.Grown
import Koala.Lifetime.Closed
import Koala.Lifetime.Released
import Koala.Lifetime.Package
import Koala.Lifetime.Balance
import Koala.Lifetime.Steps
import Koala.Lifetime.Runs
import Koala.HashTable.Named
import Koala.State.Loading
import Koala.State.Packages
import Koala.Object.Members
import Koala.Object.Methods
import Koala.AtomTable.Exact
import Koala.Object.Rendered
import Koala.AtomString
import Koala.Object.Strings
import Koala.State.Main
import Koala.Holders
import Koala.Object.Slots
import Koala.Object.Stored
import Koala.Image.Layout
import Koala.Image.Malformed
import Koala.Task.Conserved
import Koala.Cache
import Koala.HashTable.Growth
import Koala.Image.Compatible
import Koala.Vector
import Koala.Options
import Koala.Symbol.Imported
import Koala.Parser.LocalCode

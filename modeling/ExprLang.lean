import ExprLang.Diagnostic.Report
import ExprLang.Parser.Levels
import ExprLang.Parser.Session
import ExprLang.Tree.Equality
import ExprLang.Tree.Outline
import ExprLang.Tree.Render
import ExprLang.Proofs.Grammar.Written
import ExprLang.Proofs.Parser.Reading
import ExprLang.Proofs.Parser.Success
import ExprLang.Proofs.Parser.Loops
import ExprLang.Proofs.Parser.Soundness
import ExprLang.Proofs.Parser.Completeness
import ExprLang.Proofs.Grammar.Replaced
import ExprLang.Proofs.Text.Encoding
import ExprLang.Proofs.Token.Munch
import ExprLang.Proofs.Token.Spelled
import ExprLang.Proofs.Parser.Consistency
import ExprLang.Proofs.Tree.Plain
import ExprLang.Proofs.Parser.RoundTrip
import ExprLang.Proofs.Token.Lossless
import ExprLang.Proofs.Parser.Stream
import ExprLang.Proofs.Parser.Commands
import ExprLang.Proofs.Parser.Likeness
import ExprLang.Proofs.Parser.InStep
import ExprLang.Proofs.Parser.Rounds
import ExprLang.Proofs.Tree.Each
import ExprLang.Proofs.Parser.Recovery
import ExprLang.Proofs.Token.Joined
import ExprLang.Proofs.Parser.Resumption
import ExprLang.Proofs.Tree.Inner
import ExprLang.Proofs.Tree.Agrees
import ExprLang.Proofs.Parser.Calls
import ExprLang.Proofs.Parser.Walk
import ExprLang.Proofs.Parser.Walked
import ExprLang.Proofs.Parser.Course
import ExprLang.Proofs.Parser.Blame
import ExprLang.Proofs.Parser.Order
import ExprLang.Proofs.Parser.Illegal
import ExprLang.Proofs.Parser.Braces
import ExprLang.Proofs.Parser.Ending
import ExprLang.Proofs.Parser.Building
import ExprLang.Proofs.Parser.Faithful
import ExprLang.Proofs.Parser.Nested
import ExprLang.Proofs.Grammar.Parts
import ExprLang.Proofs.Token.Excerpt
import ExprLang.Proofs.Parser.Excerpt
import ExprLang.Proofs.Parser.Layout
import ExprLang.Proofs.Parser.Afresh
import ExprLang.Proofs.Parser.Trace
import ExprLang.Proofs.Parser.Wrapped
import ExprLang.Proofs.Token.Apart
import ExprLang.Proofs.Tree.Height
import ExprLang.Proofs.Parser.Depth
import ExprLang.Proofs.Parser.Chain
import ExprLang.Proofs.Parser.Termination
import ExprLang.Proofs.Source.Line
import ExprLang.Proofs.Grammar.Precedence
import ExprLang.Proofs.Parser.Precedence
import ExprLang.Proofs.Parser.Restart
import ExprLang.Proofs.Parser.DeepNesting
import ExprLang.Proofs.Text.OneLine
import ExprLang.Proofs.Source.LineCut
import ExprLang.Proofs.Diagnostic.Report
import ExprLang.Proofs.Parser.Extension

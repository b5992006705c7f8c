import Stylesheet.Constant.Call
import Stylesheet.Constant.Load
import Stylesheet.Document.Json
import Stylesheet.Document.Yaml
import Stylesheet.Formula.Descent
import Stylesheet.Formula.Outline
import Stylesheet.Resolution.Resolver
import Stylesheet.Transition.Parse
import Stylesheet.Proofs.Constant.Composite
import Stylesheet.Proofs.Constant.Load
import Stylesheet.Proofs.Constant.Numbers
import Stylesheet.Proofs.Constant.Reread
import Stylesheet.Proofs.Decimal.Distinct
import Stylesheet.Proofs.Decimal.Fixed
import Stylesheet.Proofs.Decimal.Plain
import Stylesheet.Proofs.Double.Closest
import Stylesheet.Proofs.Formula.Descent
import Stylesheet.Proofs.Formula.DigitLimit
import Stylesheet.Proofs.Formula.Digits
import Stylesheet.Proofs.Formula.Exceeding
import Stylesheet.Proofs.Formula.Fusion
import Stylesheet.Proofs.Formula.Grammar
import Stylesheet.Proofs.Formula.Height
import Stylesheet.Proofs.Formula.Names
import Stylesheet.Proofs.Formula.Nesting
import Stylesheet.Proofs.Formula.Outline
import Stylesheet.Proofs.Formula.Parse
import Stylesheet.Proofs.Formula.Positions
import Stylesheet.Proofs.Formula.Recursion
import Stylesheet.Proofs.Formula.Scanning
import Stylesheet.Proofs.Formula.Segments
import Stylesheet.Proofs.Formula.Shape
import Stylesheet.Proofs.Formula.Splicing
import Stylesheet.Proofs.Formula.Tiling
import Stylesheet.Proofs.Formula.Viable
import Stylesheet.Proofs.Resolution.Acyclic
import Stylesheet.Proofs.Resolution.AliasChains
import Stylesheet.Proofs.Resolution.Declared
import Stylesheet.Proofs.Resolution.Dependency
import Stylesheet.Proofs.Resolution.Equations
import Stylesheet.Proofs.Resolution.ListNames
import Stylesheet.Proofs.Resolution.Locality
import Stylesheet.Proofs.Resolution.Numeric
import Stylesheet.Proofs.Resolution.Order
import Stylesheet.Proofs.Resolution.Passes
import Stylesheet.Proofs.Resolution.Resolver
import Stylesheet.Proofs.Resolution.Shadow
import Stylesheet.Proofs.Resolution.ShortCircuit
import Stylesheet.Proofs.Resolution.Snapshot
import Stylesheet.Proofs.Resolution.StoredLists
import Stylesheet.Proofs.Resolution.Waiting
import Stylesheet.Proofs.Text.Canonical
import Stylesheet.Proofs.Text.Words
import Stylesheet.Proofs.Transition.Grammar
import Stylesheet.Proofs.Transition.RoundTrip
import Stylesheet.Proofs.Transition.Seconds
import Stylesheet.Proofs.Transition.Stream
import Stylesheet.Proofs.Transition.Totality

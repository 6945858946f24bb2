import GrammarLinker.Arena.Render
import GrammarLinker.Arena.Walk
import GrammarLinker.Config.Toml
import GrammarLinker.Copy
import GrammarLinker.LinkedSet
import GrammarLinker.Proofs.Arena.Entering
import GrammarLinker.Proofs.Copy.Foreign
import GrammarLinker.Proofs.Copy.Verdict
import GrammarLinker.Proofs.Grammar.ReadBack
import GrammarLinker.Proofs.Grammar.Refusal
import GrammarLinker.Proofs.Grammar.Registration
import GrammarLinker.Proofs.Grammar.Scoping
import GrammarLinker.Proofs.InterGrammar.Bound
import GrammarLinker.Proofs.LinkedSet.Accounting
import GrammarLinker.Proofs.LinkedSet.Closure
import GrammarLinker.Proofs.LinkedSet.Counting
import GrammarLinker.Proofs.LinkedSet.Reordering
import GrammarLinker.Proofs.Record.Edits
import GrammarLinker.Proofs.Record.RoundTrip
import GrammarLinker.Proofs.Resolution.Growth
import GrammarLinker.Proofs.Session.Containment
import GrammarLinker.Proofs.Session.Copies
import GrammarLinker.Proofs.Session.Independence
import GrammarLinker.Proofs.Session.Inlining
import GrammarLinker.Proofs.Session.Repetition
import GrammarLinker.Proofs.Session.Safety
import GrammarLinker.Proofs.Shorthand.Link
import GrammarLinker.Proofs.Staging
import GrammarLinker.Record.Json

import PairMarkup.Main
import PairMarkup.Proofs.Ownership
import PairMarkup.Proofs.Resolution.Order
import PairMarkup.Proofs.LineEndings.Independence
import PairMarkup.Proofs.NamedScopes
import PairMarkup.Proofs.Outline.Agreement
import PairMarkup.Proofs.CodeUnits
import PairMarkup.Proofs.Choices.Branches
import PairMarkup.Proofs.NamespaceOrder
import PairMarkup.Proofs.Resolution.Prefixes
import PairMarkup.Proofs.Expansion.Roots
import PairMarkup.Proofs.Export
import PairMarkup.Proofs.Bounds
import PairMarkup.Proofs.Stacks
import PairMarkup.Proofs.FreeText
import PairMarkup.Proofs.Tracking
import PairMarkup.Proofs.Choices.Store
import PairMarkup.Proofs.Rejection

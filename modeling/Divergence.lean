import Divergence.Implementation.Document
import Divergence.Main
import Divergence.Proofs.Cover
import Divergence.Proofs.Denotation
import Divergence.Proofs.DomainText
import Divergence.Proofs.Faithful
import Divergence.Proofs.Interleaving
import Divergence.Proofs.Names
import Divergence.Proofs.Repetition
import Divergence.Proofs.SpecLimit
import Divergence.Proofs.Trials
import Divergence.Trial.Schedule
import Divergence.Proofs.TypeTokens
import Divergence.Proofs.Independence
import Divergence.Proofs.Conditions
import Divergence.Proofs.SpecConditions
import Divergence.Proofs.Choices
import Divergence.Proofs.Samples
import Divergence.Proofs.Greedy
import Divergence.Proofs.Hashing
import Divergence.Proofs.Positions
import Divergence.Proofs.ArgumentTexts
import Divergence.Proofs.Restriction
import Divergence.Proofs.Redundancy
import Divergence.Proofs.Approximation
import Divergence.Proofs.Rounds
import Divergence.Proofs.Ingredients
import Divergence.Proofs.Typing
import Divergence.Proofs.Keys
import Divergence.Proofs.Indifference
import Divergence.Proofs.LastReport
import Divergence.Proofs.Documents
import Divergence.Proofs.Intermediates
import Divergence.Proofs.Nesting
import Divergence.Proofs.LastEntries
import Divergence.Proofs.RowNumbers
import Divergence.Proofs.Successors
import Divergence.Proofs.Saturation
import Divergence.Proofs.ErrorTail
import Divergence.Proofs.IntegerDomains
import Divergence.Proofs.Scans

import PhraseStructure.Main
import PhraseStructure.Session
import PhraseStructure.Proofs.Exploration
import PhraseStructure.Proofs.FormSearch
import PhraseStructure.Proofs.LinearWalk
import PhraseStructure.Proofs.ChartItems
import PhraseStructure.Proofs.Sweep
import PhraseStructure.Proofs.Chart
import PhraseStructure.Proofs.ValidItems
import PhraseStructure.Proofs.ProcessedItems
import PhraseStructure.Proofs.Soundness
import PhraseStructure.Proofs.Layers
import PhraseStructure.Proofs.Enumeration
import PhraseStructure.Proofs.Agreement
import PhraseStructure.Proofs.LinearEnumeration
import PhraseStructure.Proofs.JsonRoundTrip
import PhraseStructure.Proofs.Persistence
import PhraseStructure.Proofs.Construction
import PhraseStructure.Proofs.Review
import PhraseStructure.Proofs.Ceilings
import PhraseStructure.Proofs.Strategies
import PhraseStructure.Proofs.RuleText
import PhraseStructure.Proofs.Reconstruction
import PhraseStructure.Proofs.RenamedSearches
import PhraseStructure.Proofs.StoredTrees
import PhraseStructure.Proofs.Traps
import PhraseStructure.Proofs.ShortestTraces
import PhraseStructure.Proofs.Pruning
import PhraseStructure.Proofs.Rebuilding
import PhraseStructure.Proofs.Listing
import PhraseStructure.Proofs.LeftmostEnumeration
import PhraseStructure.Proofs.NearestWords
import PhraseStructure.Proofs.Levels
import PhraseStructure.Proofs.Composed
import PhraseStructure.Proofs.SameRules
import PhraseStructure.Proofs.Mirror
import PhraseStructure.Proofs.Mistakes
import PhraseStructure.Proofs.ProductionGraph

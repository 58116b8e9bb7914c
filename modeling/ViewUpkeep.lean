import ViewUpkeep.Main
import ViewUpkeep.Proofs.Fresh
import ViewUpkeep.Proofs.Undemanded
import ViewUpkeep.Proofs.Smoothness
import ViewUpkeep.Proofs.Increments
import ViewUpkeep.Proofs.Literals
import ViewUpkeep.Proofs.Grouping
import ViewUpkeep.Proofs.Tally
import ViewUpkeep.Proofs.Enumeration
import ViewUpkeep.Proofs.Overlaps
import ViewUpkeep.Proofs.Overruns
import ViewUpkeep.Proofs.Pruning
import ViewUpkeep.Proofs.Layout
import ViewUpkeep.Proofs.Leniency
import ViewUpkeep.Proofs.Distinctness
import ViewUpkeep.Proofs.Frontier
import ViewUpkeep.Proofs.LineInput
import ViewUpkeep.Proofs.Indexing

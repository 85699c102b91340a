import Recast.Main
import Recast.Proofs.ZeroDates
import Recast.Proofs.Interleaving
import Recast.Proofs.Blobs
import Recast.Proofs.Transparency
import Recast.Proofs.Repeats
import Recast.Proofs.SingleRows
import Recast.Proofs.MovedRows
import Recast.Proofs.DateSums
import Recast.Proofs.CheckedConversion
import Recast.Proofs.SettledPasses
import Recast.Proofs.NamedDay
import Recast.Proofs.OrderAliases
import Recast.Proofs.WholeNumbers
import Recast.Proofs.LimitWindows
import Recast.Proofs.LimitedBlocks
import Recast.Proofs.Bytes
import Recast.Proofs.PatternMeaning

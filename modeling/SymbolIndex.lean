import SymbolIndex.Database.Contents
import SymbolIndex.Main
import SymbolIndex.Proofs.Attachment
import SymbolIndex.Proofs.CompletionRaces
import SymbolIndex.Proofs.Deadlock
import SymbolIndex.Proofs.Deduplication
import SymbolIndex.Proofs.HeaderKeys
import SymbolIndex.Proofs.Idempotence
import SymbolIndex.Proofs.Invalidation
import SymbolIndex.Proofs.LostEdits
import SymbolIndex.Proofs.Reach
import SymbolIndex.Proofs.Rebuild
import SymbolIndex.Proofs.Relocation
import SymbolIndex.Proofs.Remote
import SymbolIndex.Proofs.Sessions
import SymbolIndex.Proofs.TableRuns
import SymbolIndex.Proofs.Waits
import SymbolIndex.Proofs.WellFormed

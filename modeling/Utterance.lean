import Utterance.Main
import Utterance.Proofs.Accounts
import Utterance.Proofs.Affixes
import Utterance.Proofs.Completeness
import Utterance.Proofs.Comprehensions
import Utterance.Proofs.CountedLoops
import Utterance.Proofs.DatumReading
import Utterance.Proofs.DictionaryViews
import Utterance.Proofs.Excerpts
import Utterance.Proofs.FrontEnd
import Utterance.Proofs.ListFunctions
import Utterance.Proofs.ListPlaces
import Utterance.Proofs.LoopControl
import Utterance.Proofs.Phrases
import Utterance.Proofs.Powers
import Utterance.Proofs.Records
import Utterance.Proofs.Refusals
import Utterance.Proofs.SetPrinting
import Utterance.Proofs.ScopeChains
import Utterance.Proofs.ShellBlocks
import Utterance.Proofs.SwitchChain
import Utterance.Workload

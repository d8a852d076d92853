import Ngram.Number.Reciprocal
import Ngram.Model.Builder
import Ngram.Model.Image
import Ngram.Corpus.Scorer
import Ngram.Json.Workload
import Ngram.Main
import Ngram.Proofs.Hash.Scan
import Ngram.Proofs.Hash.Filling
import Ngram.Proofs.Model.Collection
import Ngram.Proofs.Model.Listed
import Ngram.Proofs.Schedule.Interleaving
import Ngram.Proofs.Corpus.Threads
import Ngram.Proofs.Score.Backoff
import Ngram.Proofs.Score.Retrieval
import Ngram.Proofs.Score.Agreement
import Ngram.Proofs.Stored.Image
import Ngram.Proofs.Corpus.Delivery
import Ngram.Proofs.Corpus.Streaming
import Ngram.Proofs.Score.SuffixWalk
import Ngram.Proofs.Schedule.Renewal
import Ngram.Proofs.Model.Flags
import Ngram.Proofs.Model.Acceptance
import Ngram.Proofs.Hash.Checked
import Ngram.Proofs.Stored.Refusal
import Ngram.Proofs.Score.Safety
import Ngram.Proofs.Hash.Growth
import Ngram.Proofs.Corpus.Balance
import Ngram.Proofs.Corpus.Calls
import Ngram.Proofs.Corpus.Codec
import Ngram.Proofs.Schedule.Feeding
import Ngram.Proofs.Schedule.Steps
import Ngram.Proofs.Score.Leftovers
import Ngram.Proofs.Model.Keys
import Ngram.Proofs.Workload.Trial
import Ngram.Proofs.Schedule.Accounts
import Ngram.Proofs.Workload.Synthesis
import Ngram.Proofs.Hash.FirstMatch

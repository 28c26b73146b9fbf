import Abecedary.Backend
import Abecedary.Main
import Abecedary.Proofs.Decoding
import Abecedary.Proofs.Fragments
import Abecedary.Proofs.Layout
import Abecedary.Proofs.LexemeClasses
import Abecedary.Proofs.MaximalMunch
import Abecedary.Proofs.RoundTrip
import Abecedary.Proofs.Runs
import Abecedary.Proofs.Simulation
import Abecedary.Proofs.StackDiscipline
import Abecedary.Proofs.StackHeight
import Abecedary.Report
import Abecedary.Proofs.Rendering
import Abecedary.Proofs.Streaming
import Abecedary.Proofs.CommandLine
import Abecedary.Proofs.WrapAround
import Abecedary.Proofs.BigStep
import Abecedary.Proofs.LinearSweep
import Abecedary.Proofs.Backpatching
import Abecedary.Proofs.Preorder
import Abecedary.Proofs.Quotation
import Abecedary.Proofs.Legibility
import Abecedary.Proofs.NumberOnly
import Abecedary.Proofs.Regrouping
import Abecedary.Proofs.Resumption
import Abecedary.Proofs.LetterCase
import Abecedary.Proofs.StoreReport
import Abecedary.Proofs.WellFormed
import Abecedary.Proofs.Calls
import Abecedary.Proofs.Chains
import Abecedary.Proofs.Relocation

import LineCensus.FileTree.Listing
import LineCensus.Settings.Session
import LineCensus.Program
import LineCensus.Main
import LineCensus.Proofs.Tally.Delivery
import LineCensus.Proofs.Walk.Pruning
import LineCensus.Proofs.Scan.Entries
import LineCensus.Proofs.Scan.Unseen
import LineCensus.Proofs.Program.Outcome
import LineCensus.Proofs.Tally.Concat
import LineCensus.Proofs.Settings
import LineCensus.Proofs.Program.Verbosity
import LineCensus.Proofs.FileTree.Links
import LineCensus.Proofs.Walk.Spelling
import LineCensus.Proofs.Scan.Spelling
import LineCensus.Proofs.Scan.Extensions
import LineCensus.Proofs.Scan.Links
import LineCensus.Proofs.Invocation.Usage
import LineCensus.Proofs.Line
import LineCensus.Proofs.Settings.Usable
import LineCensus.Proofs.Scan.Size
import LineCensus.Proofs.Report

import CssPrune.Filter
import CssPrune.Proofs.Analysis
import CssPrune.Proofs.PlainTree
import CssPrune.Proofs.Output
import CssPrune.Proofs.ClassSheet
import CssPrune.Proofs.Keeping
import CssPrune.Proofs.Layouts
import CssPrune.Proofs.Documents
import CssPrune.Proofs.Places
import CssPrune.Proofs.Tiling
import CssPrune.Proofs.Faults
import CssPrune.Proofs.Errors
import CssPrune.Proofs.Slices
import CssPrune.Proofs.Isolation
import CssPrune.Proofs.Alone
import CssPrune.Proofs.Stability
import CssPrune.Proofs.Fragments
import CssPrune.Proofs.Counting
import CssPrune.Proofs.Monotone
import CssPrune.Proofs.Nodes
import CssPrune.Proofs.Commas
import CssPrune.Proofs.Scattered
import CssPrune.Proofs.Compounds
import CssPrune.Proofs.Pieces
import CssPrune.Proofs.Nested
import CssPrune.Proofs.Neighbours
import CssPrune.Proofs.SameTokens
import CssPrune.Proofs.Importance
import CssPrune.Proofs.Indentation
import CssPrune.Proofs.Notices
import CssPrune.Proofs.Json
import CssPrune.Proofs.OptionsText
import CssPrune.Proofs.Decoding

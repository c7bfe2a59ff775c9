import LineTokens.Buffer.Checked
import LineTokens.Comparison.Grammar
import LineTokens.Comparison.Segmentation
import LineTokens.Proofs.Analysis.Convergence
import LineTokens.Proofs.Server.Deltas
import LineTokens.Proofs.Server.Incremental
import LineTokens.Proofs.Buffer.Representation
import LineTokens.Proofs.Buffer.History
import LineTokens.Proofs.Buffer.Linearizable
import LineTokens.Proofs.Buffer.Deliveries
import LineTokens.Proofs.Encoding.Splice
import LineTokens.Proofs.Server.Splices
import LineTokens.Proofs.Encoding.RoundTrip
import LineTokens.Proofs.Server.Isolation
import LineTokens.Proofs.Analysis.Idle
import LineTokens.Proofs.Analysis.Replay
import LineTokens.Proofs.Analysis.Supersession
import LineTokens.Proofs.Server.Erasure
import LineTokens.Proofs.Server.Insertions
import LineTokens.Proofs.Server.Opening
import LineTokens.Proofs.Token.Refinement
import LineTokens.Proofs.Buffer.Columns
import LineTokens.Proofs.Buffer.Framing
import LineTokens.Proofs.Buffer.Confluence
import LineTokens.Proofs.Encoding.Batches
import LineTokens.Proofs.Comparison.Trees
import LineTokens.Proofs.Comparison.Failures
import LineTokens.Proofs.Comparison.Leftmost
import LineTokens.Proofs.Wire.RoundTrip
import LineTokens.Proofs.Server.Partial
import LineTokens.Proofs.Analysis.Drains

import SecureBoot.Error
import SecureBoot.Step
import SecureBoot.Bytes.Basic
import SecureBoot.Bytes.LittleEndian
import SecureBoot.Bytes.Block
import SecureBoot.Header.Basic
import SecureBoot.Header.Parser
import SecureBoot.Mode.Basic
import SecureBoot.Mode.Fused
import SecureBoot.Mode.Resolution
import SecureBoot.Mode.Plan
import SecureBoot.BinaryType
import SecureBoot.Chip
import SecureBoot.Window
import SecureBoot.Digest
import SecureBoot.Board.FuseBank
import SecureBoot.Board.Engine
import SecureBoot.Board.Basic
import SecureBoot.Board.FuseReading
import SecureBoot.SubkeyCache
import SecureBoot.Session.Chain
import SecureBoot.Session.Operations
import SecureBoot.Session.Basic
import SecureBoot.Session.Push
import SecureBoot.Session.Finalize
import SecureBoot.Session.History
import SecureBoot.Rollback.Level
import SecureBoot.Rollback.Metadata
import SecureBoot.Rollback.Token
import SecureBoot.Rollback.Guard
import SecureBoot.Authenticator
import SecureBoot.Authenticator.History
import SecureBoot.Proofs.Ensures
import SecureBoot.Proofs.Trace
import SecureBoot.Proofs.Envelope
import SecureBoot.Proofs.Operations
import SecureBoot.Proofs.SettingUp
import SecureBoot.Proofs.Outline
import SecureBoot.Proofs.Progress
import SecureBoot.Proofs.Position
import SecureBoot.Proofs.Accepting
import SecureBoot.Proofs.Pushing
import SecureBoot.Proofs.Verdict
import SecureBoot.Proofs.Course
import SecureBoot.Proofs.Release
import SecureBoot.Proofs.Feeding
import SecureBoot.Proofs.Chunking
import SecureBoot.Proofs.Reference
import SecureBoot.Proofs.Calls
import SecureBoot.Proofs.Counter
import SecureBoot.Proofs.Readings
import SecureBoot.Proofs.Enforcement
import SecureBoot.Proofs.Turns
import SecureBoot.Proofs.Burning
import SecureBoot.Proofs.Bypass
import SecureBoot.Proofs.Floors
import SecureBoot.Proofs.Precedence
import SecureBoot.Proofs.Changes
import SecureBoot.Proofs.Bounds
import SecureBoot.Proofs.Checked
import SecureBoot.Proofs.CheckedSession
import SecureBoot.Proofs.InRange
import SecureBoot.Proofs.Output
import SecureBoot.Proofs.Policy
import SecureBoot.Proofs.Mixing
import SecureBoot.Proofs.Tampering
import SecureBoot.Proofs.Stopping
import SecureBoot.Proofs.Fusing
import SecureBoot.Proofs.Lockstep
import SecureBoot.Proofs.Likeness
import SecureBoot.Proofs.Parallel
import SecureBoot.Proofs.Independence
import SecureBoot.Proofs.Blindness
import SecureBoot.Proofs.Recency
import SecureBoot.Proofs.Cursors
import SecureBoot.Proofs.Indifference
import SecureBoot.Proofs.Deriving
import SecureBoot.Proofs.KeyMaterial
import SecureBoot.Proofs.Surplus
import SecureBoot.Proofs.Processing
import SecureBoot.Proofs.OneShot
import SecureBoot.Proofs.Defects
import SecureBoot.Proofs.Parsing
import SecureBoot.Proofs.Encoding
import SecureBoot.Proofs.FailFast
import SecureBoot.Proofs.FuseService
import SecureBoot.Proofs.Decision
import SecureBoot.Proofs.Tiling
import SecureBoot.Proofs.WordWindow

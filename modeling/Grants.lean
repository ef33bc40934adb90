import Grants.Wire.Faithful
import Grants.PlainStore
import Grants.ByteStore.Command
import Grants.Proofs.ByteStore.Key
import Grants.Proofs.ByteStore.Record
import Grants.Proofs.Store.Lawful
import Grants.Proofs.PlainStore.Lawful
import Grants.Proofs.ByteStore.Lawful
import Grants.Proofs.Check.Findings
import Grants.Proofs.Sample
import Grants.Proofs.Check.Pointwise
import Grants.Proofs.Run.Basic
import Grants.Proofs.Run.Limit
import Grants.Proofs.Run.Cooldown
import Grants.Proofs.ByteStore.Refinement
import Grants.Proofs.ByteStore.Invariant
import Grants.Proofs.ByteStore.WellFormed
import Grants.Proofs.Check.Refusal
import Grants.Proofs.Check.Failure
import Grants.Proofs.Check.Preview
import Grants.Proofs.Check.Order
import Grants.Proofs.Check.Evaluation
import Grants.Proofs.Flag.Derivation
import Grants.Proofs.Flag.Covers
import Grants.Proofs.Flag.Includes
import Grants.Proofs.Flag.BestMatch
import Grants.Proofs.Flag.Specificity
import Grants.Proofs.Flag.TakeOver
import Grants.Proofs.Wire.RoundTrip
import Grants.Proofs.Store.Isolation
import Grants.Proofs.ByteStore.Isolation
import Grants.Proofs.ByteStore.Transaction
import Grants.Proofs.Expiry
import Grants.Proofs.ByteStore.Parts
import Grants.Proofs.ByteStore.Order
import Grants.Proofs.ByteStore.Listing
import Grants.Proofs.Flag.Strict
import Grants.Proofs.Flag.Key
import Grants.Proofs.ByteStore.Lines
import Grants.Proofs.Store.Bookkeeping
import Grants.Proofs.PlainStore.Bookkeeping
import Grants.Proofs.ByteStore.Bookkeeping
import Grants.Proofs.ByteStore.Registry
import Grants.Proofs.ByteStore.Canonical
import Grants.Proofs.Distinct
import Grants.Proofs.FlagSet.Built

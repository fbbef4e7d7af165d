import ValueMachine.Main
import ValueMachine.Report.Life
import ValueMachine.Host.Hash
import ValueMachine.Proofs.Ownership.Reachable
import ValueMachine.Proofs.Calls.Verdicts
import ValueMachine.Proofs.Instances.Keeping
import ValueMachine.Proofs.Instances.Operations
import ValueMachine.Proofs.Instances.Claims
import ValueMachine.Proofs.Exceptions.Bearing
import ValueMachine.Proofs.Exceptions.Crossing
import ValueMachine.Proofs.Ownership.Inspection
import ValueMachine.Proofs.Ownership.Teardown
import ValueMachine.Proofs.Documents.RoundTrip
import ValueMachine.Proofs.Hosting.Current
import ValueMachine.Proofs.Hosting.Counters
import ValueMachine.Proofs.Passage.Sprouts
import ValueMachine.Proofs.Passage.HostTypes
import ValueMachine.Proofs.Passage.Perusals
import ValueMachine.Proofs.Passage.Readings
import ValueMachine.Proofs.Passage.Passing
import ValueMachine.Proofs.Passage.Transplants
import ValueMachine.Proofs.Passage.Documents
import ValueMachine.Proofs.Passage.Carrying
import ValueMachine.Proofs.Custody.Changes
import ValueMachine.Proofs.Custody.Steps
import ValueMachine.Proofs.Sources.Scanning
import ValueMachine.Proofs.Sources.Structure
import ValueMachine.Proofs.Custody.Values
import ValueMachine.Proofs.Custody.Evaluation
import ValueMachine.Proofs.Custody.Calls
import ValueMachine.Proofs.Sources.Endings
import ValueMachine.Proofs.Custody.Apart
import ValueMachine.Proofs.Custody.Boundary
import ValueMachine.Proofs.Custody.Libraries
import ValueMachine.Proofs.Custody.Copies
import ValueMachine.Proofs.Custody.Parameters
import ValueMachine.Proofs.Custody.Separation
import ValueMachine.Proofs.Calls.Settling
import ValueMachine.Proofs.Calls.Routes
import ValueMachine.Proofs.Calls.Delivery
import ValueMachine.Proofs.Classes.Searches
import ValueMachine.Proofs.Ownership.Refusals
import ValueMachine.Proofs.Containers.Copies
import ValueMachine.Proofs.Containers.Deletions
import ValueMachine.Proofs.Conversions.Failings
import ValueMachine.Proofs.Conversions.Positions
import ValueMachine.Proofs.Iterations.Walks
import ValueMachine.Proofs.Iterations.Inspections
import ValueMachine.Proofs.Iterations.Surveys
import ValueMachine.Proofs.Iterations.Tours
import ValueMachine.Proofs.Documents.Keyed
import ValueMachine.Proofs.Numbers.Numerals
import ValueMachine.Proofs.Numbers.Scanning
import ValueMachine.Proofs.Numbers.Reading
import ValueMachine.Proofs.Numbers.Slots
import ValueMachine.Proofs.Numbers.Agreement
import ValueMachine.Proofs.Numbers.Normality
import ValueMachine.Proofs.Numbers.Integers
import ValueMachine.Proofs.Conversions.Maps
import ValueMachine.Proofs.Numbers.Truths
import ValueMachine.Proofs.Sources.Keys
import ValueMachine.Proofs.Sources.Requirements
import ValueMachine.Proofs.Containers.Gifts
import ValueMachine.Proofs.Containers.Sequences
import ValueMachine.Proofs.Ownership.Deaths
import ValueMachine.Proofs.Conversions.Loans
import ValueMachine.Proofs.Conversions.Borrowing
import ValueMachine.Proofs.Conversions.Repayments
import ValueMachine.Proofs.Numbers.Casts
import ValueMachine.Proofs.Calls.NestedCalls

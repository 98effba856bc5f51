import CipherLink.Client.Busy
import CipherLink.Client.Shared
import CipherLink.Deployment.Connect
import CipherLink.Deployment.Exchange
import CipherLink.Deployment.Report
import CipherLink.Frame.Run
import CipherLink.Frame.Steps
import CipherLink.Greeting
import CipherLink.Handshake.Meeting
import CipherLink.Handshake.Transcript
import CipherLink.KeyExchange
import CipherLink.Main
import CipherLink.Proofs.Announcements
import CipherLink.Proofs.BlockCipher
import CipherLink.Proofs.Cbor.Items
import CipherLink.Proofs.Cbor.Records
import CipherLink.Proofs.Chaining
import CipherLink.Proofs.ClientMaps
import CipherLink.Proofs.Confluence
import CipherLink.Proofs.ConnectedSends
import CipherLink.Proofs.Connecting
import CipherLink.Proofs.ContainerChanges
import CipherLink.Proofs.Crossings
import CipherLink.Proofs.Cuts
import CipherLink.Proofs.Dialogues
import CipherLink.Proofs.Exits
import CipherLink.Proofs.FailingSinks
import CipherLink.Proofs.FirstFrames
import CipherLink.Proofs.Frame.Fronts
import CipherLink.Proofs.Frame.Outcomes
import CipherLink.Proofs.Frame.Parcels
import CipherLink.Proofs.FrameSafety
import CipherLink.Proofs.FrameSizes
import CipherLink.Proofs.Frames
import CipherLink.Proofs.Handshake.Agreement
import CipherLink.Proofs.Handshake.Contents
import CipherLink.Proofs.Handshake.Deliveries
import CipherLink.Proofs.Handshake.Disclosure
import CipherLink.Proofs.Handshake.Filing
import CipherLink.Proofs.Handshake.Limits
import CipherLink.Proofs.Handshake.Outcome
import CipherLink.Proofs.Handshake.PeerKeys
import CipherLink.Proofs.Handshake.Remainder
import CipherLink.Proofs.Handshake.Soundness
import CipherLink.Proofs.Handshake.Stages
import CipherLink.Proofs.Handshake.Transmission
import CipherLink.Proofs.Handshake.Wire
import CipherLink.Proofs.Identifiers
import CipherLink.Proofs.Interruptions
import CipherLink.Proofs.KeyHistories
import CipherLink.Proofs.KeySchedule
import CipherLink.Proofs.Offers
import CipherLink.Proofs.Packets
import CipherLink.Proofs.Pairs
import CipherLink.Proofs.Pem
import CipherLink.Proofs.PersistedKeys
import CipherLink.Proofs.RecordFronts
import CipherLink.Proofs.Refusals
import CipherLink.Proofs.Registrations
import CipherLink.Proofs.Relays
import CipherLink.Proofs.Requests.Accounts
import CipherLink.Proofs.Requests.AtOnce
import CipherLink.Proofs.Requests.Moves
import CipherLink.Proofs.Requests.Runs
import CipherLink.Proofs.Responses
import CipherLink.Proofs.Retries
import CipherLink.Proofs.Rsa.Chunks
import CipherLink.Proofs.Rsa.Generation
import CipherLink.Proofs.Rsa.Inversion
import CipherLink.Proofs.Rsa.KeyText
import CipherLink.Proofs.Rsa.KeyTransfer
import CipherLink.Proofs.Server.Hearings
import CipherLink.Proofs.Server.InStep
import CipherLink.Proofs.Server.Owing
import CipherLink.Proofs.Server.Relaying
import CipherLink.Proofs.Server.Runs
import CipherLink.Proofs.Server.Shapes
import CipherLink.Proofs.Server.TargetedSends
import CipherLink.Proofs.Server.Turns
import CipherLink.Proofs.StampedCopies
import CipherLink.Proofs.StoredKeys
import CipherLink.Proofs.StrongestCommon
import CipherLink.Proofs.Subscriptions.Histories
import CipherLink.Proofs.Subscriptions.Rosters
import CipherLink.Proofs.Tolerance
import CipherLink.Proofs.Traffic
import CipherLink.Proofs.Truncation
import CipherLink.Proofs.WireRecords
import CipherLink.Registry
import CipherLink.Server.Moves
import CipherLink.Subscriptions.Script
